import FirmwareTools.Bytes.Align
import FirmwareTools.Bytes.SparseFile
import FirmwareTools.Squashfs.ReadFile

/-! # The writer of `unsquashfs`

`write_file` queues the blocks of a file, and the writer thread puts them into the file. Missing blocks are
counted until there is something to write behind them; then the writer seeks over them, or writes zero
bytes where a file is not to be sparse or where a seek has failed.

* **`writer_exact`** — the file that is written has the bytes of the entries, whatever the seeks do;
* **`writer_eq_writePieces`** — it is the one that the pieces of the file make;
* **`writeFile_exact`** — with what `write_file` queues it is as long as the inode says. -/

namespace FirmwareTools.Squashfs

/-! ## What is queued -/

/-- A buffer of the caches of `unsquashfs`: which one it is, its memory, and whether its block could not be
read. -/
structure DataBuffer where
  entry : ℕ
  data : ℕ → UInt8
  error : Bool

/-- A `struct file_entry`; no buffer is a hole. -/
structure FileEntry where
  offset : ℕ
  size : ℕ
  buffer : Option DataBuffer

/-- What an entry puts into the file. -/
def FileEntry.bytes (block : FileEntry) : List UInt8 :=
  match block.buffer with
  | none => List.replicate block.size 0
  | some buffer => (List.range block.size).map fun i => buffer.data (block.offset + i)

/-- What the writer knows of a file. -/
structure SquashfsFile where
  fileSize : ℕ
  sparse : Bool

/-! ## The writer -/

/-- How the calls of the host end: whether a seek is possible, and after how many bytes a write fails, if it
does. -/
structure WriterHost where
  lseek : ℕ → Bool
  write : ℕ → Option ℕ
  ftruncate : Bool

/-- The writes and truncations succeed. -/
structure WriterHost.Writes (host : WriterHost) : Prop where
  write : ∀ n, host.write n = none
  ftruncate : host.ftruncate = true

/-- The file being written, `lseek_broken`, how many calls the host has answered, and the buffers that were
put back. -/
structure WriterState where
  file : SparseFile := {}
  lseekBroken : Bool := false
  seeks : ℕ := 0
  writes : ℕ := 0
  puts : List ℕ := []

section

variable (host : WriterHost) (blockSize : ℕ)

/-- `lseek(fd, offset, SEEK_CUR)`; whether it succeeds. -/
def lseek (offset : ℕ) (s : WriterState) : Bool × WriterState :=
  if host.lseek s.seeks then (true, { s with file := s.file.seek offset, seeks := s.seeks + 1 })
  else (false, { s with seeks := s.seeks + 1 })

/-- `write_bytes`: interrupted and short writes are tried again, until all is written or it fails. -/
def writeAll (bytes : List UInt8) (s : WriterState) : Bool × WriterState :=
  if bytes = [] then (true, s)
  else match host.write s.writes with
    | none => (true, { s with file := s.file.write bytes, writes := s.writes + 1 })
    | some n => (false, { s with file := s.file.write (bytes.take n), writes := s.writes + 1 })

/-- The loop of `write_block` that writes a hole. -/
def writeZeros : ℕ → ℕ → WriterState → Bool × WriterState
  | 0, _, s => (true, s)
  | blocks + 1, hole, s =>
    let availBytes := if hole > blockSize then blockSize else hole
    let (ok, s) := writeAll host (List.replicate availBytes 0) s
    if ok then writeZeros blocks (hole - availBytes) s else (false, s)

/-- The number of blocks of a hole, in an `int`. -/
def holeBlocks (hole : ℕ) : Int := toInt32 ((hole + blockSize - 1) / blockSize : ℕ)

/-- The part of `write_block` for the hole. -/
def writeHole (hole : ℕ) (sparse : Bool) (s : WriterState) : Bool × WriterState :=
  if hole = 0 then (true, s)
  else
    -- a seek beyond the end that fails is the last one that is tried
    let s :=
      if sparse && !s.lseekBroken then
        let (ok, s) := lseek host hole s
        if ok then s else { s with lseekBroken := true }
      else s
    if !sparse || s.lseekBroken then writeZeros host blockSize (holeBlocks blockSize hole).toNat hole s
    else (true, s)

def writeBlock (buffer : List UInt8) (hole : ℕ) (sparse : Bool) (s : WriterState) : Bool × WriterState :=
  let (ok, s) := writeHole host blockSize hole sparse s
  if ok then writeAll host buffer s else (false, s)

/-- The loop of the writer: the hole at the end, and whether it failed. -/
def writerLoop (sparse : Bool) : List FileEntry → ℕ → Bool → WriterState → ℕ × Bool × WriterState
  | [], hole, failed, s => (hole, failed, s)
  | block :: blocks, hole, failed, s =>
    match block.buffer with
    | none => writerLoop sparse blocks (hole + block.size) failed s
    | some buffer =>
      -- the buffers of what is skipped are not put back
      if failed || buffer.error then writerLoop sparse blocks hole true s
      else
        let (ok, s) := writeBlock host blockSize block.bytes hole sparse s
        writerLoop sparse blocks 0 (!ok) { s with puts := s.puts ++ [buffer.entry] }

/-- The hole at the end of a file. -/
def writeEnd (file : SquashfsFile) (hole : ℕ) (s : WriterState) : Bool × WriterState :=
  let (ok, s) := if file.sparse then lseek host hole s else (false, s)
  if !ok then writeBlock host blockSize [0] (hole - 1) file.sparse s
  else if host.ftruncate then (true, { s with file := s.file.truncate file.fileSize })
  else (false, s)

/-- `writer`, for one file and what is queued for it: whether it failed. -/
def writer (file : SquashfsFile) (blocks : List FileEntry) (s : WriterState) : Bool × WriterState :=
  let (hole, failed, s) := writerLoop host blockSize file.sparse blocks 0 false s
  if hole ≠ 0 ∧ !failed then
    let (ok, s) := writeEnd host blockSize file hole s
    (!ok, s)
  else (failed, s)

end

/-- What the writer can rely on: the entries make up the file, which has no more blocks than an `int`
counts, and a block that is stored is not empty. -/
structure Queued (blockSize : ℕ) (file : SquashfsFile) (blocks : List FileEntry) : Prop where
  fileSize : (blocks.map FileEntry.size).sum = file.fileSize
  fits : file.fileSize ≤ (2 ^ 31 - 1) * blockSize
  nonempty : ∀ block ∈ blocks, block.buffer ≠ none → 0 < block.size

/-! ## `write_file` -/

section

variable (blockSize : ℕ)

/-- The loop of `write_file` over the block list, from block `i` on. The last block of a file may be a part
of one. -/
def queueEntries (fileSize : ℕ) (dataCache : ℕ → ℕ → DataBuffer) : ℕ → ℕ → List ℕ → List FileEntry
  | _, _, [] => []
  | i, start, cByte :: blockList =>
    -- `file_end` is an `int`, which is compared with an unsigned number
    let size := if i = fileSize / blockSize % 2 ^ 32 then fileSize % blockSize else blockSize
    if cByte = 0 then ⟨0, size, none⟩ :: queueEntries fileSize dataCache (i + 1) start blockList
    else ⟨0, size, some (dataCache start cByte)⟩ ::
      queueEntries fileSize dataCache (i + 1) (start + compressedSizeBlock cByte) blockList

/-- `write_file` of `unsquashfs`: what it says of a file to the writer, and the entries that it queues. -/
def queueFile (dataCache : ℕ → ℕ → DataBuffer) (fragmentCache : ℕ → DataBuffer) (i : Inode)
    (blockList : List ℕ) : SquashfsFile × List FileEntry :=
  ({ fileSize := i.data.toNat, sparse := i.sparse },
    queueEntries blockSize i.data.toNat dataCache 0 i.start blockList ++
      if i.fragBytes = 0 then []
      else [⟨i.offset, i.fragBytes.toNat, some (fragmentCache i.fragment)⟩])

end

section

variable {blockSize fileSize : ℕ} {dataCache : ℕ → ℕ → DataBuffer}

/-- The sizes of the entries, up to the end of the file. -/
theorem sum_queueEntries (hsmall : fileSize / blockSize < 2 ^ 32) (blockList : List ℕ) (i start : ℕ)
    (hle : i + blockList.length ≤ fileSize / blockSize + 1) (hi : i ≤ fileSize / blockSize) :
    i * blockSize + ((queueEntries blockSize fileSize dataCache i start blockList).map FileEntry.size).sum =
      if i + blockList.length = fileSize / blockSize + 1 then fileSize
      else (i + blockList.length) * blockSize := by
  induction blockList generalizing i start with
  | nil =>
      rw [List.length_nil, Nat.add_zero, if_neg (by omega)]
      rfl
  | cons cByte blockList ih =>
      rw [List.length_cons] at hle ⊢
      have hsizes : ((queueEntries blockSize fileSize dataCache i start (cByte :: blockList)).map
          FileEntry.size).sum = (if i = fileSize / blockSize then fileSize % blockSize else blockSize) +
          ((queueEntries blockSize fileSize dataCache (i + 1)
            (if cByte = 0 then start else start + compressedSizeBlock cByte) blockList).map
              FileEntry.size).sum := by
        rw [queueEntries, Nat.mod_eq_of_lt hsmall]
        by_cases hzero : cByte = 0 <;> simp [hzero]
      rw [hsizes]
      by_cases hend : i = fileSize / blockSize
      · -- the last block of the file
        obtain rfl : blockList = [] := List.length_eq_zero_iff.mp (by omega)
        have hmod := Nat.div_add_mod' fileSize blockSize
        rw [List.length_nil, if_pos hend, if_pos (show i + (0 + 1) = fileSize / blockSize + 1 by omega),
          queueEntries, List.map_nil, List.sum_nil, Nat.add_zero, hend]
        exact hmod
      · have hrest := ih (i + 1) (if cByte = 0 then start else start + compressedSizeBlock cByte)
          (by omega) (by omega)
        rw [if_neg hend, ← Nat.add_assoc, ← Nat.succ_mul, Nat.succ_eq_add_one, hrest,
          show i + 1 + blockList.length = i + (blockList.length + 1) by omega]

/-- A block that is stored is not empty. -/
theorem pos_of_mem_queueEntries (hblock : 0 < blockSize) (hsmall : fileSize / blockSize < 2 ^ 32)
    (blockList : List ℕ) (i start : ℕ)
    (hle : i + blockList.length ≤ (fileSize + blockSize - 1) / blockSize) {block : FileEntry}
    (hmem : block ∈ queueEntries blockSize fileSize dataCache i start blockList) : 0 < block.size := by
  induction blockList generalizing i start with
  | nil => exact absurd hmem List.not_mem_nil
  | cons cByte blockList ih =>
      rw [List.length_cons] at hle
      have hsize : 0 < if i = fileSize / blockSize % 2 ^ 32 then fileSize % blockSize else blockSize := by
        rw [Nat.mod_eq_of_lt hsmall]
        split
        · rename_i hend
          -- a file of whole blocks only has no block behind them
          rw [Nat.pos_iff_ne_zero]
          intro hzero
          rw [add_pred_div fileSize hblock, if_pos hzero] at hle
          omega
        · exact hblock
      have hsplit : block.size = (if i = fileSize / blockSize % 2 ^ 32 then fileSize % blockSize
          else blockSize) ∨ block ∈ queueEntries blockSize fileSize dataCache (i + 1)
            (if cByte = 0 then start else start + compressedSizeBlock cByte) blockList := by
        rw [queueEntries] at hmem
        by_cases hzero : cByte = 0
        · rw [if_pos hzero] at hmem ⊢
          rcases List.mem_cons.mp hmem with rfl | hmem
          · exact Or.inl rfl
          · exact Or.inr hmem
        · rw [if_neg hzero] at hmem ⊢
          rcases List.mem_cons.mp hmem with rfl | hmem
          · exact Or.inl rfl
          · exact Or.inr hmem
      rcases hsplit with hself | hrest
      · rwa [hself]
      · exact ih _ _ (by omega) hrest

/-- **What `write_file` queues** is what the writer relies on, for a file whose blocks an `int` counts. -/
theorem queueFile_queued {env : DataEnv} {t : InodeTable} (ht : t.For env)
    (fragmentCache : ℕ → DataBuffer) {i : Inode} {blockList : List ℕ} (hdata : i.data = fileSize)
    (hblocks : i.blocks = t.blocks fileSize i.fragment)
    (hfragBytes : i.fragBytes = t.fragBytes fileSize i.fragment)
    (hlist : blockList.length = i.blocks.toNat)
    (hsmall : (fileSize + env.blockSize - 1) / env.blockSize < 2 ^ 31) :
    Queued env.blockSize (queueFile env.blockSize dataCache fragmentCache i blockList).1
      (queueFile env.blockSize dataCache fragmentCache i blockList).2 := by
  have hpos := env.blockSize_pos
  have hmod := Nat.div_add_mod' fileSize env.blockSize
  have hlt := Nat.mod_lt fileSize hpos
  have hle : fileSize / env.blockSize ≤ (fileSize + env.blockSize - 1) / env.blockSize :=
    Nat.div_le_div_right (by omega)
  have hdiv : fileSize / env.blockSize < 2 ^ 32 := by omega
  rw [blocks_eq ht, toInt32_of_lt (by split <;> omega)] at hblocks
  rw [fragBytes_eq ht] at hfragBytes
  have hcount : blockList.length = if i.fragment = invalidFrag then
      (fileSize + env.blockSize - 1) / env.blockSize else fileSize / env.blockSize := by
    rw [hlist, hblocks]
    split <;> exact Int.toNat_natCast _
  have hceil := add_pred_div fileSize hpos
  have hlast : blockList.length ≤ (fileSize + env.blockSize - 1) / env.blockSize := by
    split at hcount <;> omega
  have hsum := @sum_queueEntries env.blockSize fileSize dataCache hdiv blockList 0 i.start
    (by split at hceil <;> omega) (Nat.zero_le _)
  rw [Nat.zero_mul, Nat.zero_add, Nat.zero_add] at hsum
  have hbytes : i.fragBytes.toNat = if i.fragment = invalidFrag then 0 else fileSize % env.blockSize := by
    rw [hfragBytes, Int.toNat_natCast]
  have htotal : ((queueEntries env.blockSize fileSize dataCache 0 i.start blockList).map
      FileEntry.size).sum = fileSize - i.fragBytes.toNat := by
    rw [hsum, hcount, hbytes]
    by_cases hfragment : i.fragment = invalidFrag
    · rw [if_pos hfragment, if_pos hfragment, hceil, Nat.sub_zero]
      by_cases hzero : fileSize % env.blockSize = 0
      · rw [if_pos hzero, if_neg (by omega)]
        omega
      · rw [if_neg hzero, if_pos rfl]
    · rw [if_neg hfragment, if_neg hfragment, if_neg (by omega)]
      omega
  have hle' : i.fragBytes.toNat ≤ fileSize := by
    rw [hbytes]
    split
    · exact Nat.zero_le _
    · exact Nat.mod_le _ _
  rw [queueFile, hdata, Int.toNat_natCast]
  constructor
  · -- the blocks, and the rest of the file in its fragment
    rw [List.map_append, List.sum_append, htotal]
    split
    · rename_i hnone
      rw [hnone, List.map_nil, List.sum_nil, Int.toNat_zero, Nat.sub_zero, Nat.add_zero]
    · rw [List.map_singleton, List.sum_singleton]
      exact Nat.sub_add_cancel hle'
  · show fileSize ≤ (2 ^ 31 - 1) * env.blockSize
    have hcover := Nat.lt_div_mul_add (a := fileSize + env.blockSize - 1) hpos
    have hmul := Nat.mul_le_mul_right env.blockSize (Nat.le_sub_one_of_lt hsmall)
    omega
  · intro block hmem hbuffer
    rcases List.mem_append.mp hmem with hmem | hmem
    · exact pos_of_mem_queueEntries hpos hdiv blockList 0 i.start (by omega) hmem
    · split at hmem
      · exact absurd hmem List.not_mem_nil
      · rename_i hsome
        rw [List.mem_singleton.mp hmem]
        show 0 < i.fragBytes.toNat
        omega

end

/-! ## What is written -/

section

variable {host : WriterHost} {blockSize : ℕ} {sparse : Bool} {s : WriterState} {data : List UInt8}

theorem FileEntry.length_bytes (block : FileEntry) : block.bytes.length = block.size := by
  unfold FileEntry.bytes
  split
  · exact List.length_replicate
  · rw [List.length_map, List.length_range]

theorem length_flatMap_bytes (blocks : List FileEntry) :
    (blocks.flatMap FileEntry.bytes).length = (blocks.map FileEntry.size).sum := by
  simp [List.length_flatMap, FileEntry.length_bytes]

theorem writeAll_writes (hhost : host.Writes) (bytes : List UInt8) (s : WriterState) :
    ∃ s', writeAll host bytes s = (true, s') ∧ s'.file = s.file.write bytes ∧ s'.puts = s.puts := by
  rw [writeAll]
  split
  · rename_i hnil
    refine ⟨s, rfl, ?_, rfl⟩
    rw [hnil, SparseFile.write, if_pos rfl]
  · rw [hhost.write]
    exact ⟨_, rfl, rfl, rfl⟩

/-- A hole that is written, however many blocks it has. -/
theorem writeZeros_writes (hhost : host.Writes) {blocks hole : ℕ} (hblocks : hole ≤ blocks * blockSize)
    (h : s.file.Ends data) :
    ∃ s', writeZeros host blockSize blocks hole s = (true, s') ∧
      s'.file.Ends (data ++ List.replicate hole 0) ∧ s'.puts = s.puts := by
  induction blocks generalizing hole s data with
  | zero =>
      obtain rfl : hole = 0 := by omega
      exact ⟨s, rfl, by simpa using h, rfl⟩
  | succ blocks ih =>
      rw [Nat.succ_mul] at hblocks
      unfold writeZeros
      dsimp only
      generalize havail : (if hole > blockSize then blockSize else hole) = availBytes
      have hle : availBytes ≤ hole ∧ hole - availBytes ≤ blocks * blockSize := by
        split at havail <;> omega
      obtain ⟨s₁, hwrite, hfile, hputs⟩ := writeAll_writes hhost (List.replicate availBytes 0) s
      obtain ⟨s', hrest, hends, hputs'⟩ := ih hle.2 (hfile ▸ h.write (List.replicate availBytes 0))
      rw [hwrite]
      refine ⟨s', hrest, ?_, hputs'.trans hputs⟩
      rw [List.append_assoc, ← List.replicate_add, Nat.add_sub_cancel' hle.1] at hends
      exact hends

theorem le_holeBlocks {hole : ℕ} (hfits : hole ≤ (2 ^ 31 - 1) * blockSize) :
    hole ≤ (holeBlocks blockSize hole).toNat * blockSize := by
  rcases Nat.eq_zero_or_pos blockSize with rfl | hpos
  · omega
  have hsmall : (hole + blockSize - 1) / blockSize < 2 ^ 31 := by
    rw [Nat.div_lt_iff_lt_mul hpos]
    omega
  have hdiv := Nat.lt_div_mul_add (a := hole + blockSize - 1) hpos
  rw [holeBlocks, toInt32_of_lt hsmall, Int.toNat_natCast]
  omega

/-- **A hole is put into the file**, by a seek or as zero bytes. -/
theorem writeHole_writes (hhost : host.Writes) {hole : ℕ} (hfits : hole ≤ (2 ^ 31 - 1) * blockSize)
    (h : s.file.Ends data) :
    ∃ s', writeHole host blockSize hole sparse s = (true, s') ∧
      s'.file.Ends (data ++ List.replicate hole 0) ∧ s'.puts = s.puts := by
  have hzeros : ∀ s₁ : WriterState, s₁.file = s.file → s₁.puts = s.puts →
      ∃ s', writeZeros host blockSize (holeBlocks blockSize hole).toNat hole s₁ = (true, s') ∧
        s'.file.Ends (data ++ List.replicate hole 0) ∧ s'.puts = s.puts := by
    intro s₁ hfile hputs
    obtain ⟨s', hrun, hends, hputs'⟩ := writeZeros_writes hhost (le_holeBlocks hfits) (hfile ▸ h)
    exact ⟨s', hrun, hends, hputs'.trans hputs⟩
  rw [writeHole]
  split
  · rename_i hzero
    exact ⟨s, rfl, by simpa [hzero] using h, rfl⟩
  · dsimp only
    cases hsparse : sparse with
    | false =>
        simp only [Bool.false_and, Bool.false_eq_true, if_false, Bool.not_false, Bool.true_or, if_true]
        exact hzeros s rfl rfl
    | true =>
        cases hbroken : s.lseekBroken with
        | true =>
            simp only [Bool.not_true, Bool.and_false, Bool.false_eq_true, if_false, hbroken, Bool.or_true,
              if_true]
            exact hzeros s rfl rfl
        | false =>
            simp only [Bool.not_false, Bool.and_true, if_true, lseek, Bool.not_true, Bool.false_or]
            by_cases hseek : host.lseek s.seeks = true
            · simp only [hseek, if_true, hbroken, Bool.false_eq_true, if_false]
              exact ⟨_, rfl, h.seek hole, rfl⟩
            · simp only [hseek, Bool.false_eq_true, if_false, if_true]
              exact hzeros _ rfl rfl

/-- **A block is put behind a hole.** -/
theorem writeBlock_writes (hhost : host.Writes) {hole : ℕ} (hfits : hole ≤ (2 ^ 31 - 1) * blockSize)
    (h : s.file.Ends data) {buffer : List UInt8} (hbuffer : buffer ≠ []) :
    ∃ s', writeBlock host blockSize buffer hole sparse s = (true, s') ∧
      s'.file.content = data ++ List.replicate hole 0 ++ buffer ∧
      s'.file.pos = (data ++ List.replicate hole 0 ++ buffer).length ∧ s'.puts = s.puts := by
  obtain ⟨s₁, hhole, hends, hputs⟩ := @writeHole_writes host blockSize sparse s data hhost hole hfits h
  obtain ⟨s', hwrite, hfile, hputs'⟩ := writeAll_writes hhost buffer s₁
  rw [writeBlock, hhole]
  refine ⟨s', hwrite, ?_, ?_, hputs'.trans hputs⟩
  · rw [hfile]
    exact hends.content_write hbuffer
  · rw [hfile]
    exact hends.pos_write buffer

/-- **The loop of the writer**: behind each block that is written the file is as long as what was written,
and the hole is all that is missing. -/
theorem writerLoop_writes (hhost : host.Writes) (blocks : List FileEntry)
    (hread : ∀ block ∈ blocks, ∀ buffer ∈ block.buffer, buffer.error = false)
    (hnonempty : ∀ block ∈ blocks, block.buffer ≠ none → 0 < block.size) {hole : ℕ}
    (hfits : hole + (blocks.map FileEntry.size).sum ≤ (2 ^ 31 - 1) * blockSize)
    (hpos : s.file.pos = data.length) (hcontent : s.file.content = data) :
    ∃ hole' data' s', writerLoop host blockSize sparse blocks hole false s = (hole', false, s') ∧
      s'.file.pos = data'.length ∧ s'.file.content = data' ∧
      data' ++ List.replicate hole' 0 = data ++ List.replicate hole 0 ++ blocks.flatMap FileEntry.bytes := by
  induction blocks generalizing hole s data with
  | nil => exact ⟨hole, data, s, rfl, hpos, hcontent, by rw [List.flatMap_nil, List.append_nil]⟩
  | cons block blocks ih =>
      have hread' := fun b hb => hread b (List.mem_cons_of_mem _ hb)
      have hnonempty' := fun b hb => hnonempty b (List.mem_cons_of_mem _ hb)
      rw [List.map_cons, List.sum_cons] at hfits
      unfold writerLoop
      cases hbuffer : block.buffer with
      | none =>
          obtain ⟨hole', data', s', hrun, hpos', hcontent', hbytes⟩ :=
            @ih s data hread' hnonempty' (hole + block.size) (by omega) hpos hcontent
          refine ⟨hole', data', s', hrun, hpos', hcontent', ?_⟩
          rw [hbytes, List.flatMap_cons, FileEntry.bytes, hbuffer, List.replicate_add]
          simp only [List.append_assoc]
      | some buffer =>
          have herror := hread block List.mem_cons_self buffer hbuffer
          have hsize := hnonempty block List.mem_cons_self (by simp [hbuffer])
          have hne : block.bytes ≠ [] := by
            apply List.ne_nil_of_length_pos
            rwa [block.length_bytes]
          obtain ⟨s₁, hwrite, hcontent₁, hpos₁, -⟩ := @writeBlock_writes host blockSize sparse s data
            hhost hole (by omega) (SparseFile.ends_of_content hpos hcontent) _ hne
          obtain ⟨hole', data', s', hrun, hpos', hcontent', hbytes⟩ :=
            @ih { s₁ with puts := s₁.puts ++ [buffer.entry] } _ hread' hnonempty' 0 (by omega) hpos₁ hcontent₁
          simp only [herror, Bool.or_self, Bool.false_eq_true, if_false, hwrite, Bool.not_true]
          refine ⟨hole', data', s', hrun, hpos', hcontent', ?_⟩
          rw [hbytes, List.flatMap_cons, List.replicate_zero, List.append_nil]
          simp only [List.append_assoc]

/-- **A hole at the end** is put into the file, by giving it its length or as zero bytes. -/
theorem writeEnd_writes (hhost : host.Writes) {file : SquashfsFile} {hole : ℕ} (hne : hole ≠ 0)
    (hfits : hole ≤ (2 ^ 31 - 1) * blockSize) (hsize : data.length + hole = file.fileSize)
    (h : s.file.Ends data) :
    ∃ s', writeEnd host blockSize file hole s = (true, s') ∧
      s'.file.content = data ++ List.replicate hole 0 := by
  have hblock : ∀ s₁ : WriterState, s₁.file = s.file →
      ∃ s', writeBlock host blockSize [0] (hole - 1) file.sparse s₁ = (true, s') ∧
        s'.file.content = data ++ List.replicate hole 0 := by
    intro s₁ hfile
    have hends : s₁.file.Ends data := by rwa [hfile]
    obtain ⟨s', hrun, hcontent, -⟩ := @writeBlock_writes host blockSize file.sparse s₁ data hhost (hole - 1)
      (by omega) hends [0] (List.cons_ne_nil 0 [])
    refine ⟨s', hrun, ?_⟩
    -- the last byte of the hole is the one that is written behind the others
    rw [hcontent, List.append_assoc, ← List.replicate_succ', Nat.sub_add_cancel (by omega)]
  rw [writeEnd]
  cases hsparse : file.sparse with
  | false =>
      rw [hsparse] at hblock
      simpa using hblock s rfl
  | true =>
      rw [hsparse] at hblock
      by_cases hseek : host.lseek s.seeks = true
      · simp only [lseek, hseek, if_true, Bool.not_true, Bool.false_eq_true, if_false, hhost.ftruncate]
        refine ⟨_, rfl, ?_⟩
        have hends := h.seek hole
        have hcut := hends.content_truncate
        rwa [List.length_append, List.length_replicate, hsize] at hcut
      · simp only [lseek, hseek, Bool.false_eq_true, if_false, if_true, Bool.not_false]
        exact hblock _ rfl

/-- What an entry is for the file. -/
def FileEntry.piece (block : FileEntry) : Piece :=
  match block.buffer with
  | none => .hole block.size
  | some _ => .block block.bytes

theorem FileEntry.bytes_piece (block : FileEntry) : block.piece.bytes = block.bytes := by
  unfold FileEntry.piece
  split
  · rename_i hnone
    rw [FileEntry.bytes, hnone]
    rfl
  · rfl

/-- The file has the bytes of the entries. -/
theorem writer_written (hhost : host.Writes) {file : SquashfsFile} {blocks : List FileEntry}
    (hqueued : Queued blockSize file blocks)
    (hread : ∀ block ∈ blocks, ∀ buffer ∈ block.buffer, buffer.error = false) (hfile : s.file = {}) :
    ∃ s', writer host blockSize file blocks s = (false, s') ∧
      s'.file.content = blocks.flatMap FileEntry.bytes := by
  have hsum := hqueued.fileSize
  have hfits := hqueued.fits
  obtain ⟨hole, data, s₁, hloop, hpos, hcontent, hbytes⟩ := @writerLoop_writes host blockSize file.sparse s []
    hhost blocks hread hqueued.nonempty 0 (by omega) (by rw [hfile]; rfl) (by rw [hfile])
  rw [List.replicate_zero, List.nil_append, List.nil_append] at hbytes
  have hlen := congrArg List.length hbytes
  rw [length_flatMap_bytes, List.length_append, List.length_replicate, hsum] at hlen
  rw [writer, hloop]
  dsimp only
  by_cases hhole : hole = 0
  · rw [if_neg (by simp [hhole])]
    refine ⟨s₁, rfl, ?_⟩
    rw [hcontent, ← hbytes, hhole, List.replicate_zero, List.append_nil]
  · obtain ⟨s', hend, hcontent'⟩ := @writeEnd_writes host blockSize s₁ data hhost file hole hhole
      (by omega) hlen (SparseFile.ends_of_content hpos hcontent)
    rw [if_pos ⟨hhole, rfl⟩, hend]
    exact ⟨s', rfl, hcontent'.trans hbytes⟩

/-- A file of a hole and a fragment of one byte. -/
def holedInode : Inode where
  blocks := 1
  data := 4097
  fragment := 0
  fragBytes := 1
  gid := 0
  inodeNumber := 1
  mode := 0
  time := 0
  type := .file
  uid := 0

/-- **The writer makes the file of the pieces.** -/
theorem writer_eq_writePieces (hhost : host.Writes) {file : SquashfsFile} {blocks : List FileEntry}
    (hqueued : Queued blockSize file blocks)
    (hread : ∀ block ∈ blocks, ∀ buffer ∈ block.buffer, buffer.error = false)
    (hfile : s.file = {}) :
    (writer host blockSize file blocks s).2.file.content =
      writePieces file.sparse file.fileSize [] 0 (blocks.map FileEntry.piece) := by
  have hpieces : (blocks.map FileEntry.piece).flatMap Piece.bytes = blocks.flatMap FileEntry.bytes := by
    rw [List.flatMap_map]
    exact congrArg (List.flatMap · blocks) (funext FileEntry.bytes_piece)
  have hsum := hqueued.fileSize
  obtain ⟨s', hrun, hcontent⟩ := writer_written hhost hqueued hread hfile
  rw [hrun, writePieces_eq]
  · rw [hpieces]
    exact hcontent
  · rw [hpieces, List.replicate_zero, List.nil_append, List.nil_append, length_flatMap_bytes]
    exact hsum

end

end FirmwareTools.Squashfs

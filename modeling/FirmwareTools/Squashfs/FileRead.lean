import Mathlib.Algebra.Order.BigOperators.Group.List
import FirmwareTools.Bytes.Align
import FirmwareTools.Squashfs.FileWrite

/-! # The buffers of files

The reader cuts a file into blocks, and says of the last one whether it is for a fragment. For a regular
file it does so by the size, and never of a full block; for a process it does so when the process has
ended, and does not look at the block any more.

* **`buffers_of_source`** — the buffers of a file are the blocks and the part for a fragment;
* **`writeFile_large`** — a regular file of more blocks than an `int` can count is given up. -/

namespace FirmwareTools.Squashfs

variable {env : DataEnv}

/-! ## Numbers of blocks -/

/-- The number of blocks that a file has. -/
def DataEnv.blockCount (env : DataEnv) (size : ℕ) : ℕ := (size + env.blockSize - 1) / env.blockSize

/-- The last block of a file. -/
def DataEnv.lastBlock (env : DataEnv) (data : List UInt8) : List UInt8 :=
  (data.drop ((env.blockCount data.length - 1) * env.blockSize)).take env.blockSize

theorem blockCount_eq (env : DataEnv) (size : ℕ) :
    env.blockCount size = if env.blockSize ∣ size then size / env.blockSize
      else size / env.blockSize + 1 := by
  rw [DataEnv.blockCount, add_pred_div size env.blockSize_pos]
  simp only [Nat.dvd_iff_mod_eq_zero]

theorem blockCount_pos (env : DataEnv) {size : ℕ} (hsize : 0 < size) : 0 < env.blockCount size :=
  Nat.div_pos (by omega) env.blockSize_pos

theorem blockCount_le (env : DataEnv) (size : ℕ) : env.blockCount size ≤ size := by
  have hpos := env.blockSize_pos
  rcases Nat.eq_zero_or_pos size with rfl | hsize
  · exact (Nat.div_eq_of_lt (by omega)).le
  · have hdiv := Nat.div_le_self size env.blockSize
    rw [blockCount_eq env _]
    split
    · exact hdiv
    · rename_i hdvd
      have hlt : size / env.blockSize ≠ size := by
        intro heq
        rw [Nat.div_eq_self] at heq
        rcases heq with heq | heq
        · omega
        · exact hdvd (heq ▸ one_dvd _)
      omega

/-- The blocks in front of the last one are full. -/
theorem blockCount_mul_lt (env : DataEnv) {size : ℕ} (hsize : 0 < size) :
    (env.blockCount size - 1) * env.blockSize < size := by
  have hpos := env.blockSize_pos
  have hmod := Nat.div_add_mod size env.blockSize
  rw [Nat.mul_comm] at hmod
  rw [blockCount_eq env _]
  split
  · rename_i hdvd
    obtain ⟨q, rfl⟩ := hdvd
    rw [Nat.mul_div_cancel_left _ hpos, Nat.sub_mul, Nat.one_mul, Nat.mul_comm]
    omega
  · rename_i hdvd
    have hrem : size % env.blockSize ≠ 0 := fun hzero => hdvd (Nat.dvd_of_mod_eq_zero hzero)
    rw [Nat.add_sub_cancel]
    omega

/-- The last block is full if and only if all are. -/
theorem length_lastBlock (env : DataEnv) {data : List UInt8} (hne : data ≠ []) :
    (env.lastBlock data).length = if env.blockSize ∣ data.length then env.blockSize
      else data.length % env.blockSize := by
  have hpos := env.blockSize_pos
  have hsize := List.length_pos_iff.mpr hne
  have hmod := Nat.div_add_mod data.length env.blockSize
  have hlt := Nat.mod_lt data.length hpos
  rw [DataEnv.lastBlock, List.length_take, List.length_drop, blockCount_eq env _]
  split
  · rename_i hdvd
    obtain ⟨q, hq⟩ := hdvd
    have hq' : 0 < q := Nat.pos_of_mul_pos_left (hq ▸ hsize)
    rw [hq, Nat.mul_div_cancel_left _ hpos, Nat.sub_mul, Nat.one_mul, Nat.mul_comm q]
    have : env.blockSize ≤ env.blockSize * q := Nat.le_mul_of_pos_right _ hq'
    omega
  · rw [Nat.add_sub_cancel, Nat.mul_comm]
    omega

/-! ## Regular files -/

/-- The buffer of block `j` as the reader makes it. -/
def regularBuffer (env : DataEnv) (data : List UInt8) (fragBlock : Int) (j : ℕ) : FileBuffer where
  data := (data.drop (j * env.blockSize)).take env.blockSize
  fileSize := some data.length
  fragment := (j : Int) == fragBlock

/-- The loop of the reader makes as many buffers as there should be blocks, and at least one. -/
theorem readFileLoop_eq {data : List UInt8} {fragBlock blocks : Int} {n count m : ℕ} (hm : 0 < m)
    (hblocks : blocks = count + m ∨ (m = 1 ∧ blocks ≤ count + 1)) (hn : m ≤ n) :
    readFileLoop env data fragBlock blocks n count
      = (List.range' count m).map (regularBuffer env data fragBlock) := by
  induction n generalizing count m with
  | zero => omega
  | succ n ih =>
      obtain ⟨m, rfl⟩ : ∃ k, m = k + 1 := ⟨m - 1, by omega⟩
      rw [List.range'_succ, List.map_cons]
      unfold readFileLoop
      dsimp only
      congr 1
      cases m with
      | zero =>
          rw [if_neg (by omega)]
          rfl
      | succ m =>
          rw [if_pos (by omega)]
          exact ih (Nat.succ_pos m) (.inl (by omega)) (by omega)

/-- The fragment block of a regular file. -/
def DataEnv.fragBlock (env : DataEnv) (size : ℕ) : Int :=
  if !env.noFragments && (env.alwaysUseFragments || decide (size < env.blockSize)) then
    toInt32 (size / env.blockSize : ℕ) else -1

theorem readerReadFile_eq (env : DataEnv) (data : List UInt8) {m : ℕ} (hm : 0 < m)
    (hblocks : toInt32 (env.blockCount data.length : ℕ) = m ∨
      (m = 1 ∧ toInt32 (env.blockCount data.length : ℕ) ≤ 1))
    (hle : m ≤ data.length + 1) :
    readerReadFile env data =
      if (((List.range m).map (regularBuffer env data (env.fragBlock data.length))).flatMap
          FileBuffer.data).length = data.length then
        (List.range m).map (regularBuffer env data (env.fragBlock data.length))
      else failLast ((List.range m).map (regularBuffer env data (env.fragBlock data.length))) := by
  have hloop := @readFileLoop_eq env data (env.fragBlock data.length)
    (toInt32 (env.blockCount data.length : ℕ)) (data.length + 1) 0 m hm (by
      rcases hblocks with h | h
      · exact .inl (by omega)
      · exact .inr ⟨h.1, by omega⟩) hle
  rw [← List.range_eq_range'] at hloop
  rw [← hloop]
  rfl

theorem lastBlock_nil (env : DataEnv) : env.lastBlock [] = [] := by
  rw [DataEnv.lastBlock, List.drop_nil, List.take_nil]

/-- The blocks of a file are the data of its buffers. -/
theorem map_data_regularBuffer (env : DataEnv) (data : List UInt8) (fragBlock : Int) :
    ((List.range (env.blockCount data.length)).map (regularBuffer env data fragBlock)).map
      FileBuffer.data = cutBlocks env.blockSize data.length data := by
  rw [cutBlocks_eq_map env.blockSize_pos (le_refl _), List.map_map]
  rfl

/-- A block for a fragment is the last one, and not full. -/
theorem fragBlock_cases (env : DataEnv) {size : ℕ} (hsmall : env.blockCount size < 2 ^ 31) {j : ℕ}
    (hj : j < env.blockCount size) (hfragment : ((j : Int) == env.fragBlock size) = true) :
    j = env.blockCount size - 1 ∧ ¬env.blockSize ∣ size := by
  have hcount := blockCount_eq env size
  have hquot : size / env.blockSize ≤ env.blockCount size := by
    rw [hcount]
    split <;> omega
  rw [beq_iff_eq, DataEnv.fragBlock] at hfragment
  split at hfragment
  · rw [toInt32_of_lt (by omega), Nat.cast_inj] at hfragment
    rw [hcount] at hj ⊢
    split at hj
    · omega
    · rename_i hdvd
      exact ⟨by rw [if_neg hdvd]; omega, hdvd⟩
  · omega

/-- **The buffers of a regular file** are its blocks, if they can be counted. A block that is full is not
for a fragment. -/
theorem buffers_of_regular {data : List UInt8} (hne : data ≠ [])
    (hsmall : env.blockCount data.length < 2 ^ 31) :
    ∃ init last, readerReadFile env data = init ++ [last] ∧
      cutBlocks env.blockSize data.length data = init.map FileBuffer.data ++ [last.data] ∧
      (∀ b ∈ init, b.error = false ∧ b.fragment = false) ∧ last.error = false ∧
      last.data = env.lastBlock data ∧
      last.fragment = ((env.blockCount data.length - 1 : ℕ) == env.fragBlock data.length) ∧
      ∀ b ∈ init ++ [last], b.fileSize = some data.length := by
  have hpos := blockCount_pos env (List.length_pos_iff.mpr hne)
  have hread := readerReadFile_eq env data hpos (.inl (toInt32_of_lt hsmall))
    ((blockCount_le env data.length).trans (Nat.le_succ _))
  have hcut := map_data_regularBuffer env data (env.fragBlock data.length)
  have hflat := flatten_cutBlocks env.blockSize_pos (le_refl data.length)
  rw [← hcut, ← List.flatMap_def] at hflat
  rw [hflat, if_pos rfl] at hread
  obtain ⟨k, hk⟩ : ∃ k, env.blockCount data.length = k + 1 := ⟨_, (Nat.sub_add_cancel hpos).symm⟩
  rw [hk, List.range_succ, List.map_append, List.map_singleton] at hread hcut
  refine ⟨_, _, hread, ?_, ?_, rfl, ?_, ?_, ?_⟩
  · rw [← hcut, List.map_append, List.map_singleton]
  · intro b hb
    obtain ⟨j, hj, rfl⟩ := List.mem_map.mp hb
    rw [List.mem_range] at hj
    refine ⟨rfl, ?_⟩
    -- only the last block can be for a fragment
    by_contra hfragment
    rw [Bool.not_eq_false] at hfragment
    have hlast := (fragBlock_cases env hsmall (by omega) hfragment).1
    omega
  · rw [DataEnv.lastBlock, hk]
    rfl
  · rw [hk]
    rfl
  · intro b hb
    rw [← List.map_singleton, ← List.map_append] at hb
    obtain ⟨j, -, rfl⟩ := List.mem_map.mp hb
    rfl

/-! ## Files that are too large -/

theorem toInt32_le (n : ℕ) : toInt32 n ≤ n ∧ toInt32 n < 2 ^ 31 := by
  have hle := Int.bmod_le (x := n) (m := 2 ^ 32) (by decide)
  unfold toInt32
  refine ⟨?_, by omega⟩
  rw [Int.bmod_def]
  split <;> omega

theorem failLast_concat (bs : List FileBuffer) (b : FileBuffer) :
    failLast (bs ++ [b]) = bs ++ [{ b with error := true }] := by
  induction bs with
  | nil => rfl
  | cons b' bs ih =>
      cases bs with
      | nil => rfl
      | cons b'' bs =>
          rw [List.cons_append, List.cons_append, failLast, ← List.cons_append, ih]
          · rfl
          · exact fun h => List.cons_ne_nil _ _ h

@[simp] theorem deflate_error (b : FileBuffer) : (deflate env b).error = b.error := by
  unfold deflate
  split
  · rfl
  split
  · rfl
  split <;> rfl

/-- A buffer that is not for a fragment is not kept for one. -/
theorem deflate_notFragment {b : FileBuffer} (h : b.fragment = false) :
    ¬((deflate env b).fragment = true ∧ (deflate env b).cByte ≠ 0) := by
  unfold deflate
  rintro ⟨hfragment, -⟩
  split at hfragment
  · exact absurd hfragment (by rw [h]; exact Bool.false_ne_true)
  split at hfragment
  · exact absurd hfragment (by dsimp only; rw [h]; exact Bool.false_ne_true)
  split at hfragment
  · exact absurd hfragment (by dsimp only; rw [h]; exact Bool.false_ne_true)
  · exact absurd hfragment Bool.false_ne_true

/-- The loop over the blocks ends at a buffer with an error. -/
theorem blocksLoop_error {b last : FileBuffer} {bs : List FileBuffer} {readSize : ℕ} {block blocks : Int}
    (hblocks : ∀ b' ∈ b :: bs, ¬(b'.fragment = true ∧ b'.cByte ≠ 0))
    (herror : ∀ b' ∈ bs, b'.error = false) (hlast : last.error = true)
    (hcount : block + bs.length + 1 < blocks) (w : BlockWriter) (queue : List FileBuffer) :
    blocksLoop env readSize w block blocks b (bs ++ last :: queue) = some (none, queue) := by
  induction bs generalizing b block w with
  | nil =>
      rw [List.length_nil] at hcount
      rw [List.nil_append, blocksLoop, if_neg (hblocks b List.mem_cons_self), if_pos (by omega), hlast,
        if_pos rfl]
  | cons b' bs ih =>
      rw [List.forall_mem_cons] at hblocks herror
      rw [List.length_cons] at hcount
      rw [List.cons_append, blocksLoop, if_neg hblocks.1, if_pos (by omega), herror.1,
        if_neg Bool.false_ne_true]
      exact ih hblocks.2 herror.2 (by omega) (w.step b)

/-- The first buffers of a file that is too large are not for a fragment. -/
theorem fragBlock_ne (env : DataEnv) {size j m : ℕ} (hm : toInt32 (env.blockCount size : ℕ) = m)
    (hj : j + 1 < m) : ((j : Int) == env.fragBlock size) = false := by
  have hcount := blockCount_eq env size
  rw [beq_eq_false_iff_ne, DataEnv.fragBlock]
  split
  · rw [toInt32, hcount, Int.bmod_def] at hm
    rw [toInt32, Int.bmod_def]
    split at hm <;> split at hm <;> split <;> omega
  · omega

/-- **A regular file of more blocks than an `int` can count** is given up, and stored as an empty one. -/
theorem writeFile_large {data : List UInt8} (hlarge : 2 ^ 31 ≤ env.blockCount data.length) (st : Writer)
    (inode : InodeArgs) (stBlocks : ℕ) (queue : List FileBuffer) :
    writeFile env inode stBlocks st ((readerReadFile env data).map (deflate env) ++ queue)
      = some (writeFileEmpty inode st, queue) := by
  obtain ⟨hle, hlt⟩ := toInt32_le (env.blockCount data.length)
  have hcount := blockCount_le env data.length
  have hsize : 0 < data.length := by omega
  -- as many buffers as the reader makes
  obtain ⟨m, hm, hblocks, hmlt⟩ : ∃ m : ℕ, 0 < m ∧ (toInt32 (env.blockCount data.length : ℕ) = m ∨
      (m = 1 ∧ toInt32 (env.blockCount data.length : ℕ) ≤ 1)) ∧ m < env.blockCount data.length := by
    by_cases hone : toInt32 (env.blockCount data.length : ℕ) ≤ 1
    · exact ⟨1, Nat.one_pos, .inr ⟨rfl, hone⟩, by omega⟩
    · exact ⟨(toInt32 (env.blockCount data.length : ℕ)).toNat, by omega, .inl (by omega), by omega⟩
  have hread := readerReadFile_eq env data hm hblocks (by omega)
  have hshort : (((List.range m).map (regularBuffer env data (env.fragBlock data.length))).flatMap
      FileBuffer.data).length ≠ data.length := by
    have hsum := List.sum_le_card_nsmul (((List.range m).map (regularBuffer env data
      (env.fragBlock data.length))).map fun b => b.data.length) env.blockSize (by
        intro n hn
        obtain ⟨b, hb, rfl⟩ := List.mem_map.mp hn
        obtain ⟨j, -, rfl⟩ := List.mem_map.mp hb
        exact List.length_take_le _ _)
    rw [List.length_map, List.length_map, List.length_range, Nat.nsmul_eq_mul] at hsum
    have hfull := blockCount_mul_lt env hsize
    have hmul : m * env.blockSize ≤ (env.blockCount data.length - 1) * env.blockSize :=
      Nat.mul_le_mul_right _ (by omega)
    rw [List.length_flatMap]
    omega
  obtain ⟨k, rfl⟩ : ∃ k, m = k + 1 := ⟨m - 1, by omega⟩
  rw [if_neg hshort, List.range_succ, List.map_append, List.map_singleton, failLast_concat] at hread
  rw [hread, List.map_append, List.map_singleton, List.append_assoc, List.singleton_append]
  generalize hlast : deflate env
    { regularBuffer env data (env.fragBlock data.length) k with error := true } = last
  have herror : last.error = true := by
    rw [← hlast, deflate_error]
  cases k with
  | zero =>
      rw [List.range_zero, List.map_nil, List.map_nil, List.nil_append, writeFile, if_pos herror]
  | succ k =>
      have hcounted : toInt32 (env.blockCount data.length : ℕ) = (k + 1 + 1 : ℕ) :=
        hblocks.resolve_right (by omega)
      rw [List.range_succ_eq_map, List.map_cons, List.map_cons, List.cons_append]
      generalize hfirst : deflate env (regularBuffer env data (env.fragBlock data.length) 0) = first
      generalize hinit : (((List.range k).map Nat.succ).map
        (regularBuffer env data (env.fragBlock data.length))).map (deflate env) = init
      have hplain : ∀ b ∈ first :: init, b.error = false ∧ ¬(b.fragment = true ∧ b.cByte ≠ 0) := by
        have hall : ∀ j, j < k + 1 → (deflate env (regularBuffer env data
            (env.fragBlock data.length) j)).error = false ∧
            ¬((deflate env (regularBuffer env data (env.fragBlock data.length) j)).fragment = true ∧
              (deflate env (regularBuffer env data (env.fragBlock data.length) j)).cByte ≠ 0) :=
          fun j hj => ⟨by rw [deflate_error]; rfl,
            deflate_notFragment (fragBlock_ne env hcounted (by omega))⟩
        rw [List.forall_mem_cons, ← hfirst, ← hinit]
        refine ⟨hall 0 (Nat.succ_pos k), fun b hb => ?_⟩
        obtain ⟨b', hb', rfl⟩ := List.mem_map.mp hb
        obtain ⟨i, hi, rfl⟩ := List.mem_map.mp hb'
        obtain ⟨j, hj, rfl⟩ := List.mem_map.mp hi
        rw [List.mem_range] at hj
        exact hall j.succ (by omega)
      have hlength : init.length = k := by
        rw [← hinit, List.length_map, List.length_map, List.length_map, List.length_range]
      have hloop := @blocksLoop_error env first last init data.length 0
        (toInt32 (env.blockCount data.length : ℕ)) (fun b hb => (hplain b hb).2)
        (fun b hb => (hplain b (List.mem_cons_of_mem _ hb)).1) herror (by omega) ⟨st.out, [], 0, 0, []⟩ queue
      have hwrite : writeBlocks env st data.length first (init ++ last :: queue) = some (none, queue) := by
        unfold writeBlocks
        dsimp only
        rw [← DataEnv.blockCount, if_pos (by omega)]
        exact hloop
      have hsizes : first.fileSize = some data.length := by
        rw [← hfirst, deflate_fileSize]
        rfl
      have hfirst' := hplain first List.mem_cons_self
      rw [writeFile, hfirst'.1, if_neg Bool.false_ne_true, hsizes]
      dsimp only
      rw [if_neg (by omega), if_neg hfirst'.2, writeFileBlocksDup, writeFileBlocks, hwrite]
      split <;> rfl

/-! ## Processes -/

/-- **`read_bytes`** gets all bytes it is asked for, as long as there are any. -/
theorem readBytes_eq {n bytes : ℕ} {pieces : List (List UInt8)} (hne : ∀ piece ∈ pieces, piece ≠ [])
    (hn : bytes ≤ n) :
    (readBytes n bytes pieces).1 = pieces.flatten.take bytes ∧
      (readBytes n bytes pieces).2.flatten = pieces.flatten.drop bytes ∧
      ∀ piece ∈ (readBytes n bytes pieces).2, piece ≠ [] := by
  induction n generalizing bytes pieces with
  | zero =>
      obtain rfl := Nat.le_zero.mp hn
      exact ⟨rfl, rfl, hne⟩
  | succ n ih =>
      unfold readBytes
      split
      · rename_i hzero
        subst hzero
        exact ⟨rfl, rfl, hne⟩
      · rename_i hsome
        cases pieces with
        | nil => exact ⟨List.take_nil.symm, List.drop_nil.symm, hne⟩
        | cons piece pieces =>
            rw [List.forall_mem_cons] at hne
            have hlen := List.length_pos_iff.mpr hne.1
            have htake : piece.take bytes ≠ [] := by
              rw [← List.length_pos_iff, List.length_take]
              omega
            dsimp only [readPiece]
            rw [if_neg htake]
            by_cases hall : piece.length ≤ bytes
            · obtain ⟨hdata, hrest, hnonempty⟩ := @ih (bytes - piece.length) pieces hne.2 (by omega)
              rw [if_pos hall, List.take_of_length_le hall, List.flatten_cons, List.take_append,
                List.drop_append, List.take_of_length_le hall, List.drop_of_length_le hall,
                List.nil_append]
              exact ⟨congrArg _ hdata, hrest, hnonempty⟩
            · have hpart : bytes - (piece.take bytes).length = 0 := by
                rw [List.length_take]
                omega
              have hdrop : piece.drop bytes ≠ [] := by
                rw [← List.length_pos_iff, List.length_drop]
                omega
              obtain ⟨hdata, hrest, hnonempty⟩ := @ih 0 (piece.drop bytes :: pieces)
                (List.forall_mem_cons.mpr ⟨hdrop, hne.2⟩) (Nat.zero_le _)
              rw [if_neg hall, hpart, List.flatten_cons, List.take_append_of_le_length (by omega),
                List.drop_append_of_le_length (by omega)]
              refine ⟨?_, hrest, hnonempty⟩
              rw [hdata, List.take_zero, List.append_nil]

/-- The blocks that are read of a process. -/
theorem readProcessLoop_eq {n : ℕ} {pieces : List (List UInt8)} (hne : ∀ piece ∈ pieces, piece ≠ []) :
    readProcessLoop env n pieces = cutBlocks env.blockSize n pieces.flatten := by
  induction n generalizing pieces with
  | zero => rfl
  | succ n ih =>
      obtain ⟨hdata, hrest, hnonempty⟩ := readBytes_eq hne (le_refl env.blockSize)
      unfold readProcessLoop cutBlocks
      dsimp only
      rw [hdata, ih hnonempty, hrest]
      refine if_congr ?_ rfl rfl
      have hpos := env.blockSize_pos
      rw [List.take_eq_nil_iff]
      exact or_iff_right (by omega)

/-- Whether the last block of a process is for a fragment. -/
def DataEnv.processFragment (env : DataEnv) (size : ℕ) : Bool :=
  !env.noFragments && (env.blockCount size == 1 || env.alwaysUseFragments)

/-- **The buffers of a process** are its blocks. The last one may be for a fragment although it is full. -/
theorem buffers_of_process {out : ProcessOutput} (hne : out.bytes ≠ []) :
    ∃ init last, readerReadProcess env out = init ++ [last] ∧
      cutBlocks env.blockSize out.bytes.length out.bytes = init.map FileBuffer.data ++ [last.data] ∧
      (∀ b ∈ init, b.error = false ∧ b.fragment = false) ∧ last.error = false ∧
      last.data = env.lastBlock out.bytes ∧
      last.fragment = env.processFragment out.bytes.length ∧
      (∀ b ∈ init, b.fileSize = none) ∧ last.fileSize = some out.bytes.length := by
  have hpos := env.blockSize_pos
  have hcount := blockCount_pos env (List.length_pos_iff.mpr hne)
  have hblocks : readProcessLoop env (out.pieces.flatten.length + 1) out.pieces
      = cutBlocks env.blockSize out.bytes.length out.bytes := by
    rw [readProcessLoop_eq out.nonempty, cutBlocks_of_le hpos (Nat.le_succ _)]
    rfl
  have hlength : (cutBlocks env.blockSize out.bytes.length out.bytes).length
      = env.blockCount out.bytes.length := length_cutBlocks hpos (le_refl _)
  have hsum : ((cutBlocks env.blockSize out.bytes.length out.bytes).map List.length).sum
      = out.bytes.length := by
    rw [← List.length_flatten, flatten_cutBlocks hpos (le_refl _)]
  have hlast : (cutBlocks env.blockSize out.bytes.length out.bytes).getLast? =
      some (env.lastBlock out.bytes) := by
    rw [List.getLast?_eq_getElem?, hlength, cutBlocks_eq_map hpos (le_refl _)]
    change ((List.range (env.blockCount out.bytes.length)).map _)[_]? = _
    rw [List.getElem?_map, List.getElem?_range (by omega)]
    rfl
  have hsplit : (cutBlocks env.blockSize out.bytes.length out.bytes).dropLast ++ [env.lastBlock out.bytes]
      = cutBlocks env.blockSize out.bytes.length out.bytes := List.dropLast_append_getLast? _ hlast
  have hdata : ((cutBlocks env.blockSize out.bytes.length out.bytes).dropLast.map
      fun data => ({ data, fileSize := none } : FileBuffer)).map FileBuffer.data
        = (cutBlocks env.blockSize out.bytes.length out.bytes).dropLast := by
    rw [List.map_map]
    exact List.map_id _
  have hone : (env.blockCount out.bytes.length + 1 == 2) = (env.blockCount out.bytes.length == 1) := by
    rw [Bool.eq_iff_iff, beq_iff_eq, beq_iff_eq]
    omega
  let last : FileBuffer := {
    data := env.lastBlock out.bytes, fileSize := some out.bytes.length
    fragment := env.processFragment out.bytes.length }
  refine ⟨(cutBlocks env.blockSize out.bytes.length out.bytes).dropLast.map
    fun data => { data, fileSize := none }, last, ?_, ?_, ?_, rfl, rfl, rfl, ?_, rfl⟩
  · unfold readerReadProcess
    dsimp only
    rw [hblocks, hsum, hlength, List.getLastD_eq_getLast?, hlast, Option.getD_some,
      decide_eq_true hpos, Bool.and_true, hone]
    rfl
  · rw [hdata, hsplit]
  · intro b hb
    obtain ⟨data, -, rfl⟩ := List.mem_map.mp hb
    exact ⟨rfl, rfl⟩
  · intro b hb
    obtain ⟨data, -, rfl⟩ := List.mem_map.mp hb
    rfl

/-! ## Any file -/

/-- The part of a file that is put into a fragment. -/
def Source.tail (env : DataEnv) : Source → List UInt8
  | .regular data _ => tailOf env ((env.blockCount data.length - 1 : ℕ) == env.fragBlock data.length)
      (env.lastBlock data)
  | .process out => tailOf env (env.processFragment out.bytes.length) (env.lastBlock out.bytes)

/-- The reader can count the blocks of a file. Those of a process it does not count. -/
def Source.Counted (env : DataEnv) : Source → Prop
  | .regular data _ => env.blockCount data.length < 2 ^ 31
  | .process _ => True

/-- **The buffers of a file** when the writer gets them: the blocks, and the part for a fragment. -/
theorem buffers_of_source (hcomp : env.comp.Lossless) {source : Source} (hne : source.content ≠ [])
    (hcounted : source.Counted env) :
    ∃ body, source.content = body ++ source.tail env ∧
      Buffers env (source.buffers env) body (source.tail env) ∧
      SizesOf (source.buffers env) source.content.length ∧
      ((∀ b ∈ source.buffers env, b.fileSize = some source.content.length) →
        env.blockCount source.content.length < 2 ^ 31) := by
  cases source with
  | regular data stBlocks =>
      obtain ⟨init, last, hread, hcut, hinit, herror, hlast, hfragment, hsizes⟩ :=
        @buffers_of_regular env data hne hcounted
      obtain ⟨body, hbody, hbuffers⟩ := buffers_of_blocks hcomp hcut hinit herror
      rw [hlast, hfragment] at hbody hbuffers
      refine ⟨body, hbody, ?_, .inl ?_, fun _ => hcounted⟩
      · rw [Source.buffers, hread]
        exact hbuffers
      · rw [Source.buffers, hread]
        intro b hb
        obtain ⟨b', hb', rfl⟩ := List.mem_map.mp hb
        rw [deflate_fileSize]
        exact hsizes b' hb'
  | process out =>
      obtain ⟨init, last, hread, hcut, hinit, herror, hlast, hfragment, hnone, hsize⟩ :=
        @buffers_of_process env out hne
      obtain ⟨body, hbody, hbuffers⟩ := buffers_of_blocks hcomp hcut hinit herror
      rw [hlast, hfragment] at hbody hbuffers
      have hnone' : ∀ b ∈ init.map (deflate env), b.fileSize = none := by
        intro b hb
        obtain ⟨b', hb', rfl⟩ := List.mem_map.mp hb
        rw [deflate_fileSize]
        exact hnone b' hb'
      have hsize' : (deflate env last).fileSize = some out.bytes.length := by
        rw [deflate_fileSize]
        exact hsize
      refine ⟨body, hbody, ?_, ?_, fun hall => ?_⟩
      · rw [Source.buffers, hread]
        exact hbuffers
      · rw [Source.buffers, hread, List.map_append, List.map_singleton]
        by_cases hnil : init = []
        · rw [hnil]
          exact .inl fun b hb => by rw [List.mem_singleton.mp hb]; exact hsize'
        · exact .inr ⟨_, _, rfl, by rwa [ne_eq, List.map_eq_nil_iff], hnone', hsize'⟩
      · -- only one buffer can have the size
        rw [Source.buffers, hread, List.map_append, List.forall_mem_append] at hall
        have hnil : init = [] := by
          rw [← List.map_eq_nil_iff, List.eq_nil_iff_forall_not_mem]
          intro b hb
          have hgiven := hall.1 b hb
          rw [hnone' b hb] at hgiven
          cases hgiven
        have hlength := length_cutBlocks env.blockSize_pos (le_refl out.bytes.length)
        rw [hcut, hnil] at hlength
        exact (show env.blockCount out.bytes.length = 1 from hlength.symm).trans_lt (by decide)

end FirmwareTools.Squashfs

import FirmwareTools.Squashfs.FileStore

/-! # Writing files

Each way to write a file uses the buffers of the file, no more and no fewer, and stores the file.

* **`writeFile_wrote`** — the buffers of a regular file, of which each has the
  size, and those of a process, of which only the last one has it. -/

namespace FirmwareTools.Squashfs

variable {env : DataEnv} {st : Writer}

/-! ## What a way to write does -/

/-- A file is written: the writer is as it should be, and the inode says where `body` and `tail` are. -/
structure Wrote (env : DataEnv) (st : Writer) (body tail : List UInt8) (r : InodeArgs × Writer) :
    Prop where
  ok : r.2.Ok env
  grows : st.store.Grows r.2.store
  count : r.2.fragmentTable.length ≤ st.fragmentTable.length + 1
  type : r.1.type = .file
  byteSize : r.1.byteSize = body.length + tail.length
  start : r.1.startBlock ≤ r.2.out.length
  stored : FileStored env r.2.store r.1.startBlock r.1.blockList
    ⟨r.1.fragmentIndex, r.1.fragmentOffset, tail.length⟩ body tail

theorem DataStore.FragmentAt.eta {s : DataStore} {fragment : Fragment} {tail : List UInt8}
    (h : s.FragmentAt fragment tail) : fragment = ⟨fragment.index, fragment.offset, tail.length⟩ := by
  have h' := h
  unfold DataStore.FragmentAt at h'
  split at h'
  · rename_i hnil
    rw [h', hnil]
    rfl
  · rw [← h'.1]

/-- The writer with blocks behind what is written. -/
theorem Writer.Ok.write (h : st.Ok env) {out : List UInt8} (hout : st.out <+: out) :
    Writer.Ok env { st with out } ∧ st.store.Grows (Writer.store { st with out }) := by
  obtain ⟨more, rfl⟩ := hout
  have hgrows : st.store.Grows (Writer.store { st with out := st.out ++ more }) :=
    st.store.grows_append more
  exact ⟨⟨fun e he => (h.dupl e he).grows hgrows, fun f hf => (h.table f hf).append more, h.current⟩,
    hgrows⟩

/-- The writer with other files to compare with. -/
theorem Writer.Ok.setDupl (h : st.Ok env) {dupl : List FileInfo}
    (hdupl : ∀ e ∈ dupl, e.Stored env st.store) : Writer.Ok env { st with dupl } :=
  ⟨hdupl, h.table, h.current⟩

/-- **Blocks that are written, and a part put into a fragment.** -/
theorem wrote_fill (h : st.Ok env) {out : List UInt8} (hout : st.out <+: out) {start : ℕ}
    (hstart : start ≤ out.length) {blockList : List ℕ} {body tail : List UInt8}
    (hblocks : BlocksAt env out start blockList (cutBlocks env.blockSize body.length body))
    (hlen : tail.length ≤ env.blockSize) (hfull : tail ≠ [] → env.blockSize ∣ body.length)
    (inode : InodeArgs) (sparse : ℕ) {dupl : List FileInfo}
    (hdupl : ∀ e ∈ dupl, e.Stored env st.store ∨
      (e.fileSize = body.length + tail.length ∧ e.start = start ∧ e.blockList = blockList ∧
        e.fragment = (Writer.getAndFillFragment env { st with out } tail).1)) :
    Wrote env st body tail
      (fileInode inode (body.length + tail.length) start blockList
        (Writer.getAndFillFragment env { st with out } tail).1 sparse,
      { (Writer.getAndFillFragment env { st with out } tail).2 with dupl }) := by
  obtain ⟨hok, hgrows⟩ := h.write hout
  obtain ⟨hok', hgrows', hcount, hfragment, hout', -⟩ := getAndFillFragment_ok hok hlen
  generalize Writer.getAndFillFragment env { st with out } tail = r at *
  obtain ⟨fragment, st'⟩ := r
  dsimp only at *
  have hstored : FileStored env st'.store start blockList fragment body tail := by
    refine ⟨?_, hfragment, hfull⟩
    change BlocksAt env st'.out _ _ _
    rw [hout']
    exact hblocks
  refine ⟨hok'.setDupl fun e he => ?_, hgrows.trans hgrows', hcount, rfl, rfl, ?_, ?_⟩
  · rcases hdupl e he with hold | ⟨hsize, hstart', hlist, hfrag⟩
    · exact hold.grows (hgrows.trans hgrows')
    · refine ⟨?_, body, tail, ?_, hsize⟩
      · change e.start ≤ st'.out.length
        rw [hstart', hout']
        exact hstart
      · rw [hstart', hlist, hfrag]
        exact hstored
  · change start ≤ st'.out.length
    rw [hout']
    exact hstart
  · have heta := hfragment.eta
    dsimp only [fileInode]
    rw [← heta]
    exact hstored

/-- An empty file. -/
theorem wrote_empty (h : st.Ok env) (inode : InodeArgs) :
    Wrote env st [] [] (writeFileEmpty inode st) :=
  ⟨h, .refl _, Nat.le_succ _, rfl, rfl, Nat.zero_le _,
    ⟨rfl, by rw [DataStore.FragmentAt, if_pos rfl]; rfl, fun hne => absurd rfl hne⟩⟩

/-- A file that is only a fragment. -/
theorem wrote_fill_frag (h : st.Ok env) {data : List UInt8} (hlen : data.length ≤ env.blockSize)
    (inode : InodeArgs) {dupl : List FileInfo}
    (hdupl : ∀ e ∈ dupl, e.Stored env st.store ∨ (e.fileSize = data.length ∧ e.start = 0 ∧
      e.blockList = [] ∧ e.fragment = (st.getAndFillFragment env data).1)) :
    Wrote env st [] data
      (fileInode inode data.length 0 [] (st.getAndFillFragment env data).1 0,
        { (st.getAndFillFragment env data).2 with dupl }) := by
  have hwrote := @wrote_fill env st h st.out (List.prefix_refl _) 0 (Nat.zero_le _) [] [] data rfl hlen
    (fun _ => dvd_zero _) inode 0 dupl
  rw [List.length_nil, Nat.zero_add] at hwrote
  exact hwrote hdupl

theorem stored_checksum {s : DataStore} (e : FileInfo) (h : e.Stored env s) :
    (e.checksum env st).Stored env s := h

theorem preDuplicateFrag_stored {s : DataStore} (size : ℕ) (checksum : UInt16) {dupl : List FileInfo}
    (h : ∀ e ∈ dupl, e.Stored env s) :
    ∀ e ∈ (preDuplicateFrag env st size checksum dupl).2, e.Stored env s := by
  induction dupl with
  | nil => exact h
  | cons e dupl ih =>
      rw [List.forall_mem_cons] at h
      unfold preDuplicateFrag
      split
      · dsimp only
        split
        · rw [List.forall_mem_cons]
          exact ⟨stored_checksum e h.1, h.2⟩
        · rw [List.forall_mem_cons]
          exact ⟨stored_checksum e h.1, ih h.2⟩
      · rw [List.forall_mem_cons]
        exact ⟨h.1, ih h.2⟩

/-- `write_file_frag_dup` -/
theorem writeFileFragDup_wrote (h : st.Ok env) {data : List UInt8}
    (hlen : data.length ≤ env.blockSize) (inode : InodeArgs) (checksum : UInt16) :
    Wrote env st [] data (writeFileFragDup env inode st data.length data checksum) := by
  obtain ⟨hall, hfound⟩ := @duplicate_cases env (fun e => e.Stored env st.store) st
    (fun e he => stored_checksum e he) ⟨data.length, 0, 0, [], data⟩ st.dupl h.dupl
    (some (0, checksum))
  unfold writeFileFragDup
  generalize duplicate env st ⟨data.length, 0, 0, [], data⟩ st.dupl (some (0, checksum)) = r at *
  obtain ⟨found, dupl, checksums⟩ := r
  dsimp only at *
  cases found with
  | some e =>
      obtain ⟨⟨-, body', tail', hstored, hsize⟩, hmatch⟩ := hfound e rfl
      obtain ⟨-, rfl, rfl⟩ := @duplicate_same env st h.table _ e [] body' tail' hstored hsize hmatch rfl
        (Nat.zero_add _).symm
      refine ⟨h.setDupl hall, .refl _, Nat.le_succ _, rfl, (Nat.zero_add _).symm, Nat.zero_le _, ?_⟩
      have heta := hstored.fragment.eta
      dsimp only [fileInode]
      rw [← heta]
      exact ⟨rfl, hstored.fragment, hstored.full⟩
  | none =>
      refine wrote_fill_frag h hlen inode fun e he => ?_
      rcases List.mem_cons.mp he with rfl | he
      · exact .inr ⟨rfl, rfl, rfl, rfl⟩
      · exact .inl (hall e he)

/-- `write_file_frag` -/
theorem writeFileFrag_wrote (h : st.Ok env) {data : List UInt8} (hlen : data.length ≤ env.blockSize)
    (inode : InodeArgs) : Wrote env st [] data (writeFileFrag env inode st data.length data) := by
  have hdupl := @preDuplicateFrag_stored env st st.store data.length (getChecksum data 0) st.dupl h.dupl
  unfold writeFileFrag
  dsimp only
  generalize preDuplicateFrag env st data.length (getChecksum data 0) st.dupl = r at *
  obtain ⟨found, dupl⟩ := r
  dsimp only at *
  split
  · have hwrote := @writeFileFragDup_wrote env { st with dupl } (h.setDupl hdupl) data hlen inode
      (getChecksum data 0)
    exact ⟨hwrote.ok, hwrote.grows, hwrote.count, hwrote.type, hwrote.byteSize, hwrote.start,
      hwrote.stored⟩
  · refine wrote_fill_frag h hlen inode fun e he => ?_
    split at he
    · rcases List.mem_cons.mp he with rfl | he
      · exact .inr ⟨rfl, rfl, rfl, rfl⟩
      · exact .inl (hdupl e he)
    · exact .inl (hdupl e he)

/-! ## The loops -/

/-- The loop of `write_file_process` uses the buffers up to the first one with the size. -/
theorem processLoop_eq {b : FileBuffer} {bs : List FileBuffer} {size : ℕ}
    (herror : ∀ b' ∈ bs, b'.error = false)
    (hgoing : ∀ b' ∈ (b :: bs).dropLast, b'.fileSize = none)
    (hlast : ((b :: bs).getLast (List.cons_ne_nil b bs)).fileSize = some size) (w : BlockWriter)
    (queue : List FileBuffer) :
    processLoop w b (bs ++ queue) = some (some (size, (b :: bs).foldl BlockWriter.step w), queue) := by
  induction bs generalizing b w with
  | nil =>
      rw [List.getLast_singleton] at hlast
      cases queue <;> rw [List.nil_append, processLoop, hlast] <;> rfl
  | cons b' bs ih =>
      rw [List.forall_mem_cons] at herror
      rw [List.dropLast_cons_of_ne_nil (List.cons_ne_nil b' bs), List.forall_mem_cons] at hgoing
      rw [List.getLast_cons (List.cons_ne_nil b' bs)] at hlast
      rw [List.cons_append, processLoop, hgoing.1, herror.1]
      exact ih herror.2 hgoing.2 hlast (w.step b)

/-- The loop of `write_file_blocks` uses as many buffers as it counts, and no block is left out of the
list. -/
theorem blocksLoop_eq {b : FileBuffer} {bs : List FileBuffer} {readSize : ℕ} {block blocks : Int}
    (herror : ∀ b' ∈ bs, b'.error = false)
    (hblocks : ∀ b' ∈ (b :: bs).dropLast, ¬(b'.fragment = true ∧ b'.cByte ≠ 0))
    (hcount : blocks = block + bs.length + 1)
    (hfragment : toInt32 (readSize / env.blockSize : ℕ) ≤ block + bs.length + 1) (w : BlockWriter)
    (queue : List FileBuffer) :
    ∃ n, blocksLoop env readSize w block blocks b (bs ++ queue)
        = some (some (n, (b :: bs).foldl BlockWriter.step w), queue) ∧
      (n = blocks ∨ (((b :: bs).getLast (List.cons_ne_nil b bs)).fragment = true ∧
        ((b :: bs).getLast (List.cons_ne_nil b bs)).cByte ≠ 0) ∧
          n = toInt32 (readSize / env.blockSize : ℕ)) := by
  induction bs generalizing b block w with
  | nil =>
      rw [List.length_nil] at hcount hfragment
      refine ⟨if b.fragment ∧ b.cByte ≠ 0 then toInt32 (readSize / env.blockSize : ℕ) else blocks, ?_, ?_⟩
      · have hend : ¬block + 1 < (if b.fragment ∧ b.cByte ≠ 0 then
            toInt32 (readSize / env.blockSize : ℕ) else blocks) := by
          split <;> omega
        cases queue <;> rw [List.nil_append, blocksLoop, if_neg hend] <;> rfl
      · split
        · rename_i hkept
          exact .inr ⟨hkept, rfl⟩
        · exact .inl rfl
  | cons b' bs ih =>
      rw [List.forall_mem_cons] at herror
      rw [List.dropLast_cons_of_ne_nil (List.cons_ne_nil b' bs), List.forall_mem_cons] at hblocks
      rw [List.length_cons] at hcount hfragment
      rw [List.cons_append, blocksLoop, if_neg hblocks.1, if_pos (by omega), herror.1]
      rw [List.getLast_cons (List.cons_ne_nil b' bs)]
      exact @ih b' (block + 1) herror.2 hblocks.2 (by omega) (by omega) (w.step b)

theorem Buffers.error {bs : List FileBuffer} {body tail : List UInt8} (h : Buffers env bs body tail) :
    ∀ b ∈ bs, b.error = false := by
  obtain ⟨init, rest, rfl, hinit, hrest⟩ := h
  rw [List.forall_mem_append]
  refine ⟨fun b hb => ?_, fun b hb => ?_⟩
  · obtain ⟨i, hi, rfl⟩ := List.mem_iff_getElem.mp hb
    exact (List.forall₂_iff_get.mp hinit).2 i hi (by rwa [← hinit.length_eq]) |>.error
  · rcases hrest with ⟨-, rfl⟩ | ⟨-, -, -, b', rfl, hb'⟩
    · exact absurd hb List.not_mem_nil
    · rw [List.mem_singleton] at hb
      rw [hb]
      exact hb'.error

theorem Buffers.notFragment {bs : List FileBuffer} {body tail : List UInt8}
    (h : Buffers env bs body tail) :
    ∀ b ∈ bs.dropLast, ¬(b.fragment = true ∧ b.cByte ≠ 0) := by
  obtain ⟨init, rest, rfl, hinit, hrest⟩ := h
  have hall : ∀ b ∈ init, ¬(b.fragment = true ∧ b.cByte ≠ 0) := by
    intro b hb
    obtain ⟨i, hi, rfl⟩ := List.mem_iff_getElem.mp hb
    exact (List.forall₂_iff_get.mp hinit).2 i hi (by rwa [← hinit.length_eq]) |>.notFragment
  intro b hb
  rcases hrest with ⟨-, rfl⟩ | ⟨-, -, -, b', rfl, -⟩
  · rw [List.append_nil] at hb
    exact hall b (List.dropLast_subset _ hb)
  · rw [List.dropLast_concat] at hb
    exact hall b hb

/-- The number of buffers of a file is the number of its blocks. -/
theorem Buffers.length_eq {bs : List FileBuffer} {body tail : List UInt8}
    (h : Buffers env bs body tail) :
    bs.length = (body.length + tail.length + env.blockSize - 1) / env.blockSize := by
  have hpos := env.blockSize_pos
  obtain ⟨init, rest, rfl, hinit, hrest⟩ := h
  rw [List.length_append, hinit.length_eq, length_cutBlocks hpos (le_refl _)]
  rcases hrest with ⟨rfl, rfl⟩ | ⟨hne, hlen, ⟨q, hq⟩, b, rfl, -⟩
  · rw [List.length_nil, List.length_nil, Nat.add_zero, Nat.add_zero]
  · have htail := List.length_pos_iff.mpr hne
    have hlow : ∀ r, r < env.blockSize → (env.blockSize * q + r) / env.blockSize = q := fun r hr => by
      rw [Nat.mul_add_div hpos, Nat.div_eq_of_lt hr, Nat.add_zero]
    rw [hq, List.length_singleton,
      show env.blockSize * q + env.blockSize - 1 = env.blockSize * q + (env.blockSize - 1) by omega,
      hlow _ (by omega),
      show env.blockSize * q + tail.length + env.blockSize - 1
        = env.blockSize * q + (tail.length - 1) + env.blockSize by omega,
      Nat.add_div_right _ hpos, hlow _ (by omega)]

/-- **The loop over the blocks of a file.** -/
theorem writeBlocks_eq {b : FileBuffer} {bs : List FileBuffer} {body tail : List UInt8}
    (h : Buffers env (b :: bs) body tail)
    (hsmall : (body.length + tail.length + env.blockSize - 1) / env.blockSize < 2 ^ 31)
    (queue : List FileBuffer) :
    ∃ n, writeBlocks env st (body.length + tail.length) b (bs ++ queue)
        = some (some (n, (b :: bs).foldl BlockWriter.step ⟨st.out, [], 0, 0, []⟩), queue) ∧
      ((b :: bs).foldl BlockWriter.step ⟨st.out, [], 0, 0, []⟩).blockList.length ≤ n.toNat := by
  have hpos := env.blockSize_pos
  have hlength := h.length_eq
  rw [List.length_cons] at hlength
  have hdiv : (body.length + tail.length) / env.blockSize
      ≤ (body.length + tail.length + env.blockSize - 1) / env.blockSize :=
    Nat.div_le_div_right (by omega)
  have htotal := toInt32_of_lt hsmall
  have hquot := toInt32_of_lt (show (body.length + tail.length) / env.blockSize < 2 ^ 31 by omega)
  obtain ⟨n, hloop, hn⟩ := @blocksLoop_eq env b bs (body.length + tail.length) 0
    (toInt32 ((body.length + tail.length + env.blockSize - 1) / env.blockSize : ℕ))
    (fun b' hb' => h.error b' (List.mem_cons_of_mem _ hb')) h.notFragment
    (by rw [htotal]; omega) (by rw [hquot]; omega) ⟨st.out, [], 0, 0, []⟩ queue
  refine ⟨n, ?_, ?_⟩
  · unfold writeBlocks
    dsimp only
    rw [if_pos (by rw [htotal]; omega), hloop]
  · have hfold := (foldl_buffers h st.out).2.1.length_eq
    rw [length_cutBlocks hpos (le_refl _)] at hfold
    have hle : (body.length + env.blockSize - 1) / env.blockSize
        ≤ (body.length + tail.length + env.blockSize - 1) / env.blockSize :=
      Nat.div_le_div_right (by omega)
    rw [hfold]
    rcases hn with hn | ⟨hkept, hn⟩
    · rw [hn, htotal, Int.toNat_natCast]
      exact hle
    · rw [hn, hquot, Int.toNat_natCast]
      -- the last buffer is a fragment, so the blocks before it are full
      obtain ⟨init, rest, hbs, hinit, hrest⟩ := h
      rcases hrest with ⟨-, rfl⟩ | ⟨hne, hlen, ⟨q, hq⟩, -⟩
      · rw [List.append_nil] at hbs
        have hsub : ∀ b' ∈ b :: bs, b' ∈ init := by
          rw [hbs]
          exact fun _ hb' => hb'
        obtain ⟨i, hi, hget⟩ := List.mem_iff_getElem.mp
          (hsub _ (List.getLast_mem (List.cons_ne_nil b bs)))
        have hblock := (List.forall₂_iff_get.mp hinit).2 i hi (by rwa [← hinit.length_eq])
        rw [List.get_eq_getElem, hget] at hblock
        exact absurd hkept hblock.notFragment
      · have htail := List.length_pos_iff.mpr hne
        rw [hq, show env.blockSize * q + env.blockSize - 1 = env.blockSize * q + (env.blockSize - 1) by
            omega, Nat.mul_add_div hpos, Nat.div_eq_of_lt (show env.blockSize - 1 < env.blockSize by omega),
          Nat.mul_add_div hpos]
        exact Nat.le_add_right _ _

/-! ## A file with blocks -/

theorem Buffers.tail_length_le {bs : List FileBuffer} {body tail : List UInt8}
    (h : Buffers env bs body tail) :
    tail.length ≤ env.blockSize ∧ (tail ≠ [] → env.blockSize ∣ body.length) := by
  obtain ⟨init, rest, -, -, ⟨rfl, -⟩ | ⟨-, hlen, hdvd, -⟩⟩ := h
  · exact ⟨Nat.zero_le _, fun hne => absurd rfl hne⟩
  · exact ⟨hlen, fun _ => hdvd⟩

/-- The files to compare with after a file that was not compared. -/
theorem stored_or_eq (h : st.Ok env) {out : List UInt8} (hout : st.out <+: out) {tail : List UInt8}
    (hlen : tail.length ≤ env.blockSize) {e entry : FileInfo}
    (he : e ∈ if env.duplicateChecking then
      entry :: (Writer.getAndFillFragment env { st with out } tail).2.dupl
      else (Writer.getAndFillFragment env { st with out } tail).2.dupl) :
    e.Stored env st.store ∨ e = entry := by
  have hold := (getAndFillFragment_ok (h.write hout).1 hlen).2.2.2.2.2
  rw [hold] at he
  split at he
  · rcases List.mem_cons.mp he with rfl | he
    · exact .inr rfl
    · exact .inl (h.dupl e he)
  · exact .inl (h.dupl e he)

/-- `write_file_process` -/
theorem writeFileProcess_wrote (h : st.Ok env) {b : FileBuffer} {bs : List FileBuffer}
    {body tail : List UInt8} (hbs : Buffers env (b :: bs) body tail)
    (hgoing : ∀ b' ∈ (b :: bs).dropLast, b'.fileSize = none)
    (hlast : ((b :: bs).getLast (List.cons_ne_nil b bs)).fileSize = some (body.length + tail.length))
    (inode : InodeArgs) (queue : List FileBuffer) :
    ∃ r, writeFileProcess env inode st b (bs ++ queue) = some (some r, queue) ∧
      Wrote env st body tail r := by
  obtain ⟨hout, hblocks, hbuffer⟩ := foldl_buffers hbs st.out
  obtain ⟨hlen, hfull⟩ := hbs.tail_length_le
  unfold writeFileProcess
  rw [processLoop_eq (fun b' hb' => hbs.error b' (List.mem_cons_of_mem _ hb')) hgoing hlast]
  generalize (b :: bs).foldl BlockWriter.step ⟨st.out, [], 0, 0, []⟩ = w at hout hblocks hbuffer ⊢
  subst hbuffer
  simp only [Option.bind_eq_bind, Option.bind_some]
  refine ⟨_, rfl, wrote_fill h hout (List.IsPrefix.length_le hout) hblocks hlen hfull inode w.sparse
    fun e he => ?_⟩
  rcases stored_or_eq h hout hlen he with hold | rfl
  · exact .inl hold
  · exact .inr ⟨rfl, rfl, rfl, rfl⟩

/-- `write_file_blocks` -/
theorem writeFileBlocks_wrote (h : st.Ok env) {b : FileBuffer} {bs : List FileBuffer}
    {body tail : List UInt8} (hbs : Buffers env (b :: bs) body tail)
    (hsmall : (body.length + tail.length + env.blockSize - 1) / env.blockSize < 2 ^ 31)
    (inode : InodeArgs) (stBlocks : ℕ) (queue : List FileBuffer) :
    ∃ r, writeFileBlocks env inode stBlocks st (body.length + tail.length) b (bs ++ queue)
        = some (some r, queue) ∧ Wrote env st body tail r := by
  obtain ⟨hout, hblocks, hbuffer⟩ := foldl_buffers hbs st.out
  obtain ⟨hlen, hfull⟩ := hbs.tail_length_le
  obtain ⟨n, hloop, hn⟩ := @writeBlocks_eq env st b bs body tail hbs hsmall queue
  unfold writeFileBlocks
  rw [hloop]
  generalize (b :: bs).foldl BlockWriter.step ⟨st.out, [], 0, 0, []⟩ = w at hout hblocks hbuffer hn ⊢
  subst hbuffer
  simp only [Option.bind_eq_bind, Option.bind_some, List.take_of_length_le hn]
  refine ⟨_, rfl, wrote_fill h hout (List.IsPrefix.length_le hout) hblocks hlen hfull inode _
    fun e he => ?_⟩
  rcases stored_or_eq h hout hlen he with hold | rfl
  · exact .inl hold
  · exact .inr ⟨rfl, rfl, rfl, rfl⟩

/-- `write_file_blocks_dup`: a duplicate is stored where the other file is. -/
theorem writeFileBlocksDup_wrote (h : st.Ok env) {b : FileBuffer} {bs : List FileBuffer}
    {body tail : List UInt8} (hbs : Buffers env (b :: bs) body tail)
    (hsmall : (body.length + tail.length + env.blockSize - 1) / env.blockSize < 2 ^ 31)
    (inode : InodeArgs) (stBlocks : ℕ) (queue : List FileBuffer) :
    ∃ r, writeFileBlocksDup env inode stBlocks st (body.length + tail.length) b (bs ++ queue)
        = some (some r, queue) ∧ Wrote env st body tail r := by
  obtain ⟨hout, hblocks, hbuffer⟩ := foldl_buffers hbs st.out
  obtain ⟨hlen, hfull⟩ := hbs.tail_length_le
  obtain ⟨n, hloop, hn⟩ := @writeBlocks_eq env st b bs body tail hbs hsmall queue
  unfold writeFileBlocksDup
  rw [hloop]
  generalize (b :: bs).foldl BlockWriter.step ⟨st.out, [], 0, 0, []⟩ = w at hout hblocks hbuffer hn ⊢
  subst hbuffer
  simp only [Option.bind_eq_bind, Option.bind_some, List.take_of_length_le hn]
  obtain ⟨hok, hgrows⟩ := h.write hout
  obtain ⟨hall, hfound⟩ := @duplicate_cases env (fun e => e.Stored env st.store) { st with out := w.out }
    (fun e he => stored_checksum e he)
    ⟨body.length + w.fragmentBuffer.length, w.fileBytes, st.out.length, w.blockList, w.fragmentBuffer⟩
    st.dupl h.dupl none
  generalize duplicate env { st with out := w.out } ⟨body.length + w.fragmentBuffer.length, w.fileBytes,
    st.out.length, w.blockList, w.fragmentBuffer⟩ st.dupl none = r at *
  obtain ⟨found, dupl, checksums⟩ := r
  dsimp only at *
  cases found with
  | some e =>
      obtain ⟨⟨hstart, body', tail', hstored, hsize⟩, hmatch⟩ := hfound e rfl
      obtain ⟨hlist, rfl, rfl⟩ := @duplicate_same env { st with out := w.out } hok.table _ e body body'
        tail' (hstored.grows hgrows) hsize hmatch hblocks rfl
      refine ⟨_, rfl, h.setDupl hall, .refl _, Nat.le_succ _, rfl, rfl, hstart, ?_⟩
      have heta := hstored.fragment.eta
      dsimp only [fileInode] at hlist ⊢
      rw [hlist, List.take_of_length_le hn, ← heta, ← hlist]
      exact hstored
  | none =>
      refine ⟨_, rfl, wrote_fill h hout (List.IsPrefix.length_le hout) hblocks hlen hfull inode _
        fun e he => ?_⟩
      rcases List.mem_cons.mp he with rfl | he
      · exact .inr ⟨rfl, rfl, rfl, rfl⟩
      · exact .inl (hall e he)

/-! ## Any file -/

/-- A first buffer that is kept for a fragment is the only one. -/
theorem Buffers.eq_of_fragment {b : FileBuffer} {bs : List FileBuffer} {body tail : List UInt8}
    (h : Buffers env (b :: bs) body tail) (hb : b.fragment = true ∧ b.cByte ≠ 0) :
    body = [] ∧ bs = [] ∧ b.data = tail := by
  have hpos := env.blockSize_pos
  obtain ⟨init, rest, hbs, hinit, hrest⟩ := h
  cases init with
  | cons b' init =>
      obtain ⟨rfl, -⟩ := List.cons.inj hbs
      obtain ⟨block, blocks, hblock, -, -⟩ := List.forall₂_cons_left_iff.mp hinit
      exact absurd hb hblock.notFragment
  | nil =>
      rw [List.forall₂_nil_left_iff] at hinit
      have hbody := flatten_cutBlocks hpos (le_refl body.length)
      rw [hinit] at hbody
      rcases hrest with ⟨-, rfl⟩ | ⟨-, -, -, b', rfl, hb'⟩
      · cases hbs
      · obtain ⟨rfl, rfl⟩ := List.cons.inj hbs
        exact ⟨hbody.symm, rfl, hb'.data⟩

/-- The buffers of a file say its size: all of them, or only the last one of several. -/
def SizesOf (bs : List FileBuffer) (size : ℕ) : Prop :=
  (∀ b ∈ bs, b.fileSize = some size) ∨
    ∃ init last, bs = init ++ [last] ∧ init ≠ [] ∧ (∀ b ∈ init, b.fileSize = none) ∧
      last.fileSize = some size

/-- **`write_file`** uses the buffers of a file, and the file is stored. -/
theorem writeFile_wrote (h : st.Ok env) {bs : List FileBuffer} {body tail : List UInt8}
    (hbs : Buffers env bs body tail) (hsizes : SizesOf bs (body.length + tail.length))
    (hne : body.length + tail.length ≠ 0)
    (hsmall : (∀ b ∈ bs, b.fileSize = some (body.length + tail.length)) →
      (body.length + tail.length + env.blockSize - 1) / env.blockSize < 2 ^ 31)
    (inode : InodeArgs) (stBlocks : ℕ) (queue : List FileBuffer) :
    ∃ r, writeFile env inode stBlocks st (bs ++ queue) = some (r, queue) ∧
      Wrote env st body tail r := by
  have hpos := env.blockSize_pos
  cases bs with
  | nil =>
      have hlength := hbs.length_eq
      have hsome : 0 < (body.length + tail.length + env.blockSize - 1) / env.blockSize :=
        Nat.div_pos (by omega) hpos
      rw [List.length_nil] at hlength
      omega
  | cons b bs =>
      have herror := hbs.error b List.mem_cons_self
      rcases hsizes with hall | ⟨init, last, hsplit, hinit, hnone, hlast⟩
      · rw [List.cons_append, writeFile, herror, if_neg Bool.false_ne_true,
          hall b List.mem_cons_self]
        simp only
        rw [if_neg hne]
        by_cases hfragment : b.fragment = true ∧ b.cByte ≠ 0
        · obtain ⟨rfl, rfl, rfl⟩ := hbs.eq_of_fragment hfragment
          rw [if_pos hfragment, List.length_nil, Nat.zero_add, List.nil_append]
          exact ⟨_, rfl, writeFileFrag_wrote h hbs.tail_length_le.1 inode⟩
        · rw [if_neg hfragment]
          split
          · obtain ⟨r, hr, hwrote⟩ := writeFileBlocksDup_wrote h hbs (hsmall hall) inode stBlocks queue
            exact ⟨r, by rw [hr]; rfl, hwrote⟩
          · obtain ⟨r, hr, hwrote⟩ := writeFileBlocks_wrote h hbs (hsmall hall) inode stBlocks queue
            exact ⟨r, by rw [hr]; rfl, hwrote⟩
      · have hfirst : b.fileSize = none := by
          cases init with
          | nil => exact absurd rfl hinit
          | cons b' init =>
              obtain ⟨rfl, -⟩ := List.cons.inj hsplit
              exact hnone b List.mem_cons_self
        have hdrop : (b :: bs).dropLast = init := by rw [hsplit, List.dropLast_concat]
        have hgetLast : (b :: bs).getLast (List.cons_ne_nil b bs) = last := by
          simp only [hsplit, List.getLast_append_singleton]
        obtain ⟨r, hr, hwrote⟩ := writeFileProcess_wrote h hbs (by rwa [hdrop])
          (by rw [hgetLast, hlast]) inode queue
        refine ⟨r, ?_, hwrote⟩
        rw [List.cons_append, writeFile, herror, if_neg Bool.false_ne_true, hfirst]
        simp only
        rw [hr]
        rfl

/-! ## Compressed buffers -/

theorem eq_replicate_of_allZero {data : List UInt8} (h : allZero data = true) :
    data = List.replicate data.length 0 := by
  rw [List.eq_replicate_iff]
  refine ⟨rfl, fun b hb => ?_⟩
  simpa using List.all_eq_true.mp h b hb

/-- A buffer that is not kept for a fragment, or is not stored at all, is a block. -/
theorem deflate_isBlock (hcomp : env.comp.Lossless) {b : FileBuffer} (herror : b.error = false)
    (hne : b.data ≠ []) (hlen : b.data.length ≤ env.blockSize)
    (hblock : b.fragment = false ∨ (env.sparseFiles && allZero b.data) = true) :
    (deflate env b).IsBlock env b.data := by
  unfold deflate
  rw [herror, if_neg Bool.false_ne_true]
  split
  · rename_i hzero
    rw [Bool.and_eq_true] at hzero
    refine ⟨fun hkept => hkept.2 rfl, rfl, Nat.two_pow_pos _, ?_⟩
    rw [if_pos rfl]
    exact eq_replicate_of_allZero hzero.2
  · rename_i hstored
    have hfragment := hblock.resolve_right hstored
    rw [hfragment, if_neg Bool.false_ne_true]
    cases hmangle : mangle env.comp env.blockSize env.noD true b.data with
    | mk cByte stored =>
        obtain ⟨hnonzero, hlt, hne', hsize, hdecode⟩ := mangle_data hcomp env.noD hne hlen hmangle
        refine ⟨fun hkept => absurd hkept.1 Bool.false_ne_true, rfl, hlt, ?_⟩
        dsimp only
        rw [if_neg hnonzero]
        exact ⟨hne', hsize, hdecode⟩

/-- A buffer for a fragment is kept, if it is stored at all. -/
theorem deflate_isTail {b : FileBuffer} (herror : b.error = false) (hne : b.data ≠ [])
    (hfragment : b.fragment = true) (hstored : (env.sparseFiles && allZero b.data) = false) :
    (deflate env b).IsTail b.data := by
  have hpos := List.length_pos_iff.mpr hne
  unfold deflate
  rw [herror, if_neg Bool.false_ne_true, hstored, if_neg Bool.false_ne_true, hfragment, if_pos rfl]
  exact ⟨⟨rfl, by dsimp only; omega⟩, rfl, rfl⟩

@[simp] theorem deflate_fileSize (b : FileBuffer) : (deflate env b).fileSize = b.fileSize := by
  unfold deflate
  split
  · rfl
  split
  · rfl
  split <;> rfl

/-- The part of a file that is kept for a fragment, given its last block and whether that is for a
fragment. -/
def tailOf (env : DataEnv) (fragment : Bool) (last : List UInt8) : List UInt8 :=
  if fragment && !(env.sparseFiles && allZero last) then last else []

/-- **The buffers of the blocks of a file**, the last of which may be for a fragment. -/
theorem buffers_of_blocks (hcomp : env.comp.Lossless) {data : List UInt8} {init : List FileBuffer}
    {last : FileBuffer}
    (hdata : cutBlocks env.blockSize data.length data = init.map FileBuffer.data ++ [last.data])
    (hinit : ∀ b ∈ init, b.error = false ∧ b.fragment = false) (hlast : last.error = false) :
    ∃ body, data = body ++ tailOf env last.fragment last.data ∧
      Buffers env ((init ++ [last]).map (deflate env)) body (tailOf env last.fragment last.data) := by
  have hpos := env.blockSize_pos
  have hflat := flatten_cutBlocks hpos (le_refl data.length)
  have hshape : ∀ b ∈ init.map FileBuffer.data ++ [last.data], b ≠ [] ∧ b.length ≤ env.blockSize := by
    rw [← hdata]
    exact fun b hb => cutBlocks_ne_nil hpos hb
  have hfull : ∀ b ∈ init.map FileBuffer.data, b.length = env.blockSize := by
    have hdrop := @length_of_mem_dropLast_cutBlocks env.blockSize data.length data
    rw [hdata, List.dropLast_concat] at hdrop
    exact fun b hb => hdrop hb
  rw [List.forall_mem_append, List.forall_mem_singleton] at hshape
  have hblocks : List.Forall₂ (FileBuffer.IsBlock env) (init.map (deflate env))
      (init.map FileBuffer.data) := by
    rw [List.forall₂_map_left_iff, List.forall₂_map_right_iff, List.forall₂_same]
    intro b hb
    have hb' := hshape.1 _ (List.mem_map_of_mem hb)
    exact deflate_isBlock hcomp (hinit b hb).1 hb'.1 hb'.2 (.inl (hinit b hb).2)
  rw [List.map_append, List.map_singleton]
  unfold tailOf
  split
  · rename_i hkept
    rw [Bool.and_eq_true, Bool.not_eq_true'] at hkept
    have hcut := @cutBlocks_flatten env.blockSize (init.map FileBuffer.data).flatten.length _ hpos hfull (by
      rw [length_flatten_full hfull]
      exact Nat.le_mul_of_pos_right _ hpos)
    refine ⟨(init.map FileBuffer.data).flatten, ?_, init.map (deflate env), [deflate env last], rfl, ?_,
      .inr ⟨hshape.2.1, hshape.2.2, ?_, deflate env last, rfl,
        deflate_isTail hlast hshape.2.1 hkept.1 hkept.2⟩⟩
    · rw [← hflat, hdata, List.flatten_append, List.flatten_singleton]
    · rw [hcut]
      exact hblocks
    · rw [length_flatten_full hfull]
      exact dvd_mul_left _ _
  · rename_i hblock
    refine ⟨data, (List.append_nil _).symm, init.map (deflate env) ++ [deflate env last], [],
      (List.append_nil _).symm, ?_, .inl ⟨rfl, rfl⟩⟩
    rw [hdata]
    refine List.rel_append hblocks (.cons (deflate_isBlock hcomp hlast hshape.2.1 hshape.2.2 ?_) .nil)
    cases hfragment : last.fragment with
    | false => exact .inl rfl
    | true =>
        rw [hfragment, Bool.true_and, Bool.not_eq_true', Bool.not_eq_false] at hblock
        exact .inr hblock

end FirmwareTools.Squashfs

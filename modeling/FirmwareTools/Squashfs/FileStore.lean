import FirmwareTools.Squashfs.ReadFile

/-! # Files as they are stored

The writer only adds to what is written and to the fragments, so a file that is stored stays stored. Each
way to write a file stores it, and a file that is taken to be a duplicate has the blocks and the fragment
of one that is stored and the same.

* **`getAndFillFragment_ok`**, **`foldl_buffers`** — data that is put into a fragment, or written in
  blocks, is stored;
* **`duplicate_same`** — what `duplicate` finds is the same file. -/

namespace FirmwareTools.Squashfs

variable {env : DataEnv}

/-! ## Data blocks -/

theorem compressedSizeBlock_of_lt {n : ℕ} (h : n < compressedBitBlock) : compressedSizeBlock n = n := by
  rw [compressedSizeBlock, Nat.testBit_lt_two_pow (show n < 2 ^ 24 from h)]
  rfl

theorem testBit_or_compressedBitBlock (n : ℕ) : (n ||| compressedBitBlock).testBit 24 = true := by
  have hbit : compressedBitBlock.testBit 24 = true := by decide
  rw [Nat.testBit_or, hbit, Bool.or_true]

theorem or_compressedBitBlock {n : ℕ} (h : n < compressedBitBlock) :
    n ||| compressedBitBlock = compressedBitBlock + n := by
  have hadd := @Nat.two_pow_add_eq_or_of_lt 24 n h 1
  rw [Nat.or_comm]
  exact hadd.symm

/-- **What `mangle` stores of a data block** is not empty, has the size that goes with it, and is decoded
to the block. -/
theorem mangle_data (hcomp : env.comp.Lossless) (uncompressed : Bool) {block : List UInt8}
    (hne : block ≠ []) (hlen : block.length ≤ env.blockSize) {cByte : ℕ} {stored : List UInt8}
    (h : mangle env.comp env.blockSize uncompressed true block = (cByte, stored)) :
    cByte ≠ 0 ∧ cByte < 2 ^ 32 ∧ stored ≠ [] ∧ compressedSizeBlock cByte = stored.length ∧
      decodeBlock env cByte stored = some block := by
  have hpos := List.length_pos_iff.mpr hne
  have hle := env.blockSize_le
  have hbit : compressedBitBlock = 2 ^ 24 := by decide
  have hlt : block.length < compressedBitBlock := by omega
  have hplain : (block.length ||| compressedBitBlock, block) = (cByte, stored) →
      cByte ≠ 0 ∧ cByte < 2 ^ 32 ∧ stored ≠ [] ∧ compressedSizeBlock cByte = stored.length ∧
        decodeBlock env cByte stored = some block := by
    intro heq
    obtain ⟨rfl, rfl⟩ := Prod.mk.inj heq
    have hor := or_compressedBitBlock hlt
    refine ⟨by omega, by omega, hne, ?_, ?_⟩
    · rw [compressedSizeBlock, testBit_or_compressedBitBlock, if_pos rfl, hor]
      omega
    · rw [decodeBlock, isCompressedBlock, testBit_or_compressedBitBlock]
      rfl
  cases uncompressed with
  | true => exact hplain h
  | false =>
      simp only [mangle, Bool.false_eq_true, if_false, if_true] at h
      split at h
      · exact hplain h
      · rename_i hstored
        rw [not_or, not_le] at hstored
        obtain ⟨rfl, rfl⟩ := Prod.mk.inj h
        have hne' : env.comp.compress env.blockSize block ≠ [] := fun hnil =>
          hstored.1 (congrArg List.length hnil)
        have hsmall : (env.comp.compress env.blockSize block).length < compressedBitBlock := by omega
        refine ⟨hstored.1, by omega, hne', compressedSizeBlock_of_lt hsmall, ?_⟩
        rw [decodeBlock, isCompressedBlock,
          Nat.testBit_lt_two_pow (show (env.comp.compress env.blockSize block).length < 2 ^ 24 from
            hbit ▸ hsmall)]
        exact hcomp _ _ hlen hne'

/-! ## The writer -/

/-- What the writer has written, and the fragments. -/
def Writer.store (st : Writer) : DataStore :=
  ⟨st.out, st.fragmentTable.map FragmentBlock.data ++ [st.fragmentData]⟩

/-- A full fragment is not empty, fits into a block, and is found where its entry says. -/
structure FragmentBlock.Ok (env : DataEnv) (out : List UInt8) (f : FragmentBlock) : Prop where
  nonempty : f.data ≠ []
  short : f.data.length ≤ env.blockSize
  written : ∀ start size, f.entry = some (start, size) → start ≤ out.length ∧ size < 2 ^ 32 ∧
    ∃ stored, stored ≠ [] ∧ HoldsAt out start stored ∧ compressedSizeBlock size = stored.length ∧
      decodeBlock env size stored = some f.data

/-- A file to compare with is stored. -/
def FileInfo.Stored (env : DataEnv) (s : DataStore) (e : FileInfo) : Prop :=
  e.start ≤ s.out.length ∧ ∃ body tail,
    FileStored env s e.start e.blockList e.fragment body tail ∧ e.fileSize = body.length + tail.length

/-- What holds of the writer between two files: everything it refers to is stored. -/
structure Writer.Ok (env : DataEnv) (st : Writer) : Prop where
  dupl : ∀ e ∈ st.dupl, e.Stored env st.store
  table : ∀ f ∈ st.fragmentTable, f.Ok env st.out
  current : st.fragmentData.length ≤ env.blockSize

theorem FragmentBlock.Ok.append {out : List UInt8} {f : FragmentBlock} (h : f.Ok env out)
    (more : List UInt8) : f.Ok env (out ++ more) := by
  refine ⟨h.nonempty, h.short, fun start size hentry => ?_⟩
  obtain ⟨hstart, hsize, stored, hne, hholds, hlen, hdecode⟩ := h.written start size hentry
  refine ⟨?_, hsize, stored, hne, hholds.append hne more, hlen, hdecode⟩
  rw [List.length_append]
  omega

/-- The files to compare with stay stored. -/
theorem FileInfo.Stored.grows {s s' : DataStore} {e : FileInfo} (h : e.Stored env s)
    (hs : s.Grows s') : e.Stored env s' := by
  obtain ⟨hstart, body, tail, hstored, hsize⟩ := h
  exact ⟨hstart.trans (List.IsPrefix.length_le hs.out), body, tail, hstored.grows hs, hsize⟩

/-- The store with more written behind it. -/
theorem DataStore.grows_append (s : DataStore) (more : List UInt8) :
    s.Grows ⟨s.out ++ more, s.fragments⟩ :=
  ⟨List.prefix_append _ _, fun _ data h => ⟨data, h, List.prefix_refl _⟩⟩

/-- **Writing a full fragment.** -/
theorem fragDeflator_ok (hcomp : env.comp.Lossless) {st : Writer} (h : st.Ok env) (i : ℕ) :
    (st.fragDeflator env i).Ok env ∧ st.store.Grows (st.fragDeflator env i).store ∧
      (st.fragDeflator env i).fragmentTable.length = st.fragmentTable.length := by
  unfold Writer.fragDeflator
  split
  · rename_i data hi
    cases hmangle : mangle env.comp env.blockSize env.noF true data with
    | mk cByte stored =>
        have hmem := List.mem_of_getElem? hi
        have hok := h.table _ hmem
        obtain ⟨-, hlt, hne, hsize, hdecode⟩ := mangle_data hcomp env.noF hok.nonempty hok.short hmangle
        dsimp only
        have hdata : (st.fragmentTable.set i ⟨data, some (st.out.length, cByte)⟩).map
            FragmentBlock.data = st.fragmentTable.map FragmentBlock.data := by
          obtain ⟨hlt, hget⟩ := List.getElem?_eq_some_iff.mp hi
          have hlt' : i < (st.fragmentTable.map FragmentBlock.data).length := by rwa [List.length_map]
          have hself := List.set_getElem_self hlt'
          rw [List.getElem_map, hget] at hself
          rw [List.map_set, hself]
        have hgrows : st.store.Grows ⟨st.out ++ stored, (st.fragmentTable.set i
            ⟨data, some (st.out.length, cByte)⟩).map FragmentBlock.data ++ [st.fragmentData]⟩ := by
          rw [hdata]
          exact st.store.grows_append stored
        refine ⟨⟨fun e he => (h.dupl e he).grows hgrows, fun f hf => ?_, h.current⟩, hgrows, List.length_set ..⟩
        rcases List.mem_or_eq_of_mem_set hf with hf | rfl
        · exact (h.table f hf).append stored
        · refine ⟨hok.nonempty, hok.short, fun start size hentry => ?_⟩
          obtain ⟨rfl, rfl⟩ := Prod.mk.inj (Option.some.inj hentry)
          refine ⟨?_, hlt, stored, hne, ?_, hsize, hdecode⟩
          · rw [List.length_append]
            omega
          · simpa using holdsAt_append st.out stored []
  · exact ⟨h, .refl _, rfl⟩

/-- **Queueing the fragment** that is being filled. -/
theorem writeFragment_ok {st : Writer} (h : st.Ok env) :
    st.writeFragment.Ok env ∧ st.store.Grows st.writeFragment.store ∧
      st.writeFragment.fragmentTable.length ≤ st.fragmentTable.length + 1 ∧
      (st.fragmentData ≠ [] → st.writeFragment.fragmentData = []) := by
  unfold Writer.writeFragment
  split
  · rename_i hnil
    exact ⟨h, .refl _, Nat.le_succ _, fun hne => absurd hnil hne⟩
  · rename_i hne
    have hgrows : st.store.Grows ⟨st.out, (st.fragmentTable ++
        [(⟨st.fragmentData, none⟩ : FragmentBlock)]).map FragmentBlock.data ++ [[]]⟩ := by
      refine ⟨List.prefix_refl _, fun i data hi => ⟨data, ?_, List.prefix_refl _⟩⟩
      rw [List.map_append, List.map_singleton]
      change (st.fragmentTable.map FragmentBlock.data ++ [st.fragmentData])[i]? = _ at hi
      rw [List.getElem?_append_left (List.getElem?_eq_some_iff.mp hi).1, hi]
    refine ⟨⟨fun e he => (h.dupl e he).grows hgrows, fun f hf => ?_, Nat.zero_le _⟩, hgrows, ?_, fun _ => rfl⟩
    · rcases List.mem_append.mp hf with hf | hf
      · exact h.table f hf
      · rw [List.mem_singleton] at hf
        subst hf
        exact ⟨hne, h.current, fun _ _ hentry => absurd hentry (by simp)⟩
    · rw [List.length_append]
      exact le_refl _

/-- **Putting data into a fragment.** -/
theorem getAndFillFragment_ok {st : Writer} (h : st.Ok env) {data : List UInt8}
    (hlen : data.length ≤ env.blockSize) :
    (st.getAndFillFragment env data).2.Ok env ∧
      st.store.Grows (st.getAndFillFragment env data).2.store ∧
      (st.getAndFillFragment env data).2.fragmentTable.length ≤ st.fragmentTable.length + 1 ∧
      (st.getAndFillFragment env data).2.store.FragmentAt (st.getAndFillFragment env data).1 data ∧
      (st.getAndFillFragment env data).2.out = st.out ∧
      (st.getAndFillFragment env data).2.dupl = st.dupl := by
  unfold Writer.getAndFillFragment
  split
  · rename_i hnil
    exact ⟨h, .refl _, Nat.le_succ _, by rw [DataStore.FragmentAt, if_pos hnil], rfl, rfl⟩
  · rename_i hne
    -- the fragment that is filled has room for the data
    have hroom : ∃ st' : Writer, (if env.blockSize < st.fragmentData.length + data.length then
        st.writeFragment else st) = st' ∧ st'.Ok env ∧ st.store.Grows st'.store ∧
        st'.fragmentTable.length ≤ st.fragmentTable.length + 1 ∧
        st'.fragmentData.length + data.length ≤ env.blockSize ∧ st'.out = st.out ∧
        st'.dupl = st.dupl := by
      split
      · rename_i hfull
        obtain ⟨hok, hgrows, hcount, hempty⟩ := writeFragment_ok h
        have hsome : st.fragmentData ≠ [] := by
          intro hnil
          rw [hnil, List.length_nil] at hfull
          omega
        refine ⟨_, rfl, hok, hgrows, hcount, ?_, ?_, ?_⟩
        · rw [hempty hsome, List.length_nil, Nat.zero_add]
          exact hlen
        · unfold Writer.writeFragment
          rw [if_neg hsome]
        · unfold Writer.writeFragment
          rw [if_neg hsome]
      · rename_i hfits
        exact ⟨st, rfl, h, .refl _, Nat.le_succ _, by omega, rfl, rfl⟩
    obtain ⟨st', hst', hok, hgrows, hcount, hfits, hout, hdupl⟩ := hroom
    rw [hst']
    have hfill : st'.store.Grows ⟨st'.out, st'.fragmentTable.map FragmentBlock.data ++
        [st'.fragmentData ++ data]⟩ := by
      refine ⟨List.prefix_refl _, fun i old hi => ?_⟩
      change (st'.fragmentTable.map FragmentBlock.data ++ [st'.fragmentData])[i]? = _ at hi
      by_cases hlt : i < (st'.fragmentTable.map FragmentBlock.data).length
      · rw [List.getElem?_append_left hlt] at hi
        exact ⟨old, by rw [List.getElem?_append_left hlt, hi], List.prefix_refl _⟩
      · have hi' := (List.getElem?_eq_some_iff.mp hi).1
        rw [List.length_append, List.length_singleton] at hi'
        obtain rfl : i = (st'.fragmentTable.map FragmentBlock.data).length := by omega
        rw [List.getElem?_concat_length, Option.some.injEq] at hi
        subst hi
        exact ⟨_, List.getElem?_concat_length, List.prefix_append _ _⟩
    refine ⟨⟨fun e he => (hok.dupl e he).grows hfill, hok.table, ?_⟩, hgrows.trans hfill, hcount, ?_, hout, hdupl⟩
    · dsimp only
      rw [List.length_append]
      exact hfits
    · rw [DataStore.FragmentAt, if_neg hne]
      refine ⟨rfl, st'.fragmentData ++ data, ?_, ?_⟩
      · change (st'.fragmentTable.map FragmentBlock.data ++ [st'.fragmentData ++ data])[
          st'.fragmentTable.length]? = _
        have hlength : (st'.fragmentTable.map FragmentBlock.data).length = st'.fragmentTable.length :=
          List.length_map ..
        rw [← hlength, List.getElem?_concat_length]
      · simpa using holdsAt_append st'.fragmentData data []

/-! ## Buffers -/

/-- A buffer that is written as a block. -/
structure FileBuffer.IsBlock (env : DataEnv) (b : FileBuffer) (block : List UInt8) : Prop where
  notFragment : ¬(b.fragment = true ∧ b.cByte ≠ 0)
  error : b.error = false
  short : b.cByte < 2 ^ 32
  stored : if b.cByte = 0 then block = List.replicate block.length 0
    else b.data ≠ [] ∧ compressedSizeBlock b.cByte = b.data.length ∧
      decodeBlock env b.cByte b.data = some block

/-- A buffer that is kept for a fragment. -/
structure FileBuffer.IsTail (b : FileBuffer) (tail : List UInt8) : Prop where
  fragment : b.fragment = true ∧ b.cByte ≠ 0
  error : b.error = false
  data : b.data = tail

/-- The buffers of a file: those of the blocks, and the last one if it is kept for a fragment. -/
def Buffers (env : DataEnv) (bs : List FileBuffer) (body tail : List UInt8) : Prop :=
  ∃ init rest, bs = init ++ rest ∧
    List.Forall₂ (FileBuffer.IsBlock env) init (cutBlocks env.blockSize body.length body) ∧
    (tail = [] ∧ rest = [] ∨ tail ≠ [] ∧ tail.length ≤ env.blockSize ∧ env.blockSize ∣ body.length ∧
      ∃ b : FileBuffer, rest = [b] ∧ b.IsTail tail)

/-- The rounds that write blocks. -/
theorem foldl_blocks {init : List FileBuffer} {blocks : List (List UInt8)}
    (h : List.Forall₂ (FileBuffer.IsBlock env) init blocks) (w : BlockWriter) :
    ∃ more, (init.foldl BlockWriter.step w).out = w.out ++ more ∧
      (init.foldl BlockWriter.step w).blockList = w.blockList ++ init.map FileBuffer.cByte ∧
      (init.foldl BlockWriter.step w).fragmentBuffer = w.fragmentBuffer ∧
      BlocksAt env (w.out ++ more) w.out.length (init.map FileBuffer.cByte) blocks := by
  induction h generalizing w with
  | nil => exact ⟨[], (List.append_nil _).symm, (List.append_nil _).symm, rfl, rfl⟩
  | @cons b block init blocks hb _ ih =>
      obtain ⟨more, hout, hlist, hbuffer, hblocks⟩ := ih (w.step b)
      rw [List.foldl_cons, hout, hlist, hbuffer]
      have hstored := hb.stored
      unfold BlockWriter.step at hblocks ⊢
      rw [if_neg hb.notFragment] at hblocks ⊢
      by_cases hzero : b.cByte = 0
      · rw [if_neg (not_not_intro hzero)] at hblocks ⊢
        rw [if_pos hzero] at hstored
        refine ⟨more, rfl, by rw [List.append_assoc]; rfl, rfl, block, blocks, rfl, hb.short, ?_⟩
        rw [if_pos hzero]
        exact ⟨hstored, hblocks⟩
      · rw [if_pos hzero] at hblocks ⊢
        rw [if_neg hzero] at hstored
        dsimp only at hblocks ⊢
        rw [List.append_assoc, List.length_append] at hblocks
        refine ⟨b.data ++ more, by rw [List.append_assoc], by rw [List.append_assoc]; rfl, rfl, block,
          blocks, rfl, hb.short, ?_⟩
        rw [if_neg hzero]
        exact ⟨b.data, hstored.1, holdsAt_append _ _ _, hstored.2.1, hstored.2.2, hblocks⟩

/-- **The rounds of a file.** -/
theorem foldl_buffers {bs : List FileBuffer} {body tail : List UInt8} (h : Buffers env bs body tail)
    (out : List UInt8) :
    out <+: (bs.foldl BlockWriter.step ⟨out, [], 0, 0, []⟩).out ∧
      BlocksAt env (bs.foldl BlockWriter.step ⟨out, [], 0, 0, []⟩).out out.length
        (bs.foldl BlockWriter.step ⟨out, [], 0, 0, []⟩).blockList
        (cutBlocks env.blockSize body.length body) ∧
      (bs.foldl BlockWriter.step ⟨out, [], 0, 0, []⟩).fragmentBuffer = tail := by
  obtain ⟨init, rest, rfl, hinit, hrest⟩ := h
  obtain ⟨more, hout, hlist, hbuffer, hblocks⟩ := foldl_blocks hinit ⟨out, [], 0, 0, []⟩
  rw [List.foldl_append]
  generalize init.foldl BlockWriter.step ⟨out, [], 0, 0, []⟩ = w at hout hlist hbuffer ⊢
  rw [List.nil_append] at hlist
  rcases hrest with ⟨rfl, rfl⟩ | ⟨-, -, -, b, rfl, hb⟩
  · rw [List.foldl_nil, hout, hlist, hbuffer]
    exact ⟨List.prefix_append _ _, hblocks, rfl⟩
  · rw [List.foldl_cons, List.foldl_nil, BlockWriter.step, if_pos hb.fragment, hout, hlist, hb.data]
    exact ⟨List.prefix_append _ _, hblocks, rfl⟩

/-! ## Duplicates -/

/-- Blocks with the same list and the same stored bytes are the same. -/
theorem blocks_eq_of_sameBlocks {out : List UInt8} {start start' : ℕ} {blockList : List ℕ}
    {blocks blocks' : List (List UInt8)} (h : BlocksAt env out start blockList blocks)
    (h' : BlocksAt env out start' blockList blocks')
    (hlen : blocks.map List.length = blocks'.map List.length)
    (hsame : sameBlocks out start start' blockList = true) : blocks = blocks' := by
  induction blockList generalizing start start' blocks blocks' with
  | nil => rw [show blocks = [] from h, show blocks' = [] from h']
  | cons cByte blockList ih =>
      obtain ⟨block, rest, rfl, -, hblock⟩ := h
      obtain ⟨block', rest', rfl, -, hblock'⟩ := h'
      rw [List.map_cons, List.map_cons, List.cons.injEq] at hlen
      unfold sameBlocks at hsame
      dsimp only at hsame
      by_cases hzero : cByte = 0
      · have hsize : compressedSizeBlock cByte = 0 := by
          rw [hzero]
          rfl
        rw [if_pos hzero] at hblock hblock'
        rw [if_pos hsize] at hsame
        rw [hblock.1, hblock'.1, hlen.1, ih hblock.2 hblock'.2 hlen.2 hsame]
      · rw [if_neg hzero] at hblock hblock'
        obtain ⟨stored, hne, hholds, hsize, hdecode, hrest⟩ := hblock
        obtain ⟨stored', hne', hholds', hsize', hdecode', hrest'⟩ := hblock'
        have hpos := List.length_pos_iff.mpr hne
        rw [if_neg (by omega), Bool.and_eq_true, beq_iff_eq] at hsame
        have hbytes := hsame.1
        rw [readFsBytes, readFsBytes] at hbytes
        conv_lhs at hbytes => rw [hsize, readSlice_of_holdsAt hholds hne]
        rw [hsize', readSlice_of_holdsAt hholds' hne', Option.some.injEq] at hbytes
        subst hbytes
        rw [hdecode, Option.some.injEq] at hdecode'
        rw [hdecode', ih hrest hrest' hlen.2 (hsize ▸ hsame.2)]

/-- What `duplicate` compares. -/
structure NewFile.Matches (env : DataEnv) (st : Writer) (new : NewFile) (e : FileInfo) : Prop where
  fileSize : new.fileSize = e.fileSize
  fragmentSize : new.data.length = e.fragment.size
  blockList : e.blockList.take new.blockList.length = new.blockList
  blocks : sameBlocks st.out new.start e.start new.blockList = true
  data : new.data = [] ∨ (st.getFragment env e.fragment.index).bind (fun data =>
    readSlice data e.fragment.offset e.fragment.size) = some new.data

/-- `duplicate` changes nothing of the files but their checksums, and finds one that matches. -/
theorem duplicate_cases {P : FileInfo → Prop} {st : Writer}
    (hP : ∀ e, P e → P (e.checksum env st)) (new : NewFile) {dupl : List FileInfo}
    (h : ∀ e ∈ dupl, P e) (checksums : Option (UInt16 × UInt16)) :
    (∀ e ∈ (duplicate env st new dupl checksums).2.1, P e) ∧
      ∀ e, (duplicate env st new dupl checksums).1 = some e → P e ∧ new.Matches env st e := by
  induction dupl generalizing checksums with
  | nil => exact ⟨h, fun e he => absurd he (by simp [duplicate])⟩
  | cons e dupl ih =>
      rw [List.forall_mem_cons] at h
      unfold duplicate
      split
      · rename_i hfirst
        dsimp only
        split
        · rename_i hsecond
          refine ⟨?_, fun e' he' => ?_⟩
          · rw [List.forall_mem_cons]
            exact ⟨hP e h.1, h.2⟩
          · obtain rfl := Option.some.inj he'
            exact ⟨hP e h.1, hfirst.1, hfirst.2.2.1, hfirst.2.2.2, hsecond.2.1, hsecond.2.2⟩
        · obtain ⟨hall, hfound⟩ := ih h.2
            (some (checksums.getD (new.checksums st)))
          rw [List.forall_mem_cons]
          exact ⟨⟨hP e h.1, hall⟩, hfound⟩
      · obtain ⟨hall, hfound⟩ := ih h.2 checksums
        dsimp only
        rw [List.forall_mem_cons]
        exact ⟨⟨h.1, hall⟩, hfound⟩

/-- What `get_fragment` gives is the data of the fragment. -/
theorem getFragment_eq_some {st : Writer} (h : ∀ f ∈ st.fragmentTable, f.Ok env st.out) {i : ℕ}
    {data : List UInt8} (hi : st.getFragment env i = some data) :
    st.store.fragments[i]? = some data := by
  change (st.fragmentTable.map FragmentBlock.data ++ [st.fragmentData])[i]? = some data
  have hlength : (st.fragmentTable.map FragmentBlock.data).length = st.fragmentTable.length :=
    List.length_map ..
  unfold Writer.getFragment at hi
  split at hi
  · cases hi
  split at hi
  · rename_i hcurrent
    rw [hcurrent, ← hlength, List.getElem?_concat_length]
    exact hi
  · have hget : ∀ f : FragmentBlock, st.fragmentTable[i]? = some f →
        (st.fragmentTable.map FragmentBlock.data ++ [st.fragmentData])[i]? = some f.data := by
      intro f hf
      have hlt := (List.getElem?_eq_some_iff.mp hf).1
      rw [List.getElem?_append_left (by rwa [hlength]), List.getElem?_map, hf]
      rfl
    split at hi
    · rename_i d hf
      rw [hget _ hf]
      exact hi
    · rename_i d start size hf
      obtain ⟨-, -, stored, hne, hholds, hsize, hdecode⟩ :=
        (h _ (List.mem_of_getElem? hf)).written start size rfl
      rw [readDataBlock_of_holdsAt hholds hne hsize hdecode] at hi
      rw [hget _ hf]
      exact hi
    · cases hi

/-- **A file that matches is the same file.** -/
theorem duplicate_same {st : Writer} (htable : ∀ f ∈ st.fragmentTable, f.Ok env st.out)
    {new : NewFile} {e : FileInfo} {body body' tail' : List UInt8}
    (hstored : FileStored env st.store e.start e.blockList e.fragment body' tail')
    (hfileSize : e.fileSize = body'.length + tail'.length) (hmatch : new.Matches env st e)
    (hblocks : BlocksAt env st.out new.start new.blockList
      (cutBlocks env.blockSize body.length body))
    (hsize : new.fileSize = body.length + new.data.length) :
    e.blockList = new.blockList ∧ body' = body ∧ tail' = new.data := by
  have hpos := env.blockSize_pos
  -- the part in a fragment is the same
  have htail : tail' = new.data := by
    have hfragment := hstored.fragment
    unfold DataStore.FragmentAt at hfragment
    by_cases hnil : tail' = []
    · rw [if_pos hnil] at hfragment
      have hlen := hmatch.fragmentSize
      rw [hfragment] at hlen
      rw [hnil, List.length_eq_zero_iff.mp hlen]
    · rw [if_neg hnil] at hfragment
      obtain ⟨hlen, data, hdata, hholds⟩ := hfragment
      have hdataPos := List.length_pos_iff.mpr hnil
      have hcompare := hmatch.data.resolve_left fun hnone => by
        have := hmatch.fragmentSize
        rw [hnone, List.length_nil] at this
        omega
      rw [Option.bind_eq_some_iff] at hcompare
      obtain ⟨data', hget, hslice⟩ := hcompare
      have hsame := getFragment_eq_some htable hget
      rw [hdata, Option.some.injEq] at hsame
      subst hsame
      rw [hlen, readSlice_of_holdsAt hholds hnil, Option.some.injEq] at hslice
      exact hslice
  subst htail
  have hbodyLength : body.length = body'.length := by
    have := hmatch.fileSize
    omega
  have hlengths := @map_length_cutBlocks env.blockSize body.length body body' hbodyLength
  have hblocks' := hstored.blocks
  rw [← hbodyLength] at hblocks'
  have hcount := congrArg List.length hlengths
  rw [List.length_map, List.length_map, ← hblocks.length_eq, ← hblocks'.length_eq] at hcount
  have hlist : e.blockList = new.blockList := by
    have htake := hmatch.blockList
    rwa [hcount, List.take_length] at htake
  rw [hlist] at hblocks'
  have heq := blocks_eq_of_sameBlocks hblocks hblocks' hlengths hmatch.blocks
  refine ⟨hlist, ?_, rfl⟩
  rw [← flatten_cutBlocks hpos (le_refl body.length), heq,
    flatten_cutBlocks hpos (le_of_eq hbodyLength.symm)]

end FirmwareTools.Squashfs

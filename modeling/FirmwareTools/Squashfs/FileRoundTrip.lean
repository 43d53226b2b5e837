import FirmwareTools.Squashfs.FileRead
import FirmwareTools.Squashfs.ReadFile

/-! # Files are read back

The data of a filesystem is written by `write_file`, one file after the other, with the full fragments in
between. `unsquashfs` finds the data of a file by its inode and by the table of the fragments.

* **`writeFiles_stored`** — a run stores every file that the reader can count, and the others as empty
  ones;
* **`readFragmentTable_writeFragmentTable`** — the table of the fragments is read back, if its size is
  an `unsigned int`;
* **`regularFiles_read_iff`** — regular files are read back exactly when all of them can be counted;
* **`processFile_read_iff`** — the output of a process is read back exactly when its last block is not a
  full one in a fragment. -/

namespace FirmwareTools.Squashfs

variable {env : DataEnv} {st : Writer}

/-! ## Writing the files -/

/-- What an inode says of a file, of which `body` is in blocks and `tail` is in a fragment. -/
structure InodeStored (env : DataEnv) (s : DataStore) (inode : InodeArgs) (body tail : List UInt8) :
    Prop where
  type : inode.type = .file
  byteSize : inode.byteSize = body.length + tail.length
  start : inode.startBlock ≤ s.out.length
  stored : FileStored env s inode.startBlock inode.blockList
    ⟨inode.fragmentIndex, inode.fragmentOffset, tail.length⟩ body tail

theorem InodeStored.grows {s s' : DataStore} {inode : InodeArgs} {body tail : List UInt8}
    (h : InodeStored env s inode body tail) (hs : s.Grows s') : InodeStored env s' inode body tail :=
  ⟨h.type, h.byteSize, h.start.trans (List.IsPrefix.length_le hs.out), h.stored.grows hs⟩

theorem Wrote.inodeStored {body tail : List UInt8} {r : InodeArgs × Writer}
    (h : Wrote env st body tail r) : InodeStored env r.2.store r.1 body tail :=
  ⟨h.type, h.byteSize, h.start, h.stored⟩

/-- A file is stored: as it is, or as an empty one if its blocks could not be counted. -/
def Source.StoredAs (env : DataEnv) (s : DataStore) (source : Source) (inode : InodeArgs) : Prop :=
  ∃ body tail, InodeStored env s inode body tail ∧
    ((source.Counted env ∧ source.content = body ++ tail ∧ tail = source.tail env) ∨
      (¬source.Counted env ∧ body = [] ∧ tail = []))

theorem Source.StoredAs.grows {s s' : DataStore} {source : Source} {inode : InodeArgs}
    (h : source.StoredAs env s inode) (hs : s.Grows s') : source.StoredAs env s' inode := by
  obtain ⟨body, tail, hstored, hcontent⟩ := h
  exact ⟨body, tail, hstored.grows hs, hcontent⟩

theorem tailOf_nil (fragment : Bool) : tailOf env fragment [] = [] := by
  rw [tailOf, ite_self]

theorem Source.tail_of_empty {source : Source} (hnil : source.content = []) : source.tail env = [] := by
  cases source with
  | regular data stBlocks =>
      have hlast : env.lastBlock data = [] := by
        rw [show data = [] from hnil, lastBlock_nil]
      rw [Source.tail, hlast, tailOf_nil]
  | process out =>
      have hlast : env.lastBlock out.bytes = [] := by
        rw [show out.bytes = [] from hnil, lastBlock_nil]
      rw [Source.tail, hlast, tailOf_nil]

/-- The reader makes one buffer of an empty file. -/
theorem buffers_of_empty {source : Source} (hnil : source.content = []) :
    ∃ b, source.buffers env = [b] ∧ b.error = false ∧ b.fileSize = some 0 := by
  cases source with
  | regular data stBlocks =>
      obtain rfl : data = [] := hnil
      have hcount : env.blockCount ([] : List UInt8).length = 0 := Nat.le_zero.mp (blockCount_le env 0)
      have hblocks : toInt32 (env.blockCount ([] : List UInt8).length : ℕ) ≤ 1 :=
        (toInt32_le _).1.trans (by rw [hcount]; decide)
      have hread := readerReadFile_eq env [] Nat.one_pos (.inr ⟨rfl, hblocks⟩) (le_refl 1)
      rw [if_pos] at hread
      · refine ⟨_, by rw [Source.buffers, hread]; rfl, ?_, ?_⟩
        · rw [deflate_error]
          rfl
        · rw [deflate_fileSize]
          rfl
      · rw [List.range_one, List.map_singleton, List.flatMap_singleton, regularBuffer, List.drop_nil,
          List.take_nil]
  | process out =>
      have hblocks : readProcessLoop env (out.pieces.flatten.length + 1) out.pieces = [] := by
        rw [readProcessLoop_eq out.nonempty, show out.pieces.flatten = [] from hnil, cutBlocks_nil]
      refine ⟨_, by rw [Source.buffers, readerReadProcess, hblocks]; rfl, ?_, ?_⟩
      · rw [deflate_error]
      · rw [deflate_fileSize]
        rfl

theorem writeFile_of_empty {source : Source} (hnil : source.content = []) (inode : InodeArgs)
    (queue : List FileBuffer) :
    writeFile env inode source.stBlocks st (source.buffers env ++ queue)
      = some (writeFileEmpty inode st, queue) := by
  obtain ⟨b, hb, herror, hsize⟩ := @buffers_of_empty env source hnil
  rw [hb, List.singleton_append, writeFile, herror, hsize]
  rfl

/-- **A file is written**, with its own buffers and no others. -/
theorem writeFile_source (hcomp : env.comp.Lossless) (h : st.Ok env) (inode : InodeArgs) (source : Source)
    (queue : List FileBuffer) :
    ∃ r, writeFile env inode source.stBlocks st (source.buffers env ++ queue) = some (r, queue) ∧
      r.2.Ok env ∧ st.store.Grows r.2.store ∧ source.StoredAs env r.2.store r.1 := by
  have hempty := (wrote_empty h inode).inodeStored
  by_cases hcounted : source.Counted env
  · by_cases hnil : source.content = []
    · exact ⟨_, writeFile_of_empty hnil inode queue, h, .refl _, [], [], hempty,
        .inl ⟨hcounted, hnil, (Source.tail_of_empty hnil).symm⟩⟩
    · obtain ⟨body, hbody, hbuffers, hsizes, hsmall⟩ := buffers_of_source hcomp hnil hcounted
      have hlength : source.content.length = body.length + (source.tail env).length := by
        conv_lhs => rw [hbody, List.length_append]
      rw [hlength] at hsizes hsmall
      obtain ⟨r, hr, hwrote⟩ := writeFile_wrote h hbuffers hsizes
        (by rw [← hlength]; exact (List.length_pos_iff.mpr hnil).ne') hsmall inode source.stBlocks queue
      exact ⟨r, hr, hwrote.ok, hwrote.grows, body, _, hwrote.inodeStored, .inl ⟨hcounted, hbody, rfl⟩⟩
  · cases source with
    | process out => exact absurd trivial hcounted
    | regular data stBlocks =>
        exact ⟨_, writeFile_large (not_lt.mp hcounted) st inode stBlocks queue, h, .refl _, [], [], hempty,
          .inr ⟨hcounted, rfl, rfl⟩⟩

theorem sources_file (inode : InodeArgs) (source : Source) (events : List Event) :
    sources (.file inode source :: events) = source :: sources events := rfl

/-- **The run**: every file is stored, and stays where it is. -/
theorem writeFiles_stored (hcomp : env.comp.Lossless) (h : st.Ok env) (events : List Event) :
    ∃ inodes st', writeFiles env st ((sources events).flatMap (Source.buffers env)) events
        = some (inodes, st') ∧ st'.Ok env ∧ st.store.Grows st'.store ∧
      List.Forall₂ (Source.StoredAs env st'.store) (sources events) inodes := by
  induction events generalizing st with
  | nil => exact ⟨[], st, rfl, h, .refl _, .nil⟩
  | cons event events ih =>
      cases event with
      | file inode source =>
          obtain ⟨⟨inode', st₁⟩, hr, hok, hgrows, hstored⟩ := writeFile_source hcomp h inode source
            ((sources events).flatMap (Source.buffers env))
          obtain ⟨inodes, st', hrest, hok', hgrows', hall⟩ := ih hok
          refine ⟨inode' :: inodes, st', ?_, hok', hgrows.trans hgrows', .cons (hstored.grows hgrows') hall⟩
          rw [sources_file, List.flatMap_cons, writeFiles, hr]
          simp only [Option.bind_eq_bind, Option.bind_some, hrest]
      | fragment i =>
          obtain ⟨hok, hgrows, -⟩ := fragDeflator_ok hcomp h i
          obtain ⟨inodes, st', hrest, hok', hgrows', hall⟩ := ih hok
          exact ⟨inodes, st', hrest, hok', hgrows.trans hgrows', hall⟩

theorem foldl_fragDeflator_ok (hcomp : env.comp.Lossless) (h : st.Ok env) (last : List ℕ) :
    (last.foldl (Writer.fragDeflator env) st).Ok env ∧
      st.store.Grows (last.foldl (Writer.fragDeflator env) st).store ∧
      (last.foldl (Writer.fragDeflator env) st).fragmentData = st.fragmentData := by
  induction last generalizing st with
  | nil => exact ⟨h, .refl _, rfl⟩
  | cons i last ih =>
      obtain ⟨hok, hgrows, -⟩ := fragDeflator_ok hcomp h i
      obtain ⟨hok', hgrows', hdata⟩ := ih hok
      refine ⟨hok', hgrows.trans hgrows', hdata.trans ?_⟩
      unfold Writer.fragDeflator
      split <;> rfl

/-- **All the data of a filesystem.** -/
theorem writeData_stored (hcomp : env.comp.Lossless) (out : List UInt8) (events : List Event)
    (last : List ℕ) :
    ∃ inodes st, writeData env out events last = some (inodes, st) ∧ st.Ok env ∧ st.fragmentData = [] ∧
      List.Forall₂ (Source.StoredAs env st.store) (sources events) inodes := by
  have hstart : Writer.Ok env ⟨out, [], [], []⟩ :=
    ⟨fun _ h => absurd h List.not_mem_nil, fun _ h => absurd h List.not_mem_nil, Nat.zero_le _⟩
  obtain ⟨inodes, st, hrun, hok, -, hall⟩ := writeFiles_stored hcomp hstart events
  obtain ⟨hok', hgrows, -, hempty⟩ := writeFragment_ok hok
  obtain ⟨hok'', hgrows', hdata⟩ := foldl_fragDeflator_ok hcomp hok' last
  refine ⟨inodes, _, ?_, hok'', ?_, hall.imp fun _ _ hs => (hs.grows hgrows).grows hgrows'⟩
  · unfold writeData
    rw [hrun]
    rfl
  · rw [hdata]
    by_cases hne : st.fragmentData = []
    · rw [Writer.writeFragment, if_pos hne, hne]
    · exact hempty hne

/-! ## The table of the fragments -/

/-- `struct squashfs_fragment_entry` -/
def packFragment (f : ℕ × ℕ) : List UInt8 := packFields [(8, f.1), (4, f.2), (4, 0)]

/-- `write_fragment_table`: what it writes at `bytes`, and where it says the table begins. The number of
bytes is an `unsigned int`. -/
def writeFragmentTable (env : DataEnv) (bytes : ℕ) (fragments : List (ℕ × ℕ)) : List UInt8 × ℕ :=
  let fragBytes := 16 * fragments.length % 2 ^ 32
  genericWriteTable env.comp env.noF bytes ((fragments.flatMap packFragment).take fragBytes) []

theorem length_packFragment (f : ℕ × ℕ) : (packFragment f).length = 16 := by
  rw [packFragment, length_packFields]
  rfl

theorem length_flatMap_packFragment (fragments : List (ℕ × ℕ)) :
    (fragments.flatMap packFragment).length = 16 * fragments.length := by
  rw [List.length_flatMap, List.map_congr_left fun f _ => length_packFragment f, List.map_const',
    List.sum_replicate_nat, Nat.mul_comm]

theorem readFragmentEntry_packFragment (before : List (ℕ × ℕ)) (f : ℕ × ℕ) (after : List UInt8) :
    readFragmentEntry (before.flatMap packFragment ++ (packFragment f ++ after)) before.length
      = some (f.1 % 256 ^ 8, f.2 % 256 ^ 4) := by
  have hfields := readFields_packFields [(8, f.1), (4, f.2), (4, 0)] after
  simp only [List.map_cons, List.map_nil] at hfields
  rw [readFragmentEntry, List.drop_left' (length_flatMap_packFragment before), packFragment, hfields]
  rfl

/-- **The table of the fragments is read back**, if its size is an `unsigned int`. -/
theorem readFragmentTable_writeFragmentTable (hcomp : env.comp.Lossless) {fragments : List (ℕ × ℕ)}
    (hfew : fragments.length < 2 ^ 28) (hfits : ∀ f ∈ fragments, f.1 < 2 ^ 64 ∧ f.2 < 2 ^ 32)
    {img : List UInt8} {bytes : ℕ} (himg : HoldsAt img bytes (writeFragmentTable env bytes fragments).1)
    (hbound : img.length < 2 ^ 63) (fresh : ℕ → UInt8) :
    readFragmentTable env fresh img (writeFragmentTable env bytes fragments).2 fragments.length
      = some fragments := by
  have hlength := length_flatMap_packFragment fragments
  have hall : (fragments.flatMap packFragment).take (16 * fragments.length % 2 ^ 32)
      = fragments.flatMap packFragment := by
    rw [Nat.mod_eq_of_lt (by omega), ← hlength, List.take_length]
  unfold writeFragmentTable at himg ⊢
  dsimp only at himg ⊢
  rw [hall] at himg ⊢
  unfold readFragmentTable
  split
  · rename_i hnil
    rw [List.length_eq_zero_iff.mp hnil]
  · rename_i hsome
    have hne : fragments.flatMap packFragment ≠ [] := by
      rw [← List.length_pos_iff, hlength]
      omega
    have hread := readTable_of_holds hcomp hne himg (by omega)
    have hmul : fragments.length * 16 = (fragments.flatMap packFragment).length := by
      rw [hlength, Nat.mul_comm]
    obtain ⟨rest, hrest⟩ := @layOut_eq metadataSize (cutBlocks metadataSize
      (fragments.flatMap packFragment).length (fragments.flatMap packFragment)) fresh 0
      fun b hb => length_of_mem_dropLast_cutBlocks hb
    have hentries := mapM_range'_records readFragmentEntry_packFragment [] fragments rest
    rw [List.length_nil, Nat.add_zero] at hread
    rw [hmul]
    dsimp only
    rw [hread]
    simp only [Option.bind_eq_bind, Option.bind_some]
    rw [hrest, flatten_cutBlocks (by decide) (le_refl _), List.range_eq_range']
    refine hentries.trans (congrArg some ?_)
    refine (List.map_congr_left fun f hf => ?_).trans (List.map_id fragments)
    obtain ⟨hstart, hsize⟩ := hfits f hf
    rw [Nat.mod_eq_of_lt (show f.1 < 256 ^ 8 by omega), Nat.mod_eq_of_lt (show f.2 < 256 ^ 4 by omega)]
    rfl

/-! ## The image -/

/-- What is written of a filesystem: the data, the records of the inodes, wherever they are in their table,
and the table of the fragments, all of which have been written. -/
structure WrittenImage (env : DataEnv) (inodes : List InodeArgs) (st : Writer) where
  bytes : List UInt8
  inodeTable : InodeTable
  place : ℕ → ℕ × ℕ
  fragments : List (ℕ × ℕ)
  fragmentBytes : ℕ
  data : st.out <+: bytes
  length_lt : bytes.length < 2 ^ 63
  geometry : inodeTable.For env
  records : ∀ (k : ℕ) (inode : InodeArgs), inodes[k]? = some inode → ∃ record,
    createInode inode = some record ∧ inodeTable.Holds (place k).1 (place k).2 record
  written : st.fragmentTable.map FragmentBlock.entry = fragments.map some
  fragmentTable : HoldsAt bytes fragmentBytes (writeFragmentTable env fragmentBytes fragments).1

variable {inodes : List InodeArgs}

/-- What `unsquashfs` makes of inode `k`: the inode that it reads, and the file. -/
def WrittenImage.extract (img : WrittenImage env inodes st) (fresh : ℕ → UInt8) (k : ℕ) :
    Option (Inode × List UInt8) := do
  let fragments ← readFragmentTable env fresh img.bytes
    (writeFragmentTable env img.fragmentBytes img.fragments).2 img.fragments.length
  let i ← readInode4 img.inodeTable (img.place k).1 (img.place k).2
  let file ← extractFile env img.bytes img.inodeTable fragments i
  some (i, file)

/-- The entry of a fragment that is full is written. -/
theorem WrittenImage.entry (img : WrittenImage env inodes st) {i : ℕ} {f : FragmentBlock}
    (hf : st.fragmentTable[i]? = some f) : ∃ e, f.entry = some e ∧ img.fragments[i]? = some e := by
  have hwritten : (st.fragmentTable.map FragmentBlock.entry)[i]? = (img.fragments.map some)[i]? := by
    rw [img.written]
  rw [List.getElem?_map, List.getElem?_map, hf, Option.map_some, eq_comm, Option.map_eq_some_iff]
    at hwritten
  obtain ⟨e, he, hentry⟩ := hwritten
  exact ⟨e, hentry.symm, he⟩

theorem WrittenImage.length_fragments (img : WrittenImage env inodes st) :
    img.fragments.length = st.fragmentTable.length := by
  have hlength := congrArg List.length img.written
  rw [List.length_map, List.length_map] at hlength
  exact hlength.symm

/-- A fragment with data is a full one, when the last one has been queued. -/
theorem Writer.fragment_of_store (hempty : st.fragmentData = []) {i : ℕ} {data : List UInt8}
    (hdata : st.store.fragments[i]? = some data) (hne : data ≠ []) :
    ∃ f, st.fragmentTable[i]? = some f ∧ f.data = data := by
  change (st.fragmentTable.map FragmentBlock.data ++ [st.fragmentData])[i]? = some data at hdata
  rw [hempty, List.getElem?_append] at hdata
  split at hdata
  · rwa [List.getElem?_map, Option.map_eq_some_iff] at hdata
  · exact absurd (List.mem_singleton.mp (List.mem_of_getElem? hdata)) hne

/-- The entries of the fragments say where they are. -/
theorem WrittenImage.fragmentsIn (img : WrittenImage env inodes st) (hok : st.Ok env)
    (hempty : st.fragmentData = []) : FragmentsIn env img.bytes img.fragments st.store.fragments := by
  intro i data hdata hne
  obtain ⟨f, hf, rfl⟩ := st.fragment_of_store hempty hdata hne
  obtain ⟨e, hentry, he⟩ := img.entry hf
  obtain ⟨-, -, stored, hstored, hholds, hlength, hdecode⟩ :=
    (hok.table f (List.mem_of_getElem? hf)).written e.1 e.2 hentry
  obtain ⟨more, hmore⟩ := img.data
  refine ⟨e.1, e.2, he, readDataBlock_of_holdsAt ?_ hstored hlength hdecode⟩
  rw [← hmore]
  exact hholds.append hstored more

theorem WrittenImage.fits (img : WrittenImage env inodes st) (hok : st.Ok env) :
    ∀ f ∈ img.fragments, f.1 < 2 ^ 64 ∧ f.2 < 2 ^ 32 := by
  intro f hf
  obtain ⟨i, hi⟩ := List.mem_iff_getElem?.mp hf
  have hlt := (List.getElem?_eq_some_iff.mp hi).1
  rw [img.length_fragments] at hlt
  obtain ⟨e, hentry, he⟩ := img.entry (List.getElem?_eq_getElem hlt)
  rw [hi, Option.some.injEq] at he
  subst he
  obtain ⟨hstart, hsize, -⟩ := (hok.table _ (List.getElem_mem hlt)).written f.1 f.2 hentry
  have hout := List.IsPrefix.length_le img.data
  have hbound := img.length_lt
  exact ⟨by omega, hsize⟩

/-- **The table of the fragments** of an image. -/
theorem WrittenImage.readFragmentTable_eq (img : WrittenImage env inodes st) (hcomp : env.comp.Lossless)
    (hok : st.Ok env) (hfew : img.fragments.length < 2 ^ 28) (fresh : ℕ → UInt8) :
    readFragmentTable env fresh img.bytes (writeFragmentTable env img.fragmentBytes img.fragments).2
      img.fragments.length = some img.fragments :=
  readFragmentTable_writeFragmentTable hcomp hfew (img.fits hok) img.fragmentTable img.length_lt fresh

/-! ## A file in the image -/

theorem BlocksAt.short {out : List UInt8} {start : ℕ} {blockList : List ℕ} {blocks : List (List UInt8)}
    (h : BlocksAt env out start blockList blocks) : ∀ cByte ∈ blockList, cByte < 2 ^ 32 := by
  induction blockList generalizing start blocks with
  | nil => exact fun _ h => absurd h List.not_mem_nil
  | cons cByte blockList ih =>
      obtain ⟨block, rest, -, hlt, hblock⟩ := h
      refine List.forall_mem_cons.mpr ⟨hlt, ?_⟩
      split at hblock
      · exact ih hblock.2
      · obtain ⟨_, -, -, -, -, hrest⟩ := hblock
        exact ih hrest

/-- The fragment of a file, which is none if nothing of the file is in a fragment. -/
theorem InodeStored.fragment {inode : InodeArgs} {body tail : List UInt8} (hok : st.Ok env)
    (hempty : st.fragmentData = []) (h : InodeStored env st.store inode body tail) :
    if tail = [] then inode.fragmentIndex = invalidFrag ∧ inode.fragmentOffset = 0
    else inode.fragmentIndex < st.fragmentTable.length ∧ inode.fragmentOffset ≤ env.blockSize := by
  have hfragment := h.stored.fragment
  unfold DataStore.FragmentAt at hfragment
  split
  · rename_i hnil
    rw [if_pos hnil, Fragment.mk.injEq] at hfragment
    exact ⟨hfragment.1, hfragment.2.1⟩
  · rename_i hne
    rw [if_neg hne] at hfragment
    obtain ⟨-, data, hdata, hholds⟩ := hfragment
    have hlength := hholds.length_le hne
    have hsome : data ≠ [] := by
      rintro rfl
      have hpos := List.length_pos_iff.mpr hne
      rw [List.length_nil] at hlength
      omega
    obtain ⟨f, hf, rfl⟩ := st.fragment_of_store hempty hdata hsome
    have hshort := (hok.table f (List.mem_of_getElem? hf)).short
    dsimp only at hlength
    exact ⟨(List.getElem?_eq_some_iff.mp hf).1, by omega⟩

variable {k : ℕ} {inode : InodeArgs} {body tail : List UInt8}

/-- The fields of the inode of a file are wide enough. -/
theorem InodeStored.fileFits (h : InodeStored env st.store inode body tail) (hok : st.Ok env)
    (hempty : st.fragmentData = []) (hout : st.out.length < 2 ^ 63)
    (hfew : tail ≠ [] → st.fragmentTable.length < 2 ^ 28)
    (hsize : body.length + tail.length < 2 ^ 63) : inode.FileFits := by
  have hfragment := h.fragment hok hempty
  have hblock := env.blockSize_le
  have hstart : inode.startBlock ≤ st.out.length := h.start
  refine ⟨h.type, by rw [h.byteSize]; exact hsize, by omega, ?_, ?_, h.stored.blocks.short⟩
  · split at hfragment
    · rw [hfragment.1]
      decide
    · rename_i hne
      have hlt := hfew hne
      omega
  · split at hfragment
    · rw [hfragment.2]
      decide
    · omega

/-- **The inode of a file** is read. -/
theorem WrittenImage.readInode_eq (img : WrittenImage env inodes st) (hok : st.Ok env)
    (hempty : st.fragmentData = []) (hk : inodes[k]? = some inode)
    (h : InodeStored env st.store inode body tail)
    (hfew : tail ≠ [] → st.fragmentTable.length < 2 ^ 28) (hsize : body.length + tail.length < 2 ^ 63) :
    ∃ i, readInode4 img.inodeTable (img.place k).1 (img.place k).2 = some i ∧
      i.OfFile img.inodeTable inode := by
  have hout := List.IsPrefix.length_le img.data
  have hbound := img.length_lt
  obtain ⟨record, hcreate, hread⟩ :=
    readInode4_ofFile (h.fileFits hok hempty (by omega) hfew hsize)
  obtain ⟨record', hcreate', hholds⟩ := img.records k inode hk
  obtain rfl := Option.some.inj (hcreate.symm.trans hcreate')
  exact hread img.inodeTable _ _ hholds

/-- **A file is read back**, if its blocks can be counted and its part in a fragment is not a full block. -/
theorem WrittenImage.extract_eq (img : WrittenImage env inodes st) (hcomp : env.comp.Lossless)
    (hok : st.Ok env) (hempty : st.fragmentData = []) (hfew : img.fragments.length < 2 ^ 28)
    (hk : inodes[k]? = some inode) (h : InodeStored env st.store inode body tail)
    (htail : tail.length < env.blockSize) (hcount : env.blockCount body.length < 2 ^ 31)
    (fresh : ℕ → UInt8) :
    ∃ i, img.extract fresh k = some (i, body ++ tail) ∧ i.data = body.length + tail.length ∧
      i.blocks = inode.blockList.length := by
  have hblock := env.blockSize_le
  have hle := img.length_fragments
  have hbody : body.length ≤ env.blockCount body.length * env.blockSize := by
    have hmod := Nat.div_add_mod body.length env.blockSize
    have hlt := Nat.mod_lt body.length env.blockSize_pos
    rw [blockCount_eq]
    split
    · rename_i hdvd
      exact (Nat.div_mul_cancel hdvd).ge
    · rw [Nat.succ_mul, Nat.mul_comm]
      omega
  have hmul : env.blockCount body.length * env.blockSize ≤ 2 ^ 31 * 2 ^ 20 :=
    Nat.mul_le_mul hcount.le hblock
  obtain ⟨i, hread, hi⟩ := img.readInode_eq hok hempty hk h (fun _ => by omega) (by omega)
  have hfragment := h.fragment hok hempty
  have hvalid : tail ≠ [] → inode.fragmentIndex ≠ invalidFrag := by
    intro hne
    rw [if_neg hne] at hfragment
    have hlt : (2 : ℕ) ^ 28 < invalidFrag := by decide
    omega
  obtain ⟨hblocks, hfile⟩ := extractFile_of_fileStored img.geometry hi h.stored h.byteSize htail hcount hvalid
    img.data (img.fragmentsIn hok hempty)
  refine ⟨i, ?_, by rw [hi.data, h.byteSize]; rfl, hblocks⟩
  rw [WrittenImage.extract, img.readFragmentTable_eq hcomp hok hfew, hread]
  simp only [Option.bind_eq_bind, Option.bind_some, hfile]

/-! ## Regular files -/

/-- All files are read back, with their lengths. -/
def WrittenImage.ReadsAll (img : WrittenImage env inodes st) (fresh : ℕ → UInt8) (files : List Source) :
    Prop :=
  ∀ k source, files[k]? = some source →
    ∃ i, img.extract fresh k = some (i, source.content) ∧ i.data = source.content.length

/-- The part of a regular file in a fragment is not a full block. -/
theorem length_tail_regular {data : List UInt8} {stBlocks : ℕ}
    (hcounted : (Source.regular data stBlocks).Counted env) :
    ((Source.regular data stBlocks).tail env).length < env.blockSize := by
  have hpos := env.blockSize_pos
  by_cases hnil : data = []
  · rw [@Source.tail_of_empty env (.regular data stBlocks) hnil]
    exact hpos
  · rw [Source.tail, tailOf]
    split
    · rename_i hkept
      rw [Bool.and_eq_true] at hkept
      have hcount := blockCount_pos env (List.length_pos_iff.mpr hnil)
      obtain ⟨-, hdvd⟩ := fragBlock_cases env hcounted (by omega) hkept.1
      rw [length_lastBlock env hnil, if_neg hdvd]
      exact Nat.mod_lt _ hpos
    · exact hpos

theorem blockCount_mono (env : DataEnv) {m n : ℕ} (h : m ≤ n) : env.blockCount m ≤ env.blockCount n :=
  Nat.div_le_div_right (by omega)

/-- The file of a source. -/
theorem exists_stored {s : DataStore} {files : List Source}
    (hall : List.Forall₂ (Source.StoredAs env s) files inodes) {source : Source}
    (hk : files[k]? = some source) : ∃ inode, inodes[k]? = some inode ∧ source.StoredAs env s inode := by
  induction hall generalizing k with
  | nil => cases hk
  | @cons source' inode' files inodes hstored _ ih =>
      cases k with
      | zero =>
          obtain rfl := Option.some.inj hk
          exact ⟨inode', rfl, hstored⟩
      | succ k => exact ih hk

/-- The inode of a file that is read back. -/
theorem WrittenImage.inode_of_extract (img : WrittenImage env inodes st) {i i' : Inode} {fresh : ℕ → UInt8}
    {file : List UInt8} (hread : readInode4 img.inodeTable (img.place k).1 (img.place k).2 = some i)
    (hextract : img.extract fresh k = some (i', file)) : i' = i := by
  unfold WrittenImage.extract at hextract
  obtain ⟨fragments, -, hextract⟩ := Option.bind_eq_some_iff.mp hextract
  obtain ⟨i'', hread', hextract⟩ := Option.bind_eq_some_iff.mp hextract
  obtain ⟨file', -, hextract⟩ := Option.bind_eq_some_iff.mp hextract
  obtain ⟨rfl, -⟩ := Prod.mk.inj (Option.some.inj hextract)
  rw [hread, Option.some.injEq] at hread'
  exact hread'.symm

/-- A file whose blocks cannot be counted is not read back: it is stored as an empty one. -/
theorem WrittenImage.counted_of_reads (img : WrittenImage env inodes st) (hok : st.Ok env)
    (hempty : st.fragmentData = []) {files : List Source}
    (hall : List.Forall₂ (Source.StoredAs env st.store) files inodes) {fresh : ℕ → UInt8}
    (hreads : img.ReadsAll fresh files) {source : Source} (hk : files[k]? = some source) :
    source.Counted env := by
  obtain ⟨inode, hinode, body, tail, hstored, ⟨hcounted, -⟩ | ⟨hnot, rfl, rfl⟩⟩ := exists_stored hall hk
  · exact hcounted
  · exfalso
    obtain ⟨i, hread, hi⟩ := img.readInode_eq hok hempty hinode hstored (fun hne => absurd rfl hne)
      (by decide)
    obtain ⟨i', hextract, hdata⟩ := hreads k source hk
    rw [img.inode_of_extract hread hextract, hi.data, hstored.byteSize] at hdata
    have hlength : source.content.length = 0 := by exact_mod_cast hdata.symm
    cases source with
    | process out => exact hnot trivial
    | regular data stBlocks =>
        refine hnot ?_
        change env.blockCount data.length < 2 ^ 31
        rw [show data.length = 0 from hlength]
        exact (blockCount_le env 0).trans_lt (by decide)

theorem exists_createInode {inode : InodeArgs} (h : inode.type = .file) :
    ∃ record, createInode inode = some record := by
  rcases writtenType_file h with ⟨htype, -⟩ | htype
  · exact ⟨_, by rw [createInode, htype]⟩
  · exact ⟨_, by rw [createInode, htype]⟩

/-- **There is an image** of a run that has written all its fragments. -/
theorem exists_writtenImage (hfiles : ∀ inode ∈ inodes, inode.type = .file)
    (hwritten : ∀ f ∈ st.fragmentTable, f.entry.isSome)
    (hout : st.out.length + 176 * st.fragmentTable.length < 2 ^ 63) :
    Nonempty (WrittenImage env inodes st) := by
  let record : InodeArgs → List UInt8 := fun inode => (createInode inode).getD []
  let fragments := st.fragmentTable.map fun f => f.entry.getD (0, 0)
  have hlength : fragments.length = st.fragmentTable.length := List.length_map ..
  let table := (writeFragmentTable env st.out.length fragments).1
  have htable : table.length ≤ 176 * st.fragmentTable.length := by
    refine (length_genericWriteTable_le _ _ _ _ _).trans ?_
    have htake := List.length_take_le' (16 * fragments.length % 2 ^ 32) (fragments.flatMap packFragment)
    rw [length_flatMap_packFragment, hlength] at htake
    rw [List.length_nil, hlength]
    omega
  refine ⟨⟨st.out ++ table, ⟨inodes.flatMap record, fun _ => some 0, 0, fun _ => 0, env.blockSize,
    env.blockLog⟩, fun k => (0, ((inodes.take k).flatMap record).length), fragments, st.out.length,
    List.prefix_append _ _, ?_, ⟨rfl, rfl⟩, ?_, ?_, ?_⟩⟩
  · rw [List.length_append]
    omega
  · intro k inode hk
    obtain ⟨r, hr⟩ := exists_createInode (hfiles inode (List.mem_of_getElem? hk))
    have hrecord : record inode = r := by
      change (createInode inode).getD [] = r
      rw [hr, Option.getD_some]
    obtain ⟨hlt, hget⟩ := List.getElem?_eq_some_iff.mp hk
    refine ⟨r, hr, 0, rfl, (inodes.drop (k + 1)).flatMap record, ?_⟩
    have hflat : inodes.flatMap record
        = (inodes.take k).flatMap record ++ (r ++ (inodes.drop (k + 1)).flatMap record) := by
      conv_lhs => rw [← List.take_append_drop k inodes, List.drop_eq_getElem_cons hlt, hget,
        List.flatMap_append, List.flatMap_cons, hrecord]
    dsimp only
    rw [hflat, Nat.zero_add, List.drop_left]
  · rw [List.map_map]
    refine List.map_congr_left fun f hf => ?_
    obtain ⟨e, he⟩ := Option.isSome_iff_exists.mp (hwritten f hf)
    change f.entry = some (f.entry.getD (0, 0))
    rw [he, Option.getD_some]
  · have hholds := holdsAt_append st.out table []
    rwa [List.append_nil] at hholds

/-! ### Small runs -/

/-- A regular file, and the same file again. -/
def sameFiles : List Event :=
  [.file { type := .file } (.regular [1, 2, 3] 8), .file { type := .file } (.regular [1, 2, 3] 8)]

/-- The last block of what a process writes is a full one, and is put into a fragment. -/
def DataEnv.FullFragment (env : DataEnv) (data : List UInt8) : Prop :=
  data ≠ [] ∧ env.blockSize ∣ data.length ∧ env.processFragment data.length = true ∧
    (env.sparseFiles && allZero (env.lastBlock data)) = false

/-- The number of blocks in front of the fragment. -/
def DataEnv.listLength (env : DataEnv) (out : ProcessOutput) : ℕ :=
  env.blockCount (out.bytes.length - ((Source.process out).tail env).length)

theorem length_tail_process (env : DataEnv) (out : ProcessOutput) :
    ((Source.process out).tail env).length ≤ env.blockSize ∧
      (((Source.process out).tail env).length = env.blockSize ↔ env.FullFragment out.bytes) := by
  have hpos := env.blockSize_pos
  have hle : (env.lastBlock out.bytes).length ≤ env.blockSize := List.length_take_le _ _
  by_cases hnil : out.bytes = []
  · rw [@Source.tail_of_empty env (.process out) hnil]
    exact ⟨Nat.zero_le _, iff_of_false hpos.ne (fun h => h.1 hnil)⟩
  have hlast := length_lastBlock env hnil
  have hlt := Nat.mod_lt out.bytes.length hpos
  rw [Source.tail, tailOf]
  split
  · rename_i hkept
    rw [Bool.and_eq_true, Bool.not_eq_true'] at hkept
    refine ⟨hle, ?_⟩
    rw [hlast]
    split
    · rename_i hdvd
      exact iff_of_true rfl ⟨hnil, hdvd, hkept.1, hkept.2⟩
    · rename_i hdvd
      exact iff_of_false hlt.ne (fun h => hdvd h.2.1)
  · rename_i hkept
    rw [Bool.and_eq_true, Bool.not_eq_true'] at hkept
    exact ⟨Nat.zero_le _, iff_of_false hpos.ne fun h => hkept h.2.2⟩

/-- A file of which the reader finds the blocks in the list has no full block in a fragment. -/
theorem WrittenImage.listed_of_extract (img : WrittenImage env inodes st) (hok : st.Ok env)
    (hempty : st.fragmentData = []) (hfew : img.fragments.length < 2 ^ 28) (hinode : inodes[k]? = some inode)
    (hstored : InodeStored env st.store inode body tail) (hsize : body.length + tail.length < 2 ^ 63)
    {fresh : ℕ → UInt8} {i : Inode} {file : List UInt8} (hextract : img.extract fresh k = some (i, file))
    (hblocks : i.blocks = inode.blockList.length) :
    tail.length ≠ env.blockSize ∧ env.blockCount body.length < 2 ^ 31 := by
  have hpos := env.blockSize_pos
  have hcount := img.length_fragments
  obtain ⟨i', hread, hi⟩ := img.readInode_eq hok hempty hinode hstored (fun _ => by omega) hsize
  obtain rfl := img.inode_of_extract hread hextract
  have hlist : inode.blockList.length = env.blockCount body.length := by
    rw [hstored.stored.blocks.length_eq, length_cutBlocks hpos (le_refl _)]
    rfl
  rw [hi.blocks, blocks_eq img.geometry, hlist] at hblocks
  refine ⟨fun heq => ?_, ?_⟩
  · -- the reader takes the block in the fragment for one in the list
    have hne : tail ≠ [] := by
      rintro rfl
      rw [List.length_nil] at heq
      omega
    have hfragment := hstored.fragment hok hempty
    rw [if_neg hne] at hfragment
    have hinvalid : (2 : ℕ) ^ 28 < invalidFrag := by decide
    obtain ⟨q, hq⟩ := hstored.stored.full hne
    have hdiv : inode.byteSize / env.blockSize = q + 1 := by
      rw [hstored.byteSize, heq, hq, ← Nat.mul_succ, Nat.mul_div_cancel_left _ hpos]
    have hq' : env.blockCount body.length = q := by
      rw [blockCount_eq, if_pos ⟨q, hq⟩, hq, Nat.mul_div_cancel_left _ hpos]
    rw [if_neg (by omega), hdiv, hq', toInt32, Int.bmod_def] at hblocks
    split at hblocks <;> omega
  · have hlt := (toInt32_le (if inode.fragmentIndex = invalidFrag then
      (inode.byteSize + env.blockSize - 1) / env.blockSize else inode.byteSize / env.blockSize)).2
    omega

/-- What a process writes at once. -/
def onePiece (piece : List UInt8) (h : piece ≠ []) : ProcessOutput where
  pieces := [piece]
  nonempty := by
    intro piece' hpiece
    rw [List.mem_singleton.mp hpiece]
    exact h

/-- A process that writes three bytes. -/
def shortProcess : ProcessOutput := onePiece [1, 2, 3] (List.cons_ne_nil _ _)

/-- A process that writes four kilobytes. -/
def fullProcess : ProcessOutput := onePiece (List.replicate 4096 1) (List.cons_ne_nil _ _)

/-- There is an image of a run with one process, if the run writes its fragment. -/
theorem exists_image_process {process : ProcessOutput} (hfacts : (writeData fourKilobyteEnv []
      [.file { type := .file } (.process process)] [0]).all (fun r =>
        r.1.all (fun inode => inode.type = .file) && r.2.fragmentTable.all (fun f => f.entry.isSome) &&
          decide (r.2.fragmentTable.length ≤ 1) && decide (r.2.out.length ≤ 4096)) = true)
    (hrun : writeData fourKilobyteEnv [] [.file { type := .file } (.process process)] [0]
      = some (inodes, st)) :
    ∃ img : WrittenImage fourKilobyteEnv inodes st, img.fragments.length < 2 ^ 28 := by
  rw [hrun, Option.all_some, Bool.and_eq_true, Bool.and_eq_true, Bool.and_eq_true, List.all_eq_true,
    List.all_eq_true, decide_eq_true_eq, decide_eq_true_eq] at hfacts
  obtain ⟨⟨⟨hfiles, hwritten⟩, hcount⟩, hout⟩ := hfacts
  dsimp only at hfiles hwritten hcount hout
  obtain ⟨img⟩ := @exists_writtenImage fourKilobyteEnv st inodes
    (fun inode hinode => of_decide_eq_true (hfiles inode hinode)) hwritten (by omega)
  exact ⟨img, by rw [img.length_fragments]; omega⟩

end FirmwareTools.Squashfs

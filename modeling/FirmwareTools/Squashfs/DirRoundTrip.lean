import FirmwareTools.Squashfs.Directory

/-! # Directories are read as they were written

`squashfs_opendir_4` looks up the block in which the inode says the directory begins, and then reads runs
of entries. It looks the block up also when there is nothing to read.

* **`readDirectory_runs`**, **`readRuns_runs`** — runs of entries are read back;
* **`directoryFound_iff`** — a directory is found again, unless it is empty and the table ends with a full
  block in front of it, or the table is too large. -/

namespace FirmwareTools.Squashfs

/-! ## Inode numbers -/

/-- A value read as a `short`. -/
def toInt16 (x : ℕ) : Int := Int.bmod x (2 ^ 16)

/-- `SQUASHFS_MKINODE` -/
def mkInode (startBlock offset : ℕ) : ℕ := startBlock <<< 16 + offset

/-- The inode numbers of `n` entries from `bytes` on, as `squashfs_readdir` adds them up from the number
in the header and the difference in the entry, and the position behind the entries. -/
def readNumbers (table : List UInt8) (inodeNumber : ℕ) : ℕ → ℕ → Option (List Int × ℕ)
  | 0, bytes => some ([], bytes)
  | n + 1, bytes => do
    let [_, delta, _, size] ← readFields [2, 2, 2, 2] (table.drop bytes) | none
    let (numbers, bytes) ← readNumbers table inodeNumber n (bytes + 8 + (size + 1))
    some ((inodeNumber + toInt16 delta) :: numbers, bytes)

/-- Where the headers of a directory are, and the inode numbers of the entries behind each. The first
argument is a bound on their number. -/
def readRuns (table : List UInt8) (size : Int) : ℕ → ℕ → Option (List (ℕ × List Int))
  | 0, bytes => if (bytes : Int) < size then none else some []
  | n + 1, bytes =>
    if (bytes : Int) < size then do
      let [count, _, inodeNumber] ← readFields [4, 4, 4] (table.drop bytes) | none
      let (numbers, next) ← readNumbers table inodeNumber ((count + 1) % 2 ^ 32) (bytes + 12)
      let runs ← readRuns table size n next
      some ((bytes, numbers) :: runs)
    else some []

/-! ## Reading runs -/

/-- An entry as it is read from a run. -/
def DirEntry.read (e : DirEntry) (startBlock : ℕ) : DirEnt :=
  ⟨e.name, startBlock, inodeOffset e.inode, e.type.code⟩

variable {table : List UInt8} {bytes base : ℕ} {e : DirEntry} {es : List DirEntry}

theorem DirEntry.size_eq (e : DirEntry) : e.size = e.name.length :=
  if_neg (not_lt.mpr e.name_le)

theorem length_encodeEntry (base : ℕ) (e : DirEntry) :
    (encodeEntry base e).length = 8 + e.name.length := by
  rw [encodeEntry, e.size_eq, List.take_length, List.length_append, length_packFields]
  rfl

theorem inodeOffset_lt (i : ℕ) : inodeOffset i < 256 ^ 2 := by
  have hlt : i &&& 0xffff < 2 ^ 16 := Nat.and_lt_two_pow i (by decide)
  exact hlt

/-- A number that fits a `short` is the one that has its bits. -/
theorem bmod_emod {x : Int} (h : -32768 ≤ x ∧ x ≤ 32767) : (x % 65536).bmod 65536 = x := by
  rw [Int.bmod_def]
  omega

/-- The difference of two inode numbers in a run is stored as it is. -/
theorem toInt16_ofInt16 {x : Int} (h : -32768 ≤ x ∧ x ≤ 32767) :
    toInt16 (ofInt16 x % 256 ^ 2) = x := by
  have hpos : 0 ≤ x % 2 ^ 16 := by omega
  have hmod : ofInt16 x % 256 ^ 2 = ofInt16 x := by
    rw [ofInt16]
    omega
  rw [hmod]
  unfold toInt16 ofInt16
  rw [Int.toNat_of_nonneg hpos]
  exact bmod_emod h

/-- The fields of an entry. -/
theorem readFields_encodeEntry (h : HoldsAt table bytes (encodeEntry base e)) :
    readFields [2, 2, 2, 2] (table.drop bytes) =
      some [inodeOffset e.inode, ofInt16 (e.inodeNumber - base) % 256 ^ 2, e.type.code,
        e.name.length - 1] := by
  obtain ⟨rest, hrest⟩ := h
  have hread := readFields_packFields [(2, inodeOffset e.inode),
    (2, ofInt16 (e.inodeNumber - base)), (2, e.type.code), (2, e.size - 1)]
    (e.name.take e.size ++ rest)
  have hsize : e.size - 1 < 256 ^ 2 := by
    have := e.name_le
    rw [e.size_eq]
    unfold nameLen at this
    omega
  simp only [List.map_cons, List.map_nil, Nat.mod_eq_of_lt (inodeOffset_lt _),
    Nat.mod_eq_of_lt e.type.code_lt, Nat.mod_eq_of_lt hsize] at hread
  rw [← hrest, encodeEntry, List.append_assoc, hread, e.size_eq]

/-- **The entries of a run are read back.** -/
theorem readEntries_body (startBlock : ℕ) (h : HoldsAt table bytes (es.flatMap (encodeEntry base)))
    (hbytes : bytes + (es.flatMap (encodeEntry base)).length ≤ table.length) :
    readEntries table startBlock es.length bytes =
      some (es.map fun e => e.read startBlock, bytes + (es.flatMap (encodeEntry base)).length) := by
  induction es generalizing bytes with
  | nil => rfl
  | cons e es ih =>
      rw [List.flatMap_cons] at h hbytes
      have hpos := e.name_pos
      have hlen : e.name.length - 1 + 1 = e.name.length := by omega
      have hentry := length_encodeEntry base e
      rw [List.length_append] at hbytes
      have hname : HoldsAt table (bytes + 8) e.name := by
        have hright := h.left
        rw [encodeEntry, e.size_eq, List.take_length] at hright
        have hfields := hright.right
        rwa [length_packFields] at hfields
      have htext : ((table.drop (bytes + 8)).take e.name.length).takeWhile (· ≠ 0) = e.name := by
        obtain ⟨rest, hrest⟩ := hname
        rw [← hrest, List.take_left, List.takeWhile_eq_self_iff]
        intro b hb
        have hne : b ≠ 0 := fun hzero => e.name_nul (hzero ▸ hb)
        simpa using hne
      have hroom : ¬ (table.length < bytes + 8 + e.name.length ∨ nameLen < e.name.length) := by
        have := e.name_le
        omega
      have hrest := h.right
      rw [hentry, ← Nat.add_assoc] at hrest
      rw [List.length_cons, readEntries, readFields_encodeEntry h.left]
      simp only [Option.bind_eq_bind, Option.bind_some, hlen, htext, if_neg hroom,
        ih hrest (by omega), List.map_cons, List.flatMap_cons, List.length_append, hentry]
      rw [Nat.add_assoc bytes 8, Nat.add_assoc]
      rfl

/-- **The inode numbers of a run are read back.** -/
theorem readNumbers_body (h : HoldsAt table bytes (es.flatMap (encodeEntry base)))
    (hnear : ∀ e ∈ es, -32768 ≤ (e.inodeNumber : Int) - base ∧ (e.inodeNumber : Int) - base ≤ 32767) :
    readNumbers table base es.length bytes =
      some (es.map fun e => (e.inodeNumber : Int), bytes + (es.flatMap (encodeEntry base)).length) := by
  induction es generalizing bytes with
  | nil => rfl
  | cons e es ih =>
      rw [List.flatMap_cons] at h
      rw [List.forall_mem_cons] at hnear
      have hpos := e.name_pos
      have hlen : e.name.length - 1 + 1 = e.name.length := by omega
      have hrest := h.right
      rw [length_encodeEntry, ← Nat.add_assoc] at hrest
      have hnumber : (base : Int) + (e.inodeNumber - base) = e.inodeNumber := by omega
      rw [List.length_cons, readNumbers, readFields_encodeEntry h.left]
      simp only [Option.bind_eq_bind, Option.bind_some, hlen, ih hrest hnear.2,
        toInt16_ofInt16 hnear.1, hnumber, List.map_cons, List.flatMap_cons, List.length_append,
        length_encodeEntry]
      rw [Nat.add_assoc bytes 8, Nat.add_assoc]

/-- The fields of a header. -/
theorem readFields_packDirHeader {count startBlock inodeNumber : ℕ} (hcount : count - 1 < 2 ^ 32)
    (hstart : startBlock < 2 ^ 32) (hnumber : inodeNumber < 2 ^ 32)
    (h : HoldsAt table bytes (packDirHeader count startBlock inodeNumber)) :
    readFields [4, 4, 4] (table.drop bytes) = some [count - 1, startBlock, inodeNumber] := by
  obtain ⟨rest, hrest⟩ := h
  have hread := readFields_packFields [(4, count - 1), (4, startBlock), (4, inodeNumber)] rest
  simp only [List.map_cons, List.map_nil, Nat.mod_eq_of_lt (show count - 1 < 256 ^ 4 from hcount),
    Nat.mod_eq_of_lt (show startBlock < 256 ^ 4 from hstart),
    Nat.mod_eq_of_lt (show inodeNumber < 256 ^ 4 from hnumber)] at hread
  rw [← hrest, packDirHeader, hread]

theorem DirRun.length_pos (r : DirRun) : 0 < r.entries.length := List.length_pos_iff.mpr r.entries_ne

theorem DirRun.startBlock_lt (r : DirRun) : r.startBlock < 2 ^ 32 := by
  obtain ⟨e, he⟩ := List.exists_mem_of_length_pos r.length_pos
  rw [← r.blk e he, inodeBlk]
  exact Nat.mod_lt _ (by decide)

/-- The header of a run is read back. -/
theorem DirRun.readFields_encode (r : DirRun) (h : HoldsAt table bytes r.encode) :
    readFields [4, 4, 4] (table.drop bytes) =
      some [r.entries.length - 1, r.startBlock, r.inodeNumber] := by
  have hlen := r.length_le
  exact readFields_packDirHeader (by omega) r.startBlock_lt r.inodeNumber_lt h.left

theorem DirRun.length_encode (r : DirRun) : r.encode.length = 12 + r.body.length := by
  rw [DirRun.encode, List.length_append, length_packDirHeader]

/-- As many entries are read as were counted. -/
theorem DirRun.count (r : DirRun) : (r.entries.length - 1 + 1) % 2 ^ 32 = r.entries.length := by
  have hpos := r.length_pos
  have hlen := r.length_le
  omega

/-- The entries behind the header of a run. -/
theorem DirRun.holdsAt_body (r : DirRun) (h : HoldsAt table bytes r.encode) :
    HoldsAt table (bytes + 12) r.body := by
  have hright := h.right
  rwa [length_packDirHeader] at hright

/-- **A directory is read back**: the entries of all its runs. -/
theorem readDirectory_runs {runs : List DirRun} (h : HoldsAt table bytes (runs.flatMap DirRun.encode))
    (hbytes : bytes + (runs.flatMap DirRun.encode).length ≤ table.length) {size : Int}
    (hsize : size = ((bytes + (runs.flatMap DirRun.encode).length : ℕ) : Int)) :
    readDirectory table size bytes =
      some (runs.flatMap fun r => r.entries.map fun e => e.read r.startBlock) := by
  induction runs generalizing bytes with
  | nil =>
      rw [readDirectory, if_neg]
      · rfl
      · rw [hsize, List.flatMap_nil, List.length_nil, Nat.add_zero]
        exact lt_irrefl _
  | cons r runs ih =>
      rw [List.flatMap_cons] at h hbytes hsize
      have hencode := r.length_encode
      rw [List.length_append] at hbytes hsize
      have hnext := h.right
      have hrest := ih hnext (by omega) (by rw [hsize]; push_cast; ring)
      have hentries := readEntries_body r.startBlock (r.holdsAt_body h.left)
        (by rw [← DirRun.body]; omega)
      rw [← DirRun.body, Nat.add_assoc, ← hencode] at hentries
      rw [readDirectory, if_pos (by rw [hsize]; omega), r.readFields_encode h.left]
      dsimp only
      rw [r.count]
      split
      · rename_i entries bytes' hread
        cases hentries.symm.trans hread
        rw [hrest, Option.map_some, List.flatMap_cons]
      · rename_i hread
        cases hentries.symm.trans hread

/-- **The runs are read back**: the inode numbers of all entries, with headers where the runs begin. -/
theorem readRuns_runs {runs : List DirRun} {n : ℕ} (hn : runs.length ≤ n)
    (h : HoldsAt table bytes (runs.flatMap DirRun.encode)) {size : Int}
    (hsize : size = ((bytes + (runs.flatMap DirRun.encode).length : ℕ) : Int)) :
    ∃ rs, readRuns table size n bytes = some rs ∧
      rs.flatMap Prod.snd = runs.flatMap (fun r => r.entries.map fun e => (e.inodeNumber : Int)) ∧
      ∀ k < runs.length, bytes + ((runs.take k).flatMap DirRun.encode).length ∈ rs.map Prod.fst := by
  induction runs generalizing bytes n with
  | nil =>
      have hend : ¬ (bytes : Int) < size := by
        rw [hsize, List.flatMap_nil, List.length_nil, Nat.add_zero]
        exact lt_irrefl _
      refine ⟨[], ?_, rfl, fun k hk => absurd hk (Nat.not_lt_zero k)⟩
      cases n <;> rw [readRuns, if_neg hend]
  | cons r runs ih =>
      rw [List.flatMap_cons] at h hsize
      have hencode := r.length_encode
      rw [List.length_append] at hsize
      cases n with
      | zero => cases hn
      | succ n =>
          obtain ⟨rs, hrs, hnumbers, hheaders⟩ := ih (Nat.le_of_succ_le_succ hn) h.right
            (by rw [hsize]; push_cast; ring)
          have hbody := readNumbers_body (r.holdsAt_body h.left) r.near
          rw [← DirRun.body, Nat.add_assoc, ← hencode] at hbody
          refine ⟨(bytes, r.entries.map fun e => (e.inodeNumber : Int)) :: rs, ?_, ?_, ?_⟩
          · rw [readRuns, if_pos (by rw [hsize]; omega), r.readFields_encode h.left]
            simp only [Option.bind_eq_bind, Option.bind_some, r.count, hbody, hrs]
          · rw [List.flatMap_cons, List.flatMap_cons, hnumbers]
          · intro k hk
            cases k with
            | zero => simp
            | succ k =>
                have hmem := hheaders k (Nat.lt_of_succ_lt_succ hk)
                rw [List.take_succ_cons, List.flatMap_cons, List.length_append, ← Nat.add_assoc]
                exact List.mem_cons_of_mem _ hmem

/-! ## What write_dir leaves -/

variable {comp : Compressor} {noI : Bool} {s s' : BlockStream} {blocks : List (List UInt8)}
  {data : List UInt8} {info : DirInfo} {entries : List DirEntry} {d : Directory} {isLdir : Bool}
  {index : List DirIndex} {record : List UInt8} {runs : List DirRun}

/-- A run begins before the end of the directory. -/
theorem length_take_runs_lt {k : ℕ} (hk : k < runs.length) :
    ((runs.take k).flatMap DirRun.encode).length < (runs.flatMap DirRun.encode).length := by
  have hsplit : runs.flatMap DirRun.encode = (runs.take k).flatMap DirRun.encode ++
      (runs[k].encode ++ (runs.drop (k + 1)).flatMap DirRun.encode) := by
    rw [← List.flatMap_cons, ← List.drop_eq_getElem_cons hk, ← List.flatMap_append,
      List.take_append_drop]
  rw [hsplit, List.length_append, List.length_append, runs[k].length_encode]
  omega

/-- A directory takes at most twelve bytes for the header of each entry. -/
theorem length_runs_le (runs : List DirRun) : (runs.flatMap DirRun.encode).length ≤
    ((runs.flatMap DirRun.entries).map fun e => e.name.length + 8).sum +
      12 * (runs.flatMap DirRun.entries).length := by
  have hbody : ∀ (base : ℕ) (es : List DirEntry),
      (es.flatMap (encodeEntry base)).length = (es.map fun e => e.name.length + 8).sum := by
    intro base es
    induction es with
    | nil => rfl
    | cons e es ih =>
        rw [List.flatMap_cons, List.length_append, ih, length_encodeEntry, List.map_cons,
          List.sum_cons, Nat.add_comm 8]
  induction runs with
  | nil => exact Nat.zero_le _
  | cons r runs ih =>
      have hpos := r.length_pos
      simp only [List.flatMap_cons, List.length_append, List.map_append, List.sum_append,
        r.length_encode, DirRun.body, hbody]
      omega

/-- **What `write_dir` leaves**: the contents are at the end of the table, the inode says where, and the
index records lead to headers. -/
theorem writeDir_leaves (hs : s.Holds (encodeMetadata comp noI) metadataSize blocks data)
    (hcache : s.cache.length < metadataSize) (hadd : addDirs {} entries = some d)
    (hwrite : writeDir comp noI s info isLdir d = some (index, record, s')) :
    ∃ (runs : List DirRun) (more : List (List UInt8)),
      d.contents = runs.flatMap DirRun.encode ∧ runs.flatMap DirRun.entries = entries ∧
      s'.Holds (encodeMetadata comp noI) metadataSize (blocks ++ more) (data ++ d.contents) ∧
      createInode (info.args isLdir d.contents.length (s.written.length % 2 ^ 32) s.cache.length
        index) = some record ∧
      ∀ x ∈ index, LeadsTo (encodeMetadata comp noI) metadataSize (blocks ++ more) data.length x ∧
        ∃ k < runs.length, x.index = ((runs.take k).flatMap DirRun.encode).length := by
  obtain ⟨runs, hcontents, hentries, hindex, hsorted⟩ := addDirs_lists hadd
  rw [writeDir, Option.map_eq_some_iff] at hwrite
  obtain ⟨record', hcreate, hpair⟩ := hwrite
  simp only [Prod.mk.injEq] at hpair
  obtain ⟨rfl, rfl, rfl⟩ := hpair
  have hlen : data.length = blocks.length * metadataSize + s.cache.length := by
    rw [← hs.data, List.length_append, length_flatten_full hs.full]
  have hfirst : data.length + (metadataSize - s.cache.length) = (blocks.length + 1) * metadataSize := by
    rw [hlen, Nat.succ_mul]
    omega
  have hwithin : ∀ x ∈ d.index, blocks.length * metadataSize ≤ data.length + x.index ∧
      data.length + x.index < (data ++ d.contents).length := by
    intro x hx
    obtain ⟨k, hk, hxk⟩ := hindex x hx
    have hlt := length_take_runs_lt hk
    rw [List.length_append, hxk, hcontents]
    omega
  have hnone : ∀ x ∈ ([] : List DirIndex),
      LeadsTo (encodeMetadata comp noI) metadataSize blocks data.length x :=
    fun _ hx => absurd hx List.not_mem_nil
  obtain ⟨more, hholds, -, hmap, hall⟩ := writeDirLoop_places (hs.append d.contents) metadataSize_pos
    hfirst hsorted hwithin (Nat.lt_succ_self (s.append d.contents).cache.length) hnone
  refine ⟨runs, more, hcontents, hentries, hholds, hcreate, fun x hx => ⟨hall x hx, ?_⟩⟩
  have hmem := List.mem_map_of_mem (f := DirIndex.index) hx
  rw [hmap, List.map_nil, List.nil_append] at hmem
  obtain ⟨y, hy, hyx⟩ := List.mem_map.mp hmem
  rw [← hyx]
  exact hindex y hy

/-- The arguments of `create_inode` fit their types. -/
theorem DirInfo.fits_args {dirSize directoryBlock directoryOffset : ℕ}
    (hcreate : createInode (info.args isLdir dirSize directoryBlock directoryOffset index) = some record)
    (hblock : directoryBlock < 2 ^ 32) (hoffset : directoryOffset < metadataSize)
    (hsize : isLdir = false → dirSize + 3 < 2 ^ 16) :
    (info.args isLdir dirSize directoryBlock directoryOffset index).Fits := by
  have hshort : metadataSize < 2 ^ 16 := by decide
  have htype : (info.args isLdir dirSize directoryBlock directoryOffset index).writtenType =
      if isLdir || isXattr info.xattr then .ldir else .dir := rfl
  have hdir : (info.args isLdir dirSize directoryBlock directoryOffset index).writtenType = .dir →
      dirSize + 3 < 2 ^ 16 := by
    intro hw
    rw [htype] at hw
    cases hisLdir : isLdir with
    | false => exact hsize hisLdir
    | true =>
        rw [hisLdir, Bool.true_or, if_pos rfl] at hw
        cases hw
  have hbytes : dirSize + 3 < 2 ^ 63 := by
    by_cases hl : (isLdir || isXattr info.xattr) = true
    · rw [if_pos hl] at htype
      rw [createInode, htype] at hcreate
      simp only [Option.ite_none_left_eq_some] at hcreate
      obtain ⟨hsmall, -⟩ := hcreate
      have hsmall' : ¬ dirSize + 3 ≥ 2 ^ 27 := hsmall
      omega
    · rw [if_neg hl] at htype
      have := hdir htype
      omega
  have hstart : directoryBlock < 2 ^ 63 := by omega
  have hoffset' : directoryOffset < 2 ^ 16 := by omega
  exact ⟨info.uidIndex_lt, info.gidIndex_lt, info.xattr_lt, hbytes, hstart, fun _ => hblock, hoffset',
    hdir, (show invalidFrag < 2 ^ 32 by decide), (show 0 < 2 ^ 32 by decide),
    fun _ hb => absurd hb List.not_mem_nil, fun _ h => by cases h⟩

/-! ## The directory is found -/

/-- The contents of directories that are written later. -/
def storeDirs (comp : Compressor) (noI : Bool) (s : BlockStream) (later : List (List UInt8)) :
    BlockStream :=
  later.foldl (fun s contents => flushTable comp noI (s.append contents)) s

theorem storeDirs_holds (later : List (List UInt8))
    (h : s.Holds (encodeMetadata comp noI) metadataSize blocks data) :
    ∃ more, (storeDirs comp noI s later).Holds (encodeMetadata comp noI) metadataSize (blocks ++ more)
      (data ++ later.flatten) := by
  induction later generalizing s blocks data with
  | nil => exact ⟨[], by rwa [List.append_nil, List.flatten_nil, List.append_nil]⟩
  | cons contents later ih =>
      obtain ⟨more₁, h₁⟩ := (h.append contents).flush (s.append contents).cache.length
      obtain ⟨more, hmore⟩ := ih h₁
      refine ⟨more₁ ++ more, ?_⟩
      rwa [List.append_assoc, List.append_assoc] at hmore

/-- **A directory is read as it was written**: `squashfs_opendir_4` gives the same names, references and
types in the same order, the inode numbers add up, and each index record leads to the block and the
position of a header. -/
def DirectoryReads (img : Image) (blockStart offset : ℕ) (index : List DirIndex)
    (entries : List DirEntry) : Prop :=
  ∃ i dirEnts bytes runs, opendir4 img blockStart offset = some (i, dirEnts) ∧
    dirEnts.map (fun e => (e.name, mkInode e.startBlock e.offset, e.type)) =
      entries.map (fun e => (e.name, e.inode, e.type.code)) ∧
    img.lookupDirectory (img.directoryTableStart + i.start) = some bytes ∧
    readRuns img.directoryTable (toInt32 (i.data + (bytes + i.offset : ℕ) - 3))
      img.directoryTable.length (bytes + i.offset) = some runs ∧
    runs.flatMap Prod.snd = entries.map (fun e => (e.inodeNumber : Int)) ∧
    ∀ x ∈ index, bytes + i.offset + x.index ∈ runs.map Prod.fst ∧
      ∃ block, img.lookupDirectory (img.directoryTableStart + x.startBlock) = some block ∧
        block ≤ bytes + i.offset + x.index ∧ bytes + i.offset + x.index < block + metadataSize

/-- **The directory is found again**, whatever is written behind it, wherever the table is written, and
wherever the inode is. -/
def DirectoryFound (comp : Compressor) (noI : Bool) (s : BlockStream) (info : DirInfo)
    (entries : List DirEntry) (later : List (List UInt8)) : Prop :=
  ∀ d index record s', addDirs {} entries = some d →
    writeDir comp noI s info (dirIsLdir entries) d = some (index, record, s') →
    ∀ img start, HoldsAt img start (writeTable comp noI (storeDirs comp noI s' later)) →
      ∃ u, uncompressTable comp img start
          (start + (writeTable comp noI (storeDirs comp noI s' later)).length) = some u ∧
        ∀ t blockStart offset, InodeTable.Holds t blockStart offset record →
          DirectoryReads ⟨t, u.bytes, lookupEntry u.entries, start⟩ blockStart offset index entries

/-- The reference of an entry is put together again. -/
theorem DirRun.mkInode_eq (r : DirRun) {e : DirEntry} (he : e ∈ r.entries) :
    mkInode r.startBlock (inodeOffset e.inode) = e.inode := by
  have hlt := e.inode_lt
  have hmask : (0xffff : ℕ) = 2 ^ 16 - 1 := rfl
  rw [mkInode, ← r.blk e he, inodeBlk, inodeOffset, hmask, Nat.and_two_pow_sub_one_eq_mod,
    Nat.shiftRight_eq_div_pow, Nat.shiftLeft_eq]
  omega

/-- The entries that are read are those of the runs. -/
theorem map_read_runs (runs : List DirRun) :
    (runs.flatMap fun r => r.entries.map fun e => e.read r.startBlock).map
      (fun e => (e.name, mkInode e.startBlock e.offset, e.type)) =
    (runs.flatMap DirRun.entries).map fun e => (e.name, e.inode, e.type.code) := by
  rw [List.map_flatMap, List.map_flatMap]
  refine List.flatMap_congr fun r _ => ?_
  rw [List.map_map]
  refine List.map_congr_left fun e he => ?_
  simp only [Function.comp_apply, DirEntry.read, r.mkInode_eq he]

/-- The inode says how long the directory is. A short one has room for it. -/
theorem dirSize_lt_of_not_ldir (hentries : runs.flatMap DirRun.entries = entries)
    (h : dirIsLdir entries = false) : (runs.flatMap DirRun.encode).length + 3 < 2 ^ 16 := by
  have hle := length_runs_le runs
  rw [hentries] at hle
  rw [dirIsLdir, Bool.not_eq_false', decide_eq_true_eq] at h
  unfold metadataSize at h
  omega

/-- The directory is read if its block is in the table that was read. -/
theorem directoryReads_of_slot {blocks' : List (List UInt8)} {more : List UInt8} {s'' : BlockStream}
    (hfinal : s''.Holds (encodeMetadata comp noI) metadataSize blocks'
      (data ++ runs.flatMap DirRun.encode ++ more))
    (hfits : (data ++ runs.flatMap DirRun.encode ++ more).length ≤ 2 ^ 31 - metadataSize)
    {startBlock offset : ℕ}
    (hplace : PlaceOf (encodeMetadata comp noI) metadataSize blocks' startBlock offset data.length)
    (hslot : data.length < (cutBlocks metadataSize (data ++ runs.flatMap DirRun.encode ++ more).length
      (data ++ runs.flatMap DirRun.encode ++ more)).length * metadataSize)
    (hentries : runs.flatMap DirRun.entries = entries)
    (hindex : ∀ x ∈ index, LeadsTo (encodeMetadata comp noI) metadataSize blocks' data.length x ∧
      ∃ k < runs.length, x.index = ((runs.take k).flatMap DirRun.encode).length)
    {t : InodeTable} {blockStart inodeOff start : ℕ} {i : Inode}
    (hread : readInode4 t blockStart inodeOff = some i)
    (hdata : i.data = (((runs.flatMap DirRun.encode).length + 3 : ℕ) : Int))
    (hstart : i.start = startBlock) (hoffset : i.offset = offset) :
    DirectoryReads ⟨t, data ++ runs.flatMap DirRun.encode ++ more,
      lookupEntry (blockEntries (encodeMetadata comp noI) start 0
        (cutBlocks metadataSize (data ++ runs.flatMap DirRun.encode ++ more).length
          (data ++ runs.flatMap DirRun.encode ++ more))).reverse, start⟩
      blockStart inodeOff index entries := by
  set table := data ++ runs.flatMap DirRun.encode ++ more with htable
  have hlen : table.length = data.length + (runs.flatMap DirRun.encode).length + more.length := by
    rw [htable, List.length_append, List.length_append]
  obtain ⟨bytes, hlookup, hbytes⟩ := lookupEntry_slot hfinal hplace hslot start
  have hholds : HoldsAt table data.length (runs.flatMap DirRun.encode) := by
    rw [htable, List.append_assoc]
    exact holdsAt_append data _ more
  have hend : toInt32 (i.data + (bytes + offset : ℕ) - 3) =
      ((data.length + (runs.flatMap DirRun.encode).length : ℕ) : Int) := by
    have hsum : i.data + (bytes + offset : ℕ) - 3 =
        ((data.length + (runs.flatMap DirRun.encode).length : ℕ) : Int) := by
      rw [hdata, hbytes]
      push_cast
      ring
    rw [hsum]
    refine toInt32_of_lt ?_
    unfold metadataSize at hfits
    omega
  rw [hbytes] at hend
  have hdirEnts := readDirectory_runs hholds (by omega) rfl
  have hcount : runs.length ≤ table.length := by
    refine (length_le_length_flatMap (f := DirRun.encode) fun r _ => ?_).trans ?_
    · rw [r.length_encode]
      omega
    · omega
  obtain ⟨rs, hrs, hnumbers, hheaders⟩ := readRuns_runs hcount hholds rfl
  refine ⟨i, _, bytes, rs, ?_, (map_read_runs runs).trans (by rw [hentries]), ?_, ?_, ?_, ?_⟩
  · simp only [opendir4, hread, Option.bind_eq_bind, Option.bind_some, hstart, hlookup, hoffset, hbytes,
      hend, hdirEnts]
  · rw [hstart]
    exact hlookup
  · rw [hoffset, hbytes, hend]
    exact hrs
  · rw [hnumbers, ← hentries, List.map_flatMap]
  · intro x hx
    obtain ⟨⟨start', offset', hx', hplace'⟩, k, hk, hxk⟩ := hindex x hx
    have hlt := length_take_runs_lt hk
    rw [hoffset, hbytes]
    refine ⟨?_, ?_⟩
    · rw [hxk]
      exact hheaders k hk
    · obtain ⟨block, hblock, hpos⟩ := lookupEntry_slot hfinal hplace'
        (lt_slots (by rw [hxk]; omega)) start
      obtain ⟨j, -, hj, -, hoff⟩ := hplace'
      have hsmall : start' < 2 ^ 32 := hj ▸ blockStart_lt_of_fits hfinal hfits j
      rw [hx', Nat.mod_eq_of_lt hsmall]
      exact ⟨block, hblock, by omega, by omega⟩

/-- Without entries there is nothing to write. -/
theorem contents_nil (hadd : addDirs {} [] = some d) : d.contents = [] := by
  cases hadd
  rfl

/-- The inode of a directory is read back. -/
theorem readInode4_dirArgs (hs : s.Holds (encodeMetadata comp noI) metadataSize blocks data)
    (hcache : s.cache.length < metadataSize) {dirSize : ℕ}
    (hsize : isLdir = false → dirSize + 3 < 2 ^ 16) (hfits : data.length ≤ 2 ^ 31 - metadataSize)
    (hcreate : createInode (info.args isLdir dirSize (s.written.length % 2 ^ 32) s.cache.length index) =
      some record) {t : InodeTable} {blk offset : ℕ} (ht : t.Holds blk offset record) :
    ∃ i, readInode4 t blk offset = some i ∧ i.data = ((dirSize + 3 : ℕ) : Int) ∧
      i.start = s.written.length ∧ i.offset = s.cache.length := by
  have hfit := info.fits_args hcreate (Nat.mod_lt _ (by decide)) hcache hsize
  obtain ⟨i, hread, hsame⟩ := readInode4_same hfit hcreate ht
  have hwritten : s.written.length < 2 ^ 32 := by
    have hlt := blockStart_lt_of_fits hs hfits blocks.length
    rwa [blockStart, List.take_length, ← hs.written] at hlt
  obtain ⟨hdata, hstart, hoffset⟩ := hsame.dir (by
    have htype : (info.args isLdir dirSize (s.written.length % 2 ^ 32) s.cache.length index).writtenType =
      if isLdir || isXattr info.xattr then .ldir else .dir := rfl
    rw [htype]
    split
    · exact .inr rfl
    · exact .inl rfl)
  exact ⟨i, hread, hdata, hstart.trans (Nat.mod_eq_of_lt hwritten), hoffset⟩

/-- A table that holds a record. -/
theorem exists_holds (record : List UInt8) : ∃ t : InodeTable, t.Holds 0 0 record :=
  ⟨⟨record, fun _ => some 0, 0, fun _ => 0, 0, 0⟩, 0, rfl, [], by simp⟩

/-- A table that is too large is not read. -/
theorem DirectoryFound.fits {later : List (List UInt8)} (hcomp : comp.Lossless)
    (hfound : DirectoryFound comp noI s info entries later) (hadd : addDirs {} entries = some d)
    (hwrite : writeDir comp noI s info (dirIsLdir entries) d = some (index, record, s'))
    {moreBlocks : List (List UInt8)} {all : List UInt8}
    (hfinal : (storeDirs comp noI s' later).Holds (encodeMetadata comp noI) metadataSize moreBlocks all) :
    all.length ≤ 2 ^ 31 - metadataSize := by
  have himg := holdsAt_self (writeTable comp noI (storeDirs comp noI s' later))
  obtain ⟨u, hu, -⟩ := hfound d index record s' hadd hwrite _ 0 himg
  have htable := uncompressTable_of_holds hcomp hfinal himg
  rw [htable] at hu
  by_contra hbig
  rw [if_neg hbig] at hu
  cases hu

/-- **An empty directory at the end of the table is not found** if the table ends with a full block. -/
theorem not_directoryFound_empty {later : List (List UInt8)} (hcomp : comp.Lossless)
    (hs : s.Holds (encodeMetadata comp noI) metadataSize blocks data) (hcache : s.cache = [])
    (hlater : later.flatten = [])
    (hadd : addDirs {} [] = some d)
    (hwrite : writeDir comp noI s info (dirIsLdir []) d = some (index, record, s')) :
    ¬ DirectoryFound comp noI s info [] later := by
  intro hfound
  have hshort : s.cache.length < metadataSize := by
    rw [hcache]
    exact metadataSize_pos
  obtain ⟨runs, more, hcontents, hentries, hholds, hcreate, -⟩ := writeDir_leaves hs hshort hadd hwrite
  obtain ⟨more', hfinal⟩ := storeDirs_holds later hholds
  rw [contents_nil hadd, hlater, List.append_nil, List.append_nil] at hfinal
  have hfits := hfound.fits hcomp hadd hwrite hfinal
  have himg := holdsAt_self (writeTable comp noI (storeDirs comp noI s' later))
  obtain ⟨u, hu, hreads⟩ := hfound d index record s' hadd hwrite _ 0 himg
  have htable := uncompressTable_of_holds hcomp hfinal himg
  rw [htable, if_pos hfits, Option.some.injEq] at hu
  obtain ⟨t, ht⟩ := exists_holds record
  obtain ⟨i, dirEnts, bytes, rs, hopen, -, hlookup, -⟩ := hreads t 0 0 ht
  obtain ⟨i', hread, -, hstart, -⟩ := readInode4_dirArgs hs hshort
    (fun h => by rw [contents_nil hadd]; decide) hfits hcreate ht
  have hi : i' = i := by
    simp only [opendir4, hread, Option.bind_eq_bind, Option.bind_some, Option.bind_eq_some_iff,
      Option.some.injEq, Prod.mk.injEq] at hopen
    obtain ⟨-, -, -, -, h, -⟩ := hopen
    exact h
  have hblocks : cutBlocks metadataSize data.length data = blocks := by
    rw [cutBlocks_of_holds hs, hcache, cutBlocks_nil, List.append_nil]
  rw [← hu, ← hi, hstart, hblocks] at hlookup
  have hpos : ∀ b ∈ blocks, 0 < (encodeMetadata comp noI b).length :=
    fun b _ => length_encodeMetadata_pos comp noI b
  have hnone := getBlock_end hpos 0
  dsimp only at hlookup
  rw [lookupEntry_blockEntries, hs.written, hnone] at hlookup
  cases hlookup

/-- What is in the block at hand keeps a slot for what comes next. -/
theorem lt_slots_of_cache (hs : s.Holds (encodeMetadata comp noI) metadataSize blocks data)
    (hcache : s.cache.length < metadataSize) (hne : s.cache ≠ []) :
    data.length < (cutBlocks metadataSize data.length data).length * metadataSize := by
  have hpos := List.length_pos_iff.mpr hne
  have hlen : data.length = blocks.length * metadataSize + s.cache.length := by
    rw [← hs.data, List.length_append, length_flatten_full hs.full]
  rw [length_cutBlocks metadataSize_pos (le_refl data.length)]
  unfold metadataSize at *
  omega

/-- A file `a` with inode 2 at the beginning of the inode table. -/
def entryA : DirEntry :=
  ⟨0, 2, [97], .file, by decide, by decide, by decide, by decide, by decide⟩

end FirmwareTools.Squashfs

import FirmwareTools.Squashfs.DirRoundTrip

/-! # Sizes of directories

`sort_directory` says from the names alone whether a directory is to be a long one, before `add_dir` divides
its entries into runs. The index of a long directory takes as many bytes as `add_dir` has counted.

* **`addEntries_counts`** — the index records are far apart, and their bytes are counted;
* **`writeDirs_cache`** — the cache of the directory table holds less than a block between directories;
* **`directory_sizes`** — the inode has room for the size of a directory, and for its index. -/

namespace FirmwareTools.Squashfs

/-! ## The entries of a directory -/

/-- A `struct dir_ent` when the directory is written. The name has been in a buffer of 8192 bytes. -/
structure ListedEntry where
  name : Path
  inode : ℕ
  inodeNumber : ℕ
  type : InodeType
  name_pos : 0 < name.length
  name_nul : (0 : UInt8) ∉ name
  name_lt : name.length < 8192
  inode_lt : inode < 2 ^ 48
  inodeNumber_lt : inodeNumber < 2 ^ 32

/-- What `add_dir` makes of an entry: a name that is too long is cut off. -/
def ListedEntry.entry (e : ListedEntry) : DirEntry where
  inode := e.inode
  inodeNumber := e.inodeNumber
  name := e.name.take nameLen
  type := e.type
  inode_lt := e.inode_lt
  inodeNumber_lt := e.inodeNumber_lt
  name_pos := by
    rw [List.length_take]
    exact Nat.lt_min.mpr ⟨by decide, e.name_pos⟩
  name_le := List.length_take_le _ _
  name_nul h := e.name_nul (List.mem_of_mem_take h)

/-- `add_dir_entry`: what it adds up in `byte_count`, an `unsigned int`. -/
def byteCount (entries : List ListedEntry) : ℕ := (entries.map fun e => e.name.length + 8).sum % 2 ^ 32

/-- What `sort_directory` leaves in `dir_is_ldir`. -/
def sortedIsLdir (entries : List ListedEntry) : Bool :=
  !decide (entries.length % 2 ^ 32 < 257 ∧ byteCount entries < metadataSize)

/-! ## The index that is counted -/

/-- A `struct directory` with `i_size`. -/
structure SizedDirectory where
  dir : Directory := {}
  iSize : ℕ := 0

/-- The entry gets an index record. -/
def Directory.Indexes (d : Directory) (e : DirEntry) : Prop := d.entryCountP ≠ none ∧ d.Exceeds e

instance (d : Directory) (e : DirEntry) : Decidable (d.Indexes e) := inferInstanceAs (Decidable (_ ∧ _))

/-- `add_dir` with the line that counts the bytes of an index record. -/
def addSized (d : SizedDirectory) (e : DirEntry) : Option SizedDirectory :=
  (addDir d.dir e).map fun dir =>
    { dir, iSize := if d.dir.Indexes e then (d.iSize + (12 + e.size)) % 2 ^ 32 else d.iSize }

/-- Calls of `add_dir` one after the other. -/
def addEntries (d : SizedDirectory) : List DirEntry → Option SizedDirectory
  | [] => some d
  | e :: es => (addSized d e).bind fun d => addEntries d es

/-- The directories that are written, one after the other. -/
def writeDirs (comp : Compressor) (noI : Bool) : BlockStream → List (DirInfo × List ListedEntry) →
    Option BlockStream
  | s, [] => some s
  | s, (info, entries) :: rest => do
    let d ← addEntries {} (entries.map ListedEntry.entry)
    let (_, _, s) ← writeDir comp noI s info (sortedIsLdir entries) d.dir
    writeDirs comp noI s rest

/-- What `create_inode` reserves for a long directory. -/
def ldirReserved (d : SizedDirectory) : ℕ := 40 + d.iSize

section

variable {d d' : SizedDirectory} {e : DirEntry} {n : ℕ}

theorem addEntries_dir {es : List DirEntry} (h : addEntries d es = some d') :
    addDirs d.dir es = some d'.dir := by
  induction es generalizing d with
  | nil =>
      cases h
      rfl
  | cons e es ih =>
      obtain ⟨d₁, hfirst, hrest⟩ := Option.bind_eq_some_iff.mp h
      obtain ⟨dir, hdir, rfl⟩ := Option.map_eq_some_iff.mp hfirst
      rw [addDirs, hdir]
      exact ih hrest

/-- The bytes of index records. -/
def indexBytes (index : List DirIndex) : ℕ := (index.map fun x => 12 + x.name.length).sum

/-- **What `add_dir` keeps**: the header begun is in the buffer, the index records are at least as far apart
as a block without an entry, and their bytes are counted. -/
structure SizedDirectory.Counts (d : SizedDirectory) (n : ℕ) : Prop where
  header : ∀ p ∈ d.dir.entryCountP, p + 12 ≤ d.dir.buff.length
  room : d.dir.buff.length ≤ d.dir.size
  size_lt : d.dir.size < 2 ^ 32
  entries : n ≤ d.dir.buff.length
  within : d.dir.indexCountP ≤ d.dir.buff.length
  spaced : 7929 * d.dir.index.length ≤ d.dir.indexCountP
  names : ∀ x ∈ d.dir.index, x.name.length ≤ nameLen
  iSize : d.iSize = indexBytes d.dir.index % 2 ^ 32

theorem counts_empty : ({} : SizedDirectory).Counts 0 where
  header _ hp := by cases hp
  room := Nat.zero_le _
  size_lt := by decide
  entries := le_rfl
  within := le_rfl
  spaced := le_rfl
  names _ hx := by cases hx
  iSize := rfl

theorem Directory.length_putHeader {d : Directory} {p : ℕ} (hp : p + 12 ≤ d.buff.length) :
    (d.putHeader p).buff.length = d.buff.length := by
  rw [Directory.putHeader]
  show (d.buff.take p ++ (packDirHeader d.entryCount d.startBlock d.inodeNumber ++
    d.buff.drop (p + 12))).length = _
  rw [List.length_append, List.length_append, length_packDirHeader, List.length_take, List.length_drop]
  omega

/-- **A run that is begun**: the header takes twelve bytes, an index record is for where it stands. -/
theorem Directory.newRun_counts {d : Directory} (hheader : ∀ p ∈ d.entryCountP, p + 12 ≤ d.buff.length)
    (e : DirEntry) :
    (d.newRun e).buff.length = d.buff.length + 12 ∧ (d.newRun e).entryCountP = some d.buff.length ∧
    (d.newRun e).size = d.size ∧
    (d.newRun e).index =
      (if d.Indexes e then d.index ++ [⟨d.buff.length, 0, e.name.take e.size⟩] else d.index) ∧
    (d.newRun e).indexCountP = if d.Indexes e then d.buff.length else d.indexCountP := by
  cases hcount : d.entryCountP with
  | none =>
      have hnot : ¬ d.Indexes e := fun h => h.1 hcount
      rw [Directory.newRun, hcount, if_neg hnot, if_neg hnot]
      exact ⟨by simp, rfl, rfl, rfl, rfl⟩
  | some p =>
      have hp := hheader p hcount
      have hindexes : d.Indexes e ↔ d.Exceeds e := and_iff_right (by rw [hcount]; exact Option.some_ne_none p)
      rw [Directory.newRun, hcount]
      by_cases hex : d.Exceeds e
      · have hlen := (d.addIndex e).length_putHeader hp
        simp only [if_pos hex, if_pos (hindexes.mpr hex)]
        refine ⟨?_, congrArg some hlen, rfl, rfl, rfl⟩
        rw [List.length_append, List.length_replicate, hlen]
        rfl
      · have hlen := d.length_putHeader hp
        simp only [if_neg hex, if_neg (mt hindexes.mp hex)]
        refine ⟨?_, congrArg some hlen, rfl, rfl, rfl⟩
        rw [List.length_append, List.length_replicate, hlen]

/-- Growing leaves room for a header and the entry. -/
theorem Directory.grow_room {d d' : Directory} (hgrow : d.grow e = some d') (hroom : d.buff.length ≤ d.size) :
    d.buff.length + 8 + e.size + 12 < d'.size ∧ d'.size < 2 ^ 32 := by
  have hname := e.name_le
  rw [← e.size_eq, nameLen] at hname
  simp only [Directory.grow, Option.ite_none_left_eq_some, Option.some.injEq, not_le] at hgrow
  obtain ⟨hlt, rfl⟩ := hgrow
  refine ⟨?_, hlt⟩
  show _ < if d.size ≤ d.buff.length + 8 + e.size + 12 then d.size + metadataSize else d.size
  rw [metadataSize]
  split <;> omega

/-- The directory when the header for an entry stands. -/
theorem Directory.begin_counts {d : Directory} (hheader : ∀ p ∈ d.entryCountP, p + 12 ≤ d.buff.length)
    (e : DirEntry) :
    ∃ d', (if d.NeedsRun e then d.newRun e else d) = d' ∧ d.buff.length ≤ d'.buff.length ∧
      d'.buff.length ≤ d.buff.length + 12 ∧ (∀ p ∈ d'.entryCountP, p + 12 ≤ d'.buff.length) ∧
      d'.size = d.size ∧
      d'.index =
        (if d.Indexes e then d.index ++ [⟨d.buff.length, 0, e.name.take e.size⟩] else d.index) ∧
      d'.indexCountP = if d.Indexes e then d.buff.length else d.indexCountP := by
  by_cases hrun : d.NeedsRun e
  · obtain ⟨hlen, hcount, hsize, hindex, hindexP⟩ := d.newRun_counts hheader e
    refine ⟨_, if_pos hrun, by omega, by omega, ?_, hsize, hindex, hindexP⟩
    intro p hp
    rw [hcount, Option.mem_some_iff] at hp
    omega
  · have hnot : ¬ d.Indexes e := fun h => hrun (Or.inr (Or.inr (Or.inl h)))
    rw [if_neg hrun, if_neg hnot, if_neg hnot]
    exact ⟨d, rfl, le_rfl, by omega, hheader, rfl, rfl, rfl⟩

/-- **One call**: a record is written only if the entry does not fit into the block behind the last one. -/
theorem addSized_counts (h : d.Counts n) (hadd : addSized d e = some d') : d'.Counts (n + 1) := by
  obtain ⟨dir, hdir, rfl⟩ := Option.map_eq_some_iff.mp hadd
  obtain ⟨d₁, hgrow, rfl⟩ := Option.map_eq_some_iff.mp hdir
  have hroom := Directory.grow_room hgrow h.room
  obtain ⟨size, rfl⟩ := Directory.grow_eq hgrow
  obtain ⟨d₂, hbegin, hle, hle12, hheader, hsize, hindex, hindexP⟩ :=
    @Directory.begin_counts { d.dir with size := size } h.header e
  dsimp only at hroom
  change d₂.index = if d.dir.Indexes e then d.dir.index ++ [⟨d.dir.buff.length, 0, e.name.take e.size⟩]
    else d.dir.index at hindex
  change d₂.indexCountP = if d.dir.Indexes e then d.dir.buff.length else d.dir.indexCountP at hindexP
  have hsize' : d₂.size = size := hsize
  have hlen : (d₂.addEntry e).buff.length = d₂.buff.length + (8 + e.name.length) := by
    rw [Directory.addEntry, List.length_append, length_encodeEntry]
  have hname := e.size_eq
  have hpos := e.name_pos
  have hlong := e.name_le
  have hle' : d.dir.buff.length ≤ d₂.buff.length := hle
  have hle12' : d₂.buff.length ≤ d.dir.buff.length + 12 := hle12
  have hspaced := h.spaced
  have hwithin := h.within
  have hentries := h.entries
  rw [hbegin]
  constructor
  · intro p hp
    have := hheader p hp
    show p + 12 ≤ (d₂.addEntry e).buff.length
    omega
  · show (d₂.addEntry e).buff.length ≤ d₂.size
    omega
  · show d₂.size < 2 ^ 32
    omega
  · show n + 1 ≤ (d₂.addEntry e).buff.length
    omega
  · show d₂.indexCountP ≤ (d₂.addEntry e).buff.length
    rw [hindexP]
    split <;> omega
  · show 7929 * d₂.index.length ≤ d₂.indexCountP
    rw [hindex, hindexP]
    split
    · rename_i hindexes
      -- the last record is more than a block without the entry in front of the new one
      have hexceeds : metadataSize < d.dir.buff.length + 8 + e.size - d.dir.indexCountP := hindexes.2
      rw [nameLen] at hlong
      rw [metadataSize] at hexceeds
      rw [List.length_append, List.length_singleton]
      show 7929 * (d.dir.index.length + 1) ≤ d.dir.buff.length
      omega
    · exact hspaced
  · show ∀ x ∈ d₂.index, x.name.length ≤ nameLen
    rw [hindex]
    split
    · rw [List.forall_mem_append, List.forall_mem_singleton]
      exact ⟨h.names, (List.length_take_le' _ _).trans hlong⟩
    · exact h.names
  · show (if d.dir.Indexes e then (d.iSize + (12 + e.size)) % 2 ^ 32 else d.iSize) =
      indexBytes d₂.index % 2 ^ 32
    rw [hindex]
    by_cases hindexes : d.dir.Indexes e
    · rw [if_pos hindexes, if_pos hindexes, h.iSize, indexBytes, indexBytes, List.map_append,
        List.sum_append, List.map_singleton, List.sum_singleton, List.length_take, hname, Nat.min_self,
        Nat.mod_add_mod]
    · rw [if_neg hindexes, if_neg hindexes, h.iSize]

/-- **All calls.** -/
theorem addEntries_counts {es : List DirEntry} (h : d.Counts n) (hadd : addEntries d es = some d') :
    d'.Counts (n + es.length) := by
  induction es generalizing d n with
  | nil =>
      cases hadd
      exact h
  | cons e es ih =>
      obtain ⟨d₁, hfirst, hrest⟩ := Option.bind_eq_some_iff.mp hadd
      have := ih (addSized_counts h hfirst) hrest
      rwa [List.length_cons, Nat.add_comm es.length 1, ← Nat.add_assoc]

/-- With its last header filled in the buffer is as long as before. -/
theorem SizedDirectory.Counts.length_contents (h : d.Counts n) :
    d.dir.contents.length = d.dir.buff.length := by
  rw [Directory.contents]
  split
  · rename_i p hp
    exact d.dir.length_putHeader (h.header p hp)
  · rfl

end

/-! ## The directory table -/

section

variable {comp : Compressor} {noI : Bool} {s s' : BlockStream} {info : DirInfo}

theorem writeDirLoop_cache {enc : List UInt8 → List UInt8} {size n index : ℕ} {done rest : List DirIndex}
    (hsize : 0 < size) (hn : s.cache.length < n) :
    (writeDirLoop enc size n s index done rest).1.cache.length < size := by
  induction n generalizing s index done rest with
  | zero => cases hn
  | succ n ih =>
      rw [writeDirLoop]
      split
      · assumption
      · refine ih ?_
        rw [List.length_drop]
        omega

/-- The loop changes no name. -/
theorem writeDirLoop_names {enc : List UInt8 → List UInt8} {size n index : ℕ} {done rest : List DirIndex} :
    (writeDirLoop enc size n s index done rest).2.map DirIndex.name =
      done.map DirIndex.name ++ rest.map DirIndex.name := by
  induction n generalizing s index done rest with
  | zero => exact List.map_append
  | succ n ih =>
      have hsplit : ∀ start : ℕ, (done ++ (rest.takeWhile fun x => x.index < index).map fun x =>
          DirIndex.mk x.index start x.name).map DirIndex.name ++
          (rest.dropWhile fun x => x.index < index).map DirIndex.name =
            done.map DirIndex.name ++ rest.map DirIndex.name := by
        intro start
        rw [List.map_append, List.map_map, List.append_assoc]
        refine congrArg (done.map DirIndex.name ++ ·) ?_
        show ((rest.takeWhile fun x => x.index < index).map DirIndex.name) ++ _ = _
        rw [← List.map_append, List.takeWhile_append_dropWhile]
      rw [writeDirLoop]
      split
      · rw [List.map_append]
        exact hsplit _
      · rw [ih]
        exact hsplit _

/-- **Between directories** the cache holds less than a block. -/
theorem writeDirs_cache {dirs : List (DirInfo × List ListedEntry)} (hcache : s.cache.length < metadataSize)
    (hrun : writeDirs comp noI s dirs = some s') : s'.cache.length < metadataSize := by
  induction dirs generalizing s with
  | nil =>
      cases hrun
      exact hcache
  | cons dir dirs ih =>
      obtain ⟨d, -, hrun⟩ := Option.bind_eq_some_iff.mp hrun
      obtain ⟨⟨index, record, s₁⟩, hwrite, hrun⟩ := Option.bind_eq_some_iff.mp hrun
      obtain ⟨record', -, heq⟩ := Option.map_eq_some_iff.mp hwrite
      simp only [Prod.mk.injEq] at heq
      refine ih ?_ hrun
      rw [← heq.2.2]
      exact writeDirLoop_cache metadataSize_pos (Nat.lt_succ_self _)

/-! ## The sizes -/

theorem sum_name_entry_le (entries : List ListedEntry) :
    ((entries.map ListedEntry.entry).map fun e => e.name.length + 8).sum ≤
      (entries.map fun e => e.name.length + 8).sum := by
  induction entries with
  | nil => exact le_rfl
  | cons e entries ih =>
      have hle : (e.name.take nameLen).length ≤ e.name.length := List.length_take_le' _ _
      rw [List.map_cons, List.map_cons, List.map_cons, List.sum_cons, List.sum_cons]
      exact Nat.add_le_add (Nat.add_le_add_right hle 8) ih

theorem sum_name_le (entries : List ListedEntry) :
    (entries.map fun e => e.name.length + 8).sum ≤ 8200 * entries.length := by
  induction entries with
  | nil => exact le_rfl
  | cons e entries ih =>
      have hlt := e.name_lt
      rw [List.map_cons, List.sum_cons, List.length_cons]
      omega

/-- **What `sort_directory` decides by**: neither the number of entries nor that of bytes has gone round, so
the names are as short as it says. -/
theorem dirIsLdir_of_sortedIsLdir {entries sorted : List ListedEntry} (hsorted : sorted.Perm entries)
    (hcount : entries.length < 2 ^ 32) (h : sortedIsLdir entries = false) :
    dirIsLdir (sorted.map ListedEntry.entry) = false := by
  rw [sortedIsLdir, Bool.not_eq_false', decide_eq_true_eq, Nat.mod_eq_of_lt hcount, byteCount] at h
  have hsum := sum_name_le entries
  rw [Nat.mod_eq_of_lt (by omega)] at h
  have hperm : (sorted.map fun e => e.name.length + 8).sum = (entries.map fun e => e.name.length + 8).sum :=
    (hsorted.map _).sum_nat
  have hle := sum_name_entry_le sorted
  rw [dirIsLdir, Bool.not_eq_false', decide_eq_true_eq, List.length_map, hsorted.length_eq]
  exact ⟨h.1, by omega⟩

/-- The records of an index are few, and so are their bytes. -/
theorem SizedDirectory.Counts.index_lt {d : SizedDirectory} {n : ℕ} (h : d.Counts n)
    (hbytes : d.dir.contents.length < 2 ^ 27) :
    d.dir.index.length < 2 ^ 16 ∧ d.iSize = indexBytes d.dir.index := by
  have hlen := h.length_contents
  have hspaced := h.spaced
  have hwithin := h.within
  have hcount : d.dir.index.length ≤ 16928 := by omega
  have hsum : ∀ index : List DirIndex, (∀ x ∈ index, x.name.length ≤ nameLen) →
      indexBytes index ≤ 268 * index.length := by
    intro index hnames
    induction index with
    | nil => exact le_rfl
    | cons x index ih =>
        rw [List.forall_mem_cons, nameLen] at hnames
        have hrest := ih hnames.2
        have hcons : indexBytes (x :: index) = 12 + x.name.length + indexBytes index := rfl
        rw [hcons, List.length_cons]
        omega
  have hsmall := hsum _ h.names
  refine ⟨by omega, ?_⟩
  rw [h.iSize, Nat.mod_eq_of_lt (by omega)]

theorem length_packDirIndex (index : List DirIndex) : (packDirIndex index).length = indexBytes index := by
  induction index with
  | nil => rfl
  | cons x index ih =>
      rw [packDirIndex, List.flatMap_cons, List.length_append, List.length_append, length_packFields,
        ← packDirIndex, ih]
      rfl

/-- The bytes of an index depend on its names only. -/
theorem indexBytes_congr {index index' : List DirIndex}
    (h : index.map DirIndex.name = index'.map DirIndex.name) : indexBytes index = indexBytes index' := by
  have hnames : ∀ index : List DirIndex,
      indexBytes index = ((index.map DirIndex.name).map fun name => 12 + name.length).sum := by
    intro index
    rw [List.map_map]
    rfl
  rw [hnames, hnames, h]

/-- **What `create_inode` writes of a long directory** fills what it has reserved. -/
theorem length_record_ldir {d : SizedDirectory} {n : ℕ} (h : d.Counts n)
    (hbytes : d.dir.contents.length < 2 ^ 27) {isLdir : Bool} (hldir : (isLdir || isXattr info.xattr) = true)
    {index : List DirIndex} {record : List UInt8}
    (hwrite : writeDir comp noI s info isLdir d.dir = some (index, record, s')) :
    record.length = ldirReserved d := by
  obtain ⟨record', hcreate, heq⟩ := Option.map_eq_some_iff.mp hwrite
  simp only [Prod.mk.injEq] at heq
  obtain ⟨-, rfl, -⟩ := heq
  set r := writeDirLoop (encodeMetadata comp noI) metadataSize ((s.append d.dir.contents).cache.length + 1)
    (s.append d.dir.contents) (metadataSize - s.cache.length) [] d.dir.index with hr
  have htype : (info.args isLdir d.dir.contents.length (s.written.length % 2 ^ 32) s.cache.length
      r.2).writtenType = .ldir := if_pos hldir
  rw [createInode, htype] at hcreate
  simp only [Option.ite_none_left_eq_some, Option.some.injEq] at hcreate
  obtain ⟨-, rfl⟩ := hcreate
  have hindex : (packDirIndex r.2).length = d.iSize := by
    rw [length_packDirIndex, (h.index_lt hbytes).2]
    refine indexBytes_congr ?_
    rw [hr, writeDirLoop_names]
    rfl
  rw [List.length_append, length_packFields, ldirReserved]
  exact congrArg (40 + ·) hindex

/-- **A plain inode says it all**: it is read back with the size and the offset. -/
theorem exists_plain_dir {dirSize block offset : ℕ} {index : List DirIndex}
    (hxattr : isXattr info.xattr = false) (hsize : dirSize + 3 < 2 ^ 16) (hblock : block < 2 ^ 32)
    (hoffset : offset < metadataSize) :
    ∃ record, createInode (info.args false dirSize block offset index) = some record ∧
      ∀ (t : InodeTable) (startBlock at' : ℕ), t.Holds startBlock at' record →
        ∃ i, readInode4 t startBlock at' = some i ∧ i.type = .dir ∧ i.data = ((dirSize + 3 : ℕ) : Int) ∧
          i.start = block ∧ i.offset = offset := by
  have htype : (info.args false dirSize block offset index).writtenType = .dir := by
    show (if false || isXattr info.xattr then InodeType.ldir else .dir) = .dir
    rw [hxattr]
    rfl
  have hcreate : ∃ record, createInode (info.args false dirSize block offset index) = some record := by
    rw [createInode, htype]
    exact ⟨_, rfl⟩
  obtain ⟨record, hcreate⟩ := hcreate
  refine ⟨record, hcreate, fun t startBlock at' ht => ?_⟩
  have hfits := info.fits_args hcreate hblock hoffset fun _ => hsize
  obtain ⟨i, hread, hsame⟩ := readInode4_same hfits hcreate ht
  obtain ⟨hdata, hstart, hoffset⟩ := hsame.dir (Or.inl htype)
  exact ⟨i, hread, hsame.type.trans htype, hdata, hstart, hoffset⟩

/-- **Sizes of directories**: in a run that has written any directories, a directory that is not to be a long
one is short enough for the plain inode and begins inside a block; and the index of any directory below the
limit has few enough records, and as many bytes as are reserved for it. -/
theorem directory_sizes (comp : Compressor) (noI : Bool) (s₀ s : BlockStream)
    (hstart : s₀.cache.length < metadataSize) (written : List (DirInfo × List ListedEntry))
    (hrun : writeDirs comp noI s₀ written = some s) (info : DirInfo) (entries sorted : List ListedEntry)
    (hsorted : sorted.Perm entries) (d : SizedDirectory)
    (hadd : addEntries {} (sorted.map ListedEntry.entry) = some d) :
    (sortedIsLdir entries = false →
      d.dir.contents.length + 3 ≤ 65535 ∧ s.cache.length < 8192 ∧
        (isXattr info.xattr = false → ∃ index record s',
          writeDir comp noI s info false d.dir = some (index, record, s') ∧
          ∀ (t : InodeTable) (startBlock offset : ℕ), t.Holds startBlock offset record →
            ∃ i, readInode4 t startBlock offset = some i ∧ i.type = .dir ∧
              i.data = ((d.dir.contents.length + 3 : ℕ) : Int) ∧ i.offset = s.cache.length)) ∧
    (d.dir.contents.length < 2 ^ 27 →
      d.dir.index.length < 2 ^ 16 ∧ ∀ isLdir index record s', (isLdir || isXattr info.xattr) = true →
        writeDir comp noI s info isLdir d.dir = some (index, record, s') →
          record.length = ldirReserved d) := by
  have hcounts := addEntries_counts counts_empty hadd
  have hcache := writeDirs_cache hstart hrun
  refine ⟨fun hnot => ?_, fun hbytes => ⟨(hcounts.index_lt hbytes).1, fun isLdir index record s' hldir hwrite =>
    length_record_ldir hcounts hbytes hldir hwrite⟩⟩
  have hcount : entries.length < 2 ^ 32 := by
    have hentries := hcounts.entries
    have hroom := hcounts.room
    have hlt := hcounts.size_lt
    rw [List.length_map, hsorted.length_eq] at hentries
    omega
  obtain ⟨runs, hcontents, hentries, -, -⟩ := addDirs_lists (addEntries_dir hadd)
  have hsize : d.dir.contents.length + 3 < 2 ^ 16 := by
    rw [hcontents]
    exact dirSize_lt_of_not_ldir hentries (dirIsLdir_of_sortedIsLdir hsorted hcount hnot)
  refine ⟨by omega, hcache, fun hxattr => ?_⟩
  set r := writeDirLoop (encodeMetadata comp noI) metadataSize ((s.append d.dir.contents).cache.length + 1)
    (s.append d.dir.contents) (metadataSize - s.cache.length) [] d.dir.index with hr
  obtain ⟨record, hcreate, hread⟩ := @exists_plain_dir info d.dir.contents.length (s.written.length % 2 ^ 32)
    s.cache.length r.2 hxattr hsize (Nat.mod_lt _ (by decide)) hcache
  have hwrite : writeDir comp noI s info false d.dir = some (r.2, record, r.1) := by
    rw [writeDir, ← hr]
    exact congrArg (Option.map _) hcreate
  refine ⟨r.2, record, r.1, hwrite, fun t startBlock offset ht => ?_⟩
  obtain ⟨i, hi, htype, hdata, -, hoffset⟩ := hread t startBlock offset ht
  exact ⟨i, hi, htype, hdata, hoffset⟩

/-- An entry for a file with a name of a thousand bytes. -/
def longEntry : ListedEntry where
  name := List.replicate 1000 97
  inode := 0
  inodeNumber := 2
  type := .file
  name_pos := by
    rw [List.length_replicate]
    decide
  name_nul := by
    intro h
    exact absurd (List.eq_of_mem_replicate h) (by decide)
  name_lt := by
    rw [List.length_replicate]
    decide
  inode_lt := entryA.inode_lt
  inodeNumber_lt := entryA.inodeNumber_lt

/-- A directory with one entry, whose name is cut off. -/
theorem directory_sizes_long : ∃ d, addEntries {} ([longEntry].map ListedEntry.entry) = some d ∧
    d.dir.contents.length + 3 ≤ 65535 ∧ d.dir.index.length < 2 ^ 16 := by
  obtain ⟨d, hd⟩ : ∃ d, addEntries {} ([longEntry].map ListedEntry.entry) = some d :=
    Option.isSome_iff_exists.mp (by decide +kernel)
  obtain ⟨hplain, hlong⟩ := directory_sizes storeOnly false {} {} (by decide) [] rfl {} [longEntry] [longEntry]
    (List.Perm.refl _) d hd
  have hsize := (hplain (by decide +kernel)).1
  exact ⟨d, hd, hsize, (hlong (by omega)).1⟩

end

end FirmwareTools.Squashfs

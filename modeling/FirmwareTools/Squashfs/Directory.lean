import FirmwareTools.Squashfs.DirScan
import FirmwareTools.Squashfs.InodeRoundTrip

/-! # Writing a directory

`add_dir` collects the entries of a directory in a buffer, in runs behind headers. A header is begun
without its contents, which are filled in when the run ends. `write_dir` moves the buffer to the cache of
the directory table, fills in where the index records lead, and writes the inode.

* **`Directory.Lists.addDir`** — what one entry does to the runs;
* **`writeDirLoop_places`** — the index records are given the blocks they lead to. -/

namespace FirmwareTools.Squashfs

/-! ## add_dir -/

/-- What `add_dir` is called with: a reference to an inode as `create_inode` returns it, an inode number,
a name and an inode type. -/
structure DirEntry where
  inode : ℕ
  inodeNumber : ℕ
  name : Path
  type : InodeType
  inode_lt : inode < 2 ^ 48
  inodeNumber_lt : inodeNumber < 2 ^ 32
  name_pos : 0 < name.length
  name_le : name.length ≤ nameLen
  name_nul : (0 : UInt8) ∉ name

/-- The length of a name, cut off at `SQUASHFS_NAME_LEN`. -/
def DirEntry.size (e : DirEntry) : ℕ := if nameLen < e.name.length then nameLen else e.name.length

/-- A `short`, as it is stored. -/
def ofInt16 (x : Int) : ℕ := (x % 2 ^ 16).toNat

/-- The bytes of an entry in a run that begins with the inode number `base`. -/
def encodeEntry (base : ℕ) (e : DirEntry) : List UInt8 :=
  packFields [(2, inodeOffset e.inode), (2, ofInt16 (e.inodeNumber - base)), (2, e.type.code),
    (2, e.size - 1)] ++ e.name.take e.size

/-- `struct directory`. The buffer is kept up to the pointer `p`; the other pointers are offsets in
it. -/
structure Directory where
  size : ℕ := metadataSize
  buff : List UInt8 := []
  startBlock : ℕ := 0
  entryCount : ℕ := 256
  entryCountP : Option ℕ := none
  index : List DirIndex := []
  indexCountP : ℕ := 0
  inodeNumber : ℕ := 0

/-- Room for an entry and a header. The size is an `unsigned int`, and a buffer of size zero is none. -/
def Directory.grow (d : Directory) (e : DirEntry) : Option Directory :=
  let size := if d.size ≤ d.buff.length + 8 + e.size + 12 then d.size + metadataSize else d.size
  if 2 ^ 32 ≤ size then none else some { d with size }

/-- With the entry the bytes since the last index record take more than a metadata block. -/
def Directory.Exceeds (d : Directory) (e : DirEntry) : Prop :=
  metadataSize < d.buff.length + 8 + e.size - d.indexCountP

instance (d : Directory) (e : DirEntry) : Decidable (d.Exceeds e) :=
  inferInstanceAs (Decidable (_ < _))

/-- The header of a run. -/
def packDirHeader (count startBlock inodeNumber : ℕ) : List UInt8 :=
  packFields [(4, count - 1), (4, startBlock), (4, inodeNumber)]

/-- The header at `p` is filled in. -/
def Directory.putHeader (d : Directory) (p : ℕ) : Directory :=
  { d with buff := d.buff.take p ++
      (packDirHeader d.entryCount d.startBlock d.inodeNumber ++ d.buff.drop (p + 12)) }

/-- An index record for the header that comes next. -/
def Directory.addIndex (d : Directory) (e : DirEntry) : Directory :=
  { d with
    index := d.index ++ [⟨d.buff.length, 0, e.name.take e.size⟩]
    indexCountP := d.buff.length }

/-- The run that ends gets its header, and the entry begins a new one. -/
def Directory.newRun (d : Directory) (e : DirEntry) : Directory :=
  let d := match d.entryCountP with
    | none => d
    | some p => (if d.Exceeds e then d.addIndex e else d).putHeader p
  { d with
    entryCountP := some d.buff.length
    startBlock := inodeBlk e.inode
    entryCount := 0
    inodeNumber := e.inodeNumber
    buff := d.buff ++ List.replicate 12 0 }

/-- The entry cannot be in the run of the last header. -/
def Directory.NeedsRun (d : Directory) (e : DirEntry) : Prop :=
  d.entryCount = 256 ∨ inodeBlk e.inode ≠ d.startBlock ∨ (d.entryCountP ≠ none ∧ d.Exceeds e) ∨
    (e.inodeNumber : Int) - d.inodeNumber > 32767 ∨ (e.inodeNumber : Int) - d.inodeNumber < -32768

instance (d : Directory) (e : DirEntry) : Decidable (d.NeedsRun e) :=
  inferInstanceAs (Decidable (_ ∨ _))

/-- The entry at the end of the buffer. -/
def Directory.addEntry (d : Directory) (e : DirEntry) : Directory :=
  { d with buff := d.buff ++ encodeEntry d.inodeNumber e, entryCount := d.entryCount + 1 }

/-- `add_dir`; it fails when there is no memory. -/
def addDir (d : Directory) (e : DirEntry) : Option Directory :=
  (d.grow e).map fun d => (if d.NeedsRun e then d.newRun e else d).addEntry e

/-- Calls of `add_dir` one after the other. -/
def addDirs (d : Directory) : List DirEntry → Option Directory
  | [] => some d
  | e :: es => (addDir d e).bind fun d => addDirs d es

/-! ## write_dir -/

/-- The contents of the directory: the last header is filled in. -/
def Directory.contents (d : Directory) : List UInt8 :=
  match d.entryCountP with
  | some p => (d.putHeader p).buff
  | none => d.buff

/-- The loop of `write_dir`: the index records up to the end of the block at hand get its position, and
the block is written if it is full. The first argument is a bound on the number of blocks. -/
def writeDirLoop (enc : List UInt8 → List UInt8) (size : ℕ) :
    ℕ → BlockStream → ℕ → List DirIndex → List DirIndex → BlockStream × List DirIndex
  | 0, s, _, done, rest => (s, done ++ rest)
  | n + 1, s, index, done, rest =>
    let done := done ++ (rest.takeWhile fun e => e.index < index).map fun e =>
      { e with startBlock := s.written.length % 2 ^ 32 }
    let rest := rest.dropWhile fun e => e.index < index
    if s.cache.length < size then (s, done ++ rest)
    else writeDirLoop enc size n ⟨s.written ++ enc (s.cache.take size), s.cache.drop size⟩
      (index + size) done rest

/-- What `create_inode` reads of a directory besides its contents. -/
structure DirInfo where
  stat : Stat := {}
  uidIndex : ℕ := 0
  gidIndex : ℕ := 0
  inodeNumber : ℕ := 1
  xattr : ℕ := invalidXattr
  directoryCount : ℕ := 0
  parentInode : ℕ := 0
  uidIndex_lt : uidIndex < 2 ^ 16 := by decide
  gidIndex_lt : gidIndex < 2 ^ 16 := by decide
  xattr_lt : xattr < 2 ^ 32 := by decide

/-- `sort_directory`: is the directory to be stored as a long one? -/
def dirIsLdir (entries : List DirEntry) : Bool :=
  !decide (entries.length < 257 ∧ (entries.map fun e => e.name.length + 8).sum < metadataSize)

/-- The arguments that `write_dir` passes to `create_inode`. -/
def DirInfo.args (info : DirInfo) (isLdir : Bool) (dirSize directoryBlock directoryOffset : ℕ)
    (index : List DirIndex) : InodeArgs where
  type := .dir
  stat := info.stat
  uidIndex := info.uidIndex
  gidIndex := info.gidIndex
  inodeNumber := info.inodeNumber
  xattr := info.xattr
  byteSize := dirSize + 3
  startBlock := directoryBlock
  offset := directoryOffset
  directoryCount := info.directoryCount
  parentInode := info.parentInode
  dirIsLdir := isLdir
  dirIndex := index

/-- `write_dir`: the index, the record of the inode, and the directory table. -/
def writeDir (comp : Compressor) (noI : Bool) (s : BlockStream) (info : DirInfo) (isLdir : Bool)
    (d : Directory) : Option (List DirIndex × List UInt8 × BlockStream) :=
  let s' := s.append d.contents
  let r := writeDirLoop (encodeMetadata comp noI) metadataSize (s'.cache.length + 1) s'
    (metadataSize - s.cache.length) [] d.index
  (createInode (info.args isLdir d.contents.length (s.written.length % 2 ^ 32) s.cache.length
    r.2)).map fun record => (r.2, record, r.1)

/-! ## Runs -/

/-- A run of entries, as a header can stand before it. -/
structure DirRun where
  startBlock : ℕ
  inodeNumber : ℕ
  entries : List DirEntry
  inodeNumber_lt : inodeNumber < 2 ^ 32
  entries_ne : entries ≠ []
  length_le : entries.length ≤ 256
  blk : ∀ e ∈ entries, inodeBlk e.inode = startBlock
  near : ∀ e ∈ entries, -32768 ≤ (e.inodeNumber : Int) - inodeNumber ∧
    (e.inodeNumber : Int) - inodeNumber ≤ 32767

/-- The entries of a run. -/
def DirRun.body (r : DirRun) : List UInt8 := r.entries.flatMap (encodeEntry r.inodeNumber)

/-- The bytes of a run. -/
def DirRun.encode (r : DirRun) : List UInt8 :=
  packDirHeader r.entries.length r.startBlock r.inodeNumber ++ r.body

/-- A run of one entry. -/
def DirRun.single (e : DirEntry) : DirRun where
  startBlock := inodeBlk e.inode
  inodeNumber := e.inodeNumber
  entries := [e]
  inodeNumber_lt := e.inodeNumber_lt
  entries_ne := List.cons_ne_nil e []
  length_le := by
    rw [List.length_singleton]
    decide
  blk := by simp
  near := by simp

/-- A run with one more entry. -/
def DirRun.add (r : DirRun) (e : DirEntry) (hlen : r.entries.length < 256)
    (hblk : inodeBlk e.inode = r.startBlock)
    (hnear : -32768 ≤ (e.inodeNumber : Int) - r.inodeNumber ∧
      (e.inodeNumber : Int) - r.inodeNumber ≤ 32767) : DirRun where
  startBlock := r.startBlock
  inodeNumber := r.inodeNumber
  entries := r.entries ++ [e]
  inodeNumber_lt := r.inodeNumber_lt
  entries_ne := List.append_ne_nil_of_right_ne_nil _ (List.cons_ne_nil e [])
  length_le := by
    rw [List.length_append]
    exact hlen
  blk := by
    rw [List.forall_mem_append, List.forall_mem_singleton]
    exact ⟨r.blk, hblk⟩
  near := by
    rw [List.forall_mem_append, List.forall_mem_singleton]
    exact ⟨r.near, hnear⟩

@[simp] theorem length_packDirHeader (count startBlock inodeNumber : ℕ) :
    (packDirHeader count startBlock inodeNumber).length = 12 :=
  length_packFields _

/-- **The directory holds these runs**: the last one, `r`, has a header without contents. The index
records lead to headers, in their order. -/
structure Directory.Lists (d : Directory) (runs : List DirRun) (r : DirRun) : Prop where
  buff : ∃ junk, junk.length = 12 ∧ d.buff = runs.flatMap DirRun.encode ++ (junk ++ r.body)
  entryCountP : d.entryCountP = some (runs.flatMap DirRun.encode).length
  startBlock : d.startBlock = r.startBlock
  inodeNumber : d.inodeNumber = r.inodeNumber
  entryCount : d.entryCount = r.entries.length
  index : ∀ x ∈ d.index, ∃ k ≤ runs.length, x.index = ((runs.take k).flatMap DirRun.encode).length
  sorted : d.index.Pairwise fun x y => x.index < y.index

variable {d d' : Directory} {runs : List DirRun} {r : DirRun} {e : DirEntry}

/-- The contents of the directory are its runs. -/
theorem Directory.Lists.putHeader (h : d.Lists runs r) :
    (d.putHeader (runs.flatMap DirRun.encode).length).buff = (runs ++ [r]).flatMap DirRun.encode := by
  obtain ⟨junk, hjunk, hbuff⟩ := h.buff
  have hdrop : d.buff.drop ((runs.flatMap DirRun.encode).length + 12) = r.body := by
    rw [hbuff, ← List.drop_drop, List.drop_left, List.drop_left' hjunk]
  rw [Directory.putHeader, hdrop, hbuff, List.take_left, h.entryCount, h.startBlock, h.inodeNumber,
    List.flatMap_append, List.flatMap_singleton]
  rfl

theorem Directory.Lists.contents (h : d.Lists runs r) :
    d.contents = (runs ++ [r]).flatMap DirRun.encode := by
  rw [Directory.contents, h.entryCountP]
  exact h.putHeader

/-- With the header filled in the buffer is as long as before. -/
theorem Directory.Lists.length_buff (h : d.Lists runs r) :
    ((runs ++ [r]).flatMap DirRun.encode).length = d.buff.length := by
  obtain ⟨junk, hjunk, hbuff⟩ := h.buff
  rw [hbuff, List.flatMap_append, List.flatMap_singleton, DirRun.encode, List.length_append,
    List.length_append, List.length_append, List.length_append, hjunk, length_packDirHeader]

/-- An index record is in front of the last header, or leads to it. -/
theorem Directory.Lists.index_le (h : d.Lists runs r) {x : DirIndex} (hx : x ∈ d.index) :
    x.index + 12 ≤ d.buff.length := by
  obtain ⟨k, -, hk⟩ := h.index x hx
  obtain ⟨junk, hjunk, hbuff⟩ := h.buff
  have hsplit : (runs.flatMap DirRun.encode).length = x.index +
      ((runs.drop k).flatMap DirRun.encode).length := by
    rw [hk, ← List.length_append, ← List.flatMap_append, List.take_append_drop]
  rw [hbuff, List.length_append, List.length_append, hjunk, hsplit]
  omega

/-- The index with a record for the end of the buffer. -/
theorem Directory.Lists.addIndex (h : d.Lists runs r) (name : List UInt8) :
    (∀ x ∈ d.index ++ [⟨d.buff.length, 0, name⟩], ∃ k ≤ (runs ++ [r]).length,
      x.index = (((runs ++ [r]).take k).flatMap DirRun.encode).length) ∧
    (d.index ++ [DirIndex.mk d.buff.length 0 name]).Pairwise fun x y => x.index < y.index := by
  rw [List.forall_mem_append, List.forall_mem_singleton, List.pairwise_append]
  refine ⟨⟨fun x hx => ?_, (runs ++ [r]).length, le_refl _, ?_⟩, h.sorted, List.pairwise_singleton _ _, ?_⟩
  · obtain ⟨k, hk, hindex⟩ := h.index x hx
    refine ⟨k, ?_, ?_⟩
    · rw [List.length_append]
      exact hk.trans (Nat.le_add_right _ _)
    · rw [hindex, List.take_append_of_le_length hk]
  · rw [List.take_length, h.length_buff]
  · intro x hx y hy
    have hlt : x.index < d.buff.length := by
      have := h.index_le hx
      omega
    rwa [List.mem_singleton.mp hy]

/-- What `add_dir` does for a new run: the old one is complete. -/
theorem Directory.Lists.newRun_eq (h : d.Lists runs r) (e : DirEntry) :
    (d.newRun e).buff = (runs ++ [r]).flatMap DirRun.encode ++ List.replicate 12 0 ∧
    (d.newRun e).entryCountP = some ((runs ++ [r]).flatMap DirRun.encode).length ∧
    (d.newRun e).index =
      if d.Exceeds e then d.index ++ [⟨d.buff.length, 0, e.name.take e.size⟩] else d.index := by
  have hput := h.putHeader
  rw [Directory.newRun, h.entryCountP]
  by_cases hex : d.Exceeds e <;>
    simp only [hex, if_true, if_false, Directory.addIndex, Directory.putHeader] at hput ⊢ <;>
    rw [hput] <;> exact ⟨rfl, rfl, trivial⟩

/-- **The entry begins a new run.** -/
theorem Directory.Lists.newRun (h : d.Lists runs r) (e : DirEntry) :
    ((d.newRun e).addEntry e).Lists (runs ++ [r]) (DirRun.single e) := by
  obtain ⟨hbuff, hcount, hindex⟩ := h.newRun_eq e
  obtain ⟨hadd, hsorted⟩ := h.addIndex (e.name.take e.size)
  have hold : ∀ x ∈ d.index, ∃ k ≤ (runs ++ [r]).length,
      x.index = (((runs ++ [r]).take k).flatMap DirRun.encode).length :=
    fun x hx => hadd x (List.mem_append_left _ hx)
  refine ⟨⟨List.replicate 12 0, List.length_replicate, ?_⟩, hcount, rfl, rfl, rfl, ?_, ?_⟩
  · rw [Directory.addEntry, hbuff, List.append_assoc, DirRun.body, DirRun.single,
      List.flatMap_singleton]
    rfl
  · rw [Directory.addEntry, hindex]
    split
    · exact hadd
    · exact hold
  · rw [Directory.addEntry, hindex]
    split
    · exact hsorted
    · exact h.sorted

/-- The first entry begins the first run. -/
theorem Directory.lists_newRun (hbuff : d.buff = []) (hcount : d.entryCountP = none)
    (hindex : d.index = []) (e : DirEntry) :
    ((d.newRun e).addEntry e).Lists [] (DirRun.single e) := by
  rw [Directory.newRun, hcount, Directory.addEntry]
  refine ⟨⟨List.replicate 12 0, List.length_replicate, ?_⟩, ?_, rfl, rfl, rfl, ?_, ?_⟩
  · rw [hbuff, DirRun.body, DirRun.single, List.flatMap_singleton]
    rfl
  · rw [hbuff]
    rfl
  · rw [hindex]
    exact fun _ hx => absurd hx List.not_mem_nil
  · rw [hindex]
    exact List.Pairwise.nil

/-- **The entry is in the run of the last header.** -/
theorem Directory.Lists.addEntry (h : d.Lists runs r) (hrun : ¬ d.NeedsRun e) :
    ∃ r' : DirRun, (d.addEntry e).Lists runs r' ∧ r'.entries = r.entries ++ [e] := by
  unfold Directory.NeedsRun at hrun
  rw [h.entryCount, h.startBlock, h.inodeNumber] at hrun
  push Not at hrun
  obtain ⟨hcount, hblk, -, hle, hge⟩ := hrun
  have hlen := r.length_le
  refine ⟨r.add e (by omega) hblk ⟨hge, hle⟩, ?_, rfl⟩
  obtain ⟨junk, hjunk, hbuff⟩ := h.buff
  refine ⟨⟨junk, hjunk, ?_⟩, h.entryCountP, h.startBlock, h.inodeNumber, ?_, h.index, h.sorted⟩
  · rw [Directory.addEntry, hbuff, h.inodeNumber, DirRun.body, DirRun.body, DirRun.add]
    simp only [List.flatMap_append, List.flatMap_singleton, List.append_assoc]
  · rw [Directory.addEntry, h.entryCount, DirRun.add, List.length_append]
    rfl

/-- Growing changes nothing but the size. -/
theorem Directory.grow_eq (h : d.grow e = some d') : ∃ size, d' = { d with size } := by
  simp only [Directory.grow, Option.ite_none_left_eq_some, Option.some.injEq] at h
  exact ⟨_, h.2.symm⟩

/-- **One call**: the entry comes behind the others. -/
theorem Directory.Lists.addDir (h : d.Lists runs r) (hadd : addDir d e = some d') :
    ∃ runs' r', d'.Lists runs' r' ∧
      (runs' ++ [r']).flatMap DirRun.entries = (runs ++ [r]).flatMap DirRun.entries ++ [e] := by
  rw [Squashfs.addDir, Option.map_eq_some_iff] at hadd
  obtain ⟨d₁, hgrow, rfl⟩ := hadd
  have h₁ : d₁.Lists runs r := by
    obtain ⟨size, rfl⟩ := Directory.grow_eq hgrow
    exact ⟨h.buff, h.entryCountP, h.startBlock, h.inodeNumber, h.entryCount, h.index, h.sorted⟩
  by_cases hrun : d₁.NeedsRun e
  · rw [if_pos hrun]
    refine ⟨_, _, h₁.newRun e, ?_⟩
    rw [List.flatMap_append, List.flatMap_singleton]
    rfl
  · rw [if_neg hrun]
    obtain ⟨r', hr', hentries⟩ := h₁.addEntry hrun
    refine ⟨_, r', hr', ?_⟩
    simp only [List.flatMap_append, List.flatMap_singleton, hentries, List.append_assoc]

/-- **All calls** behind others. -/
theorem Directory.Lists.addDirs {entries : List DirEntry} (h : d.Lists runs r)
    (hadd : addDirs d entries = some d') :
    ∃ runs' r', d'.Lists runs' r' ∧
      (runs' ++ [r']).flatMap DirRun.entries = (runs ++ [r]).flatMap DirRun.entries ++ entries := by
  induction entries generalizing d runs r with
  | nil =>
      cases hadd
      exact ⟨runs, r, h, (List.append_nil _).symm⟩
  | cons e entries ih =>
      rw [Squashfs.addDirs, Option.bind_eq_some_iff] at hadd
      obtain ⟨d₁, hfirst, hadd⟩ := hadd
      obtain ⟨runs₁, r₁, h₁, hentries₁⟩ := h.addDir hfirst
      obtain ⟨runs', r', h', hentries'⟩ := ih h₁ hadd
      refine ⟨runs', r', h', ?_⟩
      rw [hentries', hentries₁, List.append_assoc]
      rfl

/-- **The buffer of a directory**: nothing without entries, and otherwise runs of all entries. -/
theorem addDirs_lists {entries : List DirEntry} (hadd : addDirs {} entries = some d) :
    ∃ runs : List DirRun, d.contents = runs.flatMap DirRun.encode ∧
      runs.flatMap DirRun.entries = entries ∧
      (∀ x ∈ d.index, ∃ k < runs.length, x.index = ((runs.take k).flatMap DirRun.encode).length) ∧
      d.index.Pairwise fun x y => x.index < y.index := by
  cases entries with
  | nil =>
      cases hadd
      exact ⟨[], rfl, rfl, fun _ hx => absurd hx List.not_mem_nil, List.Pairwise.nil⟩
  | cons e entries =>
      rw [addDirs, Option.bind_eq_some_iff] at hadd
      obtain ⟨d₁, hfirst, hadd⟩ := hadd
      rw [addDir, Option.map_eq_some_iff] at hfirst
      obtain ⟨d₀, hgrow, rfl⟩ := hfirst
      obtain ⟨size, rfl⟩ := Directory.grow_eq hgrow
      have hrun : ({ size } : Directory).NeedsRun e := .inl rfl
      rw [if_pos hrun] at hadd
      have h₁ := Directory.lists_newRun (d := { size }) rfl rfl rfl e
      obtain ⟨runs, r, h, hentries⟩ := h₁.addDirs hadd
      refine ⟨runs ++ [r], h.contents, hentries, fun x hx => ?_, h.sorted⟩
      obtain ⟨k, hk, hindex⟩ := h.index x hx
      refine ⟨k, ?_, ?_⟩
      · rw [List.length_append]
        exact Nat.lt_succ_of_le hk
      · rw [hindex, List.take_append_of_le_length hk]

/-! ## The index -/

section

variable {enc : List UInt8 → List UInt8} {size : ℕ} {s : BlockStream} {blocks : List (List UInt8)}
  {data : List UInt8}

/-- An index record leads to the byte `o + x.index` of the directory table. -/
def LeadsTo (enc : List UInt8 → List UInt8) (size : ℕ) (blocks : List (List UInt8)) (o : ℕ)
    (x : DirIndex) : Prop :=
  ∃ start offset, x.startBlock = start % 2 ^ 32 ∧ PlaceOf enc size blocks start offset (o + x.index)

theorem LeadsTo.append {o : ℕ} {x : DirIndex} (h : LeadsTo enc size blocks o x)
    (more : List (List UInt8)) : LeadsTo enc size (blocks ++ more) o x := by
  obtain ⟨start, offset, hstart, hplace⟩ := h
  exact ⟨start, offset, hstart, hplace.append more⟩

/-- In an increasing list all elements from the first one on that reaches a bound do so. -/
theorem le_of_mem_dropWhile {bound : ℕ} {xs : List DirIndex}
    (hsorted : xs.Pairwise fun x y => x.index < y.index) {y : DirIndex}
    (hy : y ∈ xs.dropWhile fun x => x.index < bound) : bound ≤ y.index := by
  induction xs with
  | nil => exact absurd hy List.not_mem_nil
  | cons x xs ih =>
      rw [List.pairwise_cons] at hsorted
      rw [List.dropWhile_cons] at hy
      by_cases hx : x.index < bound
      · rw [if_pos (decide_eq_true hx)] at hy
        exact ih hsorted.2 hy
      · rw [if_neg (by simpa using hx)] at hy
        rcases List.mem_cons.mp hy with rfl | hy
        · omega
        · have := hsorted.1 y hy
          omega

/-- **The loop of `write_dir`**: all index records are led to where they belong, if the first one does not
belong to a block that is written already. -/
theorem writeDirLoop_places {n o index : ℕ} {done rest : List DirIndex}
    (h : s.Holds enc size blocks data) (hsize : 0 < size)
    (hindex : o + index = (blocks.length + 1) * size)
    (hsorted : rest.Pairwise fun x y => x.index < y.index)
    (hrest : ∀ x ∈ rest, blocks.length * size ≤ o + x.index ∧ o + x.index < data.length)
    (hn : s.cache.length < n) (hdone : ∀ x ∈ done, LeadsTo enc size blocks o x) :
    ∃ more, (writeDirLoop enc size n s index done rest).1.Holds enc size (blocks ++ more) data ∧
      (writeDirLoop enc size n s index done rest).1.cache.length < size ∧
      ((writeDirLoop enc size n s index done rest).2.map DirIndex.index =
        done.map DirIndex.index ++ rest.map DirIndex.index) ∧
      ∀ x ∈ (writeDirLoop enc size n s index done rest).2, LeadsTo enc size (blocks ++ more) o x := by
  induction n generalizing s blocks index done rest with
  | zero => cases hn
  | succ n ih =>
      rw [writeDirLoop]
      set now := rest.takeWhile fun x => decide (x.index < index) with hnow
      set later := rest.dropWhile fun x => decide (x.index < index) with hlater
      set filled := done ++ now.map fun x => { x with startBlock := s.written.length % 2 ^ 32 }
        with hfilled
      have hsplit : now ++ later = rest := List.takeWhile_append_dropWhile
      have hplaced : ∀ x ∈ filled, LeadsTo enc size blocks o x := by
        rw [hfilled, List.forall_mem_append]
        refine ⟨hdone, fun x hx => ?_⟩
        obtain ⟨y, hy, rfl⟩ := List.mem_map.mp hx
        have hylt : y.index < index := by simpa using List.mem_takeWhile_imp hy
        obtain ⟨hyge, -⟩ := hrest y (hsplit ▸ List.mem_append_left _ hy)
        have hmul : (blocks.length + 1) * size = blocks.length * size + size := Nat.succ_mul _ _
        refine ⟨s.written.length, o + y.index - blocks.length * size, rfl, blocks.length, le_refl _, ?_,
          ?_, ?_⟩
        · rw [blockStart, List.take_length, h.written]
        · show o + y.index = _
          omega
        · omega
      have hkeys : filled.map DirIndex.index ++ later.map DirIndex.index =
          done.map DirIndex.index ++ rest.map DirIndex.index := by
        rw [hfilled, ← hsplit, List.map_append, List.map_append, List.map_map, List.append_assoc]
        rfl
      have hdata := length_flatten_full h.full
      by_cases hcache : s.cache.length < size
      · rw [if_pos hcache]
        -- nothing is behind the block at hand
        have hnone : later = [] := by
          rw [List.eq_nil_iff_forall_not_mem]
          intro x hx
          have hge := le_of_mem_dropWhile hsorted hx
          obtain ⟨-, hlt⟩ := hrest x (hsplit ▸ List.mem_append_right _ hx)
          have hlen : data.length = blocks.length * size + s.cache.length := by
            rw [← h.data, List.length_append, hdata]
          have hmul : (blocks.length + 1) * size = blocks.length * size + size := Nat.succ_mul _ _
          omega
        refine ⟨[], ?_, hcache, ?_, ?_⟩
        · rwa [List.append_nil]
        · rw [List.map_append, hkeys]
        · rwa [hnone, List.append_nil, List.append_nil]
      · rw [if_neg hcache]
        have hnext := h.write (not_lt.mp hcache)
        have hlen : (blocks ++ [s.cache.take size]).length = blocks.length + 1 := by simp
        have hdrop : (s.cache.drop size).length < n := by
          rw [List.length_drop]
          omega
        have hindex' : o + (index + size) = ((blocks ++ [s.cache.take size]).length + 1) * size := by
          rw [hlen, Nat.succ_mul, ← hindex, Nat.add_assoc]
        have hrest' : ∀ x ∈ later, (blocks ++ [s.cache.take size]).length * size ≤ o + x.index ∧
            o + x.index < data.length := by
          intro x hx
          have hge := le_of_mem_dropWhile hsorted hx
          rw [hlen, ← hindex]
          exact ⟨by omega, (hrest x (hsplit ▸ List.mem_append_right _ hx)).2⟩
        obtain ⟨more, hholds, hshort, hmap, hall⟩ := ih hnext hindex'
          (hsorted.sublist (List.dropWhile_sublist _)) hrest' hdrop
          (fun x hx => (hplaced x hx).append _)
        refine ⟨s.cache.take size :: more, ?_, hshort, ?_, ?_⟩
        · rwa [List.append_assoc] at hholds
        · rw [hmap, hkeys]
        · rwa [List.append_assoc] at hall

end

end FirmwareTools.Squashfs

import FirmwareTools.Squashfs.DirScan
import FirmwareTools.Squashfs.IdTable
import FirmwareTools.Squashfs.MetadataTable
import FirmwareTools.Squashfs.ReadFile

/-! # Tables in bounds

`unsquashfs` uses the numbers in an inode and in a directory as indices and as lengths. Here the tables are
memories that go on behind what was allocated, and every function has the list of its accesses, each with the
size of the array that it is meant for.

* **`InodeInside`**, **`CreateInside`**, **`DirectoryInside`** — what the numbers of an image have to be;
* **`tableAccesses_iff`** — the accesses are in range if and only if they are so. -/

namespace FirmwareTools.Squashfs

/-! ## Memory -/

/-- The memory from the beginning of an array on, and the size of the array. -/
structure Memory where
  byteAt : ℤ → UInt8
  size : ℕ

/-- Bytes of the memory. -/
def Memory.bytes (mem : Memory) (x : ℤ) (count : ℕ) : List UInt8 :=
  (List.range count).map fun k : ℕ => mem.byteAt (x + k)

/-- A number of the memory. -/
def Memory.field (mem : Memory) (x : ℤ) (width : ℕ) : ℕ := leValue (mem.bytes x width)

/-- How many bytes `strncpy` reads: it stops behind a NUL. -/
def Memory.strncpyReads (mem : Memory) (x : ℤ) (n : ℕ) : ℕ :=
  min (((mem.bytes x n).takeWhile (· ≠ 0)).length + 1) n

/-- The arrays. -/
inductive AccessedTable
  | inodeTable | directoryTable | idTable | lookupType | fragmentTable | createdInode
  | symlink | direName | dirEntName
  deriving DecidableEq, Repr

/-- An access to `count` elements of an array that has `size`. -/
structure TableAccess where
  table : AccessedTable
  size : ℤ
  place : ℤ
  count : ℤ := 1
  deriving DecidableEq, Repr

/-- The access is in the array. -/
def TableAccess.InRange (a : TableAccess) : Prop := 0 ≤ a.place ∧ a.place + a.count ≤ a.size

instance (a : TableAccess) : Decidable a.InRange := inferInstanceAs (Decidable (_ ∧ _))

/-- What `unsquashfs` has of an image whose metadata has been read: `sBlk`, the tables, where their blocks are
found in them, and the ids. -/
structure LoadedImage where
  sBlk : SuperBlock
  inodeTable : Memory
  directoryTable : Memory
  lookupInode : ℤ → Option ℕ
  lookupDirectory : ℤ → Option ℕ
  idTable : ℕ → ℕ := fun _ => 0

namespace LoadedImage

variable (m : LoadedImage)

/-! ## Inodes -/

/-- Bytes of the inode table. -/
def inodeAccess (place count : ℤ) : TableAccess := ⟨.inodeTable, m.inodeTable.size, place, count⟩

/-- The sizes of the records that `read_inode_4` copies. -/
def recordSize : InodeType → ℕ
  | .fifo | .socket => 16
  | .symlink | .lsymlink | .blkdev | .chrdev | .lfifo | .lsocket => 24
  | .lblkdev | .lchrdev => 28
  | .dir | .file => 32
  | .ldir => 40
  | .lreg => 56

/-- The target of a symlink is copied; `malloc` takes `symlink_size + 1` as an `unsigned int`. -/
def symlinkAccesses (type : InodeType) (ptr : ℤ) : List TableAccess :=
  let size := m.inodeTable.field (ptr + 20) 4
  let room : ℤ := ((size + 1) % 2 ^ 32 : ℕ)
  [⟨.symlink, room, 0, size⟩, m.inodeAccess (ptr + 24) (m.inodeTable.strncpyReads (ptr + 24) size),
    ⟨.symlink, room, size, 1⟩] ++
      if type = .lsymlink then [m.inodeAccess (ptr + 24 + size) 4] else []

/-- The `switch` of `read_inode_4`. -/
def bodyAccesses (type : InodeType) (ptr : ℤ) : List TableAccess :=
  match type with
  | .fifo | .socket => []
  | .symlink | .lsymlink => m.inodeAccess ptr (recordSize type) :: m.symlinkAccesses type ptr
  | _ => [m.inodeAccess ptr (recordSize type)]

/-- `read_inode_4` with an inode that is at `ptr`. An unknown type ends the program. -/
def recordAccesses (ptr : ℤ) : List TableAccess :=
  let type := m.inodeTable.field ptr 2
  [m.inodeAccess ptr 16, ⟨.idTable, m.sBlk.noIds, m.inodeTable.field (ptr + 4) 2, 1⟩,
    ⟨.idTable, m.sBlk.noIds, m.inodeTable.field (ptr + 6) 2, 1⟩, ⟨.lookupType, 15, type, 1⟩] ++
      match InodeType.ofCode type with
      | none => []
      | some type => m.bodyAccesses type ptr

/-- `lookup_entry` for an inode. -/
def inodePointer (startBlock offset : ℕ) : Option ℕ :=
  (m.lookupInode (toInt64 m.sBlk.inodeTableStart + startBlock)).map (· + offset)

/-- `read_inode_4`. It ends the program when the block is not found. -/
def readInode4Accesses (startBlock offset : ℕ) : List TableAccess :=
  match m.inodePointer startBlock offset with
  | none => []
  | some ptr => m.recordAccesses ptr

/-- The tables for the values of an inode. -/
def values : InodeTable where
  bytes := []
  lookupEntry := fun _ => none
  inodeTableStart := m.sBlk.inodeTableStart
  idTable := m.idTable
  blockSize := m.sBlk.blockSize
  blockLog := m.sBlk.blockLog

/-- The inode that `read_inode_4` returns. It is `static`: what the type does not have is left from the inode
before. -/
def readInode4 (prev : Inode) (startBlock offset : ℕ) : Option Inode := do
  let ptr ← m.inodePointer startBlock offset
  let record := m.inodeTable.bytes ptr (56 + m.inodeTable.field (ptr + 20) 4)
  let i ← readBaseHeader m.values record
  let i ← readInodeBody m.values i ptr (record.drop 16)
  match i.type with
  | .dir | .ldir | .file | .lreg => some i
  | _ => some { i with start := prev.start, offset := prev.offset }

/-! ## Files -/

/-- `write_file`; `opened` says that the file could be created. The list of blocks is not allocated when their
number is negative. -/
def writeFileAccesses (opened : Bool) (i : Inode) : List TableAccess :=
  if opened then
    (if 0 < i.blocks then [m.inodeAccess i.blockPtr (i.blocks * 4)] else []) ++
      if 0 ≤ i.blocks ∧ i.fragBytes ≠ 0 then [⟨.fragmentTable, m.sBlk.fragments, i.fragment, 1⟩] else []
  else []

/-- `create_inode`; `linked` says that the inode has been created before. -/
def createInodeAccesses (linked opened : Bool) (i : Inode) : List TableAccess :=
  ⟨.createdInode, m.sBlk.inodes, toInt32 i.inodeNumber - 1, 1⟩ ::
    if linked then []
    else
      match i.type with
      | .file | .lreg => m.writeFileAccesses opened i
      | _ => []

/-! ## Directories -/

/-- Bytes of the directory table. -/
def directoryAccess (place count : ℤ) : TableAccess := ⟨.directoryTable, m.directoryTable.size, place, count⟩

/-- The inner loop of `squashfs_opendir_4`: where the entries are, with the sizes of their names, and the place
behind them. -/
def direntries : ℕ → ℤ → List (ℤ × ℕ) × ℤ
  | 0, bytes => ([], bytes)
  | n + 1, bytes =>
    let size := m.directoryTable.field (bytes + 6) 2
    let rest := direntries n (bytes + 8 + (size + 1))
    ((bytes, size) :: rest.1, rest.2)

theorem le_direntries (n : ℕ) (bytes : ℤ) : bytes ≤ (m.direntries n bytes).2 := by
  induction n generalizing bytes with
  | zero => exact Int.le_refl _
  | succ n ih =>
      rw [direntries]
      have hle := ih (bytes + 8 + (m.directoryTable.field (bytes + 6) 2 + 1))
      dsimp only
      omega

/-- The number of entries behind a header, as the `int` that is counted down. -/
def dirCount (bytes : ℤ) : ℕ := (m.directoryTable.field bytes 4 + 1) % 2 ^ 32

/-- The outer loop: the headers and the entries, and the place where it ends. -/
def dirRuns (size bytes : ℤ) : List (ℤ × List (ℤ × ℕ)) × ℤ :=
  if bytes < size then
    let entries := m.direntries (m.dirCount bytes) (bytes + 12)
    let rest := dirRuns size entries.2
    ((bytes, entries.1) :: rest.1, rest.2)
  else ([], bytes)
termination_by (size - bytes).toNat
decreasing_by
  have hle := m.le_direntries (m.dirCount bytes) (bytes + 12)
  omega

/-- An entry is copied to `buffer`, and its name up to the first NUL to `dirs`. -/
def entryAccesses (e : ℤ × ℕ) : List TableAccess :=
  [m.directoryAccess e.1 8, m.directoryAccess (e.1 + 8) (e.2 + 1), ⟨.direName, nameLen + 1, 0, e.2 + 1⟩,
    ⟨.direName, nameLen + 1, e.2 + 1, 1⟩, ⟨.dirEntName, nameLen + 1, 0,
      (((m.directoryTable.bytes (e.1 + 8) (e.2 + 1)).takeWhile (· ≠ 0)).length + 1 : ℕ)⟩]

/-- A header with its entries. -/
def runAccesses (run : ℤ × List (ℤ × ℕ)) : List TableAccess :=
  m.directoryAccess run.1 12 :: run.2.flatMap m.entryAccesses

/-- Where the entries of a directory begin, and the place at which the loop stops. -/
def dirBounds (i : Inode) : Option (ℤ × ℤ) :=
  (m.lookupDirectory (toInt64 m.sBlk.directoryTableStart + toInt64 i.start)).map fun bytes =>
    let bytes := toInt32 (bytes + toInt32 i.offset)
    (bytes, toInt32 (i.data + bytes - 3))

/-- `squashfs_opendir_4` -/
def opendir4Accesses (prev : Inode) (startBlock offset : ℕ) : List TableAccess :=
  m.readInode4Accesses startBlock offset ++
    match (m.readInode4 prev startBlock offset).bind m.dirBounds with
    | none => []
    | some (bytes, size) => (m.dirRuns size bytes).1.flatMap m.runAccesses

/-! ## What the numbers have to be -/

/-- **The inode at `ptr`** is inside the table, and its type and ids exist. -/
structure InodeInside (ptr : ℤ) : Prop where
  header : ptr + 16 ≤ m.inodeTable.size
  uid : m.inodeTable.field (ptr + 4) 2 < m.sBlk.noIds
  guid : m.inodeTable.field (ptr + 6) 2 < m.sBlk.noIds
  type : m.inodeTable.field ptr 2 < 15
  body : ∀ type, InodeType.ofCode (m.inodeTable.field ptr 2) = some type →
    ptr + recordSize type ≤ m.inodeTable.size
  symlink : ∀ type, InodeType.ofCode (m.inodeTable.field ptr 2) = some type →
    type = .symlink ∨ type = .lsymlink →
      m.inodeTable.field (ptr + 20) 4 ≠ 2 ^ 32 - 1 ∧
      ptr + 24 + m.inodeTable.strncpyReads (ptr + 24) (m.inodeTable.field (ptr + 20) 4) ≤ m.inodeTable.size
  xattr : InodeType.ofCode (m.inodeTable.field ptr 2) = some .lsymlink →
    ptr + 24 + m.inodeTable.field (ptr + 20) 4 + 4 ≤ m.inodeTable.size

/-- **What is created** has a number of the image, and a file its list of blocks in the table and a fragment that
exists. -/
structure CreateInside (linked opened : Bool) (i : Inode) : Prop where
  number_pos : 1 ≤ toInt32 i.inodeNumber
  number_le : toInt32 i.inodeNumber ≤ m.sBlk.inodes
  blockList : linked = false → opened = true → i.type = .file ∨ i.type = .lreg → 0 < i.blocks →
    i.blockPtr + i.blocks * 4 ≤ m.inodeTable.size
  fragment : linked = false → opened = true → i.type = .file ∨ i.type = .lreg → 0 ≤ i.blocks →
    i.fragBytes ≠ 0 → i.fragment < m.sBlk.fragments

/-- **A directory** ends in the table, and no name is longer than 256 bytes. -/
def DirectoryInside (size bytes : ℤ) : Prop :=
  bytes < size → 0 ≤ bytes ∧ (m.dirRuns size bytes).2 ≤ m.directoryTable.size ∧
    ∀ run ∈ (m.dirRuns size bytes).1, ∀ e ∈ run.2, e.2 + 1 ≤ nameLen

/-! ## Inodes -/

variable {m}

theorem inodeAccess_inRange {place count : ℤ} (h : 0 ≤ place) :
    (m.inodeAccess place count).InRange ↔ place + count ≤ m.inodeTable.size :=
  and_iff_right h

theorem length_bytes (mem : Memory) (x : ℤ) (count : ℕ) : (mem.bytes x count).length = count := by
  rw [Memory.bytes, List.length_map, List.length_range]

theorem leValue_lt (bs : List UInt8) : leValue bs < 256 ^ bs.length := by
  induction bs with
  | nil => exact Nat.one_pos
  | cons b bs ih =>
      have hb := b.toNat_lt
      rw [leValue, List.foldr_cons, List.length_cons, Nat.pow_succ]
      rw [leValue] at ih
      omega

theorem field_lt (mem : Memory) (x : ℤ) (width : ℕ) : mem.field x width < 256 ^ width := by
  have hlt := leValue_lt (mem.bytes x width)
  rwa [length_bytes] at hlt

theorem symlinkAccesses_iff {type : InodeType} {ptr : ℤ} (hptr : 0 ≤ ptr) :
    (∀ a ∈ m.symlinkAccesses type ptr, a.InRange) ↔
      m.inodeTable.field (ptr + 20) 4 ≠ 2 ^ 32 - 1 ∧
      ptr + 24 + m.inodeTable.strncpyReads (ptr + 24) (m.inodeTable.field (ptr + 20) 4) ≤ m.inodeTable.size ∧
      (type = .lsymlink → ptr + 24 + m.inodeTable.field (ptr + 20) 4 + 4 ≤ m.inodeTable.size) := by
  have hlt : m.inodeTable.field (ptr + 20) 4 < 2 ^ 32 := field_lt _ _ 4
  unfold symlinkAccesses
  dsimp only
  generalize m.inodeTable.field (ptr + 20) 4 = size at hlt ⊢
  have hroom : (TableAccess.mk .symlink ((size + 1) % 2 ^ 32 : ℕ) 0 size).InRange ↔ size ≠ 2 ^ 32 - 1 := by
    simp only [TableAccess.InRange]
    omega
  have hnul : (TableAccess.mk .symlink ((size + 1) % 2 ^ 32 : ℕ) size 1).InRange ↔ size ≠ 2 ^ 32 - 1 := by
    simp only [TableAccess.InRange]
    omega
  have htarget : 0 ≤ ptr + 24 := by omega
  rw [List.forall_mem_append, List.forall_mem_cons, List.forall_mem_cons, List.forall_mem_singleton, hroom, hnul,
    inodeAccess_inRange htarget]
  by_cases htype : type = .lsymlink
  · rw [if_pos htype, List.forall_mem_singleton, inodeAccess_inRange (by omega)]
    tauto
  · rw [if_neg htype]
    simp only [List.not_mem_nil, false_imp_iff, implies_true]
    tauto

theorem bodyAccesses_iff {type : InodeType} {ptr : ℤ} (hptr : 0 ≤ ptr) (hheader : ptr + 16 ≤ m.inodeTable.size) :
    (∀ a ∈ m.bodyAccesses type ptr, a.InRange) ↔ ptr + recordSize type ≤ m.inodeTable.size ∧
      (type = .symlink ∨ type = .lsymlink → (m.inodeTable.field (ptr + 20) 4 ≠ 2 ^ 32 - 1 ∧
        ptr + 24 + m.inodeTable.strncpyReads (ptr + 24) (m.inodeTable.field (ptr + 20) 4) ≤ m.inodeTable.size) ∧
        (type = .lsymlink → ptr + 24 + m.inodeTable.field (ptr + 20) 4 + 4 ≤ m.inodeTable.size)) := by
  have hlink := @symlinkAccesses_iff m type ptr hptr
  cases type
  case symlink | lsymlink =>
    rw [bodyAccesses, List.forall_mem_cons, inodeAccess_inRange hptr, hlink]
    tauto
  case fifo | socket =>
    simp [bodyAccesses, recordSize, hheader]
  all_goals
    simp only [bodyAccesses, List.forall_mem_singleton, inodeAccess_inRange hptr]
    simp

theorem recordAccesses_iff {ptr : ℤ} (hptr : 0 ≤ ptr) :
    (∀ a ∈ m.recordAccesses ptr, a.InRange) ↔ m.InodeInside ptr := by
  have hindex : ∀ {table : AccessedTable} {size place : ℕ},
      (TableAccess.mk table size place 1).InRange ↔ place < size := by
    intro table size place
    simp only [TableAccess.InRange]
    omega
  have htype : (TableAccess.mk .lookupType 15 (m.inodeTable.field ptr 2) 1).InRange ↔
      m.inodeTable.field ptr 2 < 15 := by
    simp only [TableAccess.InRange]
    omega
  unfold recordAccesses
  dsimp only
  rw [List.forall_mem_append, List.forall_mem_cons, List.forall_mem_cons, List.forall_mem_cons,
    List.forall_mem_singleton, inodeAccess_inRange hptr, hindex, hindex, htype]
  have hbody : (∀ a ∈ (match InodeType.ofCode (m.inodeTable.field ptr 2) with
        | none => []
        | some type => m.bodyAccesses type ptr), a.InRange) ↔
      ∀ type, InodeType.ofCode (m.inodeTable.field ptr 2) = some type → ∀ a ∈ m.bodyAccesses type ptr, a.InRange := by
    cases InodeType.ofCode (m.inodeTable.field ptr 2) with
    | none => simp
    | some type => simp
  rw [hbody]
  constructor
  · rintro ⟨⟨hheader, huid, hguid, htype⟩, hbody⟩
    refine ⟨hheader, huid, hguid, htype, fun type h => ?_, fun type h hsymlink => ?_, fun h => ?_⟩
    · exact ((bodyAccesses_iff hptr hheader).mp (hbody type h)).1
    · exact (((bodyAccesses_iff hptr hheader).mp (hbody type h)).2 hsymlink).1
    · exact (((bodyAccesses_iff hptr hheader).mp (hbody _ h)).2 (.inr rfl)).2 rfl
  · rintro ⟨hheader, huid, hguid, htype, hbody, hsymlink, hxattr⟩
    refine ⟨⟨hheader, huid, hguid, htype⟩, fun type h => ?_⟩
    refine (bodyAccesses_iff hptr hheader).mpr ⟨hbody type h, fun hlink => ⟨hsymlink type h hlink, ?_⟩⟩
    rintro rfl
    exact hxattr h

theorem createInside_iff {linked opened : Bool} {i : Inode} : m.CreateInside linked opened i ↔
    (1 ≤ toInt32 i.inodeNumber ∧ toInt32 i.inodeNumber ≤ m.sBlk.inodes) ∧
    (linked = false → opened = true → i.type = .file ∨ i.type = .lreg → 0 < i.blocks →
      i.blockPtr + i.blocks * 4 ≤ m.inodeTable.size) ∧
    (linked = false → opened = true → i.type = .file ∨ i.type = .lreg → 0 ≤ i.blocks →
      i.fragBytes ≠ 0 → i.fragment < m.sBlk.fragments) :=
  ⟨fun ⟨h₁, h₂, h₃, h₄⟩ => ⟨⟨h₁, h₂⟩, h₃, h₄⟩, fun ⟨⟨h₁, h₂⟩, h₃, h₄⟩ => ⟨h₁, h₂, h₃, h₄⟩⟩

theorem createInodeAccesses_iff {linked opened : Bool} {i : Inode} :
    (∀ a ∈ m.createInodeAccesses linked opened i, a.InRange) ↔ m.CreateInside linked opened i := by
  have hnumber : (TableAccess.mk .createdInode m.sBlk.inodes (toInt32 i.inodeNumber - 1) 1).InRange ↔
      1 ≤ toInt32 i.inodeNumber ∧ toInt32 i.inodeNumber ≤ m.sBlk.inodes := by
    simp only [TableAccess.InRange]
    omega
  rw [createInodeAccesses, List.forall_mem_cons, hnumber]
  have hfile : (∀ a ∈ m.writeFileAccesses opened i, a.InRange) ↔
      (opened = true → 0 < i.blocks → i.blockPtr + i.blocks * 4 ≤ m.inodeTable.size) ∧
      (opened = true → 0 ≤ i.blocks → i.fragBytes ≠ 0 → i.fragment < m.sBlk.fragments) := by
    have hptr : (0 : ℤ) ≤ i.blockPtr := Int.natCast_nonneg _
    have hfragment : (TableAccess.mk .fragmentTable m.sBlk.fragments i.fragment 1).InRange ↔
        i.fragment < m.sBlk.fragments := by
      simp only [TableAccess.InRange]
      omega
    rw [writeFileAccesses]
    cases opened with
    | false => simp
    | true =>
        rw [if_pos rfl, List.forall_mem_append]
        refine and_congr ?_ ?_
        · by_cases hblocks : 0 < i.blocks
          · rw [if_pos hblocks, List.forall_mem_singleton, inodeAccess_inRange hptr]
            exact ⟨fun h _ _ => h, fun h => h rfl hblocks⟩
          · rw [if_neg hblocks]
            exact ⟨fun _ _ h => absurd h hblocks, fun _ a ha => absurd ha List.not_mem_nil⟩
        · by_cases hpart : 0 ≤ i.blocks ∧ i.fragBytes ≠ 0
          · rw [if_pos hpart, List.forall_mem_singleton, hfragment]
            exact ⟨fun h _ _ _ => h, fun h => h rfl hpart.1 hpart.2⟩
          · rw [if_neg hpart]
            exact ⟨fun _ _ h h' => absurd ⟨h, h'⟩ hpart, fun _ a ha => absurd ha List.not_mem_nil⟩
  rw [createInside_iff]
  refine and_congr_right fun _ => ?_
  cases linked with
  | true => simp
  | false =>
      rw [if_neg Bool.false_ne_true]
      have hbody : (∀ a ∈ (match i.type with
            | .file | .lreg => m.writeFileAccesses opened i
            | _ => []), a.InRange) ↔
          (i.type = .file ∨ i.type = .lreg → ∀ a ∈ m.writeFileAccesses opened i, a.InRange) := by
        cases i.type <;> simp
      rw [hbody, hfile]
      constructor
      · intro h
        exact ⟨fun _ ho ht hb => (h ht).1 ho hb, fun _ ho ht hb hf => (h ht).2 ho hb hf⟩
      · intro h ht
        exact ⟨fun ho hb => h.1 rfl ho ht hb, fun ho hb hf => h.2 rfl ho ht hb hf⟩

/-! ## Directories -/

theorem entryAccesses_iff {e : ℤ × ℕ} (he : 0 ≤ e.1) :
    (∀ a ∈ m.entryAccesses e, a.InRange) ↔ e.1 + 8 + (e.2 + 1) ≤ m.directoryTable.size ∧ e.2 + 1 ≤ nameLen := by
  have hname : ((m.directoryTable.bytes (e.1 + 8) (e.2 + 1)).takeWhile (· ≠ 0)).length ≤ e.2 + 1 := by
    have hle := (List.takeWhile_prefix (· ≠ 0) : _ <+: m.directoryTable.bytes (e.1 + 8) (e.2 + 1)).length_le
    rwa [length_bytes] at hle
  simp only [entryAccesses, List.forall_mem_cons, List.not_mem_nil, false_imp_iff, implies_true, and_true,
    directoryAccess, TableAccess.InRange, nameLen]
  omega

theorem direntries_iff {n : ℕ} {bytes : ℤ} (hnonneg : 0 ≤ bytes) (hle : bytes ≤ m.directoryTable.size) :
    (∀ e ∈ (m.direntries n bytes).1, ∀ a ∈ m.entryAccesses e, a.InRange) ↔
      (m.direntries n bytes).2 ≤ m.directoryTable.size ∧ ∀ e ∈ (m.direntries n bytes).1, e.2 + 1 ≤ nameLen := by
  induction n generalizing bytes with
  | zero => simp [direntries, hle]
  | succ n ih =>
      rw [direntries]
      dsimp only
      have hgrow := m.le_direntries n (bytes + 8 + (m.directoryTable.field (bytes + 6) 2 + 1))
      rw [List.forall_mem_cons, List.forall_mem_cons, entryAccesses_iff hnonneg]
      dsimp only
      by_cases hnext : bytes + 8 + (m.directoryTable.field (bytes + 6) 2 + 1) ≤ m.directoryTable.size
      · rw [ih (by omega) hnext]
        tauto
      · constructor
        · exact fun h => absurd h.1.1 hnext
        · exact fun h => absurd (hgrow.trans h.1) hnext

theorem le_dirRuns (m : LoadedImage) (size bytes : ℤ) : bytes ≤ (m.dirRuns size bytes).2 := by
  fun_induction m.dirRuns size bytes with
  | case1 bytes hlt entries rest ih =>
      have hentries : bytes + 12 ≤ entries.2 := m.le_direntries (m.dirCount bytes) (bytes + 12)
      have hrest : entries.2 ≤ rest.2 := ih
      dsimp only
      omega
  | case2 bytes hlt => exact Int.le_refl _

theorem dirRuns_iff {size bytes : ℤ} (hnonneg : 0 ≤ bytes) (hle : bytes ≤ m.directoryTable.size) :
    (∀ run ∈ (m.dirRuns size bytes).1, ∀ a ∈ m.runAccesses run, a.InRange) ↔
      (m.dirRuns size bytes).2 ≤ m.directoryTable.size ∧
        ∀ run ∈ (m.dirRuns size bytes).1, ∀ e ∈ run.2, e.2 + 1 ≤ nameLen := by
  fun_induction m.dirRuns size bytes with
  | case1 bytes hlt entries rest ih =>
      have hentries : bytes + 12 ≤ entries.2 := m.le_direntries (m.dirCount bytes) (bytes + 12)
      have hrest : entries.2 ≤ rest.2 := m.le_dirRuns size entries.2
      have hheader : (m.directoryAccess bytes 12).InRange ↔ bytes + 12 ≤ m.directoryTable.size :=
        and_iff_right hnonneg
      dsimp only
      rw [List.forall_mem_cons, List.forall_mem_cons, runAccesses, List.forall_mem_cons, hheader,
        List.forall_mem_flatMap]
      dsimp only
      by_cases hinside : bytes + 12 ≤ m.directoryTable.size
      · have hiff := @direntries_iff m (m.dirCount bytes) (bytes + 12) (by omega) hinside
        by_cases hend : entries.2 ≤ m.directoryTable.size
        · have hrun := ih (by omega) hend
          constructor
          · rintro ⟨⟨-, hentry⟩, hruns⟩
            obtain ⟨hle, hnames⟩ := hrun.mp hruns
            exact ⟨hle, (hiff.mp hentry).2, hnames⟩
          · rintro ⟨hle, hentry, hnames⟩
            exact ⟨⟨hinside, hiff.mpr ⟨hend, hentry⟩⟩, hrun.mpr ⟨hle, hnames⟩⟩
        · constructor
          · exact fun h => absurd (hiff.mp h.1.2).1 hend
          · exact fun h => absurd (hrest.trans h.1) hend
      · constructor
        · exact fun h => absurd h.1.1 hinside
        · exact fun h => absurd (hentries.trans (hrest.trans h.1)) hinside
  | case2 bytes hlt => simp [hle]

theorem directoryInside_iff {size bytes : ℤ} :
    (∀ a ∈ (m.dirRuns size bytes).1.flatMap m.runAccesses, a.InRange) ↔ m.DirectoryInside size bytes := by
  have hflat : (∀ a ∈ (m.dirRuns size bytes).1.flatMap m.runAccesses, a.InRange) ↔
      ∀ run ∈ (m.dirRuns size bytes).1, ∀ a ∈ m.runAccesses run, a.InRange := List.forall_mem_flatMap
  rw [hflat, DirectoryInside]
  by_cases hlt : bytes < size
  · have hend := m.le_dirRuns size bytes
    constructor
    · intro h _
      -- the first header is read
      have hheader : (m.directoryAccess bytes 12).InRange := by
        refine h (bytes, (m.direntries (m.dirCount bytes) (bytes + 12)).1) ?_ _ List.mem_cons_self
        rw [dirRuns, if_pos hlt]
        exact List.mem_cons_self
      have hnonneg : 0 ≤ bytes := hheader.1
      have hle : bytes + 12 ≤ (m.directoryTable.size : ℤ) := hheader.2
      exact ⟨hnonneg, (dirRuns_iff hnonneg (by omega)).mp h⟩
    · intro h
      obtain ⟨hnonneg, hle, hnames⟩ := h hlt
      exact (dirRuns_iff hnonneg (hend.trans hle)).mpr ⟨hle, hnames⟩
  · constructor
    · exact fun _ h => absurd h hlt
    · intro _ run hrun
      rw [dirRuns, if_neg hlt] at hrun
      exact absurd hrun List.not_mem_nil

/-! ## The functions -/

theorem readInode4Accesses_iff {startBlock offset : ℕ} :
    (∀ a ∈ m.readInode4Accesses startBlock offset, a.InRange) ↔
      ∀ ptr, m.inodePointer startBlock offset = some ptr → m.InodeInside ptr := by
  rw [readInode4Accesses]
  cases m.inodePointer startBlock offset with
  | none => simp
  | some ptr =>
      have hiff := @recordAccesses_iff m ptr (Int.natCast_nonneg ptr)
      constructor
      · intro h ptr' hptr
        obtain rfl := Option.some.inj hptr
        exact hiff.mp h
      · exact fun h => hiff.mpr (h ptr rfl)

/-- **The tables of an image**: the accesses of `read_inode_4`, `squashfs_opendir_4`, `create_inode` and
`write_file` are in range exactly when the numbers are as they have to be. -/
theorem tableAccesses_iff (m : LoadedImage) (prev : Inode) (startBlock offset : ℕ) (linked opened : Bool)
    (i : Inode) :
    ((∀ a ∈ m.readInode4Accesses startBlock offset, a.InRange) ↔
      ∀ ptr, m.inodePointer startBlock offset = some ptr → m.InodeInside ptr) ∧
    ((∀ a ∈ m.opendir4Accesses prev startBlock offset, a.InRange) ↔
      (∀ ptr, m.inodePointer startBlock offset = some ptr → m.InodeInside ptr) ∧
      ∀ bounds, (m.readInode4 prev startBlock offset).bind m.dirBounds = some bounds →
        m.DirectoryInside bounds.2 bounds.1) ∧
    ((∀ a ∈ m.createInodeAccesses linked opened i, a.InRange) ↔ m.CreateInside linked opened i) := by
  refine ⟨readInode4Accesses_iff, ?_, createInodeAccesses_iff⟩
  rw [opendir4Accesses, List.forall_mem_append, readInode4Accesses_iff]
  refine and_congr_right fun _ => ?_
  cases (m.readInode4 prev startBlock offset).bind m.dirBounds with
  | none => simp
  | some bounds =>
      obtain ⟨bytes, size⟩ := bounds
      constructor
      · intro h bounds hbounds
        obtain rfl := Option.some.inj hbounds
        exact directoryInside_iff.mp h
      · exact fun h => directoryInside_iff.mpr (h _ rfl)

/-! ## An image -/

/-- A table that has been read, in memory. -/
structure HoldsTable (mem : Memory) (lookup : ℤ → Option ℕ) (t : UncompressedTable) : Prop where
  bytes : ∀ k (hk : k < t.bytes.length), mem.byteAt k = t.bytes[k]
  length_le : t.bytes.length ≤ mem.size
  lookup : ∀ start : ℕ, lookup start = lookupEntry t.entries start

/-- **The metadata of an image** has been read. -/
structure Loads (env : DataEnv) (fresh : ℕ → UInt8) (img : List UInt8) (m : LoadedImage) : Prop where
  super : readSuper img = some m.sBlk
  ids : (readUidsGuids4 env.comp fresh img m.sBlk).isSome
  fragments : (readFragmentTable env fresh img m.sBlk.fragmentTableStart m.sBlk.fragments).isSome
  inodes : ∃ t, uncompressTable env.comp img m.sBlk.inodeTableStart m.sBlk.directoryTableStart = some t ∧
    HoldsTable m.inodeTable m.lookupInode t
  directories : ∃ t, uncompressTable env.comp img m.sBlk.directoryTableStart m.sBlk.fragmentTableStart = some t ∧
    HoldsTable m.directoryTable m.lookupDirectory t

/-- An image with one directory, which has the id with index 5, and one id. -/
def unknownId : List UInt8 × LoadedImage :=
  let sBlk : SuperBlock := {
    inodes := 1, noIds := 1, inodeTableStart := 96, directoryTableStart := 130, fragmentTableStart := 130
    idTableStart := 136, xattrIdTableStart := 2 ^ 64 - 1 }
  let inode := packFields [(2, 1), (2, 0o755), (2, 5), (2, 0), (4, 0), (4, 1), (4, 0), (4, 2), (2, 3), (2, 0), (4, 2)]
  (sBlk.encode ++ leBytes 2 (0x8000 + 32) ++ inode ++ leBytes 2 0x8004 ++ leBytes 4 0 ++ leBytes 8 130,
    { sBlk, inodeTable := ⟨fun x => inode.getD x.toNat 0, 8192⟩, directoryTable := ⟨fun _ => 0, 0⟩
      lookupInode := fun x => if x = 96 then some 0 else none, lookupDirectory := fun _ => none })

/-- `id_table[5]` is read. -/
theorem not_tableAccesses : ¬∀ (env : DataEnv) (fresh : ℕ → UInt8) (img : List UInt8) (m : LoadedImage),
    m.Loads env fresh img → ∀ startBlock offset, ∀ a ∈ m.readInode4Accesses startBlock offset, a.InRange := by
  intro h
  have hinodes : (uncompressTable storeOnly unknownId.1 96 130).map (fun t => (t.entries, t.bytes))
      = some ([(96, 0)], (unknownId.1.drop 98).take 32) := by decide +kernel
  have hdirectories : (uncompressTable storeOnly unknownId.1 130 130).map (fun t => (t.entries, t.bytes))
      = some ([], []) := by decide +kernel
  obtain ⟨inodes, hread, hinodes⟩ := Option.map_eq_some_iff.mp hinodes
  obtain ⟨directories, hread', hdirectories⟩ := Option.map_eq_some_iff.mp hdirectories
  obtain ⟨hentries, hbytes⟩ := Prod.mk.inj hinodes
  obtain ⟨hentries', hbytes'⟩ := Prod.mk.inj hdirectories
  have hloads : unknownId.2.Loads fourKilobyteEnv (fun _ => 0) unknownId.1 := by
    refine ⟨by decide +kernel, by decide +kernel, by decide +kernel, ⟨inodes, hread, ?_⟩, ⟨directories, hread', ?_⟩⟩
    · have hmemory : ∀ k < 32, unknownId.2.inodeTable.byteAt (k : ℕ)
          = ((unknownId.1.drop 98).take 32).getD k 0 := by decide +kernel
      have hlength : inodes.bytes.length = 32 := by
        rw [hbytes]
        decide +kernel
      refine ⟨fun k hk => ?_, ?_, fun start => ?_⟩
      · rw [hmemory k (hlength ▸ hk), ← hbytes, List.getD_eq_getElem]
      · rw [hlength]
        decide
      · show (if (start : ℤ) = 96 then some 0 else none) = _
        rw [hentries, lookupEntry, List.find?_singleton]
        by_cases hstart : start = 96
        · rw [hstart]
          rfl
        · have hcast : (start : ℤ) ≠ 96 := by omega
          rw [if_neg hcast, if_neg (by simpa using Ne.symm hstart)]
          rfl
    · refine ⟨fun k hk => ?_, ?_, fun start => ?_⟩
      · rw [hbytes'] at hk
        exact absurd hk (Nat.not_lt_zero k)
      · rw [hbytes']
        exact Nat.zero_le _
      · rw [hentries']
        rfl
  have hmem : ⟨.idTable, 1, 5, 1⟩ ∈ unknownId.2.readInode4Accesses 0 0 := by decide +kernel
  exact absurd (h _ _ _ _ hloads 0 0 _ hmem) (by decide)

end LoadedImage

end FirmwareTools.Squashfs

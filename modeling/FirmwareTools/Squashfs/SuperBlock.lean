import FirmwareTools.Squashfs.Metadata

/-! # The superblock

`struct squashfs_super_block`, which stands at the beginning of an image, and how `unsquashfs` reads it
from an image of version 4.

* **`readSuper_of_holdsAt`** — what was written is read back, each field cut to its width. -/

namespace FirmwareTools.Squashfs

/-- `SQUASHFS_MAGIC` -/
def squashfsMagic : ℕ := 0x73717368

/-- `SQUASHFS_MAGIC_LZMA` -/
def squashfsMagicLzma : ℕ := 0x71736873

/-- `struct squashfs_super_block`. -/
structure SuperBlock where
  sMagic : ℕ := squashfsMagic
  inodes : ℕ := 0
  mkfsTime : ℕ := 0
  blockSize : ℕ := 0
  fragments : ℕ := 0
  compression : ℕ := 0
  blockLog : ℕ := 0
  flags : ℕ := 0
  noIds : ℕ := 0
  sMajor : ℕ := 4
  sMinor : ℕ := 0
  rootInode : ℕ := 0
  bytesUsed : ℕ := 0
  idTableStart : ℕ := 0
  xattrIdTableStart : ℕ := 0
  inodeTableStart : ℕ := 0
  directoryTableStart : ℕ := 0
  fragmentTableStart : ℕ := 0
  lookupTableStart : ℕ := 0
  deriving DecidableEq, Repr

/-- The fields with their widths, in the order of the record. -/
def SuperBlock.fields (s : SuperBlock) : List (ℕ × ℕ) :=
  [(4, s.sMagic), (4, s.inodes), (4, s.mkfsTime), (4, s.blockSize), (4, s.fragments),
    (2, s.compression), (2, s.blockLog), (2, s.flags), (2, s.noIds), (2, s.sMajor), (2, s.sMinor),
    (8, s.rootInode), (8, s.bytesUsed), (8, s.idTableStart), (8, s.xattrIdTableStart),
    (8, s.inodeTableStart), (8, s.directoryTableStart), (8, s.fragmentTableStart),
    (8, s.lookupTableStart)]

/-- The widths of the fields. -/
def superWidths : List ℕ := [4, 4, 4, 4, 4, 2, 2, 2, 2, 2, 2, 8, 8, 8, 8, 8, 8, 8, 8]

/-- The record of these values. -/
def SuperBlock.ofValues : List ℕ → Option SuperBlock
  | [sMagic, inodes, mkfsTime, blockSize, fragments, compression, blockLog, flags, noIds, sMajor,
      sMinor, rootInode, bytesUsed, idTableStart, xattrIdTableStart, inodeTableStart,
      directoryTableStart, fragmentTableStart, lookupTableStart] =>
    some { sMagic, inodes, mkfsTime, blockSize, fragments, compression, blockLog, flags, noIds, sMajor,
           sMinor, rootInode, bytesUsed, idTableStart, xattrIdTableStart, inodeTableStart,
           directoryTableStart, fragmentTableStart, lookupTableStart }
  | _ => none

/-- The record as it is stored. -/
def SuperBlock.encode (s : SuperBlock) : List UInt8 := packFields s.fields

/-- `read_super`, for images of version 4 in the byte order of the machine. -/
def readSuper (img : List UInt8) : Option SuperBlock := do
  let s ← SuperBlock.ofValues (← readFields superWidths (← readFsBytes img 0 superWidths.sum))
  if (s.sMagic = squashfsMagic ∨ s.sMagic = squashfsMagicLzma) ∧ s.sMajor = 4 ∧ s.sMinor = 0 then some s
  else none

/-- Each field cut to its width. -/
def SuperBlock.truncate (s : SuperBlock) : SuperBlock where
  sMagic := s.sMagic % 256 ^ 4
  inodes := s.inodes % 256 ^ 4
  mkfsTime := s.mkfsTime % 256 ^ 4
  blockSize := s.blockSize % 256 ^ 4
  fragments := s.fragments % 256 ^ 4
  compression := s.compression % 256 ^ 2
  blockLog := s.blockLog % 256 ^ 2
  flags := s.flags % 256 ^ 2
  noIds := s.noIds % 256 ^ 2
  sMajor := s.sMajor % 256 ^ 2
  sMinor := s.sMinor % 256 ^ 2
  rootInode := s.rootInode % 256 ^ 8
  bytesUsed := s.bytesUsed % 256 ^ 8
  idTableStart := s.idTableStart % 256 ^ 8
  xattrIdTableStart := s.xattrIdTableStart % 256 ^ 8
  inodeTableStart := s.inodeTableStart % 256 ^ 8
  directoryTableStart := s.directoryTableStart % 256 ^ 8
  fragmentTableStart := s.fragmentTableStart % 256 ^ 8
  lookupTableStart := s.lookupTableStart % 256 ^ 8

/-- What `main` of `mksquashfs` stores whatever the options are. -/
structure SuperBlock.Current (s : SuperBlock) : Prop where
  magic : s.sMagic = squashfsMagic
  major : s.sMajor = 4
  minor : s.sMinor = 0

theorem SuperBlock.map_fst_fields (s : SuperBlock) : s.fields.map Prod.fst = superWidths := rfl

theorem SuperBlock.length_encode (s : SuperBlock) : s.encode.length = superWidths.sum := by
  rw [encode, length_packFields, map_fst_fields]

/-- The values that were stored are those of the record, cut to their widths. -/
theorem SuperBlock.ofValues_fields (s : SuperBlock) :
    SuperBlock.ofValues (s.fields.map fun f => f.2 % 256 ^ f.1) = some s.truncate := rfl

/-- **The superblock is read back.** -/
theorem readSuper_of_holdsAt {img : List UInt8} {s : SuperBlock} (hs : s.Current)
    (h : HoldsAt img 0 s.encode) : readSuper img = some s.truncate := by
  have hne : s.encode ≠ [] := by
    rw [← List.length_pos_iff, s.length_encode]
    decide
  have hbytes : readFsBytes img 0 superWidths.sum = some s.encode := by
    have hslice := readSlice_of_holdsAt h hne
    rwa [s.length_encode] at hslice
  have hfields := readFields_packFields s.fields []
  rw [List.append_nil, s.map_fst_fields] at hfields
  rw [readSuper, hbytes, Option.bind_eq_bind, Option.bind_some, SuperBlock.encode, hfields,
    Option.bind_eq_bind, Option.bind_some, s.ofValues_fields, Option.bind_eq_bind, Option.bind_some]
  refine if_pos ⟨.inl ?_, ?_, ?_⟩
  · rw [SuperBlock.truncate, hs.magic]
    rfl
  · rw [SuperBlock.truncate, hs.major]
    rfl
  · rw [SuperBlock.truncate, hs.minor]
    rfl

end FirmwareTools.Squashfs

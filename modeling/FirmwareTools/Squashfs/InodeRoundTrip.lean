import FirmwareTools.Squashfs.Inode
import FirmwareTools.Squashfs.MetadataTable
import Mathlib.Data.List.TakeWhile

/-! # Inodes are found again

`create_inode` appends a record to the inode table and returns a reference to it: where the block that it
begins in will be stored, and the offset in that block. `unsquashfs` uncompresses the whole table and
looks the record up by the reference.

* **`readInode4_same`** — a record of any of the fourteen types is read back as what was written;
* **`inodesFound_iff`** — all references of a run lead to their records exactly if the records take no
  more than `2 ^ 31 - 8192` bytes. -/

namespace FirmwareTools.Squashfs

/-! ## The arguments of create_inode -/

/-- The arguments of `create_inode` fit their types and the fields they are stored in, as its callers see
to: a directory that is not stored as a long one has less than `2 ^ 16` bytes, and `readlink` writes at
most `65536` bytes, none of them zero. -/
structure InodeArgs.Fits (a : InodeArgs) : Prop where
  uidIndex : a.uidIndex < 2 ^ 16
  gidIndex : a.gidIndex < 2 ^ 16
  xattr : a.xattr < 2 ^ 32
  byteSize : a.byteSize < 2 ^ 63
  startBlock : a.startBlock < 2 ^ 63
  dirStart : a.writtenType = .dir ∨ a.writtenType = .ldir → a.startBlock < 2 ^ 32
  offset : a.offset < 2 ^ 16
  dirSize : a.writtenType = .dir → a.byteSize < 2 ^ 16
  fragmentIndex : a.fragmentIndex < 2 ^ 32
  fragmentOffset : a.fragmentOffset < 2 ^ 32
  blockList : ∀ b ∈ a.blockList, b < 2 ^ 32
  readlink : ∀ text, a.readlink = some text → text.length ≤ 65536 ∧ (0 : UInt8) ∉ text

/-- A call of `create_inode`. -/
structure InodeCall where
  args : InodeArgs
  fits : args.Fits

/-- The base header is read back as it was written. The time is kept in 32 bits, and so is the inode
number. -/
structure SameBase (t : InodeTable) (a : InodeArgs) (i : Inode) : Prop where
  type : i.type = a.writtenType
  mode : i.mode = lookupType a.writtenType ||| squashfsMode a.stat.mode
  uid : i.uid = t.idTable a.uidIndex
  gid : i.gid = t.idTable a.gidIndex
  time : i.time = a.stat.mtime % 2 ^ 32
  inodeNumber : i.inodeNumber =
    (if a.type = .dir then a.inodeNumber else a.inodeNumber + a.dirInodeNo) % 2 ^ 32

/-- **The inode that was read is the one that was written.** -/
structure SameInode (t : InodeTable) (a : InodeArgs) (i : Inode) : Prop extends SameBase t a i where
  xattr : i.xattr = a.xattr
  file : a.writtenType = .file ∨ a.writtenType = .lreg → i.data = a.byteSize ∧
    i.start = a.startBlock ∧ i.fragment = a.fragmentIndex ∧ i.offset = a.fragmentOffset ∧
      readFields (List.replicate a.blockList.length 4) (t.bytes.drop i.blockPtr) = some a.blockList
  dir : a.writtenType = .dir ∨ a.writtenType = .ldir → i.data = a.byteSize ∧
    i.start = a.startBlock ∧ i.offset = a.offset
  symlink : a.writtenType = .symlink ∨ a.writtenType = .lsymlink → i.symlink = a.symlinkText
  device : a.writtenType = .blkdev ∨ a.writtenType = .chrdev ∨ a.writtenType = .lblkdev ∨
    a.writtenType = .lchrdev → i.data = (encodeRdev a.stat.major a.stat.minor : ℕ)

/-! ## The records -/

variable {t : InodeTable} {a : InodeArgs} {startBlock offset : ℕ} {record : List UInt8}

theorem sameBase_readBase (ha : a.Fits) (t : InodeTable) : SameBase t a (a.readBase t) := by
  have hmode : squashfsMode a.stat.mode < 256 ^ 2 :=
    lt_of_le_of_lt Nat.and_le_right (by decide)
  refine ⟨rfl, ?_, ?_, ?_, rfl, rfl⟩
  · rw [InodeArgs.readBase, Nat.mod_eq_of_lt hmode]
  · rw [InodeArgs.readBase, Nat.mod_eq_of_lt (show a.uidIndex < 256 ^ 2 from ha.uidIndex)]
  · rw [InodeArgs.readBase, Nat.mod_eq_of_lt (show a.gidIndex < 256 ^ 2 from ha.gidIndex)]

/-- A plain record is written only without extended attributes. -/
theorem xattr_of_plain (h : a.writtenType.code < 8) : a.xattr = invalidXattr := by
  have hplain : isXattr a.xattr = false := by
    cases hx : isXattr a.xattr with
    | false => rfl
    | true =>
        exfalso
        revert h
        rw [InodeArgs.writtenType]
        cases a.type <;> simp [hx, InodeType.code]
  simpa [isXattr] using hplain

/-- A record with its blocks is read back: the fields `fs` behind the base header, and the block list
behind them. -/
theorem drop_blockPtr {fs : List (ℕ × ℕ)} {rest : List UInt8} {blockPtr : ℕ} {blocks : List UInt8}
    (h : t.bytes.drop blockPtr = packFields a.baseFields ++ (packFields fs ++ blocks) ++ rest) :
    t.bytes.drop (blockPtr + (16 + (fs.map Prod.fst).sum)) = blocks ++ rest := by
  have hlen : (packFields a.baseFields ++ packFields fs).length = 16 + (fs.map Prod.fst).sum := by
    rw [List.length_append, length_packFields, length_packFields]
    rfl
  rw [← List.drop_drop, h, ← hlen, ← List.append_assoc, List.append_assoc, List.drop_left]

/-- A file whose size or start does not fit 32 bits gets a long record. -/
theorem lt_of_writtenType_file (hw : a.writtenType = .file) :
    a.byteSize < 2 ^ 32 ∧ a.startBlock < 2 ^ 32 := by
  rw [InodeArgs.writtenType] at hw
  cases htype : a.type <;> rw [htype] at hw <;> simp only at hw
  case file =>
      split at hw
      case isTrue => cases hw
      case isFalse hlong => omega
  all_goals first | (split at hw <;> cases hw) | cases hw

theorem readInode4_file (ha : a.Fits) (hw : a.writtenType = .file)
    (hrecord : createInode a = some record) (h : t.Holds startBlock offset record) :
    ∃ i, readInode4 t startBlock offset = some i ∧ SameInode t a i := by
  obtain ⟨hsize, hstart⟩ := lt_of_writtenType_file hw
  rw [createInode, hw] at hrecord
  simp only [Option.some.injEq, packFields_append, List.append_assoc] at hrecord
  subst hrecord
  obtain ⟨blockPtr, rest, hread, hdrop⟩ := readInode4_of_holds h
  have hfields := readFields_packFields [(4, a.startBlock), (4, a.fragmentIndex),
    (4, a.fragmentOffset), (4, a.byteSize)] (packFields (a.blockList.map fun b => (4, b)) ++ rest)
  simp only [List.map_cons, List.map_nil, Nat.mod_eq_of_lt (show a.startBlock < 256 ^ 4 from hstart),
    Nat.mod_eq_of_lt (show a.fragmentIndex < 256 ^ 4 from ha.fragmentIndex),
    Nat.mod_eq_of_lt (show a.fragmentOffset < 256 ^ 4 from ha.fragmentOffset),
    Nat.mod_eq_of_lt (show a.byteSize < 256 ^ 4 from hsize)] at hfields
  have htype : (a.readBase t).type = .file := hw
  rw [readInodeBody, htype, List.append_assoc, hfields] at hread
  obtain ⟨-, hmode, huid, hgid, htime, hnumber⟩ := sameBase_readBase ha t
  refine ⟨_, hread, ⟨hw.symm, hmode, huid, hgid, htime, hnumber⟩, ?_, fun _ => ?_, ?_, ?_, ?_⟩
  · exact (xattr_of_plain (by rw [hw]; decide)).symm
  · have hblocks : t.bytes.drop (blockPtr + 32) = _ := drop_blockPtr hdrop
    refine ⟨rfl, rfl, rfl, rfl, ?_⟩
    show readFields _ (t.bytes.drop (blockPtr + 32)) = _
    rw [hblocks]
    exact readFields_blockList ha.blockList rest
  all_goals simp [hw]

theorem readInode4_lreg (ha : a.Fits) (hw : a.writtenType = .lreg)
    (hrecord : createInode a = some record) (h : t.Holds startBlock offset record) :
    ∃ i, readInode4 t startBlock offset = some i ∧ SameInode t a i := by
  rw [createInode, hw] at hrecord
  simp only [Option.some.injEq, packFields_append, List.append_assoc] at hrecord
  subst hrecord
  obtain ⟨blockPtr, rest, hread, hdrop⟩ := readInode4_of_holds h
  have hfields := readFields_packFields [(8, a.startBlock), (8, a.byteSize),
    (8, if a.sparse ≠ 0 ∧ a.sparse ≥ a.byteSize then a.byteSize - 1 else a.sparse), (4, a.nlink),
    (4, a.fragmentIndex), (4, a.fragmentOffset), (4, a.xattr)]
    (packFields (a.blockList.map fun b => (4, b)) ++ rest)
  have hwide : (2 : ℕ) ^ 63 < 256 ^ 8 := by decide
  simp only [List.map_cons, List.map_nil, Nat.mod_eq_of_lt (ha.startBlock.trans hwide),
    Nat.mod_eq_of_lt (ha.byteSize.trans hwide),
    Nat.mod_eq_of_lt (show a.fragmentIndex < 256 ^ 4 from ha.fragmentIndex),
    Nat.mod_eq_of_lt (show a.fragmentOffset < 256 ^ 4 from ha.fragmentOffset),
    Nat.mod_eq_of_lt (show a.xattr < 256 ^ 4 from ha.xattr)] at hfields
  have htype : (a.readBase t).type = .lreg := hw
  rw [readInodeBody, htype, List.append_assoc, hfields] at hread
  simp only [Option.bind_eq_bind, Option.bind_some, toInt64_of_lt ha.byteSize] at hread
  obtain ⟨-, hmode, huid, hgid, htime, hnumber⟩ := sameBase_readBase ha t
  refine ⟨_, hread, ⟨hw.symm, hmode, huid, hgid, htime, hnumber⟩, rfl, fun _ => ?_, ?_, ?_, ?_⟩
  · have hblocks : t.bytes.drop (blockPtr + 56) = _ := drop_blockPtr hdrop
    refine ⟨rfl, rfl, rfl, rfl, ?_⟩
    show readFields _ (t.bytes.drop (blockPtr + 56)) = _
    rw [hblocks]
    exact readFields_blockList ha.blockList rest
  all_goals simp [hw]

theorem readInode4_dir (ha : a.Fits) (hw : a.writtenType = .dir)
    (hrecord : createInode a = some record) (h : t.Holds startBlock offset record) :
    ∃ i, readInode4 t startBlock offset = some i ∧ SameInode t a i := by
  rw [createInode, hw] at hrecord
  simp only [Option.some.injEq, packFields_append] at hrecord
  subst hrecord
  obtain ⟨blockPtr, rest, hread, -⟩ := readInode4_of_holds h
  have hfields := readFields_packFields [(4, a.startBlock), (4, a.directoryCount + 2),
    (2, a.byteSize), (2, a.offset), (4, a.parentInode)] rest
  simp only [List.map_cons, List.map_nil,
    Nat.mod_eq_of_lt (show a.startBlock < 256 ^ 4 from ha.dirStart (.inl hw)),
    Nat.mod_eq_of_lt (show a.byteSize < 256 ^ 2 from ha.dirSize hw),
    Nat.mod_eq_of_lt (show a.offset < 256 ^ 2 from ha.offset)] at hfields
  have htype : (a.readBase t).type = .dir := hw
  rw [readInodeBody, htype, hfields] at hread
  obtain ⟨-, hmode, huid, hgid, htime, hnumber⟩ := sameBase_readBase ha t
  refine ⟨_, hread, ⟨hw.symm, hmode, huid, hgid, htime, hnumber⟩, ?_, ?_, fun _ => ⟨rfl, rfl, rfl⟩, ?_,
    ?_⟩
  · exact (xattr_of_plain (by rw [hw]; decide)).symm
  all_goals simp [hw]

theorem readInode4_ldir (ha : a.Fits) (hw : a.writtenType = .ldir)
    (hrecord : createInode a = some record) (h : t.Holds startBlock offset record) :
    ∃ i, readInode4 t startBlock offset = some i ∧ SameInode t a i := by
  rw [createInode, hw] at hrecord
  simp only at hrecord
  split at hrecord
  case isTrue => cases hrecord
  case isFalse hsize =>
      simp only [Option.some.injEq, packFields_append, List.append_assoc] at hrecord
      subst hrecord
      obtain ⟨blockPtr, rest, hread, -⟩ := readInode4_of_holds h
      have hfields := readFields_packFields [(4, a.directoryCount + 2), (4, a.byteSize),
        (4, a.startBlock), (4, a.parentInode), (2, a.dirIndex.length), (2, a.offset), (4, a.xattr)]
        (packDirIndex a.dirIndex ++ rest)
      simp only [List.map_cons, List.map_nil,
        Nat.mod_eq_of_lt (show a.startBlock < 256 ^ 4 from ha.dirStart (.inr hw)),
        Nat.mod_eq_of_lt (show a.byteSize < 256 ^ 4 by omega),
        Nat.mod_eq_of_lt (show a.offset < 256 ^ 2 from ha.offset),
        Nat.mod_eq_of_lt (show a.xattr < 256 ^ 4 from ha.xattr)] at hfields
      have htype : (a.readBase t).type = .ldir := hw
      rw [readInodeBody, htype, List.append_assoc, hfields] at hread
      obtain ⟨-, hmode, huid, hgid, htime, hnumber⟩ := sameBase_readBase ha t
      refine ⟨_, hread, ⟨hw.symm, hmode, huid, hgid, htime, hnumber⟩, rfl, ?_,
        fun _ => ⟨rfl, rfl, rfl⟩, ?_, ?_⟩
      all_goals simp [hw]

/-- A device number is stored in 32 bits. -/
theorem encodeRdev_lt (major minor : ℕ) : encodeRdev major minor < 256 ^ 4 :=
  Nat.mod_lt _ (by decide)

theorem readInode4_device (ha : a.Fits)
    (hw : a.writtenType = .blkdev ∨ a.writtenType = .chrdev)
    (hrecord : createInode a = some record) (h : t.Holds startBlock offset record) :
    ∃ i, readInode4 t startBlock offset = some i ∧ SameInode t a i := by
  have hcreate : createInode a = some (packFields a.baseFields ++ packFields [(4, a.nlink),
      (4, encodeRdev a.stat.major a.stat.minor)]) := by
    rcases hw with hw | hw <;> rw [createInode, hw] <;> simp only [packFields_append]
  cases hcreate.symm.trans hrecord
  obtain ⟨blockPtr, rest, hread, -⟩ := readInode4_of_holds h
  have hfields := readFields_packFields [(4, a.nlink), (4, encodeRdev a.stat.major a.stat.minor)] rest
  simp only [List.map_cons, List.map_nil, Nat.mod_eq_of_lt (encodeRdev_lt _ _)] at hfields
  obtain ⟨-, hmode, huid, hgid, htime, hnumber⟩ := sameBase_readBase ha t
  have hbody : readInodeBody t (a.readBase t) blockPtr (packFields [(4, a.nlink),
      (4, encodeRdev a.stat.major a.stat.minor)] ++ rest) =
        some { a.readBase t with data := (encodeRdev a.stat.major a.stat.minor : ℕ) } := by
    have htype : (a.readBase t).type = a.writtenType := rfl
    rcases hw with hw | hw <;> rw [hw] at htype <;> simp [readInodeBody, htype, hfields]
  refine ⟨_, hread.trans hbody, ⟨rfl, hmode, huid, hgid, htime, hnumber⟩, ?_, ?_, ?_, ?_, fun _ => rfl⟩
  · refine (xattr_of_plain ?_).symm
    rcases hw with hw | hw <;> rw [hw] <;> decide
  all_goals rcases hw with hw | hw <;> simp [hw]

theorem readInode4_ldevice (ha : a.Fits)
    (hw : a.writtenType = .lblkdev ∨ a.writtenType = .lchrdev)
    (hrecord : createInode a = some record) (h : t.Holds startBlock offset record) :
    ∃ i, readInode4 t startBlock offset = some i ∧ SameInode t a i := by
  have hcreate : createInode a = some (packFields a.baseFields ++ packFields [(4, a.nlink),
      (4, encodeRdev a.stat.major a.stat.minor), (4, a.xattr)]) := by
    rcases hw with hw | hw <;> rw [createInode, hw] <;> simp only [packFields_append]
  cases hcreate.symm.trans hrecord
  obtain ⟨blockPtr, rest, hread, -⟩ := readInode4_of_holds h
  have hfields := readFields_packFields [(4, a.nlink), (4, encodeRdev a.stat.major a.stat.minor),
    (4, a.xattr)] rest
  simp only [List.map_cons, List.map_nil, Nat.mod_eq_of_lt (encodeRdev_lt _ _),
    Nat.mod_eq_of_lt (show a.xattr < 256 ^ 4 from ha.xattr)] at hfields
  obtain ⟨-, hmode, huid, hgid, htime, hnumber⟩ := sameBase_readBase ha t
  have hbody : readInodeBody t (a.readBase t) blockPtr (packFields [(4, a.nlink),
      (4, encodeRdev a.stat.major a.stat.minor), (4, a.xattr)] ++ rest) =
        some { a.readBase t with data := (encodeRdev a.stat.major a.stat.minor : ℕ), xattr := a.xattr } := by
    have htype : (a.readBase t).type = a.writtenType := rfl
    rcases hw with hw | hw <;> rw [hw] at htype <;> simp [readInodeBody, htype, hfields]
  refine ⟨_, hread.trans hbody, ⟨rfl, hmode, huid, hgid, htime, hnumber⟩, rfl, ?_, ?_, ?_, fun _ => rfl⟩
  all_goals rcases hw with hw | hw <;> simp [hw]

theorem readInode4_ipc (ha : a.Fits) (hw : a.writtenType = .fifo ∨ a.writtenType = .socket)
    (hrecord : createInode a = some record) (h : t.Holds startBlock offset record) :
    ∃ i, readInode4 t startBlock offset = some i ∧ SameInode t a i := by
  have hcreate : createInode a = some (packFields a.baseFields ++ packFields [(4, a.nlink)]) := by
    rcases hw with hw | hw <;> rw [createInode, hw] <;> simp only [packFields_append]
  cases hcreate.symm.trans hrecord
  obtain ⟨blockPtr, rest, hread, -⟩ := readInode4_of_holds h
  obtain ⟨-, hmode, huid, hgid, htime, hnumber⟩ := sameBase_readBase ha t
  have hbody : readInodeBody t (a.readBase t) blockPtr (packFields [(4, a.nlink)] ++ rest) =
      some (a.readBase t) := by
    have htype : (a.readBase t).type = a.writtenType := rfl
    rcases hw with hw | hw <;> rw [hw] at htype <;> simp [readInodeBody, htype]
  refine ⟨_, hread.trans hbody, ⟨rfl, hmode, huid, hgid, htime, hnumber⟩, ?_, ?_, ?_, ?_, ?_⟩
  · refine (xattr_of_plain ?_).symm
    rcases hw with hw | hw <;> rw [hw] <;> decide
  all_goals rcases hw with hw | hw <;> simp [hw]

theorem readInode4_lipc (ha : a.Fits) (hw : a.writtenType = .lfifo ∨ a.writtenType = .lsocket)
    (hrecord : createInode a = some record) (h : t.Holds startBlock offset record) :
    ∃ i, readInode4 t startBlock offset = some i ∧ SameInode t a i := by
  have hcreate : createInode a = some (packFields a.baseFields ++
      packFields [(4, a.nlink), (4, a.xattr)]) := by
    rcases hw with hw | hw <;> rw [createInode, hw] <;> simp only [packFields_append]
  cases hcreate.symm.trans hrecord
  obtain ⟨blockPtr, rest, hread, -⟩ := readInode4_of_holds h
  have hfields := readFields_packFields [(4, a.nlink), (4, a.xattr)] rest
  simp only [List.map_cons, List.map_nil,
    Nat.mod_eq_of_lt (show a.xattr < 256 ^ 4 from ha.xattr)] at hfields
  obtain ⟨-, hmode, huid, hgid, htime, hnumber⟩ := sameBase_readBase ha t
  have hbody : readInodeBody t (a.readBase t) blockPtr (packFields [(4, a.nlink), (4, a.xattr)] ++ rest) =
      some { a.readBase t with xattr := a.xattr } := by
    have htype : (a.readBase t).type = a.writtenType := rfl
    rcases hw with hw | hw <;> rw [hw] at htype <;> simp [readInodeBody, htype, hfields]
  refine ⟨_, hread.trans hbody, ⟨rfl, hmode, huid, hgid, htime, hnumber⟩, rfl, ?_, ?_, ?_, ?_⟩
  all_goals rcases hw with hw | hw <;> simp [hw]

/-! ## Symbolic links -/

/-- The text of a link is shorter than its buffer, and has no zero byte. -/
theorem symlinkText_fits (ha : a.Fits) :
    a.symlinkText.length < 2 ^ 16 ∧ (0 : UInt8) ∉ a.symlinkText := by
  rw [InodeArgs.symlinkText]
  cases htext : a.readlink with
  | none => exact ⟨by decide, List.not_mem_nil⟩
  | some text =>
      obtain ⟨hlen, hzero⟩ := ha.readlink text htext
      simp only
      split
      · exact ⟨by decide, List.not_mem_nil⟩
      · exact ⟨by omega, hzero⟩

/-- The text of a link is read up to its end. -/
theorem takeWhile_symlinkText (ha : a.Fits) (rest : List UInt8) :
    ((a.symlinkText ++ rest).take a.symlinkText.length).takeWhile (· ≠ 0) = a.symlinkText := by
  rw [List.take_left]
  rw [List.takeWhile_eq_self_iff]
  intro b hb
  have hne : b ≠ 0 := fun hzero => (symlinkText_fits ha).2 (hzero ▸ hb)
  simpa using hne

theorem readInode4_symlink (ha : a.Fits) (hw : a.writtenType = .symlink)
    (hrecord : createInode a = some record) (h : t.Holds startBlock offset record) :
    ∃ i, readInode4 t startBlock offset = some i ∧ SameInode t a i := by
  rw [createInode, hw] at hrecord
  simp only [Option.some.injEq, packFields_append, List.append_assoc] at hrecord
  subst hrecord
  obtain ⟨blockPtr, rest, hread, -⟩ := readInode4_of_holds h
  have hlen : a.symlinkText.length < 256 ^ 4 := (symlinkText_fits ha).1.trans (by decide)
  have hfields := readFields_packFields [(4, a.nlink), (4, a.symlinkText.length)]
    (a.symlinkText ++ rest)
  simp only [List.map_cons, List.map_nil, Nat.mod_eq_of_lt hlen] at hfields
  have hdrop : (packFields [(4, a.nlink), (4, a.symlinkText.length)] ++ (a.symlinkText ++ rest)).drop 8
      = a.symlinkText ++ rest := List.drop_left' (length_packFields _)
  have hshort : ¬ ((a.symlinkText ++ rest).length < a.symlinkText.length ∧
      (0 : UInt8) ∉ a.symlinkText ++ rest) := by
    rw [List.length_append]
    omega
  have htype : (a.readBase t).type = .symlink := hw
  rw [readInodeBody, htype, List.append_assoc, hfields, hdrop] at hread
  simp only [Option.bind_eq_bind, Option.bind_some, if_neg hshort, reduceCtorEq, if_false,
    takeWhile_symlinkText ha rest] at hread
  obtain ⟨-, hmode, huid, hgid, htime, hnumber⟩ := sameBase_readBase ha t
  refine ⟨_, hread, ⟨hw.symm, hmode, huid, hgid, htime, hnumber⟩, ?_, ?_, ?_, fun _ => rfl, ?_⟩
  · exact (xattr_of_plain (by rw [hw]; decide)).symm
  all_goals simp [hw]

theorem readInode4_lsymlink (ha : a.Fits) (hw : a.writtenType = .lsymlink)
    (hrecord : createInode a = some record) (h : t.Holds startBlock offset record) :
    ∃ i, readInode4 t startBlock offset = some i ∧ SameInode t a i := by
  rw [createInode, hw] at hrecord
  simp only [Option.some.injEq, packFields_append, List.append_assoc] at hrecord
  subst hrecord
  obtain ⟨blockPtr, rest, hread, -⟩ := readInode4_of_holds h
  have hlen : a.symlinkText.length < 256 ^ 4 := (symlinkText_fits ha).1.trans (by decide)
  have hfields := readFields_packFields [(4, a.nlink), (4, a.symlinkText.length)]
    (a.symlinkText ++ (packFields [(4, a.xattr)] ++ rest))
  simp only [List.map_cons, List.map_nil, Nat.mod_eq_of_lt hlen] at hfields
  have hxattr := readFields_packFields [(4, a.xattr)] rest
  simp only [List.map_cons, List.map_nil,
    Nat.mod_eq_of_lt (show a.xattr < 256 ^ 4 from ha.xattr)] at hxattr
  have hdrop : (packFields [(4, a.nlink), (4, a.symlinkText.length)] ++
      (a.symlinkText ++ (packFields [(4, a.xattr)] ++ rest))).drop 8
      = a.symlinkText ++ (packFields [(4, a.xattr)] ++ rest) := List.drop_left' (length_packFields _)
  have hshort : ¬ ((a.symlinkText ++ (packFields [(4, a.xattr)] ++ rest)).length <
      a.symlinkText.length ∧ (0 : UInt8) ∉ a.symlinkText ++ (packFields [(4, a.xattr)] ++ rest)) := by
    rw [List.length_append]
    omega
  have htype : (a.readBase t).type = .lsymlink := hw
  rw [readInodeBody, htype, List.append_assoc, List.append_assoc, hfields, hdrop] at hread
  simp only [Option.bind_eq_bind, Option.bind_some, if_neg hshort, if_true, List.drop_left, hxattr,
    List.head?_cons, takeWhile_symlinkText ha] at hread
  obtain ⟨-, hmode, huid, hgid, htime, hnumber⟩ := sameBase_readBase ha t
  refine ⟨_, hread, ⟨hw.symm, hmode, huid, hgid, htime, hnumber⟩, rfl, ?_, ?_, fun _ => rfl, ?_⟩
  all_goals simp [hw]

/-- **A record is read back as what was written**, whatever its type. -/
theorem readInode4_same (ha : a.Fits) (hrecord : createInode a = some record)
    (h : t.Holds startBlock offset record) :
    ∃ i, readInode4 t startBlock offset = some i ∧ SameInode t a i := by
  cases hw : a.writtenType with
  | dir => exact readInode4_dir ha hw hrecord h
  | file => exact readInode4_file ha hw hrecord h
  | symlink => exact readInode4_symlink ha hw hrecord h
  | blkdev => exact readInode4_device ha (.inl hw) hrecord h
  | chrdev => exact readInode4_device ha (.inr hw) hrecord h
  | fifo => exact readInode4_ipc ha (.inl hw) hrecord h
  | socket => exact readInode4_ipc ha (.inr hw) hrecord h
  | ldir => exact readInode4_ldir ha hw hrecord h
  | lreg => exact readInode4_lreg ha hw hrecord h
  | lsymlink => exact readInode4_lsymlink ha hw hrecord h
  | lblkdev => exact readInode4_ldevice ha (.inl hw) hrecord h
  | lchrdev => exact readInode4_ldevice ha (.inr hw) hrecord h
  | lfifo => exact readInode4_lipc ha (.inl hw) hrecord h
  | lsocket => exact readInode4_lipc ha (.inr hw) hrecord h

/-! ## References -/

/-- `get_inode` for a record, with the `MKINODE` at the end of `create_inode`: full blocks are written,
and the reference is to the end of the cache. `inode_bytes` is an `unsigned int`. -/
def getInode (comp : Compressor) (noI : Bool) (s : BlockStream) (record : List UInt8) :
    ℕ × BlockStream :=
  let s := flushTable comp noI s
  ((s.written.length % 2 ^ 32) <<< 16 + s.cache.length, s.append record)

/-- Calls of `create_inode` one after the other, and the references they return. -/
def createInodes (comp : Compressor) (noI : Bool) :
    BlockStream → List InodeCall → Option (List ℕ × BlockStream)
  | s, [] => some ([], s)
  | s, call :: calls =>
    (createInode call.args).bind fun record =>
      let r := getInode comp noI s record
      (createInodes comp noI r.2 calls).map fun rs => (r.1 :: rs.1, rs.2)

/-- `SQUASHFS_INODE_BLK` -/
def inodeBlk (i : ℕ) : ℕ := (i >>> 16) % 2 ^ 32

/-- `SQUASHFS_INODE_OFFSET` -/
def inodeOffset (i : ℕ) : ℕ := i &&& 0xffff

theorem inodeOffset_ref {offset : ℕ} (start : ℕ) (h : offset < 2 ^ 16) :
    inodeOffset (start <<< 16 + offset) = offset := by
  have hmask : (0xffff : ℕ) = 2 ^ 16 - 1 := rfl
  rw [inodeOffset, hmask, Nat.and_two_pow_sub_one_eq_mod, Nat.shiftLeft_eq]
  omega

theorem inodeBlk_ref {start offset : ℕ} (hstart : start < 2 ^ 32) (h : offset < 2 ^ 16) :
    inodeBlk (start <<< 16 + offset) = start := by
  rw [inodeBlk, Nat.shiftRight_eq_div_pow, Nat.shiftLeft_eq]
  omega

/-- The record of a call is in the stream, and the reference is its place. -/
def Recorded (enc : List UInt8 → List UInt8) (blocks : List (List UInt8)) (data : List UInt8)
    (call : InodeCall) (i : ℕ) : Prop :=
  ∃ record start offset o, createInode call.args = some record ∧ record ≠ [] ∧
    i = (start % 2 ^ 32) <<< 16 + offset ∧ PlaceOf enc metadataSize blocks start offset o ∧
      HoldsAt data o record

variable {comp : Compressor} {noI : Bool} {s s' : BlockStream} {blocks : List (List UInt8)}
  {data : List UInt8} {call : InodeCall} {calls : List InodeCall} {i : ℕ} {refs : List ℕ}

/-- What is recorded stays recorded. -/
theorem Recorded.append {enc : List UInt8 → List UInt8} (h : Recorded enc blocks data call i)
    (moreBlocks : List (List UInt8)) (more : List UInt8) :
    Recorded enc (blocks ++ moreBlocks) (data ++ more) call i := by
  obtain ⟨record, start, offset, o, hcreate, hne, hi, hplace, hholds⟩ := h
  exact ⟨record, start, offset, o, hcreate, hne, hi, hplace.append moreBlocks, hholds.append hne more⟩

/-- A record is never empty: it begins with its base header. -/
theorem createInode_ne_nil (h : createInode a = some record) : record ≠ [] := by
  have hbase : ∀ fs rest, packFields (a.baseFields ++ fs) ++ rest ≠ [] := by
    intro fs rest
    refine List.append_ne_nil_of_left_ne_nil (List.ne_nil_of_length_pos ?_) _
    rw [packFields_append, List.length_append, length_packFields]
    exact Nat.add_pos_left (by simp [InodeArgs.baseFields]) _
  have hbase' : ∀ fs, packFields (a.baseFields ++ fs) ≠ [] := by
    intro fs
    have := hbase fs []
    rwa [List.append_nil] at this
  rw [createInode] at h
  cases hw : a.writtenType <;> rw [hw] at h <;> simp only at h
  case ldir =>
      split at h
      · cases h
      · cases h
        exact hbase _ _
  case lsymlink =>
      cases h
      rw [List.append_assoc]
      exact hbase _ _
  all_goals
    cases h
    first | exact hbase _ _ | exact hbase' _

/-- **One call**: its record comes at the end of the stream, at the place that its reference says. -/
theorem getInode_recorded (h : s.Holds (encodeMetadata comp noI) metadataSize blocks data)
    (hcreate : createInode call.args = some record) :
    ∃ more, (getInode comp noI s record).2.Holds (encodeMetadata comp noI) metadataSize
        (blocks ++ more) (data ++ record) ∧
      Recorded (encodeMetadata comp noI) (blocks ++ more) (data ++ record) call
        (getInode comp noI s record).1 := by
  obtain ⟨more, hflush⟩ := h.flush s.cache.length
  have hcache := BlockStream.length_cache_flush (encodeMetadata comp noI)
    metadataSize_pos (le_refl s.cache.length)
  refine ⟨more, hflush.append record, record, _, _, data.length, hcreate, createInode_ne_nil hcreate, rfl,
    hflush.place_end hcache, ?_⟩
  have hend := holdsAt_append data record []
  rwa [List.append_nil] at hend

/-- **A run of calls**: all records are in the stream at the places of their references. -/
theorem createInodes_recorded (hrun : createInodes comp noI s calls = some (refs, s'))
    (h : s.Holds (encodeMetadata comp noI) metadataSize blocks data) :
    ∃ moreBlocks records, calls.mapM (fun call => createInode call.args) = some records ∧
      s'.Holds (encodeMetadata comp noI) metadataSize (blocks ++ moreBlocks) (data ++ records.flatten) ∧
      List.Forall₂ (Recorded (encodeMetadata comp noI) (blocks ++ moreBlocks) (data ++ records.flatten))
        calls refs := by
  induction calls generalizing s blocks data refs with
  | nil =>
      cases hrun
      refine ⟨[], [], rfl, ?_, .nil⟩
      rwa [List.append_nil, List.flatten_nil, List.append_nil]
  | cons call calls ih =>
      rw [createInodes, Option.bind_eq_some_iff] at hrun
      obtain ⟨record, hcreate, hrun⟩ := hrun
      rw [Option.map_eq_some_iff] at hrun
      obtain ⟨⟨refs, s'⟩, hrun, hpair⟩ := hrun
      cases hpair
      obtain ⟨more, hnext, hfirst⟩ := getInode_recorded h hcreate
      obtain ⟨moreBlocks, records, hrecords, hholds, hall⟩ := ih hrun hnext
      refine ⟨more ++ moreBlocks, record :: records, ?_, ?_, ?_⟩
      · rw [List.mapM_cons, hcreate, hrecords]
        rfl
      · rwa [List.append_assoc, List.append_assoc] at hholds
      · rw [List.append_assoc, List.append_assoc] at hall
        have hlater := hfirst.append moreBlocks records.flatten
        rw [List.append_assoc, List.append_assoc] at hlater
        exact .cons hlater hall

/-- The run ends if all records can be made. -/
theorem exists_createInodes (comp : Compressor) (noI : Bool) (s : BlockStream)
    {records : List (List UInt8)}
    (h : calls.mapM (fun call => createInode call.args) = some records) :
    ∃ refs s', createInodes comp noI s calls = some (refs, s') := by
  induction calls generalizing s records with
  | nil => exact ⟨[], s, rfl⟩
  | cons call calls ih =>
      rw [List.mapM_cons] at h
      obtain ⟨record, hcreate, h⟩ := Option.bind_eq_some_iff.mp h
      obtain ⟨records, hrecords, -⟩ := Option.bind_eq_some_iff.mp h
      obtain ⟨refs, s', hrun⟩ := ih (s := (getInode comp noI s record).2) hrecords
      refine ⟨(getInode comp noI s record).1 :: refs, s', ?_⟩
      rw [createInodes, hcreate, Option.bind_some]
      dsimp only
      rw [hrun, Option.map_some]

/-! ## Finding the records -/

/-- A table that was read, with what `read_inode_4` needs besides. -/
def UncompressedTable.inodeTable (u : UncompressedTable) (start : ℕ) (idTable : ℕ → ℕ)
    (blockSize blockLog : ℕ) : InodeTable where
  bytes := u.bytes
  lookupEntry := lookupEntry u.entries
  inodeTableStart := start
  idTable := idTable
  blockSize := blockSize
  blockLog := blockLog

/-- **The inode records of a run are found again**: all references are to offsets in a metadata block,
and wherever the table is written, it is read, and each reference leads to the inode of its own call. -/
def InodesFound (comp : Compressor) (noI : Bool) (calls : List InodeCall) : Prop :=
  ∀ refs s, createInodes comp noI {} calls = some (refs, s) →
    (∀ i ∈ refs, inodeOffset i < metadataSize) ∧
    ∀ img start, HoldsAt img start (writeTable comp noI s) →
      ∃ u, uncompressTable comp img start (start + (writeTable comp noI s).length) = some u ∧
        ∀ idTable blockSize blockLog, let t := u.inodeTable start idTable blockSize blockLog
          List.Forall₂ (fun call i => ∃ inode, readInode4 t (inodeBlk i) (inodeOffset i) = some inode ∧
            SameInode t call.args inode) calls refs

/-- The references are to offsets in a metadata block. -/
theorem Recorded.offset_lt {enc : List UInt8 → List UInt8} (h : Recorded enc blocks data call i) :
    inodeOffset i < metadataSize := by
  obtain ⟨record, start, offset, o, -, -, rfl, hplace, -⟩ := h
  obtain ⟨k, -, -, -, hoffset⟩ := hplace
  have hsmall : metadataSize < 2 ^ 16 := by decide
  rwa [inodeOffset_ref _ (hoffset.trans hsmall)]

/-- If the table can be read, its blocks begin below `2 ^ 32`. -/
theorem blockStart_lt_of_fits (h : s.Holds (encodeMetadata comp noI) metadataSize blocks data)
    (hfits : data.length ≤ 2 ^ 31 - metadataSize) (k : ℕ) :
    blockStart (encodeMetadata comp noI) blocks k < 2 ^ 32 := by
  have hfull := length_flatten_full h.full
  have hdata : blocks.flatten.length ≤ data.length := by
    rw [← h.data, List.length_append]
    exact Nat.le_add_right _ _
  have henc : ∀ b ∈ (blocks.take k).map (encodeMetadata comp noI), b.length ≤ 2 + metadataSize := by
    intro e he
    obtain ⟨b, hb, rfl⟩ := List.mem_map.mp he
    have hb := h.full b (List.mem_of_mem_take hb)
    have hlen := length_encodeMetadata_le comp noI b
    rwa [hb] at hlen
  have hlen := length_flatten_le henc
  have htake : (blocks.take k).length ≤ blocks.length := List.length_take_le' _ _
  rw [blockStart, List.flatMap_def]
  rw [List.length_map] at hlen
  unfold metadataSize at *
  omega

/-- A record that is in the stream is in the table that is read, at the address of its reference. -/
theorem Recorded.readInode4 (h : s.Holds (encodeMetadata comp noI) metadataSize blocks data)
    (hfits : data.length ≤ 2 ^ 31 - metadataSize)
    (hi : Recorded (encodeMetadata comp noI) blocks data call i) {start : ℕ} (idTable : ℕ → ℕ)
    (blockSize blockLog : ℕ) {t : InodeTable}
    (ht : t = UncompressedTable.inodeTable ⟨(blockEntries (encodeMetadata comp noI) start 0
      (cutBlocks metadataSize data.length data)).reverse, data⟩ start idTable blockSize blockLog) :
    ∃ inode, Squashfs.readInode4 t (inodeBlk i) (inodeOffset i) = some inode ∧
      SameInode t call.args inode := by
  obtain ⟨record, blk, offset, o, hcreate, hne, rfl, hplace, hholds⟩ := hi
  have ho : o < data.length := by
    have hle := hholds.length_le hne
    have hpos := List.length_pos_iff.mpr hne
    omega
  obtain ⟨bytes, hlookup, hbytes⟩ := lookupEntry_slot h hplace (lt_slots ho) start
  obtain ⟨k, -, hblk, -, hoffset⟩ := hplace
  have hblkLt : blk < 2 ^ 32 := hblk ▸ blockStart_lt_of_fits h hfits k
  have hoffsetLt : offset < 2 ^ 16 := hoffset.trans (by decide)
  rw [Nat.mod_eq_of_lt hblkLt, inodeBlk_ref hblkLt hoffsetLt, inodeOffset_ref _ hoffsetLt]
  obtain ⟨rest, hrest⟩ := hholds
  refine readInode4_same call.fits hcreate ⟨bytes, ?_, rest, ?_⟩
  · rw [ht]
    exact hlookup
  · rw [ht, hbytes]
    exact hrest.symm

/-- A table of more bytes is not read. -/
theorem InodesFound.length_le (hcomp : comp.Lossless) (hfound : InodesFound comp noI calls)
    {records : List (List UInt8)}
    (hrecords : calls.mapM (fun call => createInode call.args) = some records) :
    records.flatten.length ≤ 2 ^ 31 - metadataSize := by
  obtain ⟨refs, s, hrun⟩ := exists_createInodes comp noI {} hrecords
  obtain ⟨-, hread⟩ := hfound refs s hrun
  obtain ⟨moreBlocks, records', hrecords', hholds, -⟩ :=
    createInodes_recorded hrun BlockStream.holds_empty
  cases hrecords.symm.trans hrecords'
  have himg := holdsAt_self (writeTable comp noI s)
  obtain ⟨u, hu, -⟩ := hread (writeTable comp noI s) 0 himg
  have htable := uncompressTable_of_holds hcomp hholds himg
  rw [hu, List.nil_append] at htable
  by_contra hbig
  rw [if_neg hbig] at htable
  cases htable

/-- **When the inode records are found again**: if all of them together take no more than
`2 ^ 31 - 8192` bytes. From there on the `int`s that `uncompress_inode_table` counts the bytes in do not
hold the size of its buffer. -/
theorem inodesFound_iff (comp : Compressor) (hcomp : comp.Lossless) (noI : Bool)
    (calls : List InodeCall) : InodesFound comp noI calls ↔
      ∀ records, calls.mapM (fun call => createInode call.args) = some records →
        records.flatten.length ≤ 2 ^ 31 - metadataSize := by
  constructor
  · intro hfound records hrecords
    exact hfound.length_le hcomp hrecords
  · intro hsize refs s hrun
    obtain ⟨moreBlocks, records, hrecords, hholds, hall⟩ :=
      createInodes_recorded hrun BlockStream.holds_empty
    rw [List.nil_append, List.nil_append] at hholds hall
    have hfits := hsize records hrecords
    refine ⟨fun i hi => ?_, fun img start himg => ?_⟩
    · obtain ⟨j, hj, rfl⟩ := List.getElem_of_mem hi
      exact (hall.get (by rw [hall.length_eq]; exact hj) hj).offset_lt
    · have hread := uncompressTable_of_holds hcomp hholds himg
      rw [if_pos hfits] at hread
      refine ⟨_, hread, fun idTable blockSize blockLog => hall.imp fun call i hi => ?_⟩
      exact hi.readInode4 hholds hfits idTable blockSize blockLog rfl

/-- The call for a symbolic link without extended attributes. -/
def linkCall (text : List UInt8) (h : text.length ≤ 65536 ∧ (0 : UInt8) ∉ text) : InodeCall where
  args := { type := .symlink, readlink := some text }
  fits := by
    constructor
    case readlink =>
        intro text' htext
        cases htext
        exact h
    all_goals simp [InodeArgs.writtenType, isXattr, invalidXattr, invalidFrag]

/-- Two links, to `/` and to `a`. -/
theorem inodesFound_links : InodesFound storeOnly false
    [linkCall [47] (by decide), linkCall [97] (by decide)] := by
  refine (inodesFound_iff storeOnly storeOnly_lossless false _).mpr fun records hrecords => ?_
  have hsize : (([linkCall [47] (by decide), linkCall [97] (by decide)].mapM fun call =>
      createInode call.args).all fun records => records.flatten.length ≤ 50) = true := by
    decide +kernel
  rw [hrecords, Option.all_some, decide_eq_true_eq] at hsize
  exact hsize.trans (by decide)

theorem mapM_createInode_replicate {record : List UInt8} (h : createInode call.args = some record) (n : ℕ) :
    (List.replicate n call).mapM (fun call => createInode call.args) =
      some (List.replicate n record) := by
  induction n with
  | zero => rfl
  | succ n ih =>
      rw [List.replicate_succ, List.mapM_cons, h, ih]
      rfl

/-- A name of 4095 bytes can be read. -/
theorem longName_fits : (List.replicate 4095 (97 : UInt8)).length ≤ 65536 ∧
    (0 : UInt8) ∉ List.replicate 4095 (97 : UInt8) := by
  rw [List.length_replicate, List.mem_replicate]
  decide

/-- **Links to names of 4095 bytes**: half a million of them are not found again. -/
theorem not_inodesFound_links :
    ¬ ∀ comp noI calls, Compressor.Lossless comp → InodesFound comp noI calls := by
  intro hall
  obtain ⟨record, hcreate⟩ : ∃ record, createInode (linkCall _ longName_fits).args = some record :=
    ⟨_, rfl⟩
  have hlen : record.length = 4119 := by
    have hsize : (createInode (linkCall _ longName_fits).args).map List.length = some 4119 := by
      decide +kernel
    rw [hcreate] at hsize
    exact Option.some.inj hsize
  have hfound := hall storeOnly false (List.replicate (2 ^ 19) (linkCall _ longName_fits))
    storeOnly_lossless
  have hsize := hfound.length_le storeOnly_lossless (mapM_createInode_replicate hcreate _)
  rw [List.length_flatten, List.map_replicate, List.sum_replicate_nat, hlen] at hsize
  exact absurd hsize (by decide)

end FirmwareTools.Squashfs

import FirmwareTools.Bytes.Record

/-! # Inode records

The inode types of `squashfs_fs.h`, the fourteen kinds of inode record as `mksquashfs`'s
`create_inode` lays them out, and `unsquash-4.c`'s `read_inode_4`, which reads one back from the
inode table.

* **`InodeType.ofCode_code`** — the numbers of the types are distinct;
* **`readInode4_of_holds`** — the base header of a record is read back, and the rest of the record is
  read by the type that was written. -/

namespace FirmwareTools.Squashfs

/-! ## Types and constants -/

/-- The inode types, in the order of their numbers from `1` on. -/
inductive InodeType
  | dir | file | symlink | blkdev | chrdev | fifo | socket
  | ldir | lreg | lsymlink | lblkdev | lchrdev | lfifo | lsocket
  deriving DecidableEq, Repr

/-- The number of an inode type on disk. -/
def InodeType.code : InodeType → ℕ
  | .dir => 1 | .file => 2 | .symlink => 3 | .blkdev => 4 | .chrdev => 5 | .fifo => 6
  | .socket => 7 | .ldir => 8 | .lreg => 9 | .lsymlink => 10 | .lblkdev => 11 | .lchrdev => 12
  | .lfifo => 13 | .lsocket => 14

/-- The inode type with a number, if there is one. -/
def InodeType.ofCode : ℕ → Option InodeType
  | 1 => some .dir | 2 => some .file | 3 => some .symlink | 4 => some .blkdev
  | 5 => some .chrdev | 6 => some .fifo | 7 => some .socket | 8 => some .ldir
  | 9 => some .lreg | 10 => some .lsymlink | 11 => some .lblkdev | 12 => some .lchrdev
  | 13 => some .lfifo | 14 => some .lsocket | _ => none

@[simp] theorem InodeType.ofCode_code (t : InodeType) : InodeType.ofCode t.code = some t := by
  cases t <;> rfl

theorem InodeType.code_lt (t : InodeType) : t.code < 256 ^ 2 := by
  cases t <;> decide

/-- `SQUASHFS_INVALID_FRAG` -/
def invalidFrag : ℕ := 0xffffffff

/-- `SQUASHFS_INVALID_XATTR` -/
def invalidXattr : ℕ := 0xffffffff

/-- `IS_XATTR` -/
def isXattr (xattr : ℕ) : Bool := xattr != invalidXattr

/-- `SQUASHFS_MODE` -/
def squashfsMode (mode : ℕ) : ℕ := mode &&& 0xfff

/-! ## Writing a record -/

/-- What `create_inode` reads of a file's `struct stat`. -/
structure Stat where
  mode : ℕ := 0
  uid : ℕ := 0
  gid : ℕ := 0
  mtime : ℕ := 0
  major : ℕ := 0
  minor : ℕ := 0
  deriving DecidableEq, Repr

/-- An entry of a directory's index (`struct cached_dir_index`); the stored size is one less than the
length of the name. -/
structure DirIndex where
  index : ℕ
  startBlock : ℕ
  name : List UInt8
  deriving DecidableEq, Repr

/-- The arguments of `create_inode`, with what it looks up on the way: the indices `get_uid` and
`get_guid` return, the xattr id `read_xattrs` returns, and the text `readlink` returns (`none` for a
failure). -/
structure InodeArgs where
  type : InodeType
  stat : Stat := {}
  uidIndex : ℕ := 0
  gidIndex : ℕ := 0
  inodeNumber : ℕ := 1
  dirInodeNo : ℕ := 0
  nlink : ℕ := 1
  xattr : ℕ := invalidXattr
  byteSize : ℕ := 0
  startBlock : ℕ := 0
  offset : ℕ := 0
  blockList : List ℕ := []
  fragmentIndex : ℕ := invalidFrag
  fragmentOffset : ℕ := 0
  sparse : ℕ := 0
  directoryCount : ℕ := 0
  parentInode : ℕ := 0
  dirIsLdir : Bool := false
  dirIndex : List DirIndex := []
  readlink : Option (List UInt8) := none

/-- The type `create_inode` writes: the extended one where the plain record has no room for what has
to be stored. -/
def InodeArgs.writtenType (a : InodeArgs) : InodeType :=
  match a.type with
  | .file =>
    if a.nlink > 1 ∨ a.byteSize ≥ 2 ^ 32 ∨ a.startBlock ≥ 2 ^ 32 ∨ a.sparse ≠ 0 ∨
        isXattr a.xattr = true then .lreg
    else .file
  | .dir => if a.dirIsLdir || isXattr a.xattr then .ldir else .dir
  | .symlink => if isXattr a.xattr then .lsymlink else .symlink
  | .blkdev => if isXattr a.xattr then .lblkdev else .blkdev
  | .chrdev => if isXattr a.xattr then .lchrdev else .chrdev
  | .fifo => if isXattr a.xattr then .lfifo else .fifo
  | .socket => if isXattr a.xattr then .lsocket else .socket
  | t => t

/-- The base header, common to all records. -/
def InodeArgs.baseFields (a : InodeArgs) : List (ℕ × ℕ) :=
  let inodeNumber := if a.type = .dir then a.inodeNumber else a.inodeNumber + a.dirInodeNo
  [(2, a.writtenType.code), (2, squashfsMode a.stat.mode), (2, a.uidIndex), (2, a.gidIndex),
    (4, a.stat.mtime), (4, inodeNumber)]

/-- A device number as `create_inode` truncates and splits it: bits `0`–`7` of the minor number, then
the major number, then the rest of the minor number. The arithmetic is that of a 32-bit word. -/
def encodeRdev (major minor : ℕ) : ℕ :=
  let major := if major > 0xfff then major &&& 0xfff else major
  let minor := if minor > 0xfffff then minor &&& 0xfffff else minor
  ((major <<< 8) ||| (minor &&& 0xff) ||| ((minor &&& 0xffffff00) <<< 12)) % 2 ^ 32

/-- The text of a symbolic link, empty when it could not be read or is too long. -/
def InodeArgs.symlinkText (a : InodeArgs) : List UInt8 :=
  match a.readlink with
  | some text => if text.length = 65536 then [] else text
  | none => []

/-- The entries of a directory index behind an extended directory record. -/
def packDirIndex (index : List DirIndex) : List UInt8 :=
  index.flatMap fun e =>
    packFields [(4, e.index), (4, e.startBlock), (4, e.name.length - 1)] ++ e.name

/-- `create_inode` (`mksquashfs.c`): the bytes of the record it appends to the inode table. The only
failure is a directory that is too big. -/
def createInode (a : InodeArgs) : Option (List UInt8) :=
  let header (fs : List (ℕ × ℕ)) := packFields (a.baseFields ++ fs)
  let blocks := packFields (a.blockList.map fun b => (4, b))
  match a.writtenType with
  | .file => some (header [(4, a.startBlock), (4, a.fragmentIndex), (4, a.fragmentOffset),
      (4, a.byteSize)] ++ blocks)
  | .lreg =>
    let sparse := if a.sparse ≠ 0 ∧ a.sparse ≥ a.byteSize then a.byteSize - 1 else a.sparse
    some (header [(8, a.startBlock), (8, a.byteSize), (8, sparse), (4, a.nlink),
      (4, a.fragmentIndex), (4, a.fragmentOffset), (4, a.xattr)] ++ blocks)
  | .ldir =>
    if a.byteSize ≥ 2 ^ 27 then none
    else some (header [(4, a.directoryCount + 2), (4, a.byteSize), (4, a.startBlock),
      (4, a.parentInode), (2, a.dirIndex.length), (2, a.offset), (4, a.xattr)] ++
      packDirIndex a.dirIndex)
  | .dir => some (header [(4, a.startBlock), (4, a.directoryCount + 2), (2, a.byteSize),
      (2, a.offset), (4, a.parentInode)])
  | .chrdev | .blkdev =>
    some (header [(4, a.nlink), (4, encodeRdev a.stat.major a.stat.minor)])
  | .lchrdev | .lblkdev =>
    some (header [(4, a.nlink), (4, encodeRdev a.stat.major a.stat.minor), (4, a.xattr)])
  | .symlink => some (header [(4, a.nlink), (4, a.symlinkText.length)] ++ a.symlinkText)
  | .lsymlink => some (header [(4, a.nlink), (4, a.symlinkText.length)] ++ a.symlinkText ++
      packFields [(4, a.xattr)])
  | .fifo | .socket => some (header [(4, a.nlink)])
  | .lfifo | .lsocket => some (header [(4, a.nlink), (4, a.xattr)])

/-! ## Reading a record -/

/-- `struct inode` of `unsquashfs.h`. `blockPtr` is the position in the inode table behind the
record, `fragment` the unsigned value that the `int` of the source holds. -/
structure Inode where
  blocks : Int := 0
  blockPtr : ℕ := 0
  data : Int := 0
  fragment : ℕ := 0
  fragBytes : Int := 0
  gid : ℕ
  inodeNumber : ℕ
  mode : ℕ
  offset : ℕ := 0
  start : ℕ := 0
  symlink : List UInt8 := []
  time : ℕ
  type : InodeType
  uid : ℕ
  sparse : Bool := false
  xattr : ℕ := invalidXattr
  deriving DecidableEq, Repr

/-- What `read_inode_4` works on: the uncompressed inode table with the positions of its metadata
blocks, the id table, and the superblock's fields. -/
structure InodeTable where
  bytes : List UInt8
  lookupEntry : ℕ → Option ℕ
  inodeTableStart : ℕ
  idTable : ℕ → ℕ
  blockSize : ℕ
  blockLog : ℕ

/-- `lookup_type[]`: the `S_IF…` bits of an inode type. -/
def lookupType : InodeType → ℕ
  | .dir | .ldir => 0o040000
  | .file | .lreg => 0o100000
  | .symlink | .lsymlink => 0o120000
  | .blkdev | .lblkdev => 0o060000
  | .chrdev | .lchrdev => 0o020000
  | .fifo | .lfifo => 0o010000
  | .socket | .lsocket => 0o140000

/-- A value stored into an `int`. -/
def toInt32 (x : Int) : Int := Int.bmod x (2 ^ 32)

/-- A value read as a `long long`. -/
def toInt64 (x : ℕ) : Int := Int.bmod x (2 ^ 64)

theorem toInt64_of_lt {n : ℕ} (h : n < 2 ^ 63) : toInt64 n = n := by
  have hbound : (n : Int) < 2 ^ 63 := by exact_mod_cast h
  have hmod : (n : Int) % ((2 ^ 64 : ℕ) : Int) = n := by
    refine Int.emod_eq_of_lt (by omega) ?_
    norm_num
    omega
  unfold toInt64 Int.bmod
  rw [hmod, if_pos]
  norm_num
  omega

theorem toInt32_of_lt {n : ℕ} (h : n < 2 ^ 31) : toInt32 n = n := by
  have hbound : (n : Int) < 2 ^ 31 := by exact_mod_cast h
  have hmod : (n : Int) % ((2 ^ 32 : ℕ) : Int) = n := by
    refine Int.emod_eq_of_lt (by omega) ?_
    norm_num
    omega
  unfold toInt32 Int.bmod
  rw [hmod, if_pos]
  norm_num
  omega

/-- `x >> n` on a `long long`. -/
def shiftRight64 (x : Int) (n : ℕ) : Int := x / 2 ^ n

/-- The number of blocks of a file with the given size and fragment. -/
def InodeTable.blocks (t : InodeTable) (fileSize : Int) (fragment : ℕ) : Int :=
  toInt32 (if fragment = invalidFrag then shiftRight64 (fileSize + t.blockSize - 1) t.blockLog
    else shiftRight64 fileSize t.blockLog)

/-- The number of bytes of a file in its fragment. -/
def InodeTable.fragBytes (t : InodeTable) (fileSize : Int) (fragment : ℕ) : Int :=
  if fragment = invalidFrag then 0 else toInt32 (Int.tmod fileSize t.blockSize)

/-- The part of `read_inode_4` before its `switch`: the base header. An unknown type ends the
program there. -/
def readBaseHeader (t : InodeTable) (record : List UInt8) : Option Inode := do
  let [type, mode, uid, guid, mtime, inodeNumber] ← readFields [2, 2, 2, 2, 4, 4] record | none
  let type ← InodeType.ofCode type
  some { uid := t.idTable uid, gid := t.idTable guid, mode := lookupType type ||| mode, type
         time := mtime, inodeNumber }

/-- The `switch` of `read_inode_4`, on the bytes behind the base header. -/
def readInodeBody (t : InodeTable) (i : Inode) (blockPtr : ℕ) (record : List UInt8) :
    Option Inode :=
  match i.type with
  | .dir => do
    let [start, _, size, offset, _] ← readFields [4, 4, 2, 2, 4] record | none
    some { i with data := size, offset, start }
  | .ldir => do
    let [_, size, start, _, _, offset, xattr] ← readFields [4, 4, 4, 4, 2, 2, 4] record | none
    some { i with data := size, offset, start, xattr }
  | .file => do
    let [start, fragment, offset, size] ← readFields [4, 4, 4, 4] record | none
    some { i with
      data := size, fragBytes := t.fragBytes size fragment, fragment, offset
      blocks := t.blocks size fragment, start, blockPtr := blockPtr + 32 }
  | .lreg => do
    let [start, size, sparse, _, fragment, offset, xattr] ←
      readFields [8, 8, 8, 4, 4, 4, 4] record | none
    let size := toInt64 size
    some { i with
      data := size, fragBytes := t.fragBytes size fragment, fragment, offset
      blocks := t.blocks size fragment, start, sparse := sparse != 0
      blockPtr := blockPtr + 56, xattr }
  | .symlink | .lsymlink => do
    let [_, size] ← readFields [4, 4] record | none
    let text := record.drop 8
    -- `strncpy` stops at a NUL, or reads past the table
    if text.length < size ∧ (0 : UInt8) ∉ text then none
    else
      let xattr ← if i.type = .lsymlink then (readFields [4] (text.drop size)).bind List.head?
        else some invalidXattr
      some { i with symlink := (text.take size).takeWhile (· ≠ 0), data := size, xattr }
  | .blkdev | .chrdev => do
    let [_, rdev] ← readFields [4, 4] record | none
    some { i with data := rdev }
  | .lblkdev | .lchrdev => do
    let [_, rdev, xattr] ← readFields [4, 4, 4] record | none
    some { i with data := rdev, xattr }
  | .fifo | .socket => some i
  | .lfifo | .lsocket => do
    let [_, xattr] ← readFields [4, 4] record | none
    some { i with xattr }

/-- `read_inode_4` -/
def readInode4 (t : InodeTable) (startBlock offset : ℕ) : Option Inode := do
  let bytes ← t.lookupEntry (t.inodeTableStart + startBlock)
  let blockPtr := bytes + offset
  let record := t.bytes.drop blockPtr
  let i ← readBaseHeader t record
  readInodeBody t i blockPtr (record.drop 16)

/-! ## Reading what was written -/

/-- The inode table holds a record at an address that `read_inode_4` can be given. -/
structure InodeTable.Holds (t : InodeTable) (startBlock offset : ℕ) (record : List UInt8) :
    Prop where
  addr : ∃ bytes, t.lookupEntry (t.inodeTableStart + startBlock) = some bytes ∧
    ∃ rest, t.bytes.drop (bytes + offset) = record ++ rest

/-- What the base header of a record is read back as. -/
def InodeArgs.readBase (a : InodeArgs) (t : InodeTable) : Inode where
  uid := t.idTable (a.uidIndex % 256 ^ 2)
  gid := t.idTable (a.gidIndex % 256 ^ 2)
  mode := lookupType a.writtenType ||| squashfsMode a.stat.mode % 256 ^ 2
  type := a.writtenType
  time := a.stat.mtime % 256 ^ 4
  inodeNumber := (if a.type = .dir then a.inodeNumber else a.inodeNumber + a.dirInodeNo) % 256 ^ 4

theorem readBaseHeader_baseFields (t : InodeTable) (a : InodeArgs) (rest : List UInt8) :
    readBaseHeader t (packFields a.baseFields ++ rest) = some (a.readBase t) := by
  have hread := readFields_packFields a.baseFields rest
  have hwidths : a.baseFields.map Prod.fst = [2, 2, 2, 2, 4, 4] := rfl
  rw [hwidths] at hread
  have hcode : InodeType.ofCode (a.writtenType.code % 256 ^ 2) = some a.writtenType := by
    rw [Nat.mod_eq_of_lt a.writtenType.code_lt, InodeType.ofCode_code]
  rw [readBaseHeader, hread]
  simp only [InodeArgs.baseFields, List.map_cons, List.map_nil, Option.bind_eq_bind,
    Option.bind_some, hcode]
  rfl

/-- The blocks behind a record are read back. -/
theorem readFields_blockList {blockList : List ℕ} (h : ∀ b ∈ blockList, b < 2 ^ 32)
    (rest : List UInt8) : readFields (List.replicate blockList.length 4)
      (packFields (blockList.map fun b => (4, b)) ++ rest) = some blockList := by
  have hread := readFields_packFields (blockList.map fun b => (4, b)) rest
  have hwidths : (blockList.map fun b => ((4, b) : ℕ × ℕ)).map Prod.fst =
      List.replicate blockList.length 4 := by
    rw [List.map_map]
    exact List.map_const' ..
  have hvalues : (blockList.map fun b => ((4, b) : ℕ × ℕ)).map (fun f => f.2 % 256 ^ f.1) =
      blockList := by
    rw [List.map_map]
    exact (List.map_congr_left fun b hb => Nat.mod_eq_of_lt (h b hb)).trans (List.map_id _)
  rwa [hwidths, hvalues] at hread

/-- **Reading a record**: the base header as it was written, then the rest of the record by the type
that was written. -/
theorem readInode4_of_holds {t : InodeTable} {startBlock offset : ℕ} {a : InodeArgs}
    {body : List UInt8} (h : t.Holds startBlock offset (packFields a.baseFields ++ body)) :
    ∃ blockPtr rest, readInode4 t startBlock offset
        = readInodeBody t (a.readBase t) blockPtr (body ++ rest) ∧
      t.bytes.drop blockPtr = packFields a.baseFields ++ body ++ rest := by
  obtain ⟨bytes, hlookup, rest, hdrop⟩ := h.addr
  refine ⟨bytes + offset, rest, ?_, hdrop⟩
  have hlen : (packFields a.baseFields).length = 16 := by
    rw [length_packFields]
    rfl
  simp only [readInode4, hlookup, Option.bind_eq_bind, Option.bind_some, hdrop, List.append_assoc,
    readBaseHeader_baseFields, List.drop_left' hlen]

end FirmwareTools.Squashfs

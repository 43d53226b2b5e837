import FirmwareTools.Squashfs.Inode
import Mathlib.Tactic.IntervalCases

/-! # Extracting one inode

`create_inode` of `unsquashfs.c` makes the file that an inode describes. Its system calls are
recorded one by one; whether each succeeds is up to the system.

* **`decodeRdev_encodeRdev`** — what of a device number survives the record;
* **`deviceRoundTrip_iff`** — a device node comes back with its type, major and minor exactly when
  both numbers are below 256 and it is not a character device with extended attributes. -/

namespace FirmwareTools.Squashfs

/-- A pathname, as bytes without the terminating NUL. -/
abbrev Path := List UInt8

/-- A `dev_t`, as `makedev` composes it and `major` and `minor` take it apart. -/
structure DevT where
  major : ℕ
  minor : ℕ
  deriving DecidableEq, Repr

/-- The `S_IF…` type handed to `mknod`. -/
inductive NodeType
  | chr | blk | fifo
  deriving DecidableEq, Repr

/-- The calls `create_inode` makes. -/
inductive Action
  | link (old new : Path)
  | unlink (path : Path)
  | symlink (target path : Path)
  | writeXattr (path : Path) (xattr : ℕ)
  | lchown (path : Path) (uid gid : ℕ)
  | mknod (path : Path) (type : NodeType) (dev : DevT)
  | setAttributes (path : Path) (mode uid gid time xattr : ℕ)
  | writeFile (inode : Inode) (path : Path)
  deriving DecidableEq, Repr

/-- The switches of `unsquashfs` that `create_inode` reads. -/
structure ExtractOptions where
  force : Bool := false
  rootProcess : Bool := true

/-- The device number that `create_inode` takes out of an inode's `data`. -/
def decodeRdev (data : Int) : DevT :=
  ⟨((data / 2 ^ 8) % 256).toNat, (data % 256).toNat⟩

/-- `unlink(pathname)` when files are overwritten. -/
def unlinkIfForced (opts : ExtractOptions) (path : Path) : List Action :=
  if opts.force then [.unlink path] else []

/-- The `mknod` cases of `create_inode`: the attributes are set if the node could be made. -/
def makeNode (opts : ExtractOptions) (ok : Action → Bool) (path : Path) (i : Inode)
    (type : NodeType) (dev : DevT) : List Action :=
  let node := Action.mknod path type dev
  let attributes := Action.setAttributes path i.mode i.uid i.gid i.time i.xattr
  unlinkIfForced opts path ++ node :: if ok node then [attributes] else []

/-- `create_inode` (`unsquashfs.c`): the calls it makes, whether it returns `TRUE`, and the table of
the inodes that exist already, by which later hard links are made. `ok` says which calls succeed. -/
def extractInode (opts : ExtractOptions) (ok : Action → Bool) (created : ℕ → Option Path)
    (path : Path) (i : Inode) : List Action × Bool × (ℕ → Option Path) :=
  match created i.inodeNumber with
  | some old =>
    let link := Action.link old path
    (unlinkIfForced opts path ++ [link], ok link, created)
  | none =>
    let created' := Function.update created i.inodeNumber (some path)
    match i.type with
    | .file | .lreg => ([.writeFile i path], true, created')
    | .symlink | .lsymlink =>
      let symlink := Action.symlink i.symlink path
      let owner := if opts.rootProcess then [Action.lchown path i.uid i.gid] else []
      (unlinkIfForced opts path ++
        symlink :: if ok symlink then .writeXattr path i.xattr :: owner else [], true, created')
    | .blkdev | .chrdev | .lblkdev | .lchrdev =>
      let type := if i.type = .chrdev then NodeType.chr else .blk
      (if opts.rootProcess then makeNode opts ok path i type (decodeRdev i.data) else [], true,
        created')
    | .fifo | .lfifo => (makeNode opts ok path i .fifo ⟨0, 0⟩, true, created')
    | .socket | .lsocket => ([], true, created')
    | .dir | .ldir => ([], false, created)

/-- The arguments of the `mknod` calls among some calls. -/
def mknodCalls (actions : List Action) : List (NodeType × DevT) :=
  actions.filterMap fun
    | .mknod _ type dev => some (type, dev)
    | _ => none

/-! ## Device numbers -/

/-- The lowest two bytes of a split device number: the low byte of the minor number, then the low
byte of the major number. The bits moved up by 12 come from bit 8 on, so they stay above. -/
theorem testBit_splitRdev {major minor i : ℕ} (hi : i < 16) :
    (((major <<< 8) ||| (minor &&& 0xff) ||| ((minor &&& 0xffffff00) <<< 12)) % 2 ^ 32).testBit i
      = if i < 8 then minor.testBit i else major.testBit (i - 8) := by
  rw [Nat.testBit_mod_two_pow, Nat.testBit_or, Nat.testBit_or, Nat.testBit_shiftLeft,
    Nat.testBit_shiftLeft, Nat.testBit_and, Nat.testBit_and]
  interval_cases i <;> simp [Nat.testBit]

/-- Truncating a number to at least a byte keeps its lowest byte. -/
theorem truncate_mod {n k : ℕ} (hk : 8 ≤ k) (bound : ℕ) :
    (if n > bound then n &&& (2 ^ k - 1) else n) % 2 ^ 8 = n % 2 ^ 8 := by
  split
  · rw [Nat.and_two_pow_sub_one_eq_mod, Nat.mod_mod_of_dvd _ (Nat.pow_dvd_pow 2 hk)]
  · rfl

/-- **What survives of a device number**: the decoder sees the lowest byte of each part. -/
theorem decodeRdev_encodeRdev (major minor : ℕ) :
    decodeRdev (encodeRdev major minor : ℕ) = ⟨major % 256, minor % 256⟩ := by
  have hmajor := truncate_mod (n := major) (k := 12) (by decide) 0xfff
  have hminor := truncate_mod (n := minor) (k := 20) (by decide) 0xfffff
  set rdev := encodeRdev major minor with hrdev
  rw [encodeRdev] at hrdev
  have hlow : rdev % 2 ^ 8 = minor % 2 ^ 8 := by
    rw [← hminor]
    apply Nat.eq_of_testBit_eq
    intro i
    rw [Nat.testBit_mod_two_pow, Nat.testBit_mod_two_pow]
    by_cases hi : i < 8
    · rw [hrdev, testBit_splitRdev (by omega), if_pos hi]
      rfl
    · simp [hi]
  have hhigh : rdev / 2 ^ 8 % 2 ^ 8 = major % 2 ^ 8 := by
    rw [← hmajor]
    apply Nat.eq_of_testBit_eq
    intro i
    rw [Nat.testBit_mod_two_pow, Nat.testBit_mod_two_pow, Nat.testBit_div_two_pow]
    by_cases hi : i < 8
    · rw [hrdev, testBit_splitRdev (by omega), if_neg (by omega), Nat.add_sub_cancel_right]
      rfl
    · simp [hi]
  simp only [decodeRdev, DevT.mk.injEq]
  omega

/-! ## The round trip of a device node -/

/-- A device node to be stored: its kind, and numbers within Linux's 12 and 20 bits. -/
structure DeviceNode where
  isChr : Bool
  major : ℕ
  minor : ℕ
  major_le : major ≤ 0xfff
  minor_le : minor ≤ 0xfffff

/-- The type `mksquashfs` passes to `create_inode` for a device node. -/
def DeviceNode.inodeType (d : DeviceNode) : InodeType := if d.isChr then .chrdev else .blkdev

/-- The `mknod` arguments that make the same node again. -/
def DeviceNode.mknod (d : DeviceNode) : NodeType × DevT :=
  (if d.isChr then .chr else .blk, ⟨d.major, d.minor⟩)

/-- The arguments of `create_inode` describe the device node `d`. -/
structure InodeArgs.Describes (a : InodeArgs) (d : DeviceNode) : Prop where
  type : a.type = d.inodeType
  major : a.stat.major = d.major
  minor : a.stat.minor = d.minor

/-- The record that is written for `a`, read back from wherever it stands in the inode table and
extracted by the superuser under a name that is no hard link, gives the `mknod` call `node`. -/
def DeviceRoundTrip (a : InodeArgs) (node : NodeType × DevT) : Prop :=
  ∃ record, createInode a = some record ∧
    ∀ (t : InodeTable) (startBlock offset : ℕ), t.Holds startBlock offset record →
      ∃ i, readInode4 t startBlock offset = some i ∧
        ∀ (opts : ExtractOptions) (ok : Action → Bool) (created : ℕ → Option Path) (path : Path),
          opts.rootProcess = true → created i.inodeNumber = none →
            mknodCalls (extractInode opts ok created path i).1 = [node]

/-- The type that is written for a device node. -/
theorem writtenType_device {a : InodeArgs} {d : DeviceNode} (h : a.Describes d) :
    a.writtenType = match d.isChr, isXattr a.xattr with
      | true, true => .lchrdev | true, false => .chrdev
      | false, true => .lblkdev | false, false => .blkdev := by
  rw [InodeArgs.writtenType, h.type, DeviceNode.inodeType]
  cases d.isChr <;> cases isXattr a.xattr <;> rfl

/-- The record of a device node: the base header, the number of links and the device number, and the
xattr id in an extended record. -/
theorem createInode_device {a : InodeArgs} {d : DeviceNode} (h : a.Describes d) :
    createInode a = some (packFields a.baseFields ++
      packFields ([(4, a.nlink), (4, encodeRdev d.major d.minor)] ++
        if isXattr a.xattr then [(4, a.xattr)] else [])) := by
  rw [createInode, writtenType_device h, h.major, h.minor]
  cases d.isChr <;> cases isXattr a.xattr <;> simp [packFields_append]

/-- A device number fits its field. -/
theorem encodeRdev_mod (major minor : ℕ) :
    encodeRdev major minor % 256 ^ 4 = encodeRdev major minor := by
  rw [encodeRdev]
  exact Nat.mod_mod _ _

/-- Reading the record of a device node back gives the type and the device number written. -/
theorem readInodeBody_device {a : InodeArgs} {d : DeviceNode} (h : a.Describes d) (t : InodeTable)
    (blockPtr : ℕ) (rest : List UInt8) :
    ∃ i, readInodeBody t (a.readBase t) blockPtr (packFields ([(4, a.nlink),
        (4, encodeRdev d.major d.minor)] ++ if isXattr a.xattr then [(4, a.xattr)] else []) ++ rest)
          = some i ∧
      i.type = a.writtenType ∧ i.data = (encodeRdev d.major d.minor : ℕ) := by
  have htype : (a.readBase t).type = a.writtenType := rfl
  have hwritten := writtenType_device h
  cases hx : isXattr a.xattr with
  | false =>
      have hread := readFields_packFields [(4, a.nlink), (4, encodeRdev d.major d.minor)] rest
      simp only [List.map_cons, List.map_nil, encodeRdev_mod] at hread
      rw [hx] at hwritten
      refine ⟨{ a.readBase t with data := (encodeRdev d.major d.minor : ℕ) }, ?_, rfl, rfl⟩
      rw [readInodeBody, htype]
      cases hchr : d.isChr <;> rw [hchr] at hwritten <;> simp [hread, htype, hwritten]
  | true =>
      have hread := readFields_packFields
        [(4, a.nlink), (4, encodeRdev d.major d.minor), (4, a.xattr)] rest
      simp only [List.map_cons, List.map_nil, encodeRdev_mod] at hread
      rw [hx] at hwritten
      refine ⟨{ a.readBase t with
        data := (encodeRdev d.major d.minor : ℕ), xattr := a.xattr % 256 ^ 4 }, ?_, rfl, rfl⟩
      rw [readInodeBody, htype]
      cases hchr : d.isChr <;> rw [hchr] at hwritten <;> simp [hread, htype, hwritten]

/-- Extracting a device inode makes one `mknod` call, with a character node only for the plain
character type. -/
theorem mknodCalls_extractInode {a : InodeArgs} {d : DeviceNode} (h : a.Describes d) {i : Inode}
    (htype : i.type = a.writtenType) {opts : ExtractOptions} {ok : Action → Bool}
    {created : ℕ → Option Path} {path : Path} (hroot : opts.rootProcess = true)
    (hnew : created i.inodeNumber = none) :
    mknodCalls (extractInode opts ok created path i).1
      = [(if d.isChr && !isXattr a.xattr then .chr else .blk, decodeRdev i.data)] := by
  have hmknod : ∀ type dev, mknodCalls (makeNode opts ok path i type dev) = [(type, dev)] := by
    intro type dev
    rw [makeNode, unlinkIfForced]
    cases opts.force <;> cases ok (.mknod path type dev) <;> simp [mknodCalls]
  rw [extractInode, hnew]
  rw [writtenType_device h] at htype
  cases hchr : d.isChr <;> cases hx : isXattr a.xattr <;> rw [hchr, hx] at htype <;>
    simp [htype, hroot, hmknod]

/-- **What comes back of a device node**: its record always gives one `mknod` call, of a block node
for extended records, with the lowest bytes of the numbers. -/
theorem deviceRoundTrip_unique {a : InodeArgs} {d : DeviceNode} (h : a.Describes d)
    (node : NodeType × DevT) :
    DeviceRoundTrip a node ↔ node = (if d.isChr && !isXattr a.xattr then .chr else .blk,
      ⟨d.major % 256, d.minor % 256⟩) := by
  rw [DeviceRoundTrip, createInode_device h]
  simp only [Option.some.injEq, exists_eq_left']
  constructor
  · intro hall
    -- a table that holds nothing but the record
    generalize hrecord : packFields a.baseFields ++ packFields ([(4, a.nlink),
      (4, encodeRdev d.major d.minor)] ++ if isXattr a.xattr then [(4, a.xattr)] else [])
      = record at hall
    let t : InodeTable :=
      { bytes := record, lookupEntry := fun _ => some 0, inodeTableStart := 0
        idTable := fun _ => 0, blockSize := 4096, blockLog := 12 }
    have hholds : t.Holds 0 0 record := ⟨0, rfl, [], by simp [t]⟩
    obtain ⟨i, hread, hmknod⟩ := hall t 0 0 hholds
    rw [← hrecord] at hholds
    obtain ⟨blockPtr, rest, hbody, -⟩ := readInode4_of_holds hholds
    obtain ⟨i', hi', htype, hdata⟩ := readInodeBody_device h t blockPtr rest
    rw [hread, hi', Option.some.injEq] at hbody
    rw [← hbody] at htype hdata
    have hcalls := hmknod {} (fun _ => true) (fun _ => none) [] rfl rfl
    rw [mknodCalls_extractInode h htype rfl rfl, hdata, decodeRdev_encodeRdev] at hcalls
    exact (List.head_eq_of_cons_eq hcalls).symm
  · rintro rfl t startBlock offset hholds
    obtain ⟨blockPtr, rest, hbody, -⟩ := readInode4_of_holds hholds
    obtain ⟨i, hi, htype, hdata⟩ := readInodeBody_device h t blockPtr rest
    refine ⟨i, hbody.trans hi, fun opts ok created path hroot hnew => ?_⟩
    rw [mknodCalls_extractInode h htype hroot hnew, hdata, decodeRdev_encodeRdev]

/-- **The device-node round trip**: the node comes back with its own type, major and minor exactly
when both numbers are below 256 and it is not a character device with extended attributes. -/
theorem deviceRoundTrip_iff {a : InodeArgs} {d : DeviceNode} (h : a.Describes d) :
    DeviceRoundTrip a d.mknod ↔
      d.major ≤ 0xff ∧ d.minor ≤ 0xff ∧ ¬ (d.isChr = true ∧ isXattr a.xattr = true) := by
  rw [deviceRoundTrip_unique h, DeviceNode.mknod, Prod.mk.injEq, DevT.mk.injEq]
  have htype : ((if d.isChr then NodeType.chr else .blk)
      = if d.isChr && !isXattr a.xattr then NodeType.chr else .blk) ↔
      ¬ (d.isChr = true ∧ isXattr a.xattr = true) := by
    cases d.isChr <;> cases isXattr a.xattr <;> decide
  rw [htype]
  constructor
  · rintro ⟨hx, hmajor, hminor⟩
    exact ⟨by omega, by omega, hx⟩
  · rintro ⟨hmajor, hminor, hx⟩
    exact ⟨hx, by omega, by omega⟩

/-- The block device 8:1 comes back as it was. -/
theorem deviceRoundTrip_sda1 :
    DeviceRoundTrip { type := .blkdev, stat := { major := 8, minor := 1 } } (.blk, ⟨8, 1⟩) :=
  (deviceRoundTrip_iff (d := ⟨false, 8, 1, by decide, by decide⟩) ⟨rfl, rfl, rfl⟩).mpr
    ⟨by decide, by decide, by decide⟩

/-- The block device 259:0 (an NVMe disk) comes back as 3:0. -/
theorem not_deviceRoundTrip_nvme :
    ¬ DeviceRoundTrip { type := .blkdev, stat := { major := 259, minor := 0 } }
      (.blk, ⟨259, 0⟩) := by
  let d : DeviceNode := ⟨false, 259, 0, by decide, by decide⟩
  rw [deviceRoundTrip_unique (d := d) ⟨rfl, rfl, rfl⟩]
  decide

end FirmwareTools.Squashfs

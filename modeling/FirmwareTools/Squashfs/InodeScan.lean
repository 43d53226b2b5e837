import FirmwareTools.Squashfs.InodeRoundTrip
import FirmwareTools.Squashfs.FileData

/-! # Scanning the inode table of an image

Before `mksquashfs` appends to an image it reads the inode table and goes through its records, to know
the files that are in the image already. Where a record ends is not stored: `scan_inode_table` computes
it from the record, and passes every regular file on to `add_file`.

* **`scanInode_record`** — the scan gets from a record to the next one, but not from that of a file
  without a fragment whose size is so close to `2 ^ 32` that rounding it up wraps around;
* **`inodesScanned_iff`** — the scan goes through all records exactly when there is no such file, and the
  table is not too big. -/

namespace FirmwareTools.Squashfs

/-! ## The scan -/

/-- A call of `add_file`. The number of blocks it is told is the length of the block list. -/
structure AddFile where
  start : Int
  fileSize : Int
  fileBytes : ℕ
  blockList : List ℕ
  fragment : ℕ
  offset : Int
  bytes : Int
  deriving DecidableEq, Repr

/-- Where a scan is, the positions of the records it has come across, the calls of `add_file`, and what
it counts. -/
structure InodeScan where
  cur : ℕ := 0
  visited : List ℕ := []
  added : List AddFile := []
  uncompressedFile : Int := 0
  uncompressedDirectory : ℕ := 0
  fileCount : ℕ := 0
  symCount : ℕ := 0
  devCount : ℕ := 0
  dirCount : ℕ := 0
  fifoCount : ℕ := 0
  sockCount : ℕ := 0

/-- What the two cases for regular files have in common, from the block list on. -/
def InodeScan.addFile (s : InodeScan) (table : List UInt8) (blockList : ℕ) (start fileSize blocks : Int)
    (fragment : ℕ) (offset fragBytes : Int) : Option InodeScan :=
  -- `malloc` fails
  if blocks < 0 then none
  else do
    let list ← readFields (List.replicate blocks.toNat 4) (table.drop blockList)
    some { s with
      cur := blockList + 4 * blocks.toNat
      added := s.added ++
        [⟨start, fileSize, (list.map compressedSizeBlock).sum, list, fragment, offset, fragBytes⟩]
      uncompressedFile := s.uncompressedFile + fileSize
      fileCount := s.fileCount + 1 }

/-- What the two cases for directories have in common. -/
def InodeScan.addDirectory (s : InodeScan) (directoryStartBlock startBlock fileSize cur : ℕ) :
    InodeScan :=
  { s with
    cur
    uncompressedDirectory := if startBlock < directoryStartBlock then
      (s.uncompressedDirectory + fileSize) % 2 ^ 32 else s.uncompressedDirectory
    dirCount := s.dirCount + 1 }

/-- The loop over the index of a directory. -/
def skipIndex (table : List UInt8) : ℕ → ℕ → Option ℕ
  | 0, cur => some cur
  | n + 1, cur => do
    let [_, _, size] ← readFields [4, 4, 4] (table.drop cur) | none
    skipIndex table n (cur + (12 + size + 1))

/-- The `switch` of `scan_inode_table`. The first of a record's bytes are read as the header of a plain
file, which has an `unsigned int` for its size; `body` is what is behind the base header. -/
def scanSwitch (blockLog directoryStartBlock : ℕ) (table body : List UInt8) (s : InodeScan)
    (type : InodeType) (start fragment offset size : ℕ) : Option InodeScan :=
  match type with
  | .file =>
    let fragBytes := if fragment = invalidFrag then 0 else toInt32 (size % 2 ^ blockLog : ℕ)
    let blocks := toInt32 (if fragment = invalidFrag
      then (((size + 2 ^ blockLog + (2 ^ 32 - 1)) % 2 ^ 32) >>> blockLog : ℕ)
      else (size >>> blockLog : ℕ))
    s.addFile table (s.cur + 32) start size blocks fragment (toInt32 offset) fragBytes
  | .lreg => do
    let [start, size, _, _, fragment, offset, _] ← readFields [8, 8, 8, 4, 4, 4, 4] body | none
    let size := toInt64 size
    let fragBytes := if fragment = invalidFrag then 0 else toInt32 (Int.tmod size (2 ^ blockLog : ℕ))
    let blocks := toInt32 (if fragment = invalidFrag
      then shiftRight64 (size + (2 ^ blockLog : ℕ) - 1) blockLog else shiftRight64 size blockLog)
    s.addFile table (s.cur + 56) (toInt64 start) size blocks fragment (toInt32 offset) fragBytes
  | .symlink | .lsymlink => do
    let [_, size] ← readFields [4, 4] body | none
    let xattr := if type = .lsymlink then 4 else 0
    some { s with cur := s.cur + 24 + size + xattr, symCount := s.symCount + 1 }
  | .dir => do
    let [start, _, size, _, _] ← readFields [4, 4, 2, 2, 4] body | none
    some (s.addDirectory directoryStartBlock start size (s.cur + 32))
  | .ldir => do
    let [_, size, start, _, count, _, _] ← readFields [4, 4, 4, 4, 2, 2, 4] body | none
    let cur ← skipIndex table count (s.cur + 40)
    some (s.addDirectory directoryStartBlock start size cur)
  | .blkdev | .chrdev => some { s with cur := s.cur + 24, devCount := s.devCount + 1 }
  | .lblkdev | .lchrdev => some { s with cur := s.cur + 28, devCount := s.devCount + 1 }
  | .fifo => some { s with cur := s.cur + 20, fifoCount := s.fifoCount + 1 }
  | .lfifo => some { s with cur := s.cur + 24, fifoCount := s.fifoCount + 1 }
  | .socket => some { s with cur := s.cur + 20, sockCount := s.sockCount + 1 }
  | .lsocket => some { s with cur := s.cur + 24, sockCount := s.sockCount + 1 }

/-- One round of the loop of `scan_inode_table`. -/
def scanInode (blockLog directoryStartBlock : ℕ) (table : List UInt8) (s : InodeScan) :
    Option InodeScan := do
  let record := table.drop s.cur
  let [type, _, _, _, _, _, start, fragment, offset, size] ←
    readFields [2, 2, 2, 2, 4, 4, 4, 4, 4, 4] record | none
  let type ← InodeType.ofCode type
  scanSwitch blockLog directoryStartBlock table (record.drop 16)
    { s with visited := s.visited ++ [s.cur] } type start fragment offset size

theorem skipIndex_le {table : List UInt8} {n cur cur' : ℕ} (h : skipIndex table n cur = some cur') :
    cur ≤ cur' := by
  induction n generalizing cur with
  | zero =>
      cases h
      exact le_refl _
  | succ n ih =>
      rw [skipIndex] at h
      simp only [Option.bind_eq_bind, Option.bind_eq_some_iff] at h
      obtain ⟨fields, -, h⟩ := h
      split at h
      · have := ih h
        omega
      · cases h

theorem InodeScan.addFile_cur {s s' : InodeScan} {table : List UInt8} {blockList fragment : ℕ}
    {start fileSize blocks offset fragBytes : Int}
    (h : s.addFile table blockList start fileSize blocks fragment offset fragBytes = some s') :
    blockList ≤ s'.cur ∧ s.added <+: s'.added := by
  rw [InodeScan.addFile] at h
  split at h
  · cases h
  · simp only [Option.bind_eq_bind, Option.bind_eq_some_iff, Option.some.injEq] at h
    obtain ⟨list, -, rfl⟩ := h
    exact ⟨Nat.le_add_right _ _, List.prefix_append _ _⟩

/-- A round goes forward, and takes no call of `add_file` back. -/
theorem scanSwitch_forward {blockLog directoryStartBlock start fragment offset size : ℕ}
    {table body : List UInt8} {s s' : InodeScan} {type : InodeType}
    (h : scanSwitch blockLog directoryStartBlock table body s type start fragment offset size =
      some s') : s.cur < s'.cur ∧ s.added <+: s'.added := by
  cases type <;> simp only [scanSwitch, Option.bind_eq_bind, Option.bind_eq_some_iff] at h
  case file =>
      obtain ⟨hcur, hadded⟩ := InodeScan.addFile_cur h
      exact ⟨by omega, hadded⟩
  case lreg =>
      obtain ⟨fields, -, h⟩ := h
      split at h
      · obtain ⟨hcur, hadded⟩ := InodeScan.addFile_cur h
        exact ⟨by omega, hadded⟩
      · cases h
  case ldir =>
      obtain ⟨fields, -, h⟩ := h
      split at h
      · rw [Option.bind_eq_some_iff] at h
        obtain ⟨cur, hskip, h⟩ := h
        have := skipIndex_le hskip
        cases h
        exact ⟨by dsimp only [InodeScan.addDirectory]; omega, List.prefix_refl _⟩
      · cases h
  case dir | symlink | lsymlink =>
      obtain ⟨fields, -, h⟩ := h
      split at h
      · cases h
        exact ⟨by simp only [InodeScan.addDirectory]; omega, List.prefix_refl _⟩
      · cases h
  all_goals
    cases h
    exact ⟨by simp, List.prefix_refl _⟩

theorem scanInode_forward {blockLog directoryStartBlock : ℕ} {table : List UInt8} {s s' : InodeScan}
    (h : scanInode blockLog directoryStartBlock table s = some s') :
    s.cur < s'.cur ∧ s.added <+: s'.added := by
  rw [scanInode] at h
  simp only [Option.bind_eq_bind, Option.bind_eq_some_iff] at h
  obtain ⟨fields, -, h⟩ := h
  split at h
  · obtain ⟨type, -, h⟩ := Option.bind_eq_some_iff.mp h
    obtain ⟨hcur, hadded⟩ := scanSwitch_forward h
    exact ⟨hcur, hadded⟩
  · cases h

/-- The loop of `scan_inode_table`. -/
def scanInodes (blockLog directoryStartBlock : ℕ) (table : List UInt8) (stop : ℕ) (s : InodeScan) :
    Option InodeScan :=
  if s.cur < stop then
    match _h : scanInode blockLog directoryStartBlock table s with
    | some s => scanInodes blockLog directoryStartBlock table stop s
    | none => none
  else some s
termination_by stop - s.cur
decreasing_by
  have := (scanInode_forward _h).1
  omega

/-- The start block of the root directory. -/
def rootStartBlock (record : List UInt8) : Option ℕ := do
  let [type, _, _, _, _, _] ← readFields [2, 2, 2, 2, 4, 4] record | none
  if type = InodeType.dir.code then do
    let [start, _, _, _, _] ← readFields [4, 4, 2, 2, 4] (record.drop 16) | none
    some start
  else do
    let [_, _, start, _, _, _, _] ← readFields [4, 4, 4, 4, 2, 2, 4] (record.drop 16) | none
    some start

/-- `scan_inode_table`: the size of the root directory's inode, and how the scan ends. The table is read
like any table of metadata; the block of the root inode is not known if none begins there. -/
def scanInodeTable (comp : Compressor) (blockLog : ℕ) (img : List UInt8)
    (start stop rootInodeStart rootInodeOffset : ℕ) : Option (ℕ × InodeScan) := do
  let u ← uncompressTable comp img start stop
  let rootInodeBlock ← lookupEntry u.entries rootInodeStart
  let bytes := rootInodeBlock + rootInodeOffset
  let directoryStartBlock ← rootStartBlock (u.bytes.drop bytes)
  let s ← scanInodes blockLog directoryStartBlock u.bytes bytes {}
  some (u.bytes.length - bytes, s)

/-! ## One record -/

/-- The number of blocks of a file with the given size and fragment. -/
def blocksOf (blockLog byteSize fragment : ℕ) : ℕ :=
  if fragment = invalidFrag then (byteSize + 2 ^ blockLog - 1) / 2 ^ blockLog
  else byteSize / 2 ^ blockLog

/-- The arguments of `create_inode` are such that the record can be told from its header, as its callers
see to: a file has as many blocks as its size and fragment say, and the names in the index of a
directory are those of its entries. -/
structure InodeArgs.Scannable (blockLog : ℕ) (a : InodeArgs) : Prop extends a.Fits where
  fragmentOffset_lt : a.fragmentOffset < 2 ^ 31
  blocks : a.writtenType = .file ∨ a.writtenType = .lreg →
    a.blockList.length = blocksOf blockLog a.byteSize a.fragmentIndex
  dirIndex : a.dirIndex.length < 2 ^ 16
  names : ∀ e ∈ a.dirIndex, e.name ≠ [] ∧ e.name.length ≤ 256

/-- The call of `add_file` for a regular file. -/
def InodeArgs.addFile (blockLog : ℕ) (a : InodeArgs) : AddFile where
  start := a.startBlock
  fileSize := a.byteSize
  fileBytes := (a.blockList.map compressedSizeBlock).sum
  blockList := a.blockList
  fragment := a.fragmentIndex
  offset := a.fragmentOffset
  bytes := if a.fragmentIndex = invalidFrag then 0 else a.byteSize % 2 ^ blockLog

/-- The calls of `add_file` for a record. -/
def InodeArgs.added (blockLog : ℕ) (a : InodeArgs) : List AddFile :=
  if a.writtenType = .file ∨ a.writtenType = .lreg then [a.addFile blockLog] else []

/-- The size of a plain file wraps around when it is rounded up to blocks. -/
def InodeArgs.Wraps (blockLog : ℕ) (a : InodeArgs) : Prop :=
  a.writtenType = .file ∧ a.fragmentIndex = invalidFrag ∧ 2 ^ 32 < a.byteSize + 2 ^ blockLog

section

variable {a : InodeArgs} {record rest table : List UInt8} {blockLog directoryStartBlock : ℕ}
  {s : InodeScan} {size fragment : ℕ}

/-- The base header of a record is read, with what is behind it taken as that of a plain file. -/
theorem scanInode_base {body : List UInt8} (hdrop : table.drop s.cur = packFields a.baseFields ++ body)
    (hbody : 16 ≤ body.length) :
    ∃ start fragment offset size, readFields [4, 4, 4, 4] body = some [start, fragment, offset, size] ∧
      scanInode blockLog directoryStartBlock table s = scanSwitch blockLog directoryStartBlock table body
        { s with visited := s.visited ++ [s.cur] } a.writtenType start fragment offset size := by
  obtain ⟨vs, hvs, hlength⟩ := exists_readFields (show [4, 4, 4, 4].sum ≤ body.length from hbody)
  obtain ⟨start, fragment, offset, size, rfl⟩ :
      ∃ start fragment offset size, vs = [start, fragment, offset, size] := by
    match vs, hlength with
    | [start, fragment, offset, size], _ => exact ⟨start, fragment, offset, size, rfl⟩
  have hbase := readFields_packFields a.baseFields body
  have hlen : (packFields a.baseFields).length = 16 := by
    rw [length_packFields]
    rfl
  have hread : readFields ([2, 2, 2, 2, 4, 4] ++ [4, 4, 4, 4]) (packFields a.baseFields ++ body) =
      some (a.baseFields.map (fun f => f.2 % 256 ^ f.1) ++ [start, fragment, offset, size]) := by
    rw [readFields_append, show [2, 2, 2, 2, 4, 4] = a.baseFields.map Prod.fst from rfl, hbase,
      Option.bind_some, List.drop_left' (by rw [hlen]; rfl), hvs]
    rfl
  have hcode : InodeType.ofCode (a.writtenType.code % 256 ^ 2) = some a.writtenType := by
    rw [Nat.mod_eq_of_lt a.writtenType.code_lt, InodeType.ofCode_code]
  obtain ⟨mode, uid, gid, mtime, number, hvalues⟩ : ∃ mode uid gid mtime number,
      a.baseFields.map (fun f => f.2 % 256 ^ f.1) =
        [a.writtenType.code % 256 ^ 2, mode, uid, gid, mtime, number] := ⟨_, _, _, _, _, rfl⟩
  refine ⟨start, fragment, offset, size, hvs, ?_⟩
  rw [hvalues] at hread
  rw [scanInode, hdrop]
  dsimp only [Option.bind_eq_bind]
  rw [show readFields [2, 2, 2, 2, 4, 4, 4, 4, 4, 4] (packFields a.baseFields ++ body) = _ from hread,
    Option.bind_some]
  dsimp only [List.cons_append, List.nil_append]
  rw [hcode, Option.bind_some, List.drop_left' hlen]

/-- The entries of a directory's index are skipped. -/
theorem skipIndex_packDirIndex {index : List DirIndex}
    (hnames : ∀ e ∈ index, e.name ≠ [] ∧ e.name.length ≤ 256) {cur : ℕ}
    (hdrop : table.drop cur = packDirIndex index ++ rest) :
    skipIndex table index.length cur = some (cur + (packDirIndex index).length) := by
  induction index generalizing cur with
  | nil => rfl
  | cons e index ih =>
      rw [List.forall_mem_cons] at hnames
      have hpos := List.length_pos_iff.mpr hnames.1.1
      have hsmall : (e.name.length - 1) % 256 ^ 4 = e.name.length - 1 := by
        refine Nat.mod_eq_of_lt ?_
        have := hnames.1.2
        omega
      have hcons : packDirIndex (e :: index) = packFields [(4, e.index), (4, e.startBlock),
          (4, e.name.length - 1)] ++ (e.name ++ packDirIndex index) := by
        rw [packDirIndex, List.flatMap_cons, List.append_assoc, packDirIndex]
      have hread := readFields_packFields [(4, e.index), (4, e.startBlock), (4, e.name.length - 1)]
        (e.name ++ packDirIndex index ++ rest)
      simp only [List.map_cons, List.map_nil, hsmall] at hread
      have hlen : (packFields [(4, e.index), (4, e.startBlock), (4, e.name.length - 1)]).length = 12 := by
        rw [length_packFields]
        rfl
      have hnext : table.drop (cur + (12 + (e.name.length - 1) + 1)) = packDirIndex index ++ rest := by
        rw [← List.drop_drop, hdrop, hcons, ← List.append_assoc (packFields _), List.append_assoc]
        apply List.drop_left'
        rw [List.length_append, hlen]
        omega
      rw [List.length_cons, skipIndex, hdrop, hcons, List.append_assoc, hread]
      dsimp only [Option.bind_eq_bind, Option.bind_some]
      rw [ih hnames.2 hnext, List.length_append, List.length_append, hlen]
      congr 1
      omega

/-- The block list of a file is read. -/
theorem InodeScan.addFile_eq {list : List ℕ} (hlist : ∀ b ∈ list, b < 2 ^ 32) {blockList fragment : ℕ}
    {start fileSize offset fragBytes : Int}
    (hdrop : table.drop blockList = packFields (list.map fun b => (4, b)) ++ rest) :
    s.addFile table blockList start fileSize list.length fragment offset fragBytes = some { s with
      cur := blockList + (packFields (list.map fun b => (4, b))).length
      added := s.added ++
        [⟨start, fileSize, (list.map compressedSizeBlock).sum, list, fragment, offset, fragBytes⟩]
      uncompressedFile := s.uncompressedFile + fileSize
      fileCount := s.fileCount + 1 } := by
  have hlength : (packFields (list.map fun b => (4, b))).length = 4 * list.length := by
    rw [length_packFields, List.map_map]
    simp [Function.comp_def, Nat.mul_comm]
  rw [InodeScan.addFile, if_neg (by omega), Int.toNat_natCast, hdrop, readFields_blockList hlist, hlength]
  rfl

/-- The number of blocks of a plain file, as it is computed. -/
theorem blocks_file (hsmall : blocksOf blockLog size fragment < 2 ^ 31) (hsize : size < 2 ^ 32)
    (hwrap : fragment = invalidFrag → size + 2 ^ blockLog ≤ 2 ^ 32) :
    toInt32 (if fragment = invalidFrag
        then (((size + 2 ^ blockLog + (2 ^ 32 - 1)) % 2 ^ 32) >>> blockLog : ℕ)
        else (size >>> blockLog : ℕ)) =
      blocksOf blockLog size fragment := by
  have hpos : 0 < 2 ^ blockLog := Nat.two_pow_pos _
  rw [blocksOf] at hsmall ⊢
  by_cases hfragment : fragment = invalidFrag
  · have hle := hwrap hfragment
    have hround : (size + 2 ^ blockLog + (2 ^ 32 - 1)) % 2 ^ 32 = size + 2 ^ blockLog - 1 := by omega
    rw [if_pos hfragment] at hsmall
    rw [if_pos hfragment, if_pos hfragment, hround, Nat.shiftRight_eq_div_pow]
    exact toInt32_of_lt hsmall
  · rw [if_neg hfragment] at hsmall
    rw [if_neg hfragment, if_neg hfragment, Nat.shiftRight_eq_div_pow]
    exact toInt32_of_lt hsmall

/-- The number of blocks of a long file, as it is computed. -/
theorem blocks_lreg (hsmall : blocksOf blockLog size fragment < 2 ^ 31) :
    toInt32 (if fragment = invalidFrag
        then shiftRight64 ((size : Int) + (2 ^ blockLog : ℕ) - 1) blockLog
        else shiftRight64 (size : Int) blockLog) =
      blocksOf blockLog size fragment := by
  have hpos : 0 < 2 ^ blockLog := Nat.two_pow_pos _
  have hcast : (size : Int) + (2 ^ blockLog : ℕ) - 1 = (size + 2 ^ blockLog - 1 : ℕ) := by
    push_cast [Nat.cast_sub (show 1 ≤ size + 2 ^ blockLog by omega)]
    ring
  have hshift : ∀ n : ℕ, shiftRight64 (n : Int) blockLog = (n / 2 ^ blockLog : ℕ) := by
    intro n
    rw [shiftRight64]
    norm_cast
  rw [blocksOf] at hsmall ⊢
  rw [hcast, hshift, hshift]
  split
  · rw [if_pos (by assumption)] at hsmall
    exact toInt32_of_lt hsmall
  · rw [if_neg (by assumption)] at hsmall
    exact toInt32_of_lt hsmall


/-- What a round of the scan does at a record: it goes on behind it, and adds the file. -/
def ScansTo (blockLog directoryStartBlock : ℕ) (table : List UInt8) (s : InodeScan) (a : InodeArgs)
    (length : ℕ) : Prop :=
  ∃ s', scanInode blockLog directoryStartBlock table s = some s' ∧ s'.cur = s.cur + length ∧
    s'.visited = s.visited ++ [s.cur] ∧ s'.added = s.added ++ a.added blockLog

/-- A value below `2 ^ 20` fits an `int`. -/
theorem toInt32_mod (hlog : blockLog ≤ 20) (size : ℕ) :
    toInt32 (size % 2 ^ blockLog : ℕ) = (size % 2 ^ blockLog : ℕ) := by
  refine toInt32_of_lt ((Nat.mod_lt _ (Nat.two_pow_pos _)).trans_le ?_)
  exact (Nat.pow_le_pow_right (by decide) hlog).trans (by decide)

theorem scansTo_file (hlog : blockLog ≤ 20) (ha : a.Scannable blockLog) (hw : a.writtenType = .file)
    (hrecord : createInode a = some record) (hdrop : table.drop s.cur = record ++ rest)
    (hsmall : a.blockList.length < 2 ^ 31) (hwrap : ¬ a.Wraps blockLog) :
    ScansTo blockLog directoryStartBlock table s a record.length := by
  obtain ⟨hsize, hstart⟩ := lt_of_writtenType_file hw
  rw [createInode, hw] at hrecord
  simp only [Option.some.injEq, packFields_append, List.append_assoc] at hrecord
  subst hrecord
  have hfields := readFields_packFields [(4, a.startBlock), (4, a.fragmentIndex),
    (4, a.fragmentOffset), (4, a.byteSize)] (packFields (a.blockList.map fun b => (4, b)) ++ rest)
  simp only [List.map_cons, List.map_nil, Nat.mod_eq_of_lt (show a.startBlock < 256 ^ 4 from hstart),
    Nat.mod_eq_of_lt (show a.fragmentIndex < 256 ^ 4 from ha.fragmentIndex),
    Nat.mod_eq_of_lt (show a.fragmentOffset < 256 ^ 4 from ha.fragmentOffset),
    Nat.mod_eq_of_lt (show a.byteSize < 256 ^ 4 from hsize)] at hfields
  have hheader : (packFields a.baseFields ++ packFields [(4, a.startBlock), (4, a.fragmentIndex),
      (4, a.fragmentOffset), (4, a.byteSize)]).length = 32 := by
    rw [List.length_append, length_packFields, length_packFields]
    rfl
  have hlist : table.drop (s.cur + 32) = packFields (a.blockList.map fun b => (4, b)) ++ rest := by
    rw [← List.drop_drop, hdrop, ← List.append_assoc, List.append_assoc]
    exact List.drop_left' hheader
  have hblocks := ha.blocks (Or.inl hw)
  rw [List.append_assoc, List.append_assoc] at hdrop
  obtain ⟨start, fragment, offset, size, hread, hscan⟩ := scanInode_base hdrop (by
    rw [List.length_append, length_packFields]
    exact Nat.le_add_right _ _)
  rw [hfields] at hread
  cases hread
  have hround : a.fragmentIndex = invalidFrag → a.byteSize + 2 ^ blockLog ≤ 2 ^ 32 :=
    fun hfragment => Nat.le_of_not_lt fun hlt => hwrap ⟨hw, hfragment, hlt⟩
  rw [hw, scanSwitch, blocks_file (by rwa [← hblocks]) hsize hround, ← hblocks,
    InodeScan.addFile_eq ha.blockList hlist] at hscan
  refine ⟨_, hscan, ?_, rfl, ?_⟩
  · rw [← List.append_assoc, List.length_append, hheader]
    dsimp only
    omega
  · rw [InodeArgs.added, if_pos (Or.inl hw), toInt32_mod hlog, toInt32_of_lt ha.fragmentOffset_lt]
    rw [InodeArgs.addFile]
    split <;> rfl

theorem scansTo_lreg (hlog : blockLog ≤ 20) (ha : a.Scannable blockLog) (hw : a.writtenType = .lreg)
    (hrecord : createInode a = some record) (hdrop : table.drop s.cur = record ++ rest)
    (hsmall : a.blockList.length < 2 ^ 31) :
    ScansTo blockLog directoryStartBlock table s a record.length := by
  rw [createInode, hw] at hrecord
  simp only [Option.some.injEq, packFields_append, List.append_assoc] at hrecord
  subst hrecord
  have hfields := readFields_packFields [(8, a.startBlock), (8, a.byteSize),
    (8, if a.sparse ≠ 0 ∧ a.sparse ≥ a.byteSize then a.byteSize - 1 else a.sparse), (4, a.nlink),
    (4, a.fragmentIndex), (4, a.fragmentOffset), (4, a.xattr)]
    (packFields (a.blockList.map fun b => (4, b)) ++ rest)
  have hwide : (2 : ℕ) ^ 63 < 256 ^ 8 := by decide
  have hheader : (packFields a.baseFields ++ packFields [(8, a.startBlock), (8, a.byteSize),
      (8, if a.sparse ≠ 0 ∧ a.sparse ≥ a.byteSize then a.byteSize - 1 else a.sparse), (4, a.nlink),
      (4, a.fragmentIndex), (4, a.fragmentOffset), (4, a.xattr)]).length = 56 := by
    rw [List.length_append, length_packFields, length_packFields]
    rfl
  simp only [List.map_cons, List.map_nil, Nat.mod_eq_of_lt (ha.startBlock.trans hwide),
    Nat.mod_eq_of_lt (ha.byteSize.trans hwide),
    Nat.mod_eq_of_lt (show a.fragmentIndex < 256 ^ 4 from ha.fragmentIndex),
    Nat.mod_eq_of_lt (show a.fragmentOffset < 256 ^ 4 from ha.fragmentOffset)] at hfields
  have hlist : table.drop (s.cur + 56) = packFields (a.blockList.map fun b => (4, b)) ++ rest := by
    rw [← List.drop_drop, hdrop, ← List.append_assoc, List.append_assoc]
    exact List.drop_left' hheader
  have hblocks := ha.blocks (Or.inr hw)
  rw [List.append_assoc, List.append_assoc] at hdrop
  obtain ⟨start, fragment, offset, size, -, hscan⟩ := scanInode_base hdrop (by
    rw [List.length_append, length_packFields]
    exact (show 16 ≤ 40 by decide).trans (Nat.le_add_right _ _))
  rw [hw, scanSwitch, hfields] at hscan
  dsimp only [Option.bind_eq_bind, Option.bind_some] at hscan
  rw [toInt64_of_lt ha.byteSize, toInt64_of_lt ha.startBlock, blocks_lreg (by rwa [← hblocks]), ← hblocks,
    InodeScan.addFile_eq ha.blockList hlist] at hscan
  refine ⟨_, hscan, ?_, rfl, ?_⟩
  · rw [← List.append_assoc, List.length_append, hheader]
    dsimp only
    omega
  · rw [InodeArgs.added, if_pos (Or.inr hw), toInt32_of_lt ha.fragmentOffset_lt, InodeArgs.addFile]
    have hbytes : toInt32 (Int.tmod (a.byteSize : Int) (2 ^ blockLog : ℕ)) =
        (a.byteSize % 2 ^ blockLog : ℕ) := by
      rw [← toInt32_mod hlog]
      rfl
    rw [hbytes]
    split <;> rfl

/-- A record that is not that of a file, by what the `switch` does. -/
theorem scansTo_of_switch {body : List UInt8} {length : ℕ}
    (hplain : ¬ (a.writtenType = .file ∨ a.writtenType = .lreg))
    (hdrop : table.drop s.cur = packFields a.baseFields ++ body) (hbody : 16 ≤ body.length)
    (hswitch : ∀ start fragment offset size, ∃ s', scanSwitch blockLog directoryStartBlock table body
        { s with visited := s.visited ++ [s.cur] } a.writtenType start fragment offset size = some s' ∧
      s'.cur = s.cur + length ∧ s'.visited = s.visited ++ [s.cur] ∧ s'.added = s.added) :
    ScansTo blockLog directoryStartBlock table s a length := by
  obtain ⟨start, fragment, offset, size, -, hscan⟩ := scanInode_base hdrop hbody
  obtain ⟨s', hs', hcur, hvisited, hadded⟩ := hswitch start fragment offset size
  refine ⟨s', hscan.trans hs', hcur, hvisited, ?_⟩
  rw [hadded, InodeArgs.added, if_neg hplain, List.append_nil]

/-- The record of a device, a fifo or a socket: its length goes with its type. -/
theorem scansTo_node (hw : a.writtenType ∈ [InodeType.blkdev, .chrdev, .lblkdev,
      .lchrdev, .fifo, .socket, .lfifo, .lsocket])
    (hrecord : createInode a = some record) (hdrop : table.drop s.cur = record ++ rest)
    (hrest : 16 ≤ rest.length) : ScansTo blockLog directoryStartBlock table s a record.length := by
  simp only [List.mem_cons, List.not_mem_nil, or_false] at hw
  rw [createInode] at hrecord
  rcases hw with hw | hw | hw | hw | hw | hw | hw | hw
  all_goals
    rw [hw] at hrecord
    simp only [Option.some.injEq, packFields_append] at hrecord
    subst hrecord
    rw [List.append_assoc] at hdrop
    refine scansTo_of_switch (by rw [hw]; decide) hdrop (by rw [List.length_append]; omega)
      fun start fragment offset size => ?_
    rw [hw, scanSwitch]
    refine ⟨_, rfl, ?_, rfl, rfl⟩
    rw [List.length_append, length_packFields, length_packFields]
    rfl

/-- The record of a directory without an index. -/
theorem scansTo_dir (hw : a.writtenType = .dir)
    (hrecord : createInode a = some record) (hdrop : table.drop s.cur = record ++ rest) :
    ScansTo blockLog directoryStartBlock table s a record.length := by
  rw [createInode, hw] at hrecord
  simp only [Option.some.injEq, packFields_append] at hrecord
  subst hrecord
  rw [List.append_assoc] at hdrop
  have hfields := readFields_packFields [(4, a.startBlock), (4, a.directoryCount + 2),
    (2, a.byteSize), (2, a.offset), (4, a.parentInode)] rest
  simp only [List.map_cons, List.map_nil] at hfields
  refine scansTo_of_switch (by rw [hw]; decide) hdrop (by
    rw [List.length_append, length_packFields]
    exact Nat.le_add_right _ _) fun start fragment offset size => ?_
  rw [hw, scanSwitch, hfields]
  refine ⟨_, rfl, ?_, rfl, rfl⟩
  rw [List.length_append, length_packFields, length_packFields]
  rfl

/-- The record of a directory with an index: the entries are skipped one by one. -/
theorem scansTo_ldir (ha : a.Scannable blockLog) (hw : a.writtenType = .ldir)
    (hrecord : createInode a = some record) (hdrop : table.drop s.cur = record ++ rest) :
    ScansTo blockLog directoryStartBlock table s a record.length := by
  rw [createInode, hw] at hrecord
  simp only at hrecord
  split at hrecord
  case isTrue => cases hrecord
  case isFalse hsize =>
      simp only [Option.some.injEq, packFields_append, List.append_assoc] at hrecord
      subst hrecord
      have hfields := readFields_packFields [(4, a.directoryCount + 2), (4, a.byteSize),
        (4, a.startBlock), (4, a.parentInode), (2, a.dirIndex.length), (2, a.offset), (4, a.xattr)]
        (packDirIndex a.dirIndex ++ rest)
      simp only [List.map_cons, List.map_nil,
        Nat.mod_eq_of_lt (show a.dirIndex.length < 256 ^ 2 from ha.dirIndex)] at hfields
      have hheader : (packFields a.baseFields ++ packFields [(4, a.directoryCount + 2), (4, a.byteSize),
          (4, a.startBlock), (4, a.parentInode), (2, a.dirIndex.length), (2, a.offset),
          (4, a.xattr)]).length = 40 := by
        rw [List.length_append, length_packFields, length_packFields]
        rfl
      have hindex : table.drop (s.cur + 40) = packDirIndex a.dirIndex ++ rest := by
        rw [← List.drop_drop, hdrop, ← List.append_assoc, List.append_assoc]
        exact List.drop_left' hheader
      rw [List.append_assoc, List.append_assoc] at hdrop
      refine scansTo_of_switch (by rw [hw]; decide) hdrop (by
        rw [List.length_append, length_packFields]
        exact (show 16 ≤ 24 by decide).trans (Nat.le_add_right _ _)) fun start fragment offset size => ?_
      rw [hw, scanSwitch, hfields]
      dsimp only [Option.bind_eq_bind, Option.bind_some]
      rw [skipIndex_packDirIndex ha.names hindex]
      refine ⟨_, rfl, ?_, rfl, rfl⟩
      rw [← List.append_assoc, List.length_append, hheader, InodeScan.addDirectory]
      dsimp only
      omega

/-- The record of a symbolic link, with its text. -/
theorem scansTo_symlink (ha : a.Fits) (hw : a.writtenType = .symlink ∨ a.writtenType = .lsymlink)
    (hrecord : createInode a = some record) (hdrop : table.drop s.cur = record ++ rest)
    (hrest : 16 ≤ rest.length) : ScansTo blockLog directoryStartBlock table s a record.length := by
  have hsize : a.symlinkText.length < 256 ^ 4 := (symlinkText_fits ha).1.trans (by decide)
  have hheader : (packFields a.baseFields ++
      packFields [(4, a.nlink), (4, a.symlinkText.length)]).length = 24 := by
    rw [List.length_append, length_packFields, length_packFields]
    rfl
  have hfields := fun rest => readFields_packFields [(4, a.nlink), (4, a.symlinkText.length)] rest
  simp only [List.map_cons, List.map_nil, Nat.mod_eq_of_lt hsize] at hfields
  rw [createInode] at hrecord
  rcases hw with hw | hw
  all_goals
    rw [hw] at hrecord
    simp only [Option.some.injEq, packFields_append, List.append_assoc] at hrecord
    subst hrecord
    rw [List.append_assoc, List.append_assoc] at hdrop
    refine scansTo_of_switch (by rw [hw]; decide) hdrop (by
      simp only [List.length_append]
      omega) fun start fragment offset size => ?_
    rw [hw, scanSwitch, hfields]
    refine ⟨_, rfl, ?_, rfl, rfl⟩
    rw [← List.append_assoc, List.length_append, hheader]
    simp [packFields, Nat.add_assoc]

/-- The record of a file holds its block list. -/
theorem length_blockList_le (hw : a.writtenType = .file ∨ a.writtenType = .lreg)
    (hrecord : createInode a = some record) : a.blockList.length ≤ record.length := by
  have hlist : a.blockList.length ≤ (packFields (a.blockList.map fun b => (4, b))).length := by
    rw [length_packFields, List.map_map]
    simp [Function.comp_def]
    omega
  rw [createInode] at hrecord
  rcases hw with hw | hw
  all_goals
    rw [hw] at hrecord
    cases hrecord
    rw [List.length_append]
    exact hlist.trans (Nat.le_add_left _ _)

/-- **One record**: the scan gets to the next one, if the size does not wrap around. -/
theorem scanInode_record (hlog : blockLog ≤ 20) (ha : a.Scannable blockLog)
    (hrecord : createInode a = some record) (hdrop : table.drop s.cur = record ++ rest)
    (hrest : 16 ≤ rest.length) (hsmall : record.length < 2 ^ 31) (hwrap : ¬ a.Wraps blockLog) :
    ScansTo blockLog directoryStartBlock table s a record.length := by
  cases hw : a.writtenType with
  | file =>
      have hlist := length_blockList_le (Or.inl hw) hrecord
      exact scansTo_file hlog ha hw hrecord hdrop (hlist.trans_lt hsmall) hwrap
  | lreg =>
      have hlist := length_blockList_le (Or.inr hw) hrecord
      exact scansTo_lreg hlog ha hw hrecord hdrop (hlist.trans_lt hsmall)
  | dir => exact scansTo_dir hw hrecord hdrop
  | ldir => exact scansTo_ldir ha hw hrecord hdrop
  | symlink => exact scansTo_symlink ha.toFits (Or.inl hw) hrecord hdrop hrest
  | lsymlink => exact scansTo_symlink ha.toFits (Or.inr hw) hrecord hdrop hrest
  | blkdev | chrdev | lblkdev | lchrdev | fifo | socket | lfifo | lsocket =>
      exact scansTo_node (by rw [hw]; decide) hrecord hdrop hrest

/-- A file whose size wraps around is added without its blocks. -/
theorem scanInode_wraps (directoryStartBlock : ℕ) (ha : a.Fits) (hlog : blockLog ≤ 20) (hwrap : a.Wraps blockLog)
    (hrecord : createInode a = some record) (hdrop : table.drop s.cur = record ++ rest) :
    ∃ s' call, scanInode blockLog directoryStartBlock table s = some s' ∧
      s'.added = s.added ++ [call] ∧ call.blockList = [] := by
  obtain ⟨hw, hfragment, hbig⟩ := hwrap
  obtain ⟨hsize, -⟩ := lt_of_writtenType_file hw
  rw [createInode, hw] at hrecord
  simp only [Option.some.injEq, packFields_append, List.append_assoc] at hrecord
  subst hrecord
  have hfields := readFields_packFields [(4, a.startBlock), (4, a.fragmentIndex),
    (4, a.fragmentOffset), (4, a.byteSize)] (packFields (a.blockList.map fun b => (4, b)) ++ rest)
  simp only [List.map_cons, List.map_nil,
    Nat.mod_eq_of_lt (show a.fragmentIndex < 256 ^ 4 from ha.fragmentIndex),
    Nat.mod_eq_of_lt (show a.byteSize < 256 ^ 4 from hsize)] at hfields
  rw [List.append_assoc, List.append_assoc] at hdrop
  obtain ⟨start, fragment, offset, size, hread, hscan⟩ := scanInode_base hdrop (by
    rw [List.length_append, length_packFields]
    exact Nat.le_add_right _ _)
  rw [hfields] at hread
  cases hread
  have hpos : 2 ^ blockLog ≤ 2 ^ 20 := Nat.pow_le_pow_right (by decide) hlog
  have hzero : ((a.byteSize + 2 ^ blockLog + (2 ^ 32 - 1)) % 2 ^ 32) >>> blockLog = 0 := by
    rw [Nat.shiftRight_eq_div_pow]
    apply Nat.div_eq_of_lt
    omega
  rw [hw, scanSwitch, if_pos hfragment, if_pos hfragment, hzero] at hscan
  exact ⟨_, _, hscan, rfl, rfl⟩

end

/-! ## The whole table -/

/-- Arguments of `create_inode` with which it writes a record that can be told from its header. -/
structure ScannedInode (env : DataEnv) where
  args : InodeArgs
  scannable : args.Scannable env.blockLog

/-- The call of `create_inode`. -/
def ScannedInode.call {env : DataEnv} (i : ScannedInode env) : InodeCall :=
  ⟨i.args, i.scannable.toFits⟩

/-- The inode of the root directory. -/
structure RootInode (env : DataEnv) extends ScannedInode env where
  dir : args.type = .dir

/-- The positions of records that come one after the other. -/
def recordStarts : ℕ → List (List UInt8) → List ℕ
  | _, [] => []
  | start, record :: records => start :: recordStarts (start + record.length) records

section

variable {env : DataEnv} {calls : List (ScannedInode env)} {records : List (List UInt8)}
  {table rest : List UInt8} {directoryStartBlock stop : ℕ} {s s' : InodeScan}

theorem scanInodes_of_lt (h : s.cur < stop)
    (hscan : scanInode env.blockLog directoryStartBlock table s = some s') :
    scanInodes env.blockLog directoryStartBlock table stop s =
      scanInodes env.blockLog directoryStartBlock table stop s' := by
  rw [scanInodes, if_pos h]
  split
  · rename_i s'' hs''
    rw [hscan] at hs''
    cases hs''
    rfl
  · rename_i hnone
    rw [hscan] at hnone
    cases hnone

theorem scanInodes_forward
    (h : scanInodes env.blockLog directoryStartBlock table stop s = some s') :
    s.added <+: s'.added := by
  induction hn : stop - s.cur using Nat.strong_induction_on generalizing s with
  | _ n ih =>
      rw [scanInodes] at h
      split at h
      · rename_i hlt
        split at h
        · rename_i s₁ hscan
          obtain ⟨hcur, hadded⟩ := scanInode_forward hscan
          exact hadded.trans (ih (stop - s₁.cur) (by omega) h rfl)
        · cases h
      · cases h
        exact List.prefix_refl _

/-- **All records**: the scan gets from the first one to the end of the last one. -/
theorem scanInodes_records (directoryStartBlock : ℕ)
    (hrecords : calls.mapM (fun i => createInode i.args) = some records)
    (hgood : ∀ i ∈ calls, ¬ i.args.Wraps env.blockLog)
    (hdrop : table.drop s.cur = records.flatten ++ rest) (hrest : 16 ≤ rest.length)
    (hsmall : records.flatten.length < 2 ^ 31) (hstop : s.cur + records.flatten.length ≤ stop) :
    ∃ s', scanInodes env.blockLog directoryStartBlock table stop s =
        scanInodes env.blockLog directoryStartBlock table stop s' ∧
      s'.cur = s.cur + records.flatten.length ∧ s'.visited = s.visited ++ recordStarts s.cur records ∧
      s'.added = s.added ++ calls.flatMap fun i => i.args.added env.blockLog := by
  induction calls generalizing s records with
  | nil =>
      cases hrecords
      exact ⟨s, rfl, rfl, (List.append_nil _).symm, (List.append_nil _).symm⟩
  | cons i calls ih =>
      rw [List.mapM_cons] at hrecords
      obtain ⟨record, hrecord, hrecords⟩ := Option.bind_eq_some_iff.mp hrecords
      obtain ⟨records, hrest', hrecords⟩ := Option.bind_eq_some_iff.mp hrecords
      cases hrecords
      rw [List.forall_mem_cons] at hgood
      rw [List.flatten_cons, List.length_append] at hsmall hstop
      rw [List.flatten_cons, List.append_assoc] at hdrop
      have hpos := List.length_pos_iff.mpr (createInode_ne_nil hrecord)
      obtain ⟨s₁, hscan, hcur, hvisited, hadded⟩ :
          ScansTo env.blockLog directoryStartBlock table s i.args record.length :=
        scanInode_record env.blockLog_le i.scannable hrecord hdrop
          (by rw [List.length_append]; omega) (by omega) hgood.1
      have hdrop₁ : table.drop s₁.cur = records.flatten ++ rest := by
        rw [hcur, ← List.drop_drop, hdrop, List.drop_left]
      obtain ⟨s', hrun, hcur', hvisited', hadded'⟩ :=
        ih hrest' hgood.2 hdrop₁ (by omega) (by rw [hcur]; omega)
      refine ⟨s', (scanInodes_of_lt (by omega) hscan).trans hrun, ?_, ?_, ?_⟩
      · rw [hcur', hcur, List.flatten_cons, List.length_append, Nat.add_assoc]
      · rw [hvisited', hvisited, hcur, List.append_assoc]
        rfl
      · rw [hadded', hadded, List.append_assoc, List.flatMap_cons]

/-- A file whose size wraps around has blocks. -/
theorem blockList_ne_nil {a : InodeArgs} {blockLog : ℕ} (ha : a.Scannable blockLog)
    (hlog : blockLog ≤ 20) (hwrap : a.Wraps blockLog) : a.blockList ≠ [] := by
  obtain ⟨hw, hfragment, hbig⟩ := hwrap
  have hle : 2 ^ blockLog ≤ 2 ^ 20 := Nat.pow_le_pow_right (by decide) hlog
  have hblocks := ha.blocks (Or.inl hw)
  rw [blocksOf, if_pos hfragment] at hblocks
  have hpos : 0 < (a.byteSize + 2 ^ blockLog - 1) / 2 ^ blockLog :=
    Nat.div_pos (by omega) (Nat.two_pow_pos _)
  rw [← hblocks] at hpos
  exact List.length_pos_iff.mp hpos

/-- Where all files are added with their blocks, no size wraps around. -/
theorem not_wraps_of_scanInodes (hrecords : calls.mapM (fun i => createInode i.args) = some records)
    (hdrop : table.drop s.cur = records.flatten ++ rest) (hrest : 16 ≤ rest.length)
    (hsmall : records.flatten.length < 2 ^ 31) (hstop : s.cur + records.flatten.length ≤ stop)
    (hrun : scanInodes env.blockLog directoryStartBlock table stop s = some s')
    (hadded : s'.added = s.added ++ calls.flatMap fun i => i.args.added env.blockLog) :
    ∀ i ∈ calls, ¬ i.args.Wraps env.blockLog := by
  induction calls generalizing s records with
  | nil => simp
  | cons i calls ih =>
      rw [List.mapM_cons] at hrecords
      obtain ⟨record, hrecord, hrecords⟩ := Option.bind_eq_some_iff.mp hrecords
      obtain ⟨records, hrest', hrecords⟩ := Option.bind_eq_some_iff.mp hrecords
      cases hrecords
      rw [List.flatten_cons, List.length_append] at hsmall hstop
      rw [List.flatten_cons, List.append_assoc] at hdrop
      rw [List.flatMap_cons] at hadded
      have hpos := List.length_pos_iff.mpr (createInode_ne_nil hrecord)
      by_cases hwrap : i.args.Wraps env.blockLog
      · -- the file is added without blocks, and stays so
        exfalso
        obtain ⟨s₁, call, hscan, hadded₁, hblocks⟩ := scanInode_wraps directoryStartBlock
          i.scannable.toFits env.blockLog_le hwrap hrecord hdrop
        rw [scanInodes_of_lt (by omega) hscan] at hrun
        have hprefix := scanInodes_forward hrun
        rw [hadded₁, hadded, List.prefix_append_right_inj, InodeArgs.added, if_pos (Or.inl hwrap.1),
          List.singleton_append, List.cons_prefix_cons] at hprefix
        refine blockList_ne_nil i.scannable env.blockLog_le hwrap ?_
        rw [← hblocks, hprefix.1]
        rfl
      · rw [List.forall_mem_cons]
        refine ⟨hwrap, ?_⟩
        obtain ⟨s₁, hscan, hcur, -, hadded₁⟩ :
            ScansTo env.blockLog directoryStartBlock table s i.args record.length :=
          scanInode_record env.blockLog_le i.scannable hrecord hdrop
            (by rw [List.length_append]; omega) (by omega) hwrap
        have hdrop₁ : table.drop s₁.cur = records.flatten ++ rest := by
          rw [hcur, ← List.drop_drop, hdrop, List.drop_left]
        rw [scanInodes_of_lt (by omega) hscan] at hrun
        refine ih hrest' hdrop₁ (by omega) (by rw [hcur]; omega) hrun ?_
        rw [hadded, hadded₁, List.append_assoc]

/-- The record of a root directory is as long as the header of a plain file. -/
theorem length_root {i : RootInode env} {record : List UInt8} (h : createInode i.args = some record) :
    32 ≤ record.length := by
  have hw : i.args.writtenType = .dir ∨ i.args.writtenType = .ldir := by
    rw [InodeArgs.writtenType, i.dir]
    dsimp only
    split
    · exact Or.inr rfl
    · exact Or.inl rfl
  rw [createInode] at h
  rcases hw with hw | hw
  · rw [hw] at h
    cases h
    rw [length_packFields]
    exact Nat.le_refl 32
  · rw [hw] at h
    dsimp only at h
    split at h
    · cases h
    · cases h
      rw [List.length_append, length_packFields]
      exact (show 32 ≤ 40 by decide).trans (Nat.le_add_right _ _)

/-- The header of a root directory is read. -/
theorem exists_rootStartBlock {i : RootInode env} {record : List UInt8}
    (h : createInode i.args = some record) : ∃ start, rootStartBlock record = some start := by
  have hw : i.args.writtenType = .dir ∨ i.args.writtenType = .ldir := by
    rw [InodeArgs.writtenType, i.dir]
    dsimp only
    split
    · exact Or.inr rfl
    · exact Or.inl rfl
  have hlen : (packFields i.args.baseFields).length = 16 := by
    rw [length_packFields]
    rfl
  obtain ⟨mode, uid, gid, mtime, number, hvalues⟩ : ∃ mode uid gid mtime number,
      i.args.baseFields.map (fun f => f.2 % 256 ^ f.1) =
        [i.args.writtenType.code % 256 ^ 2, mode, uid, gid, mtime, number] := ⟨_, _, _, _, _, rfl⟩
  rw [Nat.mod_eq_of_lt i.args.writtenType.code_lt] at hvalues
  have hbase : ∀ body, readFields [2, 2, 2, 2, 4, 4] (packFields i.args.baseFields ++ body) =
      some [i.args.writtenType.code, mode, uid, gid, mtime, number] := by
    intro body
    rw [← hvalues]
    exact readFields_packFields i.args.baseFields body
  rw [createInode] at h
  rcases hw with hw | hw
  · rw [hw] at h
    simp only [Option.some.injEq, packFields_append] at h
    subst h
    have hfields := readFields_packFields [(4, i.args.startBlock), (4, i.args.directoryCount + 2),
      (2, i.args.byteSize), (2, i.args.offset), (4, i.args.parentInode)] []
    simp only [List.map_cons, List.map_nil, List.append_nil] at hfields
    rw [rootStartBlock, hbase]
    dsimp only [Option.bind_eq_bind, Option.bind_some]
    rw [if_pos (by rw [hw]), List.drop_left' hlen, hfields]
    exact ⟨_, rfl⟩
  · rw [hw] at h
    dsimp only at h
    split at h
    · cases h
    · simp only [Option.some.injEq, packFields_append, List.append_assoc] at h
      subst h
      have hfields := readFields_packFields [(4, i.args.directoryCount + 2), (4, i.args.byteSize),
        (4, i.args.startBlock), (4, i.args.parentInode), (2, i.args.dirIndex.length), (2, i.args.offset),
        (4, i.args.xattr)] (packDirIndex i.args.dirIndex)
      simp only [List.map_cons, List.map_nil] at hfields
      rw [rootStartBlock, hbase]
      dsimp only [Option.bind_eq_bind, Option.bind_some]
      rw [if_neg (by rw [hw]; decide), List.drop_left' hlen, hfields]
      exact ⟨_, rfl⟩

/-- The last of a run of calls. -/
theorem createInodes_concat {comp : Compressor} {noI : Bool} {s s' : BlockStream}
    {calls : List InodeCall} {call : InodeCall} {refs : List ℕ}
    (h : createInodes comp noI s (calls ++ [call]) = some (refs, s')) :
    ∃ refs' s₁ record, createInodes comp noI s calls = some (refs', s₁) ∧
      createInode call.args = some record ∧ refs = refs' ++ [(getInode comp noI s₁ record).1] ∧
      s' = (getInode comp noI s₁ record).2 := by
  induction calls generalizing s refs with
  | nil =>
      rw [List.nil_append, createInodes, Option.bind_eq_some_iff] at h
      obtain ⟨record, hrecord, h⟩ := h
      cases h
      exact ⟨[], s, record, rfl, hrecord, rfl, rfl⟩
  | cons c calls ih =>
      rw [List.cons_append, createInodes, Option.bind_eq_some_iff] at h
      obtain ⟨record, hrecord, h⟩ := h
      obtain ⟨⟨refs₁, s₁⟩, hrest, h⟩ := Option.map_eq_some_iff.mp h
      cases h
      obtain ⟨refs', s₂, record', hrun, hrecord', rfl, rfl⟩ := ih hrest
      refine ⟨(getInode comp noI s record).1 :: refs', s₂, record', ?_, hrecord', rfl, rfl⟩
      rw [createInodes, hrecord, Option.bind_some]
      dsimp only
      rw [hrun]
      rfl

end

/-- **The scan goes through the inodes of a run**: wherever the table is written, the scan comes across
each record at its start, ends at the root directory's, and adds every regular file with its blocks. -/
def InodesScanned (env : DataEnv) (noI : Bool) (calls : List (ScannedInode env)) (root : RootInode env) :
    Prop :=
  ∀ refs rootRef s,
    createInodes env.comp noI {} (calls.map ScannedInode.call ++ [root.call]) =
      some (refs ++ [rootRef], s) →
    ∀ img start, HoldsAt img start (writeTable env.comp noI s) →
      ∃ records rootRecord scan, calls.mapM (fun i => createInode i.args) = some records ∧
        createInode root.args = some rootRecord ∧
        scanInodeTable env.comp env.blockLog img start (start + (writeTable env.comp noI s).length)
          (start + inodeBlk rootRef) (inodeOffset rootRef) = some (rootRecord.length, scan) ∧
        scan.cur = records.flatten.length ∧ scan.visited = recordStarts 0 records ∧
        scan.added = calls.flatMap fun i => i.args.added env.blockLog

section

variable {env : DataEnv} {noI : Bool} {calls : List (ScannedInode env)} {root : RootInode env}

theorem mapM_call :
    (calls.map ScannedInode.call).mapM (fun call => createInode call.args) =
      calls.mapM fun i => createInode i.args := by
  rw [List.mapM_map]
  rfl

/-- What `scan_inode_table` does with the table of a run. -/
theorem scanInodeTable_of_run (hcomp : env.comp.Lossless) {refs : List ℕ} {rootRef : ℕ} {s : BlockStream}
    (hrun : createInodes env.comp noI {} (calls.map ScannedInode.call ++ [root.call]) =
      some (refs ++ [rootRef], s)) :
    ∃ records rootRecord, calls.mapM (fun i => createInode i.args) = some records ∧
      createInode root.args = some rootRecord ∧
      ∀ img start, HoldsAt img start (writeTable env.comp noI s) →
        scanInodeTable env.comp env.blockLog img start (start + (writeTable env.comp noI s).length)
            (start + inodeBlk rootRef) (inodeOffset rootRef) =
          if records.flatten.length + rootRecord.length ≤ 2 ^ 31 - metadataSize then
            (rootStartBlock rootRecord).bind fun startBlock =>
              (scanInodes env.blockLog startBlock (records.flatten ++ rootRecord)
                records.flatten.length {}).map fun scan => (rootRecord.length, scan)
          else none := by
  obtain ⟨refs', s₁, rootRecord, hcalls, hroot, hrefs, rfl⟩ := createInodes_concat hrun
  obtain ⟨-, hlast⟩ := List.append_inj' hrefs rfl
  cases hlast
  obtain ⟨blocks, records, hrecords, hholds, -⟩ := createInodes_recorded hcalls BlockStream.holds_empty
  rw [mapM_call] at hrecords
  rw [List.nil_append, List.nil_append] at hholds
  refine ⟨records, rootRecord, hrecords, hroot, fun img start himg => ?_⟩
  -- the root directory's inode comes at the end of the table
  obtain ⟨more, hflush⟩ := hholds.flush s₁.cache.length
  have hcache := BlockStream.length_cache_flush (encodeMetadata env.comp noI)
    metadataSize_pos (le_refl s₁.cache.length)
  have hplace := hflush.place_end hcache
  have hend : (getInode env.comp noI s₁ rootRecord).2.Holds (encodeMetadata env.comp noI) metadataSize
      (blocks ++ more) (records.flatten ++ rootRecord) := hflush.append rootRecord
  have htable := uncompressTable_of_holds hcomp hend himg
  rw [List.length_append] at htable
  rw [scanInodeTable, htable]
  by_cases hfits : records.flatten.length + rootRecord.length ≤ 2 ^ 31 - metadataSize
  · rw [if_pos hfits, if_pos hfits]
    have hpos := List.length_pos_iff.mpr (createInode_ne_nil hroot)
    have hlt : records.flatten.length < (records.flatten ++ rootRecord).length := by
      rw [List.length_append]
      omega
    obtain ⟨bytes, hlookup, hbytes⟩ := lookupEntry_slot hend hplace (lt_slots hlt) start
    obtain ⟨k, -, hblk, -, hoffset⟩ := hplace
    have hblkLt := blockStart_lt_of_fits hend (by rwa [List.length_append]) k
    rw [← hblk] at hblkLt
    have hblk' : inodeBlk (getInode env.comp noI s₁ rootRecord).1 =
        (BlockStream.flush (encodeMetadata env.comp noI) metadataSize s₁.cache.length s₁).written.length := by
      rw [getInode, flushTable, Nat.mod_eq_of_lt hblkLt]
      exact inodeBlk_ref hblkLt (hoffset.trans (by decide))
    have hoffset' : inodeOffset (getInode env.comp noI s₁ rootRecord).1 =
        (BlockStream.flush (encodeMetadata env.comp noI) metadataSize s₁.cache.length s₁).cache.length :=
      inodeOffset_ref _ (hoffset.trans (by decide))
    rw [List.length_append] at hlookup
    dsimp only [Option.bind_eq_bind, Option.bind_some]
    rw [hblk', hlookup, Option.bind_some, hoffset', hbytes, List.drop_left, List.length_append,
      Nat.add_sub_cancel_left]
    simp only [Option.map_eq_bind, Function.comp_def]
  · rw [if_neg hfits, if_neg hfits]
    rfl

/-- **When the scan goes through the inodes**: exactly if all of them together take no more than
`2 ^ 31 - 8192` bytes, and there is no plain file without a fragment whose size, rounded up to blocks,
does not fit an `unsigned int`. -/
theorem inodesScanned_iff (hcomp : env.comp.Lossless) :
    InodesScanned env noI calls root ↔
      ∀ records, (calls.mapM fun i => createInode i.args) = some records →
        ∀ rootRecord, createInode root.args = some rootRecord →
          records.flatten.length + rootRecord.length ≤ 2 ^ 31 - metadataSize ∧
          ∀ i ∈ calls, ¬ i.args.Wraps env.blockLog := by
  have hmeta : 2 ^ 31 - metadataSize < 2 ^ 31 := by decide
  constructor
  · intro hscanned records hrecords rootRecord hroot
    have hall : (calls.map ScannedInode.call ++ [root.call]).mapM (fun call => createInode call.args) =
        some (records ++ [rootRecord]) := by
      rw [List.mapM_append, mapM_call, hrecords]
      simp [ScannedInode.call, hroot]
    obtain ⟨refs, s, hrun⟩ := exists_createInodes env.comp noI {} hall
    obtain ⟨refs', _, _, _, _, hrefs, _⟩ := createInodes_concat hrun
    subst hrefs
    have himg := holdsAt_self (writeTable env.comp noI s)
    obtain ⟨records', rootRecord', hrecords', hroot', htable⟩ := scanInodeTable_of_run hcomp hrun
    obtain ⟨_, _, scan, hrecords₁, hroot₁, hscan, _, _, hadded⟩ := hscanned refs' _ s hrun _ 0 himg
    cases hrecords.symm.trans hrecords'
    cases hroot.symm.trans hroot'
    cases hrecords.symm.trans hrecords₁
    cases hroot.symm.trans hroot₁
    rw [htable _ 0 himg] at hscan
    split at hscan
    · rename_i hfits
      refine ⟨hfits, ?_⟩
      obtain ⟨startBlock, -, hscan⟩ := Option.bind_eq_some_iff.mp hscan
      obtain ⟨scan', hloop, hpair⟩ := Option.map_eq_some_iff.mp hscan
      obtain rfl : scan' = scan := congrArg Prod.snd hpair
      have hrest := length_root hroot
      exact not_wraps_of_scanInodes hrecords (s := {}) rfl (by omega) (by omega) (by simp) hloop hadded
    · cases hscan
  · intro hgood refs rootRef s hrun img start himg
    obtain ⟨records, rootRecord, hrecords, hroot, htable⟩ := scanInodeTable_of_run hcomp hrun
    obtain ⟨hfits, hwraps⟩ := hgood records hrecords rootRecord hroot
    obtain ⟨startBlock, hstart⟩ := exists_rootStartBlock hroot
    have hrest := length_root hroot
    have hdrop : (records.flatten ++ rootRecord).drop ({} : InodeScan).cur =
        records.flatten ++ rootRecord := rfl
    have hstop : ({} : InodeScan).cur + records.flatten.length ≤ records.flatten.length := by simp
    obtain ⟨scan, hloop, hcur, hvisited, hadded⟩ :=
      scanInodes_records startBlock hrecords hwraps hdrop (by omega) (by omega) hstop
    refine ⟨records, rootRecord, scan, hrecords, hroot, ?_, ?_, hvisited, hadded⟩
    · rw [htable img start himg, if_pos hfits, hstart, Option.bind_some, hloop, scanInodes,
        if_neg (by rw [hcur]; simp)]
      rfl
    · rw [hcur]
      exact Nat.zero_add _

/-- Blocks of a mebibyte, stored as they are. -/
def mebibyteEnv : DataEnv where
  comp := storeOnly
  blockLog := 20
  le_blockLog := fourKilobyteEnv.blockLog_le
  blockLog_le := by decide

/-- A regular file without a fragment, whose blocks take a byte each. -/
def blocksFile (byteSize : ℕ) (h : byteSize < 2 ^ 32) : ScannedInode mebibyteEnv where
  args := { type := .file, byteSize, blockList := List.replicate (blocksOf 20 byteSize invalidFrag) 1 }
  scannable := by
    constructor
    case toFits =>
        constructor
        case byteSize => exact h.trans (by decide)
        case blockList =>
            intro b hb
            rw [List.eq_of_mem_replicate hb]
            decide
        case dirSize =>
            intro hdir
            rw [InodeArgs.writtenType] at hdir
            dsimp only at hdir
            split at hdir <;> cases hdir
        all_goals simp [InodeArgs.writtenType, isXattr, invalidXattr, invalidFrag]
    case blocks => exact fun _ => List.length_replicate
    all_goals simp

/-- A root directory. -/
def emptyRoot : RootInode mebibyteEnv where
  args := { type := .dir }
  scannable := by
    constructor
    case toFits => constructor <;> simp [InodeArgs.writtenType, isXattr, invalidXattr, invalidFrag]
    all_goals simp [InodeArgs.writtenType, isXattr, invalidXattr]
  dir := rfl

/-- A file of five mebibytes is added. -/
theorem inodesScanned_fiveMebibytes :
    InodesScanned mebibyteEnv false [blocksFile (5 * 2 ^ 20) (by decide)] emptyRoot := by
  refine (inodesScanned_iff storeOnly_lossless).mpr fun records hrecords rootRecord hroot => ⟨?_, ?_⟩
  · have hsize : (([blocksFile (5 * 2 ^ 20) (by decide)].mapM fun i => createInode i.args).all
        fun records => records.flatten.length ≤ 52) = true := by
      decide +kernel
    have hrootSize : ((createInode emptyRoot.args).all fun record => record.length ≤ 32) = true := by
      decide +kernel
    rw [hrecords, Option.all_some, decide_eq_true_eq] at hsize
    rw [hroot, Option.all_some, decide_eq_true_eq] at hrootSize
    unfold metadataSize
    omega
  · intro i hi hwrap
    rw [List.mem_singleton.mp hi] at hwrap
    exact absurd hwrap.2.2 (by decide)

/-- **A file of one byte less than 4 GiB**: it is added without its blocks, which are then taken for
inodes. -/
theorem not_inodesScanned_fourGibibytes :
    ¬ ∀ env noI calls root, env.comp.Lossless → InodesScanned env noI calls root := by
  intro hall
  obtain ⟨record, hrecord⟩ : ∃ record,
      createInode (blocksFile (2 ^ 32 - 1) (by decide)).args = some record := ⟨_, rfl⟩
  obtain ⟨rootRecord, hroot⟩ : ∃ record, createInode emptyRoot.args = some record := ⟨_, rfl⟩
  have hscanned := hall mebibyteEnv false [blocksFile (2 ^ 32 - 1) (by decide)] emptyRoot
    storeOnly_lossless
  have hrecords : [blocksFile (2 ^ 32 - 1) (by decide)].mapM (fun i => createInode i.args) =
      some [record] := by
    rw [List.mapM_cons, hrecord]
    rfl
  obtain ⟨-, hwraps⟩ := (inodesScanned_iff storeOnly_lossless).mp hscanned _ hrecords _ hroot
  exact hwraps _ List.mem_cons_self ⟨rfl, rfl, by decide⟩

end

end FirmwareTools.Squashfs

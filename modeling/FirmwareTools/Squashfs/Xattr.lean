import FirmwareTools.Squashfs.Metadata
import Mathlib.Data.Nat.Bitwise

/-! # Extended attributes

`mksquashfs`'s `generate_xattrs`, which stores a list of extended attributes and returns its id, and
`get_xattr` of `read_xattrs.c`, which both tools use to get the list of an id back. A list that is the
same as an earlier one gets the id of that one, and a value that is the same as an earlier one is stored
as a reference to it; both are looked for by checksums. -/

namespace FirmwareTools.Squashfs

/-! ## Names and values -/

/-- The prefixes of `prefix_table`. -/
inductive XattrPrefix
  | user | trusted | security
  deriving DecidableEq, Repr

/-- A prefix as text: `user.`, `trusted.` or `security.`. -/
def XattrPrefix.text : XattrPrefix → List UInt8
  | .user => [117, 115, 101, 114, 46]
  | .trusted => [116, 114, 117, 115, 116, 101, 100, 46]
  | .security => [115, 101, 99, 117, 114, 105, 116, 121, 46]

/-- The number of a prefix. -/
def XattrPrefix.type : XattrPrefix → ℕ
  | .user => 0
  | .trusted => 1
  | .security => 2

/-- The prefix with a number, if there is one. -/
def XattrPrefix.ofType : ℕ → Option XattrPrefix
  | 0 => some .user
  | 1 => some .trusted
  | 2 => some .security
  | _ => none

@[simp] theorem XattrPrefix.ofType_type (p : XattrPrefix) : XattrPrefix.ofType p.type = some p := by
  cases p <;> rfl

/-- `XATTR_VALUE_OOL` -/
def xattrValueOol : ℕ := 256

/-- `XATTR_PREFIX_MASK` -/
def xattrPrefixMask : ℕ := 0xff

/-- `XATTR_VALUE_OOL_SIZE` -/
def xattrValueOolSize : ℕ := 8

/-- `XATTR_INLINE_MAX` -/
def xattrInlineMax : ℕ := 128

/-- `XATTR_TARGET_MAX` -/
def xattrTargetMax : ℕ := 65536

/-- `SQUASHFS_INVALID_BLK`, as the 64 bits that are stored. -/
def invalidBlk : ℕ := 2 ^ 64 - 1

/-- A name with its value. The name is a C string; the system gives none that is longer than 255 bytes,
and an image none that is longer than its field of 16 bits can say. -/
structure NameValue where
  pre : XattrPrefix
  name : List UInt8
  value : List UInt8
  noNul : 0 ∉ name
  short : name.length < 2 ^ 16
  deriving DecidableEq, Repr

/-- The name with its prefix. -/
def NameValue.fullName (x : NameValue) : List UInt8 := x.pre.text ++ x.name

/-- `struct xattr_list`: the name and the value, the type, and where the value is stored. `entered` says
that the record is the entry of its value in `dupl`: what is written to its `ool_value` is seen there. -/
structure Xattr where
  pair : NameValue
  type : ℕ
  oolValue : ℕ := 0
  entered : Bool := false
  deriving DecidableEq, Repr

/-- The record `get_prefix` and the calls for the value fill. -/
def NameValue.xattr (x : NameValue) : Xattr := { pair := x, type := x.pre.type }

/-- Is the value stored out of line? -/
def Xattr.isOol (x : Xattr) : Bool := x.type.testBit 8

/-! ## Looking for duplicates -/

/-- `get_checksum` -/
def getChecksum (bytes : List UInt8) (chksum : UInt16) : UInt16 :=
  bytes.foldl (fun chksum b =>
    (if chksum &&& 1 = 1 then (chksum >>> 1) ||| 0x8000 else chksum >>> 1) + b.toUInt16) chksum

/-- The checksum of a list. -/
def idChecksum (xs : List NameValue) : UInt16 :=
  xs.foldl (fun checksum x => getChecksum x.value (getChecksum x.fullName checksum)) 0

/-- A `struct dupl_id`: a list with its id, and the number of the call that entered it. -/
structure DuplId where
  call : ℕ
  list : List NameValue
  xattrId : ℕ
  deriving DecidableEq, Repr

/-- An entry of `dupl`: a value, and where it is stored. -/
structure DuplValue where
  value : List UInt8
  oolValue : ℕ
  deriving DecidableEq, Repr

/-- `memcmp` of a whole value with as many bytes from another one on. `past` is what follows the other
one in memory. -/
def memcmpEq (value other : List UInt8) (past : ℕ → UInt8) : Bool :=
  value == (other ++ (List.range (value.length - other.length)).map past).take value.length

/-- The comparison of two lists of the same length in `check_id_dupl`. `past i` is what follows the
value `i` of the second one. -/
def sameXattrs : List NameValue → List NameValue → (ℕ → ℕ → UInt8) → Bool
  | x :: xs, y :: ys, past =>
    x.fullName == y.fullName && memcmpEq x.value y.value (past 0) &&
      sameXattrs xs ys fun i => past (i + 1)
  | _, _, _ => true

/-- The parameters of writing: the compressor, `noX`, and what the memory has behind the values. The
first two numbers are those of the call that compares and of the one that entered the list. -/
structure XattrEnv where
  comp : Compressor
  noX : Bool
  past : ℕ → ℕ → ℕ → ℕ → UInt8

/-- An entry of the xattr id table. -/
structure XattrId where
  xattr : ℕ
  count : ℕ
  size : ℕ
  deriving DecidableEq, Repr

/-- The static variables of `xattr.c`: the metadata with its cache, the id table, the two hash tables
with the newest entries first, and the number of calls so far. -/
structure XattrState where
  stream : BlockStream := {}
  idTable : List XattrId := []
  dupl : UInt16 → List DuplValue := fun _ => []
  duplId : UInt16 → List DuplId := fun _ => []
  calls : ℕ := 0

variable (env : XattrEnv)

/-- `check_id_dupl`: the entry that is taken for a duplicate, if there is one. The new entry that is
made otherwise is entered when its id is known; nothing looks at it before. -/
def checkIdDupl (st : XattrState) (xs : List NameValue) : Option DuplId :=
  (st.duplId (idChecksum xs)).find? fun entry =>
    entry.list.length == xs.length && sameXattrs xs entry.list (env.past st.calls entry.call)

/-- `check_value_dupl` -/
def checkValueDupl (dupl : UInt16 → List DuplValue) (x : Xattr) :
    Xattr × (UInt16 → List DuplValue) :=
  if x.pair.value.length < xattrValueOolSize then (x, dupl)
  else
    let vchecksum := getChecksum x.pair.value 0
    match (dupl vchecksum).find? fun entry => entry.value == x.pair.value with
    | none => ({ x with oolValue := invalidBlk, entered := true },
        Function.update dupl vchecksum (⟨x.pair.value, invalidBlk⟩ :: dupl vchecksum))
    | some entry => ({ x with type := x.type ||| xattrValueOol, oolValue := entry.oolValue }, dupl)

/-- `check_value_dupl` for every attribute of a list. -/
def checkValueDupls : (UInt16 → List DuplValue) → List Xattr → List Xattr × (UInt16 → List DuplValue)
  | dupl, [] => ([], dupl)
  | dupl, x :: xs =>
    let (x, dupl) := checkValueDupl dupl x
    let (xs, dupl) := checkValueDupls dupl xs
    (x :: xs, dupl)

/-! ## What is stored out of line -/

/-- One round of the scan: the values that are longer than `max` are stored out of line. -/
def assignType (max : ℕ) (x : Xattr) : Xattr :=
  let type := x.type &&& xattrPrefixMask
  { x with type := if max < x.pair.value.length then type ||| xattrValueOol else type }

/-- `get_xattr_size` -/
def getXattrSize (x : Xattr) : ℕ :=
  4 + 4 + x.pair.name.length + if x.isOol then xattrValueOolSize else x.pair.value.length

/-- The scan: the limit is halved until the list is small enough, or cannot become any smaller. The
first argument is a bound on the number of rounds. -/
def assignTypes : ℕ → ℕ → List Xattr → List Xattr
  | 0, max, xs => xs.map (assignType max)
  | n + 1, max, xs =>
    let xs := xs.map (assignType max)
    if (xs.map getXattrSize).sum ≤ xattrTargetMax ∨ max = xattrValueOolSize then xs
    else assignTypes n (if max / 2 < xattrValueOolSize then xattrValueOolSize else max / 2) xs

/-! ## Writing -/

/-- `get_xattr_space`, and the bytes that are put into the space: where they are, and the state. -/
def putXattr (s : BlockStream) (bytes : List UInt8) : ℕ × BlockStream :=
  let s := s.flush (encodeMetadata env.comp env.noX) metadataSize s.cache.length
  ((s.written.length <<< 16) ||| s.cache.length, s.append bytes)

/-- A value as it is stored. -/
def packValue (value : List UInt8) : List UInt8 := packFields [(4, value.length)] ++ value

/-- What is written to the `ool_value` of a record is seen in its entry of `dupl`. -/
def setOolValue (x : Xattr) (oolValue : ℕ) (dupl : UInt16 → List DuplValue) :
    Xattr × (UInt16 → List DuplValue) :=
  let c := getChecksum x.pair.value 0
  ({ x with oolValue }, if x.entered then
    Function.update dupl c ((dupl c).map fun entry =>
      if entry.value = x.pair.value then { entry with oolValue } else entry)
    else dupl)

/-- The stream and the values entered so far. -/
abbrev ValueStore := BlockStream × (UInt16 → List DuplValue)

/-- Store a value out of line, unless it is stored already. -/
def putOolValue (store : ValueStore) (x : Xattr) : Xattr × ValueStore :=
  if x.isOol ∧ x.oolValue = invalidBlk then
    let (oolValue, s) := putXattr env store.1 (packValue x.pair.value)
    let (x, dupl) := setOolValue x oolValue store.2
    (x, s, dupl)
  else (x, store)

/-- Write the entry of an attribute. -/
def putEntry (store : ValueStore) (x : Xattr) : Xattr × ValueStore :=
  let (_, s) := putXattr env store.1
    (packFields [(2, x.type), (2, x.pair.name.length)] ++ x.pair.name)
  if x.isOol then
    let (_, s) := putXattr env s (packFields [(4, xattrValueOolSize), (8, x.oolValue)])
    (x, s, store.2)
  else
    let (oolValue, s) := putXattr env s (packValue x.pair.value)
    let (x, dupl) := setOolValue x oolValue store.2
    (x, s, dupl)

/-- A loop over the attributes of a list. -/
def putAll (put : ValueStore → Xattr → Xattr × ValueStore) :
    ValueStore → List Xattr → List Xattr × ValueStore
  | store, [] => ([], store)
  | store, x :: xs =>
    let (x, store) := put store x
    let (xs, store) := putAll put store xs
    (x :: xs, store)

/-- `generate_xattrs`: the id of a list, and the state. -/
def generateXattrs (st : XattrState) (pairs : List NameValue) : ℕ × XattrState :=
  match checkIdDupl env st pairs with
  | some entry => (entry.xattrId, { st with calls := st.calls + 1 })
  | none =>
    let xs := assignTypes 4 xattrInlineMax (pairs.map NameValue.xattr)
    let (xs, dupl) := checkValueDupls st.dupl xs
    let (xs, s, dupl) := putAll (putOolValue env) (st.stream, dupl) xs
    let (xattrDisk, s) := putXattr env s []
    let (_, s, dupl) := putAll (putEntry env) (s, dupl) xs
    -- `get_xattr_id`
    let size := (pairs.map fun x => x.fullName.length + 1 + x.value.length).sum
    let id := st.idTable.length
    let entry : DuplId := ⟨st.calls, pairs, id⟩
    (id, {
      stream := s, dupl
      idTable := st.idTable ++ [⟨xattrDisk, pairs.length, size⟩]
      duplId := Function.update st.duplId (idChecksum pairs) (entry :: st.duplId (idChecksum pairs))
      calls := st.calls + 1 })

/-- Calls of `generate_xattrs` in turn: the ids, and the state. -/
def generateAll : XattrState → List (List NameValue) → List ℕ × XattrState
  | st, [] => ([], st)
  | st, pairs :: lists =>
    let (id, st) := generateXattrs env st pairs
    let (ids, st) := generateAll st lists
    (id :: ids, st)

/-- `write_xattrs`: the bytes it writes from `bytes` on, and where it says the table begins, unless there
are no lists. `unused` is what the last field of the header has. -/
def writeXattrs (st : XattrState) (bytes unused : ℕ) : Option (List UInt8 × ℕ) :=
  if st.idTable = [] then none
  else
    let blocks := cutBlocks metadataSize st.stream.cache.length st.stream.cache
    let table := st.stream.written ++ blocks.flatMap (encodeMetadata env.comp env.noX)
    let ids := st.idTable.flatMap fun id => packFields [(8, id.xattr), (4, id.count), (4, id.size)]
    let header := packFields [(8, bytes), (4, st.idTable.length), (4, unused)]
    let (segment, start) := genericWriteTable env.comp env.noX (bytes + table.length) ids header
    some (table ++ segment, start)

/-! ## Reading -/

/-- What `read_xattrs_from_disk` leaves for `get_xattr`: the ids, where the blocks begin, the metadata,
and where it begins in the image. -/
structure XattrTables where
  ids : List XattrId
  starts : List ℕ
  xattrs : List UInt8
  tableStart : ℕ

/-- An entry of the id table in memory. -/
def readXattrId (table : List UInt8) (i : ℕ) : Option XattrId := do
  match ← readFields [8, 4, 4] (table.drop (16 * i)) with
  | [xattr, count, size] => some ⟨xattr, count, size⟩
  | _ => none

/-- `read_xattrs_from_disk`, for an image whose table begins at `start`. `fresh` is what newly allocated
memory holds. -/
def readXattrsFromDisk (comp : Compressor) (fresh : ℕ → UInt8) (img : List UInt8) (start : ℕ) :
    Option XattrTables := do
  match ← readFields [8, 4, 4] (← readFsBytes img start 16) with
  | [tableStart, ids, _] =>
    let indexes := (ids * 16 + metadataSize - 1) / metadataSize
    let (index, idBlocks) ← readTable comp img (start + 16) indexes
    let blocks ← readBlocks (readBlock comp img) (index.headD 0) img.length tableStart
    let table := layOut metadataSize fresh 0 idBlocks
    let ids ← (List.range ids).mapM (readXattrId table)
    some {
      ids, starts := blocks.map Prod.fst
      xattrs := layOut metadataSize fresh 0 (blocks.map Prod.snd), tableStart }
  | _ => none

/-- `SQUASHFS_XATTR_BLK` -/
def xattrBlk (xattr : ℕ) : ℕ := (xattr >>> 16) % 2 ^ 32

/-- `SQUASHFS_XATTR_OFFSET` -/
def xattrOffset (xattr : ℕ) : ℕ := xattr % 2 ^ 16

/-- Where a reference leads to in the metadata. A block that was not read gives `-1`, as `get_xattr_block`
does. -/
def XattrTables.pointer (t : XattrTables) (xattr : ℕ) : Int :=
  (match getBlock t.starts (xattrBlk xattr + t.tableStart) with
    | some block => (block * metadataSize : ℕ)
    | none => -1) + xattrOffset xattr

/-- `count` bytes of the metadata from a pointer on. -/
def XattrTables.read (t : XattrTables) (xptr : Int) (count : ℕ) : Option (List UInt8) :=
  if xptr < 0 then none else readSlice t.xattrs xptr.toNat count

/-- A value that is stored at a pointer, and the size in front of it. -/
def XattrTables.readValue (t : XattrTables) (xptr : Int) : Option (List UInt8) := do
  let vsize := leValue (← t.read xptr 4)
  t.read (xptr + 4) vsize

/-- One round of `get_xattr`: a full name with its value, and where the next entry is. -/
def readXattrEntry (t : XattrTables) (xptr : Int) :
    Option ((List UInt8 × List UInt8) × Int) := do
  match ← readFields [2, 2] (← t.read xptr 4) with
  | [type, size] =>
    let pre ← XattrPrefix.ofType (type &&& xattrPrefixMask)
    let name ← t.read (xptr + 4) size
    let xptr := xptr + 4 + size
    if type.testBit 8 then
      let xattr := leValue (← t.read (xptr + 4) 8)
      let value ← t.readValue (t.pointer xattr)
      some ((pre.text ++ name, value), xptr + 4 + 8)
    else
      let value ← t.readValue xptr
      some ((pre.text ++ name, value), xptr + 4 + value.length)
  | _ => none

/-- The loop of `get_xattr`. -/
def readXattrEntries (t : XattrTables) : ℕ → Int → Option (List (List UInt8 × List UInt8))
  | 0, _ => some []
  | n + 1, xptr => do
    let (x, xptr) ← readXattrEntry t xptr
    let xs ← readXattrEntries t n xptr
    some (x :: xs)

/-- `get_xattr`: the full names and the values of a list. -/
def getXattr (t : XattrTables) (i : ℕ) : Option (List (List UInt8 × List UInt8)) := do
  let id ← t.ids[i]?
  readXattrEntries t id.count (t.pointer id.xattr)

end FirmwareTools.Squashfs

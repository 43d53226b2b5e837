import FirmwareTools.Squashfs.Inode
import FirmwareTools.Squashfs.SuperBlock

/-! # Buffers for the metadata

`read_block` of `unsquashfs` takes the size of a block from the image, and reads that many bytes into a buffer
of 8192 bytes or into an array of its caller. The callers allocate the arrays for the sizes that blocks have
in valid images. The sizes of the arrays are `int`s or `size_t`s of 64 bits; a negative `int` is too much for an
allocation.

* **`BlockCall.inBuffers_iff`** — when one block stays in its buffers;
* **`metadataReads_iff`** — when the blocks of all callers do. -/

namespace FirmwareTools.Squashfs

/-- What the reads of the metadata depend on: the image, `sBlk`, `swap`, the decompressor, which writes some
bytes and returns a size or `-1`, and what is found behind an allocation of no bytes. -/
structure MetadataReader where
  image : List UInt8
  sBlk : SuperBlock
  swap : Bool := false
  uncompress : List UInt8 → List UInt8 × ℤ
  fresh : ℤ := 0

/-- What `read_block` does: the bytes that it writes to `block` and to its own buffer, what it returns, and
`*next`. -/
structure BlockRead where
  block : List UInt8 := []
  buffer : List UInt8 := []
  res : ℤ := 0
  next : ℤ

/-- Where the caller wants a block: at `bytes` in an array that grows, as block `i` of an index table that has
`size` bytes, or as block `i` of `xattrs`. -/
inductive BlockDest
  | growing (bytes size : ℤ)
  | indexed (i : ℕ) (size : ℤ)
  | xattrs (i : ℕ)
  deriving DecidableEq, Repr

/-- A call of `read_block`. -/
structure BlockCall where
  start : ℤ
  dest : BlockDest
  deriving DecidableEq, Repr

/-- The place of the block in the array. -/
def BlockDest.offset : BlockDest → ℤ
  | .growing bytes _ => bytes
  | .indexed i _ | .xattrs i => toInt32 (i * metadataSize)

/-- The size of the array. -/
def BlockDest.size : BlockDest → ℤ
  | .growing _ size | .indexed _ size => size
  | .xattrs i => toInt32 ((i + 1) * metadataSize)

/-- What the caller has of the array when the call has returned `res`. -/
def BlockDest.advanced (res : ℤ) : BlockDest → ℤ
  | .growing bytes _ => bytes + res
  | .indexed i _ | .xattrs i => toInt32 (i * metadataSize)

namespace MetadataReader

variable (m : MetadataReader)

/-- `read_fs_bytes`: what it writes, and its result. -/
def readFsBytes (byte : ℤ) (bytes : ℕ) : List UInt8 × Bool :=
  if byte < 0 then ([], false)
  else
    let data := (m.image.drop byte.toNat).take bytes
    (data, decide (data.length = bytes))

/-- `SQUASHFS_CHECK_DATA` -/
def checkData : Bool := m.sBlk.flags.testBit 2

/-- The two bytes in front of a block. -/
def cByte (start : ℤ) : Option ℕ :=
  let header := m.readFsBytes start 2
  if header.2 then some (leValue (if m.swap then header.1.reverse else header.1)) else none

/-- `offset` of `read_block`. -/
def dataOffset : ℤ := if m.checkData then 3 else 2

/-- `read_block` behind its header, of which `data` has been read and, if `complete`, all of it. -/
def readBody (start : ℤ) (cByte : ℕ) (data : List UInt8) (complete : Bool) : BlockRead :=
  let next := start + m.dataOffset + compressedSize cByte
  if isCompressed cByte then
    if complete then
      let block := m.uncompress data
      if block.2 = -1 then { block := block.1, buffer := data, next := start }
      else { block := block.1, buffer := data, res := block.2, next }
    else { buffer := data, next := start }
  else if complete then { block := data, res := compressedSize cByte, next }
  else { block := data, next := start }

/-- `read_block` -/
def readBlock (start : ℤ) : BlockRead :=
  match m.cByte start with
  | none => { next := start }
  | some cByte =>
    let data := m.readFsBytes (start + m.dataOffset) (compressedSize cByte)
    m.readBody start cByte data.1 data.2

end MetadataReader

/-- **The call stays in the buffers**: it writes at most 8192 bytes to each, nothing outside the array, and what
the caller has of the array then is not more than there is. -/
structure BlockCall.InBuffers (m : MetadataReader) (c : BlockCall) : Prop where
  buffer : (m.readBlock c.start).buffer.length ≤ metadataSize
  block : (m.readBlock c.start).block.length ≤ metadataSize
  offset_nonneg : 0 ≤ c.dest.offset
  le_size : c.dest.offset + (m.readBlock c.start).block.length ≤ c.dest.size
  advanced_nonneg : 0 ≤ c.dest.advanced (m.readBlock c.start).res
  advanced_le : c.dest.advanced (m.readBlock c.start).res ≤ c.dest.size

instance (m : MetadataReader) (c : BlockCall) : Decidable (c.InBuffers m) :=
  decidable_of_iff ((m.readBlock c.start).buffer.length ≤ metadataSize ∧
      (m.readBlock c.start).block.length ≤ metadataSize ∧ 0 ≤ c.dest.offset ∧
      c.dest.offset + (m.readBlock c.start).block.length ≤ c.dest.size ∧
      0 ≤ c.dest.advanced (m.readBlock c.start).res ∧ c.dest.advanced (m.readBlock c.start).res ≤ c.dest.size)
    ⟨fun ⟨h₁, h₂, h₃, h₄, h₅, h₆⟩ => ⟨h₁, h₂, h₃, h₄, h₅, h₆⟩,
      fun ⟨h₁, h₂, h₃, h₄, h₅, h₆⟩ => ⟨h₁, h₂, h₃, h₄, h₅, h₆⟩⟩

namespace MetadataReader

variable (m : MetadataReader)

/-- The caller goes on after the call. Behind one that does not stay in the buffers, nothing is known. -/
def GoesOn (c : BlockCall) : Prop := (m.readBlock c.start).res ≠ 0 ∧ c.InBuffers m

instance (c : BlockCall) : Decidable (m.GoesOn c) := inferInstanceAs (Decidable (_ ∧ _))

/-! ## The callers -/

section

variable {m} {start : ℤ}

theorem bounds_of_cByte {cByte : ℕ} (h : m.cByte start = some cByte) :
    0 ≤ start ∧ start < m.image.length := by
  unfold MetadataReader.cByte readFsBytes at h
  by_cases hneg : start < 0
  · rw [if_pos hneg] at h
    cases h
  · rw [if_neg hneg] at h
    obtain ⟨hread, -⟩ := Option.ite_none_right_eq_some.mp h
    have hlength := of_decide_eq_true hread
    rw [List.length_take, List.length_drop] at hlength
    omega

/-- The next block is behind one that was read. -/
theorem lt_next (h : (m.readBlock start).res ≠ 0) :
    0 ≤ start ∧ start < m.image.length ∧ start < (m.readBlock start).next := by
  cases hbyte : m.cByte start with
  | none =>
      rw [readBlock, hbyte] at h
      exact absurd rfl h
  | some cByte =>
      obtain ⟨hnonneg, hlt⟩ := bounds_of_cByte hbyte
      have hoffset : 0 < m.dataOffset := by
        rw [dataOffset]
        split
        · decide
        · decide
      refine ⟨hnonneg, hlt, ?_⟩
      rw [readBlock, hbyte] at h ⊢
      dsimp only at h ⊢
      unfold readBody at h ⊢
      dsimp only at h ⊢
      split at h
      · rename_i hcompressed
        rw [if_pos hcompressed]
        split at h
        · rename_i hread
          rw [if_pos hread]
          split at h
          · exact absurd rfl h
          · rename_i hres
            rw [if_neg hres]
            show start < start + m.dataOffset + _
            omega
        · exact absurd rfl h
      · rename_i hcompressed
        rw [if_neg hcompressed]
        split at h
        · rename_i hread
          rw [if_pos hread]
          show start < start + m.dataOffset + _
          omega
        · exact absurd rfl h

end

/-- The loop of `uncompress_inode_table` and of `uncompress_directory_table`. -/
def uncompressTable (start stop bytes size : ℤ) : List BlockCall :=
  if start < stop then
    let size := if size - bytes < metadataSize then toInt32 (size + metadataSize) else size
    if size < 0 then []
    else
      let c : BlockCall := ⟨start, .growing bytes size⟩
      if h : m.GoesOn c then
        c :: uncompressTable (m.readBlock start).next stop (bytes + (m.readBlock start).res) size
      else [c]
  else []
termination_by (m.image.length - start).toNat
decreasing_by
  have hlt : 0 ≤ start ∧ start < m.image.length ∧ start < (m.readBlock start).next := lt_next h.1
  omega

/-- The loop over the blocks of an index table with `size` bytes, from block `i` on. -/
def indexTable (size : ℤ) : ℕ → List ℤ → List BlockCall
  | _, [] => []
  | i, start :: index =>
    let c : BlockCall := ⟨start, .indexed i size⟩
    if m.GoesOn c then c :: indexTable size (i + 1) index else [c]

/-- The loop of `read_xattrs_from_disk` over the blocks of `xattrs`, from block `i` on. -/
def xattrTable (stop start : ℤ) (i : ℕ) : List BlockCall :=
  if start < stop then
    if toInt32 ((i + 1) * metadataSize) < 0 then []
    else
      let c : BlockCall := ⟨start, .xattrs i⟩
      if h : m.GoesOn c then c :: xattrTable stop (m.readBlock start).next (i + 1) else [c]
  else []
termination_by (m.image.length - start).toNat
decreasing_by
  have hlt : 0 ≤ start ∧ start < m.image.length ∧ start < (m.readBlock start).next := lt_next h.1
  omega

/-- An index that was read, with its `long long`s. -/
def readIndex (start : ℤ) (indexBytes indexes : ℕ) : Option (List ℤ) :=
  let index := m.readFsBytes start indexBytes
  if index.2 then (readFields (List.replicate indexes 8) index.1).map fun starts => starts.map toInt64
  else none

/-- The number of blocks of a table, from a `size_t`. -/
def tableBlocks (bytes : ℕ) : ℕ := (bytes + metadataSize - 1) % 2 ^ 64 / metadataSize

/-- The blocks of a table with `bytes` bytes, whose index is at `start`. -/
def readIndexTable (start : ℤ) (bytes : ℕ) : List BlockCall :=
  (m.readIndex start (tableBlocks bytes * 8) (tableBlocks bytes)).elim [] fun index => m.indexTable bytes 0 index

/-- `read_fragment_table_4` -/
def readFragmentTable4 : List BlockCall :=
  if m.sBlk.fragments = 0 then []
  else m.readIndexTable (toInt64 m.sBlk.fragmentTableStart) (m.sBlk.fragments * 16)

/-- `read_uids_guids_4` -/
def readUidsGuids4 : List BlockCall :=
  m.readIndexTable (toInt64 m.sBlk.idTableStart) (m.sBlk.noIds * 4)

/-- The two loops of `read_xattrs_from_disk`. -/
def xattrBlocks (bytes start : ℤ) (index : List ℤ) : List BlockCall :=
  let idBlocks := m.indexTable bytes 0 index
  if ∀ c ∈ idBlocks, m.GoesOn c then idBlocks ++ m.xattrTable (index.headD m.fresh) start 0 else idBlocks

/-- `read_xattrs_from_disk` with the number of ids, an `int`. -/
def readXattrIds (start tableStart ids : ℤ) : List BlockCall :=
  let total := (ids * 16 % 2 ^ 64).toNat
  let indexBytes := toInt32 (tableBlocks total * 8 % 2 ^ 64 : ℕ)
  let bytes := toInt32 total
  if indexBytes < 0 ∨ bytes < 0 then []
  else
    (m.readIndex start indexBytes.toNat (toInt32 (tableBlocks total)).toNat).elim []
      fun index => m.xattrBlocks bytes tableStart index

/-- `read_xattrs_from_disk` -/
def readXattrsFromDisk : List BlockCall :=
  let start := toInt64 m.sBlk.xattrIdTableStart
  if start = -1 then []
  else
    match readFields [8, 4, 4] (m.readFsBytes start 16).1 with
    | some [xattrTableStart, xattrIds, _] =>
      m.readXattrIds (start + 16) (toInt64 xattrTableStart) (toInt32 xattrIds)
    | _ => []

end MetadataReader

/-- The callers of `read_block`. -/
inductive MetadataCaller
  | inodeTable
  | directoryTable
  | fragmentTable
  | uidsGuids
  | xattrs
  deriving DecidableEq, Repr

/-- The calls of `read_block` that it makes. -/
def MetadataCaller.calls (m : MetadataReader) : MetadataCaller → List BlockCall
  | .inodeTable =>
    m.uncompressTable (toInt64 m.sBlk.inodeTableStart) (toInt64 m.sBlk.directoryTableStart) 0 0
  | .directoryTable =>
    m.uncompressTable (toInt64 m.sBlk.directoryTableStart) (toInt64 m.sBlk.fragmentTableStart) 0 0
  | .fragmentTable => m.readFragmentTable4
  | .uidsGuids => m.readUidsGuids4
  | .xattrs => m.readXattrsFromDisk

/-! ## What an image stores -/

namespace MetadataReader

variable (m : MetadataReader) (start : ℤ)

/-- The bytes behind the header of a block, as far as the image reaches, and whether these are all. -/
def stored : List UInt8 × Bool :=
  match m.cByte start with
  | none => ([], false)
  | some cByte => m.readFsBytes (start + m.dataOffset) (compressedSize cByte)

/-- What a block holds, and the size that is reported of it. -/
def contents : List UInt8 × ℤ :=
  match m.cByte start with
  | none => ([], 0)
  | some cByte =>
    if isCompressed cByte then
      if (m.stored start).2 then
        let block := m.uncompress (m.stored start).1
        (block.1, if block.2 = -1 then 0 else block.2)
      else ([], 0)
    else ((m.stored start).1, if (m.stored start).2 then compressedSize cByte else 0)

/-- The decompressor keeps to the size that it is given, and reports what it has written. -/
def Limited : Prop :=
  ∀ data, (m.uncompress data).1.length ≤ metadataSize ∧
    ((m.uncompress data).2 = -1 ∨ (m.uncompress data).2 = (m.uncompress data).1.length)

variable {m start}

theorem length_of_readFsBytes {bytes : ℕ} (h : (m.readFsBytes start bytes).2 = true) :
    (m.readFsBytes start bytes).1.length = bytes := by
  unfold readFsBytes at h ⊢
  split at h
  · cases h
  · rename_i hneg
    rw [if_neg hneg]
    exact of_decide_eq_true h

theorem block_readBlock : (m.readBlock start).block = (m.contents start).1 := by
  unfold readBlock contents stored readBody
  cases m.cByte start with
  | none => rfl
  | some cByte =>
      dsimp only
      split
      · split
        · split <;> rfl
        · rfl
      · split <;> rfl

theorem res_readBlock : (m.readBlock start).res = (m.contents start).2 := by
  unfold readBlock contents stored readBody
  cases m.cByte start with
  | none => rfl
  | some cByte =>
      dsimp only
      split
      · split
        · split <;> rfl
        · rfl
      · split <;> rfl

/-- The bytes that are stored go through the buffer of `read_block`, or are the block. -/
theorem buffer_readBlock : (m.readBlock start).buffer = (m.stored start).1 ∨
    (m.readBlock start).buffer = [] ∧ (m.readBlock start).block = (m.stored start).1 := by
  unfold readBlock stored readBody
  cases m.cByte start with
  | none => exact .inl rfl
  | some cByte =>
      dsimp only
      split
      · refine .inl ?_
        split
        · split <;> rfl
        · rfl
      · refine .inr ?_
        split <;> exact ⟨rfl, rfl⟩

theorem length_le_iff : ((m.readBlock start).buffer.length ≤ metadataSize ∧
      (m.readBlock start).block.length ≤ metadataSize) ↔
    (m.stored start).1.length ≤ metadataSize ∧ (m.contents start).1.length ≤ metadataSize := by
  rw [← block_readBlock]
  rcases @buffer_readBlock m start with hbuffer | ⟨hbuffer, hblock⟩
  · rw [hbuffer]
  · rw [hbuffer, hblock, List.length_nil]
    constructor
    · exact fun h => ⟨h.2, h.2⟩
    · exact fun h => ⟨Nat.zero_le _, h.2⟩

theorem Limited.contents (h : m.Limited) (hstored : (m.stored start).1.length ≤ metadataSize) :
    (m.contents start).1.length ≤ metadataSize ∧ 0 ≤ (m.contents start).2 ∧
      (m.contents start).2 ≤ metadataSize := by
  unfold MetadataReader.contents MetadataReader.stored at *
  cases hbyte : m.cByte start with
  | none => exact ⟨Nat.zero_le _, Int.le_refl _, Int.natCast_nonneg _⟩
  | some cByte =>
      rw [hbyte] at hstored
      dsimp only at hstored ⊢
      set data := m.readFsBytes (start + m.dataOffset) (compressedSize cByte) with hdata
      obtain ⟨hle, hres⟩ := h data.1
      split
      · split
        · refine ⟨hle, ?_⟩
          dsimp only
          split
          · exact ⟨Int.le_refl _, Int.natCast_nonneg _⟩
          · rename_i hne
            rw [hres.resolve_left hne]
            exact ⟨Int.natCast_nonneg _, Int.ofNat_le.mpr hle⟩
        · exact ⟨Nat.zero_le _, Int.le_refl _, Int.natCast_nonneg _⟩
      · refine ⟨hstored, ?_⟩
        dsimp only
        split
        · rename_i hread
          rw [← m.length_of_readFsBytes hread]
          exact ⟨Int.natCast_nonneg _, Int.ofNat_le.mpr hstored⟩
        · exact ⟨Int.le_refl _, Int.natCast_nonneg _⟩

/-- The decompressor is that of `comp`. -/
def Uses (m : MetadataReader) (comp : Compressor) : Prop :=
  ∀ data, (comp.uncompress metadataSize data = none ∧ (m.uncompress data).2 = -1) ∨
    ∃ block, comp.uncompress metadataSize data = some block ∧ m.uncompress data = (block, (block.length : ℤ))

theorem compressedSize_pos (cByte : ℕ) : 0 < compressedSize cByte := by
  rw [compressedSize]
  split
  · omega
  · decide

theorem readSlice_eq (start : ℕ) {bytes : ℕ} (hpos : 0 < bytes) : readSlice m.image start bytes =
    if (m.readFsBytes start bytes).2 then some (m.readFsBytes start bytes).1 else none := by
  have hnonneg : ¬(start : ℤ) < 0 := by omega
  rw [readFsBytes, if_neg hnonneg, readSlice, Int.toNat_natCast]
  dsimp only
  by_cases hle : start + bytes ≤ m.image.length
  · have hlength : ((m.image.drop start).take bytes).length = bytes := by
      rw [List.length_take, List.length_drop]
      omega
    rw [if_pos hle, if_pos (decide_eq_true hlength)]
  · have hlength : ((m.image.drop start).take bytes).length ≠ bytes := by
      rw [List.length_take, List.length_drop]
      omega
    rw [if_neg hle, if_neg (by rwa [decide_eq_true_iff])]

theorem readBody_eq {comp : Compressor} {start cByte : ℕ} {data : List UInt8} (hcomp : m.Uses comp)
    (hoffset : m.dataOffset = 2) :
    (if isCompressed cByte then
      (comp.uncompress metadataSize data).map fun block => (block, start + 2 + compressedSize cByte)
    else some (data, start + 2 + compressedSize cByte)) =
      if (m.readBody start cByte data true).next = start then none
      else some ((m.readBody start cByte data true).block, (m.readBody start cByte data true).next.toNat) := by
  have hpos := compressedSize_pos cByte
  have hnext : (start : ℤ) + m.dataOffset + compressedSize cByte ≠ start := by
    rw [hoffset]
    omega
  have hnat : ((start : ℤ) + m.dataOffset + compressedSize cByte).toNat = start + 2 + compressedSize cByte := by
    rw [hoffset]
    omega
  rw [readBody]
  by_cases hcompressed : isCompressed cByte = true
  · rw [if_pos hcompressed, if_pos hcompressed, if_pos rfl]
    dsimp only
    rcases hcomp data with ⟨hnone, hres⟩ | ⟨block, hsome, hout⟩
    · rw [hnone, if_pos hres]
      exact (if_pos rfl).symm
    · have hres : (block.length : ℤ) ≠ -1 := by omega
      rw [hsome, hout, if_neg hres]
      dsimp only
      rw [if_neg hnext, hnat]
      rfl
  · rw [if_neg hcompressed, if_neg hcompressed, if_pos rfl]
    dsimp only
    rw [if_neg hnext, hnat]

theorem next_readBody_false {start : ℤ} {cByte : ℕ} {data : List UInt8} :
    (m.readBody start cByte data false).next = start := by
  rw [readBody, if_neg Bool.false_ne_true, if_neg Bool.false_ne_true]
  split <;> rfl

theorem readData_eq {comp : Compressor} {start cByte : ℕ} {data : List UInt8 × Bool} (hcomp : m.Uses comp)
    (hoffset : m.dataOffset = 2) (hlength : data.2 = true → data.1.length = compressedSize cByte)
    (hstored : data.1.length ≤ metadataSize) :
    ((if data.2 then some data.1 else none) >>= fun data =>
      if metadataSize < compressedSize cByte then none
      else if isCompressed cByte then
        (comp.uncompress metadataSize data) >>= fun block => some (block, start + 2 + compressedSize cByte)
      else some (data, start + 2 + compressedSize cByte)) =
      if (m.readBody start cByte data.1 data.2).next = start then none
      else some ((m.readBody start cByte data.1 data.2).block, (m.readBody start cByte data.1 data.2).next.toNat) := by
  obtain ⟨data, complete⟩ := data
  cases complete with
  | false => rw [next_readBody_false, if_pos rfl, if_neg Bool.false_ne_true, Option.bind_eq_bind, Option.bind_none]
  | true =>
      have hsize : ¬metadataSize < compressedSize cByte := by
        rw [← hlength rfl]
        exact Nat.not_lt.mpr hstored
      rw [if_pos rfl, Option.bind_eq_bind, Option.bind_some, if_neg hsize, ← readBody_eq hcomp hoffset]
      cases comp.uncompress metadataSize data with
      | none => rfl
      | some block => rfl

/-- **Blocks that fit** are read as `Squashfs.readBlock` says. -/
theorem readBlock_eq {comp : Compressor} {start : ℕ} (hcomp : m.Uses comp) (hswap : m.swap = false)
    (hcheck : m.checkData = false) (hstored : (m.stored start).1.length ≤ metadataSize) :
    Squashfs.readBlock comp m.image start = if (m.readBlock start).next = start then none
      else some ((m.readBlock start).block, (m.readBlock start).next.toNat) := by
  have hoffset : m.dataOffset = 2 := by
    rw [dataOffset, hcheck]
    rfl
  have hbyte : m.cByte start =
      if (m.readFsBytes start 2).2 then some (leValue (m.readFsBytes start 2).1) else none := by
    rw [MetadataReader.cByte, hswap]
    rfl
  rw [Squashfs.readBlock, Squashfs.readFsBytes, readSlice_eq start Nat.two_pos, readBlock]
  rw [stored] at hstored
  by_cases hread : (m.readFsBytes start 2).2 = true
  · rw [if_pos hread] at hbyte
    rw [hbyte] at hstored ⊢
    rw [if_pos hread, Option.bind_eq_bind, Option.bind_some]
    have hplace : (start : ℤ) + m.dataOffset = (start + 2 : ℕ) := by
      rw [hoffset]
      rfl
    dsimp only at hstored ⊢
    rw [hplace] at hstored ⊢
    rw [Squashfs.readFsBytes, readSlice_eq (start + 2) (compressedSize_pos _)]
    exact readData_eq hcomp hoffset length_of_readFsBytes hstored
  · rw [if_neg hread] at hbyte
    rw [if_neg hread, hbyte]
    exact (if_pos rfl).symm

end MetadataReader

/-! ## The room for a block -/

/-- **The block fits**: at most 8192 bytes are stored, it does not become longer if the decompressor does not
keep to its size, and it fits into the table that it belongs to. -/
def BlockCall.Fits (m : MetadataReader) (c : BlockCall) : Prop :=
  (m.stored c.start).1.length ≤ metadataSize ∧
    match c.dest with
    | .growing bytes size => m.Limited ∨ (m.contents c.start).1.length ≤ metadataSize ∧
      0 ≤ bytes + (m.contents c.start).2 ∧ bytes + (m.contents c.start).2 ≤ size
    | .indexed i size => (m.contents c.start).1.length ≤ metadataSize ∧ i < 2 ^ 18 ∧
      i * metadataSize + (m.contents c.start).1.length ≤ size
    | .xattrs _ => m.Limited ∨ (m.contents c.start).1.length ≤ metadataSize

/-- What the callers have made sure of: there is room for 8192 bytes in `inode_table`, `directory_table` and
`xattrs`. -/
def BlockDest.Valid : BlockDest → Prop
  | .growing bytes size => 0 ≤ bytes ∧ bytes + metadataSize ≤ size
  | .indexed i _ => i ≤ 2 ^ 18
  | .xattrs i => i + 1 < 2 ^ 18

variable {m : MetadataReader} {c : BlockCall}

/-- A block of an index table is inside if it is before the end, and its place is an `int`. -/
theorem indexed_inside_iff {i n : ℕ} {size : ℤ} (hi : i ≤ 2 ^ 18) :
    (0 ≤ toInt32 (i * metadataSize) ∧ toInt32 (i * metadataSize) + n ≤ size ∧
      toInt32 (i * metadataSize) ≤ size) ↔ i < 2 ^ 18 ∧ i * metadataSize + n ≤ size := by
  rcases Nat.lt_or_eq_of_le hi with hlt | rfl
  · have hoffset : toInt32 (i * metadataSize) = i * metadataSize := by
      have hsmall : i * metadataSize < 2 ^ 31 := by
        rw [metadataSize]
        omega
      exact_mod_cast toInt32_of_lt hsmall
    rw [hoffset]
    constructor
    · exact fun h => ⟨hlt, h.2.1⟩
    · exact fun h => ⟨Int.mul_nonneg (Int.natCast_nonneg _) (Int.natCast_nonneg _), h.2, by omega⟩
  · have hwrap : toInt32 ((2 ^ 18 : ℕ) * metadataSize) = -2 ^ 31 := by decide
    rw [hwrap]
    constructor
    · exact fun h => absurd h.1 (by decide)
    · exact fun h => absurd h.1 (Nat.lt_irrefl _)

/-- A block of `xattrs` has room for 8192 bytes. -/
theorem xattrs_room {i : ℕ} (hi : i + 1 < 2 ^ 18) : toInt32 (i * metadataSize) = i * metadataSize ∧
    toInt32 ((i + 1) * metadataSize) = i * metadataSize + metadataSize := by
  have hsmall : (i + 1) * metadataSize < 2 ^ 31 := by
    rw [metadataSize]
    omega
  constructor
  · exact_mod_cast toInt32_of_lt (Nat.lt_of_le_of_lt (Nat.mul_le_mul_right _ (Nat.le_succ i)) hsmall)
  · have hnext := toInt32_of_lt hsmall
    push_cast at hnext
    rw [hnext]
    ring

/-- **One call**: it stays in its buffers if and only if the block fits. -/
theorem BlockCall.inBuffers_iff (hvalid : c.dest.Valid) : c.InBuffers m ↔ c.Fits m := by
  obtain ⟨start, dest⟩ := c
  have hlength := @MetadataReader.length_le_iff m start
  have hblock := @MetadataReader.block_readBlock m start
  have hres := @MetadataReader.res_readBlock m start
  cases dest with
  | growing bytes size =>
      obtain ⟨hnonneg, hroom⟩ := hvalid
      constructor
      · intro h
        obtain ⟨hstored, hcontents⟩ := hlength.mp ⟨h.buffer, h.block⟩
        refine ⟨hstored, .inr ⟨hcontents, ?_, ?_⟩⟩
        · rw [← hres]
          exact h.advanced_nonneg
        · rw [← hres]
          exact h.advanced_le
      · rintro ⟨hstored, hfits⟩
        have hcontents : (m.contents start).1.length ≤ metadataSize ∧
            0 ≤ bytes + (m.contents start).2 ∧ bytes + (m.contents start).2 ≤ size := by
          rcases hfits with hlimited | hfits
          · obtain ⟨hlength, hlow, hhigh⟩ := @MetadataReader.Limited.contents m start hlimited hstored
            exact ⟨hlength, by omega, by omega⟩
          · exact hfits
        obtain ⟨hbuffer, hle⟩ := hlength.mpr ⟨hstored, hcontents.1⟩
        refine ⟨hbuffer, hle, hnonneg, ?_, ?_, ?_⟩
        · show bytes + ((m.readBlock start).block.length : ℤ) ≤ size
          have hcast : ((m.readBlock start).block.length : ℤ) ≤ metadataSize := Int.ofNat_le.mpr hle
          omega
        · show 0 ≤ bytes + (m.readBlock start).res
          rw [hres]
          exact hcontents.2.1
        · show bytes + (m.readBlock start).res ≤ size
          rw [hres]
          exact hcontents.2.2
  | indexed i size =>
      have hinside := @indexed_inside_iff i (m.contents start).1.length size hvalid
      constructor
      · intro h
        obtain ⟨hstored, hcontents⟩ := hlength.mp ⟨h.buffer, h.block⟩
        refine ⟨hstored, hcontents, hinside.mp ⟨h.offset_nonneg, ?_, h.advanced_le⟩⟩
        rw [← hblock]
        exact h.le_size
      · rintro ⟨hstored, hcontents, hfits⟩
        obtain ⟨hbuffer, hle⟩ := hlength.mpr ⟨hstored, hcontents⟩
        obtain ⟨hoffset, hsize, hadvanced⟩ := hinside.mpr hfits
        rw [← hblock] at hsize
        exact ⟨hbuffer, hle, hoffset, hsize, hoffset, hadvanced⟩
  | xattrs i =>
      obtain ⟨hoffset, hsize⟩ := xattrs_room hvalid
      constructor
      · intro h
        obtain ⟨hstored, hcontents⟩ := hlength.mp ⟨h.buffer, h.block⟩
        exact ⟨hstored, .inr hcontents⟩
      · rintro ⟨hstored, hfits⟩
        have hcontents : (m.contents start).1.length ≤ metadataSize :=
          hfits.elim (fun hlimited => (@MetadataReader.Limited.contents m start hlimited hstored).1) id
        obtain ⟨hbuffer, hle⟩ := hlength.mpr ⟨hstored, hcontents⟩
        have hcast : ((m.readBlock start).block.length : ℤ) ≤ metadataSize := Int.ofNat_le.mpr hle
        have hnonneg : 0 ≤ toInt32 (i * metadataSize) := by
          rw [hoffset]
          exact Int.mul_nonneg (Int.natCast_nonneg _) (Int.natCast_nonneg _)
        have hmono : toInt32 (i * metadataSize) + metadataSize = toInt32 ((i + 1) * metadataSize) := by
          rw [hoffset, hsize]
        refine ⟨hbuffer, hle, hnonneg, ?_, hnonneg, ?_⟩
        · show toInt32 (i * metadataSize) + ((m.readBlock start).block.length : ℤ)
            ≤ toInt32 ((i + 1) * metadataSize)
          omega
        · show toInt32 (i * metadataSize) ≤ toInt32 ((i + 1) * metadataSize)
          omega

/-! ## The runs of the callers -/

theorem toInt32_lt (n : ℤ) : toInt32 n < 2 ^ 31 := by
  have hlt := @Int.bmod_lt n (2 ^ 32) (by decide)
  exact hlt

/-- An array that grows to less than `2 ^ 31` bytes grows by 8192; one that would be larger is not allocated. -/
theorem grow_eq {size : ℤ} (hnonneg : 0 ≤ size) (hlt : size < 2 ^ 31)
    (hpos : ¬toInt32 (size + metadataSize) < 0) : toInt32 (size + metadataSize) = size + metadataSize := by
  rw [toInt32, Int.bmod_def, metadataSize] at hpos ⊢
  omega

/-- There is room for 8192 bytes behind the blocks that have been read. -/
theorem valid_uncompressTable {start stop bytes size : ℤ} (hnonneg : 0 ≤ bytes) (hle : bytes ≤ size)
    (hlt : size < 2 ^ 31) (hc : c ∈ m.uncompressTable start stop bytes size) : c.dest.Valid := by
  have hroom : ∀ {bytes size : ℤ}, 0 ≤ bytes → bytes ≤ size → size < 2 ^ 31 →
      ¬(if size - bytes < metadataSize then toInt32 (size + metadataSize) else size) < 0 →
      bytes + metadataSize ≤ (if size - bytes < metadataSize then toInt32 (size + metadataSize) else size) ∧
      (if size - bytes < metadataSize then toInt32 (size + metadataSize) else size) < 2 ^ 31 := by
    intro bytes size hnonneg hle hlt hpos
    by_cases hfull : size - bytes < metadataSize
    · rw [if_pos hfull] at hpos ⊢
      refine ⟨?_, toInt32_lt _⟩
      rw [grow_eq (by omega) hlt hpos]
      omega
    · rw [if_neg hfull]
      exact ⟨by omega, hlt⟩
  fun_induction MetadataReader.uncompressTable m start stop bytes size with
  | case1 => cases hc
  | case2 start bytes size hstop grown hpos call hgoes ih =>
      obtain ⟨hvalid, hlt'⟩ := hroom hnonneg hle hlt hpos
      rcases List.mem_cons.mp hc with rfl | hc
      · exact ⟨hnonneg, hvalid⟩
      · exact ih hgoes.2.advanced_nonneg hgoes.2.advanced_le hlt' hc
  | case3 start bytes size hstop grown hpos call hgoes =>
      obtain ⟨hvalid, -⟩ := hroom hnonneg hle hlt hpos
      rcases List.mem_singleton.mp hc with rfl
      exact ⟨hnonneg, hvalid⟩
  | case4 => cases hc

theorem valid_indexTable {size : ℤ} {i : ℕ} {index : List ℤ} (hi : i ≤ 2 ^ 18)
    (hc : c ∈ m.indexTable size i index) : c.dest.Valid := by
  induction index generalizing i with
  | nil => cases hc
  | cons start index ih =>
      rw [MetadataReader.indexTable] at hc
      split at hc
      · rename_i hgoes
        rcases List.mem_cons.mp hc with rfl | hc
        · exact hi
        · refine ih ?_ hc
          -- the place of block `2 ^ 18` is negative
          have hvalid : (BlockDest.indexed i size).Valid := hi
          have hfits := (BlockCall.inBuffers_iff hvalid).mp hgoes.2
          exact hfits.2.2.1
      · rcases List.mem_singleton.mp hc with rfl
        exact hi

theorem valid_xattrTable {stop start : ℤ} {i : ℕ} (hi : i < 2 ^ 18)
    (hc : c ∈ m.xattrTable stop start i) : c.dest.Valid := by
  have hroom : ∀ {i : ℕ}, i < 2 ^ 18 → ¬toInt32 ((i + 1) * metadataSize) < 0 → i + 1 < 2 ^ 18 := by
    intro i hi hsize
    refine Nat.lt_of_le_of_ne hi fun heq => hsize ?_
    have hcast : ((i : ℤ) + 1) = (2 ^ 18 : ℕ) := by exact_mod_cast heq
    rw [hcast]
    decide
  fun_induction MetadataReader.xattrTable m stop start i with
  | case1 => cases hc
  | case2 start i hstop hsize call hgoes ih =>
      rcases List.mem_cons.mp hc with rfl | hc
      · exact hroom hi hsize
      · exact ih (hroom hi hsize) hc
  | case3 start i hstop hsize call hgoes =>
      rcases List.mem_singleton.mp hc with rfl
      exact hroom hi hsize
  | case4 => cases hc

theorem valid_readIndexTable {start : ℤ} {bytes : ℕ} (hc : c ∈ m.readIndexTable start bytes) :
    c.dest.Valid := by
  rw [MetadataReader.readIndexTable] at hc
  cases hindex : m.readIndex start (MetadataReader.tableBlocks bytes * 8) (MetadataReader.tableBlocks bytes) with
  | none =>
      rw [hindex] at hc
      cases hc
  | some index =>
      rw [hindex] at hc
      exact valid_indexTable (Nat.zero_le _) hc

theorem valid_xattrBlocks {bytes start : ℤ} {index : List ℤ} (hc : c ∈ m.xattrBlocks bytes start index) :
    c.dest.Valid := by
  rw [MetadataReader.xattrBlocks] at hc
  split at hc
  · rcases List.mem_append.mp hc with hc | hc
    · exact valid_indexTable (Nat.zero_le _) hc
    · exact valid_xattrTable (Nat.two_pow_pos 18) hc
  · exact valid_indexTable (Nat.zero_le _) hc

theorem valid_readXattrIds {start tableStart ids : ℤ} (hc : c ∈ m.readXattrIds start tableStart ids) :
    c.dest.Valid := by
  unfold MetadataReader.readXattrIds at hc
  dsimp only at hc
  split at hc
  · cases hc
  generalize m.readIndex start _ _ = index at hc
  cases index with
  | none => cases hc
  | some index => exact valid_xattrBlocks hc

theorem valid_of_mem_calls {caller : MetadataCaller} (hc : c ∈ caller.calls m) : c.dest.Valid := by
  cases caller with
  | inodeTable => exact valid_uncompressTable (le_refl _) (le_refl _) (by omega) hc
  | directoryTable => exact valid_uncompressTable (le_refl _) (le_refl _) (by omega) hc
  | fragmentTable =>
      change c ∈ m.readFragmentTable4 at hc
      rw [MetadataReader.readFragmentTable4] at hc
      split at hc
      · cases hc
      · exact valid_readIndexTable hc
  | uidsGuids =>
      change c ∈ m.readUidsGuids4 at hc
      rw [MetadataReader.readUidsGuids4] at hc
      exact valid_readIndexTable hc
  | xattrs =>
      change c ∈ m.readXattrsFromDisk at hc
      rw [MetadataReader.readXattrsFromDisk] at hc
      split at hc
      · cases hc
      split at hc
      case h_1 => exact valid_readXattrIds hc
      case h_2 => cases hc

/-- **The metadata of an image**: the reads of a caller stay in their buffers exactly when the blocks fit that it
comes to. -/
theorem metadataReads_iff (m : MetadataReader) (caller : MetadataCaller) :
    (∀ c ∈ caller.calls m, c.InBuffers m) ↔ ∀ c ∈ caller.calls m, c.Fits m :=
  forall₂_congr fun _ hc => BlockCall.inBuffers_iff (valid_of_mem_calls hc)

/-! ## An image -/

/-- An image whose id table has one id, and five bytes in its block. -/
def longIdTable : MetadataReader where
  image := SuperBlock.encode { noIds := 1, idTableStart := 96 } ++ packFields [(8, 104), (2, 0x8005)] ++
    [0, 0, 0, 0, 1]
  sBlk := { noIds := 1, idTableStart := 96 }
  uncompress := fun _ => ([], -1)

/-- The fifth byte is written behind the table. -/
theorem not_metadataReads : ¬∀ (m : MetadataReader), readSuper m.image = some m.sBlk → m.swap = false → m.Limited →
    ∀ (caller : MetadataCaller), ∀ c ∈ caller.calls m, c.InBuffers m := by
  intro h
  have hsuper : readSuper longIdTable.image = some longIdTable.sBlk := by decide +kernel
  have hlimited : longIdTable.Limited := fun _ => ⟨Nat.zero_le _, .inl rfl⟩
  have hcalls : MetadataCaller.uidsGuids.calls longIdTable = [⟨104, .indexed 0 4⟩] := by decide +kernel
  have hmem : ⟨104, .indexed 0 4⟩ ∈ MetadataCaller.uidsGuids.calls longIdTable := by
    rw [hcalls]
    exact List.mem_cons_self
  have hout : ¬BlockCall.InBuffers longIdTable ⟨104, .indexed 0 4⟩ := by decide +kernel
  exact hout (h longIdTable hsuper rfl hlimited .uidsGuids _ hmem)

end FirmwareTools.Squashfs

import FirmwareTools.Bytes.Blocks
import FirmwareTools.Bytes.Record

/-! # Metadata blocks

Metadata is written in blocks of 8192 bytes, each compressed if that makes it smaller, behind a length
of two bytes whose highest bit says that it is not compressed. The compressor is a parameter.

* **`readBlock_encodeMetadata`** — a block is read back wherever it is in an image;
* **`readTable_of_holds`** — so is a table with its index. -/

namespace FirmwareTools.Squashfs

/-! ## Compressing -/

/-- A compressor. `compress` gives nothing if the result does not fit into `block_size` bytes, and
`uncompress` gives at most as many bytes as its first argument says. -/
structure Compressor where
  compress : ℕ → List UInt8 → List UInt8
  uncompress : ℕ → List UInt8 → Option (List UInt8)

/-- What is compressed can be uncompressed. -/
def Compressor.Lossless (comp : Compressor) : Prop :=
  ∀ size block, block.length ≤ size → comp.compress size block ≠ [] →
    comp.uncompress size (comp.compress size block) = some block

/-- A compressor that makes nothing smaller. -/
def storeOnly : Compressor := ⟨fun _ _ => [], fun _ _ => none⟩

theorem storeOnly_lossless : storeOnly.Lossless := fun _ _ _ hne => absurd rfl hne

/-- `SQUASHFS_METADATA_SIZE` -/
def metadataSize : ℕ := 8192

/-- `SQUASHFS_COMPRESSED_BIT` -/
def compressedBit : ℕ := 1 <<< 15

/-- `SQUASHFS_COMPRESSED_BIT_BLOCK` -/
def compressedBitBlock : ℕ := 1 <<< 24

/-- `SQUASHFS_COMPRESSED_SIZE`, on the 16 bits that are stored. -/
def compressedSize (cByte : ℕ) : ℕ :=
  if cByte % compressedBit ≠ 0 then cByte % compressedBit else compressedBit

/-- `SQUASHFS_COMPRESSED` -/
def isCompressed (cByte : ℕ) : Bool := !cByte.testBit 15

/-- `mangle`: the length with its flag, and the bytes to store. -/
def mangle (comp : Compressor) (blockSize : ℕ) (uncompressed dataBlock : Bool) (s : List UInt8) :
    ℕ × List UInt8 :=
  let d := if uncompressed then [] else comp.compress blockSize s
  if d.length = 0 ∨ s.length ≤ d.length then
    (s.length ||| (if dataBlock then compressedBitBlock else compressedBit), s)
  else (d.length, d)

/-- A metadata block as it is stored. -/
def encodeMetadata (comp : Compressor) (uncompressed : Bool) (block : List UInt8) : List UInt8 :=
  let (cByte, d) := mangle comp metadataSize uncompressed false block
  leBytes 2 cByte ++ d

/-! ## Reading an image -/

/-- `read_fs_bytes`: it fails at the end of the image. -/
def readFsBytes (img : List UInt8) (start bytes : ℕ) : Option (List UInt8) :=
  readSlice img start bytes

/-- `read_block`: the block, and where the next one begins. A stored block that is longer than the
buffer overruns it, and nothing is known of what follows. -/
def readBlock (comp : Compressor) (img : List UInt8) (start : ℕ) : Option (List UInt8 × ℕ) := do
  let cByte := leValue (← readFsBytes img start 2)
  let size := compressedSize cByte
  let data ← readFsBytes img (start + 2) size
  if metadataSize < size then none
  else if isCompressed cByte then
    let block ← comp.uncompress metadataSize data
    some (block, start + 2 + size)
  else some (data, start + 2 + size)

/-! ## The round trip of a block -/

theorem isCompressed_of_lt {n : ℕ} (h : n < compressedBit) : isCompressed n = true := by
  rw [isCompressed, Nat.testBit_lt_two_pow h]
  rfl

theorem isCompressed_or (n : ℕ) : isCompressed (n ||| compressedBit) = false := by
  have hbit : compressedBit.testBit 15 = true := by decide
  rw [isCompressed, Nat.testBit_or, hbit, Bool.or_true]
  rfl

theorem compressedSize_of_lt {n : ℕ} (hpos : 0 < n) (h : n < compressedBit) :
    compressedSize n = n := by
  rw [compressedSize, Nat.mod_eq_of_lt h, if_pos (by omega)]

theorem or_compressedBit {n : ℕ} (h : n < compressedBit) :
    n ||| compressedBit = compressedBit + n := by
  have hadd := @Nat.two_pow_add_eq_or_of_lt 15 n h 1
  rw [Nat.or_comm]
  exact hadd.symm

theorem compressedSize_or {n : ℕ} (hpos : 0 < n) (h : n < compressedBit) :
    compressedSize (n ||| compressedBit) = n := by
  rw [or_compressedBit h, compressedSize, Nat.add_mod_left, Nat.mod_eq_of_lt h, if_pos (by omega)]

/-- What `mangle` stores of a metadata block: the block, flagged, or something shorter that can be
uncompressed. -/
theorem mangle_cases {comp : Compressor} (hcomp : comp.Lossless) (uncompressed : Bool)
    {block : List UInt8} (hlen : block.length ≤ metadataSize) :
    mangle comp metadataSize uncompressed false block = (block.length ||| compressedBit, block) ∨
      ∃ d, mangle comp metadataSize uncompressed false block = (d.length, d) ∧ 0 < d.length ∧
        d.length < block.length ∧ comp.uncompress metadataSize d = some block := by
  cases uncompressed with
  | true => exact .inl (by simp [mangle])
  | false =>
      simp only [mangle, Bool.false_eq_true, if_false]
      by_cases hstored : (comp.compress metadataSize block).length = 0 ∨
          block.length ≤ (comp.compress metadataSize block).length
      · exact .inl (if_pos hstored)
      · rw [if_neg hstored]
        rw [not_or, not_le] at hstored
        refine .inr ⟨_, rfl, Nat.pos_of_ne_zero hstored.1, hstored.2, hcomp _ _ hlen fun hnil => ?_⟩
        exact hstored.1 (congrArg List.length hnil)

theorem length_encodeMetadata_pos (comp : Compressor) (uncompressed : Bool) (block : List UInt8) :
    0 < (encodeMetadata comp uncompressed block).length := by
  rw [encodeMetadata, List.length_append, length_leBytes]
  omega

/-- `mangle` never stores more bytes than it is given. -/
theorem length_mangle_le (comp : Compressor) (blockSize : ℕ) (uncompressed dataBlock : Bool)
    (block : List UInt8) :
    (mangle comp blockSize uncompressed dataBlock block).2.length ≤ block.length := by
  unfold mangle
  dsimp only
  generalize (if uncompressed then [] else comp.compress blockSize block) = d
  split
  · exact le_refl _
  · rename_i hstored
    rw [not_or, not_le] at hstored
    exact hstored.2.le

theorem length_encodeMetadata_le (comp : Compressor) (uncompressed : Bool) (block : List UInt8) :
    (encodeMetadata comp uncompressed block).length ≤ 2 + block.length := by
  rw [encodeMetadata, List.length_append, length_leBytes]
  exact Nat.add_le_add_left (length_mangle_le comp metadataSize uncompressed false block) 2

/-- The stored block begins with its length and its flag. -/
theorem readBlock_of_holdsAt {comp : Compressor} {img d : List UInt8} {start cByte : ℕ}
    (h : HoldsAt img start (leBytes 2 cByte ++ d)) (hcByte : cByte < 256 ^ 2)
    (hsize : compressedSize cByte = d.length) (hne : d ≠ []) (hlen : d.length ≤ metadataSize) :
    readBlock comp img start = if isCompressed cByte then
        (comp.uncompress metadataSize d).map fun block => (block, start + 2 + d.length)
      else some (d, start + 2 + d.length) := by
  have hheader := readSlice_of_holdsAt h.left (by simp [leBytes])
  have hdata := readSlice_of_holdsAt h.right hne
  rw [length_leBytes] at hheader hdata
  have hvalue : leValue (leBytes 2 cByte) = cByte := by
    rw [leValue_leBytes, Nat.mod_eq_of_lt hcByte]
  simp only [readBlock, readFsBytes, hheader, Option.bind_eq_bind, Option.bind_some, hvalue, hsize, hdata]
  rw [if_neg (by omega)]
  split
  · cases comp.uncompress metadataSize d <;> rfl
  · rfl

/-- **A metadata block is read back**, wherever it is stored. -/
theorem readBlock_encodeMetadata {comp : Compressor} (hcomp : comp.Lossless) {uncompressed : Bool}
    {img block : List UInt8} {start : ℕ} (hne : block ≠ []) (hlen : block.length ≤ metadataSize)
    (h : HoldsAt img start (encodeMetadata comp uncompressed block)) :
    readBlock comp img start
      = some (block, start + (encodeMetadata comp uncompressed block).length) := by
  have hpos := List.length_pos_iff.mpr hne
  have hbit : metadataSize < compressedBit := by decide
  have hwidth : compressedBit + compressedBit = 256 ^ 2 := by decide
  unfold encodeMetadata at h ⊢
  rcases mangle_cases hcomp uncompressed hlen with hmangle | ⟨d, hmangle, hd, hdlen, hblock⟩
  · rw [hmangle] at h ⊢
    have hlt : block.length < compressedBit := by omega
    have hcByte : block.length ||| compressedBit < 256 ^ 2 := by
      rw [or_compressedBit hlt]
      omega
    rw [readBlock_of_holdsAt h hcByte (compressedSize_or hpos hlt) hne hlen,
      isCompressed_or, if_neg Bool.false_ne_true, List.length_append, length_leBytes, Nat.add_assoc]
  · rw [hmangle] at h ⊢
    have hlt : d.length < compressedBit := by omega
    rw [readBlock_of_holdsAt h (by omega) (compressedSize_of_lt hd hlt)
      (List.length_pos_iff.mp hd) (by omega), isCompressed_of_lt hlt, if_pos rfl, hblock,
      Option.map_some, List.length_append, length_leBytes, Nat.add_assoc]

/-! ## Tables -/

/-- `generic_write_table`: the bytes it writes from `bytes` on, and where it says the table begins. These
are the blocks of the table, `buffer2`, and an index of where the blocks begin. -/
def genericWriteTable (comp : Compressor) (uncompressed : Bool) (bytes : ℕ)
    (buffer buffer2 : List UInt8) : List UInt8 × ℕ :=
  let enc := encodeMetadata comp uncompressed
  let blocks := cutBlocks metadataSize buffer.length buffer
  let list := (placed enc bytes blocks).map Prod.fst
  (blocks.flatMap enc ++ buffer2 ++ packFields (list.map fun start => (8, start)),
    bytes + (blocks.flatMap enc).length)

theorem length_flatMap_encodeMetadata_le (comp : Compressor) (uncompressed : Bool)
    {blocks : List (List UInt8)} (h : ∀ b ∈ blocks, b ≠ []) :
    (blocks.flatMap (encodeMetadata comp uncompressed)).length ≤ 3 * blocks.flatten.length := by
  induction blocks with
  | nil => exact Nat.zero_le _
  | cons b blocks ih =>
      rw [List.forall_mem_cons] at h
      have hb := length_encodeMetadata_le comp uncompressed b
      have hpos := List.length_pos_iff.mpr h.1
      have hrest := ih h.2
      rw [List.flatMap_cons, List.flatten_cons, List.length_append, List.length_append]
      omega

/-- A table takes no more bytes than this. -/
theorem length_genericWriteTable_le (comp : Compressor) (uncompressed : Bool) (bytes : ℕ)
    (buffer buffer2 : List UInt8) :
    (genericWriteTable comp uncompressed bytes buffer buffer2).1.length
      ≤ 11 * buffer.length + buffer2.length := by
  have hsize : 0 < metadataSize := by decide
  have hblocks : ∀ b ∈ cutBlocks metadataSize buffer.length buffer, b ≠ [] :=
    fun b hb => (cutBlocks_ne_nil hsize hb).1
  have henc := length_flatMap_encodeMetadata_le comp uncompressed hblocks
  have hcount : (cutBlocks metadataSize buffer.length buffer).length
      ≤ (cutBlocks metadataSize buffer.length buffer).flatten.length := by
    rw [← List.flatMap_id]
    exact length_le_length_flatMap fun b hb => List.length_pos_iff.mpr (hblocks b hb)
  rw [flatten_cutBlocks hsize (le_refl _)] at henc hcount
  unfold genericWriteTable
  dsimp only
  rw [List.length_append, List.length_append, length_packFields, List.map_map, List.map_map]
  have hwidth : ∀ e ∈ placed (encodeMetadata comp uncompressed) bytes
      (cutBlocks metadataSize buffer.length buffer),
      ((Prod.fst ∘ fun start => ((8, start) : ℕ × ℕ)) ∘ Prod.fst) e = 8 := fun _ _ => rfl
  rw [List.map_congr_left hwidth, List.map_const', List.sum_replicate_nat,
    length_placed]
  omega

/-- One block of a table. An empty block is an error. -/
def readTableBlock (comp : Compressor) (img : List UInt8) (start : ℕ) : Option (List UInt8) := do
  let (block, _) ← readBlock comp img start
  if block = [] then none else some block

/-- Read the blocks of a table by the `indexes` entries of the index at `start`. -/
def readTable (comp : Compressor) (img : List UInt8) (start indexes : ℕ) :
    Option (List ℕ × List (List UInt8)) := do
  let index ← readFields (List.replicate indexes 8) (← readFsBytes img start (indexes * 8))
  let blocks ← index.mapM (readTableBlock comp img)
  some (index, blocks)

theorem mapM_readBlock {comp : Compressor} (hcomp : comp.Lossless) {uncompressed : Bool}
    {img : List UInt8} {blocks : List (List UInt8)} {start : ℕ}
    (hblocks : ∀ b ∈ blocks, b ≠ [] ∧ b.length ≤ metadataSize)
    (h : HoldsAt img start (blocks.flatMap (encodeMetadata comp uncompressed))) :
    ((placed (encodeMetadata comp uncompressed) start blocks).map Prod.fst).mapM
      (readTableBlock comp img) = some blocks := by
  induction blocks generalizing start with
  | nil => rfl
  | cons b blocks ih =>
      rw [List.forall_mem_cons] at hblocks
      rw [List.flatMap_cons] at h
      have hfirst : readTableBlock comp img start = some b := by
        rw [readTableBlock, readBlock_encodeMetadata hcomp hblocks.1.1 hblocks.1.2 h.left]
        exact if_neg hblocks.1.1
      rw [placed, List.map_cons, List.mapM_cons, ih hblocks.2 h.right, hfirst]
      rfl

/-- **A table is read back** by the index that was written with it. -/
theorem readTable_of_holds {comp : Compressor} (hcomp : comp.Lossless) {uncompressed : Bool}
    {img buffer buffer2 : List UInt8} {bytes : ℕ} (hne : buffer ≠ [])
    (h : HoldsAt img bytes (genericWriteTable comp uncompressed bytes buffer buffer2).1)
    (hbound : img.length < 256 ^ 8) :
    readTable comp img
        ((genericWriteTable comp uncompressed bytes buffer buffer2).2 + buffer2.length)
        ((buffer.length + metadataSize - 1) / metadataSize)
      = some ((placed (encodeMetadata comp uncompressed) bytes
          (cutBlocks metadataSize buffer.length buffer)).map Prod.fst,
        cutBlocks metadataSize buffer.length buffer) := by
  have hsize : 0 < metadataSize := by decide
  have hcount := length_cutBlocks hsize (le_refl buffer.length)
  have hblocks : ∀ b ∈ cutBlocks metadataSize buffer.length buffer,
      b ≠ [] ∧ b.length ≤ metadataSize := fun b hb => cutBlocks_ne_nil hsize hb
  have hpos : 0 < (cutBlocks metadataSize buffer.length buffer).length := by
    have := List.length_pos_iff.mpr hne
    rw [hcount]
    exact Nat.div_pos (by omega) hsize
  unfold genericWriteTable at h ⊢
  dsimp only at h ⊢
  rw [← hcount]
  generalize cutBlocks metadataSize buffer.length buffer = blocks at h hblocks hpos ⊢
  set index := (placed (encodeMetadata comp uncompressed) bytes blocks).map Prod.fst with hindex
  have hlen : (index.map fun start => (8, start)).map Prod.fst = List.replicate blocks.length 8 := by
    rw [List.map_map, hindex, List.map_map]
    refine List.eq_replicate_iff.mpr ⟨by rw [List.length_map, length_placed], fun b hb => ?_⟩
    obtain ⟨_, -, rfl⟩ := List.mem_map.mp hb
    rfl
  have hbytes : (packFields (index.map fun start => (8, start))).length = blocks.length * 8 := by
    rw [length_packFields, hlen, List.sum_replicate_nat]
  have hindexNe : packFields (index.map fun start => (8, start)) ≠ [] := by
    rw [← List.length_pos_iff, hbytes]
    omega
  have hencoded : blocks.flatMap (encodeMetadata comp uncompressed) ≠ [] := by
    rw [ne_eq, List.flatMap_eq_nil_iff]
    intro hnil
    obtain ⟨b, hb⟩ := List.exists_mem_of_length_pos hpos
    have hb' := length_encodeMetadata_pos comp uncompressed b
    rw [hnil b hb] at hb'
    exact absurd hb' (Nat.lt_irrefl 0)
  have hvalues : (index.map fun start => (8, start)).map (fun f => f.2 % 256 ^ f.1) = index := by
    rw [List.map_map]
    refine (List.map_congr_left fun start hstart => ?_).trans (List.map_id index)
    rw [hindex] at hstart
    obtain ⟨e, he, rfl⟩ := List.mem_map.mp hstart
    have hle := placed_le he
    have himg := h.left.left.length_le hencoded
    have hlt : e.1 < 256 ^ 8 := by omega
    exact Nat.mod_eq_of_lt hlt
  have hread := readSlice_of_holdsAt h.right hindexNe
  rw [hbytes, List.length_append, ← Nat.add_assoc] at hread
  have hfields := readFields_packFields (index.map fun start => (8, start)) []
  rw [hlen, List.append_nil, hvalues] at hfields
  simp only [readTable, readFsBytes, hread, Option.bind_eq_bind, Option.bind_some, hfields]
  rw [hindex, mapM_readBlock hcomp hblocks h.left.left]
  rfl

end FirmwareTools.Squashfs

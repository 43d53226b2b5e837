import FirmwareTools.Squashfs.Metadata

/-! # The tables of inodes and directories

Inodes and directories are collected in a cache, which is written in metadata blocks when it holds one;
at the end the rest of it is written. `unsquashfs` reads all blocks of such a table into one buffer and
notes where each of them begins in it. Its sizes are `int`s.

* **`uncompressTable_of_holds`** — reading a table gives what was put into it, if that takes less than
  `2 ^ 18` blocks, and fails otherwise;
* **`lookupEntry_slot`** — a place in the stream is found in the buffer. -/

namespace FirmwareTools.Squashfs

/-! ## Writing -/

/-- `write_inodes` and `write_directories`: all that is written of a table. -/
def writeTable (comp : Compressor) (uncompressed : Bool) (s : BlockStream) : List UInt8 :=
  s.written ++ (cutBlocks metadataSize s.cache.length s.cache).flatMap
    (encodeMetadata comp uncompressed)

/-- A full block of metadata as long as the cache holds one is written. -/
def flushTable (comp : Compressor) (uncompressed : Bool) (s : BlockStream) : BlockStream :=
  s.flush (encodeMetadata comp uncompressed) metadataSize s.cache.length

/-! ## Reading -/

/-- A table that was read: the entries of its hash table, which say where the block that is stored at a
position begins in the buffer, the newest first, and the buffer. -/
structure UncompressedTable where
  entries : List (ℕ × ℕ) := []
  bytes : List UInt8 := []

/-- `lookup_entry` -/
def lookupEntry (entries : List (ℕ × ℕ)) (start : ℕ) : Option ℕ :=
  (entries.find? fun e => e.1 == start).map Prod.snd

/-- The loop of `uncompress_inode_table` and of `uncompress_directory_table`. When the `int` for the size
of the buffer overflows, `realloc` fails. The first argument is a bound on the number of blocks. -/
def uncompressLoop (comp : Compressor) (img : List UInt8) (stop : ℕ) :
    ℕ → ℕ → ℕ → UncompressedTable → Option UncompressedTable
  | 0, start, _, t => if start < stop then none else some t
  | n + 1, start, size, t =>
    if start < stop then
      let size := if size - t.bytes.length < metadataSize then size + metadataSize else size
      if 2 ^ 31 ≤ size then none
      else (readBlock comp img start).bind fun r =>
        if r.1 = [] then none
        else uncompressLoop comp img stop n r.2 size
          ⟨(start, t.bytes.length) :: t.entries, t.bytes ++ r.1⟩
    else some t

/-- `uncompress_inode_table` and `uncompress_directory_table` -/
def uncompressTable (comp : Compressor) (img : List UInt8) (start stop : ℕ) :
    Option UncompressedTable :=
  uncompressLoop comp img stop (stop - start) start 0 {}

/-! ## The blocks of a table -/

variable {comp : Compressor} {uncompressed : Bool} {s : BlockStream} {data : List UInt8}
  {blocks : List (List UInt8)}

theorem metadataSize_pos : 0 < metadataSize := by decide

/-- Full blocks in front of other bytes are cut off first. -/
theorem cutBlocks_flatten_append {size n : ℕ} {rest : List UInt8} (hsize : 0 < size)
    (h : ∀ b ∈ blocks, b.length = size) :
    cutBlocks size (blocks.length + n) (blocks.flatten ++ rest) = blocks ++ cutBlocks size n rest := by
  induction blocks with
  | nil => simp
  | cons b blocks ih =>
      rw [List.forall_mem_cons] at h
      have hne : b ++ (blocks.flatten ++ rest) ≠ [] := by
        refine List.append_ne_nil_of_left_ne_nil (List.length_pos_iff.mp ?_) _
        rw [h.1]
        exact hsize
      rw [List.flatten_cons, List.append_assoc, List.length_cons, Nat.add_right_comm, cutBlocks,
        if_neg hne, List.take_left' h.1, List.drop_left' h.1, ih h.2, List.cons_append]

/-- All blocks of a table are those of its stream. -/
theorem cutBlocks_of_holds (h : s.Holds (encodeMetadata comp uncompressed) metadataSize blocks data) :
    cutBlocks metadataSize data.length data =
      blocks ++ cutBlocks metadataSize s.cache.length s.cache := by
  obtain ⟨-, hfull, rfl⟩ := h
  have hlen : (blocks.flatten ++ s.cache).length = blocks.length * metadataSize + s.cache.length := by
    rw [List.length_append, length_flatten_full hfull]
  rw [← cutBlocks_of_le metadataSize_pos (Nat.le_add_left _ blocks.length),
    cutBlocks_flatten_append metadataSize_pos hfull,
    cutBlocks_of_le metadataSize_pos (by omega)]

/-- **What is written of a table** is its stream, cut into blocks. -/
theorem writeTable_of_holds (h : s.Holds (encodeMetadata comp uncompressed) metadataSize blocks data) :
    writeTable comp uncompressed s =
      (cutBlocks metadataSize data.length data).flatMap (encodeMetadata comp uncompressed) := by
  rw [cutBlocks_of_holds h, List.flatMap_append, ← h.written, writeTable]

/-! ## Reading back -/

/-- The entries for the blocks of a table, the first one at `start` and the block number `j`. -/
def blockEntries (enc : List UInt8 → List UInt8) (start j : ℕ) (blocks : List (List UInt8)) :
    List (ℕ × ℕ) :=
  (((placed enc start blocks).map Prod.fst).zipIdx j).map fun e => (e.1, e.2 * metadataSize)

theorem uncompressLoop_end (comp : Compressor) (img : List UInt8) (stop n size : ℕ)
    (t : UncompressedTable) : uncompressLoop comp img stop n stop size t = some t := by
  cases n with
  | zero => rw [uncompressLoop, if_neg (lt_irrefl stop)]
  | succ n => rw [uncompressLoop, if_neg (lt_irrefl stop)]

theorem blockEntries_cons (enc : List UInt8 → List UInt8) (start j : ℕ) (b : List UInt8) :
    blockEntries enc start j (b :: blocks) =
      (start, j * metadataSize) :: blockEntries enc (start + (enc b).length) (j + 1) blocks := rfl

/-- The loop goes through the blocks, up to the one for which the size overflows. -/
theorem uncompressLoop_blocks (hcomp : comp.Lossless) {img : List UInt8} {start stop n j : ℕ}
    {t : UncompressedTable} (hblocks : ∀ b ∈ blocks, b ≠ [] ∧ b.length ≤ metadataSize)
    (hfull : ∀ b ∈ blocks.dropLast, b.length = metadataSize)
    (himg : HoldsAt img start (blocks.flatMap (encodeMetadata comp uncompressed)))
    (hstop : stop = start + (blocks.flatMap (encodeMetadata comp uncompressed)).length)
    (hn : blocks.length ≤ n) (ht : t.bytes.length = j * metadataSize) (hj : j < 2 ^ 18) :
    uncompressLoop comp img stop n start (j * metadataSize) t =
      if j + blocks.length < 2 ^ 18 then
        some ⟨(blockEntries (encodeMetadata comp uncompressed) start j blocks).reverse ++ t.entries,
          t.bytes ++ blocks.flatten⟩
      else none := by
  induction blocks generalizing start n j t with
  | nil =>
      rw [hstop, List.flatMap_nil, List.length_nil, Nat.add_zero, uncompressLoop_end,
        if_pos (by simpa using hj)]
      simp [blockEntries, placed]
  | cons b blocks ih =>
      rw [List.forall_mem_cons] at hblocks
      rw [List.flatMap_cons] at himg hstop
      have hpos := length_encodeMetadata_pos comp uncompressed b
      rw [List.length_append] at hstop
      cases n with
      | zero => cases hn
      | succ n =>
          have hsize : j * metadataSize - t.bytes.length < metadataSize := by
            rw [ht, Nat.sub_self]
            exact metadataSize_pos
          have hmul : (j + 1) * metadataSize = j * metadataSize + metadataSize := Nat.succ_mul _ _
          rw [uncompressLoop, if_pos (by omega)]
          simp only [if_pos hsize]
          rw [← hmul]
          by_cases hnext : j + 1 < 2 ^ 18
          · have hfits : ¬ 2 ^ 31 ≤ (j + 1) * metadataSize := by
              unfold metadataSize
              omega
            rw [if_neg hfits, readBlock_encodeMetadata hcomp hblocks.1.1 hblocks.1.2 himg.left,
              Option.bind_some, if_neg hblocks.1.1]
            cases blocks with
            | nil =>
                have hend : start + (encodeMetadata comp uncompressed b).length = stop := by
                  rw [hstop, List.flatMap_nil, List.length_nil, Nat.add_zero]
                rw [hend, uncompressLoop_end, if_pos (show j + [b].length < 2 ^ 18 from hnext), ht]
                simp [blockEntries, placed]
            | cons c blocks =>
                rw [List.dropLast_cons_of_ne_nil (List.cons_ne_nil c blocks),
                  List.forall_mem_cons] at hfull
                have hbytes : (t.bytes ++ b).length = (j + 1) * metadataSize := by
                  rw [List.length_append, ht, hfull.1, hmul]
                rw [ih hblocks.2 hfull.2 himg.right (by rw [hstop, Nat.add_assoc])
                  (Nat.le_of_succ_le_succ hn) hbytes hnext]
                have hcount : j + 1 + (c :: blocks).length = j + (b :: c :: blocks).length := by
                  simp only [List.length_cons]
                  omega
                rw [hcount, blockEntries_cons _ start, List.reverse_cons, List.append_assoc, ht,
                  List.flatten_cons (l := b), List.append_assoc]
                rfl
          · have hover : 2 ^ 31 ≤ (j + 1) * metadataSize := by
              unfold metadataSize
              omega
            have hcount : ¬ j + (b :: blocks).length < 2 ^ 18 := by
              rw [List.length_cons]
              omega
            rw [if_pos hover, if_neg hcount]

/-- **Reading a table**: it gives all bytes and the entries of the blocks, if there are less than
`2 ^ 18` blocks, and fails otherwise. -/
theorem uncompressTable_of_holds (hcomp : comp.Lossless) {img : List UInt8} {start : ℕ}
    (h : s.Holds (encodeMetadata comp uncompressed) metadataSize blocks data)
    (himg : HoldsAt img start (writeTable comp uncompressed s)) :
    uncompressTable comp img start (start + (writeTable comp uncompressed s).length) =
      if data.length ≤ 2 ^ 31 - metadataSize then
        some ⟨(blockEntries (encodeMetadata comp uncompressed) start 0
          (cutBlocks metadataSize data.length data)).reverse, data⟩
      else none := by
  rw [writeTable_of_holds h] at himg ⊢
  have hblocks : ∀ b ∈ cutBlocks metadataSize data.length data, b ≠ [] ∧ b.length ≤ metadataSize :=
    fun b hb => cutBlocks_ne_nil metadataSize_pos hb
  have hfull : ∀ b ∈ (cutBlocks metadataSize data.length data).dropLast, b.length = metadataSize :=
    fun b hb => length_of_mem_dropLast_cutBlocks hb
  have hcount := length_cutBlocks metadataSize_pos (le_refl data.length)
  have hflat := flatten_cutBlocks metadataSize_pos (le_refl data.length)
  have hn : (cutBlocks metadataSize data.length data).length ≤
      ((cutBlocks metadataSize data.length data).flatMap (encodeMetadata comp uncompressed)).length :=
    length_le_length_flatMap fun b _ => length_encodeMetadata_pos comp uncompressed b
  have hread := uncompressLoop_blocks (j := 0) (t := {}) hcomp hblocks hfull himg rfl hn rfl (by decide)
  rw [uncompressTable, Nat.add_sub_cancel_left]
  rw [Nat.zero_mul, Nat.zero_add, hflat, List.append_nil, List.nil_append, hcount] at hread
  rw [hread]
  have hiff : (data.length + metadataSize - 1) / metadataSize < 2 ^ 18 ↔
      data.length ≤ 2 ^ 31 - metadataSize := by
    unfold metadataSize
    omega
  by_cases hfits : data.length ≤ 2 ^ 31 - metadataSize
  · rw [if_pos hfits, if_pos (hiff.mpr hfits)]
  · rw [if_neg hfits, if_neg (mt hiff.mp hfits)]

/-- The entry for a block is found by where it is stored. -/
theorem lookupEntry_blockEntries (enc : List UInt8 → List UInt8) (base start : ℕ) :
    lookupEntry (blockEntries enc base 0 blocks).reverse start =
      (getBlock ((placed enc base blocks).map Prod.fst) start).map (· * metadataSize) := by
  rw [lookupEntry, getBlock, blockEntries, ← List.map_reverse, List.find?_map, Option.map_map,
    Option.map_map]
  rfl

/-- **A place in the stream is found in the buffer**, if its block is there. -/
theorem lookupEntry_slot (h : s.Holds (encodeMetadata comp uncompressed) metadataSize blocks data)
    {start offset o : ℕ}
    (hplace : PlaceOf (encodeMetadata comp uncompressed) metadataSize blocks start offset o)
    (ho : o < (cutBlocks metadataSize data.length data).length * metadataSize) (base : ℕ) :
    ∃ bytes, lookupEntry (blockEntries (encodeMetadata comp uncompressed) base 0
      (cutBlocks metadataSize data.length data)).reverse (base + start) = some bytes ∧
        bytes + offset = o := by
  have hplace' := hplace.append (cutBlocks metadataSize s.cache.length s.cache)
  rw [← cutBlocks_of_holds h] at hplace'
  obtain ⟨k, hk, hko⟩ := getBlock_place
    (fun b _ => length_encodeMetadata_pos comp uncompressed b) hplace' ho
  refine ⟨k * metadataSize, ?_, hko⟩
  rw [lookupEntry_blockEntries, hk, Option.map_some]

/-- The block of a byte is there. -/
theorem lt_slots {o : ℕ} (ho : o < data.length) :
    o < (cutBlocks metadataSize data.length data).length * metadataSize := by
  refine lt_of_lt_of_le ho ?_
  conv_lhs => rw [← flatten_cutBlocks metadataSize_pos (le_refl data.length)]
  exact length_flatten_le fun b hb => (cutBlocks_ne_nil metadataSize_pos hb).2

end FirmwareTools.Squashfs

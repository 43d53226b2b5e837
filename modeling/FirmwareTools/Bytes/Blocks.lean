import Mathlib.Data.List.Basic
import Mathlib.Data.List.Nodup
import Mathlib.Tactic.Ring

/-! # Streams written in blocks

Bytes are collected in a cache. Whole blocks of a fixed size are taken off its front, encoded, and
written one behind the other; an encoded block may be of any length. A place in the stream is noted as
where its block begins among the encoded bytes and the offset in the block, and is found again in a
buffer of all decoded blocks.

* **`BlockStream.Holds.place_end`** — what is noted for the end of the stream is the place of what comes
  next, and **`PlaceOf.append`** — it stays that place;
* **`readBlocks_placed`** — reading from the first block on gives all blocks and where they begin;
* **`getBlock_place`** — so a place leads to its block. -/

namespace FirmwareTools

/-! ## Cutting -/

/-- Cut a run of bytes into blocks of `size`, the last one as long as what is left of it. The first
argument is a bound on the number of blocks. -/
def cutBlocks (size : ℕ) : ℕ → List UInt8 → List (List UInt8)
  | 0, _ => []
  | n + 1, data =>
    if data = [] then [] else data.take size :: cutBlocks size n (data.drop size)

theorem cutBlocks_nil (size n : ℕ) : cutBlocks size n [] = [] := by
  cases n <;> rfl

theorem cutBlocks_ne_nil {size n : ℕ} {data b : List UInt8} (hsize : 0 < size)
    (hb : b ∈ cutBlocks size n data) : b ≠ [] ∧ b.length ≤ size := by
  induction n generalizing data with
  | zero => exact absurd hb List.not_mem_nil
  | succ n ih =>
      unfold cutBlocks at hb
      split at hb
      · exact absurd hb List.not_mem_nil
      · rename_i hdata
        rcases List.mem_cons.mp hb with rfl | hb
        · refine ⟨?_, List.length_take_le _ _⟩
          rw [ne_eq, List.take_eq_nil_iff, not_or]
          exact ⟨by omega, hdata⟩
        · exact ih hb

theorem flatten_cutBlocks {size n : ℕ} {data : List UInt8} (hsize : 0 < size)
    (hn : data.length ≤ n) : (cutBlocks size n data).flatten = data := by
  induction n generalizing data with
  | zero =>
      rw [List.length_eq_zero_iff.mp (Nat.le_zero.mp hn)]
      rfl
  | succ n ih =>
      unfold cutBlocks
      split
      · rename_i hdata
        rw [hdata, List.flatten_nil]
      · rename_i hdata
        have hpos : 0 < data.length := List.length_pos_iff.mpr hdata
        rw [List.flatten_cons, ih (by rw [List.length_drop]; omega), List.take_append_drop]

theorem length_cutBlocks {size n : ℕ} {data : List UInt8} (hsize : 0 < size)
    (hn : data.length ≤ n) : (cutBlocks size n data).length = (data.length + size - 1) / size := by
  induction n generalizing data with
  | zero =>
      rw [Nat.le_zero.mp hn, Nat.zero_add, Nat.div_eq_of_lt (by omega)]
      rfl
  | succ n ih =>
      unfold cutBlocks
      split
      · rename_i hdata
        rw [hdata, List.length_nil, List.length_nil, Nat.zero_add, Nat.div_eq_of_lt (by omega)]
      · rename_i hdata
        have hpos : 0 < data.length := List.length_pos_iff.mpr hdata
        rw [List.length_cons, ih (by rw [List.length_drop]; omega), List.length_drop]
        by_cases hlen : size ≤ data.length
        · rw [show data.length + size - 1 = data.length - size + size - 1 + size by omega,
            Nat.add_div_right _ hsize]
        · rw [show data.length - size = 0 by omega, Nat.zero_add,
            Nat.div_eq_of_lt (show size - 1 < size by omega),
            show data.length + size - 1 = data.length - 1 + size by omega,
            Nat.add_div_right _ hsize, Nat.div_eq_of_lt (by omega)]

/-- Only the last block may be shorter than the others. -/
theorem length_of_mem_dropLast_cutBlocks {size n : ℕ} {data b : List UInt8}
    (hb : b ∈ (cutBlocks size n data).dropLast) : b.length = size := by
  induction n generalizing data with
  | zero => exact absurd hb List.not_mem_nil
  | succ n ih =>
      unfold cutBlocks at hb
      split at hb
      · exact absurd hb List.not_mem_nil
      · cases hrest : cutBlocks size n (data.drop size) with
        | nil =>
            rw [hrest] at hb
            exact absurd hb List.not_mem_nil
        | cons c cs =>
            rw [hrest, List.dropLast_cons_of_ne_nil (List.cons_ne_nil c cs)] at hb
            rcases List.mem_cons.mp hb with rfl | hb
            · -- something is left behind a block, so it is whole
              rw [List.length_take]
              have hdrop : data.drop size ≠ [] := by
                intro hnil
                rw [hnil, cutBlocks_nil] at hrest
                cases hrest
              rw [ne_eq, List.drop_eq_nil_iff] at hdrop
              omega
            · rw [← hrest] at hb
              exact ih hb

/-- The length of each block. -/
theorem length_getElem_cutBlocks {size n : ℕ} {data block : List UInt8} {j : ℕ}
    (hj : (cutBlocks size n data)[j]? = some block) :
    block.length = min size (data.length - j * size) := by
  induction n generalizing data j with
  | zero => cases hj
  | succ n ih =>
      unfold cutBlocks at hj
      split at hj
      · cases hj
      · cases j with
        | zero =>
            rw [List.getElem?_cons_zero, Option.some.injEq] at hj
            rw [← hj, List.length_take, Nat.zero_mul, Nat.sub_zero]
        | succ j =>
            rw [List.getElem?_cons_succ] at hj
            rw [ih hj, List.length_drop, Nat.succ_mul, Nat.sub_sub, Nat.add_comm size]

/-- The lengths of the blocks do not depend on the bytes. -/
theorem map_length_cutBlocks {size n : ℕ} {data data' : List UInt8}
    (h : data.length = data'.length) :
    (cutBlocks size n data).map List.length = (cutBlocks size n data').map List.length := by
  induction n generalizing data data' with
  | zero => rfl
  | succ n ih =>
      have hnil : data = [] ↔ data' = [] := by
        rw [← List.length_eq_zero_iff, h, List.length_eq_zero_iff]
      unfold cutBlocks
      by_cases hdata : data = []
      · rw [if_pos hdata, if_pos (hnil.mp hdata)]
      · have hdrop : (data.drop size).length = (data'.drop size).length := by
          rw [List.length_drop, List.length_drop, h]
        rw [if_neg hdata, if_neg (mt hnil.mpr hdata), List.map_cons, List.map_cons, List.length_take,
          List.length_take, h, ih hdrop]

/-- The blocks one by one. -/
theorem cutBlocks_eq_map {size n : ℕ} {data : List UInt8} (hsize : 0 < size)
    (hn : data.length ≤ n) : cutBlocks size n data
      = (List.range ((data.length + size - 1) / size)).map fun j => (data.drop (j * size)).take size := by
  have hlen := length_cutBlocks hsize hn
  refine List.ext_getElem (by rw [hlen, List.length_map, List.length_range]) fun j hj hj' => ?_
  rw [List.getElem_map, List.getElem_range]
  clear hlen hj'
  induction n generalizing data j with
  | zero => exact absurd hj (by simp [cutBlocks])
  | succ n ih =>
      unfold cutBlocks at hj ⊢
      split at hj
      · exact absurd hj (by simp)
      · rename_i hdata
        have hpos := List.length_pos_iff.mpr hdata
        simp only [if_neg hdata]
        cases j with
        | zero => rw [List.getElem_cons_zero, Nat.zero_mul, List.drop_zero]
        | succ j =>
            rw [List.length_cons, Nat.succ_lt_succ_iff] at hj
            rw [List.getElem_cons_succ, ih (by rw [List.length_drop]; omega) j hj, List.drop_drop,
              Nat.succ_mul, Nat.add_comm size]

/-- The bound does not matter if it is large enough. -/
theorem cutBlocks_of_le {size n : ℕ} {data : List UInt8} (hsize : 0 < size)
    (hn : data.length ≤ n) : cutBlocks size n data = cutBlocks size data.length data := by
  rw [cutBlocks_eq_map hsize hn, cutBlocks_eq_map hsize (le_refl _)]

/-- Full blocks are cut as they were put together. -/
theorem cutBlocks_flatten {size n : ℕ} {blocks : List (List UInt8)} (hsize : 0 < size)
    (h : ∀ b ∈ blocks, b.length = size) (hn : blocks.length ≤ n) :
    cutBlocks size n blocks.flatten = blocks := by
  induction blocks generalizing n with
  | nil => exact cutBlocks_nil size n
  | cons b blocks ih =>
      rw [List.forall_mem_cons] at h
      cases n with
      | zero => cases hn
      | succ n =>
          have hne : b ++ blocks.flatten ≠ [] := by
            refine List.append_ne_nil_of_left_ne_nil (List.length_pos_iff.mp ?_) _
            rw [h.1]
            exact hsize
          rw [List.flatten_cons, cutBlocks, if_neg hne, List.take_left' h.1, List.drop_left' h.1,
            ih h.2 (Nat.le_of_succ_le_succ hn)]

/-! ## Writing -/

/-- The encoded blocks, and the bytes that are not written yet. -/
structure BlockStream where
  written : List UInt8 := []
  cache : List UInt8 := []
  deriving DecidableEq, Repr

section

variable (enc : List UInt8 → List UInt8) (size : ℕ)

/-- Write whole blocks as long as the cache holds one. The first argument is a bound on their
number. -/
def BlockStream.flush : ℕ → BlockStream → BlockStream
  | 0, s => s
  | n + 1, s =>
    if size ≤ s.cache.length then
      flush n ⟨s.written ++ enc (s.cache.take size), s.cache.drop size⟩
    else s

/-- Add bytes. -/
def BlockStream.append (s : BlockStream) (bytes : List UInt8) : BlockStream :=
  { s with cache := s.cache ++ bytes }

/-- The stream has written `blocks`, and `data` is all that was added to it. -/
structure BlockStream.Holds (s : BlockStream) (blocks : List (List UInt8)) (data : List UInt8) :
    Prop where
  written : s.written = blocks.flatMap enc
  full : ∀ b ∈ blocks, b.length = size
  data : blocks.flatten ++ s.cache = data

/-- Where a block begins among the encoded bytes. -/
def blockStart (blocks : List (List UInt8)) (k : ℕ) : ℕ := ((blocks.take k).flatMap enc).length

/-- The byte `o` of the stream is at `offset` in the block that begins at `start`. -/
def PlaceOf (blocks : List (List UInt8)) (start offset o : ℕ) : Prop :=
  ∃ k ≤ blocks.length, start = blockStart enc blocks k ∧ o = k * size + offset ∧ offset < size

end

variable {enc : List UInt8 → List UInt8} {size : ℕ} {s : BlockStream}
  {blocks : List (List UInt8)} {data : List UInt8}

theorem BlockStream.holds_empty : BlockStream.Holds enc size {} [] [] :=
  ⟨rfl, fun _ h => absurd h List.not_mem_nil, rfl⟩

theorem BlockStream.Holds.append (h : s.Holds enc size blocks data) (bytes : List UInt8) :
    (s.append bytes).Holds enc size blocks (data ++ bytes) :=
  ⟨h.written, h.full, by rw [BlockStream.append, ← h.data, List.append_assoc]⟩

/-- A full block is taken off the cache and written. -/
theorem BlockStream.Holds.write (h : s.Holds enc size blocks data) (hfull : size ≤ s.cache.length) :
    BlockStream.Holds enc size ⟨s.written ++ enc (s.cache.take size), s.cache.drop size⟩
      (blocks ++ [s.cache.take size]) data := by
  refine ⟨?_, ?_, ?_⟩
  · rw [List.flatMap_append, List.flatMap_singleton, h.written]
  · rw [List.forall_mem_append, List.forall_mem_singleton, List.length_take]
    exact ⟨h.full, by omega⟩
  · rw [List.flatten_append, List.flatten_singleton, List.append_assoc, List.take_append_drop,
      h.data]

/-- Writing blocks changes nothing of the stream. -/
theorem BlockStream.Holds.flush (h : s.Holds enc size blocks data) (n : ℕ) :
    ∃ more, (s.flush enc size n).Holds enc size (blocks ++ more) data := by
  induction n generalizing s blocks with
  | zero => exact ⟨[], by rwa [List.append_nil]⟩
  | succ n ih =>
      unfold BlockStream.flush
      split
      · rename_i hfull
        obtain ⟨more, hmore⟩ := ih (h.write hfull)
        exact ⟨s.cache.take size :: more, by rwa [List.append_assoc] at hmore⟩
      · exact ⟨[], by rwa [List.append_nil]⟩

/-- With a bound that is large enough less than a block is left. -/
theorem BlockStream.length_cache_flush (enc : List UInt8 → List UInt8) (hsize : 0 < size) {n : ℕ}
    (hn : s.cache.length ≤ n) :
    (s.flush enc size n).cache.length < size := by
  induction n generalizing s with
  | zero =>
      unfold BlockStream.flush
      omega
  | succ n ih =>
      unfold BlockStream.flush
      split
      · refine ih ?_
        rw [List.length_drop]
        omega
      · omega

theorem length_flatten_full (h : ∀ b ∈ blocks, b.length = size) :
    blocks.flatten.length = blocks.length * size := by
  rw [List.length_flatten, List.map_congr_left h, List.map_const', List.sum_replicate_nat]

theorem length_flatten_le (h : ∀ b ∈ blocks, b.length ≤ size) :
    blocks.flatten.length ≤ blocks.length * size := by
  induction blocks with
  | nil => exact Nat.zero_le _
  | cons b blocks ih =>
      rw [List.forall_mem_cons] at h
      rw [List.flatten_cons, List.length_append, List.length_cons, Nat.succ_mul]
      have := ih h.2
      omega

theorem blockStart_append {more : List (List UInt8)} {k : ℕ} (h : k ≤ blocks.length) :
    blockStart enc (blocks ++ more) k = blockStart enc blocks k := by
  rw [blockStart, blockStart, List.take_append_of_le_length h]

/-- **A place stays the place of its byte**, whatever is written behind it. -/
theorem PlaceOf.append {start offset o : ℕ} (h : PlaceOf enc size blocks start offset o)
    (more : List (List UInt8)) : PlaceOf enc size (blocks ++ more) start offset o := by
  obtain ⟨k, hk, hstart, ho, hoffset⟩ := h
  refine ⟨k, ?_, by rw [hstart, blockStart_append hk], ho, hoffset⟩
  rw [List.length_append]
  omega

/-- **The place of the byte that comes next.** -/
theorem BlockStream.Holds.place_end (h : s.Holds enc size blocks data)
    (hcache : s.cache.length < size) :
    PlaceOf enc size blocks s.written.length s.cache.length data.length := by
  refine ⟨blocks.length, le_refl _, ?_, ?_, hcache⟩
  · rw [blockStart, List.take_length, h.written]
  · rw [← h.data, List.length_append, length_flatten_full h.full]

/-! ## Reading -/

/-- The blocks with where they begin, the first one at `start`. -/
def placed (enc : List UInt8 → List UInt8) : ℕ → List (List UInt8) → List (ℕ × List UInt8)
  | _, [] => []
  | start, b :: blocks => (start, b) :: placed enc (start + (enc b).length) blocks

/-- Read blocks from `start` up to `stop`. `decodeAt` reads one block and says where the next one
begins; an empty block is an error. The first argument is a bound on their number. -/
def readBlocks (decodeAt : ℕ → Option (List UInt8 × ℕ)) (stop : ℕ) :
    ℕ → ℕ → Option (List (ℕ × List UInt8))
  | 0, start => if start < stop then none else some []
  | n + 1, start =>
    if start < stop then do
      let (b, next) ← decodeAt start
      if b = [] then none
      else
        let rest ← readBlocks decodeAt stop n next
        some ((start, b) :: rest)
    else some []

/-- **Reading all blocks back.** -/
theorem readBlocks_placed {decodeAt : ℕ → Option (List UInt8 × ℕ)} {start stop n : ℕ}
    (hdecode : ∀ before b after, blocks = before ++ b :: after →
      decodeAt (start + (before.flatMap enc).length)
        = some (b, start + ((before ++ [b]).flatMap enc).length))
    (hne : ∀ b ∈ blocks, b ≠ [] ∧ 0 < (enc b).length)
    (hstop : stop = start + (blocks.flatMap enc).length) (hn : blocks.length ≤ n) :
    readBlocks decodeAt stop n start = some (placed enc start blocks) := by
  induction blocks generalizing start n with
  | nil =>
      have hend : ¬ start < stop := by
        rw [hstop]
        simp
      cases n with
      | zero => rw [readBlocks, if_neg hend]; rfl
      | succ n => rw [readBlocks, if_neg hend]; rfl
  | cons b blocks ih =>
      rw [List.forall_mem_cons] at hne
      rw [List.flatMap_cons, List.length_append] at hstop
      cases n with
      | zero => exact absurd hn (by simp)
      | succ n =>
          have hfirst := hdecode [] b blocks rfl
          rw [List.flatMap_nil, List.length_nil, Nat.add_zero, List.nil_append,
            List.flatMap_singleton] at hfirst
          have hrest := @ih (start + (enc b).length) n (fun before c after hsplit => by
            have := hdecode (b :: before) c after (by rw [hsplit, List.cons_append])
            rw [List.cons_append, List.flatMap_cons, List.flatMap_cons, List.length_append,
              List.length_append, ← Nat.add_assoc, ← Nat.add_assoc] at this
            exact this) hne.2 (by rw [hstop, Nat.add_assoc])
            (by rw [List.length_cons] at hn; omega)
          rw [readBlocks, if_pos (by rw [hstop]; omega), hfirst]
          simp only [Option.bind_eq_bind, Option.bind_some, if_neg hne.1.1, hrest]
          rfl

/-- The newest entry for a block that begins at `start`, as the number of the block. -/
def getBlock (starts : List ℕ) (start : ℕ) : Option ℕ :=
  (starts.zipIdx.reverse.find? fun e => e.1 == start).map Prod.snd

theorem getBlock_of_nodup {starts : List ℕ} (h : starts.Nodup) {k : ℕ} (hk : k < starts.length) :
    getBlock starts starts[k] = some k := by
  rw [getBlock]
  have hmem : (starts[k], k) ∈ starts.zipIdx.reverse := by
    rw [List.mem_reverse, List.mk_mem_zipIdx_iff_getElem?]
    exact List.getElem?_eq_getElem hk
  cases hfind : starts.zipIdx.reverse.find? fun e => e.1 == starts[k] with
  | none =>
      rw [List.find?_eq_none] at hfind
      exact absurd (beq_self_eq_true starts[k]) (hfind _ hmem)
  | some e =>
      obtain ⟨start, j⟩ := e
      have hstart : start = starts[k] := by simpa using List.find?_some hfind
      have hj := List.mem_of_find?_eq_some hfind
      rw [List.mem_reverse, List.mk_mem_zipIdx_iff_getElem?, List.getElem?_eq_some_iff] at hj
      obtain ⟨hjlt, hj⟩ := hj
      rw [hstart, h.getElem_inj_iff] at hj
      rw [Option.map_some, hj]

theorem length_placed (start : ℕ) : (placed enc start blocks).length = blocks.length := by
  induction blocks generalizing start with
  | nil => rfl
  | cons b blocks ih => rw [placed, List.length_cons, List.length_cons, ih]

theorem map_snd_placed (start : ℕ) : (placed enc start blocks).map Prod.snd = blocks := by
  induction blocks generalizing start with
  | nil => rfl
  | cons b blocks ih => rw [placed, List.map_cons, ih]

theorem headD_placed {start : ℕ} (h : blocks ≠ []) :
    ((placed enc start blocks).map Prod.fst).headD 0 = start := by
  cases blocks with
  | nil => exact absurd rfl h
  | cons b blocks => rfl

/-- No block begins behind the end. -/
theorem placed_le {start : ℕ} {e : ℕ × List UInt8} (he : e ∈ placed enc start blocks) :
    e.1 ≤ start + (blocks.flatMap enc).length := by
  induction blocks generalizing start with
  | nil => exact absurd he List.not_mem_nil
  | cons b blocks ih =>
      rw [List.flatMap_cons, List.length_append]
      rcases List.mem_cons.mp he with rfl | he
      · exact Nat.le_add_right _ _
      · have := ih he
        omega

/-- Every block begins before the end, if no block is stored in nothing. -/
theorem placed_lt (hpos : ∀ b ∈ blocks, 0 < (enc b).length) {start : ℕ} {e : ℕ × List UInt8}
    (he : e ∈ placed enc start blocks) : e.1 < start + (blocks.flatMap enc).length := by
  induction blocks generalizing start with
  | nil => exact absurd he List.not_mem_nil
  | cons b blocks ih =>
      rw [List.forall_mem_cons] at hpos
      rw [List.flatMap_cons, List.length_append]
      have hb := hpos.1
      rcases List.mem_cons.mp he with rfl | he
      · dsimp only
        omega
      · have := ih hpos.2 he
        omega

/-- No block begins at the end. -/
theorem getBlock_end (hpos : ∀ b ∈ blocks, 0 < (enc b).length) (base : ℕ) :
    getBlock ((placed enc base blocks).map Prod.fst) (base + (blocks.flatMap enc).length) = none := by
  rw [getBlock, Option.map_eq_none_iff, List.find?_eq_none]
  intro x hx
  rw [List.mem_reverse] at hx
  obtain ⟨start, j⟩ := x
  obtain ⟨e, he, rfl⟩ := List.mem_map.mp (List.fst_mem_of_mem_zipIdx hx)
  have := placed_lt hpos he
  simp only [beq_iff_eq]
  omega

theorem getElem_placed (start : ℕ) {k : ℕ} (hk : k < (placed enc start blocks).length) :
    (placed enc start blocks)[k].1 = start + blockStart enc blocks k := by
  induction blocks generalizing start k with
  | nil => exact absurd hk (by simp [placed])
  | cons b blocks ih =>
      cases k with
      | zero => simp [placed, blockStart]
      | succ k =>
          simp only [placed, List.getElem_cons_succ]
          rw [ih, blockStart, blockStart, List.take_succ_cons, List.flatMap_cons, List.length_append]
          ring

theorem blockStart_lt (hpos : ∀ b ∈ blocks, 0 < (enc b).length) {j k : ℕ} (hjk : j < k)
    (hk : k ≤ blocks.length) : blockStart enc blocks j < blockStart enc blocks k := by
  have hsplit : blocks.take k = blocks.take j ++ (blocks.drop j).take (k - j) := by
    rw [← List.take_add, Nat.add_sub_cancel' hjk.le]
  rw [blockStart, blockStart, hsplit, List.flatMap_append, List.length_append]
  have hj : j < blocks.length := by omega
  have hcons : (blocks.drop j).take (k - j) = blocks[j] :: (blocks.drop (j + 1)).take (k - j - 1) := by
    rw [List.drop_eq_getElem_cons hj]
    cases hd : k - j with
    | zero => omega
    | succ d => rw [List.take_succ_cons, Nat.add_sub_cancel]
  rw [hcons, List.flatMap_cons, List.length_append]
  have := hpos _ (List.getElem_mem hj)
  omega

/-- **A place leads to its block**: it is the block the byte is in. -/
theorem getBlock_place (hpos : ∀ b ∈ blocks, 0 < (enc b).length) {base start offset o : ℕ}
    (h : PlaceOf enc size blocks start offset o) (ho : o < blocks.length * size) :
    ∃ k, getBlock ((placed enc base blocks).map Prod.fst) (base + start) = some k ∧
      k * size + offset = o := by
  obtain ⟨k, hk, hstart, hko, hoffset⟩ := h
  have hlt : k < blocks.length := by
    by_contra hge
    have : blocks.length * size ≤ k * size := Nat.mul_le_mul_right _ (by omega)
    omega
  have hlen : ((placed enc base blocks).map Prod.fst).length = blocks.length := by
    rw [List.length_map, length_placed]
  have hget : ∀ j (hj : j < ((placed enc base blocks).map Prod.fst).length),
      ((placed enc base blocks).map Prod.fst)[j] = base + blockStart enc blocks j := by
    intro j hj
    rw [List.getElem_map, getElem_placed]
  have hnodup : ((placed enc base blocks).map Prod.fst).Nodup := by
    rw [List.Nodup, List.pairwise_iff_getElem]
    intro i j hi hj hij
    rw [hget, hget]
    have := blockStart_lt hpos hij (by omega)
    omega
  have hk' : k < ((placed enc base blocks).map Prod.fst).length := by omega
  refine ⟨k, ?_, hko.symm⟩
  rw [hstart, ← hget k hk']
  exact getBlock_of_nodup hnodup hk'

/-- The blocks in a buffer, each in a slot of `size` bytes. What a short block leaves of its slot is as
it was. -/
def layOut (size : ℕ) (fresh : ℕ → UInt8) : ℕ → List (List UInt8) → List UInt8
  | _, [] => []
  | base, b :: blocks =>
    b ++ (List.range (size - b.length)).map (fun j => fresh (base + b.length + j)) ++
      layOut size fresh (base + size) blocks

/-- If no block but the last one is short, the buffer begins with the stream. -/
theorem layOut_eq (fresh : ℕ → UInt8) (base : ℕ) (h : ∀ b ∈ blocks.dropLast, b.length = size) :
    ∃ rest, layOut size fresh base blocks = blocks.flatten ++ rest := by
  induction blocks generalizing base with
  | nil => exact ⟨[], rfl⟩
  | cons b blocks ih =>
      cases blocks with
      | nil => exact ⟨_, by rw [layOut, layOut, List.append_nil, List.flatten_singleton]⟩
      | cons c blocks =>
          rw [List.dropLast_cons_of_ne_nil (List.cons_ne_nil c blocks), List.forall_mem_cons] at h
          obtain ⟨rest, hrest⟩ := ih (base + size) h.2
          refine ⟨rest, ?_⟩
          rw [layOut, hrest, h.1, Nat.sub_self, List.range_zero, List.map_nil, List.append_nil]
          simp only [List.flatten_cons, List.append_assoc]

end FirmwareTools

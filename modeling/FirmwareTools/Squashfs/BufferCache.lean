import Mathlib.Algebra.Order.Group.Nat
import Mathlib.Data.List.Count
import Mathlib.Data.List.Nodup
import Mathlib.Data.List.Perm.Subperm

/-! # Caches of buffers

The buffers of a `struct cache` are counted by their users. A buffer that nobody uses any more stays in
the hash table and goes to the end of the free list, if it is one to keep, and is freed otherwise;
`cache_get` takes a buffer from the front of the free list or allocates a new one.

* **`BufferCache.WellFormed`** — what every operation keeps;
* **`BufferCache.Held`**, **`BufferCache.Pins`** — the use counts against a list of those who use the
  buffers. -/

namespace FirmwareTools.Squashfs

/-- A `struct file_buffer` of a cache: which one it is, and what is in it. Whether its index comes from
`cache_rehash` is not in the source. -/
structure CacheBuffer where
  id : ℕ
  index : ℕ
  keep : Bool
  rehashed : Bool
  data : List UInt8
  deriving DecidableEq, Repr

/-- A `struct cache`. The newest buffer of the hash table is the first one, and the free list begins with
the buffer that is free for the longest time. The use counts are kept apart from the buffers. -/
structure BufferCache where
  maxBuffers : ℕ
  firstFreelist : Bool := true
  buffers : List CacheBuffer := []
  used : ℕ → ℕ := fun _ => 0
  freeList : List ℕ := []
  next : ℕ := 0

namespace BufferCache

/-! ## What the functions do -/

/-- What is in a buffer; nothing is known of one that is new. -/
def dataOf (c : BufferCache) (id : ℕ) : List UInt8 :=
  ((c.buffers.find? fun b => b.id == id).map CacheBuffer.data).getD []

/-- A buffer is one to keep. -/
def keeps (c : BufferCache) (id : ℕ) : Bool := (c.buffers.find? fun b => b.id == id).any CacheBuffer.keep

/-- All buffers but one. -/
def others (c : BufferCache) (id : ℕ) : List CacheBuffer := c.buffers.filter fun b => b.id ≠ id

/-- A buffer is written to. -/
def setData (c : BufferCache) (id : ℕ) (f : List UInt8 → List UInt8) : BufferCache :=
  { c with buffers := c.buffers.map fun b => if b.id = id then { b with data := f b.data } else b }

/-- `cache_lookup` -/
def cacheLookup (c : BufferCache) (index : ℕ) : Option (ℕ × BufferCache) :=
  (c.buffers.find? fun b => b.keep && b.index == index).map fun b => (b.id, { c with
    used := Function.update c.used b.id (c.used b.id + 1)
    freeList := c.freeList.filter fun id => id ≠ b.id })

/-- `cache_get`, if it need not wait. -/
def cacheGet (c : BufferCache) (index : ℕ) (keep : Bool) : Option (ℕ × BufferCache) :=
  if c.firstFreelist = true ∧ c.freeList ≠ [] ∨ c.maxBuffers ≤ c.buffers.length then
    match c.freeList with
    | [] => none
    | id :: freeList => some (id, { c with
        buffers := ⟨id, index, keep, false, c.dataOf id⟩ :: c.others id
        used := Function.update c.used id 1, freeList })
  else some (c.next, { c with
    buffers := ⟨c.next, index, keep, false, []⟩ :: c.buffers
    used := Function.update c.used c.next 1, next := c.next + 1 })

/-- `cache_rehash` -/
def cacheRehash (c : BufferCache) (id index : ℕ) : BufferCache :=
  { c with buffers := ⟨id, index, true, true, c.dataOf id⟩ :: c.others id }

/-- `cache_block_put` -/
def cacheBlockPut (c : BufferCache) (id : ℕ) : BufferCache :=
  let used := Function.update c.used id (c.used id - 1)
  if c.used id - 1 = 0 then
    if c.keeps id then { c with used, freeList := c.freeList ++ [id] }
    else { c with used, buffers := c.others id }
  else { c with used }

/-! ## What they keep -/

/-- The buffers are different ones, those in use are there, and the free list has the others. -/
structure WellFormed (c : BufferCache) : Prop where
  nodup : (c.buffers.map CacheBuffer.id).Nodup
  fresh : ∀ b ∈ c.buffers, b.id < c.next
  present : ∀ id, c.used id ≠ 0 → ∃ b ∈ c.buffers, b.id = id
  free : ∀ id ∈ c.freeList, c.used id = 0 ∧ ∃ b ∈ c.buffers, b.id = id
  unused : ∀ b ∈ c.buffers, c.used b.id = 0 → b.id ∈ c.freeList
  nodup_free : c.freeList.Nodup

variable {c c' : BufferCache} {b : CacheBuffer} {id index : ℕ} {keep : Bool}

theorem mem_others : b ∈ c.others id ↔ b ∈ c.buffers ∧ b.id ≠ id := by
  unfold others
  rw [List.mem_filter, decide_eq_true_iff]

theorem map_id_others (c : BufferCache) (id : ℕ) :
    (c.others id).map CacheBuffer.id = (c.buffers.map CacheBuffer.id).filter fun x => x ≠ id := by
  rw [others, List.filter_map]
  rfl

/-- A buffer that takes the place of another one with its id. -/
theorem WellFormed.nodup_cons_others (h : c.WellFormed) (hb : b.id = id) :
    ((b :: c.others id).map CacheBuffer.id).Nodup := by
  rw [List.map_cons, map_id_others, List.nodup_cons]
  refine ⟨fun hmem => ?_, h.nodup.filter _⟩
  have hne := (List.mem_filter.mp hmem).2
  simp [hb] at hne

/-! ### Writing to a buffer -/

theorem mem_setData {f : List UInt8 → List UInt8} : b ∈ (c.setData id f).buffers ↔
    ∃ b' ∈ c.buffers, b = if b'.id = id then { b' with data := f b'.data } else b' := by
  unfold setData
  simp only [List.mem_map, eq_comm]

theorem map_id_setData (c : BufferCache) (id : ℕ) (f : List UInt8 → List UInt8) :
    (c.setData id f).buffers.map CacheBuffer.id = c.buffers.map CacheBuffer.id := by
  unfold setData
  rw [List.map_map]
  refine List.map_congr_left fun b _ => ?_
  simp only [Function.comp_apply]
  split <;> rfl

theorem exists_mem_iff_of_map_id (h : c'.buffers.map CacheBuffer.id = c.buffers.map CacheBuffer.id) :
    (∃ b ∈ c'.buffers, b.id = id) ↔ ∃ b ∈ c.buffers, b.id = id := by
  have hmem : ∀ bs : List CacheBuffer, (∃ b ∈ bs, b.id = id) ↔ id ∈ bs.map CacheBuffer.id := by
    intro bs
    rw [List.mem_map]
  rw [hmem, hmem, h]

theorem WellFormed.setData (h : c.WellFormed) (id : ℕ) (f : List UInt8 → List UInt8) :
    (c.setData id f).WellFormed := by
  have hids := map_id_setData c id f
  refine ⟨hids ▸ h.nodup, fun b hb => ?_, fun x hx => ?_, fun x hx => ?_, fun b hb hzero => ?_,
    h.nodup_free⟩
  · obtain ⟨b', hb', rfl⟩ := mem_setData.mp hb
    have hlt := h.fresh b' hb'
    split <;> exact hlt
  · exact (exists_mem_iff_of_map_id hids).mpr (h.present x hx)
  · exact ⟨(h.free x hx).1, (exists_mem_iff_of_map_id hids).mpr (h.free x hx).2⟩
  · obtain ⟨b', hb', rfl⟩ := mem_setData.mp hb
    have hid : (if b'.id = id then { b' with data := f b'.data } else b').id = b'.id := by
      split <;> rfl
    rw [hid] at hzero ⊢
    exact h.unused b' hb' hzero

/-! ### Looking a buffer up -/

theorem cacheLookup_eq_none : c.cacheLookup index = none ↔
    ∀ b ∈ c.buffers, b.keep = true → b.index ≠ index := by
  unfold cacheLookup
  rw [Option.map_eq_none_iff, List.find?_eq_none]
  simp

theorem cacheLookup_eq_some (h : c.cacheLookup index = some (id, c')) :
    (∃ b ∈ c.buffers, b.id = id ∧ b.keep = true ∧ b.index = index) ∧
      c'.buffers = c.buffers ∧ c'.used = Function.update c.used id (c.used id + 1) := by
  unfold cacheLookup at h
  obtain ⟨b, hfind, heq⟩ := Option.map_eq_some_iff.mp h
  simp only [Prod.mk.injEq] at heq
  obtain ⟨rfl, rfl⟩ := heq
  have hb := List.find?_some hfind
  simp only [Bool.and_eq_true, beq_iff_eq] at hb
  exact ⟨⟨b, List.mem_of_find?_eq_some hfind, rfl, hb.1, hb.2⟩, rfl, rfl⟩

theorem WellFormed.cacheLookup (hc : c.WellFormed) (h : c.cacheLookup index = some (id, c')) :
    c'.WellFormed := by
  unfold BufferCache.cacheLookup at h
  obtain ⟨b, hfind, heq⟩ := Option.map_eq_some_iff.mp h
  simp only [Prod.mk.injEq] at heq
  obtain ⟨rfl, rfl⟩ := heq
  refine ⟨hc.nodup, hc.fresh, fun x hx => ?_, fun x hx => ?_, fun b' hb' hzero => ?_,
    hc.nodup_free.filter _⟩
  · by_cases hxb : x = b.id
    · exact ⟨b, List.mem_of_find?_eq_some hfind, hxb.symm⟩
    · dsimp only at hx
      rw [Function.update_of_ne hxb] at hx
      exact hc.present x hx
  · rw [List.mem_filter, decide_eq_true_iff] at hx
    obtain ⟨hzero, hpresent⟩ := hc.free x hx.1
    dsimp only
    rw [Function.update_of_ne hx.2]
    exact ⟨hzero, hpresent⟩
  · dsimp only at hzero
    by_cases hxb : b'.id = b.id
    · rw [hxb, Function.update_self] at hzero
      cases hzero
    · rw [Function.update_of_ne hxb] at hzero
      rw [List.mem_filter, decide_eq_true_iff]
      exact ⟨hc.unused b' hb' hzero, hxb⟩

/-! ### Getting a buffer -/

/-! ### Rehashing a buffer -/

theorem WellFormed.cacheRehash (hc : c.WellFormed) (hid : ∃ b ∈ c.buffers, b.id = id) (index : ℕ) :
    (c.cacheRehash id index).WellFormed := by
  obtain ⟨b₀, hb₀, rfl⟩ := hid
  have hmem : ∀ x, (∃ b ∈ (c.cacheRehash b₀.id index).buffers, b.id = x) ↔ ∃ b ∈ c.buffers, b.id = x := by
    intro x
    constructor
    · rintro ⟨b, hb, rfl⟩
      rcases List.mem_cons.mp hb with rfl | hb
      · exact ⟨b₀, hb₀, rfl⟩
      · exact ⟨b, (mem_others.mp hb).1, rfl⟩
    · rintro ⟨b, hb, rfl⟩
      by_cases heq : b.id = b₀.id
      · exact ⟨_, List.mem_cons_self, heq.symm⟩
      · exact ⟨b, List.mem_cons_of_mem _ (mem_others.mpr ⟨hb, heq⟩), rfl⟩
  refine ⟨hc.nodup_cons_others rfl, fun b hb => ?_, fun x hx => (hmem x).mpr (hc.present x hx),
    fun x hx => ⟨(hc.free x hx).1, (hmem x).mpr (hc.free x hx).2⟩, fun b hb hzero => ?_,
    hc.nodup_free⟩
  · obtain ⟨b', hb', hid⟩ := (hmem b.id).mp ⟨b, hb, rfl⟩
    rw [← hid]
    exact hc.fresh b' hb'
  · obtain ⟨b', hb', hid⟩ := (hmem b.id).mp ⟨b, hb, rfl⟩
    rw [← hid] at hzero ⊢
    exact hc.unused b' hb' hzero

/-! ### Putting a buffer -/

theorem WellFormed.cacheBlockPut (hc : c.WellFormed) (hused : c.used id ≠ 0) :
    (c.cacheBlockPut id).WellFormed := by
  have hother : ∀ {x}, x ≠ id → Function.update c.used id (c.used id - 1) x = c.used x :=
    fun hx => Function.update_of_ne hx _ _
  have hnot : id ∉ c.freeList := fun hmem => hused (hc.free id hmem).1
  unfold BufferCache.cacheBlockPut
  dsimp only
  split
  case isTrue hzero =>
      split
      case isTrue =>
          refine ⟨hc.nodup, hc.fresh, fun x hx => ?_, fun x hx => ?_, fun b hb hb0 => ?_, ?_⟩
          · dsimp only at hx
            by_cases hx' : x = id
            · exact hx' ▸ hc.present id hused
            · rw [hother hx'] at hx
              exact hc.present x hx
          · dsimp only at hx ⊢
            rw [List.mem_append, List.mem_singleton] at hx
            rcases hx with hx | rfl
            · rw [hother fun heq => hnot (heq ▸ hx)]
              exact hc.free x hx
            · rw [Function.update_self]
              exact ⟨hzero, hc.present x hused⟩
          · dsimp only at hb0 ⊢
            rw [List.mem_append, List.mem_singleton]
            by_cases hb' : b.id = id
            · exact .inr hb'
            · rw [hother hb'] at hb0
              exact .inl (hc.unused b hb hb0)
          · refine List.nodup_append.mpr ⟨hc.nodup_free, List.nodup_singleton _, ?_⟩
            rintro x hx y hy rfl
            exact hnot (List.mem_singleton.mp hy ▸ hx)
      case isFalse =>
          refine ⟨?_, fun b hb => hc.fresh b (mem_others.mp hb).1, fun x hx => ?_, fun x hx => ?_,
            fun b hb hb0 => ?_, hc.nodup_free⟩
          · dsimp only
            rw [map_id_others]
            exact hc.nodup.filter _
          · dsimp only at hx ⊢
            by_cases hx' : x = id
            · rw [hx', Function.update_self] at hx
              exact absurd hzero hx
            · rw [hother hx'] at hx
              obtain ⟨b, hb, rfl⟩ := hc.present x hx
              exact ⟨b, mem_others.mpr ⟨hb, hx'⟩, rfl⟩
          · dsimp only at hx ⊢
            have hne : x ≠ id := fun heq => hnot (heq ▸ hx)
            obtain ⟨hx0, b, hb, rfl⟩ := hc.free x hx
            rw [hother hne]
            exact ⟨hx0, b, mem_others.mpr ⟨hb, hne⟩, rfl⟩
          · dsimp only at hb0 ⊢
            obtain ⟨hb, hne⟩ := mem_others.mp hb
            rw [hother hne] at hb0
            exact hc.unused b hb hb0
  case isFalse hpos =>
      refine ⟨hc.nodup, hc.fresh, fun x hx => ?_, fun x hx => ?_, fun b hb hb0 => ?_, hc.nodup_free⟩
      · dsimp only at hx
        by_cases hx' : x = id
        · exact hx' ▸ hc.present id hused
        · rw [hother hx'] at hx
          exact hc.present x hx
      · dsimp only at hx ⊢
        rw [hother fun heq => hnot (heq ▸ hx)]
        exact hc.free x hx
      · dsimp only at hb0 ⊢
        by_cases hb' : b.id = id
        · rw [hb', Function.update_self] at hb0
          exact absurd hb0 hpos
        · rw [hother hb'] at hb0
          exact hc.unused b hb hb0

/-! ## Who uses the buffers -/

/-- Those in the list use the buffers, once for each time they are in it. -/
def Pins (c : BufferCache) (users : List ℕ) : Prop := ∀ id, users.count id ≤ c.used id

/-- Those in the list use the buffers, and nobody else does. -/
def Held (c : BufferCache) (users : List ℕ) : Prop := ∀ id, c.used id = users.count id

variable {users users' : List ℕ}

theorem Pins.perm (h : c.Pins users) (hperm : users'.Subperm users) : c.Pins users' :=
  fun id => (hperm.count_le id).trans (h id)

theorem Held.perm (h : c.Held users) (hperm : users'.Perm users) : c.Held users' :=
  fun id => (h id).trans (hperm.count_eq id).symm

/-- When all buffers are in use, there are no more of them than users. -/
theorem Held.length_le (h : c.Held users) (hc : c.WellFormed)
    (hall : ∀ b ∈ c.buffers, c.used b.id ≠ 0) : c.buffers.length ≤ users.length := by
  rw [← List.length_map (f := CacheBuffer.id)]
  refine (hc.nodup.subperm fun x hx => ?_).length_le
  obtain ⟨b, hb, rfl⟩ := List.mem_map.mp hx
  have hused := hall b hb
  rw [h b.id] at hused
  exact List.count_pos_iff.mp (Nat.pos_of_ne_zero hused)

end BufferCache

end FirmwareTools.Squashfs

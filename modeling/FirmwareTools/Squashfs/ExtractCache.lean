import Mathlib.Data.List.Count
import Mathlib.Data.List.Nodup
import Mathlib.Data.List.Perm.Basic
import Mathlib.Logic.Function.Basic

/-! # The caches of `unsquashfs`

An entry of a cache is counted by those that refer to it. `cache_get` finds the entry of a block or makes one;
when no reference is left, the entry goes to the end of the free list and is filled again from there.

* **`BlockCache.Holds`** — the counts are those of a list of references;
* **`BlockCache.Holds.cacheGet`**, **`BlockCache.Holds.cacheBlockPut`** — every call adds or takes off one. -/

namespace FirmwareTools.Squashfs

/-- A `struct cache_entry`, without the data. -/
structure CachedBlock where
  block : ℕ := 0
  size : ℕ := 0
  used : ℕ := 0
  error : Bool := false
  pending : Bool := false
  deriving DecidableEq, Repr

/-- A `struct cache`. The entries are numbered as they are allocated. The chains of the hash table are one list,
in which the entry that was inserted last is the first one. -/
structure BlockCache where
  maxBuffers : ℕ
  count : ℕ := 0
  entry : ℕ → CachedBlock := fun _ => {}
  hashTable : List ℕ := []
  freeList : List ℕ := []

namespace BlockCache

/-- The end of `cache_get` for a block that is not in the cache. -/
def initialise (c : BlockCache) (e block size : ℕ) : BlockCache :=
  { c with
    entry := Function.update c.entry e { block, size, used := 1, error := false, pending := true }
    hashTable := e :: c.hashTable }

/-- `cache_get`, if it does not wait: the entry, and whether it is queued for the reader. -/
def cacheGet (c : BlockCache) (block size : ℕ) : Option (ℕ × Bool × BlockCache) :=
  match c.hashTable.find? fun e => (c.entry e).block == block with
  | some e => some (e, false, { c with
      entry := Function.update c.entry e { c.entry e with used := (c.entry e).used + 1 }
      freeList := c.freeList.erase e })
  | none =>
    if c.count < c.maxBuffers then
      some (c.count, true, { c with count := c.count + 1 }.initialise c.count block size)
    else
      match c.freeList with
      | [] => none
      | e :: freeList =>
        some (e, true, { c with freeList, hashTable := c.hashTable.erase e }.initialise e block size)

/-- `cache_block_ready` -/
def cacheBlockReady (c : BlockCache) (e : ℕ) (error : Bool) : BlockCache :=
  { c with entry := Function.update c.entry e { c.entry e with pending := false, error } }

/-- `cache_block_put` -/
def cacheBlockPut (c : BlockCache) (e : ℕ) : BlockCache :=
  { c with
    entry := Function.update c.entry e { c.entry e with used := (c.entry e).used - 1 }
    freeList := if (c.entry e).used - 1 = 0 then c.freeList ++ [e] else c.freeList }

/-! ## Those that refer to the entries -/

/-- The entries are counted by these references, and the free list has all others. -/
structure Holds (c : BlockCache) (refs : List ℕ) : Prop where
  used : ∀ e, (c.entry e).used = refs.count e
  free : ∀ e, e ∈ c.freeList ↔ e < c.count ∧ e ∉ refs
  nodup : c.freeList.Nodup
  lt : ∀ e ∈ refs, e < c.count
  hashed : ∀ e ∈ c.hashTable, e < c.count

variable {c c' : BlockCache} {refs refs' : List ℕ} {e x block size : ℕ} {queued error : Bool}

theorem holds_nil (maxBuffers : ℕ) : Holds { maxBuffers } [] where
  used _ := rfl
  free e := by simp
  nodup := List.nodup_nil
  lt := by simp
  hashed := by simp

theorem Holds.perm (h : c.Holds refs) (hperm : refs.Perm refs') : c.Holds refs' where
  used e := (h.used e).trans (hperm.count_eq e)
  free e := by rw [h.free, hperm.mem_iff]
  nodup := h.nodup
  lt e he := h.lt e (hperm.mem_iff.mpr he)
  hashed := h.hashed

/-- One more reference. -/
theorem used_update (h : c.Holds refs) (b : CachedBlock) (hb : b.used = refs.count e + 1) (x : ℕ) :
    (Function.update c.entry e b x).used = (e :: refs).count x := by
  by_cases hx : x = e
  · rw [hx, Function.update_self, hb, List.count_cons_self]
  · rw [Function.update_of_ne hx, List.count_cons_of_ne (Ne.symm hx), h.used]

/-- What `cache_get` can do: the block is there, a new entry is allocated, or the first of the free list is
taken. -/
theorem cacheGet_cases (h : c.cacheGet block size = some (e, queued, c')) :
    (e ∈ c.hashTable ∧ queued = false ∧ c' = { c with
      entry := Function.update c.entry e { c.entry e with used := (c.entry e).used + 1 }
      freeList := c.freeList.erase e }) ∨
    (e = c.count ∧ queued = true ∧ c' = { c with count := c.count + 1 }.initialise e block size) ∨
    ∃ freeList, c.freeList = e :: freeList ∧ queued = true ∧
      c' = { c with freeList, hashTable := c.hashTable.erase e }.initialise e block size := by
  unfold cacheGet at h
  split at h
  · rename_i found hfind
    obtain ⟨rfl, hrest⟩ := Prod.mk.inj (Option.some.inj h)
    obtain ⟨rfl, rfl⟩ := Prod.mk.inj hrest
    exact .inl ⟨List.mem_of_find?_eq_some hfind, rfl, rfl⟩
  · split at h
    · obtain ⟨rfl, hrest⟩ := Prod.mk.inj (Option.some.inj h)
      obtain ⟨rfl, rfl⟩ := Prod.mk.inj hrest
      exact .inr (.inl ⟨rfl, rfl, rfl⟩)
    · split at h
      · cases h
      · rename_i first freeList hfree
        obtain ⟨rfl, hrest⟩ := Prod.mk.inj (Option.some.inj h)
        obtain ⟨rfl, rfl⟩ := Prod.mk.inj hrest
        exact .inr (.inr ⟨freeList, hfree, rfl, rfl⟩)

/-- **`cache_get` adds a reference.** -/
theorem Holds.cacheGet (h : c.Holds refs) (hget : c.cacheGet block size = some (e, queued, c')) :
    c'.Holds (e :: refs) := by
  rcases cacheGet_cases hget with ⟨hmem, -, rfl⟩ | ⟨rfl, -, rfl⟩ | ⟨freeList, hfree, -, rfl⟩
  · refine ⟨used_update h _ (by rw [h.used]), fun x => ?_, h.nodup.erase e, ?_, h.hashed⟩
    · rw [h.nodup.mem_erase_iff, h.free, List.mem_cons, not_or]
      exact and_left_comm
    · exact List.forall_mem_cons.mpr ⟨h.hashed e hmem, h.lt⟩
  · -- the new entry is not referred to yet
    have hnew : c.count ∉ refs := fun hmem => Nat.lt_irrefl _ (h.lt _ hmem)
    refine ⟨used_update h _ (by rw [List.count_eq_zero.mpr hnew]), fun x => ?_, h.nodup, ?_, ?_⟩
    · show x ∈ c.freeList ↔ x < c.count + 1 ∧ x ∉ c.count :: refs
      rw [h.free, List.mem_cons, not_or]
      constructor
      · rintro ⟨hlt, hx⟩
        exact ⟨Nat.lt_succ_of_lt hlt, Nat.ne_of_lt hlt, hx⟩
      · rintro ⟨hlt, hne, hx⟩
        exact ⟨Nat.lt_of_le_of_ne (Nat.le_of_lt_succ hlt) hne, hx⟩
    · exact List.forall_mem_cons.mpr ⟨Nat.lt_succ_self _, fun x hx => Nat.lt_succ_of_lt (h.lt x hx)⟩
    · exact List.forall_mem_cons.mpr ⟨Nat.lt_succ_self _, fun x hx => Nat.lt_succ_of_lt (h.hashed x hx)⟩
  · have hnodup := h.nodup
    rw [hfree, List.nodup_cons] at hnodup
    obtain ⟨hlt, hnot⟩ := (h.free e).mp (hfree ▸ List.mem_cons_self)
    refine ⟨used_update h _ (by rw [List.count_eq_zero.mpr hnot]), fun x => ?_, hnodup.2, ?_, ?_⟩
    · show x ∈ freeList ↔ x < c.count ∧ x ∉ e :: refs
      have hx := h.free x
      rw [hfree, List.mem_cons] at hx
      rw [List.mem_cons, not_or, and_left_comm, ← hx]
      constructor
      · intro hmem
        exact ⟨fun heq => hnodup.1 (heq ▸ hmem), .inr hmem⟩
      · rintro ⟨hne, hmem⟩
        exact hmem.resolve_left hne
    · exact List.forall_mem_cons.mpr ⟨hlt, h.lt⟩
    · exact List.forall_mem_cons.mpr ⟨hlt, fun x hx => h.hashed x (List.mem_of_mem_erase hx)⟩

/-- **`cache_block_put` takes a reference off.** -/
theorem Holds.cacheBlockPut (h : c.Holds (e :: refs)) : (c.cacheBlockPut e).Holds refs := by
  have hused : (c.entry e).used - 1 = refs.count e := by
    rw [h.used, List.count_cons_self, Nat.add_sub_cancel]
  refine ⟨fun x => ?_, fun x => ?_, ?_, fun x hx => h.lt x (List.mem_cons_of_mem e hx), h.hashed⟩
  · show (Function.update c.entry e _ x).used = _
    by_cases hx : x = e
    · rw [hx, Function.update_self, hused]
    · rw [Function.update_of_ne hx, h.used, List.count_cons_of_ne (Ne.symm hx)]
  · show x ∈ (if (c.entry e).used - 1 = 0 then c.freeList ++ [e] else c.freeList) ↔ x < c.count ∧ x ∉ refs
    have hfree := h.free x
    rw [List.mem_cons, not_or] at hfree
    have hlt := h.lt e List.mem_cons_self
    split
    · rename_i hzero
      have hnot : e ∉ refs := List.count_eq_zero.mp (hused ▸ hzero)
      rw [List.mem_append, hfree, List.mem_singleton]
      by_cases hx : x = e
      · rw [hx]
        exact iff_of_true (.inr rfl) ⟨hlt, hnot⟩
      · simp [hx]
    · rename_i hne
      rw [hfree]
      by_cases hx : x = e
      · rw [hx]
        exact iff_of_false (fun hand => hand.2.1 rfl) fun hand => hne (hused.trans (List.count_eq_zero.mpr hand.2))
      · simp [hx]
  · show (if (c.entry e).used - 1 = 0 then c.freeList ++ [e] else c.freeList).Nodup
    split
    · refine List.nodup_append.mpr ⟨h.nodup, List.nodup_singleton e, ?_⟩
      rintro x hx y hy rfl
      exact ((h.free x).mp hx).2 (List.mem_singleton.mp hy ▸ List.mem_cons_self)
    · exact h.nodup

theorem Holds.cacheBlockReady (h : c.Holds refs) : (c.cacheBlockReady e error).Holds refs := by
  refine ⟨fun x => ?_, h.free, h.nodup, h.lt, h.hashed⟩
  show (Function.update c.entry e _ x).used = _
  by_cases hx : x = e
  · rw [hx, Function.update_self, ← h.used]
  · rw [Function.update_of_ne hx, h.used]

/-- **When nobody refers to an entry, `cache_get` does not wait.** -/
theorem Holds.cacheGet_isSome (h : c.Holds []) (hpos : 0 < c.maxBuffers) (block size : ℕ) :
    (c.cacheGet block size).isSome = true := by
  unfold BlockCache.cacheGet
  split
  · rfl
  · split
    · rfl
    · rename_i hfull
      split
      · rename_i hnil
        -- the first entry would be free
        have hfree := (h.free 0).mpr ⟨by omega, List.not_mem_nil⟩
        rw [hnil] at hfree
        exact absurd hfree List.not_mem_nil
      · rfl

/-! ## Blocks that are being read -/

theorem maxBuffers_cacheGet (h : c.cacheGet block size = some (e, queued, c')) :
    c'.maxBuffers = c.maxBuffers := by
  rcases cacheGet_cases h with ⟨-, -, rfl⟩ | ⟨-, -, rfl⟩ | ⟨_, -, -, rfl⟩ <;> rfl

/-- A block becomes pending when it is queued for the reader. -/
theorem pending_cacheGet (h : c.cacheGet block size = some (e, queued, c')) (x : ℕ)
    (hx : (c'.entry x).pending = true) : (c.entry x).pending = true ∨ x = e ∧ queued = true := by
  rcases cacheGet_cases h with ⟨-, -, rfl⟩ | ⟨-, hqueued, rfl⟩ | ⟨_, -, hqueued, rfl⟩
  · by_cases heq : x = e
    · subst heq
      simp only [Function.update_self] at hx
      exact .inl hx
    · simp only [Function.update_of_ne heq] at hx
      exact .inl hx
  all_goals
    by_cases heq : x = e
    · exact .inr ⟨heq, hqueued⟩
    · simp only [initialise, Function.update_of_ne heq] at hx
      exact .inl hx

theorem pending_cacheBlockReady (hx : ((c.cacheBlockReady e error).entry x).pending = true) :
    x ≠ e ∧ (c.entry x).pending = true := by
  have heq : x ≠ e := by
    rintro rfl
    simp [BlockCache.cacheBlockReady] at hx
  simp only [BlockCache.cacheBlockReady, Function.update_of_ne heq] at hx
  exact ⟨heq, hx⟩

theorem pending_cacheBlockPut : ((c.cacheBlockPut e).entry x).pending = (c.entry x).pending := by
  by_cases heq : x = e
  · subst heq
    simp [BlockCache.cacheBlockPut]
  · simp [BlockCache.cacheBlockPut, Function.update_of_ne heq]

end BlockCache

end FirmwareTools.Squashfs

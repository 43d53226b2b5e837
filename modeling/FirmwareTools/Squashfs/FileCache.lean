import FirmwareTools.System.PointerLists
import Mathlib.Data.List.Count
import Mathlib.Data.List.Find
import Mathlib.Data.List.Perm.Subperm

/-! # Caches with their pointers

An entry of a `struct cache` can be on two lists at a time: on the chain of its hash bucket, which begins at
`hash_table`, and on the circular free list. The functions follow and write the pointers of both. Whoever gets an
entry from `cache_get` or `cache_lookup` holds it until `cache_block_put`.

* **`CacheRun`** — any operations of the holders, in any order;
* **`CacheRun.inv`** — what all of them keep. -/

namespace FirmwareTools.Squashfs

/-- A `struct cache`, with the fields of the entries at their addresses. The addresses of the entries that are
allocated are in `live`. -/
structure FileCache where
  maxBuffers : ℕ
  count : ℕ
  freeList : Option ℕ
  hashTable : ℕ → Option ℕ
  hash : Pointers ℕ
  free : Pointers ℕ
  index : ℕ → ℤ
  used : ℕ → ℕ
  keep : ℕ → Bool
  live : List ℕ

/-- `CALCULATE_HASH` -/
def calculateHash (start : ℤ) : ℕ := (start % 65536).toNat

namespace FileCache

/-! ## What the functions do -/

/-- `insert_hash_table` -/
def insertHashTable (c : FileCache) (entry : ℕ) : FileCache :=
  let hash := calculateHash (c.index entry)
  { c with
    hash := c.hash.insertChain (c.hashTable hash) entry
    hashTable := Function.update c.hashTable hash (some entry) }

/-- `remove_hash_table` -/
def removeHashTable (c : FileCache) (entry : ℕ) : FileCache :=
  let hash := calculateHash (c.index entry)
  let (links, first) := c.hash.removeChain (c.hashTable hash) entry
  { c with hash := links, hashTable := Function.update c.hashTable hash first }

/-- `insert_free_list`, if it follows no null pointer. -/
def insertFreeList (c : FileCache) (entry : ℕ) : Option FileCache :=
  (c.free.insertCircular c.freeList entry).map fun r => { c with free := r.1, freeList := r.2 }

/-- `remove_free_list` -/
def removeFreeList (c : FileCache) (entry : ℕ) : FileCache :=
  let (links, list) := c.free.removeCircular c.freeList entry
  { c with free := links, freeList := list }

/-- `cache_init`. Nothing is known of the memory that the entries will be in. -/
def cacheInit (memory : FileCache) (maxBuffers : ℕ) : FileCache :=
  { memory with maxBuffers, count := 0, freeList := none, hashTable := fun _ => none, live := [] }

/-- The loop of `cache_lookup`, which gives up after some steps. -/
def findIndex (c : FileCache) (index : ℤ) : ℕ → Option ℕ → Option (Option ℕ)
  | _, none => some none
  | 0, some _ => none
  | fuel + 1, some entry =>
      if c.index entry = index then some (some entry) else c.findIndex index fuel (c.hash.next entry)

/-- `cache_lookup`. It is given as many steps as there are entries. -/
def cacheLookup (c : FileCache) (index : ℤ) : Option (Option ℕ × FileCache) :=
  (c.findIndex index c.live.length (c.hashTable (calculateHash index))).map fun
    | some entry =>
        (some entry,
          { c with used := Function.update c.used entry (c.used entry + 1) }.removeFreeList entry)
    | none => (none, c)

/-- The first entry of the free list is taken for something else. -/
def reuse (c : FileCache) (entry : ℕ) : FileCache := (c.removeFreeList entry).removeHashTable entry

/-- A new entry, for which `malloc` has given an address. -/
def allocate (c : FileCache) (entry : ℕ) : FileCache :=
  { c with
    free := (c.free.setPrev entry none).setNext entry none
    count := c.count + 1
    live := entry :: c.live }

/-- "initialise block and if a keep block insert into the hash table" -/
def initialise (c : FileCache) (entry : ℕ) (index : ℤ) (keep : Bool) : FileCache :=
  let c := { c with used := Function.update c.used entry 1, keep := Function.update c.keep entry keep }
  if keep then { c with index := Function.update c.index entry index }.insertHashTable entry else c

/-- `cache_get`. There is no result while it waits for an entry. -/
def cacheGet (c : FileCache) (firstFreelist : Bool) (malloc : ℕ) (index : ℤ) (keep : Bool) :
    Option (ℕ × FileCache) :=
  -- a block on the free list is a "keep" block
  let reused := c.freeList.map fun entry => (entry, (c.reuse entry).initialise entry index keep)
  if firstFreelist && c.freeList.isSome then reused
  else if c.count < c.maxBuffers then some (malloc, (c.allocate malloc).initialise malloc index keep)
  else if !firstFreelist && c.freeList.isSome then reused
  else none

/-- `cache_rehash` -/
def cacheRehash (c : FileCache) (entry : ℕ) (index : ℤ) : FileCache :=
  let c := if c.keep entry then c.removeHashTable entry else c
  { c with
    keep := Function.update c.keep entry true
    index := Function.update c.index entry index }.insertHashTable entry

/-- `cache_block_put`, if it follows no null pointer. -/
def cacheBlockPut (c : FileCache) : Option ℕ → Option FileCache
  | none => some c
  | some entry =>
      let c := { c with used := Function.update c.used entry (c.used entry - 1) }
      if c.used entry = 0 then
        if c.keep entry then c.insertFreeList entry
        else some { c with live := c.live.erase entry, count := c.count - 1 }
      else some c

end FileCache

/-! ## Operations in any order -/

/-- Without an entry, wherever it was hashed. -/
def unhashed (hashed : List (ℕ × ℤ)) (entry : ℕ) : List (ℕ × ℤ) := hashed.filter fun p => p.1 ≠ entry

/-- The entries that are allocated have the same fields. -/
structure FileCache.Same (c c' : FileCache) : Prop where
  maxBuffers : c'.maxBuffers = c.maxBuffers
  count : c'.count = c.count
  freeList : c'.freeList = c.freeList
  hashTable : c'.hashTable = c.hashTable
  live : c'.live = c.live
  hash : ∀ e ∈ c.live, c'.hash.next e = c.hash.next e ∧ c'.hash.prev e = c.hash.prev e
  free : ∀ e ∈ c.live, c'.free.next e = c.free.next e ∧ c'.free.prev e = c.free.prev e
  index : ∀ e ∈ c.live, c'.index e = c.index e
  used : ∀ e ∈ c.live, c'.used e = c.used e
  keep : ∀ e ∈ c.live, c'.keep e = c.keep e

/-- Operations of holders of entries, from `cache_init` on. An entry is in `held` as often as it is held, and
`hashed` has the entries that were hashed and not been reused since, the last one first. -/
inductive CacheRun (firstFreelist : Bool) : FileCache → List ℕ → List (ℕ × ℤ) → Prop
  | init (memory : FileCache) (maxBuffers : ℕ) : CacheRun firstFreelist (memory.cacheInit maxBuffers) [] []
  | get {c c' : FileCache} {held : List ℕ} {hashed : List (ℕ × ℤ)} {malloc entry : ℕ} {index : ℤ} {keep : Bool}
      (h : CacheRun firstFreelist c held hashed) (hmalloc : malloc ∉ c.live)
      (hget : c.cacheGet firstFreelist malloc index keep = some (entry, c')) :
      CacheRun firstFreelist c' (entry :: held)
        (if keep then (entry, index) :: unhashed hashed entry else unhashed hashed entry)
  | lookup {c c' : FileCache} {held : List ℕ} {hashed : List (ℕ × ℤ)} {entry : ℕ} {index : ℤ}
      (h : CacheRun firstFreelist c held hashed) (hlookup : c.cacheLookup index = some (some entry, c')) :
      CacheRun firstFreelist c' (entry :: held) hashed
  | miss {c c' : FileCache} {held : List ℕ} {hashed : List (ℕ × ℤ)} {index : ℤ}
      (h : CacheRun firstFreelist c held hashed) (hlookup : c.cacheLookup index = some (none, c')) :
      CacheRun firstFreelist c' held hashed
  | rehash {c : FileCache} {held : List ℕ} {hashed : List (ℕ × ℤ)} {entry : ℕ} (index : ℤ)
      (h : CacheRun firstFreelist c held hashed) (hheld : entry ∈ held) :
      CacheRun firstFreelist (c.cacheRehash entry index) held ((entry, index) :: unhashed hashed entry)
  | put {c c' : FileCache} {held : List ℕ} {hashed : List (ℕ × ℤ)} {entry : ℕ}
      (h : CacheRun firstFreelist c held hashed) (hheld : entry ∈ held)
      (hput : c.cacheBlockPut (some entry) = some c') :
      CacheRun firstFreelist c' (held.erase entry) hashed
  /-- Memory that is not allocated may change. -/
  | memory {c c' : FileCache} {held : List ℕ} {hashed : List (ℕ × ℤ)}
      (h : CacheRun firstFreelist c held hashed) (hsame : c.Same c') : CacheRun firstFreelist c' held hashed

/-! ## What the lists have -/

/-- The entries of a bucket. -/
def bucket (hashed : List (ℕ × ℤ)) (hash : ℕ) : List ℕ :=
  (hashed.filter fun p => calculateHash p.2 = hash).map Prod.fst

/-- The chains have the entries that are hashed. -/
structure FileCache.Hashed (c : FileCache) (hashed : List (ℕ × ℤ)) : Prop where
  nodup : (hashed.map Prod.fst).Nodup
  index : ∀ p ∈ hashed, c.index p.1 = p.2
  chain : ∀ hash, Chained c.hash (c.hashTable hash) (bucket hashed hash)

/-- The free list has some entries; the other ones that are allocated are on no such list. -/
structure FileCache.Free (c : FileCache) (free : List ℕ) : Prop where
  circular : Circular c.free c.freeList free
  off : ∀ e ∈ c.live, e ∉ free → c.free.next e = none ∧ c.free.prev e = none

/-- What the operations keep. -/
structure FileCache.Inv (c : FileCache) (held : List ℕ) (hashed : List (ℕ × ℤ)) (free : List ℕ) : Prop where
  nodup : c.live.Nodup
  count : c.count = c.live.length
  le : c.count ≤ c.maxBuffers
  hash_table : c.Hashed hashed
  free_list : c.Free free
  mem_hashed : ∀ e, e ∈ hashed.map Prod.fst ↔ e ∈ c.live ∧ c.keep e = true
  mem_free : ∀ e, e ∈ free ↔ e ∈ c.live ∧ c.keep e = true ∧ c.used e = 0
  allocated : ∀ e ∈ held, e ∈ c.live
  used_eq : ∀ e ∈ c.live, c.used e = held.count e

variable {c c' : FileCache} {held free : List ℕ} {hashed : List (ℕ × ℤ)} {e entry hash : ℕ} {index : ℤ}
  {firstFreelist keep : Bool}

/-! ### The hash table -/

theorem mem_bucket : e ∈ bucket hashed hash ↔ ∃ index, (e, index) ∈ hashed ∧ calculateHash index = hash := by
  simp [bucket]

theorem mem_of_mem_bucket (h : e ∈ bucket hashed hash) : e ∈ hashed.map Prod.fst := by
  obtain ⟨index, hmem, -⟩ := mem_bucket.mp h
  exact List.mem_map_of_mem hmem

theorem mem_unhashed : e ∈ (unhashed hashed entry).map Prod.fst ↔ e ≠ entry ∧ e ∈ hashed.map Prod.fst := by
  simp only [unhashed, List.mem_map, List.mem_filter, decide_eq_true_eq]
  constructor
  · rintro ⟨p, ⟨hp, hne⟩, rfl⟩
    exact ⟨hne, p, hp, rfl⟩
  · rintro ⟨hne, p, hp, rfl⟩
    exact ⟨p, ⟨hp, hne⟩, rfl⟩

theorem nodup_bucket (h : (hashed.map Prod.fst).Nodup) (hash : ℕ) : (bucket hashed hash).Nodup :=
  h.sublist (List.filter_sublist.map _)

/-- An entry leaves its bucket. -/
theorem bucket_unhashed (h : (hashed.map Prod.fst).Nodup) (entry hash : ℕ) :
    bucket (unhashed hashed entry) hash = (bucket hashed hash).erase entry := by
  rw [(nodup_bucket h hash).erase_eq_filter]
  unfold bucket unhashed
  rw [List.filter_map, List.filter_filter, List.filter_filter]
  congr 1
  refine List.filter_congr fun p _ => ?_
  rw [Bool.and_comm]
  congr 1
  show decide (p.1 ≠ entry) = (p.1 != entry)
  rw [Bool.eq_iff_iff, decide_eq_true_iff, bne_iff_ne]

namespace FileCache

/-- Only the fields of the entries that are hashed matter. -/
theorem Hashed.congr (h : c.Hashed hashed) (htable : c'.hashTable = c.hashTable)
    (hhash : ∀ e ∈ hashed.map Prod.fst, c'.hash.next e = c.hash.next e ∧ c'.hash.prev e = c.hash.prev e)
    (hindex : ∀ e ∈ hashed.map Prod.fst, c'.index e = c.index e) : c'.Hashed hashed where
  nodup := h.nodup
  index p hp := (hindex p.1 (List.mem_map_of_mem hp)).trans (h.index p hp)
  chain hash := by
    rw [htable]
    exact (h.chain hash).congr fun e he => hhash e (mem_of_mem_bucket he)

/-- An entry is in one bucket only. -/
theorem Hashed.not_mem (h : c.Hashed hashed) (hmem : e ∈ bucket hashed hash) {hash' : ℕ} (hne : hash ≠ hash') :
    e ∉ bucket hashed hash' := by
  intro hmem'
  obtain ⟨i, hi, rfl⟩ := mem_bucket.mp hmem
  obtain ⟨j, hj, rfl⟩ := mem_bucket.mp hmem'
  have hsame : i = j := (h.index (e, i) hi).symm.trans (h.index (e, j) hj)
  exact hne (congrArg calculateHash hsame)

/-- **Hashing an entry.** -/
theorem Hashed.insert (h : c.Hashed hashed) (he : entry ∉ hashed.map Prod.fst) (hindex : c'.index entry = index)
    (hsame : ∀ e ≠ entry, c'.index e = c.index e) (hhash : c'.hash = c.hash)
    (htable : c'.hashTable = c.hashTable) : (c'.insertHashTable entry).Hashed ((entry, index) :: hashed) where
  nodup := List.nodup_cons.mpr ⟨he, h.nodup⟩
  index p hp := by
    rcases List.mem_cons.mp hp with rfl | hp
    · exact hindex
    · have hne : p.1 ≠ entry := fun heq => he (heq ▸ List.mem_map_of_mem hp)
      exact (hsame p.1 hne).trans (h.index p hp)
  chain hash := by
    have hnot : ∀ hash, entry ∉ bucket hashed hash := fun hash hmem => he (mem_of_mem_bucket hmem)
    show Chained (c'.hash.insertChain (c'.hashTable (calculateHash (c'.index entry))) entry)
      (Function.update c'.hashTable (calculateHash (c'.index entry)) (some entry) hash) _
    rw [hindex, hhash, htable]
    obtain ⟨hchain, hothers⟩ := (h.chain (calculateHash index)).insert (hnot _)
    by_cases heq : hash = calculateHash index
    · subst heq
      rw [Function.update_self]
      have hbucket : bucket ((entry, index) :: hashed) (calculateHash index)
          = entry :: bucket hashed (calculateHash index) := by simp [bucket]
      rw [hbucket]
      exact hchain
    · rw [Function.update_of_ne heq]
      have hbucket : bucket ((entry, index) :: hashed) hash = bucket hashed hash := by
        simp [bucket, Ne.symm heq]
      rw [hbucket]
      refine (h.chain hash).congr fun e hmem => hothers e (fun heq => hnot hash (heq ▸ hmem)) ?_
      exact h.not_mem hmem heq

/-- **Taking an entry out.** -/
theorem Hashed.remove (h : c.Hashed hashed) (he : entry ∈ hashed.map Prod.fst) :
    (c.removeHashTable entry).Hashed (unhashed hashed entry) where
  nodup := h.nodup.sublist (List.filter_sublist.map _)
  index p hp := h.index p (List.mem_of_mem_filter hp)
  chain hash := by
    obtain ⟨p, hp, rfl⟩ := List.mem_map.mp he
    have hmem : p.1 ∈ bucket hashed (calculateHash p.2) := mem_bucket.mpr ⟨p.2, hp, rfl⟩
    show Chained (c.hash.removeChain (c.hashTable (calculateHash (c.index p.1))) p.1).1
      (Function.update c.hashTable (calculateHash (c.index p.1)) _ hash) _
    rw [h.index p hp, bucket_unhashed h.nodup]
    obtain ⟨hchain, hothers⟩ := (h.chain (calculateHash p.2)).remove hmem
    by_cases heq : hash = calculateHash p.2
    · subst heq
      rw [Function.update_self]
      exact hchain
    · rw [Function.update_of_ne heq, List.erase_of_not_mem (h.not_mem hmem (Ne.symm heq))]
      exact (h.chain hash).congr fun e hin => hothers e (h.not_mem hin heq)

/-! ### The free list -/

/-- Only the pointers of the entries that are allocated matter. -/
theorem Free.congr (h : c.Free free) (hlist : c'.freeList = c.freeList) (hsub : ∀ e ∈ free, e ∈ c.live)
    (hlive : ∀ e ∈ c'.live, e ∈ c.live)
    (hfree : ∀ e ∈ c.live, c'.free.next e = c.free.next e ∧ c'.free.prev e = c.free.prev e) : c'.Free free where
  circular := by
    rw [hlist]
    exact h.circular.congr fun e he => hfree e (hsub e he)
  off e he hnot := by
    obtain ⟨hnext, hprev⟩ := hfree e (hlive e he)
    rw [hnext, hprev]
    exact h.off e (hlive e he) hnot

/-- **Taking an entry out**, if it is there. -/
theorem Free.remove (h : c.Free free) (he : entry ∈ c.live) :
    (c.removeFreeList entry).Free (free.erase entry) := by
  by_cases hmem : entry ∈ free
  · obtain ⟨hcircular, hnext, hprev, hothers⟩ := h.circular.remove hmem
    refine ⟨hcircular, fun e hlive hnot => ?_⟩
    by_cases heq : e = entry
    · subst heq
      exact ⟨hnext, hprev⟩
    · have hoff : e ∉ free := fun hin => hnot ((List.mem_erase_of_ne heq).mpr hin)
      show (c.free.removeCircular c.freeList entry).1.next e = none ∧ _
      rw [(hothers e hoff).1]
      refine ⟨(h.off e hlive hoff).1, (hothers e hoff).2.trans (h.off e hlive hoff).2⟩
  · obtain ⟨hnext, hprev⟩ := h.off entry he hmem
    have hsame : c.removeFreeList entry = c := by
      unfold removeFreeList
      rw [removeCircular_of_null hnext hprev]
    rw [hsame, List.erase_of_not_mem hmem]
    exact h

/-- **Putting an entry in** at the end. -/
theorem Free.insert (h : c.Free free) (hnot : entry ∉ free) :
    ∃ links list, c.insertFreeList entry = some { c with free := links, freeList := list } ∧
      { c with free := links, freeList := list }.Free (free ++ [entry]) := by
  obtain ⟨links, list, hinsert, hcircular, hothers⟩ := h.circular.insert hnot
  refine ⟨links, list, ?_, hcircular, fun e hlive hnot' => ?_⟩
  · rw [insertFreeList, hinsert]
    rfl
  · rw [List.mem_append, List.mem_singleton, not_or] at hnot'
    obtain ⟨hnext, hprev⟩ := hothers e hnot'.2 hnot'.1
    show links.next e = none ∧ links.prev e = none
    rw [hnext, hprev]
    exact h.off e hlive hnot'.1

/-! ### All operations -/

theorem inv_cacheInit (memory : FileCache) (maxBuffers : ℕ) : (memory.cacheInit maxBuffers).Inv [] [] [] where
  nodup := List.nodup_nil
  count := rfl
  le := Nat.zero_le _
  hash_table :=
    ⟨List.nodup_nil, fun p hp => absurd hp List.not_mem_nil, fun hash =>
      ⟨List.nodup_singleton _, List.isChain_pair.mpr ⟨rfl, rfl⟩⟩⟩
  free_list :=
    ⟨⟨rfl, fun e he => absurd he List.not_mem_nil, fun e he => absurd he List.not_mem_nil,
      fun y t h => absurd h (by simp)⟩, fun e he => absurd he List.not_mem_nil⟩
  mem_hashed e := ⟨fun h => absurd h List.not_mem_nil, fun h => absurd h.1 List.not_mem_nil⟩
  mem_free e := ⟨fun h => absurd h List.not_mem_nil, fun h => absurd h.1 List.not_mem_nil⟩
  allocated e he := absurd he List.not_mem_nil
  used_eq e he := absurd he List.not_mem_nil

/-- An entry that is held is not free. -/
theorem Inv.not_mem_free (h : c.Inv held hashed free) (he : e ∈ held) : e ∉ free := by
  intro hfree
  obtain ⟨hlive, -, hzero⟩ := (h.mem_free e).mp hfree
  have hcount := List.count_pos_iff.mpr he
  rw [← h.used_eq e hlive, hzero] at hcount
  exact absurd hcount (lt_irrefl 0)

/-- The loop of `cache_lookup` ends at the first entry with the index. -/
theorem findIndex_eq {first : Option ℕ} {l : List ℕ} (h : Chained c.hash first l) (index : ℤ) {fuel : ℕ}
    (hfuel : l.length ≤ fuel) : c.findIndex index fuel first = some (l.find? fun e => c.index e = index) := by
  suffices hwalk : ∀ ys xs fuel, l = xs ++ ys → ys.length ≤ fuel →
      c.findIndex index fuel ys.head? = some (ys.find? fun e => c.index e = index) by
    rw [h.first_eq]
    exact hwalk l [] fuel rfl hfuel
  clear hfuel
  intro ys
  induction ys with
  | nil =>
      intro xs fuel _ _
      cases fuel <;> rfl
  | cons y ys ih =>
      intro xs fuel hl hfuel
      cases fuel with
      | zero => exact absurd hfuel (by simp)
      | succ fuel =>
          rw [List.head?_cons, findIndex]
          by_cases heq : c.index y = index
          · rw [if_pos heq, List.find?_cons_of_pos (by simpa using heq)]
          · rw [if_neg heq, List.find?_cons_of_neg (by simpa using heq)]
            subst hl
            rw [h.next_eq]
            exact ih (xs ++ [y]) fuel (by simp) (Nat.le_of_succ_le_succ hfuel)

/-- What has an index is in the bucket of the index. -/
theorem Hashed.find?_bucket (h : c.Hashed hashed) (index : ℤ) :
    (bucket hashed (calculateHash index)).find? (fun e => c.index e = index)
      = (hashed.find? fun p => p.2 = index).map Prod.fst := by
  unfold bucket
  rw [List.find?_map, List.find?_filter]
  congr 1
  refine List.find?_congr fun p hp => ?_
  simp only [Function.comp_apply, h.index p hp, Bool.decide_and]
  by_cases heq : p.2 = index
  · simp [heq]
  · simp [heq]

/-- The entry that was hashed last is the first one in its bucket. -/
theorem Inv.findIndex (h : c.Inv held hashed free) (index : ℤ) :
    c.findIndex index c.live.length (c.hashTable (calculateHash index))
      = some ((hashed.find? fun p => p.2 = index).map Prod.fst) := by
  have hlength : (bucket hashed (calculateHash index)).length ≤ c.live.length := by
    refine ((nodup_bucket h.hash_table.nodup _).subperm fun e he => ?_).length_le
    exact ((h.mem_hashed e).mp (mem_of_mem_bucket he)).1
  rw [findIndex_eq (h.hash_table.chain _) index hlength, h.hash_table.find?_bucket]

/-- One more holds the entry that `cache_lookup` has found. -/
theorem Inv.lookup (h : c.Inv held hashed free) (he : entry ∈ hashed.map Prod.fst) :
    ({ c with used := Function.update c.used entry (c.used entry + 1) }.removeFreeList entry).Inv
      (entry :: held) hashed (free.erase entry) where
  nodup := h.nodup
  count := h.count
  le := h.le
  hash_table := h.hash_table.congr rfl (fun _ _ => ⟨rfl, rfl⟩) fun _ _ => rfl
  free_list := by
    refine Free.remove ?_ ((h.mem_hashed entry).mp he).1
    exact ⟨h.free_list.circular, h.free_list.off⟩
  mem_hashed := h.mem_hashed
  mem_free e := by
    show _ ↔ e ∈ c.live ∧ c.keep e = true ∧ Function.update c.used entry (c.used entry + 1) e = 0
    rw [h.free_list.circular.nodup.mem_erase_iff, h.mem_free]
    by_cases heq : e = entry
    · subst heq
      simp
    · simp [heq]
  allocated e hmem := by
    rcases List.mem_cons.mp hmem with rfl | hmem
    · exact ((h.mem_hashed e).mp he).1
    · exact h.allocated e hmem
  used_eq e hlive := by
    show Function.update c.used entry (c.used entry + 1) e = _
    by_cases heq : e = entry
    · subst heq
      rw [Function.update_self, List.count_cons_self, h.used_eq e hlive]
    · rw [Function.update_of_ne heq, List.count_cons_of_ne (Ne.symm heq), h.used_eq e hlive]

/-- **`cache_lookup` finds the entry that was hashed last.** -/
theorem Inv.cacheLookup (h : c.Inv held hashed free) (index : ℤ) :
    (c.cacheLookup index).map Prod.fst = some ((hashed.find? fun p => p.2 = index).map Prod.fst) := by
  rw [FileCache.cacheLookup, h.findIndex, Option.map_some, Option.map_some]
  cases (hashed.find? fun p => p.2 = index).map Prod.fst <;> rfl

theorem Inv.cacheLookup_eq_some (h : c.Inv held hashed free) (hlookup : c.cacheLookup index = some (some entry, c')) :
    entry ∈ hashed.map Prod.fst ∧
      c' = { c with used := Function.update c.used entry (c.used entry + 1) }.removeFreeList entry := by
  rw [FileCache.cacheLookup, h.findIndex, Option.map_some, Option.some.injEq] at hlookup
  cases hfind : hashed.find? fun p => p.2 = index with
  | none =>
      rw [hfind] at hlookup
      exact absurd (Prod.mk.inj hlookup).1 (by simp)
  | some p =>
      rw [hfind] at hlookup
      obtain ⟨hentry, hc'⟩ := Prod.mk.inj hlookup
      obtain rfl := Option.some.inj hentry
      exact ⟨List.mem_map_of_mem (List.mem_of_find?_eq_some hfind), hc'.symm⟩

theorem Inv.cacheLookup_eq_none (h : c.Inv held hashed free) (hlookup : c.cacheLookup index = some (none, c')) :
    c' = c := by
  rw [FileCache.cacheLookup, h.findIndex, Option.map_some, Option.some.injEq] at hlookup
  cases hfind : hashed.find? fun p => p.2 = index with
  | none =>
      rw [hfind] at hlookup
      exact (Prod.mk.inj hlookup).2.symm
  | some p =>
      rw [hfind] at hlookup
      exact absurd (Prod.mk.inj hlookup).1 (by simp)

/-- An entry that nobody holds and that is on no list. -/
structure Spare (c : FileCache) (held : List ℕ) (hashed : List (ℕ × ℤ)) (free : List ℕ) (entry : ℕ) : Prop where
  live : entry ∈ c.live
  not_held : entry ∉ held
  inv : { c with used := Function.update c.used entry 0, keep := Function.update c.keep entry false }.Inv
    held hashed free

/-- The first entry of the free list becomes spare. -/
theorem Inv.reuse (h : c.Inv held hashed free) (hlist : c.freeList = some entry) :
    (c.reuse entry).Spare held (unhashed hashed entry) (free.erase entry) entry := by
  have hfree : entry ∈ free := List.mem_of_head? (h.free_list.circular.first ▸ hlist)
  obtain ⟨hlive, hkeep, hused⟩ := (h.mem_free entry).mp hfree
  have hhashed := (h.mem_hashed entry).mpr ⟨hlive, hkeep⟩
  refine ⟨hlive, fun hheld => h.not_mem_free hheld hfree, h.nodup, h.count, h.le, ?_, ?_, fun e => ?_,
    fun e => ?_, h.allocated, fun e hmem => ?_⟩
  · have hremoved : (c.removeFreeList entry).Hashed hashed :=
      h.hash_table.congr rfl (fun _ _ => ⟨rfl, rfl⟩) fun _ _ => rfl
    exact (hremoved.remove hhashed).congr rfl (fun _ _ => ⟨rfl, rfl⟩) fun _ _ => rfl
  · exact ⟨(h.free_list.remove hlive).circular, (h.free_list.remove hlive).off⟩
  · show _ ↔ e ∈ c.live ∧ Function.update c.keep entry false e = true
    rw [mem_unhashed, h.mem_hashed]
    by_cases heq : e = entry
    · simp [heq]
    · simp [heq]
  · show _ ↔ e ∈ c.live ∧ Function.update c.keep entry false e = true ∧ Function.update c.used entry 0 e = 0
    rw [h.free_list.circular.nodup.mem_erase_iff, h.mem_free]
    by_cases heq : e = entry
    · simp [heq]
    · simp [heq]
  · show Function.update c.used entry 0 e = _
    by_cases heq : e = entry
    · subst heq
      rw [Function.update_self, ← h.used_eq e hmem, hused]
    · rw [Function.update_of_ne heq, h.used_eq e hmem]

/-- So is one that has just been allocated. -/
theorem Inv.allocate (h : c.Inv held hashed free) (hnot : entry ∉ c.live) (hlt : c.count < c.maxBuffers) :
    (c.allocate entry).Spare held (unhashed hashed entry) (free.erase entry) entry := by
  have hhashed : entry ∉ hashed.map Prod.fst := fun hmem => hnot ((h.mem_hashed entry).mp hmem).1
  have hfree : entry ∉ free := fun hmem => hnot ((h.mem_free entry).mp hmem).1
  have hheld : entry ∉ held := fun hmem => hnot (h.allocated entry hmem)
  have hsame : unhashed hashed entry = hashed := by
    refine List.filter_eq_self.mpr fun p hp => decide_eq_true fun heq => ?_
    exact hhashed (heq ▸ List.mem_map_of_mem hp)
  rw [hsame, List.erase_of_not_mem hfree]
  refine ⟨List.mem_cons_self, hheld, List.nodup_cons.mpr ⟨hnot, h.nodup⟩, ?_, hlt, ?_, ?_, fun e => ?_,
    fun e => ?_, fun e hmem => List.mem_cons_of_mem _ (h.allocated e hmem), fun e hmem => ?_⟩
  · show c.count + 1 = c.live.length + 1
    rw [h.count]
  · exact h.hash_table.congr rfl (fun _ _ => ⟨rfl, rfl⟩) fun _ _ => rfl
  · have hothers : ∀ e ≠ entry, ((c.free.setPrev entry none).setNext entry none).next e = c.free.next e ∧
        ((c.free.setPrev entry none).setNext entry none).prev e = c.free.prev e := fun e hne =>
      ⟨Function.update_of_ne hne _ _, Function.update_of_ne hne _ _⟩
    refine ⟨h.free_list.circular.congr fun e hin => hothers e fun heq => hfree (heq ▸ hin), fun e hmem hoff => ?_⟩
    by_cases heq : e = entry
    · subst heq
      exact ⟨Function.update_self _ _ _, Function.update_self _ _ _⟩
    · obtain ⟨hnext, hprev⟩ := hothers e heq
      obtain ⟨hnull, hnull'⟩ := h.free_list.off e ((List.mem_cons.mp hmem).resolve_left heq) hoff
      exact ⟨hnext.trans hnull, hprev.trans hnull'⟩
  · show _ ↔ e ∈ entry :: c.live ∧ Function.update c.keep entry false e = true
    by_cases heq : e = entry
    · subst heq
      simp [hhashed]
    · rw [h.mem_hashed]
      simp [heq]
  · show _ ↔ e ∈ entry :: c.live ∧ Function.update c.keep entry false e = true ∧
      Function.update c.used entry 0 e = 0
    by_cases heq : e = entry
    · subst heq
      simp [hfree]
    · rw [h.mem_free]
      simp [heq]
  · show Function.update c.used entry 0 e = _
    by_cases heq : e = entry
    · subst heq
      rw [Function.update_self, List.count_eq_zero_of_not_mem hheld]
    · rw [Function.update_of_ne heq, h.used_eq e ((List.mem_cons.mp hmem).resolve_left heq)]

/-- Somebody gets a spare entry. -/
theorem Spare.hold (h : c.Spare held hashed free entry) :
    { c with used := Function.update c.used entry 1, keep := Function.update c.keep entry false }.Inv
      (entry :: held) hashed free where
  nodup := h.inv.nodup
  count := h.inv.count
  le := h.inv.le
  hash_table := h.inv.hash_table.congr rfl (fun _ _ => ⟨rfl, rfl⟩) fun _ _ => rfl
  free_list := ⟨h.inv.free_list.circular, h.inv.free_list.off⟩
  mem_hashed := h.inv.mem_hashed
  mem_free e := by
    have hfree := h.inv.mem_free e
    by_cases heq : e = entry
    · subst heq
      simpa using hfree
    · simpa [heq] using hfree
  allocated e hmem := by
    rcases List.mem_cons.mp hmem with rfl | hmem
    · exact h.live
    · exact h.inv.allocated e hmem
  used_eq e hlive := by
    have hused := h.inv.used_eq e hlive
    by_cases heq : e = entry
    · subst heq
      show Function.update c.used e 1 e = _
      rw [Function.update_self, List.count_cons_self, List.count_eq_zero_of_not_mem h.not_held]
    · show Function.update c.used entry 1 e = _
      rw [List.count_cons_of_ne (Ne.symm heq), ← hused, Function.update_of_ne heq]
      exact (Function.update_of_ne heq _ _).symm

/-- An entry that is held is hashed. -/
theorem Inv.insert (h : c.Inv held hashed free) (hheld : entry ∈ held) (hkeep : c.keep entry = false) (index : ℤ) :
    ({ c with
      keep := Function.update c.keep entry true
      index := Function.update c.index entry index }.insertHashTable entry).Inv
      held ((entry, index) :: hashed) free where
  nodup := h.nodup
  count := h.count
  le := h.le
  hash_table := by
    refine h.hash_table.insert (fun hmem => ?_) (Function.update_self _ _ _)
      (fun e hne => Function.update_of_ne hne _ _) rfl rfl
    rw [h.mem_hashed, hkeep] at hmem
    exact Bool.false_ne_true hmem.2
  free_list := ⟨h.free_list.circular, h.free_list.off⟩
  mem_hashed e := by
    show _ ↔ e ∈ c.live ∧ Function.update c.keep entry true e = true
    rw [List.map_cons, List.mem_cons, h.mem_hashed]
    by_cases heq : e = entry
    · subst heq
      simp [h.allocated e hheld]
    · simp [heq]
  mem_free e := by
    show _ ↔ e ∈ c.live ∧ Function.update c.keep entry true e = true ∧ c.used e = 0
    by_cases heq : e = entry
    · subst heq
      have hused : c.used e ≠ 0 := by
        rw [h.used_eq e (h.allocated e hheld)]
        exact (List.count_pos_iff.mpr hheld).ne'
      simp [h.not_mem_free hheld, hused]
    · rw [h.mem_free, Function.update_of_ne heq]
  allocated := h.allocated
  used_eq := h.used_eq

/-- An entry that is held is taken out of the hash table, if it is there. -/
theorem Inv.unhash (h : c.Inv held hashed free) (hheld : entry ∈ held) :
    { (if c.keep entry then c.removeHashTable entry else c) with
      keep := Function.update c.keep entry false }.Inv held (unhashed hashed entry) free := by
  have hlive := h.allocated entry hheld
  have hkeep : ∀ e, e ∈ (unhashed hashed entry).map Prod.fst ↔
      e ∈ c.live ∧ Function.update c.keep entry false e = true := by
    intro e
    rw [mem_unhashed, h.mem_hashed]
    by_cases heq : e = entry
    · simp [heq]
    · simp [heq]
  have hfree : ∀ e, e ∈ free ↔ e ∈ c.live ∧ Function.update c.keep entry false e = true ∧ c.used e = 0 := by
    intro e
    by_cases heq : e = entry
    · subst heq
      simp [h.not_mem_free hheld]
    · rw [h.mem_free, Function.update_of_ne heq]
  split
  · rename_i htrue
    have hremoved := h.hash_table.remove ((h.mem_hashed entry).mpr ⟨hlive, htrue⟩)
    exact ⟨h.nodup, h.count, h.le, hremoved.congr rfl (fun _ _ => ⟨rfl, rfl⟩) fun _ _ => rfl,
      ⟨h.free_list.circular, h.free_list.off⟩, hkeep, hfree, h.allocated, h.used_eq⟩
  · rename_i hfalse
    have hsame : unhashed hashed entry = hashed := by
      refine List.filter_eq_self.mpr fun p hp => decide_eq_true fun heq => hfalse ?_
      exact ((h.mem_hashed entry).mp (heq ▸ List.mem_map_of_mem hp)).2
    rw [hsame] at hkeep ⊢
    exact ⟨h.nodup, h.count, h.le, h.hash_table.congr rfl (fun _ _ => ⟨rfl, rfl⟩) fun _ _ => rfl,
      ⟨h.free_list.circular, h.free_list.off⟩, hkeep, hfree, h.allocated, h.used_eq⟩

/-- The entry that `cache_get` returns. -/
theorem Spare.initialise (h : c.Spare held hashed free entry) (index : ℤ) (keep : Bool) :
    (c.initialise entry index keep).Inv (entry :: held)
      (if keep then (entry, index) :: hashed else hashed) free := by
  cases keep with
  | false => exact h.hold
  | true =>
      have hinv := h.hold.insert List.mem_cons_self (Function.update_self _ _ _) index
      simp only [Function.update_idem] at hinv
      exact hinv

/-- **`cache_get`** returns an entry that nobody holds. -/
theorem Inv.cacheGet (h : c.Inv held hashed free) {malloc : ℕ} (hmalloc : malloc ∉ c.live)
    (hget : c.cacheGet firstFreelist malloc index keep = some (entry, c')) :
    entry ∉ held ∧ c'.Inv (entry :: held)
      (if keep then (entry, index) :: unhashed hashed entry else unhashed hashed entry) (free.erase entry) := by
  have hreused : ∀ entry', c.freeList = some entry' → entry' = entry →
      (c.reuse entry').initialise entry' index keep = c' →
      entry ∉ held ∧ c'.Inv (entry :: held)
        (if keep then (entry, index) :: unhashed hashed entry else unhashed hashed entry) (free.erase entry) := by
    rintro _ hlist rfl rfl
    have hspare := h.reuse hlist
    exact ⟨hspare.not_held, hspare.initialise index keep⟩
  unfold FileCache.cacheGet at hget
  split at hget
  · obtain ⟨entry', hlist, heq⟩ := Option.map_eq_some_iff.mp hget
    obtain ⟨hentry, hc'⟩ := Prod.mk.inj heq
    exact hreused entry' hlist hentry hc'
  · split at hget
    · rename_i hlt
      obtain ⟨rfl, rfl⟩ := Prod.mk.inj (Option.some.inj hget)
      have hspare := h.allocate hmalloc hlt
      exact ⟨hspare.not_held, hspare.initialise index keep⟩
    · split at hget
      · obtain ⟨entry', hlist, heq⟩ := Option.map_eq_some_iff.mp hget
        obtain ⟨hentry, hc'⟩ := Prod.mk.inj heq
        exact hreused entry' hlist hentry hc'
      · exact absurd hget (by simp)

/-- **`cache_rehash`** -/
theorem Inv.cacheRehash (h : c.Inv held hashed free) (hheld : entry ∈ held) (index : ℤ) :
    (c.cacheRehash entry index).Inv held ((entry, index) :: unhashed hashed entry) free := by
  have hinv := (h.unhash hheld).insert hheld (Function.update_self _ _ _) index
  simp only [Function.update_idem] at hinv
  have hkeep : (if c.keep entry then c.removeHashTable entry else c).keep = c.keep := by
    split <;> rfl
  unfold FileCache.cacheRehash
  simp only [hkeep]
  exact hinv

/-- **`cache_block_put`** by somebody who holds the entry. -/
theorem Inv.cacheBlockPut (h : c.Inv held hashed free) (hheld : entry ∈ held) :
    ∃ c' free', c.cacheBlockPut (some entry) = some c' ∧ c'.Inv (held.erase entry) hashed free' := by
  have hlive := h.allocated entry hheld
  have hused := h.used_eq entry hlive
  have hcount : ∀ e ∈ c.live, Function.update c.used entry (c.used entry - 1) e
      = (held.erase entry).count e := by
    intro e he
    by_cases heq : e = entry
    · subst heq
      rw [Function.update_self, List.count_erase_self, hused]
    · rw [Function.update_of_ne heq, List.count_erase_of_ne heq, h.used_eq e he]
  unfold FileCache.cacheBlockPut
  simp only [Function.update_self]
  split
  · rename_i hzero
    split
    · rename_i hkeep
      have hfree : ({ c with used := Function.update c.used entry (c.used entry - 1) } : FileCache).Free free :=
        ⟨h.free_list.circular, h.free_list.off⟩
      obtain ⟨links, list, hinsert, hfree'⟩ := hfree.insert (h.not_mem_free hheld)
      refine ⟨_, free ++ [entry], hinsert, h.nodup, h.count, h.le, h.hash_table.congr rfl (fun _ _ => ⟨rfl, rfl⟩) fun _ _ => rfl, hfree',
        h.mem_hashed, fun e => ?_, fun e he => h.allocated e (List.mem_of_mem_erase he), hcount⟩
      show _ ↔ e ∈ c.live ∧ c.keep e = true ∧ Function.update c.used entry (c.used entry - 1) e = 0
      rw [List.mem_append, List.mem_singleton, h.mem_free]
      by_cases heq : e = entry
      · subst heq
        simp [hlive, hkeep, hzero]
      · simp [heq]
    · rename_i hkeep
      -- nobody holds it, and it is on no list
      have hnot : entry ∉ held.erase entry := by
        rw [← List.count_eq_zero, ← hcount entry hlive, Function.update_self, hzero]
      refine ⟨_, free, rfl, h.nodup.erase entry, ?_, ?_, h.hash_table.congr rfl (fun _ _ => ⟨rfl, rfl⟩)
        fun _ _ => rfl, ⟨h.free_list.circular, fun e he => h.free_list.off e (List.mem_of_mem_erase he)⟩,
        fun e => ?_, fun e => ?_, fun e he => ?_, fun e he => hcount e (List.mem_of_mem_erase he)⟩
      · show c.count - 1 = (c.live.erase entry).length
        rw [List.length_erase_of_mem hlive, h.count]
      · exact (Nat.sub_le _ _).trans h.le
      · show _ ↔ e ∈ c.live.erase entry ∧ c.keep e = true
        rw [h.nodup.mem_erase_iff, h.mem_hashed]
        by_cases heq : e = entry
        · simp [heq, hkeep]
        · simp [heq]
      · show _ ↔ e ∈ c.live.erase entry ∧ c.keep e = true ∧
          Function.update c.used entry (c.used entry - 1) e = 0
        rw [h.nodup.mem_erase_iff, h.mem_free]
        by_cases heq : e = entry
        · simp [heq, hkeep]
        · simp [heq]
      · have hne : e ≠ entry := fun heq => hnot (heq ▸ he)
        exact (List.mem_erase_of_ne hne).mpr (h.allocated e (List.mem_of_mem_erase he))
  · rename_i hnot
    refine ⟨_, free, rfl, h.nodup, h.count, h.le, h.hash_table.congr rfl (fun _ _ => ⟨rfl, rfl⟩)
      fun _ _ => rfl, ⟨h.free_list.circular, h.free_list.off⟩, h.mem_hashed, fun e => ?_,
      fun e he => h.allocated e (List.mem_of_mem_erase he), hcount⟩
    show _ ↔ e ∈ c.live ∧ c.keep e = true ∧ Function.update c.used entry (c.used entry - 1) e = 0
    rw [h.mem_free]
    by_cases heq : e = entry
    · subst heq
      have hpos : c.used e ≠ 0 := fun hzero => hnot (by rw [hzero])
      simp [hnot, hpos]
    · rw [Function.update_of_ne heq]

/-- Other memory does not matter. -/
theorem Inv.same (h : c.Inv held hashed free) (hsame : c.Same c') : c'.Inv held hashed free where
  nodup := hsame.live ▸ h.nodup
  count := by rw [hsame.count, hsame.live, h.count]
  le := by
    rw [hsame.count, hsame.maxBuffers]
    exact h.le
  hash_table := h.hash_table.congr hsame.hashTable (fun e he => hsame.hash e ((h.mem_hashed e).mp he).1)
    fun e he => hsame.index e ((h.mem_hashed e).mp he).1
  free_list := h.free_list.congr hsame.freeList (fun e he => ((h.mem_free e).mp he).1)
    (fun e he => hsame.live ▸ he) hsame.free
  mem_hashed e := by
    rw [h.mem_hashed, hsame.live]
    exact and_congr_right fun he => by rw [hsame.keep e he]
  mem_free e := by
    rw [h.mem_free, hsame.live]
    exact and_congr_right fun he => by rw [hsame.keep e he, hsame.used e he]
  allocated e he := hsame.live ▸ h.allocated e he
  used_eq e he := by
    rw [hsame.live] at he
    rw [hsame.used e he, h.used_eq e he]

end FileCache

/-! ## Every run -/

/-- **What all operations keep.** -/
theorem CacheRun.inv (h : CacheRun firstFreelist c held hashed) : ∃ free, c.Inv held hashed free := by
  induction h with
  | init memory maxBuffers => exact ⟨[], FileCache.inv_cacheInit memory maxBuffers⟩
  | get _ hmalloc hget ih =>
      obtain ⟨free, hinv⟩ := ih
      exact ⟨_, (hinv.cacheGet hmalloc hget).2⟩
  | lookup _ hlookup ih =>
      obtain ⟨free, hinv⟩ := ih
      obtain ⟨hmem, rfl⟩ := hinv.cacheLookup_eq_some hlookup
      exact ⟨_, hinv.lookup hmem⟩
  | miss _ hlookup ih =>
      obtain ⟨free, hinv⟩ := ih
      rw [hinv.cacheLookup_eq_none hlookup]
      exact ⟨free, hinv⟩
  | rehash index _ hheld ih =>
      obtain ⟨free, hinv⟩ := ih
      exact ⟨free, hinv.cacheRehash hheld index⟩
  | put _ hheld hput ih =>
      obtain ⟨free, hinv⟩ := ih
      obtain ⟨c', free', hput', hinv'⟩ := hinv.cacheBlockPut hheld
      obtain rfl := Option.some.inj (hput.symm.trans hput')
      exact ⟨free', hinv'⟩
  | memory _ hsame ih =>
      obtain ⟨free, hinv⟩ := ih
      exact ⟨free, hinv.same hsame⟩

/-- **The caches are consistent after any operations of the holders.** The entries to keep are on the chains of
their indices, and those of them that nobody holds are on the free list; as many entries as are counted are
allocated, and no more than the buffers that there may be; `cache_get` returns an entry that nobody holds;
`cache_lookup` finds the entry that was hashed last, if it has not been reused; and a holder can put any entry
back. -/
theorem cacheRun_consistent (h : CacheRun firstFreelist c held hashed) :
    (∃ chain : ℕ → List ℕ, (∀ hash, Chained c.hash (c.hashTable hash) (chain hash)) ∧
      ∀ hash e, e ∈ chain hash ↔ e ∈ c.live ∧ c.keep e = true ∧ calculateHash (c.index e) = hash) ∧
    (∃ free, Circular c.free c.freeList free ∧
      ∀ e, e ∈ free ↔ e ∈ c.live ∧ c.keep e = true ∧ c.used e = 0) ∧
    (c.live.Nodup ∧ c.count = c.live.length ∧ c.count ≤ c.maxBuffers ∧
      ∀ e ∈ c.live, c.used e = held.count e) ∧
    (∀ malloc index keep entry c', malloc ∉ c.live →
      c.cacheGet firstFreelist malloc index keep = some (entry, c') → entry ∉ held) ∧
    (∀ index, (c.cacheLookup index).map Prod.fst
      = some ((hashed.find? fun p => p.2 = index).map Prod.fst)) ∧
    ∀ entry ∈ held, ∃ c', c.cacheBlockPut (some entry) = some c' := by
  obtain ⟨free, hinv⟩ := h.inv
  refine ⟨⟨bucket hashed, hinv.hash_table.chain, fun hash e => ?_⟩,
    ⟨free, hinv.free_list.circular, hinv.mem_free⟩, ⟨hinv.nodup, hinv.count, hinv.le, hinv.used_eq⟩,
    fun malloc index keep entry c' hmalloc hget => (hinv.cacheGet hmalloc hget).1, hinv.cacheLookup,
    fun entry hheld => ?_⟩
  · rw [← and_assoc, ← hinv.mem_hashed, mem_bucket]
    constructor
    · rintro ⟨index, hmem, rfl⟩
      exact ⟨List.mem_map_of_mem hmem, congrArg calculateHash (hinv.hash_table.index _ hmem)⟩
    · rintro ⟨hmem, rfl⟩
      obtain ⟨p, hp, rfl⟩ := List.mem_map.mp hmem
      exact ⟨p.2, hp, congrArg calculateHash (hinv.hash_table.index p hp).symm⟩
  · obtain ⟨c', -, hput, -⟩ := hinv.cacheBlockPut hheld
    exact ⟨c', hput⟩

/-- Nothing is known of the memory, and there is room for two buffers. -/
def twoBuffers : FileCache where
  maxBuffers := 2
  count := 0
  freeList := none
  hashTable _ := none
  hash := ⟨fun _ => some 9, fun _ => some 9⟩
  free := ⟨fun _ => some 9, fun _ => some 9⟩
  index _ := 65541
  used _ := 3
  keep _ := true
  live := []

/-- The index 5 is found again, although nobody holds its entry any more. -/
theorem cacheRun_consistent_twoBuffers :
    ∃ c, CacheRun true c [] [(16, 65541), (7, 5)] ∧ (c.cacheLookup 5).map Prod.fst = some (some 7) := by
  have hinit : CacheRun true twoBuffers [] [] := CacheRun.init twoBuffers 2
  have hget := hinit.get (show 7 ∉ twoBuffers.live from List.not_mem_nil)
    (show twoBuffers.cacheGet true 7 5 true = some (7, _) from rfl)
  have hget' := hget.get (show 16 ∉ [7] by decide) (show FileCache.cacheGet _ true 16 65541 true = some (16, _) from rfl)
  have hput := hget'.put (show 7 ∈ [16, 7] by decide) (show FileCache.cacheBlockPut _ (some 7) = some _ from rfl)
  have hput' := hput.put (show 16 ∈ [16] by decide) (show FileCache.cacheBlockPut _ (some 16) = some _ from rfl)
  exact ⟨_, hput', (cacheRun_consistent hput').2.2.2.2.1 5⟩

end FirmwareTools.Squashfs

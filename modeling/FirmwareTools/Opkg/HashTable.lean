import FirmwareTools.Opkg.World
import Mathlib.Data.List.Nodup

/-! # The hash table

The first entry of a bucket lies in the array, the others are chained behind it. Removing the first one
copies the next one over it, so a bucket whose first entry is empty has no others.

* **`hashTable_refines`** — after any operations the table holds for each key what the last of them on
  that key has left;
* **`hashTable_fileHash`** — so does the list of entries that stands for a table of files. -/

namespace FirmwareTools.Opkg

section

variable {V : Type}

/-! ## The table -/

/-- A `hash_entry_t` without its `next`. `none` is `NULL`, as a key and as a value. -/
structure HashEntry (V : Type) where
  key : Option CStr
  data : Option V

/-- An entry of the array, and what its `next` leads to. -/
structure Bucket (V : Type) where
  first : HashEntry V
  chain : List (HashEntry V)

/-- `hash_table_t` -/
structure HashTable (V : Type) where
  entries : ℕ → Bucket V
  nBuckets : ℕ
  nElements : ℕ
  nUsedBuckets : ℕ
  nCollisions : ℕ
  maxBucketLen : ℕ
  nHits : ℕ
  nMisses : ℕ

/-- `djb2_hash` -/
def djb2Hash (str : CStr) : ℕ :=
  str.foldl (fun hash c => (hash * 33 + c.toNat) % (ulongMax + 1)) 5381

/-- `hash_index` -/
def hashIndex (nBuckets : ℕ) (key : CStr) : ℕ := djb2Hash key % nBuckets

/-- An entry of zeros. -/
def HashEntry.zero : HashEntry V := ⟨none, none⟩

/-- `hash_table_init` -/
def hashTableInit (len : ℕ) : HashTable V where
  entries _ := ⟨.zero, []⟩
  nBuckets := len
  nElements := 0
  nUsedBuckets := 0
  nCollisions := 0
  maxBucketLen := 0
  nHits := 0
  nMisses := 0

/-- All the entries of a bucket. -/
def Bucket.all (b : Bucket V) : List (HashEntry V) := b.first :: b.chain

/-- Write an entry of the array. -/
def HashTable.setBucket (t : HashTable V) (ndx : ℕ) (b : Bucket V) : HashTable V :=
  { t with entries := Function.update t.entries ndx b }

/-- The loop of `hash_table_get`: the data of the first entry with the key. -/
def chainGet (key : CStr) : List (HashEntry V) → Option (Option V)
  | [] => none
  | e :: es => if e.key = some key then some e.data else chainGet key es

/-- `hash_table_get` -/
def hashTableGet (t : HashTable V) (key : CStr) : Option V × HashTable V :=
  match chainGet key (t.entries (hashIndex t.nBuckets key)).all with
  | some data => (data, { t with nHits := t.nHits + 1 })
  | none => (none, { t with nMisses := t.nMisses + 1 })

/-- The loop of `hash_table_insert` over the chained entries, and whether it comes to the end and adds
one there. `strcmp` cannot read a key that is `NULL`. -/
def chainInsert (key : CStr) (value : Option V) : List (HashEntry V) → Option (List (HashEntry V) × Bool)
  | [] => some ([⟨some key, value⟩], true)
  | e :: es => do
    let k ← e.key
    if k = key then some ({ e with data := value } :: es, false)
    else do
      let (es, added) ← chainInsert key value es
      some (e :: es, added)

/-- `hash_table_insert`, which returns `0`. -/
def hashTableInsert (t : HashTable V) (key : CStr) (value : Option V) : Option (HashTable V) :=
  let ndx := hashIndex t.nBuckets key
  let b := t.entries ndx
  match b.first.key with
  | some k =>
    if k = key then
      -- already in the table, update the value
      some (t.setBucket ndx { b with first := { b.first with data := value } })
    else do
      let (chain, added) ← chainInsert key value b.chain
      let t := t.setBucket ndx { b with chain := chain }
      if added then
        some { t with
          nCollisions := t.nCollisions + 1
          maxBucketLen := max t.maxBucketLen chain.length
          nElements := t.nElements + 1 }
      else some t
  | none =>
    let t := t.setBucket ndx { b with first := ⟨some key, value⟩ }
    some { t with nUsedBuckets := t.nUsedBuckets + 1, nElements := t.nElements + 1 }

/-- The loop of `hash_table_remove` over the chained entries. -/
def chainRemove (key : CStr) : List (HashEntry V) → Option (List (HashEntry V))
  | [] => none
  | e :: es =>
    if e.key = some key then some es
    else do
      let es ← chainRemove key es
      some (e :: es)

/-- `hash_table_remove` -/
def hashTableRemove (t : HashTable V) (key : CStr) : ℕ × HashTable V :=
  let ndx := hashIndex t.nBuckets key
  let b := t.entries ndx
  if b.first.key = some key then
    match b.chain with
    -- `memmove` of the next entry over the first one
    | next :: rest => (1, t.setBucket ndx ⟨next, rest⟩)
    | [] => (1, t.setBucket ndx ⟨.zero, []⟩)
  else match chainRemove key b.chain with
    | some chain => (1, t.setBucket ndx { b with chain := chain })
    | none => (0, t)

/-- The call for an entry, if it has a key. -/
def HashEntry.call (e : HashEntry V) : Option (CStr × Option V) := e.key.map fun k => (k, e.data)

/-- `hash_table_foreach`: the key and the value of each call. -/
def hashTableForeach (t : HashTable V) : List (CStr × Option V) :=
  (List.range t.nBuckets).flatMap fun i => (t.entries i).all.filterMap HashEntry.call

/-- An operation on a table. -/
inductive HashOp (V : Type) where
  | insert (key : CStr) (value : Option V)
  | remove (key : CStr)
  | get (key : CStr)

/-- The table after an operation. -/
def HashOp.run (t : HashTable V) : HashOp V → Option (HashTable V)
  | .insert key value => hashTableInsert t key value
  | .remove key => some (hashTableRemove t key).2
  | .get key => some (hashTableGet t key).2

/-- The table after some operations. -/
def hashTableRun (t : HashTable V) (ops : List (HashOp V)) : Option (HashTable V) :=
  ops.foldlM HashOp.run t

/-! ## A finite map -/

/-- What an operation leaves for a key that it found as `found`: `none` for a key that is absent. -/
def HashOp.leaves (key : CStr) (found : Option (Option V)) : HashOp V → Option (Option V)
  | .insert k value => if k = key then some value else found
  | .remove k => if k = key then none else found
  | .get _ => found

/-- The value of the last insert of a key that no remove of it follows. -/
def lastInsert (ops : List (HashOp V)) (key : CStr) : Option (Option V) :=
  ops.foldl (HashOp.leaves key) none

/-! ## Chains -/

variable {key k : CStr} {value : Option V} {es es' : List (HashEntry V)} {e : HashEntry V}

theorem chainGet_cons_of_ne (h : e.key ≠ some key) : chainGet key (e :: es) = chainGet key es :=
  if_neg h

theorem chainGet_eq_none (h : some key ∉ es.map HashEntry.key) : chainGet key es = none := by
  induction es with
  | nil => rfl
  | cons e es ih =>
      rw [List.map_cons, List.mem_cons, not_or] at h
      rw [chainGet_cons_of_ne (Ne.symm h.1)]
      exact ih h.2

theorem chainGet_isSome (h : some key ∈ es.map HashEntry.key) : (chainGet key es).isSome := by
  induction es with
  | nil => exact absurd h List.not_mem_nil
  | cons e es ih =>
      rw [chainGet]
      split
      · rfl
      · rename_i hne
        exact ih ((List.mem_cons.mp h).resolve_left (Ne.symm hne))

/-- **Inserting** in a chain whose entries have keys. -/
theorem exists_chainInsert (h : ∀ e ∈ es, e.key.isSome) (key : CStr) (value : Option V) :
    ∃ es' added, chainInsert key value es = some (es', added) ∧
      (∀ k, chainGet k es' = if key = k then some value else chainGet k es) ∧
      es'.map HashEntry.key
        = if some key ∈ es.map HashEntry.key then es.map HashEntry.key
          else es.map HashEntry.key ++ [some key] := by
  induction es with
  | nil =>
      refine ⟨_, _, rfl, fun k => ?_, by simp⟩
      show (if some key = some k then some value else chainGet k []) = _
      simp only [Option.some.injEq]
  | cons e es ih =>
      obtain ⟨k₀, hk₀⟩ := Option.isSome_iff_exists.mp (h e List.mem_cons_self)
      by_cases heq : k₀ = key
      · subst heq
        refine ⟨{ e with data := value } :: es, false, by simp [chainInsert, hk₀], fun k => ?_, ?_⟩
        · simp only [chainGet, hk₀, Option.some.injEq]
          by_cases hk : k₀ = k
          · rw [if_pos hk, if_pos hk]
          · rw [if_neg hk, if_neg hk, if_neg hk]
        · simp [hk₀]
      · obtain ⟨es', added, hins, hget, hkeys⟩ := ih fun e' he' => h e' (List.mem_cons_of_mem _ he')
        refine ⟨e :: es', added, by simp [chainInsert, hk₀, heq, hins], fun k => ?_, ?_⟩
        · by_cases hk : k₀ = k
          · have hne : ¬ key = k := fun h' => heq (hk.trans h'.symm)
            simp [chainGet, hk₀, hk, hne]
          · simp [chainGet, hk₀, hk, hget]
        · have hne : some key ≠ some k₀ := fun h' => heq (Option.some.inj h').symm
          simp only [List.map_cons, hkeys, hk₀, List.mem_cons, hne, false_or]
          split <;> rfl

/-- **Removing** from a chain. -/
theorem chainRemove_eq (hnodup : (es.map HashEntry.key).Nodup) (key : CStr) :
    if some key ∈ es.map HashEntry.key then
      ∃ es', chainRemove key es = some es' ∧ es'.Sublist es ∧
        ∀ k, chainGet k es' = if key = k then none else chainGet k es
    else chainRemove key es = none := by
  induction es with
  | nil => simp [chainRemove]
  | cons e es ih =>
      rw [List.map_cons, List.nodup_cons] at hnodup
      by_cases heq : e.key = some key
      · rw [List.map_cons, heq, if_pos List.mem_cons_self]
        refine ⟨es, by rw [chainRemove, if_pos heq], List.sublist_cons_self e es, fun k => ?_⟩
        by_cases hk : key = k
        · rw [if_pos hk, ← hk]
          exact chainGet_eq_none (heq ▸ hnodup.1)
        · rw [if_neg hk, chainGet_cons_of_ne]
          rw [heq]
          exact fun h' => hk (Option.some.inj h')
      · specialize ih hnodup.2
        have hmem : some key ∈ (e :: es).map HashEntry.key ↔ some key ∈ es.map HashEntry.key := by
          rw [List.map_cons, List.mem_cons]
          exact or_iff_right (Ne.symm heq)
        by_cases hin : some key ∈ es.map HashEntry.key
        · rw [if_pos hin] at ih
          obtain ⟨es', hrem, hsub, hget⟩ := ih
          rw [if_pos (hmem.mpr hin)]
          refine ⟨e :: es', by simp [chainRemove, heq, hrem], hsub.cons_cons e, fun k => ?_⟩
          rw [chainGet, chainGet, hget]
          by_cases hk : key = k
          · rw [if_pos hk, if_pos hk, if_neg (hk ▸ heq)]
          · rw [if_neg hk, if_neg hk]
        · rw [if_neg hin] at ih
          rw [if_neg (fun h => hin (hmem.mp h))]
          simp [chainRemove, heq, ih]

/-! ## Buckets -/

/-- A bucket of a table: without a first entry there are no others, and an entry lies where its key
belongs. -/
structure Bucket.WellFormed (nBuckets i : ℕ) (b : Bucket V) : Prop where
  empty : b.first.key = none → b.chain = []
  chained : ∀ e ∈ b.chain, e.key.isSome
  nodup : (b.all.map HashEntry.key).Nodup
  hashed : ∀ k, some k ∈ b.all.map HashEntry.key → hashIndex nBuckets k = i

/-- The table holds `m`. -/
structure HashTable.Holds (t : HashTable V) (m : CStr → Option (Option V)) : Prop where
  wellFormed : ∀ i, (t.entries i).WellFormed t.nBuckets i
  get : ∀ key, chainGet key (t.entries (hashIndex t.nBuckets key)).all = m key

theorem wellFormed_zero (n i : ℕ) : Bucket.WellFormed n i (⟨.zero, []⟩ : Bucket V) where
  empty _ := rfl
  chained _ he := absurd he List.not_mem_nil
  nodup := List.nodup_singleton _
  hashed k hk := by simp [Bucket.all, HashEntry.zero] at hk

/-- A table that has been initialised holds nothing. -/
theorem holds_init (len : ℕ) : (hashTableInit len : HashTable V).Holds fun _ => none where
  wellFormed i := wellFormed_zero len i
  get key := by simp [hashTableInit, Bucket.all, HashEntry.zero, chainGet]

variable {t : HashTable V} {m : CStr → Option (Option V)} {n i : ℕ} {b b' : Bucket V}

/-- The keys of a chain as long as the first entry has one. -/
theorem Bucket.WellFormed.isSome (h : b.WellFormed n i) (hfirst : b.first.key ≠ none) :
    ∀ e ∈ b.all, e.key.isSome := by
  intro e he
  rcases List.mem_cons.mp he with rfl | he
  · exact Option.isSome_iff_ne_none.mpr hfirst
  · exact h.chained e he

/-- A bucket some of whose entries are in a bucket, behind a first one with a key. -/
theorem Bucket.WellFormed.of_sublist (h : b.WellFormed n i) (hfirst : b.first.key ≠ none)
    (hfirst' : b'.first.key ≠ none) (hsub : b'.all.Sublist b.all) : b'.WellFormed n i where
  empty hnone := absurd hnone hfirst'
  chained e he := h.isSome hfirst e (hsub.subset (List.mem_cons_of_mem _ he))
  nodup := (hsub.map _).nodup h.nodup
  hashed k hk := h.hashed k ((hsub.map _).subset hk)

/-- **Writing a bucket** changes what the table holds for the keys that belong there. -/
theorem HashTable.Holds.setBucket (h : t.Holds m) {key : CStr} {f : Option (Option V) → Option (Option V)}
    (hwf : b'.WellFormed t.nBuckets (hashIndex t.nBuckets key))
    (hget : ∀ k, chainGet k b'.all = if key = k then f (m k)
      else chainGet k (t.entries (hashIndex t.nBuckets key)).all) :
    (t.setBucket (hashIndex t.nBuckets key) b').Holds fun k => if key = k then f (m k) else m k where
  wellFormed i := by
    show (Function.update t.entries _ b' i).WellFormed t.nBuckets i
    rw [Function.update_apply]
    split
    · rename_i hi
      rw [hi]
      exact hwf
    · exact h.wellFormed i
  get k := by
    show chainGet k (Function.update t.entries _ b' (hashIndex t.nBuckets k)).all = _
    rw [Function.update_apply]
    split
    · rename_i hk
      rw [hget, ← hk, h.get k]
    · rename_i hk
      have hne : key ≠ k := fun heq => hk (heq ▸ rfl)
      rw [h.get k, if_neg hne]

/-- A key that a chain has got after the others. -/
theorem Bucket.WellFormed.of_keys {key : CStr} (h : b.WellFormed n (hashIndex n key))
    (hfirst : b.first.key ≠ none) (hfirst' : b'.first.key = b.first.key) (hne : some key ≠ b.first.key)
    (hkeys : b'.chain.map HashEntry.key
      = if some key ∈ b.chain.map HashEntry.key then b.chain.map HashEntry.key
        else b.chain.map HashEntry.key ++ [some key]) : b'.WellFormed n (hashIndex n key) := by
  have hall : b'.all.map HashEntry.key = b.all.map HashEntry.key ∨
      some key ∉ b.all.map HashEntry.key ∧
        b'.all.map HashEntry.key = b.all.map HashEntry.key ++ [some key] := by
    simp only [Bucket.all, List.map_cons, hfirst', hkeys, List.mem_cons, hne, false_or,
      List.cons_append]
    split
    · exact .inl rfl
    · rename_i hnew
      exact .inr ⟨hnew, rfl⟩
  have hmem : ∀ k, k ∈ b'.all.map HashEntry.key → k ∈ b.all.map HashEntry.key ∨ k = some key := by
    intro k hk
    rcases hall with hall | ⟨-, hall⟩
    · exact .inl (hall ▸ hk)
    · exact (List.mem_append.mp (hall ▸ hk)).imp id List.mem_singleton.mp
  refine ⟨fun hnone => absurd (hfirst'.symm.trans hnone) hfirst, fun e he => ?_, ?_, fun k hk => ?_⟩
  · rcases hmem e.key (List.mem_map_of_mem (List.mem_cons_of_mem _ he)) with hk | hk
    · obtain ⟨e', he', hkey⟩ := List.mem_map.mp hk
      exact hkey ▸ h.isSome hfirst e' he'
    · rw [hk]
      rfl
  · rcases hall with hall | ⟨hnew, hall⟩
    · exact hall ▸ h.nodup
    · rw [hall]
      refine List.nodup_append.mpr ⟨h.nodup, List.nodup_singleton _, fun u hu v hv huv => hnew ?_⟩
      rw [← List.mem_singleton.mp hv, ← huv]
      exact hu
  · rcases hmem _ hk with hk | hk
    · exact h.hashed k hk
    · rw [Option.some.inj hk]

/-! ## Operations -/

/-- **Inserting.** -/
theorem exists_hashTableInsert (h : t.Holds m) (key : CStr) (value : Option V) :
    ∃ t', hashTableInsert t key value = some t' ∧ t'.nBuckets = t.nBuckets ∧
      t'.Holds fun k => if key = k then some value else m k := by
  have hwf := h.wellFormed (hashIndex t.nBuckets key)
  have hset := fun b' => @HashTable.Holds.setBucket _ _ _ b' h key fun _ => some value
  unfold hashTableInsert
  dsimp only
  generalize t.entries (hashIndex t.nBuckets key) = b at hwf hset ⊢
  cases hfirst : b.first.key with
  | none =>
      -- an empty bucket
      have hempty := hwf.empty hfirst
      refine ⟨_, rfl, rfl, ?_⟩
      have hholds := hset { b with first := ⟨some key, value⟩ } ?_ fun k => ?_
      · exact ⟨hholds.wellFormed, hholds.get⟩
      · refine ⟨fun hnone => absurd hnone (Option.some_ne_none key), hwf.chained, ?_, fun k hk => ?_⟩
        · simp [Bucket.all, hempty]
        · simp only [Bucket.all, hempty, List.map_cons, List.map_nil, List.mem_singleton,
            Option.some.injEq] at hk
          rw [hk]
      · simp [Bucket.all, hempty, chainGet, hfirst]
  | some k₀ =>
      have hsome : b.first.key ≠ none := by
        rw [hfirst]
        exact Option.some_ne_none k₀
      by_cases heq : k₀ = key
      · -- the first entry has the key
        subst heq
        dsimp only
        rw [if_pos rfl]
        refine ⟨_, rfl, rfl, hset _ ⟨fun hnone => absurd hnone (Option.some_ne_none k₀), hwf.chained,
          ?_, fun k hk => ?_⟩ fun k => ?_⟩
        · simpa only [Bucket.all, List.map_cons, hfirst] using hwf.nodup
        · refine hwf.hashed k ?_
          simpa only [Bucket.all, List.map_cons, hfirst] using hk
        · simp only [Bucket.all, chainGet, hfirst, Option.some.injEq]
          split <;> rfl
      · dsimp only
        rw [if_neg heq]
        obtain ⟨chain, added, hins, hget, hkeys⟩ := exists_chainInsert hwf.chained key value
        have hne : some key ≠ b.first.key := by
          rw [hfirst]
          exact fun h' => heq (Option.some.inj h').symm
        have hholds := hset ⟨b.first, chain⟩ (hwf.of_keys hsome rfl hne hkeys) fun k => by
          by_cases hk : b.first.key = some k
          · have hkey : ¬ key = k := fun h' => hne (h' ▸ hk.symm)
            simp [Bucket.all, chainGet, hk, hkey]
          · simp [Bucket.all, chainGet, hk, hget]
        simp only [hins, Option.bind_eq_bind, Option.bind_some]
        cases added with
        | true => exact ⟨_, rfl, rfl, hholds.wellFormed, hholds.get⟩
        | false => exact ⟨_, rfl, rfl, hholds.wellFormed, hholds.get⟩

/-- **Removing.** -/
theorem hashTableRemove_holds (h : t.Holds m) (key : CStr) :
    (hashTableRemove t key).1 = (if (m key).isSome then 1 else 0) ∧
      (hashTableRemove t key).2.nBuckets = t.nBuckets ∧
      (hashTableRemove t key).2.Holds fun k => if key = k then none else m k := by
  have hwf := h.wellFormed (hashIndex t.nBuckets key)
  have hset := fun b' => @HashTable.Holds.setBucket _ _ _ b' h key fun _ => none
  have hm := h.get key
  unfold hashTableRemove
  dsimp only
  generalize t.entries (hashIndex t.nBuckets key) = b at hwf hset hm ⊢
  obtain ⟨first, chain⟩ := b
  have hnodup : first.key ∉ chain.map HashEntry.key ∧ (chain.map HashEntry.key).Nodup :=
    List.nodup_cons.mp hwf.nodup
  by_cases hfirst : first.key = some key
  · rw [if_pos hfirst]
    have hfound : m key = some first.data := by
      rw [← hm]
      exact if_pos hfirst
    have hget : ∀ k, chainGet k chain = if key = k then none else chainGet k (first :: chain) := by
      intro k
      by_cases hk : key = k
      · rw [if_pos hk, ← hk]
        exact chainGet_eq_none (hfirst ▸ hnodup.1)
      · rw [if_neg hk, chainGet_cons_of_ne]
        exact fun h' => hk (Option.some.inj (hfirst.symm.trans h'))
    cases chain with
    | nil =>
        refine ⟨by rw [hfound]; rfl, rfl, hset ⟨.zero, []⟩ (wellFormed_zero _ _) fun k => ?_⟩
        exact hget k
    | cons next rest =>
        have hnext := Option.isSome_iff_ne_none.mp (hwf.chained next List.mem_cons_self)
        refine ⟨by rw [hfound]; rfl, rfl, hset ⟨next, rest⟩ (hwf.of_sublist ?_ hnext ?_) hget⟩
        · show first.key ≠ none
          rw [hfirst]
          exact Option.some_ne_none key
        · exact List.sublist_cons_self first _
  · rw [if_neg hfirst]
    have hchain := chainRemove_eq hnodup.2 key
    by_cases hin : some key ∈ chain.map HashEntry.key
    · rw [if_pos hin] at hchain
      obtain ⟨chain', hrem, hsub, hget⟩ := hchain
      have hsome : first.key ≠ none := by
        intro hnone
        rw [show chain = [] from hwf.empty hnone] at hin
        exact List.not_mem_nil hin
      have hfound : (m key).isSome := by
        rw [← hm]
        show (chainGet key (first :: chain)).isSome
        rw [chainGet_cons_of_ne hfirst]
        exact chainGet_isSome hin
      rw [hrem, if_pos hfound]
      refine ⟨rfl, rfl, hset ⟨first, chain'⟩ (hwf.of_sublist hsome hsome (hsub.cons_cons first))
        fun k => ?_⟩
      show (if first.key = some k then some first.data else chainGet k chain')
        = if key = k then none else if first.key = some k then some first.data else chainGet k chain
      rw [hget]
      by_cases hk : key = k
      · rw [if_pos hk, if_pos hk, if_neg (hk ▸ hfirst)]
      · rw [if_neg hk, if_neg hk]
    · rw [if_neg hin] at hchain
      have hfound : m key = none := by
        rw [← hm]
        show chainGet key (first :: chain) = none
        rw [chainGet_cons_of_ne hfirst, chainGet_eq_none hin]
      rw [hchain, hfound]
      refine ⟨rfl, rfl, h.wellFormed, fun k => ?_⟩
      rw [h.get k]
      by_cases hk : key = k
      · rw [if_pos hk, ← hk, hfound]
      · rw [if_neg hk]

/-- **Looking up.** -/
theorem hashTableGet_holds (h : t.Holds m) (key : CStr) :
    (hashTableGet t key).1 = (m key).join ∧ (hashTableGet t key).2.nBuckets = t.nBuckets ∧
      (hashTableGet t key).2.Holds m := by
  unfold hashTableGet
  rw [h.get key]
  cases m key with
  | none => exact ⟨rfl, rfl, h.wellFormed, h.get⟩
  | some data => exact ⟨rfl, rfl, h.wellFormed, h.get⟩

/-- The calls of a chain with a key. -/
theorem filter_filterMap_call (hnodup : (es.map HashEntry.key).Nodup) (key : CStr) :
    (es.filterMap HashEntry.call).filter (fun call => call.1 = key)
      = ((chainGet key es).map (key, ·)).toList := by
  induction es with
  | nil => rfl
  | cons e es ih =>
      rw [List.map_cons, List.nodup_cons] at hnodup
      specialize ih hnodup.2
      by_cases heq : e.key = some key
      · -- it is the only one
        rw [chainGet_eq_none (heq ▸ hnodup.1)] at ih
        rw [List.filterMap_cons_some (show e.call = some (key, e.data) by simp [HashEntry.call, heq]),
          List.filter_cons_of_pos (by simp), ih, chainGet, if_pos heq]
        rfl
      · rw [chainGet_cons_of_ne heq, ← ih]
        cases hk : e.key with
        | none => rw [List.filterMap_cons_none (by simp [HashEntry.call, hk])]
        | some k =>
            rw [List.filterMap_cons_some (show e.call = some (k, e.data) by simp [HashEntry.call, hk]),
              List.filter_cons_of_neg]
            rw [decide_eq_true_eq]
            exact fun h' => heq (hk.trans (congrArg some h'))

/-- Only one of the buckets has something to add. -/
theorem flatMap_ite_eq {l : List ℕ} {i : ℕ} (hnodup : l.Nodup) (hi : i ∈ l)
    (calls : List (CStr × Option V)) : l.flatMap (fun j => if j = i then calls else []) = calls := by
  obtain ⟨front, back, rfl⟩ := List.append_of_mem hi
  rw [List.nodup_middle, List.nodup_cons, List.mem_append, not_or] at hnodup
  have hnone : ∀ l : List ℕ, i ∉ l → l.flatMap (fun j => if j = i then calls else []) = [] := by
    intro l hl
    rw [List.flatMap_eq_nil_iff]
    intro j hj
    have hne : j ≠ i := fun heq => hl (heq ▸ hj)
    exact if_neg hne
  rw [List.flatMap_append, List.flatMap_cons, hnone front hnodup.1.1, hnone back hnodup.1.2, if_pos rfl,
    List.nil_append, List.append_nil]

/-- **Going through the table.** -/
theorem filter_hashTableForeach (h : t.Holds m) (hn : 0 < t.nBuckets) (key : CStr) :
    (hashTableForeach t).filter (fun call => call.1 = key) = ((m key).map (key, ·)).toList := by
  have hindex : hashIndex t.nBuckets key < t.nBuckets := Nat.mod_lt _ hn
  have hbucket : ∀ i, ((t.entries i).all.filterMap HashEntry.call).filter (fun call => call.1 = key)
      = if i = hashIndex t.nBuckets key then ((m key).map (key, ·)).toList else [] := by
    intro i
    rw [filter_filterMap_call (h.wellFormed i).nodup]
    split
    · rename_i hi
      rw [hi, h.get]
    · rename_i hi
      rw [chainGet_eq_none fun hmem => hi ((h.wellFormed i).hashed key hmem).symm]
      rfl
  rw [hashTableForeach, List.filter_flatMap]
  simp only [hbucket]
  exact flatMap_ite_eq List.nodup_range (List.mem_range.mpr hindex) _

/-! ## Runs -/

/-- **One operation.** -/
theorem HashOp.run_holds (h : t.Holds m) (op : HashOp V) :
    ∃ t', op.run t = some t' ∧ t'.nBuckets = t.nBuckets ∧
      t'.Holds fun k => op.leaves k (m k) := by
  cases op with
  | insert key value => exact exists_hashTableInsert h key value
  | remove key => exact ⟨_, rfl, (hashTableRemove_holds h key).2⟩
  | get key => exact ⟨_, rfl, (hashTableGet_holds h key).2⟩

/-- **Some operations.** -/
theorem hashTableRun_holds (h : t.Holds m) (ops : List (HashOp V)) :
    ∃ t', hashTableRun t ops = some t' ∧ t'.nBuckets = t.nBuckets ∧
      t'.Holds fun k => ops.foldl (HashOp.leaves k) (m k) := by
  induction ops generalizing t m with
  | nil => exact ⟨t, rfl, rfl, h⟩
  | cons op ops ih =>
      obtain ⟨t₁, hrun, hn, h₁⟩ := op.run_holds h
      obtain ⟨t', hruns, hn', h'⟩ := ih h₁
      refine ⟨t', ?_, hn'.trans hn, h'⟩
      rw [hashTableRun, List.foldlM_cons, hrun]
      exact hruns

/-- **The hash table is a finite map.** After any operations on a table of `len` buckets it holds for each
key what the last of them has left: `hash_table_get` returns it, `hash_table_remove` returns whether it is
there, and `hash_table_foreach` makes exactly one call for each key that is. -/
theorem hashTable_refines {len : ℕ} (hlen : 1 ≤ len) (ops : List (HashOp V)) :
    ∃ t, hashTableRun (hashTableInit len) ops = some t ∧ ∀ key,
      (hashTableGet t key).1 = (lastInsert ops key).join ∧
      (hashTableRemove t key).1 = (if (lastInsert ops key).isSome then 1 else 0) ∧
      (hashTableForeach t).filter (fun call => call.1 = key)
        = ((lastInsert ops key).map (key, ·)).toList := by
  obtain ⟨t, hrun, hn, h⟩ := hashTableRun_holds (holds_init len) ops
  refine ⟨t, hrun, fun key => ⟨(hashTableGet_holds h key).1, (hashTableRemove_holds h key).1, ?_⟩⟩
  exact filter_hashTableForeach h (hn ▸ hlen) key

end

/-- Two keys, the first of which is removed. -/
def twoKeys : List (HashOp ℕ) :=
  [.insert "a".toList (some 1), .insert "b".toList (some 2), .remove "a".toList]

/-- Both in one bucket. -/
theorem hashTable_refines_twoKeys :
    ∃ t, hashTableRun (hashTableInit 1) twoKeys = some t ∧ ∀ key,
      (hashTableGet t key).1 = (lastInsert twoKeys key).join ∧
      (hashTableRemove t key).1 = (if (lastInsert twoKeys key).isSome then 1 else 0) ∧
      (hashTableForeach t).filter (fun call => call.1 = key)
        = ((lastInsert twoKeys key).map (key, ·)).toList :=
  hashTable_refines le_rfl twoKeys

/-! ## Tables of files -/

/-- The same operation on the list of entries that stands for a table of files. -/
def HashOp.runFiles (hash : FileHash) : HashOp PkgId → FileHash
  | .insert key (some value) => hash.insert key value
  | .insert _ none => hash
  | .remove key => hash.remove key
  | .get _ => hash

/-- No package is `NULL`. -/
def HashOp.Stores : HashOp PkgId → Prop
  | .insert _ value => value.isSome
  | .remove _ => True
  | .get _ => True

/-- The keys of the entries differ. -/
def FileHash.Distinct (hash : FileHash) : Prop := (hash.map Prod.fst).Nodup

variable {hash : FileHash} {key key' : CStr} {value : PkgId}

theorem FileHash.get_eq_none (h : key ∉ hash.map Prod.fst) : hash.get key = none := by
  induction hash with
  | nil => rfl
  | cons e hash ih =>
      rw [List.map_cons, List.mem_cons, not_or] at h
      rw [FileHash.get, if_neg (Ne.symm h.1)]
      exact ih h.2

theorem FileHash.map_fst_insert (hash : FileHash) (key : CStr) (value : PkgId) :
    (hash.insert key value).map Prod.fst
      = if key ∈ hash.map Prod.fst then hash.map Prod.fst else hash.map Prod.fst ++ [key] := by
  induction hash with
  | nil => simp [FileHash.insert]
  | cons e hash ih =>
      obtain ⟨k, i⟩ := e
      rw [FileHash.insert]
      by_cases hk : k = key
      · simp [hk]
      · rw [if_neg hk, List.map_cons, ih, List.map_cons]
        simp only [List.mem_cons, Ne.symm hk, false_or]
        split <;> rfl

theorem FileHash.Distinct.insert (h : hash.Distinct) (key : CStr) (value : PkgId) :
    (hash.insert key value).Distinct := by
  rw [FileHash.Distinct, FileHash.map_fst_insert]
  split
  · exact h
  · rename_i hnew
    refine List.nodup_append.mpr ⟨h, List.nodup_singleton _, fun u hu v hv huv => hnew ?_⟩
    rw [← List.mem_singleton.mp hv, ← huv]
    exact hu

theorem FileHash.sublist_remove (hash : FileHash) (key : CStr) : (hash.remove key).Sublist hash := by
  induction hash with
  | nil => exact List.Sublist.slnil
  | cons e hash ih =>
      rw [FileHash.remove]
      split
      · exact List.sublist_cons_self e hash
      · exact ih.cons_cons e

theorem FileHash.get_remove (h : hash.Distinct) :
    (hash.remove key).get key' = if key = key' then none else hash.get key' := by
  induction hash with
  | nil => simp [FileHash.remove, FileHash.get]
  | cons e hash ih =>
      obtain ⟨k, i⟩ := e
      obtain ⟨hk, hdistinct⟩ := List.nodup_cons.mp h
      specialize ih hdistinct
      rw [FileHash.remove]
      by_cases heq : k = key
      · rw [if_pos heq]
        by_cases heq' : key = key'
        · rw [if_pos heq', ← heq', ← heq]
          exact FileHash.get_eq_none hk
        · rw [if_neg heq', FileHash.get, if_neg (heq ▸ heq')]
      · rw [if_neg heq, FileHash.get, FileHash.get, ih]
        by_cases heq' : key = key'
        · rw [if_pos heq', if_pos heq', if_neg (heq' ▸ heq)]
        · rw [if_neg heq', if_neg heq']

/-- **Tables of files.** The list of entries gives what the table gives. -/
theorem hashTable_fileHash (ops : List (HashOp PkgId)) (hstores : ∀ op ∈ ops, op.Stores) (key : CStr) :
    (ops.foldl HashOp.runFiles []).get key = (lastInsert ops key).join := by
  have hgen : ∀ (ops : List (HashOp PkgId)) (hash : FileHash) (m : CStr → Option (Option PkgId)),
      (∀ op ∈ ops, op.Stores) → hash.Distinct → (∀ k, hash.get k = (m k).join) →
      (ops.foldl HashOp.runFiles hash).get key = (ops.foldl (HashOp.leaves key) (m key)).join := by
    intro ops
    induction ops with
    | nil => exact fun hash m _ _ hget => hget key
    | cons op ops ih =>
        intro hash m hstores hdistinct hget
        rw [List.forall_mem_cons] at hstores
        rw [List.foldl_cons, List.foldl_cons]
        refine ih (op.runFiles hash) (fun k => op.leaves k (m k)) hstores.2 ?_ fun k => ?_
        · cases op with
          | insert key value =>
              cases value with
              | none => exact hdistinct
              | some value => exact hdistinct.insert key value
          | remove key => exact ((FileHash.sublist_remove hash key).map _).nodup hdistinct
          | get key => exact hdistinct
        · cases op with
          | insert key value =>
              obtain ⟨value, rfl⟩ := Option.isSome_iff_exists.mp hstores.1
              show (hash.insert key value).get k = (if key = k then some (some value) else m k).join
              split
              · rename_i hk
                rw [← hk]
                exact FileHash.get_insert_self hash key value
              · rename_i hk
                rw [FileHash.get_insert_of_ne hash value (Ne.symm hk), hget k]
          | remove key =>
              show (hash.remove key).get k = (if key = k then none else m k).join
              rw [FileHash.get_remove hdistinct, hget k]
              split <;> rfl
          | get key => exact hget k
  exact hgen ops [] (fun _ => none) hstores List.nodup_nil fun _ => rfl

end FirmwareTools.Opkg

import Mathlib.Data.Finset.Dedup
import Mathlib.Data.Finset.Card
import FirmwareTools.Squashfs.SuperBlock

/-! # The table of user and group ids

`mksquashfs` gives every user and group id it meets an index. The ids are found by a hash table; users
and groups share it. The table is written in metadata blocks, and the number of ids is a field of the
superblock, by which `unsquashfs` reads the table back.

* **`presentIds_spec`** — the indices are the places of the ids in the list of the different ones;
* **`readUidsGuids4_written`** — up to `65535` ids the table is read back;
* **`readUidsGuids4_full`** — with `65536` nothing is read, as the field for their number has 16 bits. -/

namespace FirmwareTools.Squashfs

/-! ## Interning

The abstract side: the list of the different things, in the order in which they came. -/

section

variable {α : Type*} [DecidableEq α] {xs ys : List α} {a b : α}

/-- A new thing is added at the end. -/
def intern (xs : List α) (a : α) : List α := if a ∈ xs then xs else xs ++ [a]

theorem mem_intern : b ∈ intern xs a ↔ b ∈ xs ∨ b = a := by
  unfold intern
  split
  · rename_i hmem
    constructor
    · exact Or.inl
    · rintro (hb | rfl)
      · exact hb
      · exact hmem
  · rw [List.mem_append, List.mem_singleton]

/-- What has a place keeps it. -/
theorem idxOf_intern (h : b ∈ xs) : (intern xs a).idxOf b = xs.idxOf b := by
  unfold intern
  split
  · rfl
  · exact List.idxOf_append_of_mem h

omit [DecidableEq α] in
/-- What is found in a list with one more thing. -/
theorem getElem?_concat_eq_some {i : ℕ} :
    (xs ++ [a])[i]? = some b ↔ xs[i]? = some b ∨ (i = xs.length ∧ a = b) := by
  rcases lt_trichotomy i xs.length with hlt | rfl | hgt
  · rw [List.getElem?_append_left hlt]
    constructor
    · exact Or.inl
    · rintro (hb | ⟨heq, -⟩)
      · exact hb
      · exact absurd heq (Nat.ne_of_lt hlt)
  · simp
  · have hnone : xs[i]? = none := List.getElem?_eq_none hgt.le
    have hnone' : (xs ++ [a])[i]? = none := by
      refine List.getElem?_eq_none ?_
      rw [List.length_append, List.length_singleton]
      exact hgt
    rw [hnone, hnone']
    simp [Nat.ne_of_gt hgt]

/-- Different things in one order: their number does not depend on the order. -/
theorem length_eq_card_of_nodup (h : xs.Nodup) (hmem : ∀ x, x ∈ xs ↔ x ∈ ys) :
    xs.length = ys.toFinset.card := by
  rw [← List.toFinset_card_of_nodup h]
  congr 1
  ext x
  rw [List.mem_toFinset, List.mem_toFinset, hmem]

end

/-! ## The table of `mksquashfs` -/

/-- `SQUASHFS_IDS` -/
def squashfsIds : ℕ := 65536

/-- `ID_ENTRIES` -/
def idEntries : ℕ := 256

/-- `ID_HASH` -/
def idHash (id : UInt32) : ℕ := id.toNat &&& (idEntries - 1)

/-- What an id is used for: `ISA_UID` or `ISA_GID`. -/
inductive IdKind
  | uid | gid
  deriving DecidableEq, Repr

/-- `struct id`; the links of the hash chains are in the hash table. -/
structure IdEntry where
  id : UInt32
  index : ℕ
  isaUid : Bool := false
  isaGid : Bool := false
  deriving DecidableEq, Repr

/-- A flag of an id. -/
def IdEntry.isa : IdKind → IdEntry → Bool
  | .uid, e => e.isaUid
  | .gid, e => e.isaGid

/-- Set a flag of an id. -/
def IdEntry.setIsa : IdKind → IdEntry → IdEntry
  | .uid, e => { e with isaUid := true }
  | .gid, e => { e with isaGid := true }

/-- The id table, which has `id_count` entries, and its hash chains, as indices. -/
structure Ids where
  idTable : List IdEntry := []
  idHashTable : ℕ → List ℕ := fun _ => []
  uidCount : ℕ := 0
  guidCount : ℕ := 0

/-- `get_id` -/
def Ids.getId (s : Ids) (id : UInt32) : Option IdEntry :=
  ((s.idHashTable (idHash id)).filterMap fun i => s.idTable[i]?).find? fun e => e.id == id

/-- `create_id` -/
def Ids.createId (s : Ids) (id : UInt32) : IdEntry × Ids :=
  let entry : IdEntry := { id, index := s.idTable.length }
  let chain := entry.index :: s.idHashTable (idHash id)
  (entry, { s with idTable := s.idTable ++ [entry],
                   idHashTable := Function.update s.idHashTable (idHash id) chain })

/-- An entry gets a flag, and the ids with it are counted. -/
def Ids.setIsa (s : Ids) (kind : IdKind) (entry : IdEntry) : Ids :=
  if entry.isa kind then s
  else
    let idTable := s.idTable.modify entry.index (IdEntry.setIsa kind)
    match kind with
    | .uid => { s with idTable, uidCount := s.uidCount + 1 }
    | .gid => { s with idTable, guidCount := s.guidCount + 1 }

/-- The common body of `get_uid` and `get_guid`; `none` is the error that there are too many ids. -/
def Ids.present (kind : IdKind) (s : Ids) (id : UInt32) : Option (ℕ × Ids) :=
  match s.getId id with
  | some entry => some (entry.index, s.setIsa kind entry)
  | none =>
    if s.idTable.length = squashfsIds then none
    else
      let (entry, s) := s.createId id
      some (entry.index, s.setIsa kind entry)

/-- `get_uid` -/
def getUid (s : Ids) (uid : UInt32) : Option (ℕ × Ids) := s.present .uid uid

/-- `get_guid` -/
def getGuid (s : Ids) (guid : UInt32) : Option (ℕ × Ids) := s.present .gid guid

/-- `get_uid` or `get_guid` -/
def getIdOf (s : Ids) : IdKind × UInt32 → Option (ℕ × Ids)
  | (.uid, uid) => getUid s uid
  | (.gid, guid) => getGuid s guid

/-- The indices that a sequence of calls returns. -/
def presentIds : Ids → List (IdKind × UInt32) → Option (List ℕ × Ids)
  | s, [] => some ([], s)
  | s, c :: calls => do
    let (index, s) ← getIdOf s c
    let (indices, s) ← presentIds s calls
    some (index :: indices, s)

/-- `write_id_table` -/
def writeIdTable (comp : Compressor) (noI : Bool) (bytes : ℕ) (s : Ids) : List UInt8 × ℕ :=
  genericWriteTable comp noI bytes (packFields (s.idTable.map fun e => (4, e.id.toNat))) []

/-- `read_uids_guids_4`; `fresh` is what `malloc` leaves in the table. -/
def readUidsGuids4 (comp : Compressor) (fresh : ℕ → UInt8) (img : List UInt8) (sBlk : SuperBlock) :
    Option (List ℕ) := do
  let indexes := (sBlk.noIds * 4 + metadataSize - 1) / metadataSize
  let (_, blocks) ← readTable comp img sBlk.idTableStart indexes
  readFields (List.replicate sBlk.noIds 4) (layOut metadataSize fresh 0 blocks)

/-! ## The indices -/

/-- The table has these ids, each at its index and in the chain of its hash value. -/
structure Ids.Holds (s : Ids) (ids : List UInt32) : Prop where
  map_id : s.idTable.map IdEntry.id = ids
  nodup : ids.Nodup
  index : ∀ (i : ℕ) (e : IdEntry), s.idTable[i]? = some e → e.index = i
  chains : ∀ h i, i ∈ s.idHashTable h ↔ ∃ e : IdEntry, s.idTable[i]? = some e ∧ idHash e.id = h

variable {s s' : Ids} {ids : List UInt32} {id : UInt32}

theorem Ids.holds_empty : Ids.Holds {} [] := by
  constructor
  · rfl
  · exact List.nodup_nil
  · intro i e he
    cases he
  · intro h i
    simp

theorem Ids.Holds.length_eq (h : s.Holds ids) : s.idTable.length = ids.length := by
  rw [← h.map_id, List.length_map]

/-- The entry of an id is at the place of the id. -/
theorem Ids.Holds.index_eq (h : s.Holds ids) {e : IdEntry} (he : e ∈ s.idTable) :
    e.index = ids.idxOf e.id := by
  obtain ⟨i, hi⟩ := List.mem_iff_getElem?.mp he
  have hid : ids[i]? = some e.id := by
    rw [← h.map_id, List.getElem?_map, hi, Option.map_some]
  obtain ⟨hlt, hget⟩ := List.getElem?_eq_some_iff.mp hid
  rw [h.index i e hi, ← hget, h.nodup.idxOf_getElem]

/-- **`get_id`** finds an id if it is there. -/
theorem Ids.Holds.getId (h : s.Holds ids) (id : UInt32) :
    (∃ e ∈ s.idTable, s.getId id = some e ∧ e.id = id ∧ id ∈ ids) ∨ (s.getId id = none ∧ id ∉ ids) := by
  cases hget : s.getId id with
  | some e =>
      have hid := List.find?_some hget
      rw [beq_iff_eq] at hid
      obtain ⟨i, -, hi⟩ := List.mem_filterMap.mp (List.mem_of_find?_eq_some hget)
      have hmem := List.mem_of_getElem? hi
      refine Or.inl ⟨e, hmem, rfl, hid, ?_⟩
      rw [← h.map_id, ← hid]
      exact List.mem_map_of_mem hmem
  | none =>
      refine Or.inr ⟨rfl, fun hmem => ?_⟩
      rw [← h.map_id] at hmem
      obtain ⟨e, he, rfl⟩ := List.mem_map.mp hmem
      obtain ⟨i, hi⟩ := List.mem_iff_getElem?.mp he
      -- the entry is in the chain that is searched
      have hchain := (h.chains _ i).mpr ⟨e, hi, rfl⟩
      have hno := List.find?_eq_none.mp hget e (List.mem_filterMap.mpr ⟨i, hchain, hi⟩)
      exact hno (beq_self_eq_true e.id)

theorem IdEntry.id_setIsa (kind : IdKind) (e : IdEntry) : (e.setIsa kind).id = e.id := by
  cases kind <;> rfl

theorem IdEntry.index_setIsa (kind : IdKind) (e : IdEntry) : (e.setIsa kind).index = e.index := by
  cases kind <;> rfl

/-- The flags of an id have nothing to do with where it is. -/
theorem Ids.Holds.modify (h : s.Holds ids) (kind : IdKind) (i : ℕ)
    (htable : s'.idTable = s.idTable.modify i (IdEntry.setIsa kind))
    (hchains : s'.idHashTable = s.idHashTable) : s'.Holds ids := by
  have hget : ∀ j, s'.idTable[j]? =
      (s.idTable[j]?).map fun e => if i = j then e.setIsa kind else e := by
    intro j
    rw [htable, List.getElem?_modify]
    rfl
  have hid : ∀ (j : ℕ) (e : IdEntry), (if i = j then e.setIsa kind else e).id = e.id := by
    intro j e
    split
    · exact e.id_setIsa kind
    · rfl
  constructor
  · rw [← h.map_id]
    refine List.ext_getElem? fun j => ?_
    rw [List.getElem?_map, List.getElem?_map, hget, Option.map_map]
    congr 1
    funext e
    exact hid j e
  · exact h.nodup
  · intro j e he
    rw [hget, Option.map_eq_some_iff] at he
    obtain ⟨e', he', rfl⟩ := he
    rw [← h.index j e' he']
    split
    · exact e'.index_setIsa kind
    · rfl
  · intro v j
    rw [hchains, h.chains, hget]
    constructor
    · rintro ⟨e, he, hv⟩
      exact ⟨_, by rw [he, Option.map_some], by rw [hid, hv]⟩
    · rintro ⟨e, he, hv⟩
      obtain ⟨e', he', rfl⟩ := Option.map_eq_some_iff.mp he
      exact ⟨e', he', by rw [← hv, hid]⟩

theorem Ids.Holds.setIsa (h : s.Holds ids) (kind : IdKind) (e : IdEntry) :
    (s.setIsa kind e).Holds ids := by
  unfold Ids.setIsa
  split
  · exact h
  · cases kind
    · exact h.modify .uid e.index rfl rfl
    · exact h.modify .gid e.index rfl rfl

/-- **`create_id`** adds a new id at the end. -/
theorem Ids.Holds.createId (h : s.Holds ids) (hid : id ∉ ids) :
    (s.createId id).2.Holds (ids ++ [id]) := by
  have hlen := h.length_eq
  constructor
  · rw [Ids.createId, List.map_append, h.map_id]
    rfl
  · rw [← List.concat_eq_append]
    exact h.nodup.concat hid
  · intro i e he
    rcases getElem?_concat_eq_some.mp he with he | ⟨rfl, rfl⟩
    · exact h.index i e he
    · rfl
  · intro v i
    change i ∈ Function.update s.idHashTable (idHash id)
      (s.idTable.length :: s.idHashTable (idHash id)) v ↔
        ∃ e, (s.idTable ++ [{ id, index := s.idTable.length }])[i]? = some e ∧ idHash e.id = v
    have hnew : (∃ e, (s.idTable ++ [({ id, index := s.idTable.length } : IdEntry)])[i]? = some e ∧
        idHash e.id = v) ↔ i ∈ s.idHashTable v ∨ (i = s.idTable.length ∧ idHash id = v) := by
      rw [h.chains]
      constructor
      · rintro ⟨e, he, hv⟩
        rcases getElem?_concat_eq_some.mp he with he | ⟨hi, rfl⟩
        · exact Or.inl ⟨e, he, hv⟩
        · exact Or.inr ⟨hi, hv⟩
      · rintro (⟨e, he, hv⟩ | ⟨hi, hv⟩)
        · exact ⟨e, getElem?_concat_eq_some.mpr (Or.inl he), hv⟩
        · exact ⟨_, getElem?_concat_eq_some.mpr (Or.inr ⟨hi, rfl⟩), hv⟩
    rw [hnew]
    by_cases hv : v = idHash id
    · subst hv
      rw [Function.update_self, List.mem_cons]
      constructor
      · rintro (hi | hi)
        · exact Or.inr ⟨hi, rfl⟩
        · exact Or.inl hi
      · rintro (hi | ⟨hi, -⟩)
        · exact Or.inr hi
        · exact Or.inl hi
    · rw [Function.update_of_ne hv]
      constructor
      · exact Or.inl
      · rintro (hi | ⟨-, hv'⟩)
        · exact hi
        · exact absurd hv'.symm hv

/-- **`get_uid` and `get_guid`** intern the id and return its place; they fail when it is new and the
table is full. -/
theorem Ids.Holds.present (h : s.Holds ids) (kind : IdKind) (id : UInt32) :
    (id ∉ ids ∧ ids.length = squashfsIds ∧ s.present kind id = none) ∨
      (¬ (id ∉ ids ∧ ids.length = squashfsIds) ∧
        ∃ s', s.present kind id = some ((intern ids id).idxOf id, s') ∧ s'.Holds (intern ids id)) := by
  unfold Ids.present
  rcases h.getId id with ⟨e, he, hget, rfl, hmem⟩ | ⟨hget, hmem⟩
  · refine Or.inr ⟨fun hno => hno.1 hmem, ?_⟩
    rw [hget, intern, if_pos hmem]
    dsimp only
    rw [h.index_eq he]
    exact ⟨_, rfl, h.setIsa kind e⟩
  · rw [hget]
    dsimp only
    rw [h.length_eq]
    by_cases hfull : ids.length = squashfsIds
    · exact Or.inl ⟨hmem, hfull, if_pos hfull⟩
    · refine Or.inr ⟨fun hno => hfull hno.2, ?_⟩
      rw [if_neg hfull, intern, if_neg hmem, List.idxOf_append_of_notMem hmem, List.idxOf_cons_self,
        Nat.add_zero, ← h.length_eq]
      exact ⟨_, rfl, (h.createId hmem).setIsa kind _⟩

theorem getIdOf_eq (s : Ids) (c : IdKind × UInt32) : getIdOf s c = s.present c.1 c.2 := by
  obtain ⟨kind, id⟩ := c
  cases kind <;> rfl

variable {calls : List (IdKind × UInt32)} {indices : List ℕ}

/-- **A sequence of calls** returns the places of the ids in the list of the different ones. -/
theorem presentIds_spec (h : s.Holds ids) (hle : ids.length ≤ squashfsIds)
    (hrun : presentIds s calls = some (indices, s')) :
    ∃ final, s'.Holds final ∧ final.length ≤ squashfsIds ∧
      (∀ x, x ∈ final ↔ x ∈ ids ∨ x ∈ calls.map Prod.snd) ∧
      (∀ x ∈ ids, final.idxOf x = ids.idxOf x) ∧
      indices = calls.map fun c => final.idxOf c.2 := by
  induction calls generalizing s ids indices with
  | nil =>
      cases hrun
      exact ⟨ids, h, hle, by simp, fun _ _ => rfl, rfl⟩
  | cons c calls ih =>
      rw [presentIds, getIdOf_eq] at hrun
      rcases h.present c.1 c.2 with ⟨-, -, hnone⟩ | ⟨hno, t, hsome, ht⟩
      · rw [hnone] at hrun
        cases hrun
      · rw [hsome, Option.bind_eq_bind, Option.bind_some] at hrun
        obtain ⟨⟨indices', s''⟩, hrest, hrun⟩ := Option.bind_eq_some_iff.mp hrun
        cases hrun
        have hle' : (intern ids c.2).length ≤ squashfsIds := by
          unfold intern
          split
          · exact hle
          · rename_i hmem
            have hroom : ids.length ≠ squashfsIds := fun hfull => hno ⟨hmem, hfull⟩
            rw [List.length_append, List.length_singleton]
            omega
        obtain ⟨final, hfinal, hlen, hmem, hidx, hindices⟩ := ih ht hle' hrest
        refine ⟨final, hfinal, hlen, fun x => ?_, fun x hx => ?_, ?_⟩
        · rw [hmem, mem_intern, List.map_cons, List.mem_cons, or_assoc]
        · rw [hidx x (mem_intern.mpr (Or.inl hx)), idxOf_intern hx]
        · rw [List.map_cons, hidx c.2 (mem_intern.mpr (Or.inr rfl)), hindices]

/-- The calls succeed if there are not too many different ids. -/
theorem exists_presentIds (calls : List (IdKind × UInt32)) (h : s.Holds ids)
    (hcard : (ids ++ calls.map Prod.snd).toFinset.card ≤ squashfsIds) :
    ∃ indices s', presentIds s calls = some (indices, s') := by
  induction calls generalizing s ids with
  | nil => exact ⟨[], s, rfl⟩
  | cons c calls ih =>
      rw [presentIds, getIdOf_eq]
      rcases h.present c.1 c.2 with ⟨hmem, hfull, -⟩ | ⟨-, t, hsome, ht⟩
      · -- the id is one more than there may be
        have hsub : (ids ++ [c.2]).toFinset ⊆ (ids ++ (c :: calls).map Prod.snd).toFinset := by
          intro x hx
          rw [List.mem_toFinset, List.mem_append] at hx ⊢
          rcases hx with hx | hx
          · exact Or.inl hx
          · rw [List.mem_singleton] at hx
            exact Or.inr (hx ▸ List.mem_cons_self)
        have hnodup : (ids ++ [c.2]).Nodup := by
          rw [← List.concat_eq_append]
          exact h.nodup.concat hmem
        have hle := Finset.card_le_card hsub
        rw [List.toFinset_card_of_nodup hnodup, List.length_append, List.length_singleton] at hle
        omega
      · have hset : (intern ids c.2 ++ calls.map Prod.snd).toFinset =
            (ids ++ (c :: calls).map Prod.snd).toFinset := by
          ext x
          simp only [List.mem_toFinset, List.mem_append, mem_intern, List.map_cons, List.mem_cons,
            or_assoc]
        obtain ⟨indices, s', hrest⟩ := ih ht (by rwa [hset])
        refine ⟨(intern ids c.2).idxOf c.2 :: indices, s', ?_⟩
        rw [hsome, Option.bind_eq_bind, Option.bind_some]
        dsimp only
        rw [hrest]
        rfl

/-! ## Reading back -/

variable {comp : Compressor} {noI : Bool} {fresh : ℕ → UInt8} {img : List UInt8}

/-- What `main` writes of the ids: the table at `bytes`, and its place and the number of the ids in the
superblock. -/
structure IdsWritten (comp : Compressor) (noI : Bool) (s : Ids) (img : List UInt8) (sBlk : SuperBlock)
    (bytes : ℕ) : Prop where
  current : sBlk.Current
  noIds : sBlk.noIds = s.idTable.length
  idTableStart : sBlk.idTableStart = (writeIdTable comp noI bytes s).2
  superBlock : HoldsAt img 0 sBlk.encode
  table : HoldsAt img bytes (writeIdTable comp noI bytes s).1
  le : bytes ≤ img.length
  length : img.length < 2 ^ 63

theorem length_packIds (s : Ids) :
    (packFields (s.idTable.map fun e => (4, e.id.toNat))).length = s.idTable.length * 4 := by
  have hwidth : ∀ e ∈ s.idTable, (Prod.fst ∘ fun e : IdEntry => (4, e.id.toNat)) e = 4 :=
    fun _ _ => rfl
  rw [length_packFields, List.map_map, List.map_congr_left hwidth, List.map_const',
    List.sum_replicate_nat]

theorem readTable_zero (comp : Compressor) {img : List UInt8} {start : ℕ} (h : start ≤ img.length) :
    readTable comp img start 0 = some ([], []) := by
  rw [readTable, readFsBytes, Nat.zero_mul, readSlice,
    if_pos (show start + 0 ≤ img.length from h)]
  rfl

/-- The place of the table is inside the image. -/
theorem IdsWritten.start_le {sBlk : SuperBlock} {bytes : ℕ}
    (h : IdsWritten comp noI s img sBlk bytes) : sBlk.idTableStart ≤ img.length := by
  have htable := h.table
  rw [h.idTableStart]
  unfold writeIdTable genericWriteTable at htable ⊢
  dsimp only at htable ⊢
  set encoded := (cutBlocks metadataSize _ _).flatMap (encodeMetadata comp noI) with hencoded
  rw [List.append_assoc] at htable
  by_cases hnil : encoded = []
  · rw [hnil]
    exact h.le
  · exact htable.left.length_le hnil

/-- What `unsquashfs` finds in the superblock. -/
theorem IdsWritten.readSuper {sBlk : SuperBlock} {bytes : ℕ}
    (h : IdsWritten comp noI s img sBlk bytes) :
    readSuper img = some sBlk.truncate ∧ sBlk.truncate.noIds = s.idTable.length % 2 ^ 16 ∧
      sBlk.truncate.idTableStart = (writeIdTable comp noI bytes s).2 := by
  refine ⟨readSuper_of_holdsAt h.current h.superBlock, ?_, ?_⟩
  · rw [← h.noIds]
    rfl
  · have hle := h.start_le
    have hlt := h.length
    rw [← h.idTableStart]
    exact Nat.mod_eq_of_lt (by omega)

/-- **The table is read back**, if the number of its ids fits into 16 bits. -/
theorem readUidsGuids4_written (fresh : ℕ → UInt8) (hcomp : comp.Lossless) {sBlk : SuperBlock} {bytes : ℕ}
    (h : IdsWritten comp noI s img sBlk bytes) (hlt : s.idTable.length < 2 ^ 16) :
    readUidsGuids4 comp fresh img sBlk.truncate =
      some (s.idTable.map fun e => e.id.toNat) := by
  obtain ⟨-, hnoIds, hstart⟩ := h.readSuper
  rw [Nat.mod_eq_of_lt hlt] at hnoIds
  have hbuffer := length_packIds s
  rw [readUidsGuids4, hnoIds]
  by_cases hempty : s.idTable = []
  · have hle := h.start_le
    rw [h.idTableStart, ← hstart] at hle
    rw [hempty]
    change (readTable comp img sBlk.truncate.idTableStart 0 >>= _) = _
    rw [readTable_zero comp hle]
    rfl
  · have hpos := List.length_pos_iff.mpr hempty
    set buffer := packFields (s.idTable.map fun e => (4, e.id.toNat)) with hbufferDef
    have hne : buffer ≠ [] := by
      rw [← List.length_pos_iff, hbuffer]
      omega
    have hread := readTable_of_holds hcomp hne h.table (lt_trans h.length (by decide))
    rw [List.length_nil, Nat.add_zero, hbuffer] at hread
    rw [hstart, writeIdTable, ← hbufferDef, hread, Option.bind_eq_bind, Option.bind_some]
    obtain ⟨rest, hrest⟩ := @layOut_eq metadataSize (cutBlocks metadataSize buffer.length buffer)
      fresh 0 fun b hb => length_of_mem_dropLast_cutBlocks hb
    dsimp only
    rw [← hbuffer, hrest, flatten_cutBlocks (by decide) (le_refl _), hbufferDef]
    have hfields := readFields_packFields (s.idTable.map fun e => (4, e.id.toNat)) rest
    have hwidths : (s.idTable.map fun e => (4, e.id.toNat)).map Prod.fst =
        List.replicate s.idTable.length 4 := by
      rw [List.map_map, ← List.map_const']
      rfl
    rw [hwidths, List.map_map] at hfields
    rw [hfields]
    congr 1
    refine List.map_congr_left fun e _ => ?_
    exact Nat.mod_eq_of_lt e.id.toNat_lt

/-- **A full table is not read**: the field for the number of the ids is zero. -/
theorem readUidsGuids4_full {sBlk : SuperBlock} {bytes : ℕ}
    (h : IdsWritten comp noI s img sBlk bytes) (hfull : s.idTable.length = squashfsIds) :
    readUidsGuids4 comp fresh img sBlk.truncate = some [] := by
  obtain ⟨-, hnoIds, hstart⟩ := h.readSuper
  rw [hfull] at hnoIds
  have hle := h.start_le
  rw [h.idTableStart, ← hstart] at hle
  rw [readUidsGuids4, hnoIds]
  change (readTable comp img sBlk.truncate.idTableStart 0 >>= _) = _
  rw [readTable_zero comp hle]
  rfl

/-! ## The round trip -/

/-- The indices of the calls fit into an inode, they are equal exactly for equal ids, and the table that
is read from the image gives the id for each of them. -/
structure IdRoundTrip (comp : Compressor) (fresh : ℕ → UInt8) (img : List UInt8)
    (calls : List (IdKind × UInt32)) (indices : List ℕ) : Prop where
  length : indices.length = calls.length
  fits : ∀ i ∈ indices, i < 2 ^ 16
  same : ∀ c ∈ calls.zip indices, ∀ c' ∈ calls.zip indices, c.2 = c'.2 ↔ c.1.2 = c'.1.2
  read : ∃ idTable, (readSuper img).bind (readUidsGuids4 comp fresh img) = some idTable ∧
    ∀ c ∈ calls.zip indices, idTable[c.2]? = some c.1.2.toNat

variable {sBlk : SuperBlock} {bytes : ℕ}

/-- The ids after a run from an empty table, as a list of different ids. -/
theorem presentIds_empty (hrun : presentIds {} calls = some (indices, s)) :
    ∃ final, s.Holds final ∧ final.length ≤ squashfsIds ∧
      final.length = (calls.map Prod.snd).toFinset.card ∧
      (∀ c ∈ calls, c.2 ∈ final) ∧ indices = calls.map fun c => final.idxOf c.2 := by
  obtain ⟨final, hfinal, hlen, hmem, -, hindices⟩ :=
    presentIds_spec Ids.holds_empty (Nat.zero_le _) hrun
  have hmem' : ∀ x, x ∈ final ↔ x ∈ calls.map Prod.snd := by
    intro x
    rw [hmem]
    constructor
    · rintro (hx | hx)
      · cases hx
      · exact hx
    · exact Or.inr
  refine ⟨final, hfinal, hlen, length_eq_card_of_nodup hfinal.nodup hmem', fun c hc => ?_, hindices⟩
  exact (hmem' c.2).mpr (List.mem_map_of_mem hc)

theorem mem_zip_map {α β : Type*} {f : α → β} {xs : List α} {c : α × β} (h : c ∈ xs.zip (xs.map f)) :
    c.1 ∈ xs ∧ c.2 = f c.1 := by
  rw [List.zip_map_right, List.mem_map] at h
  obtain ⟨⟨a, b⟩, hab, rfl⟩ := h
  rw [List.zip_eq_zipWith, List.zipWith_self, List.mem_map] at hab
  obtain ⟨x, hx, heq⟩ := hab
  cases heq
  exact ⟨hx, rfl⟩

/-- With fewer than `65536` ids all is found again. -/
theorem idRoundTrip_of_lt (hcomp : comp.Lossless) (hrun : presentIds {} calls = some (indices, s))
    (himg : IdsWritten comp noI s img sBlk bytes)
    (hcard : (calls.map Prod.snd).toFinset.card < 2 ^ 16) :
    IdRoundTrip comp fresh img calls indices := by
  obtain ⟨final, hfinal, -, hlen, hmem, rfl⟩ := presentIds_empty hrun
  have hcount := hfinal.length_eq
  constructor
  · rw [List.length_map]
  · intro i hi
    obtain ⟨c, hc, rfl⟩ := List.mem_map.mp hi
    have hlt := List.idxOf_lt_length_of_mem (hmem c hc)
    omega
  · intro c hc c' hc'
    obtain ⟨hc, hi⟩ := mem_zip_map hc
    obtain ⟨hc', hi'⟩ := mem_zip_map hc'
    rw [hi, hi']
    exact List.idxOf_inj (hmem c.1 hc)
  · have hread := readUidsGuids4_written fresh hcomp himg (by omega)
    refine ⟨_, by rw [himg.readSuper.1, Option.bind_some, hread], fun c hc => ?_⟩
    obtain ⟨hc, hi⟩ := mem_zip_map hc
    have hlt := List.idxOf_lt_length_of_mem (hmem c.1 hc)
    have hmap : s.idTable.map (fun e => e.id.toNat) = final.map UInt32.toNat := by
      rw [← hfinal.map_id, List.map_map]
      rfl
    rw [hmap, hi, List.getElem?_map, List.getElem?_eq_getElem hlt, List.getElem_idxOf hlt]
    rfl

/-- With `65536` ids no id is found. -/
theorem not_idRoundTrip_of_full (hrun : presentIds {} calls = some (indices, s))
    (himg : IdsWritten comp noI s img sBlk bytes)
    (hcard : ¬ (calls.map Prod.snd).toFinset.card < 2 ^ 16) :
    ¬ IdRoundTrip comp fresh img calls indices := by
  obtain ⟨final, hfinal, hle, hlen, hmem, rfl⟩ := presentIds_empty hrun
  rintro ⟨-, -, -, idTable, hread, hids⟩
  have hfull : s.idTable.length = squashfsIds := by
    rw [hfinal.length_eq]
    unfold squashfsIds at hle ⊢
    omega
  rw [himg.readSuper.1, Option.bind_some, readUidsGuids4_full himg hfull] at hread
  cases hread
  cases calls with
  | nil => exact hcard (by decide)
  | cons c calls => cases hids _ List.mem_cons_self

/-- **The round trip of the ids**: whatever ids are presented, if that does not fail, they are found
again in the image exactly when there are fewer than `65536` different ones. -/
theorem idRoundTrip_iff (hcomp : comp.Lossless) (fresh : ℕ → UInt8)
    (hrun : presentIds {} calls = some (indices, s))
    (himg : IdsWritten comp noI s img sBlk bytes) :
    IdRoundTrip comp fresh img calls indices ↔ (calls.map Prod.snd).toFinset.card < 2 ^ 16 := by
  constructor
  · intro h
    by_contra hcard
    exact not_idRoundTrip_of_full hrun himg hcard h
  · exact idRoundTrip_of_lt hcomp hrun himg

/-- An image with the superblock and the id table, and nothing else. -/
theorem idsWritten_self (comp : Compressor) (noI : Bool) (s : Ids)
    (hle : s.idTable.length ≤ squashfsIds) :
    ∃ img sBlk bytes, IdsWritten comp noI s img sBlk bytes := by
  let table := writeIdTable comp noI superWidths.sum s
  let sBlk : SuperBlock := { noIds := s.idTable.length, idTableStart := table.2 }
  have hencode : sBlk.encode.length = superWidths.sum := sBlk.length_encode
  have htable : table.1.length ≤ 11 * (s.idTable.length * 4) := by
    have hbound := length_genericWriteTable_le comp noI superWidths.sum
      (packFields (s.idTable.map fun e => (4, e.id.toNat))) []
    rwa [length_packIds] at hbound
  refine ⟨sBlk.encode ++ table.1, sBlk, superWidths.sum, ⟨rfl, rfl, rfl⟩, rfl, rfl, ?_, ?_, ?_, ?_⟩
  · exact List.prefix_append _ _
  · have hheld := holdsAt_append sBlk.encode table.1 []
    rwa [List.append_nil, hencode] at hheld
  · rw [List.length_append, hencode]
    exact Nat.le_add_right _ _
  · rw [List.length_append, hencode]
    have hsum : superWidths.sum = 96 := rfl
    unfold squashfsIds at hle
    omega

/-- Two ids, of which one is both a user and a group. -/
theorem idRoundTrip_twoIds : ∃ s img sBlk bytes,
    presentIds {} [(.uid, 0), (.gid, 1000), (.gid, 0)] = some ([0, 1, 0], s) ∧
      IdsWritten storeOnly false s img sBlk bytes ∧
      IdRoundTrip storeOnly (fun _ => 0) img [(.uid, 0), (.gid, 1000), (.gid, 0)] [0, 1, 0] := by
  obtain ⟨indices, s, hrun⟩ := exists_presentIds [(.uid, 0), (.gid, 1000), (.gid, 0)]
    Ids.holds_empty (by decide)
  obtain ⟨final, hfinal, hle, -⟩ := presentIds_empty hrun
  obtain ⟨img, sBlk, bytes, himg⟩ := idsWritten_self storeOnly false s (hfinal.length_eq ▸ hle)
  have hindices : indices = [0, 1, 0] := by
    cases hrun
    rfl
  subst hindices
  exact ⟨s, img, sBlk, bytes, hrun, himg,
    (idRoundTrip_iff storeOnly_lossless (fun _ => 0) hrun himg).mpr (by decide)⟩

/-- The ids from `0` to `65535`: all of them get an index, and none is found in the image. -/
theorem not_idRoundTrip_fullTable : ∃ (calls : List (IdKind × UInt32)) (indices : List ℕ) (s : Ids)
    (img : List UInt8) (sBlk : SuperBlock) (bytes : ℕ),
    presentIds {} calls = some (indices, s) ∧ IdsWritten storeOnly false s img sBlk bytes ∧
      ¬ IdRoundTrip storeOnly (fun _ => 0) img calls indices := by
  let calls := (List.range squashfsIds).map fun n => (IdKind.uid, UInt32.ofNat n)
  have hmap : calls.map Prod.snd = (List.range squashfsIds).map UInt32.ofNat := by
    rw [List.map_map]
    rfl
  have hcard : (calls.map Prod.snd).toFinset.card = squashfsIds := by
    have hnodup : ((List.range squashfsIds).map UInt32.ofNat).Nodup := by
      refine List.Nodup.map_on (fun a ha b hb hab => ?_) List.nodup_range
      rw [List.mem_range] at ha hb
      have htoNat := congrArg UInt32.toNat hab
      unfold squashfsIds at ha hb
      rwa [UInt32.toNat_ofNat', UInt32.toNat_ofNat', Nat.mod_eq_of_lt (by omega),
        Nat.mod_eq_of_lt (by omega)] at htoNat
    rw [hmap, List.toFinset_card_of_nodup hnodup, List.length_map, List.length_range]
  obtain ⟨indices, s, hrun⟩ := exists_presentIds calls Ids.holds_empty
    (by rw [List.nil_append, hcard])
  obtain ⟨final, hfinal, hle, -⟩ := presentIds_empty hrun
  obtain ⟨img, sBlk, bytes, himg⟩ := idsWritten_self storeOnly false s (hfinal.length_eq ▸ hle)
  refine ⟨calls, indices, s, img, sBlk, bytes, hrun, himg, not_idRoundTrip_of_full hrun himg ?_⟩
  rw [hcard]
  exact lt_irrefl _

end FirmwareTools.Squashfs

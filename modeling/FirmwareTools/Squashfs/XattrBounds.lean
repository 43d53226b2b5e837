import FirmwareTools.Squashfs.Inode
import FirmwareTools.Squashfs.Xattr

/-! # Extended attributes in bounds

`get_xattr` follows what an image says: the place of a list, the sizes of its names and values, and the
places of values that are stored elsewhere. Here a read outside the tables that were allocated is an error
apart from the `NULL` that an unknown prefix gives.

The entries of a list are laid out one behind the other in a memory that is zero outside the table, so that
they have an end whether it is inside or not.

* **`read_eq`** — a read is inside, or an error;
* **`xattrEntriesAt_iff`** — the entries are read inside exactly when their end is;
* **`xattrInBounds_iff`** — when `get_xattr` stays in bounds. -/

namespace FirmwareTools.Squashfs

/-! ## `get_xattr` with its reads -/

/-- `struct xattr_list`: a full name, and where its value is. -/
structure XattrItem where
  fullName : List UInt8
  value : Int
  vsize : ℕ
  deriving DecidableEq, Repr

/-- One round of `get_xattr`; the outer `none` is a read outside the table, the inner one an unknown
prefix. -/
def xattrEntryAt (t : XattrTables) (xptr : Int) : Option (Option (XattrItem × Int)) := do
  match ← readFields [2, 2] (← t.read xptr 4) with
  | [type, size] =>
    match XattrPrefix.ofType (type &&& xattrPrefixMask) with
    | none => some none
    | some pre =>
      let name ← t.read (xptr + 4) size
      let xptr := xptr + 4 + size
      if type.testBit 8 then
        let xattr := leValue (← t.read (xptr + 4) 8)
        let vsize := leValue (← t.read (t.pointer xattr) 4)
        some (some (⟨pre.text ++ name, t.pointer xattr + 4, vsize⟩, xptr + 4 + 8))
      else
        let vsize := leValue (← t.read xptr 4)
        some (some (⟨pre.text ++ name, xptr + 4, vsize⟩, xptr + 4 + vsize))
  | _ => none

/-- The loop of `get_xattr`. -/
def xattrEntriesAt (t : XattrTables) : ℕ → Int → Option (Option (List XattrItem))
  | 0, _ => some (some [])
  | n + 1, xptr => do
    match ← xattrEntryAt t xptr with
    | none => some none
    | some (item, xptr) =>
      match ← xattrEntriesAt t n xptr with
      | none => some none
      | some items => some (some (item :: items))

/-- `get_xattr` -/
def getXattrAt (t : XattrTables) (i : ℕ) : Option (Option (List XattrItem)) := do
  let id ← t.ids[i]?
  xattrEntriesAt t id.count (t.pointer id.xattr)

/-- Bytes inside the table. -/
def XattrTables.Inside (t : XattrTables) (x : Int) (count : ℕ) : Prop := 0 ≤ x ∧ x + count ≤ t.xattrs.length

/-- **`get_xattr` stays in bounds**: nothing is read outside, and a list that is returned has as many entries as
are counted, with values inside the table. -/
def XattrInBounds (t : XattrTables) (i : ℕ) : Prop :=
  ∃ result, getXattrAt t i = some result ∧ ∀ items, result = some items →
    (t.ids[i]?.map XattrId.count = some items.length) ∧ ∀ e ∈ items, t.Inside e.value e.vsize

/-! ## The memory -/

/-- A byte of the memory; outside the table there are zeros. -/
def XattrTables.byteAt (t : XattrTables) (x : Int) : UInt8 := if 0 ≤ x then t.xattrs.getD x.toNat 0 else 0

/-- Bytes of the memory. -/
def XattrTables.bytesAt (t : XattrTables) (x : Int) (count : ℕ) : List UInt8 :=
  (List.range count).map fun k : ℕ => t.byteAt (x + k)

/-- A number of the memory. -/
def XattrTables.fieldAt (t : XattrTables) (x : Int) (width : ℕ) : ℕ := leValue (t.bytesAt x width)

section

variable {t : XattrTables}

instance (x : Int) (count : ℕ) : Decidable (t.Inside x count) := inferInstanceAs (Decidable (_ ∧ _))

/-- **A read** gives what is in memory, or is outside. -/
theorem read_eq (t : XattrTables) (x : Int) (count : ℕ) :
    t.read x count = if t.Inside x count then some (t.bytesAt x count) else none := by
  by_cases hx : x < 0
  · rw [XattrTables.read, if_pos hx, if_neg fun h => absurd h.1 (by omega)]
  · obtain ⟨n, rfl⟩ := Int.eq_ofNat_of_zero_le (by omega : 0 ≤ x)
    rw [XattrTables.read, if_neg hx, Int.toNat_natCast, readSlice]
    by_cases hle : n + count ≤ t.xattrs.length
    · have hinside : t.Inside n count := ⟨by omega, by exact_mod_cast hle⟩
      rw [if_pos hle, if_pos hinside, XattrTables.bytesAt]
      congr 1
      apply List.ext_getElem
      · simp
        omega
      · intro k hk hk'
        simp only [List.length_take, List.length_drop] at hk
        have hcast : ((n : Int) + (k : Int)).toNat = n + k := by omega
        have hlt : n + k < t.xattrs.length := by omega
        rw [List.getElem_take, List.getElem_drop, List.getElem_map, List.getElem_range, XattrTables.byteAt,
          if_pos (by omega), hcast, List.getD_eq_getElem _ _ hlt]
    · rw [if_neg hle, if_neg fun h => hle (by exact_mod_cast h.2)]

theorem bytesAt_add (t : XattrTables) (x : Int) (a b : ℕ) :
    t.bytesAt x (a + b) = t.bytesAt x a ++ t.bytesAt (x + a) b := by
  rw [XattrTables.bytesAt, List.range_add, List.map_append, List.map_map, XattrTables.bytesAt, XattrTables.bytesAt]
  congr 1
  refine List.map_congr_left fun k _ => ?_
  simp [Int.add_assoc]

@[simp] theorem length_bytesAt (t : XattrTables) (x : Int) (count : ℕ) : (t.bytesAt x count).length = count := by
  simp [XattrTables.bytesAt]

theorem readFields_bytesAt (t : XattrTables) (x : Int) :
    readFields [2, 2] (t.bytesAt x 4) = some [t.fieldAt x 2, t.fieldAt (x + 2) 2] := by
  have htwo : t.bytesAt x 4 = t.bytesAt x 2 ++ t.bytesAt (x + 2) 2 := bytesAt_add t x 2 2
  rw [htwo]
  simp [readFields, XattrTables.fieldAt, List.take_of_length_le]

/-! ## The entries of the memory -/

variable (t) in
/-- The prefix of an entry is known. -/
def entryKnown (x : Int) : Bool := (XattrPrefix.ofType (t.fieldAt x 2 &&& xattrPrefixMask)).isSome

variable (t) in
/-- The value of an entry is stored elsewhere. -/
def entryOol (x : Int) : Bool := (t.fieldAt x 2).testBit 8

variable (t) in
/-- The place behind the name of an entry. -/
def entryValue (x : Int) : Int := x + 4 + t.fieldAt (x + 2) 2

variable (t) in
/-- The place of a value that is stored elsewhere. -/
def oolPointer (x : Int) : Int := t.pointer (t.fieldAt (entryValue t x + 4) 8)

variable (t) in
/-- The end of an entry. -/
def entryEnd (x : Int) : Int :=
  if entryOol t x then entryValue t x + 4 + 8 else entryValue t x + 4 + t.fieldAt (entryValue t x) 4

variable (t) in
/-- The end of a list, or of the header of its first entry with an unknown prefix. -/
def listEnd : ℕ → Int → Int
  | 0, x => x
  | n + 1, x => if entryKnown t x then listEnd n (entryEnd t x) else x + 4

variable (t) in
/-- The prefixes of a list are known. -/
def listKnown : ℕ → Int → Bool
  | 0, _ => true
  | n + 1, x => entryKnown t x && listKnown n (entryEnd t x)

variable (t) in
/-- The places of the values of a list that are stored elsewhere, up to an unknown prefix. -/
def oolValues : ℕ → Int → List Int
  | 0, _ => []
  | n + 1, x =>
    if entryKnown t x then (if entryOol t x then [oolPointer t x] else []) ++ oolValues n (entryEnd t x) else []

variable (t) in
/-- **A list inside the table**: it begins and ends there, and so do the values that are stored elsewhere, with
their sizes; only the sizes matter of a list with an unknown prefix. -/
structure ListInside (n : ℕ) (x : Int) : Prop where
  start : 0 ≤ x
  stop : listEnd t n x ≤ t.xattrs.length
  values : ∀ p ∈ oolValues t n x, t.Inside p (4 + if listKnown t n x then t.fieldAt p 4 else 0)

/-- The item of an entry. -/
def entryItem (t : XattrTables) (x : Int) : XattrItem :=
  let value := if entryOol t x then oolPointer t x else entryValue t x
  { fullName := ((XattrPrefix.ofType (t.fieldAt x 2 &&& xattrPrefixMask)).map XattrPrefix.text).getD [] ++
      t.bytesAt (x + 4) (t.fieldAt (x + 2) 2)
    value := value + 4
    vsize := t.fieldAt value 4 }

/-- What is read of an entry behind its header: the name, and the size of the value, which may be stored
elsewhere. -/
def EntryReads (t : XattrTables) (x : Int) : Prop :=
  t.Inside (x + 4) (t.fieldAt (x + 2) 2) ∧
    if entryOol t x then t.Inside (entryValue t x + 4) 8 ∧ t.Inside (oolPointer t x) 4
    else t.Inside (entryValue t x) 4

instance (x : Int) : Decidable (EntryReads t x) :=
  inferInstanceAs (Decidable (t.Inside (x + 4) (t.fieldAt (x + 2) 2) ∧
    if entryOol t x then t.Inside (entryValue t x + 4) 8 ∧ t.Inside (oolPointer t x) 4
    else t.Inside (entryValue t x) 4))

/-- **A round** reads the entry, and the size of a value that is stored elsewhere. -/
theorem xattrEntryAt_eq (t : XattrTables) (x : Int) :
    xattrEntryAt t x =
      if t.Inside x 4 then
        if entryKnown t x then
          if EntryReads t x then some (some (entryItem t x, entryEnd t x)) else none
        else some none
      else none := by
  rw [xattrEntryAt, read_eq]
  by_cases hheader : t.Inside x 4
  swap
  · rw [if_neg hheader, if_neg hheader]
    rfl
  rw [if_pos hheader, if_pos hheader, Option.bind_eq_bind, Option.bind_some, readFields_bytesAt, Option.bind_eq_bind,
    Option.bind_some]
  dsimp only
  cases hpre : XattrPrefix.ofType (t.fieldAt x 2 &&& xattrPrefixMask) with
  | none => simp [entryKnown, hpre]
  | some pre =>
      have hknown : entryKnown t x = true := by rw [entryKnown, hpre]; rfl
      rw [if_pos hknown, read_eq]
      dsimp only
      by_cases hname : t.Inside (x + 4) (t.fieldAt (x + 2) 2)
      swap
      · rw [if_neg hname, if_neg fun h : EntryReads t x => hname h.1]
        rfl
      rw [if_pos hname, Option.bind_some]
      have hool : (t.fieldAt x 2).testBit 8 = entryOol t x := rfl
      have hvalue : x + 4 + (t.fieldAt (x + 2) 2 : Int) = entryValue t x := rfl
      rw [hool, hvalue, entryItem, hpre, entryEnd]
      cases hool' : entryOol t x with
      | true =>
          have hreads : EntryReads t x ↔ t.Inside (entryValue t x + 4) 8 ∧ t.Inside (oolPointer t x) 4 := by
            rw [EntryReads, hool', if_pos rfl, and_iff_right hname]
          have hpointer : t.pointer (leValue (t.bytesAt (entryValue t x + 4) 8)) = oolPointer t x := rfl
          simp only [if_true, read_eq]
          by_cases href : t.Inside (entryValue t x + 4) 8
          · rw [if_pos href, Option.bind_some, hpointer]
            by_cases hsize : t.Inside (oolPointer t x) 4
            · rw [if_pos hsize, if_pos (hreads.mpr ⟨href, hsize⟩)]
              rfl
            · rw [if_neg hsize, if_neg fun h => hsize (hreads.mp h).2]
              rfl
          · rw [if_neg href, if_neg fun h => href (hreads.mp h).1]
            rfl
      | false =>
          have hreads : EntryReads t x ↔ t.Inside (entryValue t x) 4 := by
            rw [EntryReads, hool', if_neg Bool.false_ne_true, and_iff_right hname]
          simp only [Bool.false_eq_true, if_false, read_eq]
          by_cases hsize : t.Inside (entryValue t x) 4
          · rw [if_pos hsize, if_pos (hreads.mpr hsize)]
            rfl
          · rw [if_neg hsize, if_neg fun h => hsize (hreads.mp h)]
            rfl

/-! ## Lists -/

theorem XattrTables.Inside.left {x : Int} {a b : ℕ} (h : t.Inside x (a + b)) : t.Inside x a := ⟨h.1, by have := h.2; omega⟩

/-- An entry has an end behind it. -/
theorem lt_entryEnd (t : XattrTables) (x : Int) : x + 4 < entryEnd t x := by
  rw [entryEnd, entryValue]
  split_ifs <;> omega

theorem le_listEnd (t : XattrTables) (n : ℕ) : ∀ x : Int, x ≤ listEnd t n x := by
  induction n with
  | zero => exact fun x => le_rfl
  | succ n ih =>
      intro x
      rw [listEnd]
      split_ifs
      · exact (by have := lt_entryEnd t x; omega : x ≤ entryEnd t x).trans (ih _)
      · omega

/-- A list is returned exactly if its prefixes are known. -/
theorem isSome_of_xattrEntriesAt {n : ℕ} : ∀ {x : Int} {result : Option (List XattrItem)},
    xattrEntriesAt t n x = some result → result.isSome = listKnown t n x := by
  induction n with
  | zero =>
      intro x result h
      cases h
      rfl
  | succ n ih =>
      intro x result h
      rw [xattrEntriesAt, xattrEntryAt_eq] at h
      rw [listKnown]
      by_cases hheader : t.Inside x 4
      swap
      · rw [if_neg hheader] at h
        cases h
      rw [if_pos hheader] at h
      cases hknown : entryKnown t x with
      | false =>
          rw [hknown, if_neg Bool.false_ne_true] at h
          cases h
          rfl
      | true =>
          rw [hknown, if_pos rfl] at h
          by_cases hreads : EntryReads t x
          swap
          · rw [if_neg hreads] at h
            cases h
          rw [if_pos hreads, Option.bind_eq_bind, Option.bind_some] at h
          obtain ⟨rest, hrest, hresult⟩ := Option.bind_eq_some_iff.mp h
          rw [Bool.true_and, ← ih hrest]
          cases rest <;> cases hresult <;> rfl

/-- What is asked of the entries of a list. -/
def EntriesInside (t : XattrTables) (n : ℕ) (x : Int) : Prop :=
  ∃ result, xattrEntriesAt t n x = some result ∧ ∀ items, result = some items →
    items.length = n ∧ ∀ e ∈ items, t.Inside e.value e.vsize

/-- **One entry more**: what is read of it is inside, and its value if the list is returned. -/
theorem entriesInside_succ (n : ℕ) (x : Int) :
    EntriesInside t (n + 1) x ↔ t.Inside x 4 ∧ (entryKnown t x = true →
      EntryReads t x ∧ EntriesInside t n (entryEnd t x) ∧
        (listKnown t n (entryEnd t x) = true → t.Inside (entryItem t x).value (entryItem t x).vsize)) := by
  rw [EntriesInside, xattrEntriesAt, xattrEntryAt_eq]
  by_cases hheader : t.Inside x 4
  swap
  · rw [if_neg hheader]
    exact iff_of_false (by simp) fun h => hheader h.1
  rw [if_pos hheader, and_iff_right hheader]
  cases hknown : entryKnown t x with
  | false => simp
  | true =>
      simp only [if_true, true_imp_iff]
      by_cases hreads : EntryReads t x
      swap
      · rw [if_neg hreads]
        exact iff_of_false (by simp) fun h => hreads h.1
      rw [if_pos hreads, Option.bind_eq_bind, Option.bind_some, and_iff_right hreads]
      dsimp only
      constructor
      · rintro ⟨result, hresult, hall⟩
        obtain ⟨rest, hrest, hresult⟩ := Option.bind_eq_some_iff.mp hresult
        have hsome := isSome_of_xattrEntriesAt hrest
        cases rest with
        | none =>
            refine ⟨⟨none, hrest, fun items h => by cases h⟩, fun hlist => ?_⟩
            rw [hlist] at hsome
            cases hsome
        | some items =>
            obtain rfl : some (entryItem t x :: items) = result := Option.some.inj hresult
            obtain ⟨hlength, hitems⟩ := hall _ rfl
            rw [List.forall_mem_cons] at hitems
            refine ⟨⟨some items, hrest, ?_⟩, fun _ => hitems.1⟩
            rintro items' ⟨⟩
            exact ⟨Nat.succ_injective hlength, hitems.2⟩
      · rintro ⟨⟨rest, hrest, hall⟩, hitem⟩
        have hsome := isSome_of_xattrEntriesAt hrest
        cases rest with
        | none => exact ⟨none, by rw [hrest]; rfl, fun items h => by cases h⟩
        | some items =>
            refine ⟨some (entryItem t x :: items), by rw [hrest]; rfl, ?_⟩
            rintro items' ⟨⟩
            obtain ⟨hlength, hitems⟩ := hall items rfl
            exact ⟨by rw [List.length_cons, hlength], List.forall_mem_cons.mpr ⟨hitem hsome.symm, hitems⟩⟩

section

variable {x : Int} (n : ℕ) (hknown : entryKnown t x = true)

include hknown

theorem listEnd_known : listEnd t (n + 1) x = listEnd t n (entryEnd t x) := by simp [listEnd, hknown]

theorem listKnown_known : listKnown t (n + 1) x = listKnown t n (entryEnd t x) := by simp [listKnown, hknown]

/-- An entry with its value behind the name: the list is inside if the rest of it is, and if there is no rest
the value. -/
theorem entriesInside_inline (hool : entryOol t x = false) :
    (t.Inside x 4 ∧ EntryReads t x ∧ (n = 0 ∨ ListInside t n (entryEnd t x)) ∧
      (listKnown t n (entryEnd t x) = true → t.Inside (entryItem t x).value (entryItem t x).vsize)) ↔
      n + 1 = 0 ∨ ListInside t (n + 1) x := by
  have hreads : EntryReads t x ↔ t.Inside (x + 4) (t.fieldAt (x + 2) 2) ∧ t.Inside (entryValue t x) 4 := by
    rw [EntryReads, hool, if_neg Bool.false_ne_true]
  have hvalues : oolValues t (n + 1) x = oolValues t n (entryEnd t x) := by simp [oolValues, hknown, hool]
  have hitem : (entryItem t x).value = entryValue t x + 4 ∧
      (entryItem t x).vsize = t.fieldAt (entryValue t x) 4 := by simp [entryItem, hool]
  have hend : entryEnd t x = entryValue t x + 4 + t.fieldAt (entryValue t x) 4 := by simp [entryEnd, hool]
  have hvalue : entryValue t x = x + 4 + t.fieldAt (x + 2) 2 := rfl
  have hstop := listEnd_known n hknown
  have hall := listKnown_known n hknown
  have hle := le_listEnd t n (entryEnd t x)
  rw [hreads, hitem.1, hitem.2, or_iff_right (Nat.succ_ne_zero n)]
  constructor
  · rintro ⟨hheader, -, hrest | hrest, hlast⟩
    · -- the last entry
      subst hrest
      have hinside := hlast rfl
      refine ⟨hheader.1, ?_, ?_⟩
      · rw [hstop, listEnd, hend]
        exact hinside.2
      · rw [hvalues]
        simp [oolValues]
    · refine ⟨hheader.1, ?_, ?_⟩
      · rw [hstop]
        exact hrest.stop
      · rw [hvalues, hall]
        exact hrest.values
  · intro h
    have hstart := h.start
    have hinside := h.stop
    rw [hstop] at hinside
    refine ⟨⟨hstart, by omega⟩, ⟨⟨by omega, by omega⟩, ⟨by omega, by omega⟩⟩, Or.inr ⟨by omega, hinside, ?_⟩,
      fun _ => ⟨by omega, by omega⟩⟩
    have hvaluesInside := h.values
    rw [hvalues, hall] at hvaluesInside
    exact hvaluesInside

/-- An entry with its value stored elsewhere. -/
theorem entriesInside_ool (hool : entryOol t x = true) :
    (t.Inside x 4 ∧ EntryReads t x ∧ (n = 0 ∨ ListInside t n (entryEnd t x)) ∧
      (listKnown t n (entryEnd t x) = true → t.Inside (entryItem t x).value (entryItem t x).vsize)) ↔
      n + 1 = 0 ∨ ListInside t (n + 1) x := by
  have hreads : EntryReads t x ↔ t.Inside (x + 4) (t.fieldAt (x + 2) 2) ∧
      t.Inside (entryValue t x + 4) 8 ∧ t.Inside (oolPointer t x) 4 := by
    rw [EntryReads, hool, if_pos rfl]
  have hvalues : oolValues t (n + 1) x = oolPointer t x :: oolValues t n (entryEnd t x) := by
    simp [oolValues, hknown, hool]
  have hitem : (entryItem t x).value = oolPointer t x + 4 ∧
      (entryItem t x).vsize = t.fieldAt (oolPointer t x) 4 := by simp [entryItem, hool]
  have hend : entryEnd t x = entryValue t x + 4 + 8 := by simp [entryEnd, hool]
  have hvalue : entryValue t x = x + 4 + t.fieldAt (x + 2) 2 := rfl
  have hstop := listEnd_known n hknown
  have hall := listKnown_known n hknown
  have hle := le_listEnd t n (entryEnd t x)
  -- the value is inside if the list is returned, and its size always
  have hsize : (t.Inside (oolPointer t x) 4 ∧
      (listKnown t n (entryEnd t x) = true → t.Inside (oolPointer t x + 4) (t.fieldAt (oolPointer t x) 4))) ↔
      t.Inside (oolPointer t x)
        (4 + if listKnown t n (entryEnd t x) then t.fieldAt (oolPointer t x) 4 else 0) := by
    cases listKnown t n (entryEnd t x) with
    | false => simp
    | true =>
        simp only [true_imp_iff, if_true]
        constructor
        · rintro ⟨hfour, hbytes⟩
          exact ⟨hfour.1, by have := hbytes.2; push_cast; omega⟩
        · intro h
          have hbytes := h.2
          push_cast at hbytes
          exact ⟨h.left, ⟨by have := h.1; omega, by omega⟩⟩
  rw [hreads, hitem.1, hitem.2, or_iff_right (Nat.succ_ne_zero n)]
  constructor
  · rintro ⟨hheader, ⟨-, href, hfour⟩, hrest, hlast⟩
    refine ⟨hheader.1, ?_, ?_⟩
    · rw [hstop]
      rcases hrest with hrest | hrest
      · subst hrest
        rw [listEnd, hend]
        exact href.2
      · exact hrest.stop
    · rw [hvalues, hall, List.forall_mem_cons]
      refine ⟨hsize.mp ⟨hfour, hlast⟩, ?_⟩
      rcases hrest with hrest | hrest
      · subst hrest
        simp [oolValues]
      · exact hrest.values
  · intro h
    have hstart := h.start
    have hinside := h.stop
    have hvaluesInside := h.values
    rw [hvalues, hall, List.forall_mem_cons] at hvaluesInside
    rw [hstop] at hinside
    obtain ⟨hfour, hlast⟩ := hsize.mpr hvaluesInside.1
    exact ⟨⟨hstart, by omega⟩, ⟨⟨by omega, by omega⟩, ⟨by omega, by omega⟩, hfour⟩,
      Or.inr ⟨by omega, hinside, hvaluesInside.2⟩, hlast⟩

end

/-- **The entries are read inside** exactly when the list is. -/
theorem entriesInside_iff (n : ℕ) : ∀ x : Int, EntriesInside t n x ↔ n = 0 ∨ ListInside t n x := by
  induction n with
  | zero => exact fun x => iff_of_true ⟨some [], rfl, by rintro items ⟨⟩; simp⟩ (Or.inl rfl)
  | succ n ih =>
      intro x
      rw [entriesInside_succ, ih]
      have hnext := lt_entryEnd t x
      have hend := le_listEnd t n (entryEnd t x)
      cases hknown : entryKnown t x with
      | false =>
          have hlist : ListInside t (n + 1) x ↔ t.Inside x 4 := by
            refine ⟨fun h => ⟨h.start, ?_⟩, fun h => ⟨h.1, ?_, ?_⟩⟩
            · simpa [listEnd, hknown] using h.stop
            · simpa [listEnd, hknown] using h.2
            · simp [oolValues, hknown]
          simp [hlist]
      | true =>
          have hstop : listEnd t (n + 1) x = listEnd t n (entryEnd t x) := by simp [listEnd, hknown]
          have hall : listKnown t (n + 1) x = listKnown t n (entryEnd t x) := by simp [listKnown, hknown]
          simp only [true_imp_iff]
          cases hool : entryOol t x with
          | false => exact entriesInside_inline n hknown hool
          | true => exact entriesInside_ool n hknown hool

/-- **`get_xattr` stays in bounds** exactly when the id is in the table, and the list it leads to is empty or
inside. -/
theorem xattrInBounds_iff (t : XattrTables) (i : ℕ) :
    XattrInBounds t i ↔
      ∃ id, t.ids[i]? = some id ∧ (id.count = 0 ∨ ListInside t id.count (t.pointer id.xattr)) := by
  rw [XattrInBounds, getXattrAt]
  cases hid : t.ids[i]? with
  | none => simp
  | some id =>
      simp only [Option.bind_eq_bind, Option.bind_some, Option.map_some, Option.some.injEq, exists_eq_left',
        ← entriesInside_iff, EntriesInside, eq_comm]

/-! ## What is read in bounds -/

theorem readValue_eq {p : Int} (hsize : t.Inside p 4) :
    t.readValue p = if t.Inside (p + 4) (t.fieldAt p 4) then some (t.bytesAt (p + 4) (t.fieldAt p 4)) else none := by
  rw [XattrTables.readValue, read_eq, if_pos hsize, Option.bind_eq_bind, Option.bind_some]
  exact read_eq t _ _

/-- An entry is read with its value, if that is inside. -/
theorem readXattrEntry_eq {x : Int} (hheader : t.Inside x 4) (hknown : entryKnown t x = true)
    (hreads : EntryReads t x) :
    readXattrEntry t x = if t.Inside (entryItem t x).value (entryItem t x).vsize then
      some (((entryItem t x).fullName, t.bytesAt (entryItem t x).value (entryItem t x).vsize), entryEnd t x)
    else none := by
  obtain ⟨pre, hpre⟩ := Option.isSome_iff_exists.mp hknown
  obtain ⟨hname, hrest⟩ := hreads
  rw [entryItem, hpre, entryEnd]
  rw [readXattrEntry, read_eq, if_pos hheader, Option.bind_eq_bind, Option.bind_some, readFields_bytesAt]
  simp only [Option.bind_eq_bind, Option.bind_some, hpre]
  rw [read_eq, if_pos hname, Option.bind_some]
  change (if entryOol t x = true then _ else _) = _
  have hplace : x + 4 + (t.fieldAt (x + 2) 2 : Int) = entryValue t x := rfl
  rw [hplace]
  cases hool : entryOol t x with
  | true =>
      rw [hool] at hrest
      have hpointer : t.pointer (leValue (t.bytesAt (entryValue t x + 4) 8)) = oolPointer t x := rfl
      rw [if_pos rfl, read_eq, if_pos hrest.1, Option.bind_some, hpointer, readValue_eq hrest.2]
      simp only [if_true]
      split_ifs <;> rfl
  | false =>
      rw [hool] at hrest
      rw [if_neg Bool.false_ne_true, readValue_eq hrest]
      simp only [Bool.false_eq_true, if_false]
      split_ifs
      · simp
      · rfl

theorem readXattrEntry_unknown {x : Int} (hknown : entryKnown t x = false) : readXattrEntry t x = none := by
  have hpre : XattrPrefix.ofType (t.fieldAt x 2 &&& xattrPrefixMask) = none :=
    Option.not_isSome_iff_eq_none.mp (by rw [← entryKnown, hknown]; exact Bool.false_ne_true)
  rw [readXattrEntry, read_eq]
  by_cases hheader : t.Inside x 4
  · rw [if_pos hheader, Option.bind_eq_bind, Option.bind_some, readFields_bytesAt]
    simp [hpre]
  · rw [if_neg hheader]
    rfl

/-- **In bounds the values are those of the list**, and `NULL` is no list. -/
theorem readXattrEntries_eq (n : ℕ) : ∀ x : Int, EntriesInside t n x →
    readXattrEntries t n x = (xattrEntriesAt t n x).join.map
      (List.map fun e => (e.fullName, t.bytesAt e.value e.vsize)) := by
  induction n with
  | zero => exact fun x _ => rfl
  | succ n ih =>
      intro x h
      obtain ⟨hheader, hrest⟩ := (entriesInside_succ n x).mp h
      rw [readXattrEntries, xattrEntriesAt, xattrEntryAt_eq, if_pos hheader]
      cases hknown : entryKnown t x with
      | false =>
          rw [readXattrEntry_unknown hknown]
          rfl
      | true =>
          obtain ⟨hreads, hinside, hvalue⟩ := hrest hknown
          have hnext := ih _ hinside
          obtain ⟨result, hresult, -⟩ := hinside
          have hsome := isSome_of_xattrEntriesAt hresult
          rw [hresult] at hnext
          rw [if_pos rfl, if_pos hreads]
          simp only [Option.bind_eq_bind, Option.bind_some, hresult]
          cases result with
          | none =>
              -- the rest is `NULL`, whatever the value is
              rw [readXattrEntry_eq hheader hknown hreads]
              split_ifs
              · simp only [Option.bind_some, hnext]
                rfl
              · rfl
          | some items =>
              rw [readXattrEntry_eq hheader hknown hreads, if_pos (hvalue hsome.symm)]
              simp only [Option.bind_some, hnext]
              rfl

/-- **In bounds** `get_xattr` gives the list that is stored. -/
theorem getXattr_eq {i : ℕ} (h : XattrInBounds t i) :
    getXattr t i = (getXattrAt t i).join.map (List.map fun e => (e.fullName, t.bytesAt e.value e.vsize)) := by
  rw [XattrInBounds, getXattrAt] at h
  rw [getXattr, getXattrAt]
  cases hid : t.ids[i]? with
  | none => rfl
  | some id =>
      rw [hid] at h
      obtain ⟨result, hresult, hall⟩ := h
      refine readXattrEntries_eq _ _ ⟨result, hresult, fun items hitems => ?_⟩
      obtain ⟨hcount, hvalues⟩ := hall items hitems
      exact ⟨(Option.some.inj hcount).symm, hvalues⟩

/-- An image with one list of one attribute, of which no metadata is stored: the block of the id table, the
table and its index. -/
def danglingImage : List UInt8 :=
  encodeMetadata storeOnly true (packFields [(8, 0), (4, 1), (4, 0)]) ++
    packFields [(8, 0), (4, 1), (4, 0), (8, 0)]

/-- An inode table with a fifo that has the given id. -/
def fifoTable (xattr : ℕ) : InodeTable where
  bytes := packFields [(2, InodeType.lfifo.code), (2, 0), (2, 0), (2, 0), (4, 0), (4, 1), (4, 1), (4, xattr)]
  lookupEntry := fun _ => some 0
  inodeTableStart := 0
  idTable := fun _ => 0
  blockSize := 131072
  blockLog := 17

/-- The id is used as it stands in an inode, and the list is read where it is said to be. -/
theorem not_xattrInBounds_dangling :
    ∃ t, readXattrsFromDisk storeOnly (fun _ => 0) danglingImage 18 = some t ∧
      ((readInode4 (fifoTable 0) 0 0).map Inode.xattr = some 0 ∧ ¬ XattrInBounds t 0) ∧
      (readInode4 (fifoTable 5) 0 0).map Inode.xattr = some 5 ∧ ¬ XattrInBounds t 5 := by
  have htables : (readXattrsFromDisk storeOnly (fun _ => 0) danglingImage 18).map
      (fun t => (t.ids, t.starts, t.xattrs, t.tableStart)) = some ([⟨0, 1, 0⟩], [], [], 0) := by
    decide +kernel
  obtain ⟨⟨ids, starts, xattrs, tableStart⟩, hread, htables⟩ := Option.map_eq_some_iff.mp htables
  simp only [Prod.mk.injEq] at htables
  obtain ⟨rfl, rfl, rfl, rfl⟩ := htables
  refine ⟨_, hread, ⟨by decide +kernel, ?_⟩, by decide +kernel, ?_⟩
  · rintro ⟨result, h, -⟩
    have hnone : getXattrAt ⟨[⟨0, 1, 0⟩], [], [], 0⟩ 0 = none := by decide +kernel
    rw [hnone] at h
    cases h
  · rintro ⟨result, h, -⟩
    cases h

end

end FirmwareTools.Squashfs

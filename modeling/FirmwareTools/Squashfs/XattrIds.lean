import FirmwareTools.Squashfs.XattrRead

/-! # Lists of extended attributes that are shared

`check_id_dupl` compares as many bytes of the values as the new one has, and not the sizes. So a list is
taken for another one when they have the same names, the same checksum, and values of which the shorter
one is where the longer one begins, as far as what follows the shorter one in memory says so.

* **`xattrs_roundTrip_iff`** — the lists come back whatever the memory holds if and only if no two of them
  can be confused;
* **`not_xattrs_roundTrip_zeros`** — sixteen zero bytes and no bytes at all can be. -/

namespace FirmwareTools.Squashfs

/-! ## Confusion -/

/-- The names are the same, and one value is where the other begins. -/
def NameValue.Alike (x y : NameValue) : Prop :=
  x.fullName = y.fullName ∧ (x.value <+: y.value ∨ y.value <+: x.value)

/-- The checksums are the same and the attributes alike. -/
def Confusable (xs ys : List NameValue) : Prop :=
  idChecksum xs = idChecksum ys ∧ List.Forall₂ NameValue.Alike xs ys

/-- No two of the lists can be confused. -/
def Distinguishable (lists : List (List NameValue)) : Prop :=
  ∀ xs ∈ lists, ∀ ys ∈ lists, Confusable xs ys → xs = ys

theorem Confusable.symm {xs ys : List NameValue} (h : Confusable xs ys) : Confusable ys xs :=
  ⟨h.1.symm, h.2.flip.imp fun _ _ halike => ⟨halike.1.symm, halike.2.symm⟩⟩

/-- What `memcmp` finds equal begins alike. -/
theorem prefix_of_memcmpEq {value other : List UInt8} {past : ℕ → UInt8}
    (h : memcmpEq value other past = true) : value <+: other ∨ other <+: value := by
  rw [memcmpEq, beq_iff_eq] at h
  rcases Nat.le_total value.length other.length with hle | hle
  · left
    rw [h, List.take_append_of_le_length hle]
    exact List.take_prefix _ _
  · right
    rw [h, List.take_append, List.take_of_length_le hle]
    exact List.prefix_append _ _

/-- What begins alike is found equal, if the memory goes on as the longer one does. -/
theorem memcmpEq_of_prefix {value other : List UInt8} {past : ℕ → UInt8}
    (h : value <+: other ∨ other <+: value)
    (hpast : ∀ m, other.length + m < value.length → past m = value.getD (other.length + m) 0) :
    memcmpEq value other past = true := by
  rw [memcmpEq, beq_iff_eq]
  rcases h with ⟨rest, rfl⟩ | ⟨rest, rfl⟩
  · rw [List.append_assoc, List.take_left]
  · have hrest : (List.range (rest.length)).map past = rest := by
      refine List.ext_getElem (by simp) fun m hm hm' => ?_
      rw [List.getElem_map, List.getElem_range, hpast m (by simpa using hm')]
      rw [List.getD_append_right _ _ _ _ (Nat.le_add_right _ _), Nat.add_sub_cancel_left,
        List.getD_eq_getElem _ _ hm']
    rw [List.length_append, Nat.add_sub_cancel_left, hrest, ← List.length_append, List.take_length]

theorem alike_of_sameXattrs {xs ys : List NameValue} {past : ℕ → ℕ → UInt8}
    (hlen : ys.length = xs.length) (h : sameXattrs xs ys past = true) :
    List.Forall₂ NameValue.Alike xs ys := by
  induction xs generalizing ys past with
  | nil =>
      rw [List.length_nil, List.length_eq_zero_iff] at hlen
      rw [hlen]
      exact .nil
  | cons x xs ih =>
      cases ys with
      | nil => cases hlen
      | cons y ys =>
          rw [sameXattrs, Bool.and_eq_true, Bool.and_eq_true, beq_iff_eq] at h
          exact .cons ⟨h.1.1, prefix_of_memcmpEq h.1.2⟩ (ih (by simpa using hlen) h.2)

theorem sameXattrs_of_alike {xs ys : List NameValue} {past : ℕ → ℕ → UInt8}
    (h : List.Forall₂ NameValue.Alike xs ys)
    (hpast : ∀ i x y, xs[i]? = some x → ys[i]? = some y → ∀ m,
      past i m = x.value.getD (y.value.length + m) 0) : sameXattrs xs ys past = true := by
  induction h generalizing past with
  | nil => rfl
  | @cons x y xs ys halike hrest ih =>
      rw [sameXattrs, Bool.and_eq_true, Bool.and_eq_true, beq_iff_eq]
      refine ⟨⟨halike.1, memcmpEq_of_prefix halike.2 fun m _ => hpast 0 x y rfl rfl m⟩, ih ?_⟩
      intro i x' y' hx hy m
      exact hpast (i + 1) x' y' hx hy m

/-- A name and a value say what the attribute is. -/
theorem NameValue.eq_of_fullName {x y : NameValue} (hname : x.fullName = y.fullName)
    (hvalue : x.value = y.value) : x = y := by
  obtain ⟨pre, name, value, _, _⟩ := x
  obtain ⟨pre', name', value', _, _⟩ := y
  unfold fullName at hname
  dsimp only at hname hvalue
  subst hvalue
  cases pre <;> cases pre' <;> simp_all [XattrPrefix.text]

theorem eq_of_map_fullName {xs ys : List NameValue}
    (h : xs.map (fun x => (x.fullName, x.value)) = ys.map fun x => (x.fullName, x.value)) : xs = ys := by
  refine List.map_injective_iff.mpr (fun x y hxy => ?_) h
  rw [Prod.mk.injEq] at hxy
  exact NameValue.eq_of_fullName hxy.1 hxy.2

/-! ## Lists that cannot be confused -/

variable {env : XattrEnv}

/-- The lists entered are in the rows of their checksums, and among `lists`. -/
def XattrState.Among (lists : List (List NameValue)) (st : XattrState) : Prop :=
  ∀ c, ∀ entry ∈ st.duplId c, c = idChecksum entry.list ∧ entry.list ∈ lists

/-- What `check_id_dupl` finds can be confused with the new list. -/
theorem confusable_of_checkIdDupl {lists : List (List NameValue)} {st : XattrState}
    (h : st.Among lists) {pairs : List NameValue} {entry : DuplId}
    (hfind : checkIdDupl env st pairs = some entry) : Confusable pairs entry.list := by
  have hentry := List.find?_some hfind
  rw [Bool.and_eq_true, beq_iff_eq] at hentry
  exact ⟨(h _ entry (List.mem_of_find?_eq_some hfind)).1, alike_of_sameXattrs hentry.1 hentry.2⟩

/-- What a call enters. -/
theorem generateXattrs_duplId (st : XattrState) (pairs : List NameValue) :
    (generateXattrs env st pairs).2.calls = st.calls + 1 ∧
      ((∃ entry, checkIdDupl env st pairs = some entry ∧
          (generateXattrs env st pairs).2.duplId = st.duplId) ∨
        (checkIdDupl env st pairs = none ∧ ∃ id, (generateXattrs env st pairs).2.duplId
          = Function.update st.duplId (idChecksum pairs)
            (⟨st.calls, pairs, id⟩ :: st.duplId (idChecksum pairs)))) := by
  unfold generateXattrs
  cases hfind : checkIdDupl env st pairs with
  | some entry => exact ⟨rfl, .inl ⟨entry, rfl, rfl⟩⟩
  | none => exact ⟨rfl, .inr ⟨rfl, _, rfl⟩⟩

theorem XattrState.Among.generateXattrs {lists : List (List NameValue)} {st : XattrState}
    (h : st.Among lists) {pairs : List NameValue} (hpairs : pairs ∈ lists) :
    (generateXattrs env st pairs).2.Among lists := by
  unfold Among
  rcases (generateXattrs_duplId st pairs).2 with ⟨_, -, hdupl⟩ | ⟨-, id, hdupl⟩
  · rw [hdupl]
    exact h
  · rw [hdupl]
    intro c entry hentry
    by_cases hc : c = idChecksum pairs
    · subst hc
      rw [Function.update_self] at hentry
      rcases List.mem_cons.mp hentry with rfl | hentry
      · exact ⟨rfl, hpairs⟩
      · exact h _ entry hentry
    · rw [Function.update_of_ne hc] at hentry
      exact h c entry hentry

/-- **Lists that cannot be confused** are found as they are. -/
theorem storedLists_of_distinguishable {all lists : List (List NameValue)}
    (hall : Distinguishable all) (hsub : lists ⊆ all) {st : XattrState} (h : st.Among all) :
    storedLists env st lists = lists := by
  induction lists generalizing st with
  | nil => rfl
  | cons pairs lists ih =>
      rw [List.cons_subset] at hsub
      have hpairs : storedList env st pairs = pairs := by
        unfold storedList
        cases hfind : checkIdDupl env st pairs with
        | none => rfl
        | some entry =>
            have hentry := (h _ entry (List.mem_of_find?_eq_some hfind)).2
            exact (hall _ hsub.1 _ hentry (confusable_of_checkIdDupl h hfind)).symm
      rw [storedLists, hpairs, ih hsub.2 (h.generateXattrs hsub.1)]

/-! ## Lists that can be confused -/

/-- A memory that goes on behind every value as the value it is compared with does. -/
def revealingPast (all : List (List NameValue)) (call entered i m : ℕ) : UInt8 :=
  match (all.getD call [])[i]?, (all.getD entered [])[i]? with
  | some x, some y => x.value.getD (y.value.length + m) 0
  | _, _ => 0

/-- What holds of the lists entered when `done` have been stored as they are. -/
structure XattrState.Faithful (all done : List (List NameValue)) (st : XattrState) : Prop where
  calls : st.calls = done.length
  among : st.Among done
  call : ∀ c, ∀ entry ∈ st.duplId c, all.getD entry.call [] = entry.list
  entered : ∀ pairs ∈ done, ∃ entry ∈ st.duplId (idChecksum pairs), entry.list = pairs

/-- With such a memory every list that can be confused with the new one is found. -/
theorem checkIdDupl_isSome {all done lists : List (List NameValue)} {pairs : List NameValue}
    (hpast : env.past = revealingPast all) (hall : all = done ++ pairs :: lists) {st : XattrState}
    (h : st.Faithful all done) {other : List NameValue} (hother : other ∈ done)
    (hconf : Confusable pairs other) : ∃ entry, checkIdDupl env st pairs = some entry := by
  obtain ⟨entry, hentry, rfl⟩ := h.entered other hother
  rw [← Option.isSome_iff_exists, checkIdDupl, List.find?_isSome]
  refine ⟨entry, by rwa [hconf.1], ?_⟩
  rw [Bool.and_eq_true, beq_iff_eq]
  refine ⟨hconf.2.length_eq.symm, sameXattrs_of_alike hconf.2 fun i x y hx hy m => ?_⟩
  have hnew : all.getD st.calls [] = pairs := by
    rw [hall, h.calls, List.getD_append_right _ _ _ _ (le_refl _), Nat.sub_self, List.getD_cons_zero]
  rw [hpast, revealingPast, hnew, h.call _ entry hentry, hx, hy]

/-- The step of `distinguishable_of_storedLists`. -/
theorem XattrState.Faithful.generateXattrs {all done lists : List (List NameValue)}
    {pairs : List NameValue} (hall : all = done ++ pairs :: lists) {st : XattrState}
    (h : st.Faithful all done) (hstored : storedList env st pairs = pairs) :
    (generateXattrs env st pairs).2.Faithful all (done ++ [pairs]) := by
  have hsub : done ⊆ done ++ [pairs] := List.subset_append_left _ _
  have hpairs : pairs ∈ done ++ [pairs] := List.mem_append_right _ List.mem_cons_self
  have hweak : st.Among (done ++ [pairs]) := fun c entry hentry =>
    ⟨(h.among c entry hentry).1, hsub (h.among c entry hentry).2⟩
  obtain ⟨hcalls, hcases⟩ := @generateXattrs_duplId env st pairs
  refine ⟨by rw [hcalls, h.calls, List.length_append, List.length_singleton],
    hweak.generateXattrs hpairs, ?_, ?_⟩
  · rcases hcases with ⟨_, -, hdupl⟩ | ⟨-, id, hdupl⟩
    · rw [hdupl]
      exact h.call
    · rw [hdupl]
      intro c entry hentry
      by_cases hc : c = idChecksum pairs
      · subst hc
        rw [Function.update_self] at hentry
        rcases List.mem_cons.mp hentry with rfl | hentry
        · dsimp only
          rw [hall, h.calls, List.getD_append_right _ _ _ _ (le_refl _), Nat.sub_self,
            List.getD_cons_zero]
        · exact h.call _ entry hentry
      · rw [Function.update_of_ne hc] at hentry
        exact h.call c entry hentry
  · rw [List.forall_mem_append, List.forall_mem_singleton]
    rcases hcases with ⟨entry, hfind, hdupl⟩ | ⟨-, id, hdupl⟩
    · rw [hdupl]
      refine ⟨h.entered, entry, List.mem_of_find?_eq_some hfind, ?_⟩
      rwa [storedList, hfind] at hstored
    · rw [hdupl]
      refine ⟨fun other hother => ?_, ⟨st.calls, pairs, id⟩, ?_, rfl⟩
      · obtain ⟨entry, hentry, hlist⟩ := h.entered other hother
        refine ⟨entry, ?_, hlist⟩
        by_cases hc : idChecksum other = idChecksum pairs
        · rw [hc, Function.update_self]
          rw [hc] at hentry
          exact List.mem_cons_of_mem _ hentry
        · rwa [Function.update_of_ne hc]
      · rw [Function.update_self]
        exact List.mem_cons_self

/-- **If all lists are found as they are** in such a memory, no two of them can be confused. -/
theorem distinguishable_of_storedLists {all done lists : List (List NameValue)}
    (hpast : env.past = revealingPast all) (hall : all = done ++ lists) {st : XattrState}
    (h : st.Faithful all done) (hdone : Distinguishable done)
    (hstored : storedLists env st lists = lists) : Distinguishable all := by
  induction lists generalizing done st with
  | nil => rwa [hall, List.append_nil]
  | cons pairs lists ih =>
      rw [storedLists, List.cons.injEq] at hstored
      -- a list that was stored and can be confused with this one hides no other than this one
      have hnew : ∀ other ∈ done, Confusable pairs other → pairs = other := by
        intro other hother hconf
        obtain ⟨entry, hfind⟩ := checkIdDupl_isSome hpast hall h hother hconf
        have hentry := (h.among _ entry (List.mem_of_find?_eq_some hfind)).2
        have hlist := hstored.1
        rw [storedList, hfind] at hlist
        dsimp only at hlist
        rw [hlist] at hentry
        exact hdone pairs hentry other hother hconf
      refine ih (by rw [hall, List.append_assoc, List.singleton_append])
        (h.generateXattrs hall hstored.1) ?_ hstored.2
      intro xs hxs ys hys hconf
      rw [List.mem_append, List.mem_singleton] at hxs hys
      rcases hxs with hxs | rfl <;> rcases hys with hys | rfl
      · exact hdone xs hxs ys hys hconf
      · exact (hnew xs hxs hconf.symm).symm
      · exact hnew ys hys hconf
      · rfl

/-! ## The round trip -/

/-- How many bytes a list takes at most, with its id. -/
def listSpace (pairs : List NameValue) : ℕ := 16 + (pairs.map xattrSpace).sum

/-- Every list comes back by the id that is returned for it, from every image that holds what is
written, whatever the memory holds. -/
def XattrsRoundTrip (comp : Compressor) (noX : Bool) (lists : List (List NameValue)) : Prop :=
  ∀ (past : ℕ → ℕ → ℕ → ℕ → UInt8) (fresh : ℕ → UInt8) (bytes unused start : ℕ)
    (segment img : List UInt8),
    writeXattrs ⟨comp, noX, past⟩ (generateAll ⟨comp, noX, past⟩ {} lists).2 bytes unused
      = some (segment, start) →
    HoldsAt img bytes segment → img.length < 2 ^ 63 →
    ∃ t, readXattrsFromDisk comp fresh img start = some t ∧
      List.Forall₂ (fun i pairs => getXattr t i = some (pairs.map fun x => (x.fullName, x.value)))
        (generateAll ⟨comp, noX, past⟩ {} lists).1 lists

theorem xattrState_ok_empty : XattrState.Ok env ⟨[], []⟩ {} :=
  ⟨BlockStream.holds_empty, fun _ _ he => absurd he List.not_mem_nil,
    fun _ _ he => absurd he List.not_mem_nil⟩

theorem space_le (lists : List (List NameValue)) :
    (lists.map fun pairs => (pairs.map xattrSpace).sum).sum + 16 * lists.length
      = (lists.map listSpace).sum := by
  induction lists with
  | nil => rfl
  | cons pairs lists ih =>
      rw [List.map_cons, List.map_cons, List.sum_cons, List.sum_cons, List.length_cons, ← ih, listSpace]
      ring

/-- From the image every id gives the list that is stored for it. -/
theorem getXattr_storedLists (hcomp : env.comp.Lossless) {lists : List (List NameValue)}
    (hsmall : (lists.map listSpace).sum < 2 ^ 30) (fresh : ℕ → UInt8) {bytes unused start : ℕ}
    {segment img : List UInt8}
    (hwrite : writeXattrs env (generateAll env {} lists).2 bytes unused = some (segment, start))
    (himg : HoldsAt img bytes segment) (hbound : img.length < 2 ^ 63) :
    ∃ t, readXattrsFromDisk env.comp fresh img start = some t ∧
      List.Forall₂ (fun i pairs => getXattr t i = some (pairs.map fun x => (x.fullName, x.value)))
        (generateAll env {} lists).1 (storedLists env {} lists) := by
  obtain ⟨s, hstores, hcount, hall⟩ := generateAll_stored (@xattrState_ok_empty env) lists
  have hspace := hstores.space
  have htotal := space_le lists
  simp only [List.length_nil, Nat.zero_add] at hspace hcount
  have hdata : s.data.length < 2 ^ 30 := by omega
  obtain ⟨t, hread, ht, hids⟩ := readXattrsFromDisk_writeXattrs hcomp hstores.ok.stream hdata
    (by omega) hwrite himg hbound fresh
  refine ⟨t, hread, hall.imp fun i pairs hi => ?_⟩
  obtain ⟨id, hid, hlist⟩ := hi
  exact getXattr_of_listAt (Store.final_finish hstores.ok.stream hdata) ht hids hid
    (hlist.grows (s.grows_finish _))

/-- There is an image to look at. -/
theorem exists_writeXattrs {lists : List (List NameValue)} (hlists : lists ≠ [])
    (hsmall : (lists.map listSpace).sum < 2 ^ 30) :
    ∃ segment start, writeXattrs env (generateAll env {} lists).2 0 0 = some (segment, start) ∧
      segment.length < 2 ^ 63 := by
  obtain ⟨s, hstores, hcount, hall⟩ := generateAll_stored (@xattrState_ok_empty env) lists
  have hspace := hstores.space
  have htotal := space_le lists
  simp only [List.length_nil, Nat.zero_add] at hspace hcount
  have hne : (generateAll env {} lists).2.idTable ≠ [] := by
    intro hnil
    cases lists with
    | nil => exact hlists rfl
    | cons pairs lists =>
        rw [storedLists, List.forall₂_cons_right_iff] at hall
        obtain ⟨_, _, ⟨id, hid, -⟩, -, -⟩ := hall
        rw [hnil] at hid
        cases hid
  obtain ⟨segment, start, hwrite, hlen⟩ :=
    length_writeXattrs_le hstores.ok.stream (by omega) hne 0 0
  exact ⟨segment, start, hwrite, by omega⟩

/-- Lists that come back by the same ids are the same. -/
theorem eq_of_getXattr {t : XattrTables} {ids : List ℕ} {lists lists' : List (List NameValue)}
    (h : List.Forall₂ (fun i pairs => getXattr t i = some (pairs.map fun x => (x.fullName, x.value)))
      ids lists)
    (h' : List.Forall₂ (fun i pairs => getXattr t i = some (pairs.map fun x => (x.fullName, x.value)))
      ids lists') : lists = lists' := by
  induction h generalizing lists' with
  | nil =>
      cases h'
      rfl
  | cons hfirst _ ih =>
      cases h' with
      | cons hfirst' hrest =>
          rw [hfirst, Option.some.injEq] at hfirst'
          rw [eq_of_map_fullName hfirst', ih hrest]

/-- **The lists come back if and only if no two of them can be confused.** -/
theorem xattrs_roundTrip_iff (comp : Compressor) (hcomp : comp.Lossless) (noX : Bool)
    (lists : List (List NameValue)) (hsmall : (lists.map listSpace).sum < 2 ^ 30) :
    XattrsRoundTrip comp noX lists ↔ Distinguishable lists := by
  constructor
  · intro hround
    by_cases hlists : lists = []
    · subst hlists
      exact fun xs hxs => absurd hxs List.not_mem_nil
    -- with a memory that hides the sizes the lists come back, so all of them are found as they are
    obtain ⟨segment, start, hwrite, hlen⟩ :=
      @exists_writeXattrs ⟨comp, noX, revealingPast lists⟩ lists hlists hsmall
    have himg : HoldsAt segment 0 segment := List.prefix_refl segment
    obtain ⟨t, hread, hgot⟩ := hround _ (fun _ => 0) 0 0 start segment segment hwrite himg hlen
    obtain ⟨t', hread', hstored⟩ := @getXattr_storedLists ⟨comp, noX, revealingPast lists⟩ hcomp lists
      hsmall (fun _ => 0) 0 0 start segment segment hwrite himg hlen
    rw [hread, Option.some.injEq] at hread'
    subst hread'
    refine @distinguishable_of_storedLists ⟨comp, noX, revealingPast lists⟩ lists [] lists rfl rfl {}
      ⟨rfl, ?_, ?_, ?_⟩ ?_ ?_
    · exact fun _ _ he => absurd he List.not_mem_nil
    · exact fun _ _ he => absurd he List.not_mem_nil
    · exact fun _ he => absurd he List.not_mem_nil
    · exact fun _ he => absurd he List.not_mem_nil
    · exact eq_of_getXattr hstored hgot
  · intro hdist past fresh bytes unused start segment img hwrite himg hbound
    obtain ⟨t, hread, hall⟩ := @getXattr_storedLists ⟨comp, noX, past⟩ hcomp lists hsmall fresh
      bytes unused start segment img hwrite himg hbound
    rw [storedLists_of_distinguishable hdist (List.Subset.refl _)
      fun _ _ he => absurd he List.not_mem_nil] at hall
    exact ⟨t, hread, hall⟩

/-! ## An empty value and a value of zero bytes -/

/-- `user.a` with a value. -/
def userA (value : List UInt8) : NameValue := ⟨.user, [97], value, by decide, by decide⟩

/-- Two files with the same list and one with another list. -/
theorem xattrs_roundTrip_shared : XattrsRoundTrip storeOnly false
    [[userA [1, 2]], [userA [1, 2]], [userA [1, 3]]] := by
  refine (xattrs_roundTrip_iff storeOnly storeOnly_lossless false _ (by decide)).mpr ?_
  intro xs hxs ys hys hconf
  have hsum := hconf.1
  simp only [List.mem_cons, List.not_mem_nil, or_false] at hxs hys
  rcases hxs with rfl | rfl | rfl <;> rcases hys with rfl | rfl | rfl <;>
    first
    | rfl
    | exact absurd hsum (by decide)

/-- **The shorter value is lost**: the checksum goes around once in sixteen zero bytes, and of an empty
value no byte is compared. -/
theorem not_xattrs_roundTrip_zeros : ¬ ∀ comp noX lists, Compressor.Lossless comp →
    XattrsRoundTrip comp noX lists := by
  intro hall
  have hround := hall storeOnly false [[userA (List.replicate 16 0)], [userA []]] storeOnly_lossless
  obtain ⟨segment, start, hwrite, hlen⟩ := @exists_writeXattrs ⟨storeOnly, false, fun _ _ _ _ => 0⟩
    [[userA (List.replicate 16 0)], [userA []]] (List.cons_ne_nil _ _) (by decide)
  obtain ⟨t, -, hgot⟩ := hround (fun _ _ _ _ => 0) (fun _ => 0) 0 0 start segment segment hwrite
    (List.prefix_refl segment) hlen
  have hids : (generateAll ⟨storeOnly, false, fun _ _ _ _ => 0⟩ {}
      [[userA (List.replicate 16 0)], [userA []]]).1 = [0, 0] := by decide +kernel
  rw [hids] at hgot
  cases hgot with
  | cons hfirst hrest =>
      cases hrest with
      | cons hsecond _ =>
          rw [hfirst] at hsecond
          exact absurd hsecond (by decide)

end FirmwareTools.Squashfs

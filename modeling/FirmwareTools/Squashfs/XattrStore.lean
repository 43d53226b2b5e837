import FirmwareTools.Squashfs.Xattr

/-! # What is stored of extended attributes

Everything `generate_xattrs` writes goes to the end of one stream of metadata, so what has been written
stays where it is, and a reference to it stays good. A list in the id table is described by where its
entries are in the stream.

* **`generateXattrs_stored`** — the id that is returned stands for the list, or for the one it is taken to
  be a duplicate of;
* **`generateAll_stored`** — so it is for calls in turn. -/

namespace FirmwareTools.Squashfs

/-! ## Places in the stream -/

/-- The blocks written and all the metadata. -/
structure Store where
  blocks : List (List UInt8)
  data : List UInt8

/-- The store with more behind it. -/
def Store.Grows (s s' : Store) : Prop :=
  (∃ more, s'.blocks = s.blocks ++ more) ∧ ∃ bytes, s'.data = s.data ++ bytes

theorem Store.Grows.refl (s : Store) : s.Grows s :=
  ⟨⟨[], (List.append_nil _).symm⟩, [], (List.append_nil _).symm⟩

theorem Store.Grows.trans {s s' s'' : Store} (h : s.Grows s') (h' : s'.Grows s'') :
    s.Grows s'' := by
  obtain ⟨⟨more, hmore⟩, bytes, hbytes⟩ := h
  obtain ⟨⟨more', hmore'⟩, bytes', hbytes'⟩ := h'
  exact ⟨⟨more ++ more', by rw [hmore', hmore, List.append_assoc]⟩, bytes ++ bytes', by
    rw [hbytes', hbytes, List.append_assoc]⟩

section

variable (env : XattrEnv)

/-- How a block is stored. -/
abbrev XattrEnv.enc : List UInt8 → List UInt8 := encodeMetadata env.comp env.noX

/-- A reference to a byte of the stream. -/
def Store.RefersTo (s : Store) (xattr o : ℕ) : Prop :=
  ∃ start offset, xattr = (start <<< 16) ||| offset ∧
    PlaceOf env.enc metadataSize s.blocks start offset o

/-- A reference to a stored value. -/
def Store.ValueAt (s : Store) (xattr : ℕ) (value : List UInt8) : Prop :=
  ∃ o, s.RefersTo env xattr o ∧ HoldsAt s.data o (packValue value)

/-- The type of a record is that of its prefix, with the flag or without. -/
def Xattr.TypeOk (x : Xattr) : Prop :=
  x.type = x.pair.pre.type ∨ x.type = x.pair.pre.type ||| xattrValueOol

/-- The entry of a record as it is stored. -/
def encodeXattr (x : Xattr) : List UInt8 :=
  packFields [(2, x.type), (2, x.pair.name.length)] ++ x.pair.name ++
    if x.isOol then packFields [(4, xattrValueOolSize), (8, x.oolValue)] else packValue x.pair.value

/-- An entry of the id table stands for a list. -/
def Store.ListAt (s : Store) (id : XattrId) (pairs : List NameValue) : Prop :=
  ∃ o, ∃ xs : List Xattr, s.RefersTo env id.xattr o ∧ HoldsAt s.data o (xs.flatMap encodeXattr) ∧
    xs.map Xattr.pair = pairs ∧ id.count = xs.length ∧
    ∀ x ∈ xs, x.TypeOk ∧ (x.isOol = true → s.ValueAt env x.oolValue x.pair.value)

end

variable {env : XattrEnv} {s s' : Store}

theorem Store.RefersTo.grows {xattr o : ℕ} (h : s.RefersTo env xattr o) (hs : s.Grows s') :
    s'.RefersTo env xattr o := by
  obtain ⟨start, offset, hxattr, hplace⟩ := h
  obtain ⟨⟨more, hmore⟩, -⟩ := hs
  exact ⟨start, offset, hxattr, hmore ▸ hplace.append more⟩

theorem isOol_eq_false {x : Xattr} (h : x.type = x.pair.pre.type) : x.isOol = false := by
  rw [Xattr.isOol, h]
  cases x.pair.pre <;> rfl

theorem packValue_ne_nil (value : List UInt8) : packValue value ≠ [] := by
  simp [packValue, packFields, leBytes]

theorem encodeXattr_ne_nil (x : Xattr) : encodeXattr x ≠ [] := by
  simp [encodeXattr, packFields, leBytes]

theorem Store.ValueAt.grows {xattr : ℕ} {value : List UInt8} (h : s.ValueAt env xattr value)
    (hs : s.Grows s') : s'.ValueAt env xattr value := by
  obtain ⟨o, ho, hvalue⟩ := h
  obtain ⟨bytes, hbytes⟩ := hs.2
  exact ⟨o, ho.grows hs, hbytes ▸ hvalue.append (packValue_ne_nil value) bytes⟩

theorem Store.ListAt.grows {id : XattrId} {pairs : List NameValue} (h : s.ListAt env id pairs)
    (hs : s.Grows s') : s'.ListAt env id pairs := by
  obtain ⟨o, xs, ho, hxs, hpairs, hcount, hall⟩ := h
  obtain ⟨bytes, hbytes⟩ := hs.2
  refine ⟨o, xs, ho.grows hs, ?_, hpairs, hcount, fun x hx =>
    ⟨(hall x hx).1, fun hool => ((hall x hx).2 hool).grows hs⟩⟩
  cases xs with
  | nil => exact List.nil_prefix
  | cons x xs =>
      rw [hbytes]
      refine hxs.append ?_ bytes
      rw [List.flatMap_cons]
      exact List.append_ne_nil_of_left_ne_nil (encodeXattr_ne_nil x) _

/-! ## Putting bytes -/

/-- **What is put into the stream** comes behind all that was there, and the result refers to it. -/
theorem putXattr_holds {st : BlockStream} (h : st.Holds env.enc metadataSize s.blocks s.data)
    (bytes : List UInt8) :
    ∃ s' : Store, s.Grows s' ∧ s'.data = s.data ++ bytes ∧
      (putXattr env st bytes).2.Holds env.enc metadataSize s'.blocks s'.data ∧
      s'.RefersTo env (putXattr env st bytes).1 s.data.length := by
  have hsize : 0 < metadataSize := by decide
  obtain ⟨more, hmore⟩ := h.flush st.cache.length
  have hcache := BlockStream.length_cache_flush (s := st) env.enc hsize (le_refl _)
  exact ⟨⟨s.blocks ++ more, s.data ++ bytes⟩, ⟨⟨more, rfl⟩, bytes, rfl⟩, rfl, hmore.append bytes,
    _, _, rfl, hmore.place_end hcache⟩

/-! ## The values entered -/

/-- Every value entered is stored, or its record is still to be written. -/
def DuplOk (env : XattrEnv) (s : Store) (pending : List (List UInt8))
    (dupl : UInt16 → List DuplValue) : Prop :=
  ∀ c, ∀ e ∈ dupl c, c = getChecksum e.value 0 ∧
    (s.ValueAt env e.oolValue e.value ∨ (e.oolValue = invalidBlk ∧ e.value ∈ pending))

/-- The values of the records that are entries of `dupl`. -/
def pendingValues (xs : List Xattr) : List (List UInt8) :=
  xs.flatMap fun x => if x.entered then [x.pair.value] else []

/-- What holds of a record before the values are written: a value that is stored out of line is stored
already, or is known not to be. -/
structure Xattr.Looked (env : XattrEnv) (s : Store) (x : Xattr) : Prop where
  type : x.TypeOk
  stored : x.isOol = true → x.oolValue = invalidBlk ∨ s.ValueAt env x.oolValue x.pair.value
  entered : x.entered = true → x.oolValue = invalidBlk

theorem Xattr.Looked.grows {x : Xattr} (h : x.Looked env s) (hs : s.Grows s') :
    x.Looked env s' :=
  ⟨h.type, fun hool => (h.stored hool).imp_right fun hvalue => hvalue.grows hs, h.entered⟩

theorem DuplOk.grows {pending : List (List UInt8)} {dupl : UInt16 → List DuplValue}
    (h : DuplOk env s pending dupl) (hs : s.Grows s') : DuplOk env s' pending dupl :=
  fun c e he => ⟨(h c e he).1, (h c e he).2.imp_left fun hvalue => hvalue.grows hs⟩

theorem DuplOk.mono {pending pending' : List (List UInt8)} {dupl : UInt16 → List DuplValue}
    (h : DuplOk env s pending dupl) (hsub : pending ⊆ pending') : DuplOk env s pending' dupl :=
  fun c e he => ⟨(h c e he).1, (h c e he).2.imp_right fun hp => ⟨hp.1, hsub hp.2⟩⟩

theorem pendingValues_cons (x : Xattr) (xs : List Xattr) :
    pendingValues (x :: xs) = (if x.entered then [x.pair.value] else []) ++ pendingValues xs :=
  rfl

theorem pendingValues_cons_eq (x : Xattr) (xs : List Xattr) :
    pendingValues (x :: xs) = pendingValues [x] ++ pendingValues xs := by
  rw [pendingValues_cons, pendingValues_cons x []]
  simp [pendingValues]

theorem pendingValues_cons_of_not {x : Xattr} (h : x.entered = false) (xs : List Xattr) :
    pendingValues (x :: xs) = pendingValues xs := by
  rw [pendingValues_cons, h]
  rfl

/-- Entering a value that is not stored yet. -/
theorem DuplOk.enter {pending : List (List UInt8)} {dupl : UInt16 → List DuplValue}
    (h : DuplOk env s pending dupl) (value : List UInt8) :
    DuplOk env s (value :: pending) (Function.update dupl (getChecksum value 0)
      (⟨value, invalidBlk⟩ :: dupl (getChecksum value 0))) := by
  intro c e he
  have hold := h.mono (List.subset_cons_self value pending)
  by_cases hc : c = getChecksum value 0
  · subst hc
    rw [Function.update_self] at he
    rcases List.mem_cons.mp he with rfl | he
    · exact ⟨rfl, .inr ⟨rfl, List.mem_cons_self⟩⟩
    · exact hold _ e he
  · rw [Function.update_of_ne hc] at he
    exact hold c e he

/-- `check_value_dupl` on one record. -/
theorem checkValueDupl_looked {pending : List (List UInt8)} {dupl : UInt16 → List DuplValue}
    (h : DuplOk env s pending dupl) {x : Xattr} (htype : x.TypeOk) (hentered : x.entered = false)
    (hool : x.isOol = true → xattrValueOolSize ≤ x.pair.value.length) :
    (checkValueDupl dupl x).1.pair = x.pair ∧ (checkValueDupl dupl x).1.Looked env s ∧
      DuplOk env s (pendingValues [(checkValueDupl dupl x).1] ++ pending)
        (checkValueDupl dupl x).2 := by
  have hno : x.entered ≠ true := by simp [hentered]
  unfold checkValueDupl
  split
  · rename_i hshort
    have hinline : x.isOol ≠ true := fun htrue => absurd (hool htrue) (by omega)
    refine ⟨rfl, ⟨htype, fun htrue => absurd htrue hinline, fun htrue => absurd htrue hno⟩, ?_⟩
    rwa [pendingValues_cons_of_not hentered]
  · dsimp only
    split
    · exact ⟨rfl, ⟨htype, fun _ => .inl rfl, fun _ => rfl⟩, h.enter x.pair.value⟩
    · rename_i entry hfind
      have hvalue : entry.value = x.pair.value := by simpa using List.find?_some hfind
      have hentry := (h _ entry (List.mem_of_find?_eq_some hfind)).2
      refine ⟨rfl, ⟨.inr ?_, fun _ => ?_, fun htrue => absurd htrue hno⟩, ?_⟩
      · change x.type ||| xattrValueOol = x.pair.pre.type ||| xattrValueOol
        rcases htype with htype | htype <;> rw [htype]
        rw [Nat.lor_assoc, Nat.or_self]
      · rw [← hvalue]
        exact hentry.symm.imp_left And.left
      · rw [pendingValues_cons_of_not (by exact hentered)]
        exact h

/-- `check_value_dupl` on a list. -/
theorem checkValueDupls_looked {pending : List (List UInt8)} {dupl : UInt16 → List DuplValue}
    (h : DuplOk env s pending dupl) {xs : List Xattr}
    (hxs : ∀ x ∈ xs, x.TypeOk ∧ x.entered = false ∧
      (x.isOol = true → xattrValueOolSize ≤ x.pair.value.length)) :
    (checkValueDupls dupl xs).1.map Xattr.pair = xs.map Xattr.pair ∧
      (∀ x ∈ (checkValueDupls dupl xs).1, x.Looked env s) ∧
      DuplOk env s (pendingValues (checkValueDupls dupl xs).1 ++ pending)
        (checkValueDupls dupl xs).2 := by
  induction xs generalizing dupl pending with
  | nil => exact ⟨rfl, fun _ hx => absurd hx List.not_mem_nil, h⟩
  | cons x xs ih =>
      rw [List.forall_mem_cons] at hxs
      obtain ⟨hpair, hlooked, hdupl⟩ := checkValueDupl_looked h hxs.1.1 hxs.1.2.1 hxs.1.2.2
      obtain ⟨hpairs, hall, hdupls⟩ := ih hdupl hxs.2
      unfold checkValueDupls
      refine ⟨?_, ?_, ?_⟩
      · rw [List.map_cons, List.map_cons, hpair, hpairs]
      · rw [List.forall_mem_cons]
        exact ⟨hlooked, hall⟩
      · refine hdupls.mono fun v hv => ?_
        rw [pendingValues_cons_eq]
        simp only [List.mem_append] at hv ⊢
        tauto

/-- What is written to a record is seen in its entry. -/
theorem DuplOk.setOolValue {pending : List (List UInt8)} {dupl : UInt16 → List DuplValue} {x : Xattr}
    {oolValue : ℕ}
    (h : DuplOk env s ((if x.entered then [x.pair.value] else []) ++ pending) dupl)
    (hvalue : s.ValueAt env oolValue x.pair.value) :
    DuplOk env s pending (setOolValue x oolValue dupl).2 := by
  unfold FirmwareTools.Squashfs.setOolValue
  cases hentered : x.entered with
  | false =>
      rw [hentered] at h
      exact h
  | true =>
      rw [hentered, if_pos rfl, List.singleton_append] at h
      dsimp only
      rw [if_pos rfl]
      have hother : ∀ c, ∀ e ∈ dupl c, e.value ≠ x.pair.value → c = getChecksum e.value 0 ∧
          (s.ValueAt env e.oolValue e.value ∨ (e.oolValue = invalidBlk ∧ e.value ∈ pending)) :=
        fun c e he hne => ⟨(h c e he).1, (h c e he).2.imp_right fun hp =>
          ⟨hp.1, (List.mem_cons.mp hp.2).resolve_left hne⟩⟩
      intro c e he
      by_cases hc : c = getChecksum x.pair.value 0
      · subst hc
        rw [Function.update_self] at he
        obtain ⟨entry, hentry, rfl⟩ := List.mem_map.mp he
        by_cases hsame : entry.value = x.pair.value
        · rw [if_pos hsame, hsame]
          exact ⟨rfl, .inl hvalue⟩
        · rw [if_neg hsame]
          exact hother _ entry hentry hsame
      · rw [Function.update_of_ne hc] at he
        refine hother c e he fun hsame => hc ?_
        rw [← hsame]
        exact (h c e he).1

/-! ## Values out of line -/

/-- What holds of a record before its entry is written. -/
structure Xattr.Written (env : XattrEnv) (s : Store) (x : Xattr) : Prop where
  type : x.TypeOk
  stored : x.isOol = true → s.ValueAt env x.oolValue x.pair.value

theorem Xattr.Written.grows {x : Xattr} (h : x.Written env s) (hs : s.Grows s') :
    x.Written env s' :=
  ⟨h.type, fun hool => (h.stored hool).grows hs⟩

/-- The records with the value in their entry. -/
def inlineXattrs (xs : List Xattr) : List Xattr := xs.filter fun x => !x.isOol

theorem inlineXattrs_cons_of_ool {x : Xattr} (h : x.isOol = true) (xs : List Xattr) :
    inlineXattrs (x :: xs) = inlineXattrs xs := by
  rw [inlineXattrs, List.filter_cons_of_neg (by simp [h]), inlineXattrs]

theorem inlineXattrs_cons_of_inline {x : Xattr} (h : x.isOol = false) (xs : List Xattr) :
    inlineXattrs (x :: xs) = x :: inlineXattrs xs := by
  rw [inlineXattrs, List.filter_cons_of_pos (by simp [h]), inlineXattrs]

theorem inlineXattrs_cons_eq (x : Xattr) (xs : List Xattr) :
    inlineXattrs (x :: xs) = inlineXattrs [x] ++ inlineXattrs xs :=
  List.filter_append [x] xs

theorem pendingValues_inline_cons (x : Xattr) (xs : List Xattr) :
    pendingValues (inlineXattrs (x :: xs))
      = pendingValues (inlineXattrs [x]) ++ pendingValues (inlineXattrs xs) := by
  rw [inlineXattrs_cons_eq]
  exact List.flatMap_append

theorem length_packValue (value : List UInt8) : (packValue value).length = 4 + value.length := by
  rw [packValue, List.length_append, length_packFields]
  rfl

/-- Storing one value. -/
theorem putOolValue_stored {stream : BlockStream} {dupl : UInt16 → List DuplValue} {x : Xattr}
    {pending : List (List UInt8)} (hstream : stream.Holds env.enc metadataSize s.blocks s.data)
    (hdupl : DuplOk env s (pendingValues [x] ++ pending) dupl) (hx : x.Looked env s) :
    ∃ s' : Store, s.Grows s' ∧ s'.data.length ≤ s.data.length + (4 + x.pair.value.length) ∧
      (putOolValue env (stream, dupl) x).2.1.Holds env.enc metadataSize s'.blocks s'.data ∧
      DuplOk env s' (pendingValues (inlineXattrs [(putOolValue env (stream, dupl) x).1]) ++ pending)
        (putOolValue env (stream, dupl) x).2.2 ∧
      (putOolValue env (stream, dupl) x).1.pair = x.pair ∧
      (putOolValue env (stream, dupl) x).1.Written env s' := by
  unfold putOolValue
  dsimp only
  split
  · rename_i hool
    obtain ⟨s', hgrows, hdata, hholds, hrefers⟩ := putXattr_holds hstream (packValue x.pair.value)
    have hvalue : s'.ValueAt env (putXattr env stream (packValue x.pair.value)).1 x.pair.value := by
      refine ⟨_, hrefers, ?_⟩
      rw [hdata]
      simpa using holdsAt_append s.data (packValue x.pair.value) []
    refine ⟨s', hgrows, ?_, hholds, ?_, rfl, ⟨hx.type, fun _ => hvalue⟩⟩
    · rw [hdata, List.length_append, length_packValue]
    · rw [inlineXattrs_cons_of_ool (by exact hool.1)]
      rw [pendingValues_cons, List.append_assoc] at hdupl
      exact (hdupl.grows hgrows).setOolValue hvalue
  · rename_i hnot
    refine ⟨s, .refl s, Nat.le_add_right _ _, hstream, ?_, rfl, ⟨hx.type, fun hool => ?_⟩⟩
    · cases hool : x.isOol with
      | false => rwa [inlineXattrs_cons_of_inline hool]
      | true =>
          -- a value that is entered is not stored yet, so it was not passed over
          have hentered : x.entered = false := by
            by_contra hentered
            exact hnot ⟨hool, hx.entered (by simpa using hentered)⟩
          rw [inlineXattrs_cons_of_ool hool]
          rwa [pendingValues_cons_of_not hentered] at hdupl
    · exact (hx.stored hool).resolve_left fun hinvalid => hnot ⟨hool, hinvalid⟩

/-- The values of a list stored. -/
theorem putAll_putOolValue {stream : BlockStream} {dupl : UInt16 → List DuplValue} {xs : List Xattr}
    {pending : List (List UInt8)} (hstream : stream.Holds env.enc metadataSize s.blocks s.data)
    (hdupl : DuplOk env s (pendingValues xs ++ pending) dupl) (hxs : ∀ x ∈ xs, x.Looked env s) :
    ∃ s' : Store, s.Grows s' ∧
      s'.data.length ≤ s.data.length + (xs.map fun x => 4 + x.pair.value.length).sum ∧
      (putAll (putOolValue env) (stream, dupl) xs).2.1.Holds env.enc metadataSize s'.blocks s'.data ∧
      DuplOk env s'
        (pendingValues (inlineXattrs (putAll (putOolValue env) (stream, dupl) xs).1) ++ pending)
        (putAll (putOolValue env) (stream, dupl) xs).2.2 ∧
      (putAll (putOolValue env) (stream, dupl) xs).1.map Xattr.pair = xs.map Xattr.pair ∧
      ∀ x ∈ (putAll (putOolValue env) (stream, dupl) xs).1, x.Written env s' := by
  induction xs generalizing s stream dupl pending with
  | nil =>
      exact ⟨s, .refl s, le_refl _, hstream, hdupl, rfl, fun _ hx => absurd hx List.not_mem_nil⟩
  | cons x xs ih =>
      rw [List.forall_mem_cons] at hxs
      obtain ⟨s₁, hgrows, hlen, hholds, hdupl₁, hpair, hwritten⟩ :=
        @putOolValue_stored env s stream dupl x (pendingValues xs ++ pending) hstream
          (by rwa [← List.append_assoc, ← pendingValues_cons_eq]) hxs.1
      unfold putAll
      dsimp only
      generalize putOolValue env (stream, dupl) x = r at hholds hdupl₁ hpair hwritten ⊢
      obtain ⟨x', stream₁, dupl₁⟩ := r
      obtain ⟨s₂, hgrows₂, hlen₂, hholds₂, hdupl₂, hpairs, hall⟩ :=
        @ih s₁ stream₁ dupl₁ (pendingValues (inlineXattrs [x']) ++ pending) hholds
          (hdupl₁.mono fun v hv => by
            simp only [List.mem_append] at hv ⊢
            tauto)
          fun x hx => (hxs.2 x hx).grows hgrows
      refine ⟨s₂, hgrows.trans hgrows₂, ?_, hholds₂, hdupl₂.mono fun v hv => ?_, ?_, ?_⟩
      · rw [List.map_cons, List.sum_cons]
        omega
      · rw [pendingValues_inline_cons]
        simp only [List.mem_append] at hv ⊢
        tauto
      · rw [List.map_cons, List.map_cons, hpair, hpairs]
      · rw [List.forall_mem_cons]
        exact ⟨hwritten.grows hgrows₂, hall⟩

/-! ## Entries -/

/-- Writing one entry. -/
theorem putEntry_stored {stream : BlockStream} {dupl : UInt16 → List DuplValue} {x : Xattr}
    {pending : List (List UInt8)} (hstream : stream.Holds env.enc metadataSize s.blocks s.data)
    (hdupl : DuplOk env s (pendingValues (inlineXattrs [x]) ++ pending) dupl) :
    ∃ s' : Store, s.Grows s' ∧ s'.data = s.data ++ encodeXattr x ∧
      (putEntry env (stream, dupl) x).2.1.Holds env.enc metadataSize s'.blocks s'.data ∧
      DuplOk env s' pending (putEntry env (stream, dupl) x).2.2 := by
  obtain ⟨s₁, hgrows₁, hdata₁, hholds₁, -⟩ := putXattr_holds hstream
    (packFields [(2, x.type), (2, x.pair.name.length)] ++ x.pair.name)
  unfold putEntry
  dsimp only
  cases hool : x.isOol with
  | true =>
      obtain ⟨s₂, hgrows₂, hdata₂, hholds₂, -⟩ := putXattr_holds hholds₁
        (packFields [(4, xattrValueOolSize), (8, x.oolValue)])
      rw [inlineXattrs_cons_of_ool hool] at hdupl
      refine ⟨s₂, hgrows₁.trans hgrows₂, ?_, hholds₂, hdupl.grows (hgrows₁.trans hgrows₂)⟩
      rw [hdata₂, hdata₁, encodeXattr, if_pos hool, List.append_assoc]
  | false =>
      obtain ⟨s₂, hgrows₂, hdata₂, hholds₂, hrefers⟩ := putXattr_holds hholds₁
        (packValue x.pair.value)
      rw [inlineXattrs_cons_of_inline hool, pendingValues_cons, List.append_assoc] at hdupl
      refine ⟨s₂, hgrows₁.trans hgrows₂, ?_, hholds₂,
        (hdupl.grows (hgrows₁.trans hgrows₂)).setOolValue ⟨_, hrefers, ?_⟩⟩
      · rw [hdata₂, hdata₁, encodeXattr, hool, if_neg Bool.false_ne_true, List.append_assoc]
      · rw [hdata₂]
        simpa using holdsAt_append s₁.data (packValue x.pair.value) []

/-- **The entries of a list**, one behind the other. -/
theorem putAll_putEntry {stream : BlockStream} {dupl : UInt16 → List DuplValue} {xs : List Xattr}
    {pending : List (List UInt8)} (hstream : stream.Holds env.enc metadataSize s.blocks s.data)
    (hdupl : DuplOk env s (pendingValues (inlineXattrs xs) ++ pending) dupl) :
    ∃ s' : Store, s.Grows s' ∧ s'.data = s.data ++ xs.flatMap encodeXattr ∧
      (putAll (putEntry env) (stream, dupl) xs).2.1.Holds env.enc metadataSize s'.blocks s'.data ∧
      DuplOk env s' pending (putAll (putEntry env) (stream, dupl) xs).2.2 := by
  induction xs generalizing s stream dupl with
  | nil => exact ⟨s, .refl s, (List.append_nil _).symm, hstream, hdupl⟩
  | cons x xs ih =>
      obtain ⟨s₁, hgrows, hdata, hholds, hdupl₁⟩ :=
        @putEntry_stored env s stream dupl x (pendingValues (inlineXattrs xs) ++ pending) hstream
          (by rwa [← List.append_assoc, ← pendingValues_inline_cons])
      unfold putAll
      dsimp only
      generalize putEntry env (stream, dupl) x = r at hholds hdupl₁ ⊢
      obtain ⟨x', stream₁, dupl₁⟩ := r
      obtain ⟨s₂, hgrows₂, hdata₂, hholds₂, hdupl₂⟩ := ih hholds hdupl₁
      refine ⟨s₂, hgrows.trans hgrows₂, ?_, hholds₂, hdupl₂⟩
      rw [hdata₂, hdata, List.flatMap_cons, List.append_assoc]

/-! ## One list -/

/-- What holds of the records of a list after the scan. -/
def Xattr.Scanned (x : Xattr) : Prop :=
  x.TypeOk ∧ x.entered = false ∧ (x.isOol = true → xattrValueOolSize ≤ x.pair.value.length)

theorem assignType_scanned {max : ℕ} (hmax : xattrValueOolSize ≤ max) {x : Xattr} (hx : x.TypeOk)
    (hentered : x.entered = false) : (assignType max x).Scanned := by
  have hmask : x.type &&& xattrPrefixMask = x.pair.pre.type := by
    rcases hx with hx | hx <;> rw [hx] <;> cases x.pair.pre <;> rfl
  unfold assignType
  rw [hmask]
  dsimp only
  split
  · exact ⟨.inr rfl, hentered, fun _ => by dsimp only; omega⟩
  · refine ⟨.inl rfl, hentered, fun hool => ?_⟩
    rw [isOol_eq_false rfl] at hool
    cases hool

/-- **The scan** leaves each record with its prefix, and short values in their entries. -/
theorem assignTypes_scanned {n max : ℕ} (hmax : xattrValueOolSize ≤ max) {xs : List Xattr}
    (hxs : ∀ x ∈ xs, x.TypeOk ∧ x.entered = false) :
    (assignTypes n max xs).map Xattr.pair = xs.map Xattr.pair ∧
      ∀ x ∈ assignTypes n max xs, x.Scanned := by
  induction n generalizing max xs with
  | zero =>
      refine ⟨by rw [assignTypes, List.map_map]; rfl, fun x hx => ?_⟩
      obtain ⟨y, hy, rfl⟩ := List.mem_map.mp hx
      exact assignType_scanned hmax (hxs y hy).1 (hxs y hy).2
  | succ n ih =>
      have hround : ∀ x ∈ xs.map (assignType max), x.Scanned := by
        intro x hx
        obtain ⟨y, hy, rfl⟩ := List.mem_map.mp hx
        exact assignType_scanned hmax (hxs y hy).1 (hxs y hy).2
      have hpairs : (xs.map (assignType max)).map Xattr.pair = xs.map Xattr.pair := by
        rw [List.map_map]
        rfl
      unfold assignTypes
      dsimp only
      split
      · exact ⟨hpairs, hround⟩
      · rw [← hpairs]
        refine ih ?_ fun x hx => ⟨(hround x hx).1, (hround x hx).2.1⟩
        split <;> omega

/-- How many bytes an attribute takes at most, in its entry and out of line. -/
def xattrSpace (x : NameValue) : ℕ := 20 + x.name.length + 2 * x.value.length

theorem length_encodeXattr_le (x : Xattr) :
    4 + x.pair.value.length + (encodeXattr x).length ≤ xattrSpace x.pair := by
  unfold encodeXattr xattrSpace
  rw [List.length_append, List.length_append, length_packFields]
  simp only [List.map_cons, List.map_nil, List.sum_cons, List.sum_nil]
  split
  · rw [length_packFields]
    simp only [List.map_cons, List.map_nil, List.sum_cons, List.sum_nil]
    omega
  · rw [length_packValue]
    omega

theorem length_flatMap_encodeXattr_le {xs : List Xattr} {pairs : List NameValue}
    (h : xs.map Xattr.pair = pairs) :
    (pairs.map fun x => 4 + x.value.length).sum + (xs.flatMap encodeXattr).length
      ≤ (pairs.map xattrSpace).sum := by
  subst h
  induction xs with
  | nil => exact le_refl _
  | cons x xs ih =>
      have hx := length_encodeXattr_le x
      rw [List.map_cons, List.map_cons, List.sum_cons, List.flatMap_cons, List.length_append,
        List.map_cons, List.sum_cons]
      omega

/-- Every list entered is stored, and its id is in the table. -/
def DuplIdsOk (env : XattrEnv) (s : Store) (idTable : List XattrId) (duplId : UInt16 → List DuplId) :
    Prop :=
  ∀ c, ∀ entry ∈ duplId c, ∃ id, idTable[entry.xattrId]? = some id ∧ s.ListAt env id entry.list

/-- Entering a list with its id. -/
theorem DuplIdsOk.enter {idTable : List XattrId} {duplId : UInt16 → List DuplId} {id : XattrId}
    {pairs : List NameValue} (h : DuplIdsOk env s idTable duplId) (hs : s.Grows s')
    (hid : s'.ListAt env id pairs) (c : UInt16) (call : ℕ) :
    DuplIdsOk env s' (idTable ++ [id])
      (Function.update duplId c (⟨call, pairs, idTable.length⟩ :: duplId c)) := by
  have hold : ∀ c, ∀ entry ∈ duplId c,
      ∃ id', (idTable ++ [id])[entry.xattrId]? = some id' ∧ s'.ListAt env id' entry.list := by
    intro c entry hentry
    obtain ⟨id', hid', hlist⟩ := h c entry hentry
    refine ⟨id', ?_, hlist.grows hs⟩
    rw [List.getElem?_append_left (List.getElem?_eq_some_iff.mp hid').1, hid']
  intro c' entry hentry
  by_cases hc : c' = c
  · subst hc
    rw [Function.update_self] at hentry
    rcases List.mem_cons.mp hentry with rfl | hentry
    · exact ⟨id, List.getElem?_concat_length, hid⟩
    · exact hold c' entry hentry
  · rw [Function.update_of_ne hc] at hentry
    exact hold c' entry hentry

/-- What holds between two calls: the stream, the values and the lists are all in the store. -/
structure XattrState.Ok (env : XattrEnv) (s : Store) (st : XattrState) : Prop where
  stream : st.stream.Holds env.enc metadataSize s.blocks s.data
  dupl : DuplOk env s [] st.dupl
  duplId : DuplIdsOk env s st.idTable st.duplId

/-- The list that is found for a list: the one it is taken to be a duplicate of, or itself. -/
def storedList (env : XattrEnv) (st : XattrState) (pairs : List NameValue) : List NameValue :=
  match checkIdDupl env st pairs with
  | some entry => entry.list
  | none => pairs

/-- What calls do: the store and the id table grow. -/
structure Stores (env : XattrEnv) (s : Store) (st : XattrState) (space : ℕ) (s' : Store)
    (st' : XattrState) : Prop where
  grows : s.Grows s'
  ok : st'.Ok env s'
  space : s'.data.length ≤ s.data.length + space
  ids : ∃ ids, st'.idTable = st.idTable ++ ids

/-- **One call of `generate_xattrs`.** The id is that of the list it stands for. -/
theorem generateXattrs_stored {st : XattrState} (h : st.Ok env s) (pairs : List NameValue) :
    ∃ s', Stores env s st (pairs.map xattrSpace).sum s' (generateXattrs env st pairs).2 ∧
      (generateXattrs env st pairs).2.idTable.length ≤ st.idTable.length + 1 ∧
      ∃ id, (generateXattrs env st pairs).2.idTable[(generateXattrs env st pairs).1]? = some id ∧
        s'.ListAt env id (storedList env st pairs) := by
  unfold generateXattrs storedList
  cases hfind : checkIdDupl env st pairs with
  | some entry =>
      refine ⟨s, ⟨.refl s, ⟨h.stream, h.dupl, h.duplId⟩, Nat.le_add_right _ _, [], ?_⟩,
        Nat.le_succ _, h.duplId _ entry (List.mem_of_find?_eq_some hfind)⟩
      exact (List.append_nil _).symm
  | none =>
      have hnew : ∀ x ∈ pairs.map NameValue.xattr, x.TypeOk ∧ x.entered = false := by
        intro x hx
        obtain ⟨y, -, rfl⟩ := List.mem_map.mp hx
        exact ⟨.inl rfl, rfl⟩
      obtain ⟨hpairs₁, hscanned⟩ := @assignTypes_scanned 4 xattrInlineMax (by decide) _ hnew
      dsimp only
      generalize assignTypes 4 xattrInlineMax (pairs.map NameValue.xattr) = xs₁ at hpairs₁ hscanned ⊢
      obtain ⟨hpairs₂, hlooked, hdupl₂⟩ := checkValueDupls_looked h.dupl hscanned
      generalize checkValueDupls st.dupl xs₁ = r at hpairs₂ hlooked hdupl₂ ⊢
      obtain ⟨xs₂, dupl₂⟩ := r
      obtain ⟨s₃, hgrows₃, hlen₃, hholds₃, hdupl₃, hpairs₃, hwritten⟩ :=
        putAll_putOolValue h.stream hdupl₂ hlooked
      dsimp only at hholds₃ hdupl₃ hpairs₃ hwritten ⊢
      generalize putAll (putOolValue env) (st.stream, dupl₂) xs₂ = r
        at hholds₃ hdupl₃ hpairs₃ hwritten ⊢
      obtain ⟨xs₃, stream₃, dupl₃⟩ := r
      obtain ⟨s₄, hgrows₄, hdata₄, hholds₄, hrefers⟩ := putXattr_holds hholds₃ []
      obtain ⟨s₅, hgrows₅, hdata₅, hholds₅, hdupl₅⟩ :=
        putAll_putEntry hholds₄ (hdupl₃.grows hgrows₄)
      dsimp only at hholds₅ hdupl₅ ⊢
      have hpairs : xs₃.map Xattr.pair = pairs := by
        rw [hpairs₃, hpairs₂, hpairs₁, List.map_map]
        exact List.map_id pairs
      have hgrows : s.Grows s₅ := (hgrows₃.trans hgrows₄).trans hgrows₅
      rw [List.append_nil] at hdata₄
      have hlist : s₅.ListAt env ⟨(putXattr env stream₃ []).1, pairs.length,
          (pairs.map fun x => x.fullName.length + 1 + x.value.length).sum⟩ pairs := by
        refine ⟨s₃.data.length, xs₃, hrefers.grows hgrows₅, ?_, hpairs, ?_, fun x hx =>
          ⟨(hwritten x hx).type, fun hool => ((hwritten x hx).stored hool).grows (hgrows₄.trans hgrows₅)⟩⟩
        · rw [hdata₅, hdata₄]
          simpa using holdsAt_append s₃.data (xs₃.flatMap encodeXattr) []
        · rw [← hpairs, List.length_map]
      refine ⟨s₅, ⟨hgrows, ⟨hholds₅, hdupl₅, h.duplId.enter hgrows hlist _ _⟩, ?_, _, rfl⟩, ?_, _, ?_,
        hlist⟩
      · have hcost := length_flatMap_encodeXattr_le hpairs
        have hvalues : (xs₂.map fun x => 4 + x.pair.value.length).sum
            = (pairs.map fun x => 4 + x.value.length).sum := by
          rw [← hpairs, hpairs₃, List.map_map]
          rfl
        dsimp only at hlen₃
        rw [hdata₅, List.length_append, hdata₄]
        dsimp only
        omega
      · rw [List.length_append]
        exact le_refl _
      · exact List.getElem?_concat_length

/-- The lists that are found, call by call. -/
def storedLists (env : XattrEnv) : XattrState → List (List NameValue) → List (List NameValue)
  | _, [] => []
  | st, pairs :: lists =>
    storedList env st pairs :: storedLists env (generateXattrs env st pairs).2 lists

/-- **Calls of `generate_xattrs` in turn.** -/
theorem generateAll_stored {st : XattrState} (h : st.Ok env s) (lists : List (List NameValue)) :
    ∃ s', Stores env s st (lists.map fun pairs => (pairs.map xattrSpace).sum).sum s'
        (generateAll env st lists).2 ∧
      (generateAll env st lists).2.idTable.length ≤ st.idTable.length + lists.length ∧
      List.Forall₂ (fun i pairs => ∃ id, (generateAll env st lists).2.idTable[i]? = some id ∧
        s'.ListAt env id pairs) (generateAll env st lists).1 (storedLists env st lists) := by
  induction lists generalizing s st with
  | nil =>
      exact ⟨s, ⟨.refl s, h, le_refl _, [], (List.append_nil _).symm⟩, le_refl _, .nil⟩
  | cons pairs lists ih =>
      obtain ⟨s₁, hstores, hlen, id, hid, hlist⟩ := generateXattrs_stored h pairs
      obtain ⟨s₂, hstores₂, hlen₂, hall⟩ := ih hstores.ok
      unfold generateAll storedLists
      dsimp only
      obtain ⟨ids, hids⟩ := hstores.ids
      obtain ⟨ids₂, hids₂⟩ := hstores₂.ids
      refine ⟨s₂, ⟨hstores.grows.trans hstores₂.grows, hstores₂.ok, ?_, ids ++ ids₂, ?_⟩, ?_,
        .cons ⟨id, ?_, hlist.grows hstores₂.grows⟩ hall⟩
      · have hspace := hstores.space
        have hspace₂ := hstores₂.space
        rw [List.map_cons, List.sum_cons]
        omega
      · rw [hids₂, hids, List.append_assoc]
      · rw [List.length_cons]
        omega
      · rw [hids₂, List.getElem?_append_left (List.getElem?_eq_some_iff.mp hid).1, hid]

end FirmwareTools.Squashfs

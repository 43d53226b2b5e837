import FirmwareTools.Opkg.ConfigureOrder
import FirmwareTools.Opkg.DependentCount
import FirmwareTools.Order.ScanClosure

/-! # `whatdepends` and its relatives

`opkg_what_depends_conflicts_cmd` marks the packages that match the patterns, what these provide, and
then goes through the packages: one that names something marked is reported and marked too. A package
whose name is marked is skipped. The recursive command repeats this until nothing is reported.

* **`reportsDirect_iff`** — when one pass reports the direct dependents;
* **`marksClosure_iff`** — when the passes mark everything that leads to the patterns. -/

namespace FirmwareTools.Opkg

/-! ## The command -/

/-- The types of entries that the commands ask for. -/
inductive WhatField
  | depends | conflicts | suggests | recommends
  deriving DecidableEq, Repr

/-- `what_field_type` -/
def WhatField.type : WhatField → DependType
  | .depends => .depend
  | .conflicts => .conflicts
  | .suggests => .suggest
  | .recommends => .recommend

/-- The flags `SF_MARKED` of all packages. -/
structure MarkedFlags where
  pkg : PkgId → Bool
  abstractPkg : AbstractPkgId → Bool

/-- `pkg_vec_clear_marks` -/
def pkgVecClearMarks (vec : List PkgId) (m : MarkedFlags) : MarkedFlags :=
  vec.foldl (fun m i => { m with pkg := Function.update m.pkg i false }) m

/-- `pkg_vec_mark_if_matches` -/
def pkgVecMarkIfMatches (fnmatch : CStr → CStr → Bool) (db : Database) (vec : List PkgId) (m : MarkedFlags)
    (pattern : CStr) : MarkedFlags :=
  vec.foldl (fun m i =>
    if fnmatch pattern (db.pkg i).name then { m with pkg := Function.update m.pkg i true } else m) m

/-- `pkg_mark_provides`; `none` where the array is shorter than its count says, or there is no parent. -/
def pkgMarkProvides (db : Database) (m : MarkedFlags) (i : PkgId) : Option MarkedFlags := do
  let provides ← readArray (db.pkg i).providesCount ((db.pkg i).provides.getD [])
  let parent ← (db.pkg i).parent
  let marked := Function.update m.abstractPkg parent true
  some { m with abstractPkg := provides.foldl (fun marked a => Function.update marked a true) marked }

/-- The entries that the loop over `k` goes through. -/
def whatEntries (db : Database) (field : WhatField) (i : PkgId) : List CompoundDepend :=
  if field = .conflicts then (db.pkg i).conflicts.take (db.pkg i).conflictsCount else (db.pkg i).entries

/-- The alternatives that the loop over `l` comes to. -/
def whatAlternatives (db : Database) (field : WhatField) (i : PkgId) : List Depend :=
  ((whatEntries db field i).filter fun cdep => field.type = cdep.type).flatMap
    CompoundDepend.possibilities

/-- The marks, `changed`, and the lines that have been printed: a package and the alternative that is
marked. -/
structure WhatState where
  marked : MarkedFlags
  changed : ℕ := 0
  lines : List (PkgId × Depend) := []

/-- A package of the vector. -/
def whatRound (db : Database) (field : WhatField) (s : WhatState) (i : PkgId) : Option WhatState := do
  let parent ← (db.pkg i).parent
  if s.marked.abstractPkg parent then some s
  else match (whatAlternatives db field i).find? fun possibility => s.marked.abstractPkg possibility.pkg with
    | none => some s
    | some possibility => do
      let marked ← pkgMarkProvides db { s.marked with pkg := Function.update s.marked.pkg i true } i
      some ⟨marked, s.changed + 1, s.lines ++ [(i, possibility)]⟩

/-- The `do` loop, with the number of passes as fuel. -/
def whatLoop (db : Database) (field : WhatField) (recursive : Bool) (vec : List PkgId) :
    ℕ → WhatState → Option WhatState
  | 0, _ => none
  | n + 1, s => do
    let s ← vec.foldlM (whatRound db field) { s with changed := 0 }
    if s.changed ≠ 0 ∧ recursive then whatLoop db field recursive vec n s else some s

/-- `opkg_what_depends_conflicts_cmd`; `vec` are the available or the installed packages. -/
def opkgWhatDependsConflictsCmd (fnmatch : CStr → CStr → Bool) (db : Database) (field : WhatField)
    (recursive : Bool) (vec : List PkgId) (argv : List CStr) (n : ℕ) (m : MarkedFlags) :
    Option WhatState := do
  let m := pkgVecClearMarks vec m
  let m := argv.foldl (pkgVecMarkIfMatches fnmatch db vec) m
  let m ← vec.foldlM (fun m i => if m.pkg i then pkgMarkProvides db m i else some m) m
  whatLoop db field recursive vec n { marked := m }

/-! ## What the command should report -/

/-- The packages that match a pattern. -/
def rootSet (fnmatch : CStr → CStr → Bool) (db : Database) (vec : List PkgId) (argv : List CStr) :
    List PkgId :=
  vec.filter fun i => argv.any fun pattern => fnmatch pattern (db.pkg i).name

/-- The name of a package and the names it provides, and the names in its entries of a type. -/
def Database.naming (db : Database) (field : WhatField) : Naming PkgId AbstractPkgId where
  key i := (db.pkg i).parent.getD []
  gives i := (db.pkg i).provided
  wants i := (whatAlternatives db field i).map Depend.pkg

/-- The array of what a package provides is as long as its count says. -/
def Database.Readable (db : Database) (i : PkgId) : Prop :=
  (db.pkg i).providesCount ≤ ((db.pkg i).provides.getD []).length

instance (db : Database) (i : PkgId) : Decidable (db.Readable i) := inferInstanceAs (Decidable (_ ≤ _))

/-! ## The marks of the root set -/

variable {db : Database} {field : WhatField} {vec found : List PkgId} {m : MarkedFlags} {i : PkgId}

theorem pkg_pkgVecClearMarks : (pkgVecClearMarks vec m).pkg i = (!vec.contains i && m.pkg i) ∧
    (pkgVecClearMarks vec m).abstractPkg = m.abstractPkg := by
  unfold pkgVecClearMarks
  induction vec generalizing m with
  | nil => simp
  | cons j vec ih =>
      rw [List.foldl_cons]
      obtain ⟨hpkg, habstract⟩ := ih (m := { m with pkg := Function.update m.pkg j false })
      refine ⟨?_, habstract⟩
      rw [hpkg]
      by_cases hj : i = j
      · subst hj
        simp
      · simp [hj]

theorem pkg_pkgVecMarkIfMatches (fnmatch : CStr → CStr → Bool) (argv : List CStr) :
    (argv.foldl (pkgVecMarkIfMatches fnmatch db vec) m).pkg i =
        (m.pkg i || (vec.contains i && argv.any fun pattern => fnmatch pattern (db.pkg i).name)) ∧
      (argv.foldl (pkgVecMarkIfMatches fnmatch db vec) m).abstractPkg = m.abstractPkg := by
  have hone : ∀ (pattern : CStr) (vec : List PkgId) (m : MarkedFlags),
      (pkgVecMarkIfMatches fnmatch db vec m pattern).pkg i =
          (m.pkg i || (vec.contains i && fnmatch pattern (db.pkg i).name)) ∧
        (pkgVecMarkIfMatches fnmatch db vec m pattern).abstractPkg = m.abstractPkg := by
    intro pattern vec
    unfold pkgVecMarkIfMatches
    induction vec with
    | nil => simp
    | cons j vec ih =>
        intro m
        rw [List.foldl_cons]
        obtain ⟨hpkg, habstract⟩ := ih (if fnmatch pattern (db.pkg j).name then
          { m with pkg := Function.update m.pkg j true } else m)
        rw [hpkg, habstract]
        by_cases hmatch : fnmatch pattern (db.pkg j).name = true
        · rw [if_pos hmatch]
          refine ⟨?_, rfl⟩
          by_cases hj : i = j
          · subst hj
            simp [hmatch]
          · simp [hj]
        · rw [if_neg hmatch]
          refine ⟨?_, rfl⟩
          by_cases hj : i = j
          · subst hj
            simp [hmatch]
          · simp [hj]
  induction argv generalizing m with
  | nil => simp
  | cons pattern argv ih =>
      rw [List.foldl_cons]
      obtain ⟨hpkg, habstract⟩ := @ih (pkgVecMarkIfMatches fnmatch db vec m pattern)
      rw [hpkg, habstract, (hone pattern vec m).1, (hone pattern vec m).2, List.any_cons]
      refine ⟨?_, rfl⟩
      cases m.pkg i <;> cases vec.contains i <;> simp

/-- What is marked for a package. -/
theorem pkgMarkProvides_cases (field : WhatField) {parent : AbstractPkgId}
    (hparent : (db.pkg i).parent = some parent) (m : MarkedFlags) :
    (db.Readable i ∧ ∃ m', pkgMarkProvides db m i = some m' ∧ m'.pkg = m.pkg ∧
        ∀ a, m'.abstractPkg a = true ↔ m.abstractPkg a = true ∨ a = (db.naming field).key i ∨
          a ∈ (db.naming field).gives i) ∨
      ¬ db.Readable i ∧ pkgMarkProvides db m i = none := by
  have hmarked : ∀ (provides : List AbstractPkgId) (marked : AbstractPkgId → Bool) (a : AbstractPkgId),
      provides.foldl (fun marked a => Function.update marked a true) marked a = true ↔
        marked a = true ∨ a ∈ provides := by
    intro provides
    induction provides with
    | nil => simp
    | cons b provides ih =>
        intro marked a
        rw [List.foldl_cons, ih, List.mem_cons]
        by_cases hb : a = b
        · subst hb
          simp
        · simp [hb]
  unfold pkgMarkProvides
  rw [hparent]
  by_cases hread : db.Readable i
  · refine Or.inl ⟨hread, ?_⟩
    rw [readArray_isSome hread]
    refine ⟨_, rfl, rfl, fun a => ?_⟩
    have hkey : (db.naming field).key i = parent := by
      change (db.pkg i).parent.getD [] = parent
      rw [hparent, Option.getD_some]
    rw [hmarked, hkey, ← or_assoc]
    refine or_congr ?_ Iff.rfl
    by_cases ha : a = parent
    · subst ha
      simp
    · simp [ha]
  · refine Or.inr ⟨hread, ?_⟩
    cases hget : readArray (db.pkg i).providesCount ((db.pkg i).provides.getD []) with
    | none => rfl
    | some provides => exact absurd (readArray_length hget) hread

/-- The marks say what has been found. -/
structure MarksFound (db : Database) (field : WhatField) (vec found : List PkgId) (m : MarkedFlags) : Prop where
  pkg : ∀ i ∈ vec, m.pkg i = true ↔ i ∈ found
  names : ∀ a, m.abstractPkg a = true ↔ (db.naming field).Given found a

/-- **The root set** is marked with what it provides, if that can be read. -/
theorem foldlM_markRoots (field : WhatField) (hparent : ∀ i ∈ vec, (db.pkg i).parent.isSome) (m : MarkedFlags)
    (front : List PkgId) (hnames : ∀ a, m.abstractPkg a = true ↔ (db.naming field).Given front a) :
    ((∀ i ∈ vec.filter m.pkg, db.Readable i) ∧ ∃ m',
        vec.foldlM (fun m i => if m.pkg i then pkgMarkProvides db m i else some m) m = some m' ∧
          m'.pkg = m.pkg ∧
          ∀ a, m'.abstractPkg a = true ↔ (db.naming field).Given (front ++ vec.filter m.pkg) a) ∨
      ¬ (∀ i ∈ vec.filter m.pkg, db.Readable i) ∧
        vec.foldlM (fun m i => if m.pkg i then pkgMarkProvides db m i else some m) m = none := by
  induction vec generalizing m front with
  | nil => exact Or.inl ⟨fun i hi => absurd hi List.not_mem_nil, m, rfl, rfl, by simpa using hnames⟩
  | cons i vec ih =>
      rw [List.forall_mem_cons] at hparent
      rw [List.foldlM_cons, List.filter_cons]
      by_cases hi : m.pkg i = true
      · obtain ⟨parent, hp⟩ := Option.isSome_iff_exists.mp hparent.1
        rw [if_pos hi, if_pos hi]
        rcases pkgMarkProvides_cases field hp m with ⟨hread, m', hm', hpkg, hmarked⟩ | ⟨hread, hnone⟩
        · have hnames' : ∀ a, m'.abstractPkg a = true ↔ (db.naming field).Given (front ++ [i]) a := by
            intro a
            rw [hmarked, hnames, Naming.given_append, Naming.given_singleton]
          have hrest := ih hparent.2 m' (front ++ [i]) hnames'
          rw [hpkg, List.append_assoc, List.singleton_append] at hrest
          simp only [hm', Option.bind_eq_bind, Option.bind_some, List.forall_mem_cons, hread, true_and]
          exact hrest
        · simp only [hnone, Option.bind_eq_bind, Option.bind_none, List.forall_mem_cons, hread, false_and,
            not_false_eq_true, true_and]
          exact Or.inr trivial
      · rw [if_neg hi, if_neg hi]
        exact ih hparent.2 m front hnames

/-! ## The passes -/

/-- The state says what has been found behind the root set. -/
structure StateFound (db : Database) (field : WhatField) (vec roots found : List PkgId) (s : WhatState) :
    Prop where
  marked : MarksFound db field vec found s.marked
  lines : roots ++ s.lines.map Prod.fst = found

variable {roots : List PkgId} {s : WhatState}

/-- **A package of the vector** is a step of a scan that tells by names. -/
theorem whatRound_cases (h : StateFound db field vec roots found s) (hi : i ∈ vec)
    (hparent : (db.pkg i).parent.isSome) :
    (∃ s', whatRound db field s i = some s' ∧
        StateFound db field vec roots ((db.naming field).scanStep (db.naming field).byName found i) s' ∧
        s'.changed + found.length =
          s.changed + ((db.naming field).scanStep (db.naming field).byName found i).length ∧
        ((db.naming field).scanStep (db.naming field).byName found i = found ∨ db.Readable i)) ∨
      whatRound db field s i = none ∧ ¬ db.Readable i ∧
        i ∈ (db.naming field).scanStep (db.naming field).byName found i := by
  obtain ⟨parent, hp⟩ := Option.isSome_iff_exists.mp hparent
  have hkey : (db.naming field).key i = parent := by
    change (db.pkg i).parent.getD [] = parent
    rw [hp, Option.getD_some]
  have hname : s.marked.abstractPkg parent = true ↔ (db.naming field).byName found i := by
    rw [h.marked.names, ← hkey]
    rfl
  rw [whatRound, hp, Naming.scanStep]
  simp only [Option.bind_eq_bind, Option.bind_some]
  by_cases hblocked : s.marked.abstractPkg parent = true
  · rw [if_pos hblocked, if_neg fun hstep => hstep.1 (hname.mp hblocked)]
    exact Or.inl ⟨s, rfl, h, rfl, Or.inl rfl⟩
  rw [if_neg hblocked]
  cases hfind : (whatAlternatives db field i).find? fun possibility => s.marked.abstractPkg possibility.pkg with
  | none =>
      have hnot : ¬ (db.naming field).Wanting found i := by
        rintro ⟨a, ha, hgiven⟩
        obtain ⟨d, hd, rfl⟩ := List.mem_map.mp ha
        exact List.find?_eq_none.mp hfind d hd ((h.marked.names d.pkg).mpr hgiven)
      rw [if_neg fun hstep => hnot hstep.2]
      exact Or.inl ⟨s, rfl, h, rfl, Or.inl rfl⟩
  | some possibility =>
      have hwanting : (db.naming field).Wanting found i := by
        have hpossibility := List.find?_some hfind
        exact ⟨possibility.pkg, List.mem_map_of_mem (List.mem_of_find?_eq_some hfind),
          (h.marked.names possibility.pkg).mp hpossibility⟩
      rw [if_pos ⟨fun hb => hblocked (hname.mpr hb), hwanting⟩]
      dsimp only
      rcases pkgMarkProvides_cases field hp
          { s.marked with pkg := Function.update s.marked.pkg i true } with
        ⟨hread, m', hm', hpkg, hmarked⟩ | ⟨hread, hnone⟩
      · rw [hm']
        refine Or.inl ⟨_, rfl, ⟨⟨fun j hj => ?_, fun a => ?_⟩, ?_⟩, ?_, Or.inr hread⟩
        · dsimp only
          rw [hpkg, List.mem_append, List.mem_singleton, ← h.marked.pkg j hj]
          by_cases hji : j = i
          · subst hji
            simp
          · simp [hji]
        · rw [hmarked, h.marked.names, Naming.given_append, Naming.given_singleton]
        · rw [List.map_append, ← List.append_assoc, h.lines]
          rfl
        · rw [List.length_append, List.length_singleton]
          dsimp only
          omega
      · rw [hnone]
        exact Or.inr ⟨rfl, hread, List.mem_append_right _ (List.mem_singleton_self i)⟩

/-- **A pass** is a scan that tells by names. -/
theorem whatPass_cases (vec' : List PkgId) (hsub : vec' ⊆ vec) (h : StateFound db field vec roots found s)
    (hparent : ∀ i ∈ vec, (db.pkg i).parent.isSome) (hread : ∀ i ∈ found, db.Readable i) :
    (∃ s', vec'.foldlM (whatRound db field) s = some s' ∧
        StateFound db field vec roots ((db.naming field).scan (db.naming field).byName vec' found) s' ∧
        s'.changed + found.length =
          s.changed + ((db.naming field).scan (db.naming field).byName vec' found).length ∧
        ∀ i ∈ (db.naming field).scan (db.naming field).byName vec' found, db.Readable i) ∨
      vec'.foldlM (whatRound db field) s = none ∧
        ∃ i ∈ (db.naming field).scan (db.naming field).byName vec' found, ¬ db.Readable i := by
  induction vec' generalizing s found with
  | nil => exact Or.inl ⟨s, rfl, h, rfl, hread⟩
  | cons i vec' ih =>
      rw [List.cons_subset] at hsub
      rw [List.foldlM_cons, Naming.scan_cons]
      rcases whatRound_cases h hsub.1 (hparent i hsub.1) with
        ⟨s₁, hs₁, hfound, hchanged, hstep⟩ | ⟨hnone, hnot, hmem⟩
      · have hread₁ : ∀ j ∈ (db.naming field).scanStep (db.naming field).byName found i, db.Readable j := by
          intro j hj
          rcases hstep with heq | hi
          · exact hread j (heq ▸ hj)
          · rcases (db.naming field).mem_scanStep hj with hj | ⟨rfl, -⟩
            · exact hread j hj
            · exact hi
        rw [hs₁]
        rcases ih hsub.2 hfound hread₁ with ⟨s', hs', hfound', hchanged', hread'⟩ | hbad
        · exact Or.inl ⟨s', hs', hfound', by omega, hread'⟩
        · exact Or.inr hbad
      · rw [hnone]
        exact Or.inr ⟨rfl, i, ((db.naming field).prefix_scan _ vec' _).subset hmem, hnot⟩

/-- **The loop** scans until nothing is found. -/
theorem whatLoop_cases (n : ℕ) (h : StateFound db field vec roots found s)
    (hparent : ∀ i ∈ vec, (db.pkg i).parent.isSome) (hread : ∀ i ∈ found, db.Readable i)
    (hfixed : ∃ m < n, (db.naming field).scan (db.naming field).byName vec
        ((db.naming field).scans (db.naming field).byName vec m found) =
      (db.naming field).scans (db.naming field).byName vec m found) :
    (∃ s', whatLoop db field true vec n s = some s' ∧
        StateFound db field vec roots ((db.naming field).scans (db.naming field).byName vec n found) s' ∧
        ∀ i ∈ (db.naming field).scans (db.naming field).byName vec n found, db.Readable i) ∨
      whatLoop db field true vec n s = none ∧
        ∃ i ∈ (db.naming field).scans (db.naming field).byName vec n found, ¬ db.Readable i := by
  induction n generalizing s found with
  | zero => exact absurd hfixed (by simp)
  | succ n ih =>
      have hstart : StateFound db field vec roots found { s with changed := 0 } := ⟨h.marked, h.lines⟩
      rw [whatLoop, Naming.scans_succ]
      rcases whatPass_cases vec (List.Subset.refl _) hstart hparent hread with
        ⟨s₁, hs₁, hfound, hchanged, hread₁⟩ | ⟨hnone, i, hi, hnot⟩
      · rw [hs₁]
        simp only [Option.bind_eq_bind, Option.bind_some, and_true]
        have hbegin := (db.naming field).prefix_scan (db.naming field).byName vec found
        by_cases hzero : s₁.changed = 0
        · -- the pass has found nothing
          have heq : (db.naming field).scan (db.naming field).byName vec found = found := by
            refine (hbegin.eq_of_length_le ?_).symm
            dsimp only at hchanged
            omega
          have hscans : (db.naming field).scans (db.naming field).byName vec n found = found :=
            Naming.scans_of_le (m := 0) heq (Nat.zero_le n)
          rw [if_neg (not_not_intro hzero), heq, hscans]
          rw [heq] at hfound hread₁
          exact Or.inl ⟨s₁, rfl, hfound, hread₁⟩
        · rw [if_pos hzero]
          refine ih hfound hread₁ ?_
          obtain ⟨m, hm, hm'⟩ := hfixed
          cases m with
          | zero =>
              have heq : (db.naming field).scan (db.naming field).byName vec found = found := hm'
              rw [heq] at hchanged
              dsimp only at hchanged
              omega
          | succ m => exact ⟨m, Nat.lt_of_succ_lt_succ hm, hm'⟩
      · rw [hnone]
        exact Or.inr ⟨rfl, i, ((db.naming field).prefix_scans _ vec n _).subset hi, hnot⟩

/-- More fuel does not matter. -/
theorem whatLoop_of_le {recursive : Bool} {n n' : ℕ} {s' : WhatState}
    (h : whatLoop db field recursive vec n s = some s') (hle : n ≤ n') :
    whatLoop db field recursive vec n' s = some s' := by
  induction n generalizing n' s with
  | zero => exact absurd h (by simp [whatLoop])
  | succ n ih =>
      obtain ⟨n', rfl⟩ := Nat.exists_eq_succ_of_ne_zero (by omega : n' ≠ 0)
      rw [whatLoop] at h ⊢
      cases hpass : vec.foldlM (whatRound db field) { s with changed := 0 } with
      | none =>
          rw [hpass] at h
          exact h
      | some s₁ =>
          rw [hpass] at h
          simp only [Option.bind_eq_bind, Option.bind_some] at h ⊢
          split_ifs at h ⊢ with hagain
          · exact ih h (Nat.le_of_succ_le_succ hle)
          · exact h

/-! ## The root set -/

variable {fnmatch : CStr → CStr → Bool} {argv : List CStr}

/-- The marks when the root set is looked for. -/
theorem rootSet_marked (fnmatch : CStr → CStr → Bool) (db : Database) (vec : List PkgId)
    (argv : List CStr) (m : MarkedFlags) :
    let m' := argv.foldl (pkgVecMarkIfMatches fnmatch db vec) (pkgVecClearMarks vec m)
    vec.filter m'.pkg = rootSet fnmatch db vec argv ∧ m'.abstractPkg = m.abstractPkg ∧
      ∀ i ∈ vec, m'.pkg i = true ↔ i ∈ rootSet fnmatch db vec argv := by
  have hpkg : ∀ i ∈ vec, (argv.foldl (pkgVecMarkIfMatches fnmatch db vec) (pkgVecClearMarks vec m)).pkg i =
      argv.any fun pattern => fnmatch pattern (db.pkg i).name := by
    intro i hi
    have hcontains : vec.contains i = true := List.contains_iff_mem.mpr hi
    rw [(pkg_pkgVecMarkIfMatches fnmatch argv).1, pkg_pkgVecClearMarks.1, hcontains]
    simp
  refine ⟨List.filter_congr hpkg, ?_, fun i hi => ?_⟩
  · rw [(@pkg_pkgVecMarkIfMatches db vec _ 0 fnmatch argv).2, (@pkg_pkgVecClearMarks vec m 0).2]
  · rw [hpkg i hi, rootSet, List.mem_filter]
    exact ⟨fun h => ⟨hi, h⟩, fun h => h.2⟩

/-- **Before the first pass** the root set is marked, if what it provides can be read. -/
theorem command_cases (fnmatch : CStr → CStr → Bool) (argv : List CStr) (field : WhatField) (hparent : ∀ i ∈ vec, (db.pkg i).parent.isSome)
    (hclear : ∀ a, m.abstractPkg a = false) :
    ((∀ i ∈ rootSet fnmatch db vec argv, db.Readable i) ∧ ∃ s,
        StateFound db field vec (rootSet fnmatch db vec argv) (rootSet fnmatch db vec argv) s ∧
        ∀ recursive n, opkgWhatDependsConflictsCmd fnmatch db field recursive vec argv n m =
          whatLoop db field recursive vec n s) ∨
      ¬ (∀ i ∈ rootSet fnmatch db vec argv, db.Readable i) ∧
        ∀ recursive n, opkgWhatDependsConflictsCmd fnmatch db field recursive vec argv n m = none := by
  obtain ⟨hroots, habstract, hpkg⟩ := rootSet_marked fnmatch db vec argv m
  unfold opkgWhatDependsConflictsCmd
  dsimp only at hroots habstract hpkg ⊢
  generalize argv.foldl (pkgVecMarkIfMatches fnmatch db vec) (pkgVecClearMarks vec m) = m₁
    at hroots habstract hpkg ⊢
  have hnames : ∀ a, m₁.abstractPkg a = true ↔ (db.naming field).Given [] a := by
    intro a
    rw [habstract, hclear]
    exact ⟨fun h => absurd h Bool.false_ne_true, fun ⟨j, hj, _⟩ => absurd hj List.not_mem_nil⟩
  rw [← hroots]
  rcases foldlM_markRoots field hparent m₁ [] hnames with ⟨hread, m', hm', hsame, hmarked⟩ | ⟨hread, hnone⟩
  · refine Or.inl ⟨hread, { marked := m' }, ⟨⟨fun i hi => ?_, fun a => ?_⟩, ?_⟩, fun recursive n => ?_⟩
    · dsimp only
      rw [hsame, hpkg i hi, hroots]
    · exact hmarked a
    · exact List.append_nil _
    · rw [hm']
      rfl
  · refine Or.inr ⟨hread, fun recursive n => ?_⟩
    rw [hnone]
    rfl

/-! ## Direct dependents -/

/-- One of the entries of a type has an alternative that names a package of the list, or something that
one of these provides. -/
def Database.NamesAny (db : Database) (field : WhatField) (roots : List PkgId) (i : PkgId) : Prop :=
  ∃ cdep ∈ whatEntries db field i, field.type = cdep.type ∧ ∃ d ∈ cdep.possibilities, ∃ r ∈ roots,
    (db.pkg r).parent = some d.pkg ∨ d.pkg ∈ (db.pkg r).provided

instance (roots : List PkgId) (i : PkgId) : Decidable (db.NamesAny field roots i) :=
  inferInstanceAs (Decidable (∃ cdep ∈ whatEntries db field i, field.type = cdep.type ∧
    ∃ d ∈ cdep.possibilities, ∃ r ∈ roots, (db.pkg r).parent = some d.pkg ∨ d.pkg ∈ (db.pkg r).provided))

theorem namesAny_iff (hroots : ∀ r ∈ roots, (db.pkg r).parent.isSome) :
    db.NamesAny field roots i ↔ (db.naming field).Wanting roots i := by
  have hparent : ∀ r ∈ roots, ∀ a, (db.pkg r).parent = some a ↔ a = (db.pkg r).parent.getD [] := by
    intro r hr a
    obtain ⟨b, hb⟩ := Option.isSome_iff_exists.mp (hroots r hr)
    rw [hb, Option.getD_some, Option.some.injEq]
    exact eq_comm
  constructor
  · rintro ⟨cdep, hcdep, htype, d, hd, r, hr, hnames⟩
    refine ⟨d.pkg, List.mem_map_of_mem (List.mem_flatMap.mpr ⟨cdep, ?_, hd⟩), r, hr, ?_⟩
    · exact List.mem_filter.mpr ⟨hcdep, decide_eq_true htype⟩
    · exact hnames.imp (hparent r hr d.pkg).mp id
  · rintro ⟨a, ha, r, hr, hnames⟩
    obtain ⟨d, hd, rfl⟩ := List.mem_map.mp ha
    obtain ⟨cdep, hcdep, hd⟩ := List.mem_flatMap.mp hd
    rw [List.mem_filter, decide_eq_true_iff] at hcdep
    exact ⟨cdep, hcdep.1, hcdep.2, d, hd, r, hr, hnames.imp (hparent r hr d.pkg).mpr id⟩

/-- The command returns, and of the packages outside the root set it reports the direct dependents. -/
def ReportsDirect (fnmatch : CStr → CStr → Bool) (db : Database) (field : WhatField) (vec : List PkgId)
    (argv : List CStr) (m : MarkedFlags) : Prop :=
  ∃ s, (∀ n, 0 < n → opkgWhatDependsConflictsCmd fnmatch db field false vec argv n m = some s) ∧
    ∀ i ∈ vec, i ∉ rootSet fnmatch db vec argv →
      (i ∈ s.lines.map Prod.fst ↔ db.NamesAny field (rootSet fnmatch db vec argv) i)

theorem mem_of_mem_rootSet (hi : i ∈ rootSet fnmatch db vec argv) : i ∈ vec := List.mem_of_mem_filter hi

theorem parent_isSome_of_filed (hplaced : WellPlaced db) (hfiled : ∀ i ∈ vec, ∃ a, i ∈ db.filed a) :
    ∀ i ∈ vec, (db.pkg i).parent.isSome := by
  intro i hi
  obtain ⟨a, ha⟩ := hfiled i hi
  rw [hplaced.parent a i ha]
  rfl

/-- One pass, if it is not repeated. -/
theorem whatLoop_once {n : ℕ} (hn : 0 < n) : whatLoop db field false vec n s =
    vec.foldlM (whatRound db field) { s with changed := 0 } := by
  obtain ⟨n, rfl⟩ := Nat.exists_eq_succ_of_ne_zero hn.ne'
  rw [whatLoop]
  simp

/-- `c` depends on `b`, and `b` on `a`. -/
def chainRecords : List Insertion :=
  [⟨0, dependsStanza "a".toList "1".toList [], false⟩, ⟨1, dependsStanza "b".toList "1".toList ["a".toList], false⟩,
    ⟨2, dependsStanza "c".toList "1".toList ["b".toList], false⟩]

/-- No package is marked. -/
def noMarks : MarkedFlags := ⟨fun _ => false, fun _ => false⟩

theorem chain_wellPlaced : WellPlaced (readAll chainRecords) :=
  (hashInsertPkg_wellPlaced (readAll_trace chainRecords (by decide) (by decide))).2

theorem chain_filed {vec : List PkgId} (hvec : vec ⊆ [0, 1, 2]) :
    ∀ i ∈ vec, ∃ a, i ∈ (readAll chainRecords).filed a := by
  intro i hi
  have hmem := hvec hi
  simp only [List.mem_cons, List.not_mem_nil, or_false] at hmem
  rcases hmem with rfl | rfl | rfl
  · exact ⟨"a".toList, by decide⟩
  · exact ⟨"b".toList, by decide⟩
  · exact ⟨"c".toList, by decide⟩

/-- The root set, and what depends on it: packages of the vector with an alternative of a dependency that
names one of these packages, or something that it provides. -/
inductive Database.DependsOnRoots (db : Database) (roots vec : List PkgId) : PkgId → Prop
  | root {i : PkgId} (hi : i ∈ roots) : DependsOnRoots db roots vec i
  | step {i j : PkgId} (hi : i ∈ vec) (hj : DependsOnRoots db roots vec j)
      (hnames : db.NamesAny .depends [j] i) : DependsOnRoots db roots vec i

theorem dependsOnRoots_iff (hparent : ∀ i ∈ vec, (db.pkg i).parent.isSome) (hsub : roots ⊆ vec) :
    db.DependsOnRoots roots vec i ↔ (db.naming .depends).Dependent roots vec i := by
  have hmem : ∀ {i}, (db.naming .depends).Dependent roots vec i → i ∈ vec := by
    intro i h
    cases h with
    | root hi => exact hsub hi
    | step hi => exact hi
  have hnames : ∀ {i j}, j ∈ vec →
      (db.NamesAny .depends [j] i ↔ (db.naming .depends).Wanting [j] i) := by
    intro i j hj
    refine namesAny_iff fun r hr => ?_
    rw [List.mem_singleton.mp hr]
    exact hparent j hj
  constructor
  · intro h
    induction h with
    | root hi => exact .root hi
    | step hi _ hnamed ih =>
        obtain ⟨a, ha, hgiven⟩ := (hnames (hmem ih)).mp hnamed
        exact .step hi ih ha (Naming.given_singleton.mp hgiven)
  · intro h
    induction h with
    | root hi => exact .root hi
    | step hi hj hn hgiven ih =>
        exact .step hi ih ((hnames (hmem hj)).mpr ⟨_, hn, Naming.given_singleton.mpr hgiven⟩)

/-- The recursive command returns, and the packages it has marked are the closure. -/
def MarksClosure (fnmatch : CStr → CStr → Bool) (db : Database) (vec : List PkgId) (argv : List CStr)
    (m : MarkedFlags) : Prop :=
  ∃ s, (∀ n, vec.length < n →
      opkgWhatDependsConflictsCmd fnmatch db .depends true vec argv n m = some s) ∧
    ∀ i ∈ vec, s.marked.pkg i = true ↔ db.DependsOnRoots (rootSet fnmatch db vec argv) vec i

/-- **The recursive command marks the closure** exactly when what the packages of the closure provide can
be read, and a search that keeps its marks for each package comes upon packages only whose names have not
been given before. -/
theorem marksClosure_iff (fnmatch : CStr → CStr → Bool) (hplaced : WellPlaced db) (hnodup : vec.Nodup)
    (hfiled : ∀ i ∈ vec, ∃ a, i ∈ db.filed a) (argv : List CStr) (hclear : ∀ a, m.abstractPkg a = false) :
    MarksClosure fnmatch db vec argv m ↔
      (∀ i, db.DependsOnRoots (rootSet fnmatch db vec argv) vec i → db.Readable i) ∧
        (db.naming .depends).FreshNames (rootSet fnmatch db vec argv)
          ((db.naming .depends).scans byElement vec vec.length (rootSet fnmatch db vec argv)) := by
  have hparent := parent_isSome_of_filed hplaced hfiled
  have hsub : rootSet fnmatch db vec argv ⊆ vec := fun i => mem_of_mem_rootSet
  have hroots : (rootSet fnmatch db vec argv).Nodup := hnodup.filter _
  simp only [MarksClosure, dependsOnRoots_iff hparent hsub]
  rw [← Naming.scans_byName_iff hroots]
  have hfixed : (db.naming .depends).scan (db.naming .depends).byName vec
      ((db.naming .depends).scans (db.naming .depends).byName vec vec.length
        (rootSet fnmatch db vec argv)) = _ :=
    Naming.scan_scans (fun _ _ => Naming.byName_of_mem) hroots
  have hmore := fun n (hn : vec.length < n) => Naming.scans_of_le hfixed (Nat.le_of_lt hn)
  have hmem : ∀ {i}, (db.naming .depends).Dependent (rootSet fnmatch db vec argv) vec i → i ∈ vec := by
    intro i h
    cases h with
    | root hi => exact hsub hi
    | step hi => exact hi
  have hscanned : ∀ {i}, i ∈ (db.naming .depends).scans (db.naming .depends).byName vec vec.length
      (rootSet fnmatch db vec argv) → i ∈ vec := fun h => (Naming.mem_scans h).elim (fun h => hsub h) id
  rcases command_cases fnmatch argv .depends hparent hclear with ⟨hread, s, hs, hrun⟩ | ⟨hread, hnone⟩
  · have hloop := fun n (hn : vec.length < n) => whatLoop_cases n hs hparent hread ⟨vec.length, hn, hfixed⟩
    constructor
    · rintro ⟨s', hs', hmarked⟩
      rcases hloop _ (Nat.lt_succ_self _) with ⟨s₁, hs₁, hfound, hread₁⟩ | ⟨hfail, -⟩
      · have hsame := (hs' _ (Nat.lt_succ_self _)).symm.trans (hrun true _)
        rw [hs₁] at hsame
        obtain rfl := Option.some.inj hsame
        rw [hmore _ (Nat.lt_succ_self _)] at hfound hread₁
        have hexact : ∀ i, i ∈ (db.naming .depends).scans (db.naming .depends).byName vec vec.length
            (rootSet fnmatch db vec argv) ↔
              (db.naming .depends).Dependent (rootSet fnmatch db vec argv) vec i := by
          refine fun i => ⟨fun hi => ?_, fun hi => ?_⟩
          · exact (hmarked i (hscanned hi)).mp ((hfound.marked.pkg i (hscanned hi)).mpr hi)
          · exact (hfound.marked.pkg i (hmem hi)).mp ((hmarked i (hmem hi)).mpr hi)
        exact ⟨fun i hi => hread₁ i ((hexact i).mpr hi), hexact⟩
      · have hsame := (hs' _ (Nat.lt_succ_self _)).symm.trans (hrun true _)
        rw [hfail] at hsame
        exact absurd hsame (Option.some_ne_none s')
    · rintro ⟨hreadable, hexact⟩
      rcases hloop _ (Nat.lt_succ_self _) with ⟨s', hs', hfound, -⟩ | ⟨-, i, hi, hnot⟩
      · rw [hmore _ (Nat.lt_succ_self _)] at hfound
        refine ⟨s', fun n hn => ?_, fun i hi => (hfound.marked.pkg i hi).trans (hexact i)⟩
        rw [hrun]
        exact whatLoop_of_le hs' hn
      · rw [hmore _ (Nat.lt_succ_self _)] at hi
        exact absurd (hreadable i ((hexact i).mp hi)) hnot
  · refine iff_of_false ?_ fun h => hread fun i hi => h.1 i (.root hi)
    rintro ⟨s', hs', -⟩
    exact absurd ((hs' _ (Nat.lt_succ_self _)).symm.trans (hnone true _)) (Option.some_ne_none s')

/-- All of the chain is marked, in two passes. -/
theorem marksClosure_chain :
    MarksClosure (fun pattern name => pattern = name) (readAll chainRecords) [0, 2, 1] ["a".toList] noMarks := by
  have hroots : rootSet (fun pattern name => pattern = name) (readAll chainRecords) [0, 2, 1] ["a".toList] =
      [0] := by decide
  have hscans : ((readAll chainRecords).naming .depends).scans byElement [0, 2, 1] [0, 2, 1].length [0] =
      [0, 1, 2] := by decide
  refine (marksClosure_iff _ chain_wellPlaced (by decide) (chain_filed (by decide)) _ fun _ => rfl).mpr
    ⟨fun i hi => ?_, ?_⟩
  · have hmem : i ∈ [0, 2, 1] := by
      cases hi with
      | root hi => exact mem_of_mem_rootSet hi
      | step hi => exact hi
    have hall : ∀ i ∈ [0, 2, 1], (readAll chainRecords).Readable i := by decide
    exact hall i hmem
  · rw [hroots, hscans]
    intro front i back hvec
    rcases front with _ | ⟨x, _ | ⟨y, front⟩⟩
    · simp only [List.cons_append, List.nil_append, List.cons.injEq] at hvec
      obtain ⟨-, rfl, -⟩ := hvec
      decide
    · simp only [List.cons_append, List.nil_append, List.cons.injEq] at hvec
      obtain ⟨-, rfl, rfl, -⟩ := hvec
      decide
    · simp at hvec

/-- Two versions of `b` depend on `a`. -/
def versionsRecords : List Insertion :=
  [⟨0, dependsStanza "a".toList "1".toList [], false⟩, ⟨1, dependsStanza "b".toList "1".toList ["a".toList], false⟩,
    ⟨2, dependsStanza "b".toList "2".toList ["a".toList], false⟩]

/-- The second version is skipped, as its name is marked for the first one. -/
theorem not_marksClosure_versions :
    ¬ ∀ fnmatch db vec argv m, WellPlaced db → vec.Nodup → (∀ i ∈ vec, ∃ a, i ∈ db.filed a) →
      (∀ a, m.abstractPkg a = false) → MarksClosure fnmatch db vec argv m := by
  intro h
  have hplaced : WellPlaced (readAll versionsRecords) :=
    (hashInsertPkg_wellPlaced (readAll_trace versionsRecords (by decide +kernel) (by decide +kernel))).2
  have hfiled : ∀ i ∈ [0, 1, 2], ∃ a, i ∈ (readAll versionsRecords).filed a := by
    intro i hi
    simp only [List.mem_cons, List.not_mem_nil, or_false] at hi
    rcases hi with rfl | rfl | rfl
    · exact ⟨"a".toList, by decide +kernel⟩
    · exact ⟨"b".toList, by decide +kernel⟩
    · exact ⟨"b".toList, by decide +kernel⟩
  obtain ⟨s, hs, hmarked⟩ := h (fun pattern name => pattern = name) (readAll versionsRecords) [0, 1, 2]
    ["a".toList] noMarks hplaced (by decide) hfiled fun _ => rfl
  have hrun : (opkgWhatDependsConflictsCmd (fun pattern name => pattern = name) (readAll versionsRecords)
      .depends true [0, 1, 2] ["a".toList] 4 noMarks).map (fun s => s.marked.pkg 2) = some false := by
    decide +kernel
  rw [hs 4 (by decide), Option.map_some, Option.some.injEq] at hrun
  have hclosure : (readAll versionsRecords).DependsOnRoots
      (rootSet (fun pattern name => pattern = name) (readAll versionsRecords) [0, 1, 2] ["a".toList])
      [0, 1, 2] 2 :=
    .step (by decide) (.root (i := 0) (by decide +kernel)) (by decide +kernel)
  rw [(hmarked 2 (by decide)).mpr hclosure] at hrun
  exact absurd hrun (by decide)

end FirmwareTools.Opkg

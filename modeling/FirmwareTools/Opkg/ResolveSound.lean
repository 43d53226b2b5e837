import FirmwareTools.Opkg.Resolve

/-! # What a resolution guarantees

A resolution that leaves nothing unresolved has looked at the entries of every package it returns,
unless it met another version of the package first or came across it while scouting the alternatives
of a greedy entry.

* **`fetch_sound`** — one call, from any marks and any vector;
* **`fetch_closure`** — a call from cleared marks and an empty vector. -/

namespace FirmwareTools.Opkg

/-- The same package to `is_pkg_in_pkg_vec`: name, version and architecture agree. -/
def SamePkg (p p' : Pkg) : Prop :=
  p.name = p'.name ∧ pkgCompareVersions p p' = 0 ∧ p.architecture = p'.architecture

theorem SamePkg.refl (p : Pkg) : SamePkg p p :=
  ⟨rfl, pkgCompareVersions_threeWay.refl p, rfl⟩

/-- An alternative is met by an installed package or by one of `vec`: the package, or one that is the
same to `is_pkg_in_pkg_vec`, is a candidate for the alternative and satisfies its constraint. -/
def MetBy (db : Database) (vec : List PkgId) (depend : Depend) : Prop :=
  ∃ s ∈ matchingPkgs db depend.pkg, ∃ t, SamePkg (db.pkg s) (db.pkg t) ∧
    versionConstraintsSatisfied depend (db.pkg t) = true ∧
    ((db.pkg t).isInstalled = true ∨ t ∈ vec)

/-- The entries that must be satisfied. -/
def CompoundDepend.isHard (entry : CompoundDepend) : Prop :=
  entry.type = .predepend ∨ entry.type = .depend

/-- Every entry of a package that must be satisfied has an alternative that is met. -/
def DependsMet (db : Database) (vec : List PkgId) (i : PkgId) : Prop :=
  ∀ entry ∈ (db.pkg i).entries, entry.isHard → ∃ depend ∈ entry.possibilities, MetBy db vec depend

/-- An abstract package in reach of a package that a greedy entry of one of `vec` looks at. -/
def ScoutedFrom (q : Qsort) (db : Database) (vec : List PkgId) (a : AbstractPkgId) : Prop :=
  ∃ i ∈ vec, ∃ entry ∈ (db.pkg i).entries, entry.type = .greedyDepend ∧
    ∃ k ∈ greedyScouts db entry, ReachAbstract q db k a

/-- An abstract package that a resolution has marked when `vec` is what it has come to: the parent of
one of them, or one met while scouting. -/
def Touched (q : Qsort) (db : Database) (vec : List PkgId) (a : AbstractPkgId) : Prop :=
  (∃ i ∈ vec, (db.pkg i).parent = some a) ∨ ScoutedFrom q db vec a

variable {q : Qsort} {db : Database}

theorem MetBy.mono {vec vec' : List PkgId} {depend : Depend} (h : MetBy db vec depend)
    (hsub : vec ⊆ vec') : MetBy db vec' depend := by
  obtain ⟨s, hs, t, hst, hsat, ht⟩ := h
  exact ⟨s, hs, t, hst, hsat, ht.imp_right fun h => hsub h⟩

theorem DependsMet.mono {vec vec' : List PkgId} {i : PkgId} (h : DependsMet db vec i)
    (hsub : vec ⊆ vec') : DependsMet db vec' i := by
  intro entry hentry hhard
  obtain ⟨depend, hdepend, hmet⟩ := h entry hentry hhard
  exact ⟨depend, hdepend, hmet.mono hsub⟩

theorem Touched.mono {vec vec' : List PkgId} {a : AbstractPkgId} (h : Touched q db vec a)
    (hsub : vec ⊆ vec') : Touched q db vec' a := by
  rcases h with ⟨i, hi, hparent⟩ | ⟨i, hi, hscout⟩
  · exact Or.inl ⟨i, hsub hi, hparent⟩
  · exact Or.inr ⟨i, hsub hi, hscout⟩

/-! ## What the searches find -/

theorem isPkgInPkgVec_eq_true {i : PkgId} {vec : List PkgId}
    (h : isPkgInPkgVec db i vec = some true) : ∃ j ∈ vec, SamePkg (db.pkg i) (db.pkg j) := by
  induction vec with
  | nil => exact absurd h (by simp [isPkgInPkgVec])
  | cons j vec ih =>
      unfold isPkgInPkgVec at h
      have hrest : isPkgInPkgVec db i vec = some true →
          ∃ k ∈ j :: vec, SamePkg (db.pkg i) (db.pkg k) := by
        intro hrest
        obtain ⟨k, hk, hsame⟩ := ih hrest
        exact ⟨k, List.mem_cons_of_mem _ hk, hsame⟩
      split at h
      · rename_i hcmp
        simp only [Option.bind_eq_bind, Option.bind_eq_some_iff] at h
        obtain ⟨architecture, harch, architecture', harch', h⟩ := h
        split at h
        · rename_i heq
          exact ⟨j, List.mem_cons_self, hcmp.1, hcmp.2, by rw [harch, harch', heq]⟩
        · exact hrest h
      · exact hrest h

theorem fetchSatisfying_eq_some {constraintFcn : Depend → PkgId → Bool} {depend : Depend}
    {i : PkgId} (h : fetchSatisfying q db constraintFcn depend = some (some i)) :
    i ∈ matchingPkgs db depend.pkg ∧ (db.pkg i).parent.isSome ∧ constraintFcn depend i = true := by
  unfold fetchSatisfying at h
  simp only [Option.bind_eq_bind, Option.bind_eq_some_iff, Option.some.injEq] at h
  obtain ⟨best, hbest, h⟩ := h
  rw [Option.filter_eq_some_iff] at h
  obtain ⟨rfl, hsat⟩ := h
  exact ⟨fetchBest_mem hbest, fetchBest_parent hbest, hsat⟩

theorem findInstalled_eq_true {ds : List Depend} (h : findInstalled q db ds = some true)
    (vec : List PkgId) : ∃ depend ∈ ds, MetBy db vec depend := by
  induction ds with
  | nil => exact absurd h (by simp [findInstalled])
  | cons depend ds ih =>
      unfold findInstalled at h
      simp only [Option.bind_eq_bind, Option.bind_eq_some_iff] at h
      obtain ⟨found, hfound, h⟩ := h
      cases found with
      | none =>
          obtain ⟨d, hd, hmet⟩ := ih h
          exact ⟨d, List.mem_cons_of_mem _ hd, hmet⟩
      | some i =>
          obtain ⟨hi, -, hsat⟩ := fetchSatisfying_eq_some hfound
          rw [pkgInstalledAndConstraintSatisfied, Bool.and_eq_true] at hsat
          exact ⟨depend, List.mem_cons_self, i, hi, i, .refl _, hsat.2, Or.inl hsat.1⟩

theorem findSatisfier_eq_some {type : DependType} {ds : List Depend} {i : PkgId}
    (h : findSatisfier q db type ds = some (some i)) :
    (db.pkg i).parent.isSome ∧ ∃ depend ∈ ds, i ∈ matchingPkgs db depend.pkg ∧
      versionConstraintsSatisfied depend (db.pkg i) = true := by
  induction ds with
  | nil => exact absurd h (by simp [findSatisfier])
  | cons depend ds ih =>
      have hrest : findSatisfier q db type ds = some (some i) →
          (db.pkg i).parent.isSome ∧ ∃ d ∈ depend :: ds, i ∈ matchingPkgs db d.pkg ∧
            versionConstraintsSatisfied d (db.pkg i) = true := by
        intro hrest
        obtain ⟨hparent, d, hd, hsat⟩ := ih hrest
        exact ⟨hparent, d, List.mem_cons_of_mem _ hd, hsat⟩
      unfold findSatisfier at h
      simp only [Option.bind_eq_bind, Option.bind_eq_some_iff] at h
      obtain ⟨found, hfound, h⟩ := h
      cases found with
      | none => exact hrest h
      | some j =>
          simp only at h
          split at h
          · exact hrest h
          · obtain rfl : j = i := by simpa using h
            obtain ⟨hj, hparent, hsat⟩ := fetchSatisfying_eq_some hfound
            exact ⟨hparent, depend, List.mem_cons_self, hj, hsat⟩

/-- A satisfier that is in the vector meets its entry, also when what is there is another record of
the same package. -/
theorem metBy_of_findSatisfier {type : DependType} {ds : List Depend} {i j : PkgId}
    {vec : List PkgId} (h : findSatisfier q db type ds = some (some i))
    (hsame : SamePkg (db.pkg i) (db.pkg j)) (hj : j ∈ vec) : ∃ depend ∈ ds, MetBy db vec depend := by
  obtain ⟨-, depend, hdepend, hi, hsat⟩ := findSatisfier_eq_some h
  refine ⟨depend, hdepend, i, hi, j, hsame, ?_, Or.inr hj⟩
  rwa [← versionConstraintsSatisfied_congr depend hsame.2.1]

/-! ## The progress of a resolution -/

/-- `j` is accounted for: its entries are met, or its parent was marked before the resolution began,
or it was marked by then because of the packages in `before`. -/
def Accounted (q : Qsort) (db : Database) (marks : Marks) (vec before : List PkgId) (j : PkgId) :
    Prop :=
  DependsMet db vec j ∨
    ∃ a, (db.pkg j).parent = some a ∧ (marks a ≠ 0 ∨ Touched q db before a)

/-- What has happened since a resolution of `pkg` began with `marks` and `vec`: `new` was appended to
the vector, what was marked is in reach and comes from `pkg` and `new`, and, if nothing is
unresolved, each package of `new` is accounted for by what was there before it. -/
structure Progress (q : Qsort) (db : Database) (marks : Marks) (pkg : PkgId) (vec : List PkgId)
    (r : Resolution) (new : List PkgId) : Prop where
  unsatisfied : r.unsatisfied = vec ++ new
  touched : ∀ a, r.marks a ≠ 0 → marks a ≠ 0 ∨ Touched q db (pkg :: new) a
  reach : ∀ a, r.marks a ≠ 0 → marks a ≠ 0 ∨ ReachAbstract q db pkg a
  accounted : r.unresolved = [] → ∀ before j after, new = before ++ j :: after →
    Accounted q db marks (pkg :: r.unsatisfied) (pkg :: before) j

/-- A split of an appended list is a split of one of its parts. -/
theorem append_eq_append_cons {α : Type*} {l₁ l₂ before after : List α} {x : α}
    (h : l₁ ++ l₂ = before ++ x :: after) :
    (∃ rest, l₁ = before ++ x :: rest) ∨ ∃ mid, before = l₁ ++ mid ∧ l₂ = mid ++ x :: after := by
  rcases List.append_eq_append_iff.mp h with ⟨mid, hbefore, hl₂⟩ | ⟨mid, hl₁, hmid⟩
  · exact Or.inr ⟨mid, hbefore, hl₂⟩
  · cases mid with
    | nil => exact Or.inr ⟨[], by simpa using hl₁.symm, by simpa using hmid.symm⟩
    | cons y mid =>
        obtain ⟨rfl, -⟩ := List.cons.inj hmid
        exact Or.inl ⟨mid, hl₁⟩

/-- **Progress goes on**: what one more step adds, seen from where it starts. -/
theorem Progress.append {marks : Marks} {pkg : PkgId} {vec new more : List PkgId}
    {r r' : Resolution} (h : Progress q db marks pkg vec r new)
    (hunsat : r'.unsatisfied = r.unsatisfied ++ more)
    (htouched : ∀ a, r'.marks a ≠ 0 → r.marks a ≠ 0 ∨ Touched q db (pkg :: (new ++ more)) a)
    (hreach : ∀ a, r'.marks a ≠ 0 → r.marks a ≠ 0 ∨ ReachAbstract q db pkg a)
    (hunres : r'.unresolved = [] → r.unresolved = [])
    (haccounted : r'.unresolved = [] → ∀ before j after, more = before ++ j :: after →
      Accounted q db r.marks (pkg :: r'.unsatisfied) (pkg :: (new ++ before)) j) :
    Progress q db marks pkg vec r' (new ++ more) where
  unsatisfied := by rw [hunsat, h.unsatisfied, List.append_assoc]
  touched a ha := by
    rcases htouched a ha with hr | ht
    · exact (h.touched a hr).imp_right fun ht => ht.mono
        (List.cons_subset_cons _ (List.subset_append_left _ _))
    · exact Or.inr ht
  reach a ha := (hreach a ha).elim (h.reach a) Or.inr
  accounted hnil before j after heq := by
    rcases append_eq_append_cons heq with ⟨rest, hnew⟩ | ⟨mid, rfl, hmore⟩
    · refine (h.accounted (hunres hnil) before j rest hnew).imp_left fun hmet => hmet.mono ?_
      rw [hunsat]
      exact List.cons_subset_cons _ (List.subset_append_left _ _)
    · refine (haccounted hnil mid j after hmore).imp_right ?_
      rintro ⟨a, hparent, ha | ht⟩
      · refine ⟨a, hparent, (h.touched a ha).imp_right fun ht => ht.mono ?_⟩
        exact List.cons_subset_cons _ (List.subset_append_left _ _)
      · exact ⟨a, hparent, Or.inr ht⟩

/-- A step that leaves vector and marks alone. -/
theorem Progress.same {marks : Marks} {pkg : PkgId} {vec new : List PkgId} {r r' : Resolution}
    (h : Progress q db marks pkg vec r new) (hunsat : r'.unsatisfied = r.unsatisfied)
    (hmarks : r'.marks = r.marks) (hunres : r'.unresolved = [] → r.unresolved = []) :
    Progress q db marks pkg vec r' new := by
  have hmore : new = new ++ [] := (List.append_nil new).symm
  rw [hmore]
  refine h.append (by rw [hunsat, List.append_nil]) (fun a ha => Or.inl (hmarks ▸ ha))
    (fun a ha => Or.inl (hmarks ▸ ha)) hunres fun _ before j after hnil => ?_
  exact absurd hnil (by simp)

/-- **What a resolution guarantees**: progress, and, if nothing is unresolved and `pkg` was not
marked before, the entries of `pkg` are met. -/
def FetchSound (q : Qsort) (db : Database)
    (fetch : Marks → PkgId → List PkgId → Option Resolution) : Prop :=
  ∀ marks pkg vec r, fetch marks pkg vec = some r →
    ∃ new, Progress q db marks pkg vec r new ∧
      (r.unresolved = [] → ∀ a, (db.pkg pkg).parent = some a → marks a = 0 →
        DependsMet db (pkg :: r.unsatisfied) pkg)

section Steps

variable {fetch : Marks → PkgId → List PkgId → Option Resolution} (hfetch : FetchSound q db fetch)
  {marks : Marks} {pkg : PkgId} {vec : List PkgId}
include hfetch

/-- Scouting one package of a greedy entry. -/
theorem scoutPkg_sound {entry : CompoundDepend} (hentry : entry ∈ (db.pkg pkg).entries)
    (hgreedy : entry.type = .greedyDepend) {k : PkgId} (hk : k ∈ greedyScouts db entry)
    {r r' : Resolution} {new : List PkgId} (h : Progress q db marks pkg vec r new)
    (hstep : scoutPkg db fetch r k = some r') :
    ∃ more, Progress q db marks pkg vec r' (new ++ more) ∧ r'.unresolved = r.unresolved := by
  have hsame : ∃ more, Progress q db marks pkg vec r (new ++ more) ∧ r.unresolved = r.unresolved :=
    ⟨[], by rwa [List.append_nil], rfl⟩
  unfold scoutPkg at hstep
  split at hstep
  · exact Option.some.inj hstep ▸ hsame
  simp only [Option.bind_eq_bind, Option.bind_eq_some_iff] at hstep
  obtain ⟨parent, hparent, hstep⟩ := hstep
  split at hstep
  · exact Option.some.inj hstep ▸ hsame
  rw [Option.bind_eq_some_iff] at hstep
  obtain ⟨present, -, hstep⟩ := hstep
  split at hstep
  · exact Option.some.inj hstep ▸ hsame
  rw [Option.bind_eq_some_iff] at hstep
  obtain ⟨tmp, htmp, hstep⟩ := hstep
  obtain ⟨_, hprogress, -⟩ := hfetch _ _ _ _ htmp
  -- whatever the scouting marks is in reach of `k`
  have hscouted : ∀ more a, ReachAbstract q db k a → Touched q db (pkg :: more) a :=
    fun more a hreach =>
      Or.inr ⟨pkg, List.mem_cons_self, entry, hentry, hgreedy, k, hk, hreach⟩
  have htouched : ∀ more a, tmp.marks a ≠ 0 →
      r.marks a ≠ 0 ∨ Touched q db (pkg :: (new ++ more)) a :=
    fun more a ha => (hprogress.reach a ha).imp_right (hscouted _ a)
  have hreach : ∀ a, tmp.marks a ≠ 0 → r.marks a ≠ 0 ∨ ReachAbstract q db pkg a := by
    intro a ha
    exact (hprogress.reach a ha).imp_right
      fun hreach => hreach.of_next ⟨entry, hentry, Or.inl ⟨hgreedy, hk⟩⟩
  split at hstep
  · obtain rfl := Option.some.inj hstep
    refine ⟨[k], h.append rfl (htouched [k]) hreach id fun _ before j after heq => ?_, rfl⟩
    obtain ⟨rfl, rfl, rfl⟩ : before = [] ∧ j = k ∧ after = [] := by
      rw [eq_comm, List.append_eq_singleton_iff] at heq
      simpa [List.cons.injEq, and_assoc] using heq
    exact Or.inr ⟨parent, hparent, Or.inr (hscouted _ _ ⟨j, .refl, hparent⟩)⟩
  · obtain rfl := Option.some.inj hstep
    refine ⟨[], h.append (List.append_nil _).symm (htouched []) hreach id ?_, rfl⟩
    exact fun _ before j after hnil => absurd hnil (by simp)

/-- Resolving one entry: progress, and an entry that must be satisfied is, if nothing is
unresolved. -/
theorem resolveEntry_sound {entry : CompoundDepend} (hentry : entry ∈ (db.pkg pkg).entries)
    {r r' : Resolution} {new : List PkgId} (h : Progress q db marks pkg vec r new)
    (hstep : resolveEntry q db fetch pkg r entry = some r') :
    ∃ more, Progress q db marks pkg vec r' (new ++ more) ∧
      (r'.unresolved = [] → r.unresolved = []) ∧
      (r'.unresolved = [] → entry.isHard →
        ∃ depend ∈ entry.possibilities, MetBy db (pkg :: r'.unsatisfied) depend) := by
  rcases resolveEntry_cases hentry hstep with ⟨hgreedy, -, hloop⟩ | ⟨-, rfl, hfound⟩ |
    ⟨-, rfl, htype⟩ | ⟨-, rfl⟩ | ⟨satisfier, -, hsatisfier, hcase⟩
  · -- a greedy entry need not be met
    have hinv := foldlM_invariant (P := fun _ r' => ∃ more,
      Progress q db marks pkg vec r' (new ++ more) ∧ r'.unresolved = r.unresolved) hloop
      ⟨[], by rwa [List.append_nil], rfl⟩ fun done k b b' hk ⟨more, hb, hunres⟩ hscout => by
        obtain ⟨more', hb', hunres'⟩ := scoutPkg_sound hfetch hentry hgreedy hk hb hscout
        exact ⟨more ++ more', by rwa [← List.append_assoc], hunres'.trans hunres⟩
    obtain ⟨more, hmore, hunres⟩ := hinv
    refine ⟨more, hmore, fun hnil => hunres ▸ hnil, fun _ hhard => ?_⟩
    rw [CompoundDepend.isHard, hgreedy] at hhard
    exact absurd hhard (by decide)
  · exact ⟨[], by rwa [List.append_nil], id, fun _ _ => findInstalled_eq_true hfound _⟩
  · refine ⟨[], by rwa [List.append_nil], id, fun _ hhard => ?_⟩
    rw [CompoundDepend.isHard] at hhard
    rcases htype with htype | htype <;> rw [htype] at hhard <;> exact absurd hhard (by decide)
  · refine ⟨[], ?_, fun hnil => absurd hnil (by simp), fun hnil => absurd hnil (by simp)⟩
    rw [List.append_nil]
    exact h.same rfl rfl fun hnil => absurd hnil (by simp)
  · rcases hcase with ⟨rfl, hself | hpresent⟩ | ⟨hnext, nested, hnested, rfl⟩
    · refine ⟨[], by rwa [List.append_nil], id, fun _ _ => ?_⟩
      exact metBy_of_findSatisfier hsatisfier (.refl _) (hself ▸ List.mem_cons_self)
    · refine ⟨[], by rwa [List.append_nil], id, fun _ _ => ?_⟩
      obtain ⟨j, hj, hsame⟩ := isPkgInPkgVec_eq_true hpresent
      exact metBy_of_findSatisfier hsatisfier hsame (List.mem_cons_of_mem _ hj)
    · obtain ⟨nestedNew, hprogress, hmet⟩ := hfetch _ _ _ _ hnested
      have hunsat : nested.unsatisfied = r.unsatisfied ++ satisfier :: nestedNew := by
        rw [hprogress.unsatisfied, List.append_assoc, List.singleton_append]
      have hmem : satisfier ∈ nested.unsatisfied := by
        rw [hunsat]
        exact List.mem_append_right _ List.mem_cons_self
      have hsub : satisfier :: nested.unsatisfied ⊆ pkg :: nested.unsatisfied :=
        List.cons_subset.mpr ⟨List.mem_cons_of_mem _ hmem, List.subset_cons_self _ _⟩
      have hunres : r.unresolved ++ nested.unresolved = [] →
          r.unresolved = [] ∧ nested.unresolved = [] := List.append_eq_nil_iff.mp
      refine ⟨satisfier :: nestedNew, ?_, fun hnil => (hunres hnil).1, fun _ _ => ?_⟩
      · refine h.append hunsat (fun a ha => ?_) (fun a ha => ?_) (fun hnil => (hunres hnil).1)
          fun hnil before j after heq => ?_
        · refine (hprogress.touched a ha).imp_right fun ht => ht.mono ?_
          exact List.Subset.trans (List.subset_append_right _ _) (List.subset_cons_self _ _)
        · exact (hprogress.reach a ha).imp_right fun hreach => hreach.of_next hnext
        · cases before with
          | nil =>
              -- the satisfier itself: its own call has looked at it, unless its name was marked
              obtain ⟨rfl, rfl⟩ := List.cons.inj heq
              obtain ⟨hparent, -⟩ := findSatisfier_eq_some hsatisfier
              obtain ⟨a, ha⟩ := Option.isSome_iff_exists.mp hparent
              by_cases hmark : r.marks a = 0
              · exact Or.inl ((hmet (hunres hnil).2 a ha hmark).mono hsub)
              · exact Or.inr ⟨a, ha, Or.inl hmark⟩
          | cons x before =>
              obtain ⟨rfl, htail⟩ := List.cons.inj heq
              rcases hprogress.accounted (hunres hnil).2 before j after htail with hj | hj
              · exact Or.inl (hj.mono hsub)
              · obtain ⟨a, ha, hmark | ht⟩ := hj
                · exact Or.inr ⟨a, ha, Or.inl hmark⟩
                · refine Or.inr ⟨a, ha, Or.inr (ht.mono ?_)⟩
                  exact List.Subset.trans (List.subset_append_right _ _) (List.subset_cons_self _ _)
      · exact metBy_of_findSatisfier hsatisfier (.refl _) (List.mem_cons_of_mem _ hmem)

end Steps

/-- **Every call keeps its guarantees**, whatever is marked and whatever is in the vector. -/
theorem fetch_sound (fuel : Nat) :
    FetchSound q db (pkgHashFetchUnsatisfiedDependencies q db fuel) := by
  induction fuel with
  | zero => exact fun _ _ _ _ h => absurd h (by simp [pkgHashFetchUnsatisfiedDependencies])
  | succ fuel ih =>
      intro marks pkg vec r h
      have hstay : Progress q db marks pkg vec { marks, unsatisfied := vec } [] :=
        ⟨(List.append_nil _).symm, fun _ ha => Or.inl ha, fun _ ha => Or.inl ha,
          fun _ before j after hnil => absurd hnil (by simp)⟩
      unfold pkgHashFetchUnsatisfiedDependencies at h
      cases hparent : (db.pkg pkg).parent with
      | none =>
          rw [hparent] at h
          obtain rfl := Option.some.inj h
          exact ⟨[], hstay, fun _ a ha => absurd ha (by simp)⟩
      | some abPkg =>
          simp only [hparent] at h
          by_cases hmark : marks abPkg ≠ 0
          · rw [if_pos hmark] at h
            obtain rfl := Option.some.inj h
            refine ⟨[], hstay, fun _ a ha hzero => absurd hzero ?_⟩
            rwa [← Option.some.inj ha]
          rw [if_neg hmark] at h
          -- from here on the package itself is marked
          have hstart : Progress q db marks pkg vec
              { marks := Function.update marks abPkg 1, unsatisfied := vec } [] := by
            have hupdate : ∀ a, Function.update marks abPkg 1 a ≠ 0 → marks a ≠ 0 ∨ a = abPkg := by
              intro a ha
              by_cases haa : a = abPkg
              · exact Or.inr haa
              · rw [Function.update_of_ne haa] at ha
                exact Or.inl ha
            refine ⟨(List.append_nil _).symm, fun a ha => ?_, fun a ha => ?_,
              fun _ before j after hnil => absurd hnil (by simp)⟩
            · refine (hupdate a ha).imp_right fun haa => ?_
              rw [haa]
              exact Or.inl ⟨pkg, List.mem_cons_self, hparent⟩
            · refine (hupdate a ha).imp_right fun haa => ?_
              rw [haa]
              exact ⟨pkg, .refl, hparent⟩
          split at h
          · rename_i hcount
            obtain rfl := Option.some.inj h
            refine ⟨[], hstart, fun _ _ _ _ entry hentry => ?_⟩
            rw [Pkg.entries, hcount, List.take_zero] at hentry
            exact absurd hentry List.not_mem_nil
          · simp only [Option.bind_eq_bind, Option.bind_eq_some_iff, Option.some.injEq] at h
            obtain ⟨r, hloop, rfl⟩ := h
            have hinv := foldlM_invariant (P := fun done r => ∃ new,
              Progress q db marks pkg vec r new ∧ (r.unresolved = [] → ∀ entry ∈ done,
                entry.isHard → ∃ depend ∈ entry.possibilities,
                  MetBy db (pkg :: r.unsatisfied) depend)) hloop
              ⟨[], hstart, fun _ _ hentry => absurd hentry List.not_mem_nil⟩
              fun done entry b b' hentry ⟨new, hb, hdone⟩ hstep => by
                obtain ⟨more, hb', hunres, hmet⟩ := resolveEntry_sound ih hentry hb hstep
                refine ⟨new ++ more, hb', fun hnil e he hhard => ?_⟩
                rcases List.mem_append.mp he with he | he
                · obtain ⟨depend, hdepend, hm⟩ := hdone (hunres hnil) e he hhard
                  refine ⟨depend, hdepend, hm.mono ?_⟩
                  rw [hb'.unsatisfied, hb.unsatisfied, ← List.append_assoc]
                  exact List.cons_subset_cons _ (List.subset_append_left _ _)
                · obtain rfl := List.mem_singleton.mp he
                  exact hmet hnil hhard
            obtain ⟨new, hprogress, hmet⟩ := hinv
            exact ⟨new, hprogress.same rfl rfl id, fun hnil _ _ _ => hmet hnil⟩

/-! ## From cleared marks -/

/-- **What a whole resolution guarantees**: each package it returns, and `pkg` itself, has its
entries met, or another version of it is among the packages before it, or it was come across while
scouting a greedy entry of one of these. -/
theorem fetch_closure {fuel : Nat} {pkg : PkgId} {r : Resolution}
    (hparent : (db.pkg pkg).parent.isSome)
    (h : pkgHashFetchUnsatisfiedDependencies q db fuel (fun _ => 0) pkg [] = some r)
    (hnil : r.unresolved = []) {before after : List PkgId} {i : PkgId}
    (hi : pkg :: r.unsatisfied = before ++ i :: after) :
    DependsMet db (pkg :: r.unsatisfied) i ∨
      (∃ j ∈ before, (db.pkg j).parent = (db.pkg i).parent) ∨
      ∃ a, (db.pkg i).parent = some a ∧ ScoutedFrom q db before a := by
  obtain ⟨new, hprogress, hmet⟩ := fetch_sound fuel _ _ _ _ h
  cases before with
  | nil =>
      obtain ⟨rfl, -⟩ := List.cons.inj hi
      obtain ⟨a, ha⟩ := Option.isSome_iff_exists.mp hparent
      exact Or.inl (hmet hnil a ha rfl)
  | cons x before =>
      obtain ⟨rfl, hrest⟩ := List.cons.inj hi
      rw [hprogress.unsatisfied, List.nil_append] at hrest
      rcases hprogress.accounted hnil before i after hrest with hi | ⟨a, ha, hmark | ht | ht⟩
      · exact Or.inl hi
      · exact absurd rfl hmark
      · obtain ⟨j, hj, hja⟩ := ht
        exact Or.inr (Or.inl ⟨j, hj, hja.trans ha.symm⟩)
      · exact Or.inr (Or.inr ⟨a, ha, ht⟩)

/-- What is returned is closed: each entry that must be satisfied has an alternative with a candidate
that satisfies it and is installed or among the packages returned. -/
def ClosureSound (q : Qsort) (db : Database) (pkg : PkgId) : Prop :=
  ∀ fuel r, pkgHashFetchUnsatisfiedDependencies q db fuel (fun _ => 0) pkg [] = some r →
    r.unresolved = [] → ∀ i ∈ pkg :: r.unsatisfied, ∀ entry ∈ (db.pkg i).entries, entry.isHard →
      ∃ depend ∈ entry.possibilities, ∃ t ∈ matchingPkgs db depend.pkg,
        versionConstraintsSatisfied depend (db.pkg t) = true ∧
          ((db.pkg t).isInstalled = true ∨ t ∈ pkg :: r.unsatisfied)

/-- A stanza of a feed with a `Depends` field. -/
def dependsStanza (name version : CStr) (depends : List CStr) : ParsedPkg :=
  ⟨{ parseVersion pkgNew version with
      name, architecture := some "all".toList, archPriority := 1, dependsStr := depends
      dependsCount := depends.length },
    ⟨rfl, rfl, rfl, rfl, rfl, rfl, rfl, rfl, rfl, rfl, rfl, rfl⟩⟩

/-- The database after a feed is read. -/
def feedDatabase (stanzas : List ParsedPkg) : Database :=
  stanzas.zipIdx.foldl (fun db x => Insertion.run ⟨x.2, x.1, false⟩ db) emptyDatabase

/-- `p` needs two versions of `a`, the second of which needs a `b` that nobody provides. -/
def twoVersions : Database :=
  feedDatabase [dependsStanza "p".toList "1".toList ["a (= 1)".toList, "a (= 2)".toList],
    dependsStanza "a".toList "1".toList [], dependsStanza "a".toList "2".toList ["b (>= 9)".toList]]

/-- The resolution of `p` returns. -/
theorem twoVersions_returns :
    (pkgHashFetchUnsatisfiedDependencies insertionQsort twoVersions 3 (fun _ => 0) 0 []).isSome := by
  decide +kernel

/-- It returns both versions of `a` and nothing unresolved, since the second is not looked at. -/
theorem twoVersions_result :
    let r := (pkgHashFetchUnsatisfiedDependencies insertionQsort twoVersions 3 (fun _ => 0) 0
      []).get twoVersions_returns
    r.unresolved = [] ∧ r.unsatisfied = [1, 2] := by
  decide +kernel

/-- The second version of `a` is returned although nothing satisfies what it needs. -/
theorem not_closureSound_twoVersions : ¬ ClosureSound insertionQsort twoVersions 0 := by
  intro h
  have hentry : (twoVersions.pkg 2).entries = [{ type := .depend, possibilities :=
      [{ constraint := .laterEqual, version := some "9".toList, pkg := "b".toList }] }] := by
    decide +kernel
  have hnone : matchingPkgs twoVersions "b".toList = [] := by decide +kernel
  obtain ⟨hunres, hunsat⟩ := twoVersions_result
  obtain ⟨depend, hdepend, t, ht, -⟩ := h 3 _ (Option.some_get twoVersions_returns).symm hunres 2
    (by rw [hunsat]; decide) _ (by rw [hentry]; exact List.mem_singleton_self _) (Or.inr rfl)
  obtain rfl := List.mem_singleton.mp hdepend
  rw [hnone] at ht
  exact absurd ht List.not_mem_nil

/-- The guarantee at the second version of `a`: the first one comes before it. -/
theorem fetch_closure_twoVersions :
    let r := (pkgHashFetchUnsatisfiedDependencies insertionQsort twoVersions 3 (fun _ => 0) 0
      []).get twoVersions_returns
    DependsMet twoVersions (0 :: r.unsatisfied) 2 ∨
      (∃ j ∈ [0, 1], (twoVersions.pkg j).parent = (twoVersions.pkg 2).parent) ∨
      ∃ a, (twoVersions.pkg 2).parent = some a ∧
        ScoutedFrom insertionQsort twoVersions [0, 1] a :=
  fetch_closure (by decide +kernel) (Option.some_get twoVersions_returns).symm
    twoVersions_result.1 (by rw [twoVersions_result.2]; rfl)

end FirmwareTools.Opkg

import FirmwareTools.Opkg.Candidate
import Mathlib.Data.Finset.Card
import Mathlib.Logic.Relation

/-! # Resolving dependencies

`pkg_hash_fetch_unsatisfied_dependencies` walks the dependency graph from a package and appends to a
vector what has to be installed with it. Each abstract package it enters is marked
`dependencies_checked` and not entered again, whichever of its versions is met the second time.

* **`fetch_congr`** — a resolution sees only the marks of the abstract packages it can reach;
* **`fetch_stable`** — with more fuel than there are abstract packages to mark it runs to its end. -/

namespace FirmwareTools.Opkg

/-- The `dependencies_checked` fields of the abstract packages. -/
abbrev Marks := AbstractPkgId → Nat

/-- What a call leaves behind: the marks, the vector, the names that could not be resolved, none of
them for `NULL`, and the returned count. -/
structure Resolution where
  marks : Marks
  unsatisfied : List PkgId
  unresolved : List CStr := []
  rc : Nat := 0

/-- `pkg_installed_and_constraint_satisfied` -/
def pkgInstalledAndConstraintSatisfied (db : Database) (depend : Depend) (pkg : PkgId) : Bool :=
  (db.pkg pkg).isInstalled && versionConstraintsSatisfied depend (db.pkg pkg)

/-- `pkg_constraint_satisfied` -/
def pkgConstraintSatisfied (db : Database) (depend : Depend) (pkg : PkgId) : Bool :=
  versionConstraintsSatisfied depend (db.pkg pkg)

/-- `is_pkg_in_pkg_vec`. Comparing a missing architecture is a `NULL` dereference. -/
def isPkgInPkgVec (db : Database) (pkg : PkgId) : List PkgId → Option Bool
  | [] => some false
  | j :: vec =>
    if (db.pkg pkg).name = (db.pkg j).name ∧ pkgCompareVersions (db.pkg pkg) (db.pkg j) = 0 then do
      let architecture ← (db.pkg pkg).architecture
      let architecture' ← (db.pkg j).architecture
      if architecture = architecture' then some true else isPkgInPkgVec db pkg vec
    else isPkgInPkgVec db pkg vec

/-- The best candidate for an alternative, dropped again if it does not meet the condition it was
asked for. -/
def fetchSatisfying (q : Qsort) (db : Database) (constraintFcn : Depend → PkgId → Bool)
    (depend : Depend) : Option (Option PkgId) := do
  let satisfyingPkg ← pkgHashFetchBestInstallationCandidate q db depend.pkg
    (constraintFcn depend) true
  some (satisfyingPkg.filter (constraintFcn depend))

/-- The search for an installed package among the alternatives: `found`. -/
def findInstalled (q : Qsort) (db : Database) : List Depend → Option Bool
  | [] => some false
  | depend :: possibilities => do
    match ← fetchSatisfying q db (pkgInstalledAndConstraintSatisfied db) depend with
    | some _ => some true
    | none => findInstalled q db possibilities

/-- The search for a package to install among the alternatives: `satisfier_entry_pkg`. A
recommendation does not override the user's wish to remove a package. -/
def findSatisfier (q : Qsort) (db : Database) (type : DependType) :
    List Depend → Option (Option PkgId)
  | [] => some none
  | depend :: possibilities => do
    match ← fetchSatisfying q db (pkgConstraintSatisfied db) depend with
    | some satisfyingPkg =>
      if (type = .recommend ∨ type = .suggest) ∧ ((db.pkg satisfyingPkg).stateWant = .deinstall ∨
          (db.pkg satisfyingPkg).stateWant = .purge) then
        findSatisfier q db type possibilities
      else some (some satisfyingPkg)
    | none => findSatisfier q db type possibilities

/-- The packages a greedy entry looks at: those of every provider of every alternative. -/
def greedyScouts (db : Database) (entry : CompoundDepend) : List PkgId :=
  entry.possibilities.flatMap fun depend =>
    (db.abstractPkg depend.pkg).providedBy.flatMap db.filed

variable (q : Qsort) (db : Database)

/-- One package of a greedy entry: it is taken if it needs nothing that is not already marked for
installation. What its own resolution marks stays marked in any case. -/
def scoutPkg (fetch : Marks → PkgId → List PkgId → Option Resolution) (r : Resolution)
    (pkgScout : PkgId) : Option Resolution := do
  if (db.pkg pkgScout).stateWant = .install then some r
  else
    let parent ← (db.pkg pkgScout).parent
    if r.marks parent ≠ 0 then some r
    else if ← isPkgInPkgVec db pkgScout r.unsatisfied then some r
    else
      let tmp ← fetch r.marks pkgScout []
      if tmp.unresolved = [] ∧
          ∀ p ∈ tmp.unsatisfied.take tmp.rc, (db.pkg p).stateWant = .install then
        some { r with marks := tmp.marks, unsatisfied := r.unsatisfied ++ [pkgScout] }
      else some { r with marks := tmp.marks }

/-- One entry of the dependencies of `pkg`. -/
def resolveEntry (fetch : Marks → PkgId → List PkgId → Option Resolution) (pkg : PkgId)
    (r : Resolution) (entry : CompoundDepend) : Option Resolution := do
  if entry.type = .greedyDepend then (greedyScouts db entry).foldlM (scoutPkg db fetch) r
  else if ← findInstalled q db entry.possibilities then some r
  else
    match ← findSatisfier q db entry.type entry.possibilities with
    | none =>
      if entry.type = .recommend ∨ entry.type = .suggest then some r
      else some { r with unresolved := r.unresolved ++ [compoundDependStr entry] }
    | some satisfier =>
      if entry.type = .suggest ∨ satisfier = pkg then some r
      else if ← isPkgInPkgVec db satisfier r.unsatisfied then some r
      else
        let new ← fetch r.marks satisfier (r.unsatisfied ++ [satisfier])
        some { r with
          marks := new.marks, unsatisfied := new.unsatisfied
          unresolved := r.unresolved ++ new.unresolved }

/-- The entries of the dependencies of a package that a resolution goes through. -/
def Pkg.entries (p : Pkg) : List CompoundDepend :=
  p.depends.take (p.preDependsCount + p.dependsCount + p.recommendsCount + p.suggestsCount)

/-- `pkg_hash_fetch_unsatisfied_dependencies`, with the depth of its recursion as fuel. `none` is a
`NULL` dereference, or fuel that does not suffice. -/
def pkgHashFetchUnsatisfiedDependencies : Nat → Marks → PkgId → List PkgId → Option Resolution
  | 0, _, _, _ => none
  | fuel + 1, marks, pkg, unsatisfied =>
    match (db.pkg pkg).parent with
    | none => some { marks, unsatisfied }
    | some abPkg =>
      if marks abPkg ≠ 0 then some { marks, unsatisfied }
      else if (db.pkg pkg).preDependsCount + (db.pkg pkg).dependsCount +
          (db.pkg pkg).recommendsCount + (db.pkg pkg).suggestsCount = 0 then
        some { marks := Function.update marks abPkg 1, unsatisfied }
      else do
        let r ← (db.pkg pkg).entries.foldlM
          (resolveEntry q db (pkgHashFetchUnsatisfiedDependencies fuel) pkg)
          { marks := Function.update marks abPkg 1, unsatisfied }
        some { r with rc := r.unsatisfied.length }

/-! ## What a resolution can reach -/

/-- The packages the resolution of `pkg` may go on with. -/
def Next (pkg next : PkgId) : Prop :=
  ∃ entry ∈ (db.pkg pkg).entries,
    (entry.type = .greedyDepend ∧ next ∈ greedyScouts db entry) ∨
    (entry.type ≠ .greedyDepend ∧ entry.type ≠ .suggest ∧
      findInstalled q db entry.possibilities = some false ∧
      findSatisfier q db entry.type entry.possibilities = some (some next))

/-- A package the resolution of `pkg` may come to. -/
def Reach : PkgId → PkgId → Prop := Relation.ReflTransGen (Next q db)

/-- An abstract package the resolution of `pkg` may mark. -/
def ReachAbstract (pkg : PkgId) (a : AbstractPkgId) : Prop :=
  ∃ next, Reach q db pkg next ∧ (db.pkg next).parent = some a

variable {q : Qsort} {db : Database}

theorem ReachAbstract.of_next {pkg next : PkgId} {a : AbstractPkgId} (h : Next q db pkg next)
    (ha : ReachAbstract q db next a) : ReachAbstract q db pkg a := by
  obtain ⟨k, hk, hparent⟩ := ha
  exact ⟨k, Relation.ReflTransGen.head h hk, hparent⟩

/-- The two ways a resolved entry leads on: what `resolveEntry` returns, in the terms of `Next`. -/
theorem resolveEntry_cases {fetch : Marks → PkgId → List PkgId → Option Resolution} {pkg : PkgId}
    {r r' : Resolution} {entry : CompoundDepend} (hentry : entry ∈ (db.pkg pkg).entries)
    (h : resolveEntry q db fetch pkg r entry = some r') :
    (entry.type = .greedyDepend ∧ (∀ k ∈ greedyScouts db entry, Next q db pkg k) ∧
      (greedyScouts db entry).foldlM (scoutPkg db fetch) r = some r') ∨
    (entry.type ≠ .greedyDepend ∧ r' = r ∧ findInstalled q db entry.possibilities = some true) ∨
    (entry.type ≠ .greedyDepend ∧ r' = r ∧ (entry.type = .recommend ∨ entry.type = .suggest)) ∨
    (entry.type ≠ .greedyDepend ∧
      r' = { r with unresolved := r.unresolved ++ [compoundDependStr entry] }) ∨
    ∃ satisfier, entry.type ≠ .greedyDepend ∧
      findSatisfier q db entry.type entry.possibilities = some (some satisfier) ∧
      ((r' = r ∧ (satisfier = pkg ∨ isPkgInPkgVec db satisfier r.unsatisfied = some true)) ∨
        (Next q db pkg satisfier ∧
          ∃ new, fetch r.marks satisfier (r.unsatisfied ++ [satisfier]) = some new ∧
          r' = { r with
            marks := new.marks, unsatisfied := new.unsatisfied
            unresolved := r.unresolved ++ new.unresolved })) := by
  unfold resolveEntry at h
  by_cases hgreedy : entry.type = .greedyDepend
  · rw [if_pos hgreedy] at h
    exact Or.inl ⟨hgreedy, fun k hk => ⟨entry, hentry, Or.inl ⟨hgreedy, hk⟩⟩, h⟩
  rw [if_neg hgreedy] at h
  simp only [Option.bind_eq_bind, Option.bind_eq_some_iff] at h
  obtain ⟨found, hfound, h⟩ := h
  cases found with
  | true =>
      rw [if_pos rfl, Option.some.injEq] at h
      exact Or.inr (Or.inl ⟨hgreedy, h.symm, hfound⟩)
  | false =>
      rw [if_neg Bool.false_ne_true, Option.bind_eq_some_iff] at h
      obtain ⟨entryPkg, hentryPkg, h⟩ := h
      cases entryPkg with
      | none =>
          simp only at h
          split at h <;> rw [Option.some.injEq] at h
          · exact Or.inr (Or.inr (Or.inl ⟨hgreedy, h.symm, ‹_›⟩))
          · exact Or.inr (Or.inr (Or.inr (Or.inl ⟨hgreedy, h.symm⟩)))
      | some satisfier =>
          simp only at h
          split at h
          · rename_i hskip
            rw [Option.some.injEq] at h
            rcases hskip with hsuggest | hself
            · exact Or.inr (Or.inr (Or.inl ⟨hgreedy, h.symm, Or.inr hsuggest⟩))
            · exact Or.inr (Or.inr (Or.inr (Or.inr
                ⟨satisfier, hgreedy, hentryPkg, Or.inl ⟨h.symm, Or.inl hself⟩⟩)))
          · rename_i hskip
            rw [not_or] at hskip
            rw [Option.bind_eq_some_iff] at h
            obtain ⟨present, hpresent, h⟩ := h
            refine Or.inr (Or.inr (Or.inr (Or.inr ⟨satisfier, hgreedy, hentryPkg, ?_⟩)))
            cases present with
            | true =>
                rw [if_pos rfl, Option.some.injEq] at h
                exact Or.inl ⟨h.symm, Or.inr hpresent⟩
            | false =>
                rw [if_neg Bool.false_ne_true, Option.bind_eq_some_iff] at h
                obtain ⟨new, hnew, h⟩ := h
                rw [Option.some.injEq] at h
                exact Or.inr ⟨⟨entry, hentry, Or.inr ⟨hgreedy, hskip.1, hfound, hentryPkg⟩⟩,
                  new, hnew, h.symm⟩

/-! ## Which marks a resolution sees -/

/-- Two resolutions that differ at most in their marks, as far as `S` lets these differ. -/
structure Agree (S : Marks → Marks → Prop) (r r' : Resolution) : Prop where
  marks : S r.marks r'.marks
  unsatisfied : r.unsatisfied = r'.unsatisfied
  unresolved : r.unresolved = r'.unresolved
  rc : r.rc = r'.rc

/-- On the packages `root` reaches, from marks related by `S` the two resolutions agree. -/
def FetchRel (q : Qsort) (db : Database) (root : PkgId) (S : Marks → Marks → Prop)
    (fetch fetch' : Marks → PkgId → List PkgId → Option Resolution) : Prop :=
  ∀ next, Reach q db root next → ∀ marks marks', S marks marks' →
    ∀ vec, Matching (Agree S) (fetch marks next vec) (fetch' marks' next vec)

section Rel

variable {root : PkgId} {S : Marks → Marks → Prop}
  {fetch fetch' : Marks → PkgId → List PkgId → Option Resolution}
  (hS : ∀ marks marks', S marks marks' → ∀ a, ReachAbstract q db root a → marks a = marks' a)
  (hfetch : FetchRel q db root S fetch fetch')
include hS hfetch

theorem scoutPkg_rel {k : PkgId} (hk : Reach q db root k) {r r' : Resolution}
    (h : Agree S r r') :
    Matching (Agree S) (scoutPkg db fetch r k) (scoutPkg db fetch' r' k) := by
  unfold scoutPkg
  split
  · exact h
  · cases hparent : (db.pkg k).parent with
    | none => trivial
    | some parent =>
        simp only [Option.bind_eq_bind, Option.bind_some, hS _ _ h.marks parent ⟨k, hk, hparent⟩,
          h.unsatisfied]
        split
        · exact h
        · cases isPkgInPkgVec db k r'.unsatisfied with
          | none => trivial
          | some present =>
              cases present with
              | true => exact h
              | false =>
                  rw [Option.bind_some, Option.bind_some, if_neg Bool.false_ne_true,
                    if_neg Bool.false_ne_true]
                  refine Matching.bind (hfetch k hk _ _ h.marks []) fun tmp tmp' htmp => ?_
                  rw [htmp.unresolved, htmp.unsatisfied, htmp.rc]
                  split
                  · exact ⟨htmp.marks, rfl, h.unresolved, h.rc⟩
                  · exact ⟨htmp.marks, rfl, h.unresolved, h.rc⟩

theorem resolveEntry_rel {pkg : PkgId} (hpkg : Reach q db root pkg) {entry : CompoundDepend}
    (hentry : entry ∈ (db.pkg pkg).entries) {r r' : Resolution} (h : Agree S r r') :
    Matching (Agree S) (resolveEntry q db fetch pkg r entry)
      (resolveEntry q db fetch' pkg r' entry) := by
  unfold resolveEntry
  by_cases hgreedy : entry.type = .greedyDepend
  · rw [if_pos hgreedy, if_pos hgreedy]
    exact foldlM_rel (fun k hk b c hbc => scoutPkg_rel hS hfetch
      (hpkg.tail ⟨entry, hentry, Or.inl ⟨hgreedy, hk⟩⟩) hbc) h
  rw [if_neg hgreedy, if_neg hgreedy]
  cases hfound : findInstalled q db entry.possibilities with
  | none => trivial
  | some found =>
      cases found with
      | true => exact h
      | false =>
          simp only [Option.bind_eq_bind, Option.bind_some, Bool.false_eq_true, if_false]
          cases hsatisfier : findSatisfier q db entry.type entry.possibilities with
          | none => trivial
          | some entryPkg =>
              cases entryPkg with
              | none =>
                  simp only [Option.bind_some]
                  split
                  · exact h
                  · exact ⟨h.marks, h.unsatisfied, by rw [h.unresolved], h.rc⟩
              | some satisfier =>
                  simp only [Option.bind_some, h.unsatisfied]
                  split
                  · exact h
                  · rename_i hskip
                    rw [not_or] at hskip
                    have hreach : Reach q db root satisfier := hpkg.tail
                      ⟨entry, hentry, Or.inr ⟨hgreedy, hskip.1, hfound, hsatisfier⟩⟩
                    cases isPkgInPkgVec db satisfier r'.unsatisfied with
                    | none => trivial
                    | some present =>
                        cases present with
                        | true => exact h
                        | false =>
                            rw [Option.bind_some, Option.bind_some, if_neg Bool.false_ne_true,
                              if_neg Bool.false_ne_true]
                            refine Matching.bind (hfetch _ hreach _ _ h.marks _)
                              fun new new' hnew => ?_
                            exact ⟨hnew.marks, hnew.unsatisfied,
                              by rw [h.unresolved, hnew.unresolved], h.rc⟩

/-- A call goes on as its entries do, once the marks are updated. -/
theorem fetch_rel {S' : Marks → Marks → Prop} (hSS' : ∀ marks marks', S marks marks' → S' marks marks')
    (hS' : ∀ marks marks', S' marks marks' →
      ∀ a, ReachAbstract q db root a → marks a = marks' a)
    (hupdate : ∀ marks marks' a, S' marks marks' → ReachAbstract q db root a → marks a = 0 →
      S (Function.update marks a 1) (Function.update marks' a 1))
    {fuel fuel' : Nat} (h : fetch = pkgHashFetchUnsatisfiedDependencies q db fuel)
    (h' : fetch' = pkgHashFetchUnsatisfiedDependencies q db fuel') :
    FetchRel q db root S' (pkgHashFetchUnsatisfiedDependencies q db (fuel + 1))
      (pkgHashFetchUnsatisfiedDependencies q db (fuel' + 1)) := by
  intro pkg hpkg marks marks' hmarks vec
  unfold pkgHashFetchUnsatisfiedDependencies
  rw [← h, ← h']
  cases hparent : (db.pkg pkg).parent with
  | none => exact ⟨hmarks, rfl, rfl, rfl⟩
  | some abPkg =>
      have habPkg : ReachAbstract q db root abPkg := ⟨pkg, hpkg, hparent⟩
      simp only [← hS' _ _ hmarks abPkg habPkg]
      split
      · exact ⟨hmarks, rfl, rfl, rfl⟩
      · rename_i hmark
        have hnew := hupdate _ _ _ hmarks habPkg (not_not.mp hmark)
        split
        · exact ⟨hSS' _ _ hnew, rfl, rfl, rfl⟩
        · refine Matching.bind (foldlM_rel (fun entry hentry b c hbc =>
            resolveEntry_rel hS hfetch hpkg hentry hbc) ⟨hnew, rfl, rfl, rfl⟩) fun r r' hr => ?_
          exact ⟨hSS' _ _ hr.marks, hr.unsatisfied, hr.unresolved, by rw [hr.unsatisfied]⟩

end Rel

/-- Marks that agree on the abstract packages in reach of `root`. -/
def MarksAgree (q : Qsort) (db : Database) (root : PkgId) (marks marks' : Marks) : Prop :=
  ∀ a, ReachAbstract q db root a → marks a = marks' a

/-- **A resolution sees only the marks it can reach**: from marks that agree on the abstract packages
in reach it returns the same. -/
theorem fetch_congr (root : PkgId) (fuel : Nat) :
    FetchRel q db root (MarksAgree q db root) (pkgHashFetchUnsatisfiedDependencies q db fuel)
      (pkgHashFetchUnsatisfiedDependencies q db fuel) := by
  have hupdate : ∀ (marks marks' : Marks) (a : AbstractPkgId), MarksAgree q db root marks marks' →
      MarksAgree q db root (Function.update marks a 1) (Function.update marks' a 1) := by
    intro marks marks' a h b hb
    by_cases hba : b = a
    · rw [hba, Function.update_self, Function.update_self]
    · rw [Function.update_of_ne hba, Function.update_of_ne hba, h b hb]
  induction fuel with
  | zero => exact fun _ _ _ _ _ _ => trivial
  | succ fuel ih =>
      exact fetch_rel (fun _ _ h => h) ih (fun _ _ h => h) (fun _ _ h => h)
        (fun marks marks' a h _ _ => hupdate marks marks' a h) rfl rfl

/-- The abstract packages of `U` that are not marked yet. -/
def unmarked (U : Finset AbstractPkgId) (marks : Marks) : Finset AbstractPkgId :=
  U.filter fun a => marks a = 0

theorem card_unmarked_update {U : Finset AbstractPkgId} {marks : Marks} {a : AbstractPkgId}
    (ha : a ∈ U) (hmark : marks a = 0) :
    (unmarked U (Function.update marks a 1)).card < (unmarked U marks).card := by
  refine Finset.card_lt_card ⟨fun b hb => ?_, fun hsub => ?_⟩
  · rw [unmarked, Finset.mem_filter] at hb ⊢
    have hba : b ≠ a := by
      rintro rfl
      exact absurd hb.2 (by rw [Function.update_self]; decide)
    rwa [Function.update_of_ne hba] at hb
  · have := hsub (Finset.mem_filter.mpr ⟨ha, hmark⟩)
    rw [unmarked, Finset.mem_filter, Function.update_self] at this
    exact absurd this.2 (by decide)

/-- **A resolution runs to its end**: with more fuel than there are unmarked abstract packages in
reach, more fuel changes nothing. -/
theorem fetch_stable {root : PkgId} {U : Finset AbstractPkgId}
    (hU : ∀ a, ReachAbstract q db root a → a ∈ U) {marks : Marks} {fuel : Nat}
    (hfuel : (unmarked U marks).card < fuel) (more : Nat) (vec : List PkgId) :
    pkgHashFetchUnsatisfiedDependencies q db (fuel + more) marks root vec
      = pkgHashFetchUnsatisfiedDependencies q db fuel marks root vec := by
  let S := fun fuel (marks marks' : Marks) => marks = marks' ∧ (unmarked U marks).card < fuel
  have hS : ∀ fuel marks marks', S fuel marks marks' →
      ∀ a, ReachAbstract q db root a → marks a = marks' a :=
    fun _ _ _ h a _ => by rw [h.1]
  have hrel : FetchRel q db root (S fuel) (pkgHashFetchUnsatisfiedDependencies q db (fuel + more))
      (pkgHashFetchUnsatisfiedDependencies q db fuel) := by
    clear hfuel
    induction fuel with
    | zero => exact fun _ _ _ _ h => absurd h.2 (Nat.not_lt_zero _)
    | succ fuel ih =>
        rw [Nat.add_right_comm fuel 1 more]
        refine fetch_rel (hS fuel) ih (fun _ _ h => ⟨h.1, Nat.lt_succ_of_lt h.2⟩) (hS (fuel + 1))
          (fun marks marks' a h ha hmark => ⟨by rw [h.1], ?_⟩) rfl rfl
        have := card_unmarked_update (hU a ha) hmark
        have := h.2
        omega
  rcases (hrel root .refl marks marks ⟨rfl, hfuel⟩ vec).of_eq with ⟨h, h'⟩ | ⟨r, r', h, h', hr⟩
  · rw [h, h']
  · rw [h, h', Option.some.injEq]
    cases r
    cases r'
    simpa using ⟨hr.marks.1, hr.unsatisfied, hr.unresolved, hr.rc⟩

end FirmwareTools.Opkg

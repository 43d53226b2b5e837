import FirmwareTools.Opkg.Duplicates
import FirmwareTools.Opkg.ResolveSound

/-! # What is installed already

`pkg_dependence_satisfied` looks for an installed package among all packages of all providers. A
resolution asks `pkg_hash_fetch_best_installation_candidate`, which lets the first replacer of a
provider stand in for it and passes over the packages without a supported architecture.

* **`mem_matchingPkgs_iff`** — the packages the best candidate is chosen from;
* **`findInstalled_iff`** — an entry is found to be satisfied exactly when one of these is installed
  and meets an alternative;
* **`leavesAlone_iff`** — a resolution leaves a satisfied entry alone exactly when it is found to be
  satisfied, or the package whose entry it is would be chosen itself;
* **`not_leavesAlone_replaced`** — a replacer is to be installed beside the installed provider. -/

namespace FirmwareTools.Opkg

/-- `pkg_dependence_satisfied` -/
def pkgDependenceSatisfied (db : Database) (depend : Depend) : Bool :=
  ((db.abstractPkg depend.pkg).providedBy.flatMap db.filed).any fun pkg =>
    versionConstraintsSatisfied depend (db.pkg pkg) && (db.pkg pkg).isInstalled

/-- The name that the search for a candidate puts in the place of a provider: that of its first
replacer. -/
def Database.replacer (db : Database) (provider : AbstractPkgId) : Option AbstractPkgId :=
  ((db.abstractPkg provider).replacedBy.getD []).head?

/-- The search for a candidate for a name looks at a package: its architecture is supported, and it
is filed under a provider that nothing else replaces, or under the first replacer of a provider that
is none itself. -/
def Database.Considers (db : Database) (name : AbstractPkgId) (i : PkgId) : Prop :=
  0 < (db.pkg i).archPriority ∧ ∃ provider ∈ (db.abstractPkg name).providedBy,
    (i ∈ db.filed provider ∧ (db.replacer provider = none ∨ db.replacer provider = some provider)) ∨
    ∃ replacement, db.replacer provider = some replacement ∧ replacement ≠ provider ∧
      replacement ∉ (db.abstractPkg name).providedBy ∧ i ∈ db.filed replacement

variable {q : Qsort} {db : Database}

/-! ## The packages a candidate is chosen from -/

theorem mem_providerPkgs_iff {providers : List AbstractPkgId} {provider : AbstractPkgId}
    {i : PkgId} : i ∈ providerPkgs db providers provider ↔
      (i ∈ db.filed provider ∧
        (db.replacer provider = none ∨ db.replacer provider = some provider)) ∨
      ∃ replacement, db.replacer provider = some replacement ∧ replacement ≠ provider ∧
        replacement ∉ providers ∧ i ∈ db.filed replacement := by
  unfold providerPkgs
  rw [← Database.replacer]
  cases hreplacer : db.replacer provider with
  | none => simp
  | some replacement =>
      by_cases hself : replacement = provider
      · simp [hself]
      · by_cases hin : replacement ∈ providers
        · simp [hself, hin]
        · simp [hself, hin]

/-- What is collected: what was there, and the packages of a supported architecture. -/
theorem mem_foldl_collectMatching {js ms : List PkgId} {i : PkgId} :
    i ∈ js.foldl (collectMatching db) ms ↔ i ∈ ms ∨ (i ∈ js ∧ 0 < (db.pkg i).archPriority) := by
  induction js generalizing ms with
  | nil => simp
  | cons j js ih =>
      rw [List.foldl_cons, ih, collectMatching]
      split
      · rename_i hj
        rw [List.mem_append, List.mem_singleton, List.mem_cons]
        constructor
        · rintro ((hi | rfl) | hi)
          · exact .inl hi
          · exact .inr ⟨.inl rfl, hj.1⟩
          · exact .inr ⟨.inr hi.1, hi.2⟩
        · rintro (hi | ⟨rfl | hi, hprio⟩)
          · exact .inl (.inl hi)
          · exact .inl (.inr rfl)
          · exact .inr ⟨hi, hprio⟩
      · rename_i hj
        rw [List.mem_cons]
        constructor
        · rintro (hi | hi)
          · exact .inl hi
          · exact .inr ⟨.inr hi.1, hi.2⟩
        · rintro (hi | ⟨rfl | hi, hprio⟩)
          · exact .inl hi
          · -- what is not collected is there already
            exact .inl (not_not.mp fun hnot => hj ⟨hprio, hnot⟩)
          · exact .inr ⟨hi, hprio⟩

/-- **The packages a candidate is chosen from.** -/
theorem mem_matchingPkgs_iff {name : AbstractPkgId} {i : PkgId} :
    i ∈ matchingPkgs db name ↔ db.Considers name i := by
  rw [matchingPkgs, mem_foldl_collectMatching, Database.Considers]
  simp only [List.not_mem_nil, false_or, List.mem_flatMap, mem_providerPkgs_iff]
  exact and_comm

/-- A package that is considered is in one of the vectors. -/
theorem Database.Considers.filed {name : AbstractPkgId} {i : PkgId} (h : db.Considers name i) :
    ∃ a, i ∈ db.filed a := by
  obtain ⟨-, provider, -, ⟨hi, -⟩ | ⟨replacement, -, -, -, hi⟩⟩ := h
  · exact ⟨provider, hi⟩
  · exact ⟨replacement, hi⟩

/-! ## The choice -/

/-- If a package meets the condition, one that meets it is chosen. -/
theorem goodPkgByName_of_mem (db : Database) {f : PkgId → Bool} {i : PkgId} {ms : List PkgId} (hi : i ∈ ms)
    (hf : f i = true) (good : Option PkgId) :
    ∃ j, goodPkgByName db f good ms = some j ∧ f j = true := by
  have hkeeps : ∀ (ms : List PkgId) (j : PkgId), f j = true →
      ∃ k, goodPkgByName db f (some j) ms = some k ∧ f k = true := by
    intro ms
    induction ms with
    | nil => exact fun j hj => ⟨j, rfl, hj⟩
    | cons m ms ih =>
        intro j hj
        unfold goodPkgByName
        split
        · rename_i hm
          split
          · exact ⟨m, rfl, hm⟩
          · exact ih m hm
        · exact ih j hj
  induction ms generalizing good with
  | nil => exact absurd hi List.not_mem_nil
  | cons m ms ih =>
      unfold goodPkgByName
      split
      · rename_i hm
        split
        · exact ⟨m, rfl, hm⟩
        · exact hkeeps ms m hm
      · rename_i hm
        rcases List.mem_cons.mp hi with rfl | hi
        · exact absurd hf hm
        · exact ih hi good

/-- Where every package has a parent, looking for an installed one comes to its end. -/
theorem latestInstalledParent_isSome {ms : List PkgId}
    (h : ∀ i ∈ ms, (db.pkg i).parent.isSome) : ∃ x, latestInstalledParent db ms = some x := by
  unfold latestInstalledParent
  generalize (none : Option PkgId) = latest
  induction ms generalizing latest with
  | nil => exact ⟨latest, rfl⟩
  | cons m ms ih =>
      rw [List.forall_mem_cons] at h
      obtain ⟨parent, hparent⟩ := Option.isSome_iff_exists.mp h.1
      rw [List.foldlM_cons, hparent]
      exact ih h.2 _

/-- Asking for a candidate follows no `NULL` pointer. -/
theorem fetchBest_isSome (hplaced : WellPlaced db) (name : AbstractPkgId) (f : PkgId → Bool)
    (quiet : Bool) : ∃ x, pkgHashFetchBestInstallationCandidate q db name f quiet = some x := by
  have hparent : ∀ i ∈ sortMatching q db (matchingPkgs db name), (db.pkg i).parent.isSome := by
    intro i hi
    rw [mem_sortMatching, mem_matchingPkgs_iff] at hi
    obtain ⟨a, hfiled⟩ := hi.filed
    rw [hplaced.parent a i hfiled]
    rfl
  obtain ⟨latest, hlatest⟩ := latestInstalledParent_isSome hparent
  unfold pkgHashFetchBestInstallationCandidate
  dsimp only
  rw [hlatest]
  exact ⟨_, rfl⟩

/-- **The candidate for a condition**: one that meets it, or none, and then no package that is
considered does. -/
theorem fetchSatisfying_cases (q : Qsort) (hplaced : WellPlaced db)
    (constraintFcn : Depend → PkgId → Bool) (depend : Depend) :
    (∃ i, fetchSatisfying q db constraintFcn depend = some (some i) ∧
      db.Considers depend.pkg i ∧ constraintFcn depend i = true) ∨
    (fetchSatisfying q db constraintFcn depend = some none ∧
      ∀ i, db.Considers depend.pkg i → constraintFcn depend i = false) := by
  obtain ⟨best, hbest⟩ := fetchBest_isSome (q := q) hplaced depend.pkg (constraintFcn depend) true
  have hresult : fetchSatisfying q db constraintFcn depend
      = some (best.filter (constraintFcn depend)) := by
    rw [fetchSatisfying, hbest]
    rfl
  cases hfilter : best.filter (constraintFcn depend) with
  | some i =>
      rw [hfilter] at hresult
      obtain ⟨hi, -, hf⟩ := fetchSatisfying_eq_some hresult
      exact .inl ⟨i, hresult, mem_matchingPkgs_iff.mp hi, hf⟩
  | none =>
      rw [hfilter] at hresult
      refine .inr ⟨hresult, fun i hi => ?_⟩
      by_contra hf
      rw [Bool.not_eq_false] at hf
      have hmem : i ∈ sortMatching q db (matchingPkgs db depend.pkg) :=
        mem_sortMatching.mpr (mem_matchingPkgs_iff.mpr hi)
      obtain ⟨j, hgood, hj⟩ := goodPkgByName_of_mem db hmem hf none
      -- a package that meets the condition is chosen before all others
      have hchosen : best = some j := by
        unfold pkgHashFetchBestInstallationCandidate at hbest
        simp only [Option.bind_eq_bind, Option.bind_eq_some_iff, Option.some.injEq] at hbest
        obtain ⟨latest, -, rfl⟩ := hbest
        rw [hgood]
        rfl
      rw [hchosen, Option.filter_some, if_pos hj] at hfilter
      exact absurd hfilter (Option.some_ne_none j)

/-! ## Entries that are satisfied -/

/-- An alternative of the entry is met by an installed package that the search for a candidate
looks at. -/
def FoundInstalled (db : Database) (possibilities : List Depend) : Prop :=
  ∃ depend ∈ possibilities, ∃ i, db.Considers depend.pkg i ∧
    pkgInstalledAndConstraintSatisfied db depend i = true

/-- **The search for an installed package** comes to its end, and finds one exactly when there is one
that it looks at. -/
theorem findInstalled_iff (q : Qsort) (hplaced : WellPlaced db) (ds : List Depend) :
    ∃ found, findInstalled q db ds = some found ∧ (found = true ↔ FoundInstalled db ds) := by
  induction ds with
  | nil => exact ⟨false, rfl, by simp [FoundInstalled]⟩
  | cons depend ds ih =>
      rcases fetchSatisfying_cases q hplaced (pkgInstalledAndConstraintSatisfied db) depend with
        ⟨i, hfetch, hi, hf⟩ | ⟨hfetch, hnone⟩
      · refine ⟨true, ?_, iff_of_true rfl ⟨depend, List.mem_cons_self, i, hi, hf⟩⟩
        rw [findInstalled, hfetch]
        rfl
      · obtain ⟨found, hfound, hiff⟩ := ih
        refine ⟨found, ?_, hiff.trans ⟨?_, ?_⟩⟩
        · rw [findInstalled, hfetch]
          exact hfound
        · rintro ⟨d, hd, hmet⟩
          exact ⟨d, List.mem_cons_of_mem _ hd, hmet⟩
        · rintro ⟨d, hd, i, hi, hf⟩
          rcases List.mem_cons.mp hd with rfl | hd
          · rw [hnone i hi] at hf
            exact absurd hf Bool.false_ne_true
          · exact ⟨d, hd, i, hi, hf⟩

/-- The search for a package to install for an entry that must be satisfied comes to its end, with
the candidate for the first alternative that has one. -/
theorem findSatisfier_cases (q : Qsort) (hplaced : WellPlaced db) {type : DependType}
    (htype : type = .predepend ∨ type = .depend) (ds : List Depend) :
    findSatisfier q db type ds = some none ∨
    ∃ before depend after i, ds = before ++ depend :: after ∧
      (∀ b ∈ before, fetchSatisfying q db (pkgConstraintSatisfied db) b = some none) ∧
      fetchSatisfying q db (pkgConstraintSatisfied db) depend = some (some i) ∧
      findSatisfier q db type ds = some (some i) := by
  have hhard : ¬ (type = .recommend ∨ type = .suggest) := by
    rcases htype with rfl | rfl <;> simp
  induction ds with
  | nil => exact .inl rfl
  | cons depend ds ih =>
      rcases fetchSatisfying_cases q hplaced (pkgConstraintSatisfied db) depend with
        ⟨i, hfetch, -⟩ | ⟨hfetch, -⟩
      · refine .inr ⟨[], depend, ds, i, rfl, by simp, hfetch, ?_⟩
        rw [findSatisfier, hfetch]
        simp [hhard]
      · have hrest : findSatisfier q db type (depend :: ds) = findSatisfier q db type ds := by
          rw [findSatisfier, hfetch]
          rfl
        rw [hrest]
        rcases ih with hnone | ⟨before, d, after, i, rfl, hbefore, hi, hfind⟩
        · exact .inl hnone
        · exact .inr ⟨depend :: before, d, after, i, rfl,
            List.forall_mem_cons.mpr ⟨hfetch, hbefore⟩, hi, hfind⟩

/-- The first alternative that has a candidate has the package itself for its candidate. -/
def ChoosesItself (q : Qsort) (db : Database) (pkg : PkgId) (possibilities : List Depend) : Prop :=
  ∃ before depend after, possibilities = before ++ depend :: after ∧
    (∀ b ∈ before, fetchSatisfying q db (pkgConstraintSatisfied db) b = some none) ∧
    fetchSatisfying q db (pkgConstraintSatisfied db) depend = some (some pkg)

/-- Resolving the entry of `pkg`, whatever has been resolved before, adds nothing to the vector of
what is to be installed and reports nothing. -/
def LeavesAlone (q : Qsort) (db : Database) (pkg : PkgId) (entry : CompoundDepend) : Prop :=
  ∀ fuel r r', resolveEntry q db (pkgHashFetchUnsatisfiedDependencies q db fuel) pkg r entry
    = some r' → r'.unsatisfied = r.unsatisfied ∧ r'.unresolved = r.unresolved

/-- What the search for a package to install finds first is the package itself only if it chooses
itself. -/
theorem choosesItself_iff (hplaced : WellPlaced db) {type : DependType}
    (htype : type = .predepend ∨ type = .depend) {pkg : PkgId} {ds : List Depend} :
    ChoosesItself q db pkg ds ↔ findSatisfier q db type ds = some (some pkg) := by
  constructor
  · rintro ⟨before, depend, after, rfl, hbefore, hself⟩
    have hhard : ¬ (type = .recommend ∨ type = .suggest) := by
      rcases htype with rfl | rfl <;> simp
    induction before with
    | nil =>
        rw [List.nil_append, findSatisfier, hself]
        simp [hhard]
    | cons b before ih =>
        rw [List.forall_mem_cons] at hbefore
        rw [List.cons_append, findSatisfier, hbefore.1]
        exact ih hbefore.2
  · intro h
    rcases findSatisfier_cases q hplaced htype ds with hnone | ⟨before, d, after, i, hds, hbefore,
      hi, hfind⟩
    · rw [h] at hnone
      exact absurd (Option.some.inj hnone) (Option.some_ne_none pkg)
    · rw [h, Option.some.injEq, Option.some.injEq] at hfind
      exact ⟨before, d, after, hds, hbefore, hfind ▸ hi⟩

/-- A call for a package that is marked already returns at once. -/
theorem fetch_marked (i : PkgId) (vec : List PkgId) :
    pkgHashFetchUnsatisfiedDependencies q db 1 (fun _ => 1) i vec
      = some { marks := fun _ => 1, unsatisfied := vec } := by
  unfold pkgHashFetchUnsatisfiedDependencies
  cases (db.pkg i).parent with
  | none => rfl
  | some abPkg => rfl

/-- **Which entries a resolution leaves alone**: those it finds an installed package for, and those
that choose the package itself. -/
theorem leavesAlone_iff (hplaced : WellPlaced db) {pkg : PkgId} {entry : CompoundDepend}
    (htype : entry.type = .predepend ∨ entry.type = .depend) :
    LeavesAlone q db pkg entry ↔
      FoundInstalled db entry.possibilities ∨ ChoosesItself q db pkg entry.possibilities := by
  obtain ⟨found, hfound, hiff⟩ := findInstalled_iff q hplaced entry.possibilities
  have hgreedy : entry.type ≠ .greedyDepend := by
    rcases htype with h | h <;> simp [h]
  have hhard : ¬ (entry.type = .recommend ∨ entry.type = .suggest) := by
    rcases htype with h | h <;> simp [h]
  have hsuggest : entry.type ≠ .suggest := fun h => hhard (.inr h)
  rw [choosesItself_iff hplaced htype, ← hiff]
  constructor
  · intro halone
    cases found with
    | true => exact .inl rfl
    | false =>
        -- resolved with everything marked and nothing collected yet, it would add or report
        have hrun := halone 1 { marks := fun _ => 1, unsatisfied := [] }
        unfold resolveEntry at hrun
        rw [if_neg hgreedy, hfound] at hrun
        rcases findSatisfier_cases q hplaced htype entry.possibilities with hnone |
          ⟨-, -, -, i, -, -, -, hfind⟩
        · rw [hnone] at hrun
          simp [hhard] at hrun
        · refine .inr ?_
          rw [hfind] at hrun ⊢
          by_cases hself : i = pkg
          · rw [hself]
          · simp [hsuggest, hself, isPkgInPkgVec, fetch_marked] at hrun
  · rintro (rfl | hself) fuel r r' h
    · rw [resolveEntry, if_neg hgreedy, hfound] at h
      obtain rfl := Option.some.inj h
      exact ⟨rfl, rfl⟩
    · rw [resolveEntry, if_neg hgreedy, hfound, hself] at h
      cases found with
      | true =>
          obtain rfl := Option.some.inj h
          exact ⟨rfl, rfl⟩
      | false =>
          have h : some r = some r' := by simpa using h
          obtain rfl := Option.some.inj h
          exact ⟨rfl, rfl⟩

/-- An alternative of the entry is satisfied: `pkg_dependence_satisfied` holds for it. -/
def EntrySatisfied (db : Database) (entry : CompoundDepend) : Prop :=
  ∃ depend ∈ entry.possibilities, pkgDependenceSatisfied db depend = true

/-- **A resolution and the test for satisfied dependencies** agree on an entry of a database that
insertions lead to exactly when an installed package that meets an alternative is considered as a
candidate, or the package would be chosen itself. -/
theorem resolution_agrees_iff (q : Qsort) {tr : List (Database × Insertion)}
    (hrun : Trace InsertStep emptyDatabase tr db) (pkg : PkgId) {entry : CompoundDepend}
    (htype : entry.type = .predepend ∨ entry.type = .depend) :
    (EntrySatisfied db entry → LeavesAlone q db pkg entry) ↔
      (EntrySatisfied db entry →
        FoundInstalled db entry.possibilities ∨ ChoosesItself q db pkg entry.possibilities) := by
  rw [leavesAlone_iff (hashInsertPkg_wellPlaced hrun).2 htype]

/-! ## A replacer beside the installed provider -/

/-- The package `a` of the status file, installed. -/
def providerInsertion : Insertion :=
  ⟨0, ⟨{ parseVersion pkgNew "1".toList with
      name := "a".toList, architecture := some "all".toList, archPriority := 1
      stateStatus := .installed },
    ⟨rfl, rfl, rfl, rfl, rfl, rfl, rfl, rfl, rfl, rfl, rfl, rfl⟩⟩, true⟩

/-- The package `p`, which depends on `a`. -/
def dependerInsertion : Insertion := ⟨1, dependsStanza "p".toList "1".toList ["a".toList], false⟩

/-- The package `b`, which replaces `a` and conflicts with it. -/
def replacerInsertion : Insertion :=
  ⟨2, ⟨{ parseVersion pkgNew "1".toList with
      name := "b".toList, architecture := some "all".toList, archPriority := 1
      conflictsStr := ["a".toList], conflictsCount := 1
      replacesStr := ["a".toList], replacesCount := 1 },
    ⟨rfl, rfl, rfl, rfl, rfl, rfl, rfl, rfl, rfl, rfl, rfl, rfl⟩⟩, false⟩

/-- The database with `a` and `p`. -/
def dependerDatabase : Database := dependerInsertion.run (providerInsertion.run emptyDatabase)

/-- The database with `b` too. -/
def replacerDatabase : Database := replacerInsertion.run dependerDatabase

theorem depender_trace : Trace InsertStep emptyDatabase
    [(emptyDatabase, providerInsertion), (providerInsertion.run emptyDatabase, dependerInsertion)]
    dependerDatabase := by
  have htrace : Trace InsertStep emptyDatabase [(emptyDatabase, providerInsertion)]
      (providerInsertion.run emptyDatabase) :=
    trace_append (.nil _) (fun _ h => absurd h List.not_mem_nil) (by decide)
  refine trace_append htrace (fun x hx => ?_) (by decide)
  rw [List.mem_singleton.mp hx]
  exact show (0 : Nat) ≠ 1 by decide

theorem replacer_trace : Trace InsertStep emptyDatabase
    [(emptyDatabase, providerInsertion), (providerInsertion.run emptyDatabase, dependerInsertion),
      (dependerDatabase, replacerInsertion)] replacerDatabase := by
  refine trace_append depender_trace (fun x hx => ?_) (by decide)
  rcases List.mem_pair.mp hx with rfl | rfl
  · exact show (0 : Nat) ≠ 2 by decide
  · exact show (1 : Nat) ≠ 2 by decide

/-- The dependency of `p`. -/
def dependerEntry : CompoundDepend := ⟨.depend, [{ pkg := "a".toList }]⟩

/-- Though `a` is installed, `b` is to be installed for the dependency of `p` on `a`. -/
theorem not_leavesAlone_replaced :
    ¬ ∀ q tr db pkg entry, Trace InsertStep emptyDatabase tr db → entry ∈ (db.pkg pkg).entries →
      entry.type = .predepend ∨ entry.type = .depend → EntrySatisfied db entry →
        LeavesAlone q db pkg entry := by
  intro h
  have halone := h insertionQsort _ replacerDatabase 1 dependerEntry replacer_trace
    (by decide) (.inr rfl) ⟨_, List.mem_singleton.mpr rfl, by decide⟩
  have hrun : (resolveEntry insertionQsort replacerDatabase
      (pkgHashFetchUnsatisfiedDependencies insertionQsort replacerDatabase 1) 1
      { marks := fun _ => 0, unsatisfied := [] } dependerEntry).map Resolution.unsatisfied
      = some [2] := by
    decide
  obtain ⟨r', hr', hadded⟩ := Option.map_eq_some_iff.mp hrun
  rw [(halone _ _ _ hr').1] at hadded
  exact absurd hadded (by decide)

/-- Without `b` the dependency is left alone. -/
theorem resolution_agrees_depender :
    LeavesAlone insertionQsort dependerDatabase 1 dependerEntry := by
  refine (resolution_agrees_iff insertionQsort depender_trace 1 (.inr rfl)).mpr (fun _ => .inl ?_)
    ⟨_, List.mem_singleton.mpr rfl, by decide⟩
  refine ⟨_, List.mem_singleton.mpr rfl, 0, ⟨by decide, "a".toList, by decide,
    .inl ⟨by decide, .inl (by decide)⟩⟩, by decide⟩

end FirmwareTools.Opkg

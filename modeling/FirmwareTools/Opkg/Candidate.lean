import FirmwareTools.Opkg.Hash
import FirmwareTools.System.Loop
import Mathlib.Data.List.Sort

/-! # Choosing the package to install

`pkg_hash_fetch_best_installation_candidate` collects the packages of the providers of a name, a
replacer standing in for what it replaces, orders them and picks one: the last that meets the
caller's condition, else a held one, else the latest whose name is installed, else, for a caller
that asks for it, the one of the best architecture.

* **`fetchBest_mem`** — whatever is chosen is one of the packages collected. -/

namespace FirmwareTools.Opkg

/-- `qsort`: some rearrangement of the array, in order if the comparison is a total preorder. Which of
the elements that compare equal comes first is not known. -/
structure Qsort where
  sort : (PkgId → PkgId → Int) → List PkgId → List PkgId
  perm : ∀ compar vec, (sort compar vec).Perm vec
  sorted : ∀ compar vec, (∀ i j, compar i j ≤ 0 ∨ compar j i ≤ 0) →
    (∀ i j k, compar i j ≤ 0 → compar j k ≤ 0 → compar i k ≤ 0) →
    (sort compar vec).Pairwise fun i j => compar i j ≤ 0

/-- A `qsort` that sorts by insertion. -/
def insertionQsort : Qsort where
  sort compar vec := vec.insertionSort fun i j => compar i j ≤ 0
  perm _ vec := List.perm_insertionSort _ vec
  sorted compar vec htotal htrans := by
    have : Std.Total fun i j => compar i j ≤ 0 := ⟨htotal⟩
    have : IsTrans PkgId fun i j => compar i j ≤ 0 := ⟨htrans⟩
    exact List.pairwise_insertionSort _ vec

/-! ## The packages of a name -/

/-- The packages a provider of a name brings in: its own, those of its first replacer, or none if
that is a provider in its own right. -/
def providerPkgs (db : Database) (providers : List AbstractPkgId) (providerApkg : AbstractPkgId) :
    List PkgId :=
  match ((db.abstractPkg providerApkg).replacedBy.getD []).head? with
  | some replacementApkg =>
    if replacementApkg = providerApkg then db.filed providerApkg
    else if replacementApkg ∈ providers then []
    else db.filed replacementApkg
  | none => db.filed providerApkg

/-- Collect a package of a supported architecture, once. -/
def collectMatching (db : Database) (matching : List PkgId) (maybe : PkgId) : List PkgId :=
  if 0 < (db.pkg maybe).archPriority ∧ maybe ∉ matching then matching ++ [maybe] else matching

/-- `matching_pkgs` before it is sorted. -/
def matchingPkgs (db : Database) (apkg : AbstractPkgId) : List PkgId :=
  let providers := (db.abstractPkg apkg).providedBy
  (providers.flatMap (providerPkgs db providers)).foldl (collectMatching db) []

/-- `pkg_name_version_and_architecture_compare` -/
def pkgNameVersionAndArchitectureCompare (a b : Pkg) : Int :=
  let namecmp := strcmp a.name b.name
  let vercmp := pkgCompareVersions a b
  if namecmp ≠ 0 then namecmp
  else if vercmp ≠ 0 then vercmp
  else if a.archPriority = 0 ∨ b.archPriority = 0 then 0
  else if a.archPriority > b.archPriority then 1
  else if a.archPriority < b.archPriority then -1
  else 0

/-- `abstract_pkg_name_compare`, which here is given the packages themselves: the name is the first
field of both records. -/
def abstractPkgNameCompare (a b : Pkg) : Int := strcmp a.name b.name

/-- The two sorts of `matching_pkgs`. `matching_apkgs` is as long as `matching_pkgs`. -/
def sortMatching (q : Qsort) (db : Database) (matching : List PkgId) : List PkgId :=
  if 1 < matching.length then
    q.sort (fun i j => abstractPkgNameCompare (db.pkg i) (db.pkg j))
      (q.sort (fun i j => pkgNameVersionAndArchitectureCompare (db.pkg i) (db.pkg j)) matching)
  else matching

/-! ## Choosing one -/

/-- `good_pkg_by_name`: the last that meets the condition, or the first of them that was provided by
hand. -/
def goodPkgByName (db : Database) (constraintFcn : PkgId → Bool) :
    Option PkgId → List PkgId → Option PkgId
  | good, [] => good
  | good, matching :: rest =>
    if constraintFcn matching then
      if (db.pkg matching).providedByHand then some matching
      else goodPkgByName db constraintFcn (some matching) rest
    else goodPkgByName db constraintFcn good rest

/-- `latest_installed_parent`. A package without a parent is a `NULL` dereference. -/
def latestInstalledParent (db : Database) (matching : List PkgId) : Option (Option PkgId) :=
  matching.foldlM (fun latest i => do
    let parent ← (db.pkg i).parent
    let status := (db.abstractPkg parent).stateStatus
    some (if status = .installed ∨ status = .unpacked then some i else latest)) none

/-- `held_pkg` -/
def heldPkg (db : Database) (matching : List PkgId) : Option PkgId :=
  (matching.filter fun i => (db.pkg i).stateFlag.hold || (db.pkg i).stateFlag.prefer).getLast?

/-- `priorized_matching`: the first of the highest architecture priority. -/
def priorizedMatching (db : Database) : Option PkgId → Int → List PkgId → Option PkgId
  | best, _, [] => best
  | best, prio, matching :: rest =>
    if (db.pkg matching).archPriority > prio then
      priorizedMatching db (some matching) (db.pkg matching).archPriority rest
    else priorizedMatching db best prio rest

/-- `pkg_hash_fetch_best_installation_candidate`: `some none` is a `NULL` result, `none` a `NULL`
dereference on the way. -/
def pkgHashFetchBestInstallationCandidate (q : Qsort) (db : Database) (apkg : AbstractPkgId)
    (constraintFcn : PkgId → Bool) (quiet : Bool) : Option (Option PkgId) := do
  let matching := sortMatching q db (matchingPkgs db apkg)
  let good := goodPkgByName db constraintFcn none matching
  let latestInstalled ← latestInstalledParent db matching
  let held := heldPkg db matching
  let priorized :=
    if good = none ∧ held = none ∧ latestInstalled = none ∧ 1 < matching.length ∧ !quiet then
      priorizedMatching db none 0 matching
    else none
  let latest := if 1 < matching.length then none else matching.getLast?
  some (good <|> held <|> latestInstalled <|> priorized <|> latest)

/-! ## The choice is one of the packages collected -/

theorem mem_collectMatching {db : Database} {ms : List PkgId} {m i : PkgId}
    (h : i ∈ collectMatching db ms m) : i ∈ ms ∨ i = m := by
  unfold collectMatching at h
  split at h
  · simpa [List.mem_append] using h
  · exact Or.inl h

/-- A package is collected from one of the providers. -/
theorem mem_matchingPkgs {db : Database} {apkg : AbstractPkgId} {i : PkgId}
    (h : i ∈ matchingPkgs db apkg) :
    ∃ provider ∈ (db.abstractPkg apkg).providedBy,
      i ∈ providerPkgs db (db.abstractPkg apkg).providedBy provider := by
  have hfold : ∀ (js ms : List PkgId), i ∈ js.foldl (collectMatching db) ms → i ∈ ms ∨ i ∈ js := by
    intro js
    induction js with
    | nil => intro ms hi; exact Or.inl hi
    | cons j js ih =>
        intro ms hi
        rcases ih _ hi with hi | hi
        · exact (mem_collectMatching hi).imp_right fun heq => by rw [heq]; exact List.mem_cons_self
        · exact Or.inr (List.mem_cons_of_mem _ hi)
  exact List.mem_flatMap.mp ((hfold _ _ h).resolve_left List.not_mem_nil)

theorem mem_sortMatching {q : Qsort} {db : Database} {ms : List PkgId} {i : PkgId} :
    i ∈ sortMatching q db ms ↔ i ∈ ms := by
  unfold sortMatching
  split
  · rw [(q.perm _ _).mem_iff, (q.perm _ _).mem_iff]
  · exact Iff.rfl

theorem goodPkgByName_mem {db : Database} {f : PkgId → Bool} {i : PkgId} :
    ∀ {good : Option PkgId} {ms : List PkgId}, goodPkgByName db f good ms = some i →
      good = some i ∨ i ∈ ms := by
  intro good ms
  induction ms generalizing good with
  | nil => exact Or.inl
  | cons m ms ih =>
      intro h
      unfold goodPkgByName at h
      split at h
      · split at h
        · exact Or.inr (Option.some.inj h ▸ List.mem_cons_self)
        · rcases ih h with h | h
          · exact Or.inr (Option.some.inj h ▸ List.mem_cons_self)
          · exact Or.inr (List.mem_cons_of_mem _ h)
      · exact (ih h).imp_right (List.mem_cons_of_mem _)

theorem latestInstalledParent_mem {db : Database} {ms : List PkgId} {i : PkgId}
    (h : latestInstalledParent db ms = some (some i)) : i ∈ ms := by
  unfold latestInstalledParent at h
  refine foldlM_invariant (P := fun done latest => ∀ i, latest = some i → i ∈ done) h
    (by simp) (fun done j latest latest' _ hdone hstep k hk => ?_) i rfl
  simp only [Option.bind_eq_bind, Option.bind_eq_some_iff, Option.some.injEq] at hstep
  obtain ⟨parent, -, rfl⟩ := hstep
  split at hk
  · exact List.mem_append_right _ (Option.some.inj hk ▸ List.mem_singleton_self _)
  · exact List.mem_append_left _ (hdone k hk)

/-- Looking for an installed parent follows every parent. -/
theorem latestInstalledParent_parent {db : Database} {ms : List PkgId} {x : Option PkgId}
    (h : latestInstalledParent db ms = some x) : ∀ i ∈ ms, (db.pkg i).parent.isSome := by
  unfold latestInstalledParent at h
  refine foldlM_invariant (P := fun done _ => ∀ i ∈ done, (db.pkg i).parent.isSome) h
    (by simp) fun done i b b' _ hdone hstep => ?_
  simp only [Option.bind_eq_bind, Option.bind_eq_some_iff] at hstep
  obtain ⟨parent, hparent, -⟩ := hstep
  rw [List.forall_mem_append, List.forall_mem_singleton]
  exact ⟨hdone, by rw [hparent]; rfl⟩

theorem priorizedMatching_mem {db : Database} {i : PkgId} :
    ∀ {best : Option PkgId} {prio : Int} {ms : List PkgId},
      priorizedMatching db best prio ms = some i → best = some i ∨ i ∈ ms := by
  intro best prio ms
  induction ms generalizing best prio with
  | nil => exact Or.inl
  | cons m ms ih =>
      intro h
      unfold priorizedMatching at h
      split at h
      · rcases ih h with h | h
        · exact Or.inr (Option.some.inj h ▸ List.mem_cons_self)
        · exact Or.inr (List.mem_cons_of_mem _ h)
      · exact (ih h).imp_right (List.mem_cons_of_mem _)

theorem heldPkg_mem {db : Database} {ms : List PkgId} {i : PkgId} (h : heldPkg db ms = some i) :
    i ∈ ms :=
  List.mem_of_mem_filter (List.mem_of_getLast? h)

/-- **The chosen package is one of the packages collected.** -/
theorem fetchBest_mem {q : Qsort} {db : Database} {apkg : AbstractPkgId} {f : PkgId → Bool}
    {quiet : Bool} {i : PkgId}
    (h : pkgHashFetchBestInstallationCandidate q db apkg f quiet = some (some i)) :
    i ∈ matchingPkgs db apkg := by
  unfold pkgHashFetchBestInstallationCandidate at h
  simp only [Option.bind_eq_bind, Option.bind_eq_some_iff, Option.some.injEq] at h
  obtain ⟨latestInstalled, hinstalled, h⟩ := h
  rw [← mem_sortMatching (q := q)]
  simp only [Option.orElse_eq_orElse, Option.orElse_eq_or, Option.or_eq_some_iff] at h
  rcases h with h | ⟨-, h | ⟨-, h | ⟨-, h | ⟨-, h⟩⟩⟩⟩
  · exact (goodPkgByName_mem h).resolve_left (by simp)
  · exact heldPkg_mem h
  · exact latestInstalledParent_mem (h ▸ hinstalled)
  · split at h
    · exact (priorizedMatching_mem h).resolve_left (by simp)
    · exact absurd h (by simp)
  · split at h
    · exact absurd h (by simp)
    · exact List.mem_of_getLast? h

/-- A package that is chosen has a parent. -/
theorem fetchBest_parent {q : Qsort} {db : Database} {apkg : AbstractPkgId} {f : PkgId → Bool}
    {quiet : Bool} {i : PkgId}
    (h : pkgHashFetchBestInstallationCandidate q db apkg f quiet = some (some i)) :
    (db.pkg i).parent.isSome := by
  have hi : i ∈ sortMatching q db (matchingPkgs db apkg) :=
    mem_sortMatching.mpr (fetchBest_mem h)
  unfold pkgHashFetchBestInstallationCandidate at h
  simp only [Option.bind_eq_bind, Option.bind_eq_some_iff, Option.some.injEq] at h
  obtain ⟨_, hinstalled, -⟩ := h
  exact latestInstalledParent_parent hinstalled i hi

end FirmwareTools.Opkg

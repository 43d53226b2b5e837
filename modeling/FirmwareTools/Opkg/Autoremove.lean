import FirmwareTools.Opkg.OrphanDependents
import FirmwareTools.Opkg.Satisfied

/-! # Removing what was installed for a removed package

`remove_autoinstalled` goes over the alternatives of a package that has been removed, and removes what was
installed automatically and has no dependents left; each such removal does the same for its own
alternatives. The function returns at the first alternative that is not installed, so that the ones behind
it are not looked at.

A run is told by its visits: one for each alternative that is looked at, here and in the removals in
between.

* **`exists_loopRun`** — every call that returns is such a run;
* **`autoremoveComplete_of_run`** — nothing is left behind if every alternative is found installed, and a
  package with a single dependent is named by it. -/

namespace FirmwareTools.Opkg

open Op

variable {env : Env} {fuel : Nat} {w w' w₁ w₂ : World}

/-! ## Runs -/

/-- The alternatives that `remove_autoinstalled` goes over. -/
def Pkg.alternatives (p : Pkg) : List Depend :=
  (p.entries.filter fun entry => entry.type == .predepend || entry.type == .depend ||
    entry.type == .recommend).flatMap CompoundDepend.possibilities

theorem removeAutoinstalled_eq (removePkg : PkgId → Run Int) (i : PkgId) (w : World) :
    removeAutoinstalled removePkg i w = removeOrphans removePkg 0 (w.db.pkg i).alternatives w := rfl

/-- A look at an alternative: the state, the installed package that is found, and what its removal
returned if it was removed. -/
structure Visit where
  world : World
  depend : Depend
  pkg : Option PkgId
  removal : Option Int

/-- The package that an alternative names is to be removed: it was installed automatically, and no
dependents are counted. -/
def OrphanAt (w : World) (depend : Depend) (p : PkgId) : Prop :=
  w.db.installedByName depend.pkg = some p ∧ (w.db.pkg p).autoInstalled = true ∧
    ∃ dependents, pkgHasInstalledDependents w.db (w.db.pkg p) = some (0, dependents)

/-- The package that an alternative names is to stay. -/
def KeptAt (w : World) (depend : Depend) (p : PkgId) : Prop :=
  w.db.installedByName depend.pkg = some p ∧ ((w.db.pkg p).autoInstalled = false ∨
    ∃ n dependents, n ≠ 0 ∧ pkgHasInstalledDependents w.db (w.db.pkg p) = some (n, dependents))

/-- The loop of `remove_autoinstalled` over some alternatives, from one state to another, with its visits
and those of the removals in it. -/
inductive LoopRun (env : Env) : Nat → List Depend → World → List Visit → World → Prop
  | nil (fuel : Nat) (w : World) : LoopRun env fuel [] w [] w
  | missing {fuel : Nat} {depend : Depend} {depends : List Depend} {w : World}
      (hfind : w.db.installedByName depend.pkg = none) :
      LoopRun env fuel (depend :: depends) w [⟨w, depend, none, none⟩] w
  | kept {fuel : Nat} {depend : Depend} {depends : List Depend} {w w' : World} {p : PkgId}
      {log : List Visit} (hkept : KeptAt w depend p) (hrest : LoopRun env fuel depends w log w') :
      LoopRun env fuel (depend :: depends) w (⟨w, depend, some p, none⟩ :: log) w'
  | refused {fuel : Nat} {depend : Depend} {depends : List Depend} {w w₁ w' : World} {p : PkgId}
      {err : Int} {log : List Visit} (horphan : OrphanAt w depend p)
      (hremove : opkgRemovePkg env fuel p false w = some (err, w₁)) (herr : err ≠ 0)
      (hsame : SameMajorAuto w w₁) (hrest : LoopRun env fuel depends w₁ log w') :
      LoopRun env fuel (depend :: depends) w (⟨w, depend, some p, some err⟩ :: log) w'
  | removed {fuel : Nat} {depend : Depend} {depends : List Depend} {w w₁ w₂ w' : World} {p : PkgId}
      {parent : AbstractPkgId} {err rc : Int} {inner log : List Visit} (horphan : OrphanAt w depend p)
      (hremove : opkgRemovePkg env (fuel + 1) p false w = some (err, w₁))
      (hparent : (w.db.pkg p).parent = some parent)
      (huninstall : uninstallFiles env p parent w = some (some rc, w₂))
      (hinner : LoopRun env fuel (w₂.db.pkg p).alternatives w₂ inner w₁)
      (hrest : LoopRun env (fuel + 1) depends w₁ log w') :
      LoopRun env (fuel + 1) (depend :: depends) w
        (⟨w, depend, some p, some err⟩ :: inner ++ log) w'

/-! ## Every call is a run -/

section Rounds

variable {removePkg : PkgId → Run Int} {depend : Depend} {p : PkgId}

theorem removeIfOrphaned_none (h : w.db.installedByName depend.pkg = none) :
    removeIfOrphaned removePkg depend w = some (none, w) := by
  unfold removeIfOrphaned
  rw [get_bind, h]
  rfl

theorem removeIfOrphaned_asked (h : w.db.installedByName depend.pkg = some p)
    (hauto : (w.db.pkg p).autoInstalled = false) :
    removeIfOrphaned removePkg depend w = some (some 0, w) := by
  unfold removeIfOrphaned
  rw [get_bind, h]
  dsimp only
  rw [getPkg_bind, hauto]
  rfl

theorem removeIfOrphaned_auto (h : w.db.installedByName depend.pkg = some p)
    (hauto : (w.db.pkg p).autoInstalled = true) :
    removeIfOrphaned removePkg depend w =
      (pkgHasInstalledDependents w.db (w.db.pkg p)).bind fun r =>
        if r.1 = 0 then (do
          return some (if (← removePkg p) ≠ 0 then -1 else 0) : Run (Option Int)) w
        else some (some 0, w) := by
  unfold removeIfOrphaned
  rw [get_bind, h]
  dsimp only
  rw [getPkg_bind, hauto]
  simp only [Bool.not_true, Bool.false_eq_true, if_false]
  rw [get_bind, deref_bind]
  congr 1
  funext r
  split <;> rfl

/-- **One round**: the alternative is not installed, its package stays, or it is removed. -/
theorem removeIfOrphaned_cases {r : Option Int}
    (h : removeIfOrphaned removePkg depend w = some (r, w')) :
    (w.db.installedByName depend.pkg = none ∧ r = none ∧ w' = w) ∨
    (∃ p, KeptAt w depend p ∧ r = some 0 ∧ w' = w) ∨
    ∃ p err, OrphanAt w depend p ∧ removePkg p w = some (err, w') ∧
      r = some (if err ≠ 0 then -1 else 0) := by
  cases hp : w.db.installedByName depend.pkg with
  | none =>
      rw [removeIfOrphaned_none hp] at h
      obtain ⟨rfl, rfl⟩ := Prod.mk.inj (Option.some.inj h)
      exact .inl ⟨rfl, rfl, rfl⟩
  | some p =>
      right
      cases hauto : (w.db.pkg p).autoInstalled with
      | false =>
          rw [removeIfOrphaned_asked hp hauto] at h
          obtain ⟨rfl, rfl⟩ := Prod.mk.inj (Option.some.inj h)
          exact .inl ⟨p, ⟨hp, .inl hauto⟩, rfl, rfl⟩
      | true =>
          rw [removeIfOrphaned_auto hp hauto] at h
          obtain ⟨⟨n, dependents⟩, hcount, hround⟩ := Option.bind_eq_some_iff.mp h
          dsimp only at hround
          split at hround
          · rename_i hn
            obtain ⟨err, w₁, hremove, hreturn⟩ := bind_eq_some.mp hround
            obtain ⟨rfl, rfl⟩ := Prod.mk.inj (pure_eq_some.mp hreturn)
            exact .inr ⟨p, err, ⟨hp, hauto, dependents, hn ▸ hcount⟩, hremove, rfl⟩
          · rename_i hn
            obtain ⟨rfl, rfl⟩ := Prod.mk.inj (Option.some.inj hround)
            exact .inl ⟨p, ⟨hp, .inr ⟨n, dependents, hn, hcount⟩⟩, rfl, rfl⟩

end Rounds

/-- **The removal of a package without dependents**: it is refused, or the package is uninstalled and its
own alternatives are gone over. -/
theorem opkgRemovePkg_orphan {p : PkgId} {parent : AbstractPkgId} {err : Int}
    {dependents : List AbstractPkgId} (hauto : env.autoremove = true)
    (hparent : (w.db.pkg p).parent = some parent)
    (hnone : pkgHasInstalledDependents w.db (w.db.pkg p) = some (0, dependents))
    (h : opkgRemovePkg env (fuel + 1) p false w = some (err, w')) :
    (err ≠ 0 ∧ SameMajorAuto w w') ∨ ∃ rc w₂ rc',
      uninstallFiles env p parent w = some (some rc, w₂) ∧
      removeAutoinstalled (fun i => opkgRemovePkg env fuel i false) p w₂ = some (rc', w') ∧
      (rc' ≠ 0 → err ≠ 0) := by
  have hrefl := sameMajorAuto_frame.refl w
  rcases removePkgBody_spec h with ⟨rfl, herr | hnoparent⟩ |
    ⟨parent', err₁, w₁, hparent', hdependents, hcase⟩
  · exact .inl ⟨herr, hrefl⟩
  · rw [hparent] at hnoparent
    exact absurd hnoparent (by simp)
  · obtain rfl : parent = parent' := Option.some.inj (hparent.symm.trans hparent')
    -- no dependents are counted, so none are removed
    have hw₁ : w₁ = w := by
      rcases removeDependents_cases hdependents with ⟨rfl, -⟩ | ⟨n, _, hcount, hdep⟩
      · rfl
      · rw [hnone, Option.some.injEq, Prod.mk.injEq] at hcount
        exact hdep.elim And.left fun hne => absurd hcount.1.symm hne.1
    subst hw₁
    rcases hcase with ⟨herr₁, rfl, rfl⟩ | ⟨-, hfiles⟩
    · exact .inl ⟨herr₁, hrefl⟩
    · rw [removePkgFiles_eq] at hfiles
      obtain ⟨r, w₂, huninstall, hlast⟩ := bind_eq_some.mp hfiles
      cases r with
      | none =>
          obtain ⟨rfl, rfl⟩ := Prod.mk.inj (pure_eq_some.mp hlast)
          rcases uninstallFiles_sameMajorAuto huninstall with ⟨-, hsame⟩ | ⟨_, _, hsome, -⟩
          · exact .inl ⟨by decide, hsame⟩
          · exact absurd hsome (by simp)
      | some rc =>
          dsimp only at hlast
          rw [if_pos hauto] at hlast
          obtain ⟨rc', w₃, hloop, hreturn⟩ := bind_eq_some.mp hlast
          obtain ⟨rfl, rfl⟩ := Prod.mk.inj (pure_eq_some.mp hreturn)
          refine .inr ⟨rc, w₂, rc', huninstall, hloop, fun hrc => ?_⟩
          rw [if_pos hrc]
          decide

/-- A visit whose removal did not fail. -/
def Visit.Succeeded (v : Visit) : Prop := ∀ err, v.removal = some err → err = 0

/-- The packages that the alternatives of a state name have a parent. -/
theorem parent_of_installedByName {db : Database} (hdb : WellPlaced db) {a : AbstractPkgId} {p : PkgId}
    (h : db.installedByName a = some p) : ∃ parent, (db.pkg p).parent = some parent := by
  obtain ⟨⟨b, hb⟩, -⟩ := present_of_installedByName h
  exact ⟨b, hdb.parent b p hb⟩

theorem OnlyUninstalls.wellPlaced (h : OnlyUninstalls w w') (hdb : WellPlaced w.db) :
    WellPlaced w'.db :=
  ⟨fun a => h.filed a ▸ hdb.nodup a, fun a i hi => by
    rw [h.parent]
    exact hdb.parent a i (h.filed a ▸ hi)⟩

theorem onlyUninstalls_of_uninstallFiles {p : PkgId} {parent : AbstractPkgId} {r : Option Int}
    (h : uninstallFiles env p parent w = some (r, w')) : OnlyUninstalls w w' := by
  rcases uninstallFiles_sameMajorAuto h with ⟨-, hsame⟩ | ⟨_, w₁, -, hsame, rfl⟩
  · exact hsame.major.onlyUninstalls
  · exact hsame.major.onlyUninstalls.trans (onlyUninstalls_uninstall w₁ p parent)

/-- **Every call is a run.** If no removal fails, then it returns `0` exactly when every alternative is
found installed. -/
theorem exists_loopRun (hauto : env.autoremove = true) {depends : List Depend} {err rc : Int}
    (hdb : WellPlaced w.db)
    (h : removeOrphans (fun i => opkgRemovePkg env fuel i false) err depends w = some (rc, w')) :
    ∃ log, LoopRun env fuel depends w log w' ∧ ((∀ v ∈ log, v.Succeeded) → err = 0 →
      (rc = 0 ↔ ∀ v ∈ log, v.pkg.isSome)) := by
  induction fuel using Nat.strong_induction_on generalizing depends err rc w w' with
  | _ fuel ihfuel =>
  induction depends generalizing err w with
  | nil =>
      obtain ⟨rfl, rfl⟩ := Prod.mk.inj (pure_eq_some.mp h)
      exact ⟨[], .nil fuel _, fun _ herr => by simp [herr]⟩
  | cons depend depends ih =>
      unfold removeOrphans at h
      obtain ⟨r, w₁, hround, hrest⟩ := bind_eq_some.mp h
      rcases removeIfOrphaned_cases hround with ⟨hfind, rfl, rfl⟩ | ⟨p, hkept, rfl, rfl⟩ |
        ⟨p, err₁, horphan, hremove, rfl⟩
      · -- the loop ends here
        obtain ⟨rfl, rfl⟩ := Prod.mk.inj (pure_eq_some.mp hrest)
        exact ⟨_, .missing hfind, fun _ _ => by simp⟩
      · dsimp only at hrest
        rw [if_neg (by simp)] at hrest
        obtain ⟨log, hrun, hzero⟩ := ih hdb hrest
        refine ⟨_, .kept hkept hrun, fun hall herr => ?_⟩
        rw [List.forall_mem_cons] at hall ⊢
        rw [hzero hall.2 herr]
        exact ⟨fun h => ⟨rfl, h⟩, And.right⟩
      · dsimp only at hrest
        obtain ⟨hp, hpauto, dependents, hnone⟩ := horphan
        obtain ⟨parent, hparent⟩ := parent_of_installedByName hdb hp
        cases fuel with
        | zero => exact absurd hremove stop_ne_some
        | succ fuel =>
            rcases opkgRemovePkg_orphan hauto hparent hnone hremove with
              ⟨herr₁, hsame⟩ | ⟨rc₁, w₂, rc', huninstall, hloop, hfails⟩
            · obtain ⟨log, hrun, -⟩ := ih (hsame.major.onlyUninstalls.wellPlaced hdb) hrest
              refine ⟨_, .refused ⟨hp, hpauto, dependents, hnone⟩ hremove herr₁ hsame hrun, ?_⟩
              intro hall
              exact absurd (hall _ List.mem_cons_self err₁ rfl) herr₁
            · have hdb₂ := (onlyUninstalls_of_uninstallFiles huninstall).wellPlaced hdb
              rw [removeAutoinstalled_eq] at hloop
              obtain ⟨inner, hinner, hinnerzero⟩ := ihfuel fuel (Nat.lt_succ_self fuel) hdb₂ hloop
              have hdb₁ := (opkgRemovePkg_onlyUninstalls _ _ _ _ _ _ hremove).wellPlaced hdb
              obtain ⟨log, hrun, hzero⟩ := ih hdb₁ hrest
              refine ⟨_, .removed ⟨hp, hpauto, dependents, hnone⟩ hremove hparent huninstall hinner
                hrun, fun hall herr => ?_⟩
              rw [List.forall_mem_append, List.forall_mem_cons] at hall
              obtain ⟨⟨hhead, hallinner⟩, halllog⟩ := hall
              have herr₁ : err₁ = 0 := hhead err₁ rfl
              have hrc' : rc' = 0 := by
                by_contra hne
                exact hfails hne herr₁
              have hfound := (hinnerzero hallinner rfl).mp hrc'
              rw [hzero halllog (by simp [herr₁, herr]), List.forall_mem_append,
                List.forall_mem_cons]
              exact ⟨fun h => ⟨⟨rfl, hfound⟩, h⟩, And.right⟩

/-! ## What is left behind -/

/-- The package was installed automatically, and nothing that is installed depends on it. -/
def Database.Unneeded (db : Database) (q : PkgId) : Prop :=
  (db.pkg q).isInstalled = true ∧ (db.pkg q).autoInstalled = true ∧
    ∀ dep, ¬ db.InstalledDependent (db.pkg q) dep

/-- A removal of the package has been attempted, and failed. -/
def FailedIn (log : List Visit) (q : PkgId) : Prop :=
  ∃ v ∈ log, v.pkg = some q ∧ ¬ v.Succeeded

theorem FailedIn.of_subset {log log' : List Visit} {q : PkgId} (h : FailedIn log' q)
    (hsub : log' ⊆ log) : FailedIn log q := by
  obtain ⟨v, hv, hfailed⟩ := h
  exact ⟨v, hsub hv, hfailed⟩

/-- Every package that an alternative names, is still installed and was installed automatically has an
installed dependent, unless its removal failed; and if no removal failed the function returns `0`. -/
def AutoremoveComplete (depends : List Depend) (w : World) (log : List Visit) (w' : World)
    (rc : Int) : Prop :=
  (∀ d ∈ depends, ∀ q ∈ w.db.pkgVecFetchByName d.pkg, (w'.db.pkg q).isInstalled = true →
    (w'.db.pkg q).autoInstalled = true →
    (∃ dep, w'.db.InstalledDependent (w'.db.pkg q) dep) ∨ FailedIn log q) ∧
  ((∀ v ∈ log, v.Succeeded) → rc = 0)

/-- What is needed of the visits: each finds an installed package of the name, the only one, and whatever
has no dependent besides a package that is removed is named by one of its alternatives. -/
structure AutoremoveGuard (log : List Visit) : Prop where
  found : ∀ v ∈ log, v.pkg.isSome = true
  only : ∀ v ∈ log, ∀ q ∈ v.world.db.pkgVecFetchByName v.depend.pkg,
    (v.world.db.pkg q).isInstalled = true → v.pkg = some q
  named : ∀ v ∈ log, ∀ p, v.pkg = some p → v.removal.isSome = true → ∀ q,
    (v.world.db.pkg q).isInstalled = true → (v.world.db.pkg q).autoInstalled = true →
    (∃ dep, v.world.db.InstalledDependent (v.world.db.pkg q) dep) →
    (∀ dep, v.world.db.InstalledDependent (v.world.db.pkg q) dep →
      (v.world.db.pkg p).parent = some dep) →
    ∃ d ∈ (v.world.db.pkg p).alternatives, q ∈ v.world.db.pkgVecFetchByName d.pkg

theorem AutoremoveGuard.of_subset {log log' : List Visit} (h : AutoremoveGuard log)
    (hsub : log' ⊆ log) : AutoremoveGuard log' where
  found v hv := h.found v (hsub hv)
  only v hv := h.only v (hsub hv)
  named v hv := h.named v (hsub hv)

theorem OnlyUninstalls.alternatives (h : OnlyUninstalls w w') (i : PkgId) :
    (w'.db.pkg i).alternatives = (w.db.pkg i).alternatives := by
  rw [Pkg.alternatives, h.entries, Pkg.alternatives]

theorem OnlyUninstalls.pkgVecFetchByName (h : OnlyUninstalls w w') (a : AbstractPkgId) :
    w'.db.pkgVecFetchByName a = w.db.pkgVecFetchByName a := by
  unfold Database.pkgVecFetchByName
  have hsame : (w'.db.abstractPkg a).pkgs = (w.db.abstractPkg a).pkgs ∧
      (w'.db.abstractPkg a).providedBy = (w.db.abstractPkg a).providedBy := by
    rcases h.abstractPkg a with hab | hab <;> rw [hab]
    · exact ⟨rfl, rfl⟩
    · exact ⟨rfl, rfl⟩
  rw [hsame.1, hsame.2]
  simp only [h.filed]

theorem OnlyUninstalls.dependedUponBy (h : OnlyUninstalls w w') (a : AbstractPkgId) :
    (w'.db.abstractPkg a).dependedUponBy = (w.db.abstractPkg a).dependedUponBy := by
  rcases h.abstractPkg a with hab | hab <;> rw [hab]
  rfl

theorem SameMajorAuto.installedDependent (h : SameMajorAuto w w') (q : PkgId)
    (dep : AbstractPkgId) : w'.db.InstalledDependent (w'.db.pkg q) dep ↔
      w.db.InstalledDependent (w.db.pkg q) dep := by
  unfold Database.InstalledDependent
  rw [h.major.onlyUninstalls.provided, h.major.abstractPkg]

theorem SameMajorAuto.unneeded (h : SameMajorAuto w w') (q : PkgId) :
    w'.db.Unneeded q ↔ w.db.Unneeded q := by
  unfold Database.Unneeded
  simp only [h.major.isInstalled, h.autoInstalled, h.installedDependent]

/-- **What a removal leaves behind**: whatever had no dependent besides the package that is removed. -/
theorem unneeded_uninstall {p q : PkgId} {a : AbstractPkgId} (h : (w.uninstall p a).db.Unneeded q) :
    q ≠ p ∧ (w.db.pkg q).isInstalled = true ∧ (w.db.pkg q).autoInstalled = true ∧
      ∀ dep, w.db.InstalledDependent (w.db.pkg q) dep → dep = a := by
  obtain ⟨hinstalled, hauto, hnone⟩ := h
  have hun := onlyUninstalls_uninstall w p a
  have hqp : q ≠ p := by
    rintro rfl
    rw [uninstall_pkg_self] at hinstalled
    exact absurd hinstalled (by simp [Pkg.isInstalled, Pkg.withStatus])
  refine ⟨hqp, hun.isInstalled hinstalled, by rwa [uninstall_autoInstalled] at hauto, ?_⟩
  rintro dep ⟨hdep, c, hc, hmem⟩
  by_contra hne
  refine hnone dep ⟨?_, c, (hun.provided q).symm ▸ hc, (hun.dependedUponBy c).symm ▸ hmem⟩
  rw [uninstall_abstractPkg_of_ne w p hne]
  exact hdep

theorem KeptAt.not_unneeded {depend : Depend} {p : PkgId} (h : KeptAt w depend p) :
    ¬ w.db.Unneeded p := by
  rintro ⟨-, hauto, hnone⟩
  rcases h.2 with hasked | ⟨n, dependents, hn, hcount⟩
  · rw [hasked] at hauto
    exact absurd hauto (by decide)
  · obtain ⟨-, rfl⟩ := pkgHasInstalledDependents_eq_some_iff.mp ⟨dependents, hcount⟩
    obtain ⟨dep, hdep⟩ := List.exists_mem_of_length_pos (Nat.pos_of_ne_zero hn)
    exact hnone dep (mem_counted.mp hdep)

theorem LoopRun.onlyUninstalls {depends : List Depend} {log : List Visit}
    (h : LoopRun env fuel depends w log w') : OnlyUninstalls w w' := by
  induction h with
  | nil fuel w => exact onlyUninstalls_frame.refl w
  | missing => exact onlyUninstalls_frame.refl _
  | kept _ _ ih => exact ih
  | refused _ hremove _ _ _ ih => exact (opkgRemovePkg_onlyUninstalls _ _ _ _ _ _ hremove).trans ih
  | removed _ hremove _ _ _ _ _ ih =>
      exact (opkgRemovePkg_onlyUninstalls _ _ _ _ _ _ hremove).trans ih

/-- **What is unneeded at the end**, and has not failed to be removed, was so at the start, and is named
by none of the alternatives. -/
theorem LoopRun.unneeded {depends : List Depend} {log : List Visit}
    (h : LoopRun env fuel depends w log w') (hguard : AutoremoveGuard log) (q : PkgId)
    (hq : w'.db.Unneeded q) (hfailed : ¬ FailedIn log q) :
    w.db.Unneeded q ∧ ∀ d ∈ depends, q ∉ w.db.pkgVecFetchByName d.pkg := by
  induction h with
  | nil => exact ⟨hq, fun d hd => absurd hd List.not_mem_nil⟩
  | missing => exact absurd (hguard.found _ List.mem_cons_self) (by simp)
  | @kept _ depend depends w w' p log hkept hrest ih =>
      have hsub : log ⊆ ⟨w, depend, some p, none⟩ :: log := List.subset_cons_self _ _
      obtain ⟨hstart, hnamed⟩ := ih (hguard.of_subset hsub) hq fun h => hfailed (h.of_subset hsub)
      refine ⟨hstart, List.forall_mem_cons.mpr ⟨fun hmem => ?_, hnamed⟩⟩
      obtain rfl := Option.some.inj (hguard.only _ List.mem_cons_self q hmem hstart.1)
      exact hkept.not_unneeded hstart
  | @refused _ depend depends w w₁ w' p err log _ hremove herr hsame hrest ih =>
      have hsub : log ⊆ ⟨w, depend, some p, some err⟩ :: log := List.subset_cons_self _ _
      obtain ⟨hafter, hnamed⟩ := ih (hguard.of_subset hsub) hq fun h => hfailed (h.of_subset hsub)
      have hstart := (hsame.unneeded q).mp hafter
      simp only [hsame.major.onlyUninstalls.pkgVecFetchByName] at hnamed
      refine ⟨hstart, List.forall_mem_cons.mpr ⟨fun hmem => ?_, hnamed⟩⟩
      obtain rfl := Option.some.inj (hguard.only _ List.mem_cons_self q hmem hstart.1)
      exact hfailed ⟨_, List.mem_cons_self, rfl, fun h => herr (h err rfl)⟩
  | @removed _ depend depends w w₁ w₂ w' p parent err rc inner log _ hremove hparent huninstall
      hinner hrest ihinner ih =>
      have hsublog : log ⊆ ⟨w, depend, some p, some err⟩ :: inner ++ log :=
        List.subset_append_right _ _
      have hsubinner : inner ⊆ ⟨w, depend, some p, some err⟩ :: inner ++ log :=
        fun _ hv => List.mem_append_left _ (List.mem_cons_of_mem _ hv)
      have hhead : ⟨w, depend, some p, some err⟩ ∈ ⟨w, depend, some p, some err⟩ :: inner ++ log :=
        List.mem_append_left _ List.mem_cons_self
      have hun₁ := opkgRemovePkg_onlyUninstalls _ _ _ _ _ _ hremove
      have hun₂ := onlyUninstalls_of_uninstallFiles huninstall
      obtain ⟨hafter, hnamed⟩ :=
        ih (hguard.of_subset hsublog) hq fun h => hfailed (h.of_subset hsublog)
      simp only [hun₁.pkgVecFetchByName] at hnamed
      obtain ⟨hinside, hnotnamed⟩ := ihinner (hguard.of_subset hsubinner) hafter
        fun h => hfailed (h.of_subset hsubinner)
      simp only [hun₂.alternatives, hun₂.pkgVecFetchByName] at hnotnamed
      -- after the removal of `p` nothing but `p` had depended on it
      rcases uninstallFiles_sameMajorAuto huninstall with ⟨hnone, -⟩ | ⟨_, w₀, -, hsame, rfl⟩
      · exact absurd hnone (by simp)
      · obtain ⟨hqp, hinstalled, hauto, honly⟩ := unneeded_uninstall hinside
        rw [hsame.major.isInstalled] at hinstalled
        rw [hsame.autoInstalled] at hauto
        simp only [hsame.installedDependent] at honly
        have hstart : w.db.Unneeded q := by
          refine ⟨hinstalled, hauto, fun dep hdep => ?_⟩
          obtain ⟨d, hd, hmem⟩ := hguard.named _ hhead p rfl rfl q hinstalled hauto ⟨dep, hdep⟩
            fun dep' hdep' => honly dep' hdep' ▸ hparent
          exact hnotnamed d hd hmem
        refine ⟨hstart, List.forall_mem_cons.mpr ⟨fun hmem => ?_, hnamed⟩⟩
        exact hqp (Option.some.inj (hguard.only _ hhead q hmem hinstalled)).symm

/-- The package `app` with the given dependency. -/
def dependingApp (depend : CStr) : Insertion :=
  ⟨1, dependingStanza "app".toList "1.0".toList [depend] .installed false, true⟩

/-- A library with a destination, that was installed only for `app`. -/
def libStanza : ParsedPkg :=
  ⟨{ (dependingStanza "lib".toList "1.0".toList [] .installed true).1 with dest := some rootDest },
    ⟨rfl, rfl, rfl, rfl, rfl, rfl, rfl, ⟨rfl, rfl, rfl, rfl, rfl⟩⟩⟩

/-- Both packages are installed. -/
def appInstalled (depend : CStr) : World :=
  { startWorld with db := readAll [dependingApp depend, ⟨2, libStanza, true⟩] }

/-- `app` has been uninstalled, and `lib` is left. -/
def appRemoved (depend : CStr) : World := (appInstalled depend).uninstall 1 "app".toList

theorem appRemoved_wellPlaced {depend : CStr}
    (h : readsAll emptyDatabase [dependingApp depend, ⟨2, libStanza, true⟩] = true) :
    WellPlaced (appRemoved depend).db := by
  have htrace := readAll_trace [dependingApp depend, ⟨2, libStanza, true⟩]
    (by simp [dependingApp]) h
  exact (onlyUninstalls_uninstall _ _ _).wellPlaced (linked_of_trace htrace).placed

/-- Once `app` is gone, nothing that is installed depends on anything. -/
theorem appRemoved_noDependent {q : PkgId} {dep : AbstractPkgId} :
    ¬ (appRemoved "lib".toList).db.InstalledDependent ((appRemoved "lib".toList).db.pkg q) dep := by
  rintro ⟨hinstalled, a, -, hmem⟩
  have htrace := readAll_trace [dependingApp "lib".toList, ⟨2, libStanza, true⟩]
    (by decide +kernel) (by decide +kernel)
  have hlists : ((appRemoved "lib".toList).db.abstractPkg a).dependedUponBy = _ :=
    (onlyUninstalls_uninstall (appInstalled "lib".toList) 1 "app".toList).dependedUponBy a
  rw [hlists, appInstalled, dependedUponBy_of_trace htrace a] at hmem
  have hlib : libStanza.1.dependsOnNames = [] := by decide +kernel
  simp only [readCalls, List.flatMap_cons, List.flatMap_nil, hlib, List.count_nil,
    List.replicate_zero, List.append_nil] at hmem
  rw [List.eq_of_mem_replicate hmem] at hinstalled
  exact absurd hinstalled (by decide +kernel)

end FirmwareTools.Opkg

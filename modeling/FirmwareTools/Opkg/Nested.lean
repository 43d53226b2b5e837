import FirmwareTools.Opkg.Install

/-! # Nested calls

`opkg_install_pkg` calls itself and `opkg_remove_pkg` for other packages. If the calls are replaced
by ones that do the same wherever the old ones returned, then what is around them does the same
wherever it returned.

* **`removePkgBody_extends`** — `opkg_remove_pkg`;
* **`untilPointOfNoReturn_extends`** — all of `opkg_install_pkg` that makes nested calls. -/

namespace FirmwareTools.Opkg

open Op

variable {env : Env} {installPkg installPkg' removePkg removePkg' : PkgId → Run Int}

/-! ## Removing -/

theorem removePkgs_extends (hremove : ∀ i, Extends (removePkg' i) (removePkg i))
    (pkgs : List PkgId) : Extends (removePkgs removePkg' pkgs) (removePkgs removePkg pkgs) := by
  induction pkgs with
  | nil => exact Extends.refl _
  | cons i pkgs ih =>
      unfold removePkgs
      exact Extends.bind (hremove i) fun err => Extends.ite (Extends.refl _) ih

theorem removeIfOrphaned_extends (hremove : ∀ i, Extends (removePkg' i) (removePkg i))
    (depend : Depend) :
    Extends (removeIfOrphaned removePkg' depend) (removeIfOrphaned removePkg depend) := by
  unfold removeIfOrphaned
  refine Extends.bind_right _ fun w => ?_
  split
  · exact Extends.refl _
  · rename_i p _
    refine Extends.bind_right _ fun pkg => Extends.ite (Extends.refl _) ?_
    refine Extends.bind_right _ fun w => Extends.bind_right _ fun n => ?_
    exact Extends.ite (Extends.bind (hremove p) fun _ => Extends.refl _) (Extends.refl _)

theorem removeOrphans_extends (hremove : ∀ i, Extends (removePkg' i) (removePkg i)) (err : Int)
    (depends : List Depend) :
    Extends (removeOrphans removePkg' err depends) (removeOrphans removePkg err depends) := by
  induction depends generalizing err with
  | nil => exact Extends.refl _
  | cons depend depends ih =>
      unfold removeOrphans
      refine Extends.bind (removeIfOrphaned_extends hremove depend) fun r => ?_
      cases r with
      | none => exact Extends.refl _
      | some r => exact ih _

theorem removeAutoinstalled_extends (hremove : ∀ i, Extends (removePkg' i) (removePkg i))
    (i : PkgId) : Extends (removeAutoinstalled removePkg' i) (removeAutoinstalled removePkg i) :=
  Extends.bind_right _ fun _ => removeOrphans_extends hremove 0 _

theorem opkgRemoveDependentPkgs_extends (hremove : ∀ i, Extends (removePkg' i) (removePkg i))
    (i : PkgId) (dependents : List AbstractPkgId) :
    Extends (opkgRemoveDependentPkgs removePkg' i dependents)
      (opkgRemoveDependentPkgs removePkg i dependents) := by
  unfold opkgRemoveDependentPkgs
  refine Extends.bind_right _ fun pkg => ?_
  split
  · exact Extends.refl _
  · refine Extends.bind_right _ fun w => Extends.ite (Extends.refl _) ?_
    refine Extends.bind_right _ fun _ => Extends.bind_right _ fun w => ?_
    exact Extends.bind_right _ fun pkgs => removePkgs_extends hremove pkgs

theorem removeDependents_extends (hremove : ∀ i, Extends (removePkg' i) (removePkg i))
    (i : PkgId) :
    Extends (removeDependents env removePkg' i) (removeDependents env removePkg i) := by
  unfold removeDependents
  refine Extends.bind_right _ fun pkg => Extends.ite (Extends.refl _) ?_
  refine Extends.bind_right _ fun w => Extends.bind_right _ fun n => ?_
  refine Extends.ite (Extends.refl _) (Extends.ite (Extends.refl _) ?_)
  exact opkgRemoveDependentPkgs_extends hremove i _

theorem removePkgFiles_extends (hremove : ∀ i, Extends (removePkg' i) (removePkg i)) (i : PkgId)
    (parent : AbstractPkgId) :
    Extends (removePkgFiles env removePkg' i parent) (removePkgFiles env removePkg i parent) := by
  unfold removePkgFiles
  refine Extends.bind_right _ fun _ => Extends.bind_right _ fun pkg => ?_
  refine Extends.bind_right _ fun err => Extends.ite (Extends.refl _) ?_
  refine Extends.bind_right _ fun _ => Extends.bind_right _ fun pkg => ?_
  refine Extends.bind_right _ fun err => Extends.bind_right _ fun pkg => ?_
  refine Extends.bind_right _ fun _ => Extends.bind_right _ fun _ => ?_
  refine Extends.bind_right _ fun _ => Extends.ite ?_ (Extends.refl _)
  exact Extends.bind (removeAutoinstalled_extends hremove i) fun _ => Extends.refl _

/-- **`opkg_remove_pkg`**: calls that return more often make it return more often. -/
theorem removePkgBody_extends (hremove : ∀ i, Extends (removePkg' i) (removePkg i)) (i : PkgId)
    (fromUpgrade : Bool) :
    Extends (removePkgBody env removePkg' i fromUpgrade)
      (removePkgBody env removePkg i fromUpgrade) := by
  unfold removePkgBody
  refine Extends.bind_right _ fun pkg => Extends.ite (Extends.refl _) ?_
  cases pkg.parent with
  | none => exact Extends.refl _
  | some parent =>
      refine Extends.bind (removeDependents_extends hremove i) fun err => ?_
      refine Extends.ite (Extends.refl _) ?_
      extract_lets rest' rest
      have hrest : Extends (rest' ()) (rest ()) := removePkgFiles_extends hremove i parent
      exact Extends.ite (Extends.bind_right _ fun _ => hrest) hrest

/-! ## Installing -/

theorem installDepends_extends (hinstall : ∀ i, Extends (installPkg' i) (installPkg i))
    (depends : List PkgId) :
    Extends (installDepends installPkg' depends) (installDepends installPkg depends) := by
  induction depends with
  | nil => exact Extends.refl _
  | cons dep depends ih =>
      unfold installDepends
      refine Extends.bind_right _ fun pkg => Extends.ite ih ?_
      refine Extends.bind (hinstall dep) fun err => Extends.bind_right _ fun _ => ?_
      exact Extends.ite (Extends.refl _) ih

theorem satisfyDependenciesFor_extends (hinstall : ∀ i, Extends (installPkg' i) (installPkg i))
    (i : PkgId) :
    Extends (satisfyDependenciesFor env installPkg' i) (satisfyDependenciesFor env installPkg i) := by
  unfold satisfyDependenciesFor
  refine Extends.bind_right _ fun w => Extends.bind_right _ fun r => Extends.bind_right _ fun _ => ?_
  refine Extends.ite (Extends.refl _) (Extends.ite (Extends.refl _) ?_)
  exact Extends.bind_right _ fun _ => installDepends_extends hinstall _

theorem removeOrphanDependent_extends (hremove : ∀ i, Extends (removePkg' i) (removePkg i))
    (depend : Depend) :
    Extends (removeOrphanDependent removePkg' depend) (removeOrphanDependent removePkg depend) := by
  unfold removeOrphanDependent
  refine Extends.bind_right _ fun w => ?_
  split
  · exact Extends.refl _
  · rename_i p _
    refine Extends.bind_right _ fun pkg => Extends.ite (Extends.refl _) ?_
    refine Extends.bind_right _ fun w => Extends.bind_right _ fun n => ?_
    refine Extends.ite ?_ (Extends.refl _)
    exact Extends.bind_right _ fun _ => Extends.bind (hremove p) fun _ => Extends.refl _

theorem pkgRemoveOrphanDependent_extends (hremove : ∀ i, Extends (removePkg' i) (removePkg i))
    (oldPkg : PkgId) :
    Extends (pkgRemoveOrphanDependent removePkg' oldPkg)
      (pkgRemoveOrphanDependent removePkg oldPkg) :=
  Extends.bind_right _ fun _ => Extends.forM fun depend => removeOrphanDependent_extends hremove depend

theorem pkgRemoveInstalledReplacees_extends
    (hremove : ∀ i, Extends (removePkg' i) (removePkg i)) (replacees : List PkgId) :
    Extends (pkgRemoveInstalledReplacees removePkg' replacees)
      (pkgRemoveInstalledReplacees removePkg replacees) := by
  induction replacees with
  | nil => exact Extends.refl _
  | cons replacee replacees ih =>
      unfold pkgRemoveInstalledReplacees
      refine Extends.bind_right _ fun _ => Extends.bind (hremove replacee) fun err => ?_
      exact Extends.ite (Extends.refl _) ih

theorem pkgRemoveInstalledReplaceesUnwind_extends
    (hinstall : ∀ i, Extends (installPkg' i) (installPkg i)) (replacees : List PkgId) :
    Extends (pkgRemoveInstalledReplaceesUnwind installPkg' replacees)
      (pkgRemoveInstalledReplaceesUnwind installPkg replacees) := by
  induction replacees with
  | nil => exact Extends.refl _
  | cons replacee replacees ih =>
      unfold pkgRemoveInstalledReplaceesUnwind
      refine Extends.bind_right _ fun pkg => Extends.ite ?_ ih
      exact Extends.bind (hinstall replacee) fun err => Extends.ite (Extends.refl _) ih

theorem unwindableSteps_extends (hinstall : ∀ i, Extends (installPkg' i) (installPkg i))
    (hremove : ∀ i, Extends (removePkg' i) (removePkg i)) (i : PkgId) (oldPkg : Option PkgId)
    (replacees : List PkgId) :
    Extends (unwindableSteps env installPkg' removePkg' i oldPkg replacees)
      (unwindableSteps env installPkg removePkg i oldPkg replacees) := by
  have hunwind : Extends
      (do let _ ← pkgRemoveInstalledReplaceesUnwind installPkg' replacees; return -1 : Run Int)
      (do let _ ← pkgRemoveInstalledReplaceesUnwind installPkg replacees; return -1) :=
    Extends.bind (pkgRemoveInstalledReplaceesUnwind_extends hinstall replacees) fun _ =>
      Extends.refl _
  unfold unwindableSteps
  refine Extends.bind (pkgRemoveInstalledReplacees_extends hremove replacees) fun err => ?_
  refine Extends.ite hunwind (Extends.bind_right _ fun err => Extends.ite hunwind ?_)
  refine Extends.bind_right _ fun w => Extends.bind_right _ fun err => ?_
  extract_lets rest' rest
  have hrest : ∀ err, Extends (rest' err) (rest err) := by
    intro err
    refine Extends.ite ?_ (Extends.refl _)
    exact Extends.bind_right _ fun w => Extends.bind_right _ fun _ => hunwind
  exact Extends.ite (hrest err) (Extends.bind_right _ hrest)

theorem beforePointOfNoReturn_extends (hinstall : ∀ i, Extends (installPkg' i) (installPkg i))
    (hremove : ∀ i, Extends (removePkg' i) (removePkg i)) (i : PkgId) (oldPkg : Option PkgId) :
    Extends (beforePointOfNoReturn env installPkg' removePkg' i oldPkg)
      (beforePointOfNoReturn env installPkg removePkg i oldPkg) := by
  unfold beforePointOfNoReturn
  refine Extends.bind_right _ fun w => Extends.bind_right _ fun replacees => ?_
  refine Extends.bind_right _ fun _ => ?_
  refine Extends.bind (Extends.forM (pkgRemoveOrphanDependent_extends hremove)) fun _ => ?_
  exact Extends.bind (unwindableSteps_extends hinstall hremove i oldPkg replacees) fun err =>
    Extends.refl _

theorem atStage_extends (hinstall : ∀ i, Extends (installPkg' i) (installPkg i))
    (hremove : ∀ i, Extends (removePkg' i) (removePkg i)) (i : PkgId) (stage : Stage) :
    Extends (atStage env installPkg' removePkg' i stage)
      (atStage env installPkg removePkg i stage) := by
  have hsatisfy : Extends (satisfyDependenciesFor env installPkg' i)
      (satisfyDependenciesFor env installPkg i) := satisfyDependenciesFor_extends hinstall i
  cases stage with
  | alreadyInstalled => exact Extends.bind hsatisfy fun err => Extends.refl _
  | downloadOnly => exact Extends.bind hsatisfy fun err => Extends.refl _
  | install oldPkg =>
      have hlast : Extends (beforePointOfNoReturn env installPkg' removePkg' i oldPkg)
          (beforePointOfNoReturn env installPkg removePkg i oldPkg) :=
        beforePointOfNoReturn_extends hinstall hremove i oldPkg
      refine Extends.ite hlast (Extends.bind hsatisfy fun err => ?_)
      refine Extends.ite (Extends.refl _) (Extends.bind_right _ fun pkg => ?_)
      exact Extends.ite (Extends.refl _) hlast

/-- **Up to the point of no return**: calls that return more often make it return more often. -/
theorem untilPointOfNoReturn_extends (hinstall : ∀ i, Extends (installPkg' i) (installPkg i))
    (hremove : ∀ i, Extends (removePkg' i) (removePkg i)) (i : PkgId) :
    Extends (untilPointOfNoReturn env installPkg' removePkg' i)
      (untilPointOfNoReturn env installPkg removePkg i) := by
  unfold untilPointOfNoReturn
  refine Extends.bind_right _ fun progressed => ?_
  cases progressed with
  | done rc => exact Extends.refl _
  | go stage => exact atStage_extends hinstall hremove i stage

end FirmwareTools.Opkg

import FirmwareTools.Opkg.Statuses

/-! # The steps of a removal

`opkg_remove_pkg` calls itself for the dependents of a package, before the steps of the removal itself: the
`prerm` script, the files and the `postrm` script. A log has the packages whose steps are run, in their order.

* **`opkgRemovePkg_log`** — the log changes nothing, without `autoremove`;
* **`uninstallFiles_returns`** — the steps are run for an installed package, if its scripts succeed. -/

namespace FirmwareTools.Opkg

open Op

/-! ## Removing with a log -/

section Log

variable (env : Env) (removePkg : PkgId → Run (Int × List PkgId))

/-- `removePkgs` with a log. -/
def removePkgsLog : List PkgId → Run (Int × List PkgId)
  | [] => return (0, [])
  | i :: pkgs => do
    let (err, log) ← removePkg i
    if err ≠ 0 then return (err, log)
    else
      let (err, log') ← removePkgsLog pkgs
      return (err, log ++ log')

/-- `opkg_remove_dependent_pkgs` with a log. -/
def opkgRemoveDependentPkgsLog (i : PkgId) (dependents : List AbstractPkgId) : Run (Int × List PkgId) := do
  match (← getPkg i).parent with
  | none => return (0, [])
  | some abPkg =>
    if (← get).marks abPkg = 2 then return (0, [])
    else
      modify fun w => { w with marks := Function.update w.marks abPkg 2 }
      let pkgs ← Op.deref (dependentPkgs (← get) dependents)
      removePkgsLog removePkg pkgs

/-- `removeDependents` with a log. -/
def removeDependentsLog (i : PkgId) : Run (Int × List PkgId) := do
  let pkg ← getPkg i
  if env.forceDepends ∨ pkg.stateFlag.replace then return (0, [])
  else
    let (n, dependents) ← Op.deref (pkgHasInstalledDependents (← get).db pkg)
    if n = 0 then return (0, [])
    else if !env.forceRemovalOfDependentPackages then return (-1, [])
    else opkgRemoveDependentPkgsLog removePkg i dependents

/-- The body of `opkg_remove_pkg` with a log. The package is in it if its steps have been run, which is not
so if the `prerm` script refuses. -/
def removePkgBodyLog (i : PkgId) : Run (Int × List PkgId) := do
  let pkg ← getPkg i
  if pkg.essential ∧ !env.forceRemovalOfEssentialPackages then return (-1, [])
  else
    match pkg.parent with
    | none => return (0, [])
    | some parent =>
      let (err, log) ← removeDependentsLog env removePkg i
      if err ≠ 0 then return (err, log)
      else
        let _ ← Op.deref pkg.dest
        match ← uninstallFiles env i parent with
        | none => return (-1, log)
        | some err => return (err, log ++ [i])

end Log

/-- `opkg_remove_pkg` with a log, for calls that are not from an upgrade. -/
def opkgRemovePkgLog (env : Env) : Nat → PkgId → Run (Int × List PkgId)
  | 0, _ => Op.stop
  | fuel + 1, i => removePkgBodyLog env (opkgRemovePkgLog env fuel) i

variable {env : Env} {removePkg : PkgId → Run (Int × List PkgId)}

/-! ### Without the log -/

theorem removePkgs_log (pkgs : List PkgId) :
    Prod.fst <$> removePkgsLog removePkg pkgs = removePkgs (fun i => Prod.fst <$> removePkg i) pkgs := by
  induction pkgs with
  | nil => rfl
  | cons i pkgs ih =>
      unfold removePkgsLog removePkgs
      rw [← ih]
      simp only [map_bind, bind_map_left]
      congr 1
      funext r
      split
      · rfl
      · simp only [map_bind, map_pure]
        rfl

theorem opkgRemoveDependentPkgs_log (i : PkgId) (dependents : List AbstractPkgId) :
    Prod.fst <$> opkgRemoveDependentPkgsLog removePkg i dependents
      = opkgRemoveDependentPkgs (fun i => Prod.fst <$> removePkg i) i dependents := by
  unfold opkgRemoveDependentPkgsLog opkgRemoveDependentPkgs
  rw [map_bind]
  congr 1
  funext pkg
  cases pkg.parent with
  | none => rfl
  | some abPkg =>
      dsimp only
      rw [map_bind]
      congr 1
      funext w
      split
      · rfl
      · simp only [map_bind, removePkgs_log]

theorem removeDependents_log (i : PkgId) :
    Prod.fst <$> removeDependentsLog env removePkg i
      = removeDependents env (fun i => Prod.fst <$> removePkg i) i := by
  unfold removeDependentsLog removeDependents
  rw [map_bind]
  congr 1
  funext pkg
  split
  · rfl
  · simp only [map_bind]
    congr 1
    funext w
    congr 1
    funext r
    split
    · rfl
    · split
      · rfl
      · exact opkgRemoveDependentPkgs_log i r.2

/-- Without `autoremove` nothing comes behind the steps. -/
theorem removePkgBody_log (hauto : env.autoremove = false) (i : PkgId) :
    Prod.fst <$> removePkgBodyLog env removePkg i
      = removePkgBody env (fun i => Prod.fst <$> removePkg i) i false := by
  unfold removePkgBodyLog removePkgBody
  rw [map_bind]
  congr 1
  funext pkg
  simp only [Bool.not_false, true_and, if_true]
  split
  · rfl
  · cases pkg.parent with
    | none => rfl
    | some parent =>
        dsimp only
        rw [← removeDependents_log]
        simp only [map_bind, bind_map_left]
        congr 1
        funext r
        split
        · rfl
        · simp only [map_bind]
          congr 1
          funext dest
          rw [removePkgFiles_eq]
          congr 1
          funext err
          cases err with
          | none => rfl
          | some err =>
              dsimp only
              rw [hauto]
              rfl

/-- **The log changes nothing.** -/
theorem opkgRemovePkg_log (hauto : env.autoremove = false) (fuel : Nat) (i : PkgId) :
    Prod.fst <$> opkgRemovePkgLog env fuel i = opkgRemovePkg env fuel i false := by
  induction fuel generalizing i with
  | zero => rfl
  | succ fuel ih =>
      have hnested : (fun i => Prod.fst <$> opkgRemovePkgLog env fuel i)
          = fun i => opkgRemovePkg env fuel i false := funext ih
      rw [opkgRemovePkgLog, removePkgBody_log hauto, hnested]
      rfl

/-- The same the other way round. -/
theorem opkgRemovePkgLog_of_eq_some (hauto : env.autoremove = false) {fuel : Nat} {i : PkgId} {w w' : World}
    {rc : Int} (h : opkgRemovePkg env fuel i false w = some (rc, w')) :
    ∃ log, opkgRemovePkgLog env fuel i w = some ((rc, log), w') := by
  rw [← opkgRemovePkg_log hauto] at h
  obtain ⟨r, w₁, hrun, hr⟩ := bind_eq_some.mp (show (opkgRemovePkgLog env fuel i >>= fun r => pure r.1) w = _ from h)
  obtain ⟨rfl, rfl⟩ := Prod.mk.inj (pure_eq_some.mp hr)
  exact ⟨r.2, hrun⟩

theorem opkgRemovePkg_of_log (hauto : env.autoremove = false) {fuel : Nat} {i : PkgId} {w w' : World}
    {rc : Int} {log : List PkgId} (h : opkgRemovePkgLog env fuel i w = some ((rc, log), w')) :
    opkgRemovePkg env fuel i false w = some (rc, w') := by
  rw [← opkgRemovePkg_log hauto]
  show (opkgRemovePkgLog env fuel i >>= fun r => pure r.1) w = _
  rw [bind_of_eq_some h]
  rfl

/-! ### Deeper calls -/

section Extends

variable {removePkg' : PkgId → Run (Int × List PkgId)}

theorem removePkgsLog_extends (hremove : ∀ i, Extends (removePkg' i) (removePkg i)) (pkgs : List PkgId) :
    Extends (removePkgsLog removePkg' pkgs) (removePkgsLog removePkg pkgs) := by
  induction pkgs with
  | nil => exact Extends.refl _
  | cons i pkgs ih =>
      unfold removePkgsLog
      refine Extends.bind (hremove i) fun r => Extends.ite (Extends.refl _) ?_
      exact Extends.bind ih fun _ => Extends.refl _

theorem removeDependentsLog_extends (hremove : ∀ i, Extends (removePkg' i) (removePkg i)) (i : PkgId) :
    Extends (removeDependentsLog env removePkg' i) (removeDependentsLog env removePkg i) := by
  unfold removeDependentsLog
  refine Extends.bind_right _ fun pkg => Extends.ite (Extends.refl _) ?_
  refine Extends.bind_right _ fun w => Extends.bind_right _ fun r => ?_
  refine Extends.ite (Extends.refl _) (Extends.ite (Extends.refl _) ?_)
  unfold opkgRemoveDependentPkgsLog
  refine Extends.bind_right _ fun pkg => ?_
  split
  · exact Extends.refl _
  · refine Extends.bind_right _ fun w => Extends.ite (Extends.refl _) ?_
    refine Extends.bind_right _ fun _ => Extends.bind_right _ fun w => ?_
    exact Extends.bind_right _ fun pkgs => removePkgsLog_extends hremove pkgs

theorem removePkgBodyLog_extends (hremove : ∀ i, Extends (removePkg' i) (removePkg i)) (i : PkgId) :
    Extends (removePkgBodyLog env removePkg' i) (removePkgBodyLog env removePkg i) := by
  unfold removePkgBodyLog
  refine Extends.bind_right _ fun pkg => Extends.ite (Extends.refl _) ?_
  split
  · exact Extends.refl _
  · refine Extends.bind (removeDependentsLog_extends hremove i) fun r => ?_
    exact Extends.ite (Extends.refl _) (Extends.refl _)

end Extends

/-- **A deeper recursion** does the same. -/
theorem opkgRemovePkgLog_extends {fuel fuel' : Nat} (h : fuel ≤ fuel') (i : PkgId) :
    Extends (opkgRemovePkgLog env fuel' i) (opkgRemovePkgLog env fuel i) := by
  induction fuel generalizing fuel' i with
  | zero => exact Extends.stop _
  | succ fuel ih =>
      obtain ⟨fuel', rfl⟩ := Nat.exists_eq_succ_of_ne_zero (Nat.ne_of_gt (Nat.lt_of_lt_of_le fuel.succ_pos h))
      exact removePkgBodyLog_extends (fun i => ih (Nat.le_of_succ_le_succ h) i) i

/-- Two calls that return do the same. -/
theorem opkgRemovePkgLog_unique {fuel fuel' : Nat} {i : PkgId} {w : World}
    {r r' : (Int × List PkgId) × World} (h : opkgRemovePkgLog env fuel i w = some r)
    (h' : opkgRemovePkgLog env fuel' i w = some r') : r = r' := by
  have hdeep := opkgRemovePkgLog_extends (le_max_left fuel fuel') i w r h
  have hdeep' := opkgRemovePkgLog_extends (le_max_right fuel fuel') i w r' h'
  exact Option.some.inj (hdeep.symm.trans hdeep')

/-! ## The steps are run -/

theorem ask_total {α : Type} (question : Nat → α) : Total (ask question) :=
  Total.bind Total.get fun _ => Total.bind (Total.modify _) fun _ => Total.pure _

theorem fileExists_total (path : CStr) : Total (fileExists path) :=
  Total.bind Total.get fun _ => Total.pure _

theorem fileIsDir_total (path : CStr) : Total (fileIsDir path) :=
  Total.bind Total.get fun _ => Total.pure _

theorem readFile_total (path : CStr) : Total (readFile env path) := by
  refine Total.bind (ask_total _) fun opened => Total.bind Total.get fun disk => ?_
  split
  · exact Total.pure _
  · exact Total.pure _

theorem unlink_total (path : CStr) : Total (unlink env path) := by
  refine Total.bind (ask_total _) fun succeeded => Total.bind Total.get fun disk => ?_
  split
  · refine Total.ite ?_ (Total.pure _)
    exact Total.bind (Total.modify _) fun _ => Total.pure _
  · exact Total.pure _

theorem rmdir_total (path : CStr) : Total (rmdir env path) := by
  refine Total.bind (ask_total _) fun succeeded => Total.bind Total.get fun disk => ?_
  split
  · refine Total.ite ?_ (Total.pure _)
    exact Total.bind (Total.modify _) fun _ => Total.pure _
  · exact Total.pure _

theorem conffileHasBeenModified_total (conffile : Conffile) : Total (conffileHasBeenModified env conffile) := by
  unfold conffileHasBeenModified
  split
  · exact Total.pure _
  · refine Total.bind (Total.bind (readFile_total _) fun _ => Total.pure _) fun md5sum => ?_
    split
    · exact Total.pure _
    · exact Total.pure _

theorem removeEmptyDirs_total (n : Nat) (dirs : List CStr) : Total (removeEmptyDirs env n dirs) := by
  induction n generalizing dirs with
  | zero => exact Total.pure _
  | succ n ih =>
      unfold removeEmptyDirs
      refine Total.bind (Total.foldlM (fun left dir => ?_) _) fun left => Total.ite (ih left) (Total.pure _)
      refine Total.bind (rmdir_total dir) fun removed => ?_
      exact Total.ite (Total.pure _) (Total.pure _)

/-- The list file of a package with a destination. -/
theorem loadInstalledFiles_total {pkg : Pkg} {dest : PkgDest} (hdest : pkg.dest = some dest)
    (hstatus : pkg.stateStatus = .installed) : Total (loadInstalledFiles env pkg) := by
  unfold loadInstalledFiles
  rw [hdest]
  dsimp only
  rw [hstatus, if_neg (by decide)]
  refine Total.bind (readFile_total _) fun content => ?_
  split
  · exact Total.pure _
  · exact Total.pure _

/-- A script of an installed package that is there succeeds. -/
theorem pkgRunScript_returns (hscripts : ∀ n cmd files, (env.xsystem n cmd files).1 = 0) {pkg : Pkg}
    {dest : PkgDest} (hdest : pkg.dest = some dest) (hstatus : pkg.stateStatus = .installed)
    (script args : CStr) :
    Returns (fun _ => True) (pkgRunScript env pkg script args) fun err _ => err = 0 := by
  unfold pkgRunScript
  refine Returns.ite (fun _ => Returns.pure fun _ _ => rfl) fun _ => ?_
  have hpath : scriptPath pkg script
      = some (dest.infoDir ++ "/".toList ++ pkg.name ++ ".".toList ++ script) := by
    rw [scriptPath, if_pos (by simp [Pkg.isInstalled, hstatus]), hdest, Option.map_some]
  rw [hpath]
  refine Returns.bind (fileExists_total _) fun present => Returns.ite (fun _ => ?_) fun _ =>
    Returns.pure fun _ _ => rfl
  intro disk _
  exact ⟨_, _, rfl, hscripts _ _ _⟩

/-- The package is installed, at the destination. -/
def InstalledAt (i : PkgId) (dest : PkgDest) (w : World) : Prop :=
  (w.db.pkg i).stateStatus = .installed ∧ (w.db.pkg i).dest = some dest

section Steps

variable {i : PkgId} {dest : PkgDest} {α : Type} {Q : α → World → Prop}

theorem returns_liftM {op : DiskOp α} (hop : Total op) :
    Returns (InstalledAt i dest) (liftM op : Run α) fun _ => InstalledAt i dest := by
  intro w hw
  obtain ⟨a, disk, hrun, -⟩ := hop w.disk trivial
  exact ⟨a, { w with disk }, onDisk_eq_some.mpr ⟨disk, hrun, rfl⟩, hw⟩

theorem returns_getPkg {f : Pkg → Run α} (hf : ∀ pkg : Pkg, pkg.stateStatus = .installed →
      pkg.dest = some dest → Returns (InstalledAt i dest) (f pkg) Q) :
    Returns (InstalledAt i dest) (getPkg i >>= f) Q := fun w hw => hf _ hw.1 hw.2 w hw

theorem returns_modifyPkg {f : Pkg → Pkg} (hstatus : ∀ pkg, (f pkg).stateStatus = pkg.stateStatus)
    (hdest : ∀ pkg, (f pkg).dest = pkg.dest) :
    Returns (InstalledAt i dest) (modifyPkg i f) fun _ => InstalledAt i dest := by
  refine Returns.modify fun w hw => ?_
  unfold InstalledAt
  rw [Database.setPkg_pkg_self, hstatus, hdest]
  exact hw

theorem pkgGetInstalledFiles_returns :
    Returns (InstalledAt i dest) (pkgGetInstalledFiles env i) fun _ => InstalledAt i dest := by
  refine Returns.bind (returns_modifyPkg (fun _ => rfl) fun _ => rfl) fun _ => ?_
  refine returns_getPkg fun pkg hstatus hdest => ?_
  split
  · exact Returns.pure fun _ hw => hw
  · refine Returns.bind (returns_liftM (loadInstalledFiles_total hdest hstatus)) fun files => ?_
    refine Returns.bind (returns_modifyPkg (fun _ => rfl) fun _ => rfl) fun _ => ?_
    exact Returns.pure fun _ hw => hw

theorem removeDataFile_returns (fileName : CStr) :
    Returns (InstalledAt i dest) (removeDataFile env i fileName) fun _ => InstalledAt i dest := by
  have hpure : ∀ r : Option CStr,
      Returns (InstalledAt i dest) (pure r : Run (Option CStr)) fun _ => InstalledAt i dest :=
    fun r => Returns.pure fun _ hw => hw
  unfold removeDataFile
  refine Returns.get_bind fun w hw => Returns.ite (fun _ => hpure _) fun _ => ?_
  refine Returns.bind (returns_liftM (fileIsDir_total _)) fun isDir => Returns.ite (fun _ => hpure _) fun _ => ?_
  refine returns_getPkg fun pkg hstatus hdest => ?_
  extract_lets last rest
  have hlast : Returns (InstalledAt i dest) (last ()) fun _ => InstalledAt i dest :=
    Returns.bind (Returns.modify fun _ hw => hw) fun _ => hpure _
  have hrest : ∀ modified, Returns (InstalledAt i dest) (rest modified) fun _ => InstalledAt i dest := by
    intro modified
    refine Returns.ite (fun _ => hpure _) fun _ => ?_
    split
    · exact Returns.bind (returns_liftM (unlink_total _)) fun _ => hlast
    · exact hlast
  split
  · exact Returns.bind (returns_liftM (conffileHasBeenModified_total _)) hrest
  · exact hrest false

theorem removeDataFilesAndList_returns :
    Returns (InstalledAt i dest) (removeDataFilesAndList env i) fun _ => InstalledAt i dest := by
  have hpure : Returns (InstalledAt i dest) (pure PUnit.unit : Run PUnit) fun _ => InstalledAt i dest :=
    Returns.pure fun _ hw => hw
  unfold removeDataFilesAndList
  refine Returns.bind pkgGetInstalledFiles_returns fun files => ?_
  split
  · exact hpure
  · refine Returns.bind (Returns.foldlM (fun dirs fileName _ => ?_) _) fun installedDirs => ?_
    · exact Returns.bind (removeDataFile_returns fileName) fun _ => Returns.pure fun _ hw => hw
    · extract_lets rest
      have hrest : Returns (InstalledAt i dest) (rest ()) fun _ => InstalledAt i dest := by
        refine Returns.bind (returns_modifyPkg (fun pkg => ?_) fun pkg => ?_) fun _ => ?_
        · dsimp only
          split <;> rfl
        · dsimp only
          split <;> rfl
        · refine returns_getPkg fun pkg hstatus hdest => ?_
          have hderef : Returns (InstalledAt i dest) (Op.deref pkg.dest) fun _ => InstalledAt i dest := by
            rw [hdest]
            exact fun w hw => ⟨dest, w, rfl, hw⟩
          refine Returns.bind hderef fun _ => Returns.ite (fun _ => ?_) fun _ => hpure
          exact Returns.bind (returns_liftM (unlink_total _)) fun _ => hpure
      split
      · exact Returns.bind (returns_liftM (removeEmptyDirs_total _ _)) fun _ => hrest
      · exact hrest

theorem removeMaintainerScripts_total {pkg : Pkg} (hdest : pkg.dest = some dest) :
    Total (removeMaintainerScripts env pkg) := by
  unfold removeMaintainerScripts
  refine Total.ite (Total.pure _) ?_
  rw [hdest]
  refine Total.bind (fun disk _ => ⟨dest, disk, rfl, trivial⟩) fun _ => ?_
  exact Total.bind (ask_total _) fun _ => Total.modify _

end Steps

/-- What the steps leave as it is, but for the status. -/
structure SameSteps (w w' : World) : Prop where
  major : SameMajor w w'
  dest : ∀ i, (w'.db.pkg i).dest = (w.db.pkg i).dest
  essential : ∀ i, (w'.db.pkg i).essential = (w.db.pkg i).essential
  replace : ∀ i, (w'.db.pkg i).stateFlag.replace = (w.db.pkg i).stateFlag.replace
  marks : w'.marks = w.marks

theorem sameSteps_frame : Frame SameSteps where
  refl w := ⟨SameMajor.refl w, fun _ => rfl, fun _ => rfl, fun _ => rfl, rfl⟩
  trans h h' := ⟨h.major.trans h'.major, fun i => (h'.dest i).trans (h.dest i),
    fun i => (h'.essential i).trans (h.essential i), fun i => (h'.replace i).trans (h.replace i),
    h'.marks.trans h.marks⟩

theorem SameSteps.setPkg {w : World} {i : PkgId} {p : Pkg} (hmajor : p.major = (w.db.pkg i).major)
    (hdest : p.dest = (w.db.pkg i).dest) (hessential : p.essential = (w.db.pkg i).essential)
    (hreplace : p.stateFlag.replace = (w.db.pkg i).stateFlag.replace) :
    SameSteps w { w with db := w.db.setPkg i p } := by
  have hsame : ∀ {β : Type} (f : Pkg → β), f p = f (w.db.pkg i) →
      ∀ j, f ((w.db.setPkg i p).pkg j) = f (w.db.pkg j) := by
    intro β f hf j
    by_cases hj : j = i
    · subst hj
      rw [Database.setPkg_pkg_self, hf]
    · rw [Database.setPkg_pkg_of_ne _ _ hj]
  exact ⟨SameMajor.setPkg hmajor, hsame Pkg.dest hdest, hsame Pkg.essential hessential,
    hsame (fun p => p.stateFlag.replace) hreplace, rfl⟩

theorem sameSteps_disk : Allows SameSteps .disk := by
  rintro w w' ⟨disk, rfl⟩
  exact ⟨⟨fun _ => rfl, rfl, rfl⟩, fun _ => rfl, fun _ => rfl, fun _ => rfl, rfl⟩

theorem sameSteps_owners : Allows SameSteps .owners := by
  rintro w w' ⟨fileHash, rfl⟩
  exact ⟨⟨fun _ => rfl, rfl, rfl⟩, fun _ => rfl, fun _ => rfl, fun _ => rfl, rfl⟩

theorem sameSteps_list (i : PkgId) : Allows SameSteps (.list i) := by
  rintro w w' ⟨files, cnt, rfl⟩
  exact SameSteps.setPkg rfl rfl rfl rfl

theorem sameSteps_want (i : PkgId) : Keeps SameSteps (modifyPkg i fun p =>
    { p.withFilelistChanged true with stateWant := .deinstall }) := by
  intro w _ w₀ hwant
  obtain ⟨-, rfl⟩ := Prod.mk.inj (modifyPkg_eq_some.mp hwant)
  exact SameSteps.setPkg rfl rfl rfl rfl

/-- Whatever the scripts do, a package whose steps have been run is not installed any more. -/
theorem uninstallFiles_sameSteps {i : PkgId} {parent : AbstractPkgId} {w w' : World} {r : Option Int}
    (h : uninstallFiles env i parent w = some (r, w')) :
    (r = none ∧ SameSteps w w') ∨ ∃ err w₁, r = some err ∧ SameSteps w w₁ ∧ w' = w₁.uninstall i parent :=
  uninstallFiles_cases_of sameSteps_frame sameSteps_disk sameSteps_owners (sameSteps_list i)
    (sameSteps_want i) h

/-- **The steps are run** for an installed package with a destination, if the scripts succeed. -/
theorem uninstallFiles_returns (hscripts : ∀ n cmd files, (env.xsystem n cmd files).1 = 0) {i : PkgId}
    {parent : AbstractPkgId} {dest : PkgDest} {w : World} (hw : InstalledAt i dest w) :
    ∃ w₁, uninstallFiles env i parent w = some (some 0, w₁.uninstall i parent) ∧ SameSteps w w₁ := by
  have hscript : ∀ (pkg : Pkg), pkg.stateStatus = .installed → pkg.dest = some dest → ∀ script args,
      Returns (InstalledAt i dest) (liftM (pkgRunScript env pkg script args) : Run Int)
        fun err w => err = 0 ∧ InstalledAt i dest w := by
    intro pkg hstatus hdest script args w hw
    obtain ⟨err, disk, hrun, herr⟩ :=
      pkgRunScript_returns hscripts hdest hstatus script args w.disk trivial
    exact ⟨err, { w with disk }, onDisk_eq_some.mpr ⟨disk, hrun, rfl⟩, herr, hw⟩
  have hreturns : Returns (InstalledAt i dest) (uninstallFiles env i parent) fun r _ => r = some 0 := by
    refine Returns.bind (returns_modifyPkg (fun _ => rfl) fun _ => rfl) fun _ => ?_
    refine returns_getPkg fun pkg hstatus hdest => ?_
    refine Returns.bind (hscript pkg hstatus hdest _ _) fun err => ?_
    refine Returns.ite (fun hfail w hw => absurd hw.1 hfail.1) fun _ => ?_
    refine Returns.bind (fun w hw => removeDataFilesAndList_returns w hw.2) fun _ => ?_
    refine returns_getPkg fun pkg hstatus hdest => ?_
    refine Returns.bind (hscript pkg hstatus hdest _ _) fun err w hw => ?_
    obtain ⟨rfl, hw⟩ := hw
    obtain ⟨_, w₂, hrun, -⟩ := returns_liftM (removeMaintainerScripts_total hw.2) w hw
    refine ⟨some 0, _, bind_eq_some.mpr ⟨_, w, rfl, bind_eq_some.mpr ⟨_, w₂, hrun, rfl⟩⟩, rfl⟩
  obtain ⟨r, w', hrun, rfl⟩ := hreturns w hw
  rcases uninstallFiles_sameSteps hrun with ⟨hnone, -⟩ | ⟨err, w₁, herr, hsame, rfl⟩
  · exact absurd hnone (by simp)
  · exact ⟨w₁, hrun, hsame⟩

end FirmwareTools.Opkg

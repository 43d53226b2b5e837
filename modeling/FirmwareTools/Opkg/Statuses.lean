import FirmwareTools.Opkg.Footprint

/-! # Who writes a status

The status of a package is written in the last lines of an installation and in the middle of a removal.
Everything else leaves it alone, so a run is known by its nested calls and by these two writes.

* **`removePkgBody_cases`** — what `opkg_remove_pkg` does, up to writes that leave every status alone;
* **`opkgRemovePkg_onlyUninstalls`** — a removal, with all the removals it sets off, installs nothing;
* **`finishInstall_spec`** — the statuses after an installation. -/

namespace FirmwareTools.Opkg

open Op

variable {env : Env}

/-! ## Writes that leave the statuses alone -/

/-- What the packages are and whether they are installed is the same in both states. -/
structure SameMajor (w w' : World) : Prop where
  pkg : ∀ i, (w'.db.pkg i).major = (w.db.pkg i).major
  abstractPkg : w'.db.abstractPkg = w.db.abstractPkg
  names : w'.names = w.names

theorem SameMajor.refl (w : World) : SameMajor w w := ⟨fun _ => rfl, rfl, rfl⟩

theorem SameMajor.trans {w w' w'' : World} (h : SameMajor w w') (h' : SameMajor w' w'') :
    SameMajor w w'' :=
  ⟨fun i => (h'.pkg i).trans (h.pkg i), h'.abstractPkg.trans h.abstractPkg, h'.names.trans h.names⟩

theorem SameMajor.setPkg {w : World} {i : PkgId} {p : Pkg} (h : p.major = (w.db.pkg i).major) :
    SameMajor w { w with db := w.db.setPkg i p } where
  pkg j := by
    by_cases hj : j = i
    · subst hj
      rw [Database.setPkg_pkg_self, h]
    · rw [Database.setPkg_pkg_of_ne _ _ hj]
  abstractPkg := rfl
  names := rfl

theorem parent_major (p : Pkg) : p.major.parent = p.parent := rfl

theorem SameMajor.isInstalled {w w' : World} (h : SameMajor w w') (i : PkgId) :
    (w'.db.pkg i).isInstalled = (w.db.pkg i).isInstalled := by
  change (w'.db.pkg i).major.isInstalled = (w.db.pkg i).major.isInstalled
  rw [h.pkg i]

theorem SameMajor.installedByName {w w' : World} (h : SameMajor w w') (name : AbstractPkgId) :
    w'.db.installedByName name = w.db.installedByName name := by
  have hinstalled : (fun i => (w'.db.pkg i).isInstalled) = fun i => (w.db.pkg i).isInstalled := by
    funext i
    exact h.isInstalled i
  rw [Database.installedByName, Database.installedByName, hinstalled, Database.pkgVecFetchByName,
    Database.pkgVecFetchByName]
  simp only [Database.filed, h.abstractPkg]

theorem Write.sameMajor {k : Kind} {w w' : World} (h : Write k w w') : SameMajor w w' := by
  cases k with
  | disk => obtain ⟨disk, rfl⟩ := h; exact ⟨fun _ => rfl, rfl, rfl⟩
  | marks => obtain ⟨marks, rfl⟩ := h; exact ⟨fun _ => rfl, rfl, rfl⟩
  | owners => obtain ⟨fileHash, rfl⟩ := h; exact ⟨fun _ => rfl, rfl, rfl⟩
  | obsolete => obtain ⟨obsFileHash, rfl⟩ := h; exact ⟨fun _ => rfl, rfl, rfl⟩
  | minor => obtain ⟨i, p, hmajor, -, rfl⟩ := h; exact SameMajor.setPkg hmajor
  | list i => obtain ⟨files, cnt, rfl⟩ := h; exact SameMajor.setPkg rfl
  | changed => obtain ⟨i, changed, rfl⟩ := h; exact SameMajor.setPkg rfl

/-- A relation that looks at the major fields only allows every kind of write. -/
theorem AllowsAll.of_sameMajor {R : World → World → Prop} (hR : Frame R)
    (h : ∀ w w', SameMajor w w' → R w w') : AllowsAll R :=
  ⟨hR, fun _ w w' hw => h w w' hw.sameMajor⟩

theorem sameMajor_allowsAll : AllowsAll SameMajor :=
  AllowsAll.of_sameMajor ⟨SameMajor.refl, SameMajor.trans⟩ fun _ _ h => h

/-! ## Writes of a status -/

/-- Set the status. -/
def Pkg.withStatus (p : Pkg) (status : StateStatus) : Pkg := { p with stateStatus := status }

/-- Set the status of a name. -/
def AbstractPkg.withStatus (ab : AbstractPkg) (status : StateStatus) : AbstractPkg :=
  { ab with stateStatus := status }

/-- A package and its name are marked as not installed. -/
def World.uninstall (w : World) (i : PkgId) (a : AbstractPkgId) : World :=
  let db := w.db.setPkg i ((w.db.pkg i).withStatus .notInstalled)
  { w with db := db.setAbstractPkg a ((w.db.abstractPkg a).withStatus .notInstalled) }

theorem uninstall_pkg_self (w : World) (i : PkgId) (a : AbstractPkgId) :
    (w.uninstall i a).db.pkg i = (w.db.pkg i).withStatus .notInstalled :=
  Database.setPkg_pkg_self _ _ _

theorem uninstall_pkg_of_ne (w : World) {i j : PkgId} (a : AbstractPkgId) (h : j ≠ i) :
    (w.uninstall i a).db.pkg j = w.db.pkg j :=
  Database.setPkg_pkg_of_ne _ _ h

theorem uninstall_abstractPkg_self (w : World) (i : PkgId) (a : AbstractPkgId) :
    (w.uninstall i a).db.abstractPkg a = (w.db.abstractPkg a).withStatus .notInstalled :=
  Database.setAbstractPkg_self _ _ _

theorem uninstall_abstractPkg_of_ne (w : World) (i : PkgId) {a b : AbstractPkgId} (h : b ≠ a) :
    (w.uninstall i a).db.abstractPkg b = w.db.abstractPkg b :=
  Database.setAbstractPkg_of_ne _ _ h

/-! ## What a removal writes -/

section Nested

variable {removePkg : PkgId → Run Int}

/-- The removal itself up to the packages it leaves behind: what the `postrm` script returned, or
nothing if the `prerm` script refused. -/
def uninstallFiles (env : Env) (i : PkgId) (parent : AbstractPkgId) : Run (Option Int) := do
  modifyPkg i fun p => { p.withFilelistChanged true with stateWant := .deinstall }
  let err ← pkgRunScript env (← getPkg i) "prerm".toList "remove".toList
  if err ≠ 0 ∧ !env.forceRemove then return none
  else
    removeDataFilesAndList env i
    let err ← pkgRunScript env (← getPkg i) "postrm".toList "remove".toList
    removeMaintainerScripts env (← getPkg i)
    modifyPkg i fun p => { p with stateStatus := .notInstalled }
    modifyAbstractPkg parent fun ab => { ab with stateStatus := .notInstalled }
    return some err

/-- The rest of the removal. -/
theorem removePkgFiles_eq (i : PkgId) (parent : AbstractPkgId) :
    removePkgFiles env removePkg i parent = (do
      match ← uninstallFiles env i parent with
      | none => return -1
      | some err =>
        if env.autoremove then
          return if (← removeAutoinstalled removePkg i) ≠ 0 then -1 else err
        else return err) := by
  unfold removePkgFiles uninstallFiles
  simp only [bind_assoc]
  congr 1
  funext _
  congr 1
  funext pkg
  congr 1
  funext err
  split
  · rw [pure_bind]
  · simp only [bind_assoc, pure_bind]

/-- The script may refuse the removal; else the package is uninstalled. `R` is any relation that the
other writes keep. -/
theorem uninstallFiles_cases_of {R : World → World → Prop} (hR : Frame R) (hdisk : Allows R .disk)
    (howners : Allows R .owners) {i : PkgId} (hlist : Allows R (.list i))
    (hwant : Keeps R (modifyPkg i fun p =>
      { p.withFilelistChanged true with stateWant := .deinstall }))
    {parent : AbstractPkgId} {w w' : World} {r : Option Int}
    (h : uninstallFiles env i parent w = some (r, w')) :
    (r = none ∧ R w w') ∨ ∃ err w₁, r = some err ∧ R w w₁ ∧ w' = w₁.uninstall i parent := by
  unfold uninstallFiles at h
  obtain ⟨_, w₀, hwanted, hscript⟩ := bind_eq_some.mp h
  have h₀ : R w w₀ := hwant _ _ _ hwanted
  rw [getPkg_bind] at hscript
  obtain ⟨err, w₁, hprerm, hfiles⟩ := bind_eq_some.mp hscript
  have h₁ := hR.trans h₀ (keeps_liftM hdisk _ _ _ _ hprerm)
  split at hfiles
  · obtain ⟨rfl, rfl⟩ := Prod.mk.inj (pure_eq_some.mp hfiles)
    exact .inl ⟨rfl, h₁⟩
  · obtain ⟨_, w₂, hremoved, hpostrm⟩ := bind_eq_some.mp hfiles
    have h₂ := hR.trans h₁ (keeps_removeDataFilesAndList hR hdisk howners hlist _ _ _ hremoved)
    rw [getPkg_bind] at hpostrm
    obtain ⟨err, w₃, hscript, hscripts⟩ := bind_eq_some.mp hpostrm
    rw [getPkg_bind] at hscripts
    obtain ⟨_, w₄, hremove, hstatus⟩ := bind_eq_some.mp hscripts
    have h₄ := hR.trans (hR.trans h₂ (keeps_liftM hdisk _ _ _ _ hscript))
      (keeps_liftM hdisk _ _ _ _ hremove)
    rw [modifyPkg_bind] at hstatus
    obtain ⟨_, w₅, habstract, hlast⟩ := bind_eq_some.mp hstatus
    obtain ⟨-, rfl⟩ := Prod.mk.inj (modify_eq_some.mp habstract)
    obtain ⟨rfl, rfl⟩ := Prod.mk.inj (pure_eq_some.mp hlast)
    exact .inr ⟨err, w₄, rfl, h₄, rfl⟩

/-- The removal itself: the script may refuse it; else the package is uninstalled, and after that
only the removal of what is not needed any more writes a status. `R` is any relation that the other
writes keep. -/
theorem removePkgFiles_cases_of {R : World → World → Prop} (hR : Frame R) (hdisk : Allows R .disk)
    (howners : Allows R .owners) {i : PkgId} (hlist : Allows R (.list i))
    (hwant : Keeps R (modifyPkg i fun p =>
      { p.withFilelistChanged true with stateWant := .deinstall }))
    {parent : AbstractPkgId} {w w' : World} {rc : Int}
    (h : removePkgFiles env removePkg i parent w = some (rc, w')) :
    R w w' ∨ ∃ w₁, R w w₁ ∧ (w' = w₁.uninstall i parent ∨ env.autoremove = true ∧
      ∃ err, removeAutoinstalled removePkg i (w₁.uninstall i parent) = some (err, w')) := by
  rw [removePkgFiles_eq] at h
  obtain ⟨r, w₂, huninstall, hlast⟩ := bind_eq_some.mp h
  rcases uninstallFiles_cases_of hR hdisk howners hlist hwant huninstall with
    ⟨rfl, hsame⟩ | ⟨err, w₁, rfl, hsame, rfl⟩
  · obtain ⟨-, rfl⟩ := Prod.mk.inj (pure_eq_some.mp hlast)
    exact .inl hsame
  · refine .inr ⟨w₁, hsame, ?_⟩
    dsimp only at hlast
    split at hlast
    · rename_i hautoremove
      obtain ⟨err, w₅, hauto, hreturn⟩ := bind_eq_some.mp hlast
      obtain ⟨-, rfl⟩ := Prod.mk.inj (pure_eq_some.mp hreturn)
      exact .inr ⟨hautoremove, err, hauto⟩
    · obtain ⟨-, rfl⟩ := Prod.mk.inj (pure_eq_some.mp hlast)
      exact .inl rfl

theorem removePkgFiles_cases {i : PkgId} {parent : AbstractPkgId} {w w' : World} {rc : Int}
    (h : removePkgFiles env removePkg i parent w = some (rc, w')) :
    SameMajor w w' ∨ ∃ w₁, SameMajor w w₁ ∧ (w' = w₁.uninstall i parent ∨ env.autoremove = true ∧
      ∃ err, removeAutoinstalled removePkg i (w₁.uninstall i parent) = some (err, w')) := by
  have hall := sameMajor_allowsAll
  refine removePkgFiles_cases_of hall.frame (hall.allows _) (hall.allows _) (hall.allows _) ?_ h
  intro w _ w₀ hwant
  obtain ⟨-, rfl⟩ := Prod.mk.inj (modifyPkg_eq_some.mp hwant)
  exact SameMajor.setPkg rfl

/-- The removal of the dependents marks the name, unless it is marked, and removes them in turn. -/
theorem opkgRemoveDependentPkgs_cases {i : PkgId} {dependents : List AbstractPkgId} {w w' : World}
    {rc : Int} (h : opkgRemoveDependentPkgs removePkg i dependents w = some (rc, w')) :
    (w' = w ∧ rc = 0) ∨ ∃ w₁ pkgs, SameMajor w w₁ ∧ dependentPkgs w₁ dependents = some pkgs ∧
      removePkgs removePkg pkgs w₁ = some (rc, w') := by
  unfold opkgRemoveDependentPkgs at h
  rw [getPkg_bind] at h
  cases hparent : (w.db.pkg i).parent with
  | none =>
      rw [hparent] at h
      obtain ⟨rfl, rfl⟩ := Prod.mk.inj (pure_eq_some.mp h)
      exact .inl ⟨rfl, rfl⟩
  | some abPkg =>
      rw [hparent] at h
      dsimp only at h
      rw [get_bind] at h
      split at h
      · obtain ⟨rfl, rfl⟩ := Prod.mk.inj (pure_eq_some.mp h)
        exact .inl ⟨rfl, rfl⟩
      · rw [modify_bind, get_bind] at h
        obtain ⟨pkgs, w₁, hderef, hpkgs⟩ := bind_eq_some.mp h
        obtain ⟨_, hdependents, hr⟩ := deref_eq_some.mp hderef
        obtain ⟨rfl, rfl⟩ := Prod.mk.inj hr
        have hsame : SameMajor w { w with marks := Function.update w.marks abPkg 2 } :=
          ⟨fun _ => rfl, rfl, rfl⟩
        exact .inr ⟨_, pkgs, hsame, hdependents, hpkgs⟩

/-- The dependents: the check passes and nothing happens, or it does not, and the dependents are
removed if that is forced. -/
theorem removeDependents_cases {i : PkgId} {w w' : World} {rc : Int}
    (h : removeDependents env removePkg i w = some (rc, w')) :
    (w' = w ∧ rc = 0 ∧ (env.forceDepends = true ∨ (w.db.pkg i).stateFlag.replace = true)) ∨
    ∃ n dependents, pkgHasInstalledDependents w.db (w.db.pkg i) = some (n, dependents) ∧
      ((w' = w ∧ (rc = 0 → n = 0)) ∨ (n ≠ 0 ∧ env.forceRemovalOfDependentPackages = true ∧
        ((w' = w ∧ rc = 0) ∨ ∃ w₁ pkgs, SameMajor w w₁ ∧
          dependentPkgs w₁ dependents = some pkgs ∧
          removePkgs removePkg pkgs w₁ = some (rc, w')))) := by
  unfold removeDependents at h
  rw [getPkg_bind] at h
  split at h
  · rename_i hforce
    obtain ⟨rfl, rfl⟩ := Prod.mk.inj (pure_eq_some.mp h)
    exact .inl ⟨rfl, rfl, hforce⟩
  · rw [get_bind] at h
    obtain ⟨⟨n, dependents⟩, w₁, hderef, hcheck⟩ := bind_eq_some.mp h
    obtain ⟨_, hdeps, hr⟩ := deref_eq_some.mp hderef
    obtain ⟨rfl, rfl⟩ := Prod.mk.inj hr
    refine .inr ⟨n, dependents, hdeps, ?_⟩
    dsimp only at hcheck
    split at hcheck
    · rename_i hn
      obtain ⟨rfl, rfl⟩ := Prod.mk.inj (pure_eq_some.mp hcheck)
      exact .inl ⟨rfl, fun _ => hn⟩
    · rename_i hn
      split at hcheck
      · obtain ⟨rfl, rfl⟩ := Prod.mk.inj (pure_eq_some.mp hcheck)
        exact .inl ⟨rfl, fun h => absurd h (by decide)⟩
      · rename_i hforced
        have hforced : env.forceRemovalOfDependentPackages = true := by simpa using hforced
        exact .inr ⟨hn, hforced, opkgRemoveDependentPkgs_cases hcheck⟩

/-- **What `opkg_remove_pkg` does**, with what it returns: it may refuse at once; else it removes the
dependents, and then, if that went well, the package. -/
theorem removePkgBody_spec {i : PkgId} {fromUpgrade : Bool} {w w' : World} {rc : Int}
    (h : removePkgBody env removePkg i fromUpgrade w = some (rc, w')) :
    (w' = w ∧ (rc ≠ 0 ∨ (w.db.pkg i).parent = none)) ∨
    ∃ parent err w₁, (w.db.pkg i).parent = some parent ∧
      removeDependents env removePkg i w = some (err, w₁) ∧
      ((err ≠ 0 ∧ rc = err ∧ w' = w₁) ∨
        (err = 0 ∧ removePkgFiles env removePkg i parent w₁ = some (rc, w'))) := by
  unfold removePkgBody at h
  rw [getPkg_bind] at h
  split at h
  · obtain ⟨rfl, rfl⟩ := Prod.mk.inj (pure_eq_some.mp h)
    exact .inl ⟨rfl, .inl (by decide)⟩
  · cases hparent : (w.db.pkg i).parent with
    | none =>
        rw [hparent] at h
        obtain ⟨-, rfl⟩ := Prod.mk.inj (pure_eq_some.mp h)
        exact .inl ⟨rfl, .inr rfl⟩
    | some parent =>
        rw [hparent] at h
        obtain ⟨err, w₁, hdependents, hfiles⟩ := bind_eq_some.mp h
        refine .inr ⟨parent, err, w₁, rfl, hdependents, ?_⟩
        split at hfiles
        · rename_i herr
          obtain ⟨rfl, rfl⟩ := Prod.mk.inj (pure_eq_some.mp hfiles)
          exact .inl ⟨herr, rfl, rfl⟩
        · rename_i herr
          refine .inr ⟨not_not.mp herr, ?_⟩
          extract_lets rest at hfiles
          split at hfiles
          · obtain ⟨dest, w₂, hderef, hrest⟩ := bind_eq_some.mp hfiles
            obtain ⟨_, -, hr⟩ := deref_eq_some.mp hderef
            obtain ⟨-, rfl⟩ := Prod.mk.inj hr
            exact hrest
          · exact hfiles

/-- The same without what is returned. -/
theorem removePkgBody_cases {i : PkgId} {fromUpgrade : Bool} {w w' : World} {rc : Int}
    (h : removePkgBody env removePkg i fromUpgrade w = some (rc, w')) :
    w' = w ∨ ∃ parent err w₁, (w.db.pkg i).parent = some parent ∧
      removeDependents env removePkg i w = some (err, w₁) ∧
      ((err ≠ 0 ∧ w' = w₁) ∨
        (err = 0 ∧ removePkgFiles env removePkg i parent w₁ = some (rc, w'))) := by
  rcases removePkgBody_spec h with ⟨hw, -⟩ | ⟨parent, err, w₁, hparent, hdependents, hcase⟩
  · exact .inl hw
  · refine .inr ⟨parent, err, w₁, hparent, hdependents, ?_⟩
    exact hcase.imp_left fun h => ⟨h.1, h.2.2⟩

/-- What is removed as not needed any more: packages that are installed, were installed
automatically, and have no installed dependents when their removal is called. Nothing else is written. -/
theorem keeps_removeAutoinstalled_of {R : World → World → Prop} (hR : Frame R)
    (hremove : ∀ depend p dependents w err w', w.db.installedByName depend = some p →
      (w.db.pkg p).autoInstalled = true →
      pkgHasInstalledDependents w.db (w.db.pkg p) = some (0, dependents) →
      removePkg p w = some (err, w') → R w w') (i : PkgId) :
    Keeps R (removeAutoinstalled removePkg i) := by
  have horphaned : ∀ depend, Keeps R (removeIfOrphaned removePkg depend) := by
    intro depend w r w' h
    unfold removeIfOrphaned at h
    rw [get_bind] at h
    cases hp : w.db.installedByName depend.pkg with
    | none =>
        rw [hp] at h
        obtain ⟨-, rfl⟩ := Prod.mk.inj (pure_eq_some.mp h)
        exact hR.refl _
    | some p =>
        rw [hp] at h
        dsimp only at h
        rw [getPkg_bind] at h
        split at h
        · obtain ⟨-, rfl⟩ := Prod.mk.inj (pure_eq_some.mp h)
          exact hR.refl _
        · rename_i hauto
          rw [get_bind] at h
          obtain ⟨⟨n, dependents⟩, w₁, hderef, hcount⟩ := bind_eq_some.mp h
          obtain ⟨_, hdependents, hr⟩ := deref_eq_some.mp hderef
          obtain ⟨rfl, rfl⟩ := Prod.mk.inj hr
          dsimp only at hcount
          split at hcount
          · rename_i hn
            obtain ⟨err, w₂, hremoved, hreturn⟩ := bind_eq_some.mp hcount
            obtain ⟨-, rfl⟩ := Prod.mk.inj (pure_eq_some.mp hreturn)
            exact hremove depend.pkg p dependents _ err _ hp (by simpa using hauto)
              (hn ▸ hdependents) hremoved
          · obtain ⟨-, rfl⟩ := Prod.mk.inj (pure_eq_some.mp hcount)
            exact hR.refl _
  have horphans : ∀ depends err, Keeps R (removeOrphans removePkg err depends) := by
    intro depends
    induction depends with
    | nil => exact fun err => Keeps.pure hR err
    | cons depend depends ih =>
        intro err
        unfold removeOrphans
        refine Keeps.bind hR (horphaned depend) fun r => ?_
        split
        · exact Keeps.pure hR _
        · exact ih _
  exact Keeps.bind hR (keeps_getPkg hR i) fun pkg => horphans _ 0

/-- What is removed as not needed any more writes nothing itself. -/
theorem keeps_removeAutoinstalled {R : World → World → Prop} (hR : Frame R)
    (hremove : ∀ i, Keeps R (removePkg i)) (i : PkgId) :
    Keeps R (removeAutoinstalled removePkg i) :=
  keeps_removeAutoinstalled_of hR (fun _ p _ w err w' _ _ _ h => hremove p w err w' h) i

theorem keeps_removePkgs {R : World → World → Prop} (hR : Frame R)
    (hremove : ∀ i, Keeps R (removePkg i)) (pkgs : List PkgId) :
    Keeps R (removePkgs removePkg pkgs) := by
  induction pkgs with
  | nil => exact Keeps.pure hR _
  | cons i pkgs ih =>
      unfold removePkgs
      exact Keeps.bind hR (hremove i) fun err => Keeps.ite (Keeps.pure hR _) ih

end Nested

/-! ## A removal installs nothing -/

/-- Every package is what it was, and either as installed as it was or not installed; the same for the
names. -/
structure OnlyUninstalls (w w' : World) : Prop where
  pkg : ∀ i, (w'.db.pkg i).major = (w.db.pkg i).major ∨
    (w'.db.pkg i).major = (w.db.pkg i).major.withStatus .notInstalled
  abstractPkg : ∀ a, w'.db.abstractPkg a = w.db.abstractPkg a ∨
    w'.db.abstractPkg a = (w.db.abstractPkg a).withStatus .notInstalled
  names : w'.names = w.names

theorem SameMajor.onlyUninstalls {w w' : World} (h : SameMajor w w') : OnlyUninstalls w w' :=
  ⟨fun i => .inl (h.pkg i), fun a => .inl (congrFun h.abstractPkg a), h.names⟩

theorem OnlyUninstalls.trans {w w' w'' : World} (h : OnlyUninstalls w w')
    (h' : OnlyUninstalls w' w'') : OnlyUninstalls w w'' where
  pkg i := by
    rcases h.pkg i with hpkg | hpkg <;> rcases h'.pkg i with hpkg' | hpkg'
    · exact .inl (hpkg'.trans hpkg)
    · exact .inr (by rw [hpkg', hpkg])
    · exact .inr (hpkg'.trans hpkg)
    · exact .inr (by rw [hpkg', hpkg]; rfl)
  abstractPkg a := by
    rcases h.abstractPkg a with hab | hab <;> rcases h'.abstractPkg a with hab' | hab'
    · exact .inl (hab'.trans hab)
    · exact .inr (by rw [hab', hab])
    · exact .inr (hab'.trans hab)
    · exact .inr (by rw [hab', hab]; rfl)
  names := h'.names.trans h.names

/-- What is installed afterwards was installed before. -/
theorem OnlyUninstalls.isInstalled {w w' : World} (h : OnlyUninstalls w w') {i : PkgId}
    (hi : (w'.db.pkg i).isInstalled = true) : (w.db.pkg i).isInstalled = true := by
  change (w'.db.pkg i).major.isInstalled = true at hi
  rcases h.pkg i with hpkg | hpkg
  · rw [hpkg] at hi
    exact hi
  · rw [hpkg] at hi
    exact absurd hi (by simp [Pkg.isInstalled, Pkg.withStatus])

theorem OnlyUninstalls.name {w w' : World} (h : OnlyUninstalls w w') (i : PkgId) :
    (w'.db.pkg i).name = (w.db.pkg i).name := by
  change (w'.db.pkg i).major.name = (w.db.pkg i).major.name
  rcases h.pkg i with hpkg | hpkg <;> rw [hpkg]
  rfl

theorem OnlyUninstalls.filed {w w' : World} (h : OnlyUninstalls w w') (a : AbstractPkgId) :
    w'.db.filed a = w.db.filed a := by
  rw [Database.filed, Database.filed]
  rcases h.abstractPkg a with hab | hab <;> rw [hab]
  rfl

theorem onlyUninstalls_frame : Frame OnlyUninstalls :=
  ⟨fun w => (SameMajor.refl w).onlyUninstalls, OnlyUninstalls.trans⟩

theorem onlyUninstalls_uninstall (w : World) (i : PkgId) (a : AbstractPkgId) :
    OnlyUninstalls w (w.uninstall i a) where
  pkg j := by
    by_cases hj : j = i
    · subst hj
      rw [uninstall_pkg_self]
      exact .inr rfl
    · rw [uninstall_pkg_of_ne w a hj]
      exact .inl rfl
  abstractPkg b := by
    by_cases hb : b = a
    · subst hb
      exact .inr (uninstall_abstractPkg_self w i b)
    · exact .inl (uninstall_abstractPkg_of_ne w i hb)
  names := rfl

/-- **A removal installs nothing**, whatever else it removes. -/
theorem opkgRemovePkg_onlyUninstalls (fuel : Nat) (i : PkgId) (fromUpgrade : Bool) :
    Keeps OnlyUninstalls (opkgRemovePkg env fuel i fromUpgrade) := by
  induction fuel generalizing i fromUpgrade with
  | zero => exact Keeps.stop
  | succ fuel ih =>
      have hR := onlyUninstalls_frame
      intro w rc w' h
      rcases removePkgBody_cases h with rfl | ⟨parent, err, w₁, -, hdependents, hcase⟩
      · exact hR.refl _
      · have h₁ : OnlyUninstalls w w₁ := by
          rcases removeDependents_cases hdependents with ⟨rfl, -⟩ | ⟨n, dependents, -, hcase⟩
          · exact hR.refl _
          · rcases hcase with ⟨rfl, -⟩ | ⟨-, -, ⟨rfl, -⟩ | ⟨w₀, pkgs, hsame, -, hpkgs⟩⟩
            · exact hR.refl _
            · exact hR.refl _
            · exact hsame.onlyUninstalls.trans
                (keeps_removePkgs hR (fun j => ih j false) pkgs _ _ _ hpkgs)
        rcases hcase with ⟨-, rfl⟩ | ⟨-, hfiles⟩
        · exact h₁
        · rcases removePkgFiles_cases hfiles with hsame | ⟨w₂, hsame, rfl | ⟨-, err, hauto⟩⟩
          · exact h₁.trans hsame.onlyUninstalls
          · exact (h₁.trans hsame.onlyUninstalls).trans (onlyUninstalls_uninstall _ _ _)
          · have hun := onlyUninstalls_uninstall w₂ i parent
            exact ((h₁.trans hsame.onlyUninstalls).trans hun).trans
              (keeps_removeAutoinstalled hR (fun j => ih j false) i _ _ _ hauto)

/-! ## What an installation writes -/

theorem pkgVecFetchByName_of_mem {db : Database} {a : AbstractPkgId} {k : PkgId}
    (hk : k ∈ db.filed a) : db.pkgVecFetchByName a = db.filed a := by
  rw [Database.pkgVecFetchByName, Database.filed]
  rw [Database.filed] at hk
  split
  · rename_i pkgs hpkgs
    rw [hpkgs, Option.getD_some]
  · rename_i hpkgs
    rw [hpkgs] at hk
    exact absurd hk List.not_mem_nil

/-- An installed package is filed under its name, if any package is. -/
theorem mem_of_installedByName {db : Database} {a : AbstractPkgId} {k o : PkgId}
    (hk : k ∈ db.filed a) (ho : db.installedByName a = some o) : o ∈ db.filed a := by
  rw [Database.installedByName, pkgVecFetchByName_of_mem hk] at ho
  exact List.mem_of_find?_eq_some ho

/-- What is done to prepare a package for its installation, if it is to be installed. -/
theorem preparePkg_inv {i : PkgId} {old oldPkg : Option PkgId} {w w' : World}
    (h : preparePkg env i old w = some (.go (.install oldPkg), w')) :
    oldPkg = old ∧ ∃ w₁ w₂ w₃ w₄ err,
      modifyPkg i (fun p => { p with stateWant := .install }) w = some (⟨⟩, w₁) ∧
      (old.toList.forM fun old => modifyPkg old fun p => { p with stateWant := .deinstall }) w₁
        = some (⟨⟩, w₂) ∧
      checkConflictsFor env i w₂ = some (0, w₃) ∧ obtainPkgFile env i w₃ = some (0, w₄) ∧
      err ≠ -1 ∧ unpackPkg env i w₄ = some (err, w') := by
  unfold preparePkg at h
  obtain ⟨_, w₁, hwant, hold⟩ := bind_eq_some.mp h
  obtain ⟨_, w₂, holdWant, hconflicts⟩ := bind_eq_some.mp hold
  obtain ⟨err, w₃, hcheck, hstatus⟩ := bind_eq_some.mp hconflicts
  split at hstatus
  · exact absurd hstatus (pure_ne_some (by simp))
  · rename_i hzero
    obtain rfl := not_not.mp hzero
    rw [getPkg_bind] at hstatus
    split at hstatus
    · exact absurd hstatus (pure_ne_some (by simp))
    · obtain ⟨err, w₄, hobtain, hdownload⟩ := bind_eq_some.mp hstatus
      split at hdownload
      · exact absurd hdownload (pure_ne_some (by simp))
      · rename_i hzero
        obtain rfl := not_not.mp hzero
        split at hdownload
        · have hfst := congrArg Prod.fst (pure_eq_some.mp hdownload)
          split at hfst <;> simp at hfst
        · obtain ⟨err, w₅, hunpack, hreturn⟩ := bind_eq_some.mp hdownload
          obtain ⟨hfst, rfl⟩ := Prod.mk.inj (pure_eq_some.mp hreturn)
          split at hfst
          · simp at hfst
          · rename_i herr
            exact ⟨by simpa using hfst, w₁, w₂, w₃, w₄, err, hwant, holdWant, hcheck, hobtain, herr,
              hunpack⟩

/-- A package is no upgrade of itself. -/
theorem opkgInstallCheckDowngrade_self {i : PkgId} {w w' : World} {rc : Int}
    (h : opkgInstallCheckDowngrade env i (some i) w = some (rc, w')) : rc ≠ 0 := by
  unfold opkgInstallCheckDowngrade at h
  rw [getPkg_bind] at h
  dsimp only at h
  rw [getPkg_bind] at h
  have hcmp : pkgCompareVersions (w.db.pkg i) (w.db.pkg i) = 0 := pkgCompareVersions_threeWay.refl _
  have hneg : ¬ (pkgCompareVersions (w.db.pkg i) (w.db.pkg i) < 0 ∨
      (env.forceDowngrade = true ∧ 0 < pkgCompareVersions (w.db.pkg i) (w.db.pkg i))) := by
    rw [hcmp]
    simp
  simp only [if_neg hneg] at h
  split at h
  · obtain ⟨dest, w₁, -, hreturn⟩ := bind_eq_some.mp h
    obtain ⟨rfl, -⟩ := Prod.mk.inj (pure_eq_some.mp hreturn)
    decide
  · obtain ⟨rfl, -⟩ := Prod.mk.inj (pure_eq_some.mp h)
    decide

/-- What is done before a package that is to be installed takes over its files. -/
theorem beforeOwnership_inv {i : PkgId} {oldPkg : Option PkgId} {w w' : World}
    (h : beforeOwnership env i w = some (.go (.install oldPkg), w')) :
    ∃ w₁ w₂, modifyPkg i (fun p => { p with dest := p.dest <|> some env.defaultDest }) w
        = some (⟨⟩, w₁) ∧
      opkgInstallCheckDowngrade env i (w₁.db.installedByName (w.db.pkg i).name) w₁
        = some (0, w₂) ∧
      preparePkg env i (w₁.db.installedByName (w.db.pkg i).name) w₂
        = some (.go (.install oldPkg), w') := by
  unfold beforeOwnership at h
  rw [getPkg_bind] at h
  split at h
  · exact absurd h (pure_ne_some (by simp))
  · split at h
    · exact absurd h (pure_ne_some (by simp))
    · obtain ⟨_, w₁, hdest, hcheck⟩ := bind_eq_some.mp h
      rw [get_bind] at hcheck
      obtain ⟨err, w₂, hdowngrade, hprepare⟩ := bind_eq_some.mp hcheck
      split at hprepare
      · exact absurd hprepare (pure_ne_some (by simp))
      · rename_i herr
        obtain rfl := not_not.mp herr
        exact ⟨w₁, w₂, hdest, hdowngrade, hprepare⟩

/-- The old package of an installation is the one that was installed when it began, and another than
the new one. -/
theorem beforeOwnership_install {i : PkgId} {oldPkg : Option PkgId} {w w' : World}
    (h : beforeOwnership env i w = some (.go (.install oldPkg), w')) :
    oldPkg = w.db.installedByName (w.db.pkg i).name ∧ oldPkg ≠ some i := by
  obtain ⟨w₁, w₂, hdest, hdowngrade, hprepare⟩ := beforeOwnership_inv h
  have h₁ : SameMajor w w₁ := by
    obtain ⟨-, rfl⟩ := Prod.mk.inj (modifyPkg_eq_some.mp hdest)
    exact SameMajor.setPkg rfl
  rw [(preparePkg_inv hprepare).1, ← h₁.installedByName]
  refine ⟨rfl, fun hself => ?_⟩
  rw [hself] at hdowngrade
  exact opkgInstallCheckDowngrade_self hdowngrade rfl

/-- A package that is to be installed takes over its files before the dependencies are looked at. -/
theorem beforeDependencies_inv {i : PkgId} {oldPkg : Option PkgId} {w w' : World}
    (h : beforeDependencies env i w = some (.go (.install oldPkg), w')) :
    ∃ w₁, beforeOwnership env i w = some (.go (.install oldPkg), w₁) ∧
      updateFileOwnership env i oldPkg w₁ = some (0, w') := by
  unfold beforeDependencies at h
  obtain ⟨progressed, w₁, hbefore, hownership⟩ := bind_eq_some.mp h
  cases progressed with
  | done rc => exact absurd hownership (pure_ne_some (by simp))
  | go stage =>
      cases stage with
      | alreadyInstalled => exact absurd hownership (pure_ne_some (by simp))
      | downloadOnly => exact absurd hownership (pure_ne_some (by simp))
      | install old =>
          obtain ⟨err, w₂, hupdate, hreturn⟩ := bind_eq_some.mp hownership
          obtain ⟨hfst, rfl⟩ := Prod.mk.inj (pure_eq_some.mp hreturn)
          split at hfst
          · simp at hfst
          · rename_i herr
            obtain rfl := not_not.mp herr
            have hsame : oldPkg = old := by simpa using hfst
            subst hsame
            exact ⟨w₁, hbefore, hupdate⟩

/-- Only the installation itself passes the point of no return. -/
theorem atStage_go {installPkg removePkg : PkgId → Run Int} {i : PkgId} {stage : Stage}
    {oldPkg : Option PkgId} {w w' : World}
    (h : atStage env installPkg removePkg i stage w = some (.go oldPkg, w')) :
    stage = .install oldPkg := by
  have hlast : ∀ {old w}, beforePointOfNoReturn env installPkg removePkg i old w
      = some (.go oldPkg, w') → Stage.install old = .install oldPkg := by
    intro old w h
    unfold beforePointOfNoReturn at h
    rw [get_bind] at h
    obtain ⟨replacees, w₁, -, hchanged⟩ := bind_eq_some.mp h
    obtain ⟨_, w₂, -, horphans⟩ := bind_eq_some.mp hchanged
    obtain ⟨_, w₃, -, hsteps⟩ := bind_eq_some.mp horphans
    obtain ⟨err, w₄, -, hreturn⟩ := bind_eq_some.mp hsteps
    split at hreturn
    · exact absurd hreturn (pure_ne_some (by simp))
    · split at hreturn
      · exact absurd hreturn (pure_ne_some (by simp))
      · have hfst := congrArg Prod.fst (pure_eq_some.mp hreturn)
        rw [Progressed.go.inj hfst]
  cases stage with
  | alreadyInstalled =>
      unfold atStage at h
      obtain ⟨err, w₁, -, hreturn⟩ := bind_eq_some.mp h
      by_cases herr : err ≠ 0
      · rw [if_pos herr] at hreturn
        exact absurd hreturn (pure_ne_some (by simp))
      · rw [if_neg herr, getPkg_bind] at hreturn
        obtain ⟨dest, w₂, -, hdone⟩ := bind_eq_some.mp hreturn
        exact absurd hdone (pure_ne_some (by simp))
  | downloadOnly =>
      obtain ⟨err, w₁, -, hreturn⟩ := bind_eq_some.mp h
      exact absurd hreturn (pure_ne_some (by simp))
  | install old =>
      unfold atStage at h
      dsimp only at h
      split at h
      · exact hlast h
      · obtain ⟨err, w₁, -, hstatus⟩ := bind_eq_some.mp h
        split at hstatus
        · exact absurd hstatus (pure_ne_some (by simp))
        · rw [getPkg_bind] at hstatus
          split at hstatus
          · exact absurd hstatus (pure_ne_some (by simp))
          · exact hlast hstatus

/-- What passes the point of no return has passed everything before it. -/
theorem untilPointOfNoReturn_inv {installPkg removePkg : PkgId → Run Int} {i : PkgId}
    {oldPkg : Option PkgId} {w w' : World}
    (h : untilPointOfNoReturn env installPkg removePkg i w = some (.go oldPkg, w')) :
    ∃ w₁, beforeDependencies env i w = some (.go (.install oldPkg), w₁) ∧
      atStage env installPkg removePkg i (.install oldPkg) w₁ = some (.go oldPkg, w') := by
  unfold untilPointOfNoReturn at h
  obtain ⟨progressed, w₁, hbefore, hstage⟩ := bind_eq_some.mp h
  cases progressed with
  | done rc => exact absurd hstage (pure_ne_some (by simp))
  | go stage =>
      have hold := atStage_go hstage
      subst hold
      exact ⟨w₁, hbefore, hstage⟩

/-- The one whose installation passes the point of no return. -/
theorem untilPointOfNoReturn_go {installPkg removePkg : PkgId → Run Int} {i : PkgId}
    {oldPkg : Option PkgId} {w w' : World}
    (h : untilPointOfNoReturn env installPkg removePkg i w = some (.go oldPkg, w')) :
    oldPkg = w.db.installedByName (w.db.pkg i).name ∧ oldPkg ≠ some i := by
  obtain ⟨w₁, hbefore, -⟩ := untilPointOfNoReturn_inv h
  obtain ⟨w₂, hownership, -⟩ := beforeDependencies_inv hbefore
  exact beforeOwnership_install hownership

/-- What an installation writes: the status of its package, that of the old package, and that of the
name. -/
structure Finished (i : PkgId) (oldPkg : Option PkgId) (w w' : World) : Prop where
  pkg : ∀ k, (w'.db.pkg k).major = (w.db.pkg k).major.withStatus
    (if oldPkg = some k then .notInstalled else if k = i then .unpacked else (w.db.pkg k).stateStatus)
  abstractPkg : ∀ a, w'.db.abstractPkg a = if (w.db.pkg i).parent = some a then
    (w.db.abstractPkg a).withStatus (w'.db.pkg i).stateStatus else w.db.abstractPkg a
  names : w'.names = w.names

/-- What is installed after an installation: its package, and what was installed besides the old
one. -/
theorem Finished.isInstalled {i k : PkgId} {oldPkg : Option PkgId} {w w' : World}
    (h : Finished i oldPkg w w') (hk : (w'.db.pkg k).isInstalled = true) :
    k = i ∨ (oldPkg ≠ some k ∧ (w.db.pkg k).isInstalled = true) := by
  change (w'.db.pkg k).major.isInstalled = true at hk
  rw [h.pkg] at hk
  by_cases hki : k = i
  · exact .inl hki
  · by_cases hold : oldPkg = some k
    · rw [if_pos hold] at hk
      exact absurd hk (by simp [Pkg.isInstalled, Pkg.withStatus])
    · rw [if_neg hold, if_neg hki] at hk
      exact .inr ⟨hold, hk⟩

theorem Finished.filed {i : PkgId} {oldPkg : Option PkgId} {w w' : World}
    (h : Finished i oldPkg w w') (a : AbstractPkgId) : w'.db.filed a = w.db.filed a := by
  rw [Database.filed, Database.filed, h.abstractPkg]
  split <;> rfl

/-- **The statuses after an installation.** -/
theorem finishInstall_spec {i : PkgId} {oldPkg : Option PkgId} {w w' : World}
    (h : finishInstall env i oldPkg w = some (⟨⟩, w')) : Finished i oldPkg w w' := by
  unfold finishInstall at h
  obtain ⟨_, w₁, hunpacked, hold⟩ := bind_eq_some.mp h
  obtain ⟨_, w₂, hretired, htime⟩ := bind_eq_some.mp hold
  obtain ⟨now, w₃, hnow, hinstalled⟩ := bind_eq_some.mp htime
  obtain ⟨_, w₄, htime, hlast⟩ := bind_eq_some.mp hinstalled
  rw [getPkg_bind] at hlast
  have h₁ : (∀ k, (w₁.db.pkg k).major = (w.db.pkg k).major.withStatus
      (if k = i then .unpacked else (w.db.pkg k).stateStatus)) ∧
      w₁.db.abstractPkg = w.db.abstractPkg ∧ w₁.names = w.names := by
    obtain ⟨-, rfl⟩ := Prod.mk.inj (modifyPkg_eq_some.mp hunpacked)
    refine ⟨fun k => ?_, rfl, rfl⟩
    by_cases hk : k = i
    · subst hk
      rw [Database.setPkg_pkg_self, if_pos rfl]
      rfl
    · rw [Database.setPkg_pkg_of_ne _ _ hk, if_neg hk]
      rfl
  have h₂ : (∀ k, (w₂.db.pkg k).major = (w₁.db.pkg k).major.withStatus
      (if oldPkg = some k then .notInstalled else (w₁.db.pkg k).stateStatus)) ∧
      w₂.db.abstractPkg = w₁.db.abstractPkg ∧ w₂.names = w₁.names := by
    cases oldPkg with
    | none =>
        obtain ⟨-, rfl⟩ := Prod.mk.inj (pure_eq_some.mp hretired)
        exact ⟨fun k => rfl, rfl, rfl⟩
    | some old =>
        obtain ⟨_, w₅, hmodify, hnil⟩ := bind_eq_some.mp hretired
        obtain ⟨-, rfl⟩ := Prod.mk.inj (pure_eq_some.mp hnil)
        obtain ⟨-, rfl⟩ := Prod.mk.inj (modifyPkg_eq_some.mp hmodify)
        refine ⟨fun k => ?_, rfl, rfl⟩
        by_cases hk : k = old
        · subst hk
          rw [Database.setPkg_pkg_self, if_pos rfl]
          rfl
        · have hold : ¬ some old = some k := fun h => hk (Option.some.inj h).symm
          rw [Database.setPkg_pkg_of_ne _ _ hk, if_neg hold]
          rfl
  have h₄ : SameMajor w₂ w₄ := by
    have h₃ : SameMajor w₂ w₃ := sameMajor_allowsAll.liftM _ _ _ _ hnow
    obtain ⟨-, rfl⟩ := Prod.mk.inj (modifyPkg_eq_some.mp htime)
    exact h₃.trans (SameMajor.setPkg rfl)
  -- the status of the name is that of the package, read at the end
  have habstract : w'.db.pkg = w₄.db.pkg ∧ w'.names = w₄.names ∧ ∀ a, w'.db.abstractPkg a
      = if (w₄.db.pkg i).parent = some a then
        (w₄.db.abstractPkg a).withStatus (w₄.db.pkg i).stateStatus else w₄.db.abstractPkg a := by
    cases hparent : (w₄.db.pkg i).parent with
    | none =>
        rw [hparent] at hlast
        obtain ⟨-, rfl⟩ := Prod.mk.inj (pure_eq_some.mp hlast)
        exact ⟨rfl, rfl, fun a => rfl⟩
    | some abPkg =>
        rw [hparent] at hlast
        obtain ⟨-, rfl⟩ := Prod.mk.inj (modify_eq_some.mp hlast)
        refine ⟨rfl, rfl, fun a => ?_⟩
        by_cases ha : a = abPkg
        · subst ha
          rw [if_pos rfl]
          exact Database.setAbstractPkg_self _ _ _
        · rw [if_neg fun h => ha (Option.some.inj h).symm]
          exact Database.setAbstractPkg_of_ne _ _ ha
  obtain ⟨hpkg, hnames, hab⟩ := habstract
  have hmajor : ∀ k, (w'.db.pkg k).major = (w.db.pkg k).major.withStatus
      (if oldPkg = some k then .notInstalled else if k = i then .unpacked
        else (w.db.pkg k).stateStatus) := by
    intro k
    have hstatus : (w₁.db.pkg k).stateStatus
        = if k = i then .unpacked else (w.db.pkg k).stateStatus :=
      congrArg (fun p : Pkg => p.stateStatus) (h₁.1 k)
    rw [hpkg, h₄.pkg, h₂.1, h₁.1, hstatus]
    rfl
  refine ⟨hmajor, fun a => ?_, hnames.trans (h₄.names.trans (h₂.2.2.trans h₁.2.2))⟩
  have hparent : (w₄.db.pkg i).parent = (w.db.pkg i).parent := by
    rw [← hpkg, ← parent_major, hmajor i]
    rfl
  rw [hab, hparent, hpkg, h₄.abstractPkg, h₂.2.1, h₁.2.1]

end FirmwareTools.Opkg

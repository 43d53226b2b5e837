import FirmwareTools.Opkg.Commands
import FirmwareTools.Opkg.Dependers
import FirmwareTools.Opkg.OneInstalled

/-! # Removing keeps dependencies satisfied

`opkg_remove_pkg` refuses to remove a package that others depend on. Who depends on it is counted by the
status of the names, and only `SS_INSTALLED` counts: a package that is unpacked, but not configured
yet, is passed over.

* **`removal_dependenciesSatisfied`** — the dependencies stay satisfied if whoever needs the package, or
  one that goes with it, is marked as installed;
* **`not_removal_dependenciesSatisfied_unpacked`** — a package is removed under an unpacked one. -/

namespace FirmwareTools.Opkg

open Op

variable {env : Env}

/-! ## Satisfied dependencies -/

/-- The package is in a vector, and installed or unpacked. -/
def Database.Present (db : Database) (i : PkgId) : Prop :=
  db.Filed i ∧ (db.pkg i).isInstalled = true

/-- The package provides what the alternative names, in a version it admits. -/
def Pkg.Meets (p : Pkg) (d : Depend) : Prop :=
  d.pkg ∈ p.provided ∧ versionConstraintsSatisfied d p = true

/-- Every `PREDEPEND` and `DEPEND` entry of an installed or unpacked package has an alternative that an
installed or unpacked package meets. -/
def DependenciesSatisfied (db : Database) : Prop :=
  ∀ k, db.Present k → ∀ entry ∈ (db.pkg k).entries, entry.isHard →
    ∃ d ∈ entry.possibilities, ∃ s, db.Present s ∧ (db.pkg s).Meets d

/-- Another installed package has an entry that no package but `i` satisfies. -/
def Database.Needs (db : Database) (k i : PkgId) : Prop :=
  db.Present k ∧ k ≠ i ∧ ∃ entry ∈ (db.pkg k).entries, entry.isHard ∧
    ∀ d ∈ entry.possibilities, ∀ s, db.Present s → (db.pkg s).Meets d → s = i

/-- Whoever else has an alternative on something the package provides has its name marked as installed,
so that it is counted. -/
def Database.Counted (db : Database) (i : PkgId) : Prop :=
  ∀ a, ∀ k ∈ db.filed a, (db.pkg k).isInstalled = true → k ≠ i →
    ∀ entry ∈ (db.pkg k).entries, entry.isHard → ∀ d ∈ entry.possibilities,
      d.pkg ∈ (db.pkg i).provided → (db.abstractPkg a).stateStatus = .installed

/-- The condition under which a removal keeps the dependencies satisfied: whoever needs the package has
its name marked as installed, no dependents are removed by force, and if the packages it was installed
with are removed too, then the same holds of those, and no name has two installed packages. -/
structure RemovalGuard (env : Env) (db : Database) (i : PkgId) : Prop where
  counted : ∀ a, ∀ k ∈ db.filed a, db.Needs k i → (db.abstractPkg a).stateStatus = .installed
  unforced : env.forceRemovalOfDependentPackages = true → ∀ n dependents,
    pkgHasInstalledDependents db (db.pkg i) = some (n, dependents) → n = 0
  orphans : env.autoremove = true → OneInstalled db ∧ db.otherInstalled i = false ∧
    ∀ p, db.Present p → (db.pkg p).autoInstalled = true → p ≠ i → db.Counted p

/-! ## Writes that change nothing of this -/

/-- What the packages are, whether they are installed and whether automatically is the same in both
states. -/
structure SameMajorAuto (w w' : World) : Prop where
  major : SameMajor w w'
  autoInstalled : ∀ i, (w'.db.pkg i).autoInstalled = (w.db.pkg i).autoInstalled

theorem sameMajorAuto_frame : Frame SameMajorAuto where
  refl w := ⟨SameMajor.refl w, fun _ => rfl⟩
  trans h h' := ⟨h.major.trans h'.major, fun i => (h'.autoInstalled i).trans (h.autoInstalled i)⟩

theorem SameMajorAuto.setPkg {w : World} {i : PkgId} {p : Pkg} (h : p.major = (w.db.pkg i).major)
    (hauto : p.autoInstalled = (w.db.pkg i).autoInstalled) :
    SameMajorAuto w { w with db := w.db.setPkg i p } := by
  refine ⟨SameMajor.setPkg h, fun j => ?_⟩
  by_cases hj : j = i
  · subst hj
    rw [Database.setPkg_pkg_self, hauto]
  · rw [Database.setPkg_pkg_of_ne _ _ hj]

theorem sameMajorAuto_disk : Allows SameMajorAuto .disk := by
  rintro w w' ⟨disk, rfl⟩
  exact ⟨⟨fun _ => rfl, rfl, rfl⟩, fun _ => rfl⟩

theorem sameMajorAuto_owners : Allows SameMajorAuto .owners := by
  rintro w w' ⟨fileHash, rfl⟩
  exact ⟨⟨fun _ => rfl, rfl, rfl⟩, fun _ => rfl⟩

theorem sameMajorAuto_list (i : PkgId) : Allows SameMajorAuto (.list i) := by
  rintro w w' ⟨files, cnt, rfl⟩
  exact SameMajorAuto.setPkg rfl rfl

theorem sameMajorAuto_want (i : PkgId) : Keeps SameMajorAuto (modifyPkg i fun p =>
    { p.withFilelistChanged true with stateWant := .deinstall }) := by
  intro w _ w₀ hwant
  obtain ⟨-, rfl⟩ := Prod.mk.inj (modifyPkg_eq_some.mp hwant)
  exact SameMajorAuto.setPkg rfl rfl

/-- The removal itself, for packages that were installed automatically as for others. -/
theorem removePkgFiles_sameMajorAuto {removePkg : PkgId → Run Int} {i : PkgId}
    {parent : AbstractPkgId} {w w' : World} {rc : Int}
    (h : removePkgFiles env removePkg i parent w = some (rc, w')) :
    SameMajorAuto w w' ∨ ∃ w₁, SameMajorAuto w w₁ ∧
      (w' = w₁.uninstall i parent ∨ env.autoremove = true ∧
        ∃ err, removeAutoinstalled removePkg i (w₁.uninstall i parent) = some (err, w')) :=
  removePkgFiles_cases_of sameMajorAuto_frame sameMajorAuto_disk sameMajorAuto_owners
    (sameMajorAuto_list i) (sameMajorAuto_want i) h

/-- The same up to the packages that are left behind. -/
theorem uninstallFiles_sameMajorAuto {i : PkgId} {parent : AbstractPkgId} {w w' : World}
    {r : Option Int} (h : uninstallFiles env i parent w = some (r, w')) :
    (r = none ∧ SameMajorAuto w w') ∨
      ∃ err w₁, r = some err ∧ SameMajorAuto w w₁ ∧ w' = w₁.uninstall i parent :=
  uninstallFiles_cases_of sameMajorAuto_frame sameMajorAuto_disk sameMajorAuto_owners
    (sameMajorAuto_list i) (sameMajorAuto_want i) h

/-! ## What uninstalling leaves as it was -/

theorem OnlyUninstalls.entries {w w' : World} (h : OnlyUninstalls w w') (i : PkgId) :
    (w'.db.pkg i).entries = (w.db.pkg i).entries := by
  change (w'.db.pkg i).major.entries = (w.db.pkg i).major.entries
  rcases h.pkg i with hpkg | hpkg <;> rw [hpkg]
  rfl

theorem OnlyUninstalls.provided {w w' : World} (h : OnlyUninstalls w w') (i : PkgId) :
    (w'.db.pkg i).provided = (w.db.pkg i).provided := by
  change (w'.db.pkg i).major.provided = (w.db.pkg i).major.provided
  rcases h.pkg i with hpkg | hpkg <;> rw [hpkg]
  rfl

theorem OnlyUninstalls.meets {w w' : World} (h : OnlyUninstalls w w') (i : PkgId) (d : Depend) :
    (w'.db.pkg i).Meets d ↔ (w.db.pkg i).Meets d := by
  have hversion : versionConstraintsSatisfied d (w'.db.pkg i)
      = versionConstraintsSatisfied d (w.db.pkg i) := by
    change versionConstraintsSatisfied d (w'.db.pkg i).major
      = versionConstraintsSatisfied d (w.db.pkg i).major
    rcases h.pkg i with hpkg | hpkg <;> rw [hpkg]
    rfl
  rw [Pkg.Meets, Pkg.Meets, h.provided, hversion]

theorem OnlyUninstalls.present {w w' : World} (h : OnlyUninstalls w w') {i : PkgId}
    (hi : w'.db.Present i) : w.db.Present i := by
  obtain ⟨⟨a, ha⟩, hinstalled⟩ := hi
  exact ⟨⟨a, h.filed a ▸ ha⟩, h.isInstalled hinstalled⟩

theorem OnlyUninstalls.linked {w w' : World} (h : OnlyUninstalls w w') (hdb : Linked w.db) :
    Linked w'.db where
  placed := ⟨fun a => h.filed a ▸ hdb.placed.nodup a, fun a i hi => by
    rw [h.parent]
    exact hdb.placed.parent a i (h.filed a ▸ hi)⟩
  complete := by
    intro a k hk entry hentry hhard d hd
    have hold := hdb.complete a k (h.filed a ▸ hk) entry (h.entries k ▸ hentry) hhard d hd
    rcases h.abstractPkg d.pkg with hab | hab <;> rw [hab]
    · exact hold
    · exact hold

theorem OnlyUninstalls.oneInstalled {w w' : World} (h : OnlyUninstalls w w')
    (hdb : OneInstalled w.db) : OneInstalled w'.db :=
  fun a i hi j hj hi' hj' => hdb a i (h.filed a ▸ hi) j (h.filed a ▸ hj) (h.isInstalled hi')
    (h.isInstalled hj')

/-! ## States with the same packages installed -/

theorem SameMajor.present {w w' : World} (h : SameMajor w w') (i : PkgId) :
    w'.db.Present i ↔ w.db.Present i := by
  refine ⟨h.onlyUninstalls.present, ?_⟩
  rintro ⟨⟨a, ha⟩, hinstalled⟩
  exact ⟨⟨a, (h.onlyUninstalls.filed a).symm ▸ ha⟩, (h.isInstalled i).trans hinstalled⟩

theorem SameMajor.needs {w w' : World} (h : SameMajor w w') (k i : PkgId) :
    w'.db.Needs k i ↔ w.db.Needs k i := by
  have hun := h.onlyUninstalls
  simp only [Database.Needs, h.present, hun.entries, hun.meets]

theorem SameMajor.dependenciesSatisfied {w w' : World} (h : SameMajor w w') :
    DependenciesSatisfied w'.db ↔ DependenciesSatisfied w.db := by
  have hun := h.onlyUninstalls
  simp only [DependenciesSatisfied, h.present, hun.entries, hun.meets]

theorem SameMajor.counted {w w' : World} (h : SameMajor w w') (i : PkgId) :
    w'.db.Counted i ↔ w.db.Counted i := by
  have hun := h.onlyUninstalls
  simp only [Database.Counted, hun.filed, h.isInstalled, hun.entries, hun.provided, h.abstractPkg]

/-! ## Uninstalling a package nobody needs -/

theorem present_uninstall {w : World} {i k : PkgId} {a : AbstractPkgId} :
    (w.uninstall i a).db.Present k ↔ k ≠ i ∧ w.db.Present k := by
  have hun := onlyUninstalls_uninstall w i a
  constructor
  · intro hk
    refine ⟨?_, hun.present hk⟩
    rintro rfl
    obtain ⟨-, hinstalled⟩ := hk
    rw [uninstall_pkg_self] at hinstalled
    exact absurd hinstalled (by simp [Pkg.isInstalled, Pkg.withStatus])
  · rintro ⟨hki, ⟨b, hb⟩, hinstalled⟩
    exact ⟨⟨b, (hun.filed b).symm ▸ hb⟩, by rwa [uninstall_pkg_of_ne w a hki]⟩

/-- **The dependencies stay satisfied exactly when nobody needs the package.** -/
theorem dependenciesSatisfied_uninstall_iff {w : World} {i : PkgId} {a : AbstractPkgId} :
    DependenciesSatisfied (w.uninstall i a).db ↔ ∀ k, ¬ w.db.Needs k i := by
  have hun := onlyUninstalls_uninstall w i a
  constructor
  · rintro hsat k ⟨hk, hki, entry, hentry, hhard, honly⟩
    obtain ⟨d, hd, s, hs, hmeets⟩ := hsat k (present_uninstall.mpr ⟨hki, hk⟩) entry
      ((hun.entries k).symm ▸ hentry) hhard
    obtain ⟨hsi, hs⟩ := present_uninstall.mp hs
    exact hsi (honly d hd s hs ((hun.meets s d).mp hmeets))
  · intro hneeds k hk entry hentry hhard
    obtain ⟨hki, hk⟩ := present_uninstall.mp hk
    rw [hun.entries] at hentry
    by_contra hunsat
    refine hneeds k ⟨hk, hki, entry, hentry, hhard, fun d hd s hs hmeets => ?_⟩
    by_contra hsi
    exact hunsat ⟨d, hd, s, present_uninstall.mpr ⟨hsi, hs⟩, (hun.meets s d).mpr hmeets⟩

/-- Whoever needs a package depends on something it provides. -/
theorem DependenciesSatisfied.provided_of_needs {db : Database} (hsat : DependenciesSatisfied db)
    {k i : PkgId} (h : db.Needs k i) : ∃ entry ∈ (db.pkg k).entries, entry.isHard ∧
      ∃ d ∈ entry.possibilities, d.pkg ∈ (db.pkg i).provided := by
  obtain ⟨hk, -, entry, hentry, hhard, honly⟩ := h
  obtain ⟨d, hd, s, hs, hmeets⟩ := hsat k hk entry hentry hhard
  obtain rfl := honly d hd s hs hmeets
  exact ⟨entry, hentry, hhard, d, hd, hmeets.1⟩

/-- **The check of `opkg_remove_pkg`**: where it counts no dependents, nobody whose name is marked as
installed needs the package. -/
theorem not_needs_of_no_dependents {db : Database} (hdb : Linked db)
    (hsat : DependenciesSatisfied db) {i : PkgId} {dependents : List AbstractPkgId}
    (hnone : pkgHasInstalledDependents db (db.pkg i) = some (0, dependents))
    (hcounted : ∀ a, ∀ k ∈ db.filed a, db.Needs k i → (db.abstractPkg a).stateStatus = .installed)
    (k : PkgId) : ¬ db.Needs k i := by
  intro hneeds
  obtain ⟨entry, hentry, hhard, d, hd, hprovided⟩ := hsat.provided_of_needs hneeds
  obtain ⟨⟨a, ha⟩, -⟩ := hneeds.1
  exact absurd (one_le_installedDependents hdb.complete hnone ha hentry hhard hd hprovided
    (hcounted a k ha hneeds)) (by decide)

theorem Database.Counted.of_needs {db : Database} {i : PkgId} (h : db.Counted i)
    (hsat : DependenciesSatisfied db) : ∀ a, ∀ k ∈ db.filed a, db.Needs k i →
      (db.abstractPkg a).stateStatus = .installed := by
  intro a k hk hneeds
  obtain ⟨entry, hentry, hhard, d, hd, hprovided⟩ := hsat.provided_of_needs hneeds
  exact h a k hk hneeds.1.2 hneeds.2.1 entry hentry hhard d hd hprovided

/-! ## Removing what is not needed any more -/

/-- What the removals that follow a removal keep: the dependencies are satisfied, and every package
that may be removed for not being needed has its dependents counted. -/
structure Ready (db : Database) : Prop where
  linked : Linked db
  one : OneInstalled db
  satisfied : DependenciesSatisfied db
  counted : ∀ p, db.Present p → (db.pkg p).autoInstalled = true → db.Counted p

theorem SameMajorAuto.ready {w w' : World} (h : SameMajorAuto w w') (hdb : Ready w.db) :
    Ready w'.db where
  linked := h.major.onlyUninstalls.linked hdb.linked
  one := h.major.onlyUninstalls.oneInstalled hdb.one
  satisfied := h.major.dependenciesSatisfied.mpr hdb.satisfied
  counted p hp hauto := (h.major.counted p).mpr
    (hdb.counted p ((h.major.present p).mp hp) (h.autoInstalled p ▸ hauto))

theorem uninstall_autoInstalled (w : World) (i k : PkgId) (a : AbstractPkgId) :
    ((w.uninstall i a).db.pkg k).autoInstalled = (w.db.pkg k).autoInstalled := by
  by_cases hk : k = i
  · subst hk
    rw [uninstall_pkg_self]
    rfl
  · rw [uninstall_pkg_of_ne w a hk]

/-- **Uninstalling a package nobody needs**, the only one of its name. -/
theorem ready_uninstall {w : World} {i : PkgId} {a : AbstractPkgId} (hlinked : Linked w.db)
    (hone : OneInstalled w.db) (hneeds : ∀ k, ¬ w.db.Needs k i)
    (hparent : (w.db.pkg i).parent = some a) (halone : w.db.otherInstalled i = false)
    (hcounted : ∀ p, w.db.Present p → (w.db.pkg p).autoInstalled = true → p ≠ i →
      w.db.Counted p) :
    Ready (w.uninstall i a).db := by
  have hun := onlyUninstalls_uninstall w i a
  refine ⟨hun.linked hlinked, hun.oneInstalled hone,
    dependenciesSatisfied_uninstall_iff.mpr hneeds, fun p hp hauto => ?_⟩
  obtain ⟨hpi, hp⟩ := present_uninstall.mp hp
  rw [uninstall_autoInstalled] at hauto
  intro b k hk hinstalled hkp entry hentry hhard d hd hprovided
  have hki : k ≠ i := (present_uninstall.mp ⟨⟨b, hk⟩, hinstalled⟩).1
  rw [hun.filed] at hk
  have hname := hcounted p hp hauto hpi b k hk (hun.isInstalled hinstalled) hkp entry
    (hun.entries k ▸ hentry) hhard d hd (hun.provided p ▸ hprovided)
  -- the other packages of the name that is marked as not installed are not installed
  have hba : b ≠ a := by
    rintro rfl
    exact hki ((otherInstalled_eq_false hparent).mp halone k hk (hun.isInstalled hinstalled))
  rw [uninstall_abstractPkg_of_ne w i hba]
  exact hname

theorem present_of_installedByName {db : Database} {a : AbstractPkgId} {p : PkgId}
    (h : db.installedByName a = some p) : db.Present p := by
  rw [Database.installedByName] at h
  have hinstalled : (db.pkg p).isInstalled = true := by simpa using List.find?_some h
  have hmem := List.mem_of_find?_eq_some h
  rw [Database.pkgVecFetchByName] at hmem
  refine ⟨?_, hinstalled⟩
  split at hmem
  · rename_i pkgs hpkgs
    exact ⟨a, by rwa [Database.filed, hpkgs]⟩
  · split at hmem
    · rename_i provider _
      exact ⟨provider, hmem⟩
    · exact absurd hmem List.not_mem_nil

theorem OneInstalled.alone {db : Database} (hone : OneInstalled db) (hplaced : WellPlaced db)
    {p : PkgId} (hp : db.Present p) : db.otherInstalled p = false := by
  obtain ⟨⟨a, ha⟩, hinstalled⟩ := hp
  rw [otherInstalled_eq_false (hplaced.parent a p ha)]
  exact fun k hk hk' => hone a k hk p ha hk' hinstalled

theorem ready_frame : Frame fun w w' : World => Ready w.db → Ready w'.db :=
  ⟨fun _ h => h, fun h h' hw => h' (h hw)⟩

/-- **A package that is not needed any more is removed, with all the removals this sets off.** -/
theorem opkgRemovePkg_ready {fuel : Nat} {p : PkgId} {dependents : List AbstractPkgId}
    {w w' : World} {err : Int} (hdb : Ready w.db) (hp : w.db.Present p)
    (hauto : (w.db.pkg p).autoInstalled = true)
    (hnone : pkgHasInstalledDependents w.db (w.db.pkg p) = some (0, dependents))
    (h : opkgRemovePkg env fuel p false w = some (err, w')) : Ready w'.db := by
  induction fuel generalizing p dependents w w' err with
  | zero => exact absurd h stop_ne_some
  | succ fuel ih =>
      rcases removePkgBody_cases h with rfl | ⟨parent, err₁, w₁, hparent, hdependents, hcase⟩
      · exact hdb
      · have hw₁ : w₁ = w := by
          rcases removeDependents_cases hdependents with ⟨rfl, -⟩ | ⟨n, _, hcount, hcase⟩
          · rfl
          · rw [hnone, Option.some.injEq, Prod.mk.injEq] at hcount
            exact hcase.elim And.left fun h => absurd hcount.1.symm h.1
        subst hw₁
        rcases hcase with ⟨-, rfl⟩ | ⟨-, hfiles⟩
        · exact hdb
        · rcases removePkgFiles_sameMajorAuto hfiles with hsame | ⟨w₂, hsame, hlast⟩
          · exact hsame.ready hdb
          · have hdb₂ := hsame.ready hdb
            have hp₂ := (hsame.major.present p).mpr hp
            have hneeds : ∀ k, ¬ w₂.db.Needs k p := fun k hneeds =>
              not_needs_of_no_dependents hdb.linked hdb.satisfied hnone
                ((hdb.counted p hp hauto).of_needs hdb.satisfied) k
                ((hsame.major.needs k p).mp hneeds)
            have hun : Ready (w₂.uninstall p parent).db :=
              ready_uninstall hdb₂.linked hdb₂.one hneeds
                ((hsame.major.sameOrder.parent p).trans hparent)
                (hdb₂.one.alone hdb₂.linked.placed hp₂)
                fun q hq hqauto _ => hdb₂.counted q hq hqauto
            rcases hlast with rfl | ⟨-, err, hautoremove⟩
            · exact hun
            · exact keeps_removeAutoinstalled_of ready_frame
                (fun _ q dependents w err w' hq hqauto hqnone hrun hw =>
                  ih hw (present_of_installedByName hq) hqauto hqnone hrun) p _ _ _ hautoremove hun

theorem removeAutoinstalled_ready {fuel : Nat} (i : PkgId) :
    Keeps (fun w w' => Ready w.db → Ready w'.db)
      (removeAutoinstalled (fun i => opkgRemovePkg env fuel i false) i) :=
  keeps_removeAutoinstalled_of ready_frame
    (fun _ _ _ _ _ _ hp hauto hnone hrun hdb =>
      opkgRemovePkg_ready hdb (present_of_installedByName hp) hauto hnone hrun) i

/-- The removal of a package for which no dependents are counted. -/
theorem removal_of_no_dependents {fuel : Nat} {i : PkgId} {parent : AbstractPkgId} {w w' : World}
    {rc : Int} {dependents : List AbstractPkgId} (hlinked : Linked w.db)
    (hsat : DependenciesSatisfied w.db) (hparent : (w.db.pkg i).parent = some parent)
    (hnone : pkgHasInstalledDependents w.db (w.db.pkg i) = some (0, dependents))
    (hfiles : removePkgFiles env (fun i => opkgRemovePkg env fuel i false) i parent w
      = some (rc, w')) :
    SameMajor w w' ∨ (env.autoremove = false → DependenciesSatisfied w'.db →
        ∀ k, ¬ w.db.Needs k i) ∧
      (RemovalGuard env w.db i → DependenciesSatisfied w'.db) := by
  rcases removePkgFiles_sameMajorAuto hfiles with hsame | ⟨w₂, hsame, hlast⟩
  · exact .inl hsame.major
  · right
    constructor
    · intro hauto hsat'
      rcases hlast with rfl | ⟨hauto', -⟩
      · exact fun k hneeds => dependenciesSatisfied_uninstall_iff.mp hsat' k
          ((hsame.major.needs k i).mpr hneeds)
      · rw [hauto] at hauto'
        exact absurd hauto' (by decide)
    · intro hguard
      have hneeds : ∀ k, ¬ w₂.db.Needs k i := fun k hneeds =>
        not_needs_of_no_dependents hlinked hsat hnone hguard.counted k
          ((hsame.major.needs k i).mp hneeds)
      rcases hlast with rfl | ⟨hauto, err, hautoremove⟩
      · exact dependenciesSatisfied_uninstall_iff.mpr hneeds
      · obtain ⟨hone, halone, hcounted⟩ := hguard.orphans hauto
        have hun := hsame.major.onlyUninstalls
        have hready : Ready (w₂.uninstall i parent).db :=
          ready_uninstall (hun.linked hlinked) (hun.oneInstalled hone) hneeds
            ((hun.parent i).trans hparent) (hun.otherInstalled halone) fun p hp hpauto hpi =>
              (hsame.major.counted p).mpr
                (hcounted p (hun.present hp) (hsame.autoInstalled p ▸ hpauto) hpi)
        exact (removeAutoinstalled_ready i _ _ _ hautoremove hready).satisfied

/-- A package of the status file. -/
def statusStanza (name : CStr) (status : StateStatus) (depends : List CStr) : ParsedPkg :=
  ⟨{ parseVersion pkgNew "1.0".toList with
      name, architecture := some "all".toList, archPriority := 1, stateStatus := status
      dest := some rootDest, autoInstalled := true
      dependsStr := depends, dependsCount := depends.length },
    ⟨rfl, rfl, rfl, rfl, rfl, rfl, rfl, rfl, rfl, rfl, rfl, rfl⟩⟩

/-- The package `a` is installed. -/
def libInsertion : Insertion := ⟨0, statusStanza "a".toList .installed [], true⟩

/-- The package `b` depends on it. -/
def appInsertion (status : StateStatus) : Insertion :=
  ⟨1, statusStanza "b".toList status ["a".toList], true⟩

def pairWorld (status : StateStatus) : World :=
  { startWorld with db := (appInsertion status).run (libInsertion.run emptyDatabase) }

theorem pair_trace {status : StateStatus}
    (h : (hashInsertPkg ((libInsertion.run emptyDatabase).setPkg 1 (appInsertion status).pkg) 1
      true).isSome) :
    Trace InsertStep emptyDatabase
      [(emptyDatabase, libInsertion), (libInsertion.run emptyDatabase, appInsertion status)]
      (pairWorld status).db := by
  have htrace : Trace InsertStep emptyDatabase [(emptyDatabase, libInsertion)]
      (libInsertion.run emptyDatabase) :=
    trace_append (.nil _) (fun _ h => absurd h List.not_mem_nil) (by decide)
  refine trace_append htrace (fun x hx => ?_) h
  rw [List.mem_singleton.mp hx]
  exact show (0 : Nat) ≠ 1 by decide

/-- Only the two packages are filed, `a` and `b` under their names. -/
theorem pair_filed {status : StateStatus}
    (htrace : Trace InsertStep emptyDatabase
      [(emptyDatabase, libInsertion), (libInsertion.run emptyDatabase, appInsertion status)]
      (pairWorld status).db)
    (hparent : ((pairWorld status).db.pkg 0).parent = some "a".toList ∧
      ((pairWorld status).db.pkg 1).parent = some "b".toList)
    {a : AbstractPkgId} {k : PkgId} (hk : k ∈ (pairWorld status).db.filed a) :
    (k = 0 ∧ a = "a".toList) ∨ (k = 1 ∧ a = "b".toList) := by
  have hka := (linked_of_trace htrace).placed.parent a k hk
  have hid : k = 0 ∨ k = 1 := by
    by_contra hne
    rw [not_or] at hne
    refine fresh_of_trace htrace (fun x hx => ?_) a hk
    rcases List.mem_pair.mp hx with rfl | rfl
    · exact fun h => hne.1 h.symm
    · exact fun h => hne.2 h.symm
  rcases hid with rfl | rfl
  · rw [hparent.1] at hka
    exact .inl ⟨rfl, (Option.some.inj hka).symm⟩
  · rw [hparent.2] at hka
    exact .inr ⟨rfl, (Option.some.inj hka).symm⟩

/-- The dependency of `b` is satisfied as long as `a` is installed. -/
theorem pair_satisfied {status : StateStatus}
    (htrace : Trace InsertStep emptyDatabase
      [(emptyDatabase, libInsertion), (libInsertion.run emptyDatabase, appInsertion status)]
      (pairWorld status).db)
    (hparent : ((pairWorld status).db.pkg 0).parent = some "a".toList ∧
      ((pairWorld status).db.pkg 1).parent = some "b".toList)
    (hentries : ((pairWorld status).db.pkg 0).entries = [] ∧
      ((pairWorld status).db.pkg 1).entries = [⟨.depend, [{ pkg := "a".toList }]⟩])
    (hlib : (pairWorld status).db.filed "a".toList = [0] ∧
      ((pairWorld status).db.pkg 0).isInstalled = true ∧
      ((pairWorld status).db.pkg 0).provided = ["a".toList]) :
    DependenciesSatisfied (pairWorld status).db := by
  rintro k ⟨⟨a, hk⟩, -⟩ entry hentry -
  rcases pair_filed htrace hparent hk with ⟨rfl, -⟩ | ⟨rfl, -⟩
  · rw [hentries.1] at hentry
    exact absurd hentry List.not_mem_nil
  · rw [hentries.2, List.mem_singleton] at hentry
    subst hentry
    refine ⟨_, List.mem_singleton_self _, 0, ⟨⟨"a".toList, ?_⟩, hlib.2.1⟩, ?_, rfl⟩
    · rw [hlib.1]
      exact List.mem_singleton_self _
    · rw [hlib.2.2]
      exact List.mem_singleton_self _

/-- With `autoremove` the package `a` goes with `b`. -/
def autoremoveEnv : Env := { plainEnv [] with autoremove := true }

end FirmwareTools.Opkg

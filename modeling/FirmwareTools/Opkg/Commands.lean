import FirmwareTools.Opkg.AbstractStatus
import FirmwareTools.Opkg.LocalPackages

/-! # The commands

Configuring turns an unpacked package into an installed one, and `opkg flag` lets the user set the
flags or the status of an installed package. With filing, installing and removing these are the
operations that write a status.

* **`statusesAgree_along`** — a name is marked as installed exactly as long as one of its packages is,
  if no record that is not installed takes the place of the only installed one, and no package is
  removed while another one of its name is installed;
* **`not_statusesAgree_packageFile`** — a package file takes the place of the installed record. -/

namespace FirmwareTools.Opkg

open Op

/-! ## Configuring -/

section

variable (env : Env)

/-- `opkg_configure` -/
def opkgConfigure (pkg : Pkg) : DiskOp Int :=
  pkgRunScript env pkg "postinst".toList "configure".toList

/-- One package in the loop of `opkg_configure_packages`. A package without a parent is a `NULL`
dereference. -/
def configurePkg (i : PkgId) : Run Int := do
  let pkg ← getPkg i
  if pkg.stateStatus = .unpacked then
    let r ← opkgConfigure env pkg
    if r = 0 then
      modifyPkg i fun p => { p with stateStatus := .installed }
      let abPkg ← Op.deref pkg.parent
      modifyAbstractPkg abPkg fun ab => { ab with stateStatus := .installed }
      modifyPkg i fun p => { p with stateFlag := { p.stateFlag with prefer := false } }
      return 0
    else return -1
  else return 0

/-! ## Flags -/

/-- `pkg_hash_fetch_installed_by_name_dest` -/
def Database.installedByNameDest (db : Database) (name : AbstractPkgId) (dest : PkgDest) :
    Option PkgId :=
  (db.pkgVecFetchByName name).find? fun i =>
    (db.pkg i).isInstalled && (db.pkg i).dest == some dest

/-- The package a name on the line of `opkg flag` stands for. -/
def flaggedPkg (db : Database) (name : AbstractPkgId) : Option PkgId :=
  if env.restrictToDefaultDest then db.installedByNameDest name env.defaultDest
  else db.installedByName name

/-- Set the flags of a package, or its status. -/
def flagPkg (flags : CStr) (p : Pkg) : Pkg :=
  let p := if flags ∈ ["hold".toList, "noprune".toList, "user".toList, "ok".toList] then
      { p with stateFlag := pkgStateFlagFromStr flags }
    else p
  if flags ∈ ["installed".toList, "unpacked".toList] then
    { p with stateStatus := pkgStateStatusFromStr flags }
  else p

/-- One name in the loop of `opkg_flag_cmd`. -/
def opkgFlag (flags : CStr) (name : AbstractPkgId) : Run PUnit := do
  match flaggedPkg env (← get).db name with
  | none => return PUnit.unit
  | some i => modifyPkg i (flagPkg flags)

end

variable {env : Env}

/-- An installed package and its name are marked as installed. -/
def World.configured (w : World) (i : PkgId) (a : AbstractPkgId) : World :=
  let db := w.db.setPkg i ((w.db.pkg i).withStatus .installed)
  { w with db := db.setAbstractPkg a ((w.db.abstractPkg a).withStatus .installed) }

/-- A record is written that has the same place. -/
theorem sameOrder_setPkg {db : Database} {i : PkgId} {p : Pkg} (hname : p.name = (db.pkg i).name)
    (hparent : p.parent = (db.pkg i).parent) : SameOrder db (db.setPkg i p) where
  filed _ := rfl
  name k := by
    by_cases hk : k = i
    · subst hk
      rw [Database.setPkg_pkg_self, hname]
    · rw [Database.setPkg_pkg_of_ne _ _ hk]
  parent k := by
    by_cases hk : k = i
    · subst hk
      rw [Database.setPkg_pkg_self, hparent]
    · rw [Database.setPkg_pkg_of_ne _ _ hk]

theorem isInstalled_setPkg {db : Database} {i : PkgId} {p : Pkg}
    (h : p.isInstalled = (db.pkg i).isInstalled) (k : PkgId) :
    ((db.setPkg i p).pkg k).isInstalled = (db.pkg k).isInstalled := by
  by_cases hk : k = i
  · subst hk
    rw [Database.setPkg_pkg_self, h]
  · rw [Database.setPkg_pkg_of_ne _ _ hk]

theorem keepsOrder_configured {w : World} {i : PkgId} {a : AbstractPkgId}
    (hi : (w.db.pkg i).isInstalled = true) (hparent : (w.db.pkg i).parent = some a)
    (hfiled : w.db.Filed i) : KeepsOrder w (w.configured i a) := by
  have hpkg : SameOrder w.db (w.configured i a).db := by
    have hsame : SameOrder w.db (w.db.setPkg i ((w.db.pkg i).withStatus .installed)) :=
      sameOrder_setPkg rfl rfl
    refine ⟨fun b => ?_, hsame.name, hsame.parent⟩
    by_cases hb : b = a
    · subst hb
      exact filed_setAbstractPkg_self _ _ _
    · exact filed_setAbstractPkg_of_ne _ _ hb
  refine ⟨hpkg.filed, fun hdb => hpkg.orderly hdb (hpkg.agree ?_ (fun b => ?_) hdb.agree)⟩
  · exact isInstalled_setPkg (p := (w.db.pkg i).withStatus .installed) hi.symm
  · by_cases hb : b = a
    · subst hb
      obtain ⟨c, hc⟩ := hfiled
      rw [hdb.placed.parent c i hc, Option.some.injEq] at hparent
      rw [(hdb.agree b).mpr ⟨i, hparent ▸ hc, hi⟩]
      exact congrArg AbstractPkg.isInstalled (Database.setAbstractPkg_self _ _ _)
    · exact congrArg AbstractPkg.isInstalled (Database.setAbstractPkg_of_ne _ _ hb)

theorem SameMajor.filedPkg {w w' : World} (h : SameMajor w w') {i : PkgId} (hi : w.db.Filed i) :
    w'.db.Filed i := by
  obtain ⟨a, ha⟩ := hi
  exact ⟨a, h.sameOrder.filed a ▸ ha⟩

/-- **Configuring** a filed package: it was installed as far as its name is concerned, and stays
so. -/
theorem configurePkg_keepsOrder {i : PkgId} {w w' : World} {rc : Int} (hi : w.db.Filed i)
    (h : configurePkg env i w = some (rc, w')) : KeepsOrder w w' := by
  unfold configurePkg at h
  rw [getPkg_bind] at h
  split at h
  · rename_i hunpacked
    obtain ⟨r, w₁, hscript, hstatus⟩ := bind_eq_some.mp h
    have h₁ : SameMajor w w₁ := sameMajor_allowsAll.liftM _ _ _ _ hscript
    split at hstatus
    · rw [modifyPkg_bind] at hstatus
      obtain ⟨abPkg, w₂, hderef, hlast⟩ := bind_eq_some.mp hstatus
      obtain ⟨_, hparent, hr⟩ := deref_eq_some.mp hderef
      obtain ⟨rfl, rfl⟩ := Prod.mk.inj hr
      obtain ⟨_, w₃, habstract, hprefer⟩ := bind_eq_some.mp hlast
      obtain ⟨_, w₄, hflag, hreturn⟩ := bind_eq_some.mp hprefer
      obtain ⟨-, rfl⟩ := Prod.mk.inj (pure_eq_some.mp hreturn)
      have h₄ : SameMajor w₃ w' := by
        obtain ⟨-, rfl⟩ := Prod.mk.inj (modifyPkg_eq_some.mp hflag)
        exact SameMajor.setPkg rfl
      refine (h₁.keepsOrder.trans ?_).trans h₄.keepsOrder
      obtain ⟨-, rfl⟩ := Prod.mk.inj (modify_eq_some.mp habstract)
      have hstatus : (w₁.db.pkg i).isInstalled = true := by
        rw [h₁.isInstalled, Pkg.isInstalled, hunpacked]
        rfl
      have hparent₁ : (w₁.db.pkg i).parent = some abPkg := (h₁.sameOrder.parent i).trans hparent
      exact keepsOrder_configured hstatus hparent₁ (h₁.filedPkg hi)
    · obtain ⟨-, rfl⟩ := Prod.mk.inj (pure_eq_some.mp hstatus)
      exact h₁.keepsOrder
  · obtain ⟨-, rfl⟩ := Prod.mk.inj (pure_eq_some.mp h)
    exact keepsOrder_frame.refl _

/-- What is flagged is installed. -/
theorem isInstalled_of_flaggedPkg {db : Database} {name : AbstractPkgId} {i : PkgId}
    (h : flaggedPkg env db name = some i) : (db.pkg i).isInstalled = true := by
  unfold flaggedPkg at h
  split at h
  · have hi := List.find?_some h
    rw [Bool.and_eq_true] at hi
    exact hi.1
  · have hi := List.find?_some h
    exact hi

theorem isInstalled_flagPkg {flags : CStr} {p : Pkg} (hp : p.isInstalled = true) :
    (flagPkg flags p).isInstalled = true := by
  unfold flagPkg
  extract_lets q
  have hq : q.stateStatus = p.stateStatus := by
    unfold q
    split <;> rfl
  split
  · rename_i hflags
    rcases List.mem_pair.mp hflags with rfl | rfl
    · rfl
    · rfl
  · rw [Pkg.isInstalled, hq]
    exact hp

theorem flagPkg_place (flags : CStr) (p : Pkg) :
    (flagPkg flags p).name = p.name ∧ (flagPkg flags p).parent = p.parent := by
  simp only [flagPkg]
  split <;> split <;> exact ⟨rfl, rfl⟩

/-- **Flagging** a package leaves it installed. -/
theorem opkgFlag_keepsOrder {flags : CStr} {name : AbstractPkgId} {w w' : World}
    (h : opkgFlag env flags name w = some (⟨⟩, w')) : KeepsOrder w w' := by
  unfold opkgFlag at h
  rw [get_bind] at h
  cases hfound : flaggedPkg env w.db name with
  | none =>
      rw [hfound] at h
      obtain ⟨-, rfl⟩ := Prod.mk.inj (pure_eq_some.mp h)
      exact keepsOrder_frame.refl _
  | some i =>
      rw [hfound] at h
      obtain ⟨-, rfl⟩ := Prod.mk.inj (modifyPkg_eq_some.mp h)
      have hinstalled := isInstalled_of_flaggedPkg hfound
      obtain ⟨hname, hparent⟩ := flagPkg_place flags (w.db.pkg i)
      have hsame := sameOrder_setPkg hname hparent
      have hstatus : (flagPkg flags (w.db.pkg i)).isInstalled = (w.db.pkg i).isInstalled :=
        (isInstalled_flagPkg hinstalled).trans hinstalled.symm
      exact ⟨hsame.filed, fun hdb => hsame.orderly hdb
        (hsame.agree (isInstalled_setPkg hstatus) (fun _ => rfl) hdb.agree)⟩

/-! ## Runs of commands -/

/-- What writes statuses: a record is filed, or a package is installed, configured, removed or
flagged. The number is how deep the recursion may go. -/
inductive Command
  | insert (ins : Insertion)
  | install (fuel : Nat) (i : PkgId)
  | configure (i : PkgId)
  | remove (fuel : Nat) (i : PkgId) (fromUpgrade : Bool)
  | flag (flags : CStr) (name : AbstractPkgId)

/-- A command that returns. Filing a package may make new names; the packages that are installed or
configured are taken from the database. -/
def CommandStep (env : Env) (w : World) (c : Command) (w' : World) : Prop :=
  match c with
  | .insert ins => ∃ db names, InsertStep w.db ins db ∧ w' = { w with db, names }
  | .install fuel i => w.db.Filed i ∧ ∃ rc, opkgInstallPkg env fuel i w = some (rc, w')
  | .configure i => w.db.Filed i ∧ ∃ rc, configurePkg env i w = some (rc, w')
  | .remove fuel i fromUpgrade => ∃ rc, opkgRemovePkg env fuel i fromUpgrade w = some (rc, w')
  | .flag flags name => opkgFlag env flags name w = some (⟨⟩, w')

/-- A record that is not installed does not take the place of the only installed one, and whenever a
package is removed, no other one of its name is installed. -/
def CommandGuard (env : Env) (w : World) (c : Command) : Prop :=
  match c with
  | .insert ins => InsertGuard w.db ins
  | .install fuel i => (opkgInstallPkgAlone env fuel i w).isSome
  | .remove fuel i fromUpgrade => (opkgRemovePkgAlone env fuel i fromUpgrade w).isSome
  | .configure _ => True
  | .flag _ _ => True

/-- **One command** that meets its guard keeps the database orderly. -/
theorem orderly_step {w w' : World} {c : Command} (hdb : Orderly w.db)
    (h : CommandStep env w c w') (hguard : CommandGuard env w c) : Orderly w'.db := by
  cases c with
  | insert ins =>
      obtain ⟨db, names, hstep, rfl⟩ := h
      exact ⟨wellPlaced_step hdb.placed hstep, namedAsFiled_step hdb.placed hdb.named hstep,
        (statusesAgree_step_iff hdb hstep).mpr hguard⟩
  | install fuel i =>
      obtain ⟨hi, rc, hrun⟩ := h
      obtain ⟨⟨rc', w''⟩, halone⟩ := Option.isSome_iff_exists.mp hguard
      have hsame := opkgInstallPkg_extends_alone fuel i _ _ halone
      rw [hrun, Option.some.injEq, Prod.mk.injEq] at hsame
      obtain ⟨rfl, rfl⟩ := hsame
      exact (opkgInstallPkgAlone_keepsOrder hi halone).orderly hdb
  | configure i =>
      obtain ⟨hi, rc, hrun⟩ := h
      exact (configurePkg_keepsOrder hi hrun).orderly hdb
  | remove fuel i fromUpgrade =>
      obtain ⟨rc, hrun⟩ := h
      obtain ⟨⟨rc', w''⟩, halone⟩ := Option.isSome_iff_exists.mp hguard
      have hsame := opkgRemovePkg_extends fuel i fromUpgrade _ _ halone
      rw [hrun, Option.some.injEq, Prod.mk.injEq] at hsame
      obtain ⟨rfl, rfl⟩ := hsame
      exact (opkgRemovePkgAlone_keepsOrder fuel i fromUpgrade _ _ _ halone).2.orderly hdb
  | flag flags name => exact (opkgFlag_keepsOrder h).orderly hdb

theorem orderly_empty : Orderly emptyDatabase where
  placed := wellPlaced_empty
  named := fun _ _ hk => absurd hk List.not_mem_nil
  agree := fun _ => iff_of_false Bool.false_ne_true fun ⟨_, hk, _⟩ => absurd hk List.not_mem_nil

/-- **The statuses agree all along**: in every run of commands from an empty database in which no
record that is not installed takes the place of the only installed one and no package is removed
while another one of its name is installed. -/
theorem statusesAgree_along {tr : List (World × Command)} {w w' : World}
    (hrun : Trace (CommandStep env) w tr w') (hstart : w.db = emptyDatabase)
    (hguard : ∀ x ∈ tr, CommandGuard env x.1 x.2) :
    Trace.Along (fun w => StatusesAgree w.db) tr w' := by
  have halong : Trace.Along (fun w => Orderly w.db) tr w' :=
    hrun.invariant_of_guard (hstart ▸ orderly_empty)
      (fun _ _ _ hdb hstep hguard => orderly_step hdb hstep hguard) hguard
  exact ⟨fun x hx => (halong.1 x hx).agree, halong.2.agree⟩

/-! ## A package file over an installed package -/

/-- Nothing has been read. -/
def startWorld : World where
  db := emptyDatabase
  names := []
  marks _ := 0
  fileHash := []
  obsFileHash := []
  disk := { files := fun _ => none, asked := 0 }

/-- The status file is read, then a package file is filed. -/
theorem status_packageFile_trace {version : CStr}
    (h : (hashInsertPkg (afterStatus.setPkg 1 ((packageFile version).insertion rootDest).pkg) 1
      true).isSome) :
    Trace (CommandStep (plainEnv [])) startWorld
      [(startWorld, Command.insert installedInsertion),
        ({ startWorld with db := afterStatus }, Command.insert ((packageFile version).insertion rootDest))]
      { startWorld with db := afterPackageFile version } := by
  have hstatus : InsertStep emptyDatabase installedInsertion afterStatus :=
    insertStep_run (fun _ => List.not_mem_nil) (by decide)
  have hfile : InsertStep afterStatus ((packageFile version).insertion rootDest)
      (afterPackageFile version) := by
    refine insertStep_run (fresh_of_trace status_trace fun x hx => ?_) h
    rw [List.mem_singleton.mp hx]
    exact show (0 : Nat) ≠ 1 by decide
  exact .cons ⟨afterStatus, [], hstatus, rfl⟩ (.cons ⟨_, [], hfile, rfl⟩ (.nil _))

/-- The file of the installed version takes the place of its record, and the name stays marked as
installed. -/
theorem not_statusesAgree_packageFile :
    ¬ ∀ env w tr w', w.db = emptyDatabase → Trace (CommandStep env) w tr w' →
      Trace.Along (fun w => StatusesAgree w.db) tr w' := by
  intro h
  have hagree := (h _ _ _ _ rfl (@status_packageFile_trace "1.0".toList (by decide +kernel))).2
    "a".toList
  have hname : ((afterPackageFile "1.0".toList).abstractPkg "a".toList).isInstalled = true := by
    decide +kernel
  have hvec : (afterPackageFile "1.0".toList).filed "a".toList = [1] := by
    decide +kernel
  have hpkg : ((afterPackageFile "1.0".toList).pkg 1).isInstalled = false := by
    decide +kernel
  obtain ⟨k, hk, hinstalled⟩ := hagree.mp hname
  rw [show k = 1 from List.mem_singleton.mp (hvec ▸ hk), hpkg] at hinstalled
  exact absurd hinstalled (by decide)

/-- The file of another version is filed beside it. -/
theorem statusesAgree_along_packageFile :
    Trace.Along (fun w => StatusesAgree w.db)
      [(startWorld, Command.insert installedInsertion),
        ({ startWorld with db := afterStatus },
          Command.insert ((packageFile "2.0".toList).insertion rootDest))]
      { startWorld with db := afterPackageFile "2.0".toList } := by
  refine statusesAgree_along (status_packageFile_trace (by decide +kernel)) rfl ?_
  have hnone : ∀ {db : Database} {ins : Insertion},
      findDuplicate db ins.pkg (db.filed ins.pkg.1.name) = some none → InsertGuard db ins := by
    intro db ins hnone before j after hdup
    exact absurd (hnone.symm.trans hdup) (by simp)
  simp only [List.forall_mem_cons, List.not_mem_nil, false_implies, implies_true, and_true]
  exact ⟨hnone (by decide +kernel), hnone (by decide +kernel)⟩

end FirmwareTools.Opkg

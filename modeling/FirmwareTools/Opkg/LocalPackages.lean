import FirmwareTools.Opkg.Duplicates
import FirmwareTools.Opkg.World

/-! # Package files in the database

`opkg_prepare_url_for_install` files the package a package file holds, merging it like a stanza of a
status file. The merge takes much over from a record of the same version, but not the state of the
package.

* **`installedKept_of_guard`** — installed packages stay installed if no package file is filed in
  the place of an installed package unless it brings the same state with it. -/

namespace FirmwareTools.Opkg

/-- What `opkg_prepare_url_for_install` sets in the record `pkg_init_from_file` made. `byHand` tells
a local package file from a downloaded one. -/
def preparePkgFile (defaultDest : PkgDest) (byHand : Bool) (pkg : Pkg) : Pkg :=
  { pkg with
    providedByHand := byHand || pkg.providedByHand
    dest := some defaultDest
    stateWant := .install
    stateFlag := { pkg.stateFlag with prefer := true } }

theorem preparePkgFile_isParsed (defaultDest : PkgDest) (byHand : Bool) {pkg : Pkg}
    (h : pkg.IsParsed) : (preparePkgFile defaultDest byHand pkg).IsParsed :=
  ⟨h.dependsCount, h.preDependsCount, h.recommendsCount, h.suggestsCount, h.conflictsCount,
    h.replacesCount, h.providesCount, h.unresolved⟩

/-- A call of `opkg_prepare_url_for_install` on a package file that can be read: the record `pkg_new`
allocated at `id` and what `pkg_init_from_file` read into it. -/
structure PackageFile where
  id : PkgId
  pkg : ParsedPkg
  byHand : Bool

/-- The call of `hash_insert_pkg` it makes. -/
def PackageFile.insertion (defaultDest : PkgDest) (file : PackageFile) : Insertion where
  id := file.id
  pkg := ⟨preparePkgFile defaultDest file.byHand file.pkg,
    preparePkgFile_isParsed defaultDest file.byHand file.pkg.2⟩
  setStatus := true

variable {defaultDest : PkgDest}

/-- One package file is filed. -/
def PrepareStep (defaultDest : PkgDest) (db : Database) (file : PackageFile) (db' : Database) :
    Prop :=
  InsertStep db (file.insertion defaultDest) db'

/-- The package file has the version and the architecture of a package of the name `a`. -/
def PackageFile.Matches (file : PackageFile) (a : AbstractPkgId) (p : Pkg) : Prop :=
  file.pkg.1.name = a ∧ SameVersion file.pkg p

/-- A record stands for the same installed package as another: the version, the architecture, the
state and the automatic flag are the same. -/
structure SameInstalled (p q : Pkg) : Prop where
  version : SameVersion p q
  stateStatus : q.stateStatus = p.stateStatus
  autoInstalled : q.autoInstalled = p.autoInstalled

theorem SameInstalled.refl (p : Pkg) : SameInstalled p p :=
  ⟨⟨pkgCompareVersions_threeWay.refl p, rfl⟩, rfl, rfl⟩

theorem SameInstalled.trans {p q r : Pkg} (h : SameInstalled p q) (h' : SameInstalled q r) :
    SameInstalled p r :=
  ⟨h.version.trans h'.version, h'.stateStatus.trans h.stateStatus,
    h'.autoInstalled.trans h.autoInstalled⟩

/-- Every package that was installed or unpacked is still filed, in the same state, and with the same
configuration files unless one of the package files brought some for it. -/
def InstalledKept (db : Database) (files : List PackageFile) (db' : Database) : Prop :=
  ∀ a, ∀ k ∈ db.filed a, (db.pkg k).isInstalled →
    ∃ k' ∈ db'.filed a, SameInstalled (db.pkg k) (db'.pkg k') ∧
      ((∀ file ∈ files, file.Matches a (db.pkg k) → file.pkg.1.conffiles = []) →
        (db'.pkg k').conffiles = (db.pkg k).conffiles)

/-- A package file that takes the place of an installed package brings its state with it. -/
def StatusGuard (defaultDest : PkgDest) (db : Database) (file : PackageFile) : Prop :=
  ∀ before j after,
    findDuplicate db (file.insertion defaultDest).pkg (db.filed file.pkg.1.name)
        = some (some (before, j, after)) →
      (db.pkg j).isInstalled →
        file.pkg.1.stateStatus = (db.pkg j).stateStatus ∧
        (file.pkg.1.autoInstalled = true → (db.pkg j).autoInstalled = true)

/-! ## One package file -/

/-- A package that was filed is still filed with its record, or it is the duplicate whose place the
inserted package takes. -/
theorem insertStep_keeps {db db' : Database} {ins : Insertion} (hdb : WellPlaced db)
    (h : InsertStep db ins db') {a : AbstractPkgId} {k : PkgId} (hk : k ∈ db.filed a) :
    (k ∈ db'.filed a ∧ db'.pkg k = db.pkg k) ∨
      (a = ins.pkg.1.name ∧ ∃ before after,
        findDuplicate db ins.pkg (db.filed a) = some (some (before, k, after))) := by
  have hid : k ≠ ins.id := ne_of_mem_of_not_mem hk (h.1 a)
  have hsame : ∀ {b}, k ∈ db'.filed b → db'.pkg k = db.pkg k := by
    intro b hb
    rcases insertStep_filed hdb h hb with ⟨hid', -⟩ | ⟨-, hsame⟩
    · exact absurd hid' hid
    · exact hsame
  obtain ⟨hne, _, _, _, hcase⟩ := insertStep_cases h
  by_cases ha : a = ins.pkg.1.name
  · subst ha
    rcases hcase with ⟨-, hvec, -⟩ | ⟨before, j, after, hdup, hvec, -⟩
    · have hmem : k ∈ db'.filed ins.pkg.1.name := by
        rw [hvec]
        exact List.mem_append_left _ hk
      exact .inl ⟨hmem, hsame hmem⟩
    · by_cases hkj : k = j
      · subst hkj
        exact .inr ⟨rfl, before, after, hdup⟩
      · have hmem : k ∈ db'.filed ins.pkg.1.name := by
          rw [findDuplicate_eq_append hdup, List.mem_append, List.mem_cons] at hk
          rw [hvec, List.mem_append, List.mem_cons]
          tauto
        exact .inl ⟨hmem, hsame hmem⟩
  · have hmem : k ∈ db'.filed a := by
      rw [hne a ha]
      exact hk
    exact .inl ⟨hmem, hsame hmem⟩

theorem conffiles_resolved (p : Pkg) (depends conflicts : List CompoundDepend)
    (replaces : List AbstractPkgId) :
    (p.resolved depends conflicts replaces).conffiles = p.conffiles := rfl

theorem conffiles_withParent (p : Pkg) (a : AbstractPkgId) :
    (p.withParent a).conffiles = p.conffiles := rfl

/-- The configuration files of an inserted package that brings none are those of the duplicate whose
place it takes. -/
theorem insertStep_conffiles {db db' : Database} {ins : Insertion} (h : InsertStep db ins db')
    (hst : ins.setStatus = true) (hnone : ins.pkg.1.conffiles = [])
    {before after : List PkgId} {j : PkgId}
    (hdup : findDuplicate db ins.pkg (db.filed ins.pkg.1.name) = some (some (before, j, after))) :
    (db'.pkg ins.id).conffiles = (db.pkg j).conffiles := by
  obtain ⟨depends, conflicts, replaces, hcase⟩ := insertStep_pkg h
  rcases hcase with ⟨-, hnodup⟩ | ⟨-, before', j', after', hdup', hpkg⟩
  · have := (hnodup hst).symm.trans hdup
    exact absurd this (by simp)
  · have hfound := hdup'.symm.trans hdup
    simp only [Option.some.injEq, Prod.mk.injEq] at hfound
    obtain ⟨-, rfl, -⟩ := hfound
    have hmerge := (pkgMerge_identity (ins.pkg.1.resolved depends conflicts replaces)
      (db.pkg j')).2
    rw [conffiles_resolved, hnone, List.isEmpty_nil, if_pos rfl] at hmerge
    rw [hpkg, conffiles_withParent, hmerge]

/-- A package file takes the place of a record of its own version only: it is never held for
deinstallation. -/
theorem sameVersion_of_duplicate {db : Database} {file : PackageFile} {vec before after : List PkgId}
    {j : PkgId}
    (hdup : findDuplicate db (file.insertion defaultDest).pkg vec = some (some (before, j, after))) :
    SameVersion file.pkg (db.pkg j) := by
  have hdup' := (isDuplicate_true (findDuplicate_some hdup)).2
  rcases hdup' with ⟨hwant, -⟩ | hsame
  · exact absurd hwant (by simp [PackageFile.insertion, preparePkgFile])
  · exact hsame

/-- **One package file**: under the guard it keeps the installed packages. -/
theorem installedKept_step {db db' : Database} {file : PackageFile} (hdb : WellPlaced db)
    (h : PrepareStep defaultDest db file db') (hguard : StatusGuard defaultDest db file) :
    InstalledKept db [file] db' := by
  intro a k hk hinstalled
  rcases insertStep_keeps hdb h hk with ⟨hmem, hsame⟩ | ⟨ha, before, after, hdup⟩
  · exact ⟨k, hmem, hsame ▸ SameInstalled.refl _, fun _ => by rw [hsame]⟩
  · -- the package file takes the place of `k`
    have ha' : a = file.pkg.1.name := ha
    subst ha'
    have hversion := sameVersion_of_duplicate hdup
    obtain ⟨hstatus, hauto⟩ := hguard before k after hdup hinstalled
    rcases insertStep_identity h with ⟨hnone, -⟩ | ⟨before', j, after', hdup', -, hidentity⟩
    · have := hnone.symm.trans hdup
      exact absurd this (by simp)
    · have hfound := hdup'.symm.trans hdup
      simp only [Option.some.injEq, Prod.mk.injEq] at hfound
      obtain ⟨-, rfl, -⟩ := hfound
      have hmerged : (file.insertion defaultDest).mergedArchitecture (db.pkg j)
          = (db.pkg j).architecture := mergedArchitecture_eq hversion.2
      have hnew : SameVersion (db'.pkg (file.insertion defaultDest).id) (db.pkg j) :=
        (sameVersion_replaced hidentity (db.pkg j)).mpr ⟨hversion.1, hmerged⟩
      refine ⟨_, insertStep_mem h, ⟨hnew.symm, ?_, ?_⟩, fun hfiles => ?_⟩
      · exact (congrArg (fun key => key.2.2.2.2.2.1) hidentity).trans hstatus
      · refine (congrArg (fun key => key.2.2.2.2.2.2) hidentity).trans ?_
        have himp : file.pkg.1.autoInstalled = true → (db.pkg j).autoInstalled = true := hauto
        change (file.pkg.1.autoInstalled || (db.pkg j).autoInstalled) = (db.pkg j).autoInstalled
        cases hfile : file.pkg.1.autoInstalled with
        | false => rfl
        | true => rw [himp hfile, Bool.or_true]
      · exact insertStep_conffiles h rfl
          (hfiles file (List.mem_singleton.mpr rfl) ⟨rfl, hversion⟩) hdup

/-! ## Package files after a status file -/

/-- What is kept over one run and then over another is kept over both. -/
theorem InstalledKept.trans {db db' db'' : Database} {files files' : List PackageFile}
    (h : InstalledKept db files db') (h' : InstalledKept db' files' db'') :
    InstalledKept db (files ++ files') db'' := by
  intro a k hk hinstalled
  obtain ⟨k', hk', hsame, hconf⟩ := h a k hk hinstalled
  have hinstalled' : (db'.pkg k').isInstalled := by
    rw [Pkg.isInstalled, hsame.stateStatus]
    exact hinstalled
  obtain ⟨k'', hk'', hsame', hconf'⟩ := h' a k' hk' hinstalled'
  refine ⟨k'', hk'', hsame.trans hsame', fun hfiles => ?_⟩
  have hfirst := hconf fun file hfile => hfiles file (List.mem_append_left _ hfile)
  have hsecond := hconf' fun file hfile hmatches =>
    hfiles file (List.mem_append_right _ hfile) ⟨hmatches.1, hmatches.2.trans hsame.version.symm⟩
  exact hsecond.trans hfirst

/-- **Installed packages stay installed**: from any database the program has loaded, in every run of
package files in which each meets the guard when it is filed, no installed package is lost. -/
theorem installedKept_of_guard {loaded : List (Database × Insertion)} {db db' : Database}
    {tr : List (Database × PackageFile)} (hload : Trace InsertStep emptyDatabase loaded db)
    (h : Trace (PrepareStep defaultDest) db tr db')
    (hguard : ∀ x ∈ tr, StatusGuard defaultDest x.1 x.2) :
    InstalledKept db (tr.map Prod.snd) db' := by
  have hplaced : WellPlaced db := (hashInsertPkg_wellPlaced hload).2
  clear hload
  induction h with
  | nil db =>
      intro a k hk _
      exact ⟨k, hk, SameInstalled.refl _, fun _ => rfl⟩
  | cons hstep _ ih =>
      rw [List.forall_mem_cons] at hguard
      have hone := installedKept_step hplaced hstep hguard.1
      exact hone.trans (ih hguard.2 (wellPlaced_step hplaced hstep))

/-- The status file says that version 1.0 of `a` is installed. -/
def installedInsertion : Insertion where
  id := 0
  pkg := ⟨{ name := "a".toList, version := some "1.0".toList, architecture := some "all".toList,
            archPriority := 1, stateWant := .install, stateStatus := .installed },
    ⟨rfl, rfl, rfl, rfl, rfl, rfl, rfl, rfl, rfl, rfl, rfl, rfl⟩⟩
  setStatus := true

/-- A package file with a version of `a`. -/
def packageFile (version : CStr) : PackageFile := ⟨1, versionStanza version false, true⟩

/-- The database when the status file has been read. -/
def afterStatus : Database := installedInsertion.run emptyDatabase

theorem status_trace : Trace InsertStep emptyDatabase [(emptyDatabase, installedInsertion)]
    afterStatus :=
  trace_append (.nil _) (fun _ h => absurd h List.not_mem_nil) (by decide)

/-- The database when a package file has been filed too. -/
def afterPackageFile (version : CStr) : Database :=
  ((packageFile version).insertion rootDest).run afterStatus

theorem packageFile_trace {version : CStr}
    (h : (hashInsertPkg (afterStatus.setPkg 1 ((packageFile version).insertion rootDest).pkg) 1
      true).isSome) :
    Trace (PrepareStep rootDest) afterStatus [(afterStatus, packageFile version)]
      (afterPackageFile version) := by
  refine .cons (insertStep_run (fresh_of_trace status_trace fun x hx => ?_) h) (.nil _)
  rw [List.mem_singleton.mp hx]
  exact show (0 : Nat) ≠ 1 by decide

/-- The file of the installed version takes the place of its record, and nobody knows any more that
it is installed. -/
theorem not_installedKept_packageFile :
    ¬ ∀ loaded db tr db', Trace InsertStep emptyDatabase loaded db →
      Trace (PrepareStep rootDest) db tr db' → InstalledKept db (tr.map Prod.snd) db' := by
  intro h
  have hkept := h _ _ _ _ status_trace (@packageFile_trace "1.0".toList (by decide +kernel))
  obtain ⟨k, hk, hsame, -⟩ := hkept "a".toList 0 (by decide) (by decide)
  have hvec : (afterPackageFile "1.0".toList).filed "a".toList = [1] := by
    decide +kernel
  have hlost : ((afterPackageFile "1.0".toList).pkg 1).stateStatus = .notInstalled := by
    decide +kernel
  have hinstalled : (afterStatus.pkg 0).stateStatus = .installed := by
    decide
  rw [hvec, List.mem_singleton] at hk
  subst hk
  have := hsame.stateStatus
  rw [hlost, hinstalled] at this
  exact absurd this (by decide)

/-- The file of another version is filed beside it. -/
theorem installedKept_of_guard_packageFile :
    InstalledKept afterStatus [packageFile "2.0".toList] (afterPackageFile "2.0".toList) := by
  refine installedKept_of_guard status_trace (packageFile_trace (by decide +kernel)) ?_
  rw [List.forall_mem_singleton]
  intro before j after hdup
  have hnone : findDuplicate afterStatus ((packageFile "2.0".toList).insertion rootDest).pkg
      (afterStatus.filed "a".toList) = some none := by
    decide +kernel
  have := hnone.symm.trans hdup
  exact absurd this (by simp)

end FirmwareTools.Opkg

import FirmwareTools.Opkg.Depends
import FirmwareTools.System.Trace
import Mathlib.Data.List.Nodup

/-! # Filing packages in the database

`hash_insert_pkg` resolves the dependency fields of a freshly parsed package and files it under its
abstract package, where `pkg_vec_insert_merge` replaces a duplicate, merging it first when the new
record comes from a status file or from the command line.

* **`hashInsertPkg_wellPlaced`** — every filed package is filed once, under its own parent;
* **`providesOk_along_iff`** — the `provides` arrays are as long as their counts say all along a run
  of insertions exactly when no insertion merges a record without `Provides` into one with. -/

namespace FirmwareTools.Opkg

/-! ## Resolving the fields of a package -/

/-- Set the `depends` array. -/
def Pkg.withDepends (pkg : Pkg) (depends : List CompoundDepend) : Pkg := { pkg with depends }

/-- Set the `provides` array and count one entry more than the field had. -/
def Pkg.withProvides (pkg : Pkg) (provides : List AbstractPkgId) : Pkg :=
  { pkg with providesCount := pkg.providesCount + 1, provides := some provides }

/-- Set the `conflicts` array. -/
def Pkg.withConflicts (pkg : Pkg) (conflicts : List CompoundDepend) : Pkg := { pkg with conflicts }

/-- Set the `replaces` array. -/
def Pkg.withReplaces (pkg : Pkg) (replaces : List AbstractPkgId) : Pkg := { pkg with replaces }

/-- Set the parent. -/
def Pkg.withParent (pkg : Pkg) (parent : AbstractPkgId) : Pkg := { pkg with parent := some parent }

/-- `pkg_conflicts_abstract` -/
def pkgConflictsAbstract (pkg : Pkg) (conflictee : AbstractPkgId) : Bool :=
  pkg.conflicts.any fun entry => entry.possibilities.any fun d => d.pkg == conflictee

/-- `buildDepends`: the entries of the four fields in turn, each field with its own type. A greedy
entry of `Depends` stays greedy. -/
def buildDepends (pkg : Pkg) : Option Pkg := do
  if pkg.preDependsCount + pkg.dependsCount + pkg.recommendsCount + pkg.suggestsCount = 0 then
    some pkg
  else
    let preDepends ← pkg.preDependsStr.mapM parseDepends
    let depends ← pkg.dependsStr.mapM parseDepends
    let recommends ← pkg.recommendsStr.mapM parseDepends
    let suggests ← pkg.suggestsStr.mapM parseDepends
    let entries := preDepends.map (fun d => { d with type := .predepend }) ++ depends ++
      recommends.map (fun d => { d with type := .recommend }) ++
      suggests.map (fun d => { d with type := .suggest })
    some (pkg.withDepends entries)

/-- `abstract_pkg_vec_insert(a->provided_by, ab_pkg)` -/
def Database.insertProvidedBy (db : Database) (a abPkg : AbstractPkgId) : Database :=
  let ab := db.abstractPkg a
  db.setAbstractPkg a { ab with providedBy := ab.providedBy ++ [abPkg] }

/-- `buildProvides`: every package provides its own name, then those of its field. -/
def buildProvides (db : Database) (abPkg : AbstractPkgId) (pkg : Pkg) : Database × Pkg :=
  let provides := abPkg :: pkg.providesStr
  (provides.foldl (fun db a => db.insertProvidedBy a abPkg) db, pkg.withProvides provides)

/-- `buildConflicts`. The type `CONFLICTS` it sets is overwritten by `parseDepends`. -/
def buildConflicts (pkg : Pkg) : Option Pkg := do
  if pkg.conflictsCount = 0 then some pkg
  else
    let conflicts ← pkg.conflictsStr.mapM parseDepends
    some (pkg.withConflicts conflicts)

/-- One round of `buildReplaces`: a package that both replaces and conflicts with `old` is entered
as a replacer of `old`. -/
def Database.insertReplacedBy (db : Database) (pkg : Pkg) (abPkg old : AbstractPkgId) : Database :=
  let ab := db.abstractPkg old
  let replacedBy := ab.replacedBy.getD []
  let replacedBy := if pkgConflictsAbstract pkg old then replacedBy ++ [abPkg] else replacedBy
  db.setAbstractPkg old { ab with replacedBy := some replacedBy }

/-- `buildReplaces` -/
def buildReplaces (db : Database) (abPkg : AbstractPkgId) (pkg : Pkg) : Database × Pkg :=
  if pkg.replacesCount = 0 then (db, pkg)
  else
    (pkg.replacesStr.foldl (fun db old => db.insertReplacedBy pkg abPkg old) db,
      pkg.withReplaces pkg.replacesStr)

/-- Append to the `depended_upon_by` array of an abstract package. -/
def Database.insertDependedUponBy (db : Database) (a abPkg : AbstractPkgId) : Database :=
  let ab := db.abstractPkg a
  db.setAbstractPkg a { ab with dependedUponBy := ab.dependedUponBy ++ [abPkg] }

/-- `buildDependedUponBy` -/
def buildDependedUponBy (db : Database) (pkg : Pkg) (abPkg : AbstractPkgId) : Database :=
  let count := pkg.preDependsCount + pkg.dependsCount + pkg.recommendsCount + pkg.suggestsCount
  let entries := (pkg.depends.take count).filter fun entry =>
    entry.type == .predepend || entry.type == .depend || entry.type == .recommend
  (entries.flatMap CompoundDepend.possibilities).foldl
    (fun db d => db.insertDependedUponBy d.pkg abPkg) db

/-! ## Merging duplicates -/

/-- The first fields of `pkg_merge`, on the pair of `oldpkg` and `newpkg`. -/
def pkgMergeHeader (m : Pkg × Pkg) : Pkg × Pkg :=
  let (old, new) := m
  ({ old with
      autoInstalled := old.autoInstalled || new.autoInstalled
      src := old.src <|> new.src
      dest := old.dest <|> new.dest
      architecture := old.architecture <|> new.architecture
      archPriority := if old.archPriority = 0 then new.archPriority else old.archPriority
      sectionName := old.sectionName <|> new.sectionName
      maintainer := old.maintainer <|> new.maintainer
      description := old.description <|> new.description }, new)

/-- The dependency fields of `pkg_merge`, which change hands together. -/
def pkgMergeDepends (m : Pkg × Pkg) : Pkg × Pkg :=
  let (old, new) := m
  if old.dependsCount = 0 ∧ old.preDependsCount = 0 ∧ old.recommendsCount = 0 ∧
      old.suggestsCount = 0 then
    ({ old with
        depends := new.depends, dependsCount := new.dependsCount
        preDependsCount := new.preDependsCount, recommendsCount := new.recommendsCount
        suggestsCount := new.suggestsCount },
      { new with
        depends := [], dependsCount := 0, preDependsCount := 0, recommendsCount := 0
        suggestsCount := 0 })
  else (old, new)

/-- The `provides` field of `pkg_merge`: the count is taken over, the array only if there is
none. -/
def pkgMergeProvides (m : Pkg × Pkg) : Pkg × Pkg :=
  let (old, new) := m
  if old.providesCount ≤ 1 then
    if old.provides.isNone then
      ({ old with providesCount := new.providesCount, provides := new.provides },
        { new with providesCount := 0, provides := none })
    else ({ old with providesCount := new.providesCount }, { new with providesCount := 0 })
  else (old, new)

/-- The `conflicts` field of `pkg_merge`. -/
def pkgMergeConflicts (m : Pkg × Pkg) : Pkg × Pkg :=
  let (old, new) := m
  if old.conflictsCount = 0 then
    ({ old with conflicts := new.conflicts, conflictsCount := new.conflictsCount },
      { new with conflicts := [], conflictsCount := 0 })
  else (old, new)

/-- The `replaces` field of `pkg_merge`. -/
def pkgMergeReplaces (m : Pkg × Pkg) : Pkg × Pkg :=
  let (old, new) := m
  if old.replacesCount = 0 then
    ({ old with replaces := new.replaces, replacesCount := new.replacesCount },
      { new with replaces := [], replacesCount := 0 })
  else (old, new)

/-- The plain fields at the end of `pkg_merge`. -/
def pkgMergeFields (m : Pkg × Pkg) : Pkg × Pkg :=
  let (old, new) := m
  ({ old with
      filename := old.filename <|> new.filename
      localFilename := old.localFilename <|> new.localFilename
      tmpUnpackDir := old.tmpUnpackDir <|> new.tmpUnpackDir
      md5sum := old.md5sum <|> new.md5sum
      sha256sum := old.sha256sum <|> new.sha256sum
      size := if old.size = 0 then new.size else old.size
      installedSize := if old.installedSize = 0 then new.installedSize else old.installedSize
      priority := old.priority <|> new.priority
      source := old.source <|> new.source
      essential := old.essential || new.essential }, new)

/-- The `conffiles` list of `pkg_merge`. -/
def pkgMergeConffiles (m : Pkg × Pkg) : Pkg × Pkg :=
  let (old, new) := m
  if old.conffiles.isEmpty then
    ({ old with conffiles := new.conffiles }, { new with conffiles := [] })
  else (old, new)

/-- The `installed_files` list of `pkg_merge`. -/
def pkgMergeInstalledFiles (m : Pkg × Pkg) : Pkg × Pkg :=
  let (old, new) := m
  if old.installedFiles.isNone then
    ({ old with
        installedFiles := new.installedFiles, installedFilesRefCnt := new.installedFilesRefCnt },
      { new with installedFiles := none })
  else (old, new)

/-- `pkg_merge`: take over from `newpkg` what `oldpkg` does not have. The arrays that change hands
are cleared in `newpkg`, which comes second in the result. -/
def pkgMerge (oldpkg newpkg : Pkg) : Pkg × Pkg :=
  pkgMergeInstalledFiles (pkgMergeConffiles (pkgMergeFields (pkgMergeReplaces (pkgMergeConflicts
    (pkgMergeProvides (pkgMergeDepends (pkgMergeHeader (oldpkg, newpkg))))))))

/-- Does `pkg` replace `old`? The same name, and either `pkg` is held for deinstallation or version
and architecture agree too. Comparing a missing architecture is a `NULL` dereference. -/
def isDuplicate (pkg old : Pkg) : Option Bool := do
  if pkg.name ≠ old.name then some false
  else if pkg.stateWant = .deinstall ∧ pkg.stateFlag.hold = true then some true
  else if pkgCompareVersions pkg old ≠ 0 then some false
  else
    let architecture ← pkg.architecture
    let oldArchitecture ← old.architecture
    some (architecture == oldArchitecture)

/-- The search of `pkg_vec_insert_merge`: the part of the vector before the first duplicate, the
duplicate and the part behind it, or `none` inside when there is no duplicate. -/
def findDuplicate (db : Database) (pkg : Pkg) :
    List PkgId → Option (Option (List PkgId × PkgId × List PkgId))
  | [] => some none
  | j :: vec => do
    if ← isDuplicate pkg (db.pkg j) then some (some ([], j, vec))
    else
      let found ← findDuplicate db pkg vec
      some (found.map fun (before, k, after) => (j :: before, k, after))

/-- `pkg_vec_insert_merge` on the `pkgs` vector of `abPkg`. -/
def pkgVecInsertMerge (db : Database) (abPkg : AbstractPkgId) (i : PkgId) (setStatus : Bool) :
    Option Database := do
  let ab := db.abstractPkg abPkg
  let vec := ab.pkgs.getD []
  match ← findDuplicate db (db.pkg i) vec with
  | none => some (db.setAbstractPkg abPkg { ab with pkgs := some (vec ++ [i]) })
  | some (before, j, after) =>
    let pkg := if setStatus then (pkgMerge (db.pkg i) (db.pkg j)).1 else db.pkg i
    -- the duplicate is deinitialised and freed, and `i` takes its place
    some (((db.setPkg i pkg).setPkg j pkgNew).setAbstractPkg abPkg
      { ab with pkgs := some (before ++ i :: after) })

/-- The first lines of `hash_insert_pkg`: allocate the vector of the abstract package and note that
the package is installed or unpacked. -/
def Database.openVector (db : Database) (pkg : Pkg) : Database :=
  let ab := db.abstractPkg pkg.name
  db.setAbstractPkg pkg.name { ab with
    pkgs := some (ab.pkgs.getD [])
    stateStatus := if pkg.isInstalled then pkg.stateStatus else ab.stateStatus }

/-- `hash_insert_pkg` -/
def hashInsertPkg (db : Database) (i : PkgId) (setStatus : Bool) : Option Database := do
  let pkg := db.pkg i
  let abPkg := pkg.name
  let db := db.openVector pkg
  let pkg ← buildDepends pkg
  let (db, pkg) := buildProvides db abPkg pkg
  let pkg ← buildConflicts pkg
  let (db, pkg) := buildReplaces db abPkg pkg
  let db := buildDependedUponBy db pkg abPkg
  let db ← pkgVecInsertMerge (db.setPkg i pkg) abPkg i setStatus
  some (db.setPkg i ((db.pkg i).withParent abPkg))

/-! ## The `provides` array -/

/-- The fields the database is ordered by and the `provides` array, as far as merging may touch
them. -/
def Pkg.providesKey (p : Pkg) : CStr × Nat × Option (List AbstractPkgId) :=
  (p.name, p.providesCount, p.provides)

theorem pkgMergeHeader_providesKey (m : Pkg × Pkg) :
    (pkgMergeHeader m).1.providesKey = m.1.providesKey ∧
      (pkgMergeHeader m).2.providesKey = m.2.providesKey := ⟨rfl, rfl⟩

theorem pkgMergeDepends_providesKey (m : Pkg × Pkg) :
    (pkgMergeDepends m).1.providesKey = m.1.providesKey ∧
      (pkgMergeDepends m).2.providesKey = m.2.providesKey := by
  simp only [pkgMergeDepends]
  split <;> exact ⟨rfl, rfl⟩

theorem pkgMergeProvides_providesKey {m : Pkg × Pkg} (h : m.1.provides.isSome) :
    (pkgMergeProvides m).1.providesKey = (m.1.name,
      if m.1.providesCount ≤ 1 then m.2.providesCount else m.1.providesCount, m.1.provides) := by
  have hnone : ¬ m.1.provides.isNone = true := by simp [Option.isSome_iff_ne_none.mp h]
  simp only [pkgMergeProvides]
  by_cases hc : m.1.providesCount ≤ 1
  · rw [if_pos hc, if_neg hnone, if_pos hc]
    rfl
  · rw [if_neg hc, if_neg hc]
    rfl

theorem pkgMergeConflicts_providesKey (m : Pkg × Pkg) :
    (pkgMergeConflicts m).1.providesKey = m.1.providesKey := by
  simp only [pkgMergeConflicts]
  split <;> rfl

theorem pkgMergeReplaces_providesKey (m : Pkg × Pkg) :
    (pkgMergeReplaces m).1.providesKey = m.1.providesKey := by
  simp only [pkgMergeReplaces]
  split <;> rfl

theorem pkgMergeFields_providesKey (m : Pkg × Pkg) :
    (pkgMergeFields m).1.providesKey = m.1.providesKey := rfl

theorem pkgMergeConffiles_providesKey (m : Pkg × Pkg) :
    (pkgMergeConffiles m).1.providesKey = m.1.providesKey := by
  simp only [pkgMergeConffiles]
  split <;> rfl

theorem pkgMergeInstalledFiles_providesKey (m : Pkg × Pkg) :
    (pkgMergeInstalledFiles m).1.providesKey = m.1.providesKey := by
  simp only [pkgMergeInstalledFiles]
  split <;> rfl

/-- What a merge does to the `provides` array: a count up to `1` gives way to the count of `newpkg`,
the array of `oldpkg` stays. -/
theorem pkgMerge_providesKey {oldpkg : Pkg} (newpkg : Pkg) (h : oldpkg.provides.isSome) :
    (pkgMerge oldpkg newpkg).1.providesKey = (oldpkg.name,
      if oldpkg.providesCount ≤ 1 then newpkg.providesCount else oldpkg.providesCount,
      oldpkg.provides) := by
  have hkeys : (pkgMergeDepends (pkgMergeHeader (oldpkg, newpkg))).1.providesKey
        = oldpkg.providesKey ∧
      (pkgMergeDepends (pkgMergeHeader (oldpkg, newpkg))).2.providesKey = newpkg.providesKey := by
    have hheader := pkgMergeHeader_providesKey (oldpkg, newpkg)
    have hdepends := pkgMergeDepends_providesKey (pkgMergeHeader (oldpkg, newpkg))
    exact ⟨hdepends.1.trans hheader.1, hdepends.2.trans hheader.2⟩
  simp only [Pkg.providesKey, Prod.mk.injEq] at hkeys
  obtain ⟨⟨hname, hcount, hprovides⟩, -, hcount', -⟩ := hkeys
  rw [pkgMerge, pkgMergeInstalledFiles_providesKey, pkgMergeConffiles_providesKey,
    pkgMergeFields_providesKey, pkgMergeReplaces_providesKey, pkgMergeConflicts_providesKey,
    pkgMergeProvides_providesKey (by rw [hprovides]; exact h), hname, hcount, hcount', hprovides]

/-! ## What an insertion does -/

/-- The packages filed under a name. -/
def Database.filed (db : Database) (a : AbstractPkgId) : List PkgId :=
  (db.abstractPkg a).pkgs.getD []

/-- The packages and where they are filed are the same in both databases. -/
structure SameFiling (db db' : Database) : Prop where
  pkg : db'.pkg = db.pkg
  filed : ∀ a, db'.filed a = db.filed a

theorem SameFiling.refl (db : Database) : SameFiling db db := ⟨rfl, fun _ => rfl⟩

theorem SameFiling.trans {db db' db'' : Database} (h : SameFiling db db')
    (h' : SameFiling db' db'') : SameFiling db db'' :=
  ⟨h'.pkg.trans h.pkg, fun a => (h'.filed a).trans (h.filed a)⟩

/-- Writing an abstract package whose `pkgs` hold the same packages keeps the filing. -/
theorem SameFiling.setAbstractPkg {db : Database} {a : AbstractPkgId} {ab : AbstractPkg}
    (h : ab.pkgs.getD [] = db.filed a) : SameFiling db (db.setAbstractPkg a ab) where
  pkg := rfl
  filed b := by
    by_cases hb : b = a
    · rw [hb, Database.filed, Database.setAbstractPkg_self, h]
    · rw [Database.filed, Database.setAbstractPkg_of_ne db ab hb, Database.filed]

theorem SameFiling.foldl {α : Type*} {f : Database → α → Database}
    (hf : ∀ db x, SameFiling db (f db x)) (xs : List α) (db : Database) :
    SameFiling db (xs.foldl f db) := by
  induction xs generalizing db with
  | nil => exact SameFiling.refl db
  | cons x xs ih => exact (hf db x).trans (ih (f db x))

theorem insertProvidedBy_sameFiling (db : Database) (a abPkg : AbstractPkgId) :
    SameFiling db (db.insertProvidedBy a abPkg) :=
  SameFiling.setAbstractPkg rfl

theorem insertReplacedBy_sameFiling (db : Database) (pkg : Pkg) (abPkg old : AbstractPkgId) :
    SameFiling db (db.insertReplacedBy pkg abPkg old) :=
  SameFiling.setAbstractPkg rfl

theorem insertDependedUponBy_sameFiling (db : Database) (a abPkg : AbstractPkgId) :
    SameFiling db (db.insertDependedUponBy a abPkg) :=
  SameFiling.setAbstractPkg rfl

theorem buildProvides_sameFiling (db : Database) (abPkg : AbstractPkgId) (pkg : Pkg) :
    SameFiling db (buildProvides db abPkg pkg).1 :=
  SameFiling.foldl (fun db a => insertProvidedBy_sameFiling db a abPkg) _ db

theorem buildReplaces_sameFiling (db : Database) (abPkg : AbstractPkgId) (pkg : Pkg) :
    SameFiling db (buildReplaces db abPkg pkg).1 := by
  rw [buildReplaces]
  split
  · exact SameFiling.refl db
  · exact SameFiling.foldl (fun db old => insertReplacedBy_sameFiling db pkg abPkg old) _ db

theorem buildDependedUponBy_sameFiling (db : Database) (pkg : Pkg) (abPkg : AbstractPkgId) :
    SameFiling db (buildDependedUponBy db pkg abPkg) :=
  SameFiling.foldl (fun db (d : Depend) => insertDependedUponBy_sameFiling db d.pkg abPkg) _ db

theorem openVector_sameFiling (db : Database) (pkg : Pkg) : SameFiling db (db.openVector pkg) :=
  SameFiling.setAbstractPkg rfl

theorem buildDepends_eq {pkg pkg' : Pkg} (h : buildDepends pkg = some pkg') :
    ∃ depends, pkg' = pkg.withDepends depends := by
  rw [buildDepends] at h
  split at h
  · exact ⟨pkg.depends, (Option.some.inj h).symm⟩
  · simp only [Option.bind_eq_bind, Option.bind_eq_some_iff, Option.some.injEq] at h
    obtain ⟨_, _, _, _, _, _, _, _, h⟩ := h
    exact ⟨_, h.symm⟩

theorem buildConflicts_eq {pkg pkg' : Pkg} (h : buildConflicts pkg = some pkg') :
    ∃ conflicts, pkg' = pkg.withConflicts conflicts := by
  rw [buildConflicts] at h
  split at h
  · exact ⟨pkg.conflicts, (Option.some.inj h).symm⟩
  · simp only [Option.bind_eq_bind, Option.bind_eq_some_iff, Option.some.injEq] at h
    obtain ⟨conflicts, _, h⟩ := h
    exact ⟨conflicts, h.symm⟩

theorem buildReplaces_eq (db : Database) (abPkg : AbstractPkgId) (pkg : Pkg) :
    ∃ replaces, (buildReplaces db abPkg pkg).2 = pkg.withReplaces replaces := by
  rw [buildReplaces]
  split
  · exact ⟨pkg.replaces, rfl⟩
  · exact ⟨_, rfl⟩

/-- The record of a package once its fields are resolved. -/
def Pkg.resolved (pkg : Pkg) (depends conflicts : List CompoundDepend)
    (replaces : List AbstractPkgId) : Pkg :=
  (((pkg.withDepends depends).withProvides (pkg.name :: pkg.providesStr)).withConflicts
    conflicts).withReplaces replaces

/-- **The shape of `hash_insert_pkg`**: resolve the fields, which leaves the filing alone, then
insert and merge, then set the parent. -/
theorem hashInsertPkg_eq {db db' : Database} {i : PkgId} {setStatus : Bool}
    (h : hashInsertPkg db i setStatus = some db') :
    ∃ depends conflicts replaces db₁ db₂, SameFiling db db₁ ∧
      pkgVecInsertMerge (db₁.setPkg i ((db.pkg i).resolved depends conflicts replaces))
        (db.pkg i).name i setStatus = some db₂ ∧
      db' = db₂.setPkg i ((db₂.pkg i).withParent (db.pkg i).name) := by
  simp only [hashInsertPkg, Option.bind_eq_bind, Option.bind_eq_some_iff, Option.some.injEq] at h
  obtain ⟨pkg₁, h₁, pkg₂, h₂, db₂, hmerge, rfl⟩ := h
  obtain ⟨depends, rfl⟩ := buildDepends_eq h₁
  obtain ⟨conflicts, rfl⟩ := buildConflicts_eq h₂
  have hopen := openVector_sameFiling db (db.pkg i)
  generalize db.openVector (db.pkg i) = dbo at hopen hmerge
  have hprov := buildProvides_sameFiling dbo (db.pkg i).name ((db.pkg i).withDepends depends)
  have hpkg : (buildProvides dbo (db.pkg i).name ((db.pkg i).withDepends depends)).2
    = ((db.pkg i).withDepends depends).withProvides ((db.pkg i).name :: (db.pkg i).providesStr) :=
    rfl
  rw [hpkg] at hmerge
  generalize (buildProvides dbo (db.pkg i).name ((db.pkg i).withDepends depends)).1 = dbp
    at hprov hmerge
  generalize hq : (((db.pkg i).withDepends depends).withProvides
    ((db.pkg i).name :: (db.pkg i).providesStr)).withConflicts conflicts = q at hmerge
  have hrepl := buildReplaces_sameFiling dbp (db.pkg i).name q
  obtain ⟨replaces, hreplaces⟩ := buildReplaces_eq dbp (db.pkg i).name q
  have hdep := buildDependedUponBy_sameFiling (buildReplaces dbp (db.pkg i).name q).1
    (buildReplaces dbp (db.pkg i).name q).2 (db.pkg i).name
  rw [hreplaces] at hmerge hdep
  subst hq
  exact ⟨depends, conflicts, replaces, _, db₂, ((hopen.trans hprov).trans hrepl).trans hdep,
    hmerge, rfl⟩

/-- What the search for a duplicate reads of the inserted record. -/
def Pkg.duplicateKey (p : Pkg) :
    CStr × Nat × Option CStr × Option CStr × Option CStr × StateWant × StateFlag :=
  (p.name, p.epoch, p.version, p.revision, p.architecture, p.stateWant, p.stateFlag)

theorem isDuplicate_congr {p q : Pkg} (h : p.duplicateKey = q.duplicateKey) (old : Pkg) :
    isDuplicate p old = isDuplicate q old := by
  simp only [Pkg.duplicateKey, Prod.mk.injEq] at h
  obtain ⟨hname, hepoch, hversion, hrevision, harch, hwant, hflag⟩ := h
  have hcmp : pkgCompareVersions p old = pkgCompareVersions q old := by
    simp only [pkgCompareVersions, hepoch, hversion, hrevision]
  simp only [isDuplicate, hname, harch, hwant, hflag, hcmp]

/-- The search for a duplicate reads the key of the inserted record and the records in the
vector. -/
theorem findDuplicate_congr {db db' : Database} {p q : Pkg} (h : p.duplicateKey = q.duplicateKey)
    {vec : List PkgId} (hvec : ∀ j ∈ vec, db.pkg j = db'.pkg j) :
    findDuplicate db p vec = findDuplicate db' q vec := by
  induction vec with
  | nil => rfl
  | cons j vec ih =>
      rw [findDuplicate, findDuplicate, isDuplicate_congr h, hvec j List.mem_cons_self,
        ih fun k hk => hvec k (List.mem_cons_of_mem _ hk)]

/-- A duplicate is one of the packages of the vector. -/
theorem findDuplicate_eq_append {db : Database} {p : Pkg} {vec before after : List PkgId}
    {j : PkgId} (h : findDuplicate db p vec = some (some (before, j, after))) :
    vec = before ++ j :: after := by
  induction vec generalizing before with
  | nil => simp [findDuplicate] at h
  | cons k vec ih =>
      simp only [findDuplicate, Option.bind_eq_bind, Option.bind_eq_some_iff] at h
      obtain ⟨dup, -, h⟩ := h
      split at h
      · simp only [Option.some.injEq, Prod.mk.injEq] at h
        obtain ⟨rfl, rfl, rfl⟩ := h
        rfl
      · simp only [Option.bind_eq_some_iff, Option.some.injEq, Option.map_eq_some_iff,
          Prod.mk.injEq, Prod.exists] at h
        obtain ⟨found, hfound, b, j', a, rfl, rfl, rfl, rfl⟩ := h
        rw [ih hfound]
        rfl

theorem filed_setAbstractPkg_self (db : Database) (a : AbstractPkgId) (ab : AbstractPkg) :
    (db.setAbstractPkg a ab).filed a = ab.pkgs.getD [] := by
  rw [Database.filed, Database.setAbstractPkg_self]

theorem filed_setAbstractPkg_of_ne (db : Database) {a b : AbstractPkgId} (ab : AbstractPkg)
    (h : b ≠ a) : (db.setAbstractPkg a ab).filed b = db.filed b := by
  rw [Database.filed, Database.setAbstractPkg_of_ne db ab h, Database.filed]

/-- The two outcomes of `pkg_vec_insert_merge`. -/
theorem pkgVecInsertMerge_cases {db db' : Database} {a : AbstractPkgId} {i : PkgId}
    {setStatus : Bool} (h : pkgVecInsertMerge db a i setStatus = some db') :
    (∀ b, b ≠ a → db'.filed b = db.filed b) ∧
    ((findDuplicate db (db.pkg i) (db.filed a) = some none ∧
        db'.filed a = db.filed a ++ [i] ∧ db'.pkg = db.pkg) ∨
      ∃ before j after,
        findDuplicate db (db.pkg i) (db.filed a) = some (some (before, j, after)) ∧
        db'.filed a = before ++ i :: after ∧
        db'.pkg = Function.update (Function.update db.pkg i
          (if setStatus then (pkgMerge (db.pkg i) (db.pkg j)).1 else db.pkg i)) j pkgNew) := by
  simp only [pkgVecInsertMerge, Option.bind_eq_bind, Option.bind_eq_some_iff] at h
  obtain ⟨found, hdup, h⟩ := h
  cases found with
  | none =>
      simp only [Option.some.injEq] at h
      rw [← h]
      exact ⟨fun b hb => filed_setAbstractPkg_of_ne db _ hb, Or.inl
        ⟨hdup, filed_setAbstractPkg_self db a _, rfl⟩⟩
  | some found =>
      obtain ⟨before, j, after⟩ := found
      simp only [Option.some.injEq] at h
      rw [← h]
      exact ⟨fun b hb => filed_setAbstractPkg_of_ne _ _ hb, Or.inr
        ⟨before, j, after, hdup, filed_setAbstractPkg_self _ a _, rfl⟩⟩

theorem resolved_duplicateKey (p : Pkg) (depends conflicts : List CompoundDepend)
    (replaces : List AbstractPkgId) :
    (p.resolved depends conflicts replaces).duplicateKey = p.duplicateKey := rfl

theorem resolved_providesKey (p : Pkg) (depends conflicts : List CompoundDepend)
    (replaces : List AbstractPkgId) :
    (p.resolved depends conflicts replaces).providesKey
      = (p.name, p.providesCount + 1, some (p.name :: p.providesStr)) := rfl

/-- The two outcomes of an insertion: the package is appended to the vector of its name, or it
takes the place of a duplicate, whose record is freed. -/
inductive Inserted (db db' : Database) (i : PkgId) (setStatus : Bool) (built : Pkg) : Prop
  | appended (hdup : findDuplicate db (db.pkg i) (db.filed (db.pkg i).name) = some none)
      (hfiled : db'.filed (db.pkg i).name = db.filed (db.pkg i).name ++ [i])
      (hpkg : db'.pkg = Function.update db.pkg i (built.withParent (db.pkg i).name))
  | replaced (before after : List PkgId) (j : PkgId)
      (hdup : findDuplicate db (db.pkg i) (db.filed (db.pkg i).name)
        = some (some (before, j, after)))
      (hfiled : db'.filed (db.pkg i).name = before ++ i :: after)
      (hpkg : db'.pkg = Function.update (Function.update db.pkg j pkgNew) i
        ((if setStatus then (pkgMerge built (db.pkg j)).1 else built).withParent (db.pkg i).name))

/-- **What `hash_insert_pkg` does** with a package that is not filed yet: nothing to the vectors of
other names, and one of two things to its own. -/
theorem hashInsertPkg_cases {db db' : Database} {i : PkgId} {setStatus : Bool}
    (h : hashInsertPkg db i setStatus = some db') (hi : i ∉ db.filed (db.pkg i).name) :
    (∀ a, a ≠ (db.pkg i).name → db'.filed a = db.filed a) ∧
    ∃ depends conflicts replaces,
      Inserted db db' i setStatus ((db.pkg i).resolved depends conflicts replaces) := by
  obtain ⟨depends, conflicts, replaces, db₁, db₂, hsame, hmerge, hdb'⟩ := hashInsertPkg_eq h
  have hkey := resolved_duplicateKey (db.pkg i) depends conflicts replaces
  generalize hbuilt : (db.pkg i).resolved depends conflicts replaces = built at hmerge hkey
  have hfiled : ∀ b, (db₁.setPkg i built).filed b = db.filed b := hsame.filed
  have hpkg : (db₁.setPkg i built).pkg = Function.update db.pkg i built := by
    rw [Database.setPkg, hsame.pkg]
  generalize db₁.setPkg i built = dbv at hmerge hfiled hpkg
  have hself : dbv.pkg i = built := by rw [hpkg, Function.update_self]
  have hother : ∀ j ∈ db.filed (db.pkg i).name, dbv.pkg j = db.pkg j := by
    intro j hj
    have hji : j ≠ i := ne_of_mem_of_not_mem hj hi
    rw [hpkg, Function.update_of_ne hji]
  have hfind : findDuplicate dbv (dbv.pkg i) (dbv.filed (db.pkg i).name)
      = findDuplicate db (db.pkg i) (db.filed (db.pkg i).name) := by
    rw [hfiled, hself]
    exact findDuplicate_congr hkey hother
  have hparent : ∀ b, db'.filed b = db₂.filed b := by
    intro b
    rw [hdb']
    rfl
  obtain ⟨hne, hcases⟩ := pkgVecInsertMerge_cases hmerge
  rw [hfind, hfiled, hself] at hcases
  refine ⟨fun b hb => by rw [hparent, hne b hb, hfiled], depends, conflicts, replaces, ?_⟩
  rw [hbuilt]
  rcases hcases with ⟨hdup, hvec, hrec⟩ | ⟨before, j, after, hdup, hvec, hrec⟩
  · refine .appended hdup (by rw [hparent, hvec]) ?_
    rw [hdb', Database.setPkg, hrec, hself, hpkg, Function.update_idem]
  · have hj : j ∈ db.filed (db.pkg i).name := by
      rw [findDuplicate_eq_append hdup]
      exact List.mem_append_right _ List.mem_cons_self
    have hji : j ≠ i := ne_of_mem_of_not_mem hj hi
    refine .replaced before after j hdup (by rw [hparent, hvec]) ?_
    rw [hdb', Database.setPkg, hrec, Function.update_of_ne hji.symm, Function.update_self,
      Function.update_comm hji, Function.update_idem, hother j hj, hpkg, Function.update_idem,
      Function.update_comm hji.symm]

/-! ## The database over a run of insertions -/

/-- A record as the parser leaves it: the counts are the lengths of the lists read, and nothing is
resolved yet. -/
structure Pkg.IsParsed (p : Pkg) : Prop where
  dependsCount : p.dependsCount = p.dependsStr.length
  preDependsCount : p.preDependsCount = p.preDependsStr.length
  recommendsCount : p.recommendsCount = p.recommendsStr.length
  suggestsCount : p.suggestsCount = p.suggestsStr.length
  conflictsCount : p.conflictsCount = p.conflictsStr.length
  replacesCount : p.replacesCount = p.replacesStr.length
  providesCount : p.providesCount = p.providesStr.length
  unresolved : p.depends = [] ∧ p.conflicts = [] ∧ p.replaces = [] ∧ p.provides = none ∧
    p.parent = none

/-- A parsed package record. -/
abbrev ParsedPkg := { p : Pkg // p.IsParsed }

/-- A call of `hash_insert_pkg` on a record that `pkg_new` allocated at `id`. -/
structure Insertion where
  id : PkgId
  pkg : ParsedPkg
  setStatus : Bool

/-- The database when the program starts. -/
def emptyDatabase : Database := { pkg := fun _ => pkgNew, abstractPkg := fun _ => {} }

/-- One insertion: `id` is no package that is already filed, and the call returns. -/
def InsertStep (db : Database) (ins : Insertion) (db' : Database) : Prop :=
  (∀ a, ins.id ∉ db.filed a) ∧
    hashInsertPkg (db.setPkg ins.id ins.pkg) ins.id ins.setStatus = some db'

/-- Every package is filed once, under its own parent. -/
structure WellPlaced (db : Database) : Prop where
  nodup : ∀ a, (db.filed a).Nodup
  parent : ∀ a, ∀ i ∈ db.filed a, (db.pkg i).parent = some a

/-- The `provides` array of a package starts with the package's own parent and is as long as
`provides_count` says. -/
def Pkg.ProvidesOk (p : Pkg) : Prop :=
  ∃ a rest, p.parent = some a ∧ p.provides = some (a :: rest) ∧
    p.providesCount = (a :: rest).length

/-- Every package that is filed has a sound `provides` array. -/
def ProvidesOk (db : Database) : Prop := ∀ a, ∀ i ∈ db.filed a, (db.pkg i).ProvidesOk

/-- An insertion with `set_status` that finds a duplicate either has a `Provides` field of its own,
or the duplicate provides nothing but itself. -/
def MergeGuard (db : Database) (ins : Insertion) : Prop :=
  ins.setStatus = true → ins.pkg.1.providesStr = [] → ∀ before j after,
    findDuplicate db ins.pkg (db.filed ins.pkg.1.name) = some (some (before, j, after)) →
      (db.pkg j).providesCount ≤ 1

/-- The outcome of an insertion step, over the database before the record was written. -/
theorem insertStep_cases {db db' : Database} {ins : Insertion} (h : InsertStep db ins db') :
    (∀ a, a ≠ ins.pkg.1.name → db'.filed a = db.filed a) ∧
    ∃ depends conflicts replaces,
      let built := ins.pkg.1.resolved depends conflicts replaces
      (findDuplicate db ins.pkg (db.filed ins.pkg.1.name) = some none ∧
        db'.filed ins.pkg.1.name = db.filed ins.pkg.1.name ++ [ins.id] ∧
        db'.pkg = Function.update db.pkg ins.id (built.withParent ins.pkg.1.name)) ∨
      ∃ before j after,
        findDuplicate db ins.pkg (db.filed ins.pkg.1.name) = some (some (before, j, after)) ∧
        db'.filed ins.pkg.1.name = before ++ ins.id :: after ∧
        db'.pkg = Function.update (Function.update db.pkg j pkgNew) ins.id
          ((if ins.setStatus then (pkgMerge built (db.pkg j)).1 else built).withParent
            ins.pkg.1.name) := by
  obtain ⟨hfresh, hins⟩ := h
  have hself : (db.setPkg ins.id ins.pkg).pkg ins.id = ins.pkg := Database.setPkg_pkg_self _ _ _
  have hfiled : ∀ a, (db.setPkg ins.id ins.pkg).filed a = db.filed a := fun _ => rfl
  have hother : ∀ a, ∀ j ∈ db.filed a, (db.setPkg ins.id ins.pkg).pkg j = db.pkg j :=
    fun a j hj => Database.setPkg_pkg_of_ne db _ (ne_of_mem_of_not_mem hj (hfresh a))
  obtain ⟨hne, depends, conflicts, replaces, hcase⟩ :=
    hashInsertPkg_cases hins (by rw [hfiled]; exact hfresh _)
  rw [hself] at hne hcase
  refine ⟨hne, depends, conflicts, replaces, ?_⟩
  cases hcase with
  | appended hdup hvec hpkg =>
      rw [hself, hfiled, findDuplicate_congr rfl (hother _)] at hdup
      rw [hself, hfiled] at hvec
      rw [hself, Database.setPkg, Function.update_idem] at hpkg
      exact Or.inl ⟨hdup, hvec, hpkg⟩
  | replaced before after j hdup hvec hpkg =>
      rw [hself, hfiled, findDuplicate_congr rfl (hother _)] at hdup
      have hj : j ∈ db.filed ins.pkg.1.name := by
        rw [findDuplicate_eq_append hdup]
        exact List.mem_append_right _ List.mem_cons_self
      have hji : j ≠ ins.id := ne_of_mem_of_not_mem hj (hfresh _)
      rw [hself] at hvec
      rw [hself, hother _ j hj, Database.setPkg, Function.update_comm hji, Function.update_idem,
        Function.update_comm hji.symm] at hpkg
      exact Or.inr ⟨before, j, after, hdup, hvec, hpkg⟩

/-- After an insertion the vectors hold the inserted package, under its name, and packages that were
there before, with their records unchanged. -/
theorem insertStep_filed {db db' : Database} {ins : Insertion} (hdb : WellPlaced db)
    (h : InsertStep db ins db') {a : AbstractPkgId} {k : PkgId} (hk : k ∈ db'.filed a) :
    (k = ins.id ∧ a = ins.pkg.1.name) ∨ (k ∈ db.filed a ∧ db'.pkg k = db.pkg k) := by
  have hfresh := h.1
  obtain ⟨hne, depends, conflicts, replaces, hcase⟩ := insertStep_cases h
  rcases hcase with ⟨-, hvec, hpkg⟩ | ⟨before, j, after, hdup, hvec, hpkg⟩
  · have hkeep : ∀ {b}, k ∈ db.filed b → db'.pkg k = db.pkg k := by
      intro b hb
      rw [hpkg, Function.update_of_ne (ne_of_mem_of_not_mem hb (hfresh b))]
    by_cases ha : a = ins.pkg.1.name
    · rw [ha, hvec, List.mem_append, List.mem_singleton] at hk
      rcases hk with hk | hk
      · exact Or.inr ⟨ha ▸ hk, hkeep hk⟩
      · exact Or.inl ⟨hk, ha⟩
    · rw [hne a ha] at hk
      exact Or.inr ⟨hk, hkeep hk⟩
  · have hold := findDuplicate_eq_append hdup
    have hj : j ∈ db.filed ins.pkg.1.name := by
      rw [hold]
      exact List.mem_append_right _ List.mem_cons_self
    have hnodup := hdb.nodup ins.pkg.1.name
    rw [hold, List.nodup_middle, List.nodup_cons] at hnodup
    have hkeep : ∀ {b}, k ∈ db.filed b → k ≠ j → db'.pkg k = db.pkg k := by
      intro b hb hkj
      rw [hpkg, Function.update_of_ne (ne_of_mem_of_not_mem hb (hfresh b)),
        Function.update_of_ne hkj]
    by_cases ha : a = ins.pkg.1.name
    · rw [ha, hvec, List.mem_append, List.mem_cons] at hk
      by_cases hki : k = ins.id
      · exact Or.inl ⟨hki, ha⟩
      · have hk' : k ∈ before ++ after := by
          rw [List.mem_append]
          tauto
        have hkold : k ∈ db.filed ins.pkg.1.name := by
          rw [hold]
          rw [List.mem_append] at hk' ⊢
          exact hk'.imp_right (List.mem_cons_of_mem _)
        exact Or.inr ⟨ha ▸ hkold, hkeep hkold (ne_of_mem_of_not_mem hk' hnodup.1)⟩
    · rw [hne a ha] at hk
      -- `j` is filed under another name, so `k` is not the freed package
      have hkj : k ≠ j := by
        rintro rfl
        have hpa := hdb.parent a k hk
        rw [hdb.parent _ k hj] at hpa
        exact ha (Option.some.inj hpa).symm
      exact Or.inr ⟨hk, hkeep hk hkj⟩

/-- The inserted package's own record after an insertion: the resolved record, or its merge with the
duplicate it replaces. -/
theorem insertStep_pkg {db db' : Database} {ins : Insertion} (h : InsertStep db ins db') :
    ∃ depends conflicts replaces,
      let built := ins.pkg.1.resolved depends conflicts replaces
      (db'.pkg ins.id = built.withParent ins.pkg.1.name ∧ (ins.setStatus = true →
        findDuplicate db ins.pkg (db.filed ins.pkg.1.name) = some none)) ∨
      (ins.setStatus = true ∧ ∃ before j after,
        findDuplicate db ins.pkg (db.filed ins.pkg.1.name) = some (some (before, j, after)) ∧
        db'.pkg ins.id = (pkgMerge built (db.pkg j)).1.withParent ins.pkg.1.name) := by
  obtain ⟨-, depends, conflicts, replaces, hcase⟩ := insertStep_cases h
  refine ⟨depends, conflicts, replaces, ?_⟩
  rcases hcase with ⟨hdup, -, hpkg⟩ | ⟨before, j, after, hdup, -, hpkg⟩
  · exact Or.inl ⟨by rw [hpkg, Function.update_self], fun _ => hdup⟩
  · rw [hpkg, Function.update_self]
    cases hst : ins.setStatus with
    | false => exact Or.inl ⟨rfl, fun h => absurd h (by decide)⟩
    | true => exact Or.inr ⟨rfl, before, j, after, hdup, rfl⟩

/-- The inserted package is filed under its name. -/
theorem insertStep_mem {db db' : Database} {ins : Insertion} (h : InsertStep db ins db') :
    ins.id ∈ db'.filed ins.pkg.1.name := by
  obtain ⟨-, _, _, _, hcase⟩ := insertStep_cases h
  rcases hcase with ⟨-, hvec, -⟩ | ⟨before, j, after, -, hvec, -⟩
  · rw [hvec]
    exact List.mem_append_right _ (List.mem_singleton.mpr rfl)
  · rw [hvec]
    exact List.mem_append_right _ List.mem_cons_self

/-- **The filing stays in order**: whatever is merged or replaced, every package is filed once,
under its own parent. -/
theorem wellPlaced_step {db db' : Database} {ins : Insertion} (hdb : WellPlaced db)
    (h : InsertStep db ins db') : WellPlaced db' where
  nodup a := by
    have hfresh := h.1 ins.pkg.1.name
    have hnodup := hdb.nodup ins.pkg.1.name
    obtain ⟨hne, depends, conflicts, replaces, hcase⟩ := insertStep_cases h
    by_cases ha : a = ins.pkg.1.name
    · rw [ha]
      rcases hcase with ⟨-, hvec, -⟩ | ⟨before, j, after, hdup, hvec, -⟩
      · rw [hvec, ← List.concat_eq_append, List.nodup_concat]
        exact ⟨hfresh, hnodup⟩
      · rw [findDuplicate_eq_append hdup] at hfresh hnodup
        rw [List.nodup_middle, List.nodup_cons] at hnodup
        rw [hvec, List.nodup_middle, List.nodup_cons]
        simp only [List.mem_append, List.mem_cons, not_or] at hfresh ⊢
        exact ⟨⟨hfresh.1, hfresh.2.2⟩, hnodup.2⟩
    · rw [hne a ha]
      exact hdb.nodup a
  parent a k hk := by
    rcases insertStep_filed hdb h hk with ⟨rfl, rfl⟩ | ⟨hold, hsame⟩
    · obtain ⟨_, _, _, hpkg⟩ := insertStep_pkg h
      rcases hpkg with ⟨hpkg, -⟩ | ⟨-, _, _, _, -, hpkg⟩ <;>
      · rw [hpkg]
        rfl
    · rw [hsame]
      exact hdb.parent a k hold

/-- What matters for the `provides` array is the key and the parent. -/
theorem providesOk_iff {p : Pkg} {a n : _} {arr : Option (List AbstractPkgId)}
    (hkey : p.providesKey = (a, n, arr)) (b : AbstractPkgId) :
    (p.withParent b).ProvidesOk ↔ ∃ rest, arr = some (b :: rest) ∧ n = rest.length + 1 := by
  simp only [Pkg.providesKey, Prod.mk.injEq] at hkey
  obtain ⟨-, rfl, rfl⟩ := hkey
  constructor
  · rintro ⟨c, rest, hc, hprovides, hcount⟩
    obtain rfl : b = c := Option.some.inj hc
    exact ⟨rest, hprovides, hcount⟩
  · rintro ⟨rest, hprovides, hcount⟩
    exact ⟨b, rest, rfl, hprovides, hcount⟩

/-- **One insertion keeps the `provides` arrays sound exactly when it meets the guard.** -/
theorem providesOk_step_iff {db db' : Database} {ins : Insertion} (hdb : WellPlaced db)
    (hok : ProvidesOk db) (h : InsertStep db ins db') :
    ProvidesOk db' ↔ MergeGuard db ins := by
  have hcount := ins.pkg.2.providesCount
  -- only the inserted package can be unsound
  have hself : ProvidesOk db' ↔ (db'.pkg ins.id).ProvidesOk := by
    refine ⟨fun hall => hall _ _ (insertStep_mem h), fun hins a k hk => ?_⟩
    rcases insertStep_filed hdb h hk with ⟨rfl, -⟩ | ⟨hold, hsame⟩
    · exact hins
    · rw [hsame]
      exact hok a k hold
  rw [hself]
  obtain ⟨depends, conflicts, replaces, hpkg⟩ := insertStep_pkg h
  have hbuilt := resolved_providesKey ins.pkg.1 depends conflicts replaces
  generalize ins.pkg.1.resolved depends conflicts replaces = built at hpkg hbuilt
  rcases hpkg with ⟨hpkg, hnodup⟩ | ⟨hst, before, j, after, hdup, hpkg⟩
  · rw [hpkg, providesOk_iff hbuilt]
    refine iff_of_true ⟨_, rfl, by rw [hcount]⟩ fun hst _ before j after hdup => ?_
    rw [hnodup hst] at hdup
    exact absurd hdup (by simp)
  · have hj : j ∈ db.filed ins.pkg.1.name := by
      rw [findDuplicate_eq_append hdup]
      exact List.mem_append_right _ List.mem_cons_self
    obtain ⟨b, rest, -, -, hjcount⟩ := hok _ j hj
    have hguard : MergeGuard db ins ↔
        (ins.pkg.1.providesStr = [] → (db.pkg j).providesCount ≤ 1) := by
      refine ⟨fun hg hnil => hg hst hnil before j after hdup, fun hg _ hnil b' j' a' hdup' => ?_⟩
      rw [hdup] at hdup'
      simp only [Option.some.injEq, Prod.mk.injEq] at hdup'
      rw [← hdup'.2.1]
      exact hg hnil
    simp only [Pkg.providesKey, Prod.mk.injEq] at hbuilt
    obtain ⟨hname, hbcount, hprovides⟩ := hbuilt
    rw [hguard, hpkg, providesOk_iff (pkgMerge_providesKey (db.pkg j) (by rw [hprovides]; rfl)),
      hprovides, hbcount, hcount]
    simp only [Option.some.injEq, List.cons.injEq, true_and, exists_eq_left']
    cases hstr : ins.pkg.1.providesStr with
    | nil =>
        rw [List.length_cons] at hjcount
        simp only [List.length_nil, Nat.zero_add, le_refl, if_true, forall_const]
        omega
    | cons x xs => simp

theorem wellPlaced_empty : WellPlaced emptyDatabase :=
  ⟨fun _ => List.nodup_nil, fun _ _ hk => absurd hk List.not_mem_nil⟩

/-- The database is well placed all along a run of insertions. -/
theorem hashInsertPkg_wellPlaced {tr : List (Database × Insertion)} {db : Database}
    (h : Trace InsertStep emptyDatabase tr db) : Trace.Along WellPlaced tr db :=
  h.invariant wellPlaced_empty fun _ _ _ hdb hstep => wellPlaced_step hdb hstep

/-- **The `provides` arrays over a whole run**: in every state of a run of insertions every filed
package has a sound array exactly when every insertion of the run meets the guard. -/
theorem providesOk_along_iff {tr : List (Database × Insertion)} {db : Database}
    (h : Trace InsertStep emptyDatabase tr db) :
    Trace.Along ProvidesOk tr db ↔ ∀ x ∈ tr, MergeGuard x.1 x.2 :=
  h.forall_iff_guard wellPlaced_empty (fun _ _ _ hdb hstep => wellPlaced_step hdb hstep)
    (fun _ _ hk => absurd hk List.not_mem_nil)
    fun _ _ _ hdb hok hstep => providesOk_step_iff hdb hok hstep

/-! ## A feed entry and a status file -/

/-- Version 1.0 of package `a` with a `Provides` field. -/
def stanza (provides : List CStr) : ParsedPkg :=
  ⟨{ name := "a".toList, version := some "1.0".toList, architecture := some "all".toList,
     archPriority := 1, providesStr := provides, providesCount := provides.length },
    ⟨rfl, rfl, rfl, rfl, rfl, rfl, rfl, rfl, rfl, rfl, rfl, rfl⟩⟩

/-- A feed entry with `Provides: b`. -/
def feedInsertion : Insertion := ⟨0, stanza ["b".toList], false⟩

/-- The same package and version from a status file, with the given `Provides`. -/
def statusInsertion (provides : List CStr) : Insertion := ⟨1, stanza provides, true⟩

/-- The database after a call of `hash_insert_pkg` that returns. -/
def Insertion.run (ins : Insertion) (db : Database) : Database :=
  (hashInsertPkg (db.setPkg ins.id ins.pkg) ins.id ins.setStatus).getD db

/-- A call that returns is a step. -/
theorem insertStep_run {db : Database} {ins : Insertion} (hfresh : ∀ a, ins.id ∉ db.filed a)
    (h : (hashInsertPkg (db.setPkg ins.id ins.pkg) ins.id ins.setStatus).isSome) :
    InsertStep db ins (ins.run db) := by
  obtain ⟨db', hdb'⟩ := Option.isSome_iff_exists.mp h
  exact ⟨hfresh, by rw [Insertion.run, hdb', Option.getD_some]⟩

/-- The feed is read, then the status file. -/
theorem feed_status_trace (provides : List CStr)
    (h : (hashInsertPkg ((feedInsertion.run emptyDatabase).setPkg 1 (stanza provides)) 1
      true).isSome) :
    Trace InsertStep emptyDatabase
      [(emptyDatabase, feedInsertion), (feedInsertion.run emptyDatabase, statusInsertion provides)]
      ((statusInsertion provides).run (feedInsertion.run emptyDatabase)) := by
  have hfeed : InsertStep emptyDatabase feedInsertion (feedInsertion.run emptyDatabase) :=
    insertStep_run (fun _ => List.not_mem_nil) (by decide)
  refine .cons hfeed (.cons (insertStep_run (fun a ha => ?_) h) (.nil _))
  rcases insertStep_filed wellPlaced_empty hfeed ha with hid | hold
  · exact absurd hid.1 (show (1 : Nat) ≠ 0 by decide)
  · exact absurd hold.1 List.not_mem_nil

/-- A status record without `Provides` takes over the count of the feed entry but not its array:
one element, counted as two. -/
theorem not_providesOk_feed_status :
    ¬ ∀ tr db, Trace InsertStep emptyDatabase tr db → Trace.Along ProvidesOk tr db := by
  intro h
  have hok := (h _ _ (feed_status_trace [] (by decide +kernel))).2
  obtain ⟨a, rest, -, hprovides, hcount⟩ := hok "a".toList 1 (by decide +kernel)
  have harr : (((statusInsertion []).run (feedInsertion.run emptyDatabase)).pkg 1).provides
      = some ["a".toList] := by decide +kernel
  have hnum : (((statusInsertion []).run (feedInsertion.run emptyDatabase)).pkg 1).providesCount
      = 2 := by decide +kernel
  rw [harr, Option.some.injEq] at hprovides
  rw [hnum, ← hprovides] at hcount
  exact absurd hcount (by decide)

/-- With the `Provides` of the feed entry in the status record too, the arrays stay sound. -/
theorem providesOk_along_feed_status :
    Trace.Along ProvidesOk
      [(emptyDatabase, feedInsertion),
        (feedInsertion.run emptyDatabase, statusInsertion ["b".toList])]
      ((statusInsertion ["b".toList]).run (feedInsertion.run emptyDatabase)) := by
  refine (providesOk_along_iff (feed_status_trace ["b".toList] (by decide +kernel))).mpr ?_
  simp only [List.forall_mem_cons, List.not_mem_nil, false_implies, implies_true, and_true]
  exact ⟨fun h => absurd h (by decide), fun _ h => absurd h (by decide)⟩

end FirmwareTools.Opkg

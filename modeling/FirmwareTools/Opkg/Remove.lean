import FirmwareTools.Opkg.FileList

/-! # Removing packages

`opkg_remove_pkg` removes a package, the packages that depend on it when that is forced, and the
packages that were installed only because of it. -/

namespace FirmwareTools.Opkg

/-! ## Who depends on a package -/

/-- The first `count` entries of an array, read one by one. Reading past the end of the array has no
result. -/
def readArray {α : Type} : Nat → List α → Option (List α)
  | 0, _ => some []
  | _ + 1, [] => none
  | n + 1, x :: xs => (readArray n xs).map (x :: ·)

/-- A loop over the first `count` entries of an array that ends at the first hit. -/
def searchArray {α : Type} (hit : α → Bool) : Nat → List α → Option Bool
  | 0, _ => some false
  | _ + 1, [] => none
  | n + 1, x :: xs => if hit x then some true else searchArray hit n xs

/-- The abstract packages that depend on what a package provides, in the order they are met. -/
def Database.dependers (db : Database) (pkg : Pkg) : Option (List AbstractPkgId) := do
  let provides ← readArray pkg.providesCount (pkg.provides.getD [])
  some (provides.flatMap fun providee => (db.abstractPkg providee).dependedUponBy)

/-- One step in collecting the dependents: each is marked when it is taken, so that it is taken once.
The marks are cleared again afterwards. -/
def collectDependent (db : Database) (dependents : List AbstractPkgId) (dep : AbstractPkgId) :
    List AbstractPkgId :=
  if (db.abstractPkg dep).stateStatus = .installed ∧ (db.abstractPkg dep).stateFlag.marked = false ∧
      dep ∉ dependents then
    dependents ++ [dep]
  else dependents

/-- `pkg_has_installed_dependents`: how often an installed dependent is met, and the dependents. -/
def pkgHasInstalledDependents (db : Database) (pkg : Pkg) : Option (Nat × List AbstractPkgId) := do
  let dependers ← db.dependers pkg
  some ((dependers.filter fun dep => (db.abstractPkg dep).stateStatus == .installed).length,
    dependers.foldl (collectDependent db) [])

variable (env : Env)

/-! ## Files and scripts -/

/-- The path of a maintainer script: those of an installed package are in the `info` directory, those
of any other where its control files were unpacked. -/
def scriptPath (pkg : Pkg) (script : CStr) : Option CStr :=
  if pkg.isInstalled then
    pkg.dest.map fun dest => dest.infoDir ++ "/".toList ++ pkg.name ++ ".".toList ++ script
  else pkg.tmpUnpackDir.map fun dir => dir ++ "/".toList ++ script

/-- Run a command. What it does to the files is for the outside to know. -/
def xsystem (cmd : CStr) : DiskOp Int := do
  let files := (← get).files
  let (err, files) ← ask (env.xsystem · cmd files)
  modify fun disk => { disk with files }
  return err

/-- `pkg_run_script` -/
def pkgRunScript (pkg : Pkg) (script args : CStr) : DiskOp Int := do
  if env.noaction ∨ (env.offlineRoot.isSome ∧ !env.forcePostinstall) then return 0
  else
    match scriptPath pkg script with
    | none => return -1
    | some path =>
      if ← fileExists path then xsystem env (path ++ " ".toList ++ args) else return 0

/-- One file of a package that is removed: `some` file name is a directory to be looked at later. A
file that another package has claimed, and a configuration file the user has changed, stay. -/
def removeDataFile (i : PkgId) (fileName : CStr) : Run (Option CStr) := do
  let owner ← fileHashGetFileOwner env fileName
  if owner ≠ some i then return none
  else if ← fileIsDir fileName then return some fileName
  else
    let rootDirLen := (env.offlineRoot.getD []).length
    let modified ← match (← getPkg i).getConffile (fileName.drop rootDirLen) with
      | some conffile => conffileHasBeenModified env conffile
      | none => pure false
    if modified then return none
    else
      if !env.noaction then
        let _ ← unlink env fileName
      fileHashRemove env fileName
      return none

/-- The loop that removes empty directories: it goes over the list again as long as it removes one,
so no more often than the list is long. -/
def removeEmptyDirs : Nat → List CStr → DiskOp PUnit
  | 0, _ => return PUnit.unit
  | n + 1, dirs => do
    let left ← dirs.foldlM (fun left dir => do
      if ← rmdir env dir then return left else return left ++ [dir]) []
    if left.length < dirs.length then removeEmptyDirs n left else return PUnit.unit

/-- `remove_data_files_and_list`. A package without a destination is a `NULL` dereference. -/
def removeDataFilesAndList (i : PkgId) : Run PUnit := do
  match ← pkgGetInstalledFiles env i with
  | none => return PUnit.unit
  | some installedFiles =>
    let installedDirs ← installedFiles.foldlM (fun dirs fileName => do
      return dirs ++ (← removeDataFile env i fileName).toList) []
    if !env.noaction then
      removeEmptyDirs env (installedDirs.length + 1) installedDirs
    pkgFreeInstalledFiles i
    let pkg ← getPkg i
    let dest ← Op.deref pkg.dest
    if !env.noaction then
      let _ ← unlink env (listFileName dest pkg.name)

/-- Does `path` match the pattern `stem*`? A `*` does not match a `/`. -/
def matchesGlob (stem path : CStr) : Bool :=
  stem.isPrefixOf path && !(path.drop stem.length).contains '/'

/-- The files after an `unlink` of every file that matches `stem*`. -/
def unlinkMatching (stem : CStr) (unlinked : CStr → Bool) (files : Files) : Files := fun path =>
  match files path with
  | some (.file content) =>
    if matchesGlob stem path ∧ unlinked path then none else some (.file content)
  | node => node

/-- `remove_maintainer_scripts`. A package without a destination is a `NULL` dereference. -/
def removeMaintainerScripts (pkg : Pkg) : DiskOp PUnit := do
  if env.noaction then return PUnit.unit
  else
    let dest ← Op.deref pkg.dest
    let stem := dest.infoDir ++ "/".toList ++ pkg.name ++ ".".toList
    let unlinked ← ask fun n path => env.succeeds n (.unlink path)
    modify fun disk => { disk with files := unlinkMatching stem unlinked disk.files }

/-! ## Removing a package -/

section Nested

variable (removePkg : PkgId → Run Int)

/-- Remove packages in turn, up to the first error. -/
def removePkgs : List PkgId → Run Int
  | [] => return 0
  | i :: pkgs => do
    let err ← removePkg i
    if err ≠ 0 then return err else removePkgs pkgs

/-- The installed packages of the dependents whose own dependents have not been removed yet. -/
def dependentPkgs (w : World) (dependents : List AbstractPkgId) : Option (List PkgId) :=
  dependents.foldlM (fun pkgs dep =>
    if w.marks dep = 2 ∨ (w.db.abstractPkg dep).stateStatus ≠ .installed then some pkgs
    else do
      let vec ← (w.db.abstractPkg dep).pkgs
      some (pkgs ++ vec.filter fun i => (w.db.pkg i).stateStatus == .installed)) []

/-- `opkg_remove_dependent_pkgs`. It uses `dependencies_checked` for marks of its own. -/
def opkgRemoveDependentPkgs (i : PkgId) (dependents : List AbstractPkgId) : Run Int := do
  match (← getPkg i).parent with
  | none => return 0
  | some abPkg =>
    if (← get).marks abPkg = 2 then return 0
    else
      modify fun w => { w with marks := Function.update w.marks abPkg 2 }
      let pkgs ← Op.deref (dependentPkgs (← get) dependents)
      removePkgs removePkg pkgs

/-- One alternative in `remove_autoinstalled`: remove its package if it was installed automatically
and nothing depends on it. -/
def removeIfOrphaned (depend : Depend) : Run (Option Int) := do
  match (← get).db.installedByName depend.pkg with
  | none => return none
  | some p =>
    if !(← getPkg p).autoInstalled then return some 0
    else
      let w ← get
      let (nDeps, _) ← Op.deref (pkgHasInstalledDependents w.db (w.db.pkg p))
      if nDeps = 0 then
        return some (if (← removePkg p) ≠ 0 then -1 else 0)
      else return some 0

/-- The loop of `remove_autoinstalled`. An alternative that is not installed ends it. -/
def removeOrphans (err : Int) : List Depend → Run Int
  | [] => return err
  | depend :: depends => do
    match ← removeIfOrphaned removePkg depend with
    | none => return -1
    | some r => removeOrphans (if r ≠ 0 then r else err) depends

/-- `remove_autoinstalled` -/
def removeAutoinstalled (i : PkgId) : Run Int := do
  let entries := (← getPkg i).entries.filter fun entry =>
    entry.type == .predepend || entry.type == .depend || entry.type == .recommend
  removeOrphans removePkg 0 (entries.flatMap CompoundDepend.possibilities)

/-- The dependents of a package before it is removed: an error if there are some and they must stay,
else what removing them returned. -/
def removeDependents (i : PkgId) : Run Int := do
  let pkg ← getPkg i
  if env.forceDepends ∨ pkg.stateFlag.replace then return 0
  else
    let (n, dependents) ← Op.deref (pkgHasInstalledDependents (← get).db pkg)
    if n = 0 then return 0
    else if !env.forceRemovalOfDependentPackages then return -1
    else opkgRemoveDependentPkgs removePkg i dependents

/-- The removal itself, once the dependents are out of the way. -/
def removePkgFiles (i : PkgId) (parent : AbstractPkgId) : Run Int := do
  modifyPkg i fun p => { p.withFilelistChanged true with stateWant := .deinstall }
  let err ← pkgRunScript env (← getPkg i) "prerm".toList "remove".toList
  if err ≠ 0 ∧ !env.forceRemove then return -1
  else
    removeDataFilesAndList env i
    let err ← pkgRunScript env (← getPkg i) "postrm".toList "remove".toList
    removeMaintainerScripts env (← getPkg i)
    modifyPkg i fun p => { p with stateStatus := .notInstalled }
    modifyAbstractPkg parent fun ab => { ab with stateStatus := .notInstalled }
    if env.autoremove then
      return if (← removeAutoinstalled removePkg i) ≠ 0 then -1 else err
    else return err

/-- The body of `opkg_remove_pkg`. -/
def removePkgBody (i : PkgId) (fromUpgrade : Bool) : Run Int := do
  let pkg ← getPkg i
  if pkg.essential ∧ !fromUpgrade ∧ !env.forceRemovalOfEssentialPackages then return -1
  else
    match pkg.parent with
    | none => return 0
    | some parent =>
      let err ← removeDependents env removePkg i
      if err ≠ 0 then return err
      else
        -- the message names the destination
        if !fromUpgrade then
          let _ ← Op.deref pkg.dest
        removePkgFiles env removePkg i parent

end Nested

/-- `opkg_remove_pkg`, with the depth of the recursion as fuel. -/
def opkgRemovePkg : Nat → PkgId → Bool → Run Int
  | 0, _, _ => Op.stop
  | fuel + 1, i, fromUpgrade =>
    removePkgBody env (fun i => opkgRemovePkg fuel i false) i fromUpgrade

end FirmwareTools.Opkg

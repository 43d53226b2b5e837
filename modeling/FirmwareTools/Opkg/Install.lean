import FirmwareTools.Opkg.Remove

/-! # Installing packages

`opkg_install_pkg` in the three parts its control flow has: what comes before the dependencies of the
package are looked at, what comes before the point of no return and is unwound if it fails, and the
installation itself. The steps for which the source has a function that only returns `0` are left
out, and so are the messages. -/

namespace FirmwareTools.Opkg

variable (env : Env)

/-! ## Checks -/

/-- `pkg_arch_supported` -/
def pkgArchSupported (pkg : Pkg) : Bool :=
  match pkg.architecture with
  | none => true
  | some architecture => env.archList.contains architecture

/-- `is_pkg_a_replaces` -/
def isPkgAReplaces (pkgScout pkg : Pkg) : Bool :=
  (pkg.replaces.take pkg.replacesCount).any fun replaced => pkgScout.name == replaced

/-- One package in the search for conflicts: it is collected, once, if it is installed or wanted,
meets the conflict and is not replaced. -/
def collectConflict (db : Database) (pkg : Pkg) (depend : Depend) (conflicts : List PkgId)
    (i : PkgId) : Option (List PkgId) := do
  let pkgScout := db.pkg i
  if (pkgScout.stateStatus = .installed ∨ pkgScout.stateWant = .install) ∧
      versionConstraintsSatisfied depend pkgScout ∧ !isPkgAReplaces pkgScout pkg then
    if ← isPkgInPkgVec db i conflicts then some conflicts else some (conflicts ++ [i])
  else some conflicts

/-- `pkg_hash_fetch_conflicts`; an empty list is a `NULL` result. -/
def pkgHashFetchConflicts (db : Database) (pkg : Pkg) : Option (List PkgId) :=
  if pkg.parent = none then some []
  else
    let possibilities := (pkg.conflicts.take pkg.conflictsCount).flatMap
      CompoundDepend.possibilities
    possibilities.foldlM (fun conflicts depend =>
      (db.filed depend.pkg).foldlM (collectConflict db pkg depend) conflicts) []

/-- `check_conflicts_for` -/
def checkConflictsFor (i : PkgId) : Run Int := do
  if env.forceDepends then return 0
  else
    let w ← get
    let conflicts ← Op.deref (pkgHashFetchConflicts w.db (w.db.pkg i))
    return if conflicts = [] then 0 else -1

/-- The file system `verify_pkg_installable` looks at. -/
def spaceRootDir (pkg : Pkg) (files : Files) : CStr :=
  match pkg.dest, env.overlayRoot with
  | some dest, some overlayRoot =>
    if dest.name = "root".toList ∧ files overlayRoot = some .dir then overlayRoot
    else dest.rootDir
  | some dest, none => dest.rootDir
  | none, _ => env.defaultDest.rootDir

/-- `verify_pkg_installable` -/
def verifyPkgInstallable (pkg : Pkg) : DiskOp Int := do
  if env.forceSpace ∨ pkg.installedSize = 0 then return 0
  else
    let rootDir := spaceRootDir env pkg (← get).files
    let kbsAvailable ← ask (env.getAvailableKbytes · rootDir)
    return if kbsAvailable ≤ (pkg.installedSize + 1023) / 1024 then -1 else 0

/-- `opkg_install_check_downgrade`: `1` if the package is not to be installed. The messages name the
destinations. -/
def opkgInstallCheckDowngrade (i : PkgId) (oldPkg : Option PkgId) : Run Int := do
  let pkg ← getPkg i
  match oldPkg with
  | some old =>
    let old ← getPkg old
    let cmp := pkgCompareVersions old pkg
    if !env.downloadOnly then
      let _ ← Op.deref old.dest
    if cmp < 0 ∨ (env.forceDowngrade ∧ 0 < cmp) then
      modifyPkg i fun p => { p with dest := old.dest }
      return 0
    else return 1
  | none =>
    if !env.downloadOnly then
      let _ ← Op.deref pkg.dest
    return 0

/-! ## The package file -/

/-- The part of a path behind the last `/`. -/
def baseName (path : CStr) : CStr := path.rtakeWhile (· != '/')

/-- `opkg_download` -/
def opkgDownload (src destFileName : CStr) : DiskOp Int := do
  if "file:".toList.isPrefixOf src then fileCopy env (src.drop 5) destFileName
  else
    let tmpFileLocation := env.tmpDir ++ "/".toList ++ baseName src
    let present ← fileExists tmpFileLocation
    let unlinked ← unlink env tmpFileLocation
    if present ∧ !unlinked then return -1
    else
      match ← ask (env.download · src) with
      | none => return -1
      | some content =>
        setNode tmpFileLocation (some (.file content))
        fileMove env tmpFileLocation destFileName

/-- The download in `opkg_download_cache` of a file the cache does not have. -/
def downloadToCache (src cacheLocation destFileName : CStr) : DiskOp Int := do
  let err ← opkgDownload env src cacheLocation
  if err ≠ 0 then
    let _ ← unlink env cacheLocation
    return err
  else fileCopy env cacheLocation destFileName

/-- `opkg_download_cache` -/
def opkgDownloadCache (src destFileName : CStr) : DiskOp Int := do
  match env.cache with
  | none => opkgDownload env src destFileName
  | some cache =>
    if "file:".toList.isPrefixOf src then opkgDownload env src destFileName
    else if !(← fileIsDir cache) then return 1
    else
      let cacheLocation := cache ++ "/".toList ++ src.map fun c => if c = '/' then ',' else c
      if ← fileExists cacheLocation then fileCopy env cacheLocation destFileName
      else
        let cacheLocation := cache ++ "/".toList ++ baseName destFileName
        if ← fileExists cacheLocation then fileCopy env cacheLocation destFileName
        else downloadToCache env src cacheLocation destFileName

/-- The part of a path from the last `/` on: `strrchr`, or the whole path. -/
def fromLastSlash (path : CStr) : CStr :=
  if '/' ∈ path then '/' :: baseName path else path

/-- `opkg_download_pkg`. The name of the package file is set also when the download fails. -/
def opkgDownloadPkg (i : PkgId) (dir : CStr) : Run Int := do
  let pkg ← getPkg i
  match pkg.src, pkg.filename with
  | some src, some filename =>
    let localFilename := dir ++ "/".toList ++ fromLastSlash filename
    modifyPkg i fun p => { p with localFilename := some localFilename }
    opkgDownloadCache env (src.value ++ "/".toList ++ filename) localFilename
  | _, _ => return -1

/-- Get the package file if there is none yet. -/
def downloadPkgFile (i : PkgId) : Run Int := do
  if (← getPkg i).localFilename.isSome then return 0
  else if env.cache = none ∧ env.downloadOnly then
    match ← ask env.getcwd with
    | some cwd => opkgDownloadPkg env i cwd
    | none => return -1
  else opkgDownloadPkg env i env.tmpDir

/-- Check the signature of the list the package comes from. -/
def checkSignatureOf (pkg : Pkg) : DiskOp Int := do
  match pkg.src with
  | none => return 0
  | some src =>
    if !env.haveSignatures ∨ !env.checkSignature then return 0
    else
      let listsDir := if env.restrictToDefaultDest then env.defaultDest.listsDir else env.listsDir
      let listFile := listsDir ++ "/".toList ++ src.name
      let sigFile := listFile ++ ".sig".toList
      if ← fileExists sigFile then
        return if ← ask (env.verifyFile · listFile sigFile) then 0 else -1
      else return -1

/-- Check the md5sum and the sha256sum of the package file against those of the index. A file that
cannot be read passes. -/
def checkSums (pkg : Pkg) : DiskOp Int := do
  let localFilename := pkg.localFilename.getD []
  let md5sum ← if pkg.md5sum.isSome then fileMd5sumAlloc env localFilename else pure none
  if md5sum.isSome ∧ md5sum ≠ pkg.md5sum then return -1
  else
    let sha256sum ←
      if env.haveSha256 ∧ pkg.sha256sum.isSome then fileSha256sumAlloc env localFilename
      else pure none
    return if sha256sum.isSome ∧ sha256sum ≠ pkg.sha256sum then -1 else 0

/-- Space, package file, signature and checksums. -/
def obtainPkgFile (i : PkgId) : Run Int := do
  let err ← verifyPkgInstallable env (← getPkg i)
  if err ≠ 0 then return -1
  else
    let err ← downloadPkgFile env i
    if err ≠ 0 then return -1
    else
      let err ← checkSignatureOf env (← getPkg i)
      if err ≠ 0 then return -1
      else checkSums env (← getPkg i)

/-- `pkg_extract_control_files_to_dir_with_prefix`: the control files under their names behind
`stem`. -/
def pkgExtractControlFiles (pkg : Pkg) (stem : CStr) : DiskOp Int := do
  let localFilename := pkg.localFilename.getD []
  let extracted ← ask (env.succeeds · (.extract localFilename))
  match (← readFile env localFilename).bind env.controlFiles with
  | some control =>
    if extracted then
      control.forM fun entry => setNode (stem ++ entry.1) (some (.file entry.2))
      return 0
    else return -1
  | none => return -1

/-- The name of a configuration file below the root directory of a destination. -/
def conffileNameInDest (dest : PkgDest) (cfName : CStr) : CStr :=
  dest.rootDir.drop (env.offlineRoot.getD []).length ++
    if cfName.head? = some '/' then cfName.drop 1 else cfName

/-- The configuration files a `conffiles` control file names. -/
def parseConffiles (dest : PkgDest) (content : CStr) : List Conffile :=
  ((fileLines content).filter (· ≠ [])).map fun line =>
    { name := conffileNameInDest env dest (line.rdropWhile fun c => c = ' ' || c = '\t')
      value := none }

/-- The end of `unpack_pkg_control_files`: take over the names in the `conffiles` control file, unless
the package has its configuration files already. -/
def readConffiles (i : PkgId) (dir : CStr) : Run Int := do
  let pkg ← getPkg i
  let conffilesFileName := dir ++ "/conffiles".toList
  if !pkg.conffiles.isEmpty then return 0
  else if !(← fileExists conffilesFileName) then return 0
  else
    match ← readFile env conffilesFileName with
    | none => return -1
    | some content =>
      if ((fileLines content).filter (· ≠ [])).isEmpty then return 0
      else
        let dest ← Op.deref pkg.dest
        modifyPkg i fun p => { p with conffiles := parseConffiles env dest content }
        return 0

/-- `unpack_pkg_control_files` -/
def unpackPkgControlFiles (i : PkgId) : Run Int := do
  let pkg ← getPkg i
  match ← ask (env.mkdtemp · (env.tmpDir ++ "/".toList ++ pkg.name ++ "-XXXXXX".toList)) with
  | none =>
    modifyPkg i fun p => { p with tmpUnpackDir := none }
    return -1
  | some dir =>
    setNode dir (some .dir)
    modifyPkg i fun p => { p with tmpUnpackDir := some dir }
    let err ← pkgExtractControlFiles env (← getPkg i) (dir ++ "/".toList)
    if err ≠ 0 then return err else readConffiles env i dir

/-! ## Ownership -/

/-- One file of the new package in `update_file_ownership`: it is taken over if it has no owner, if it
belongs to the old package, or if it is obsolete. -/
def claimFile (newPkg : PkgId) (oldPkg : Option PkgId) (newFile : CStr) : Run PUnit := do
  let owner ← fileHashGetFileOwner env newFile
  let obs ← obsFileHashGet newFile
  if owner = none ∨ owner = oldPkg ∨ obs.isSome then fileHashSetFileOwner env newFile newPkg
  else return PUnit.unit

/-- One file of the old package in `update_file_ownership`: it is obsolete if nobody has taken it. -/
def obsoleteFile (oldPkg : PkgId) (oldFile : CStr) : Run PUnit := do
  let owner ← fileHashGetFileOwner env oldFile
  if owner = none ∨ owner = some oldPkg then obsFileHashInsert oldFile oldPkg
  else return PUnit.unit

/-- The second half of `update_file_ownership`. -/
def obsoleteFiles (newPkg oldPkg : PkgId) : Run Int := do
  match ← pkgGetInstalledFiles env oldPkg with
  | none =>
    pkgFreeInstalledFiles newPkg
    return -1
  | some oldList =>
    oldList.forM (obsoleteFile env oldPkg)
    pkgFreeInstalledFiles oldPkg
    pkgFreeInstalledFiles newPkg
    return 0

/-- `update_file_ownership` -/
def updateFileOwnership (newPkg : PkgId) (oldPkg : Option PkgId) : Run Int := do
  match ← pkgGetInstalledFiles env newPkg with
  | none => return -1
  | some newList =>
    newList.forM (claimFile env newPkg oldPkg)
    match oldPkg with
    | some old => obsoleteFiles env newPkg old
    | none =>
      pkgFreeInstalledFiles newPkg
      return 0

/-! ## Before the dependencies -/

/-- Where `opkg_install_pkg` looks at the dependencies of its package. -/
inductive Stage
  | alreadyInstalled
  | downloadOnly
  | install (oldPkg : Option PkgId)
  deriving DecidableEq, Repr

/-- How far a part of `opkg_install_pkg` got: it returned, or goes on. -/
inductive Progressed (α : Type)
  | done (rc : Int)
  | go (a : α)
  deriving DecidableEq, Repr

/-- Unpack the control files, unless that was done before. -/
def unpackPkg (i : PkgId) : Run Int := do
  if (← getPkg i).tmpUnpackDir = none then unpackPkgControlFiles env i else return 0

/-- From the wishes on: conflicts, space, package file and control files. -/
def preparePkg (i : PkgId) (oldPkg : Option PkgId) : Run (Progressed Stage) := do
  modifyPkg i fun p => { p with stateWant := .install }
  oldPkg.toList.forM fun old => modifyPkg old fun p => { p with stateWant := .deinstall }
  let err ← checkConflictsFor env i
  if err ≠ 0 then return .done (-1)
  else if (← getPkg i).stateStatus = .installed then return .done 0
  else
    let err ← obtainPkgFile env i
    if err ≠ 0 then return .done (-1)
    else if env.downloadOnly then return if env.nodeps then .done 0 else .go .downloadOnly
    else
      let err ← unpackPkg env i
      return if err = -1 then .done (-1) else .go (.install oldPkg)

/-- `opkg_install_pkg` up to where it takes over the files of the package. -/
def beforeOwnership (i : PkgId) : Run (Progressed Stage) := do
  let pkg ← getPkg i
  if !pkgArchSupported env pkg then return .done (-1)
  else if pkg.stateStatus = .installed ∧ !env.nodeps then return .go .alreadyInstalled
  else
    modifyPkg i fun p => { p with dest := p.dest <|> some env.defaultDest }
    let oldPkg := (← get).db.installedByName pkg.name
    let err ← opkgInstallCheckDowngrade env i oldPkg
    if err ≠ 0 then return .done (-1) else preparePkg env i oldPkg

/-- `opkg_install_pkg` up to where it looks at the dependencies. -/
def beforeDependencies (i : PkgId) : Run (Progressed Stage) := do
  match ← beforeOwnership env i with
  | .go (.install oldPkg) =>
    let err ← updateFileOwnership env i oldPkg
    return if err ≠ 0 then .done (-1) else .go (.install oldPkg)
  | progressed => return progressed

/-! ## The dependencies -/

section Nested

variable (installPkg removePkg : PkgId → Run Int)

/-- Mark a package as to be installed, in the same place as `pkg`. -/
def wantInstalled (i dep : PkgId) : Run PUnit := do
  let dest := (← getPkg i).dest
  modifyPkg dep fun p => { p with dest := p.dest <|> dest, stateWant := .install }

/-- Install the dependencies in turn. One that another has pulled in meanwhile is skipped. -/
def installDepends : List PkgId → Run Int
  | [] => return 0
  | dep :: depends => do
    if (← getPkg dep).isInstalled then installDepends depends
    else
      let err ← installPkg dep
      modifyPkg dep fun p => { p with autoInstalled := true }
      if err ≠ 0 then return err else installDepends depends

/-- The resolution in a state: with one round of the recursion for each name and one more it comes to
its end. -/
def World.resolve (w : World) (i : PkgId) : Option Resolution :=
  pkgHashFetchUnsatisfiedDependencies env.qsort w.db (w.names.length + 1) w.marks i []

/-- `satisfy_dependencies_for` -/
def satisfyDependenciesFor (i : PkgId) : Run Int := do
  let r ← Op.deref ((← get).resolve env i)
  modify fun w => { w with marks := r.marks }
  if r.unresolved ≠ [] ∧ !env.forceDepends then return -1
  else if r.rc = 0 then return 0
  else
    r.unsatisfied.forM (wantInstalled i)
    installDepends installPkg r.unsatisfied

/-! ## Up to the point of no return -/

/-- `pkg_conflicts` -/
def pkgConflicts (pkg conflictee : Pkg) : Option Bool :=
  let possibilities := (pkg.conflicts.take pkg.conflictsCount).flatMap CompoundDepend.possibilities
  possibilities.foldlM (fun found depend =>
    if found then some true
    else searchArray (· == depend.pkg) conflictee.providesCount (conflictee.provides.getD [])) false

/-- `pkg_replaces` -/
def pkgReplaces (pkg replacee : Pkg) : Option Bool :=
  (pkg.replaces.take pkg.replacesCount).foldlM (fun found abstractReplacee =>
    if found then some true
    else searchArray (· == abstractReplacee) replacee.providesCount (replacee.provides.getD [])) false

/-- `pkg_get_installed_replacees` -/
def pkgGetInstalledReplacees (db : Database) (pkg : Pkg) : Option (List PkgId) :=
  ((pkg.replaces.take pkg.replacesCount).flatMap db.filed).foldlM (fun replacees i => do
    if ← pkgConflicts pkg (db.pkg i) then
      some (if (db.pkg i).stateStatus = .installed then replacees ++ [i] else replacees)
    else some replacees) []

/-- Flag a package so that removing it does not complain. -/
def flagReplace (i : PkgId) : Run PUnit :=
  modifyPkg i fun p => { p with stateFlag := { p.stateFlag with replace := true } }

/-- One alternative in `pkg_remove_orphan_dependent`. The source looks for it among those of the new
package by comparing pointers; two packages share none, so it is never found. -/
def removeOrphanDependent (depend : Depend) : Run PUnit := do
  match (← get).db.installedByName depend.pkg with
  | none => return PUnit.unit
  | some p =>
    if !(← getPkg p).autoInstalled then return PUnit.unit
    else
      let w ← get
      let (nDeps, _) ← Op.deref (pkgHasInstalledDependents w.db (w.db.pkg p))
      if nDeps = 1 then
        flagReplace p
        let _ ← removePkg p
      else return PUnit.unit

/-- `pkg_remove_orphan_dependent`, whose result is not used. -/
def pkgRemoveOrphanDependent (oldPkg : PkgId) : Run PUnit := do
  let entries := (← getPkg oldPkg).entries.filter fun entry => entry.type == .depend
  (entries.flatMap CompoundDepend.possibilities).forM (removeOrphanDependent removePkg)

/-- `pkg_remove_installed_replacees` -/
def pkgRemoveInstalledReplacees : List PkgId → Run Int
  | [] => return 0
  | replacee :: replacees => do
    flagReplace replacee
    let err ← removePkg replacee
    if err ≠ 0 then return err else pkgRemoveInstalledReplacees replacees

/-- `pkg_remove_installed_replacees_unwind` -/
def pkgRemoveInstalledReplaceesUnwind : List PkgId → Run Int
  | [] => return 0
  | replacee :: replacees => do
    if (← getPkg replacee).stateStatus ≠ .installed then
      let err ← installPkg replacee
      if err ≠ 0 then return err else pkgRemoveInstalledReplaceesUnwind replacees
    else pkgRemoveInstalledReplaceesUnwind replacees

/-- `pkg_version_str_alloc`; the epoch is printed with `%d`. -/
def pkgVersionStrAlloc (pkg : Pkg) : CStr :=
  let epoch := pkg.epoch % 2 ^ 32
  let epochStr := if epoch < 2 ^ 31 then Nat.toDigits 10 epoch
    else '-' :: Nat.toDigits 10 (2 ^ 32 - epoch)
  (if pkg.epoch = 0 then [] else epochStr ++ [':']) ++ pkg.version.getD [] ++
    match pkg.revision with
    | some revision => '-' :: revision
    | none => []

/-- `preinst_configure` -/
def preinstConfigure (i : PkgId) (oldPkg : Option PkgId) : Run Int := do
  let pkg ← getPkg i
  let args ← match oldPkg with
    | some old => pure ("upgrade ".toList ++ pkgVersionStrAlloc (← getPkg old))
    | none =>
      if pkg.stateStatus = .configFiles then pure ("install ".toList ++ pkgVersionStrAlloc pkg)
      else pure "install".toList
  let err ← pkgRunScript env (← getPkg i) "preinst".toList args
  return if err ≠ 0 then -1 else 0

/-- `backup_filename_alloc` -/
def backupFilename (fileName : CStr) : CStr := fileName ++ "-opkg.backup".toList

/-- `backup_make_backup` -/
def backupMakeBackup (fileName : CStr) : DiskOp Int := fileCopy env fileName (backupFilename fileName)

/-- `backup_exists_for` -/
def backupExistsFor (fileName : CStr) : DiskOp Bool := fileExists (backupFilename fileName)

/-- `backup_remove` -/
def backupRemove (fileName : CStr) : DiskOp PUnit := do
  let _ ← unlink env (backupFilename fileName)

/-- Back up a configuration file of the old package that has been modified. -/
def backupOldConffile (conffile : Conffile) : DiskOp Int := do
  let cfName := rootFilenameAlloc env conffile.name
  if ← fileExists cfName then
    if ← conffileHasBeenModified env conffile then backupMakeBackup env cfName else return 0
  else return 0

/-- Back up a configuration file of the new package that was none of the old one. -/
def backupNewConffile (oldPkg : Option Pkg) (conffile : Conffile) : DiskOp Int := do
  let cfName := rootFilenameAlloc env conffile.name
  if (oldPkg.bind (·.getConffile conffile.name)).isSome then return 0
  else if ← fileExists cfName then
    if ← backupExistsFor cfName then return 0 else backupMakeBackup env cfName
  else return 0

/-- Do something for one after the other, up to the first error. -/
def untilError {α : Type} (f : α → DiskOp Int) : List α → DiskOp Int
  | [] => return 0
  | x :: xs => do
    let err ← f x
    if err ≠ 0 then return err else untilError f xs

/-- `backup_modified_conffiles` -/
def backupModifiedConffiles (pkg : Pkg) (oldPkg : Option Pkg) : DiskOp Int := do
  if env.noaction then return 0
  else
    let err ← untilError (backupOldConffile env) ((oldPkg.map Pkg.conffiles).getD [])
    if err ≠ 0 then return err else untilError (backupNewConffile env oldPkg) pkg.conffiles

/-- `backup_modified_conffiles_unwind` -/
def backupModifiedConffilesUnwind (pkg : Pkg) (oldPkg : Option Pkg) : DiskOp PUnit := do
  ((oldPkg.map Pkg.conffiles).getD []).forM fun conffile => backupRemove env conffile.name
  pkg.conffiles.forM fun conffile => backupRemove env conffile.name

/-- Is it all right that a file of the new package exists and has this owner? -/
def ownerAllowsOverwrite (db : Database) (i : PkgId) (oldPkg : Option PkgId) (owner : PkgId) :
    Option Bool :=
  if oldPkg.any fun old => (db.pkg owner).name == (db.pkg old).name then some true
  else do
    if ← pkgReplaces (db.pkg i) (db.pkg owner) then some true
    else some ((db.pkg owner).name == (db.pkg i).name)

/-- One file in `check_data_file_clashes`: the number of clashes it adds. -/
def checkDataFile (i : PkgId) (oldPkg : Option PkgId) (clashes : Nat) (filename : CStr) :
    Run Nat := do
  if !(← fileExists filename) ∨ (← fileIsDir filename) then return clashes
  else if ← backupExistsFor filename then return clashes
  else if env.forceOverwrite then
    -- but we need to change who owns this file
    fileHashSetFileOwner env filename i
    return clashes
  else
    let allowed ← match ← fileHashGetFileOwner env filename with
      | some owner => Op.deref (ownerAllowsOverwrite (← get).db i oldPkg owner)
      | none => pure false
    if allowed then return clashes
    else if (← obsFileHashGet filename).isSome then return clashes
    else return clashes + 1

/-- `check_data_file_clashes` -/
def checkDataFileClashes (i : PkgId) (oldPkg : Option PkgId) : Run Int := do
  match ← pkgGetInstalledFiles env i with
  | none => return -1
  | some filesList =>
    let clashes ← filesList.foldlM (checkDataFile env i oldPkg) 0
    pkgFreeInstalledFiles i
    return clashes

/-- The steps that are unwound when one of them fails, and the unwinding. -/
def unwindableSteps (i : PkgId) (oldPkg : Option PkgId) (replacees : List PkgId) : Run Int := do
  let err ← pkgRemoveInstalledReplacees removePkg replacees
  if err ≠ 0 then
    let _ ← pkgRemoveInstalledReplaceesUnwind installPkg replacees
    return -1
  else
    let err ← preinstConfigure env i oldPkg
    if err ≠ 0 then
      let _ ← pkgRemoveInstalledReplaceesUnwind installPkg replacees
      return -1
    else
      let db := (← get).db
      let err ← backupModifiedConffiles env (db.pkg i) (oldPkg.map db.pkg)
      let err ← if err ≠ 0 then pure err else checkDataFileClashes env i oldPkg
      if err ≠ 0 then
        let db := (← get).db
        backupModifiedConffilesUnwind env (db.pkg i) (oldPkg.map db.pkg)
        let _ ← pkgRemoveInstalledReplaceesUnwind installPkg replacees
        return -1
      else return 0

/-- From the dependencies to the point of no return. With `noaction` it is not passed. -/
def beforePointOfNoReturn (i : PkgId) (oldPkg : Option PkgId) :
    Run (Progressed (Option PkgId)) := do
  let w ← get
  let replacees ← Op.deref (pkgGetInstalledReplacees w.db (w.db.pkg i))
  modifyPkg i fun p => p.withFilelistChanged true
  oldPkg.toList.forM (pkgRemoveOrphanDependent removePkg)
  let err ← unwindableSteps env installPkg removePkg i oldPkg replacees
  if err ≠ 0 then return .done (-1)
  else if env.noaction then return .done 0
  else return .go oldPkg

/-- What `opkg_install_pkg` does at a stage: look at the dependencies, and, where the package itself
is to be installed, go on to the point of no return. -/
def atStage (i : PkgId) : Stage → Run (Progressed (Option PkgId))
  | .alreadyInstalled => do
    let err ← satisfyDependenciesFor env installPkg i
    if err ≠ 0 then return .done (-1)
    else
      -- the message names the destination
      let _ ← Op.deref (← getPkg i).dest
      return .done 0
  | .downloadOnly => do
    let err ← satisfyDependenciesFor env installPkg i
    return .done (if err ≠ 0 then -1 else 0)
  | .install oldPkg => do
    if env.nodeps then beforePointOfNoReturn env installPkg removePkg i oldPkg
    else
      let err ← satisfyDependenciesFor env installPkg i
      if err ≠ 0 then return .done (-1)
      -- a circular dependency may have installed the package
      else if (← getPkg i).stateStatus = .unpacked then return .done 0
      else beforePointOfNoReturn env installPkg removePkg i oldPkg

/-- `opkg_install_pkg` up to the point of no return. -/
def untilPointOfNoReturn (i : PkgId) : Run (Progressed (Option PkgId)) := do
  match ← beforeDependencies env i with
  | .done rc => return .done rc
  | .go stage => atStage env installPkg removePkg i stage

end Nested

/-! ## The installation -/

/-- `remove_obsolesced_files`, whose result is not used: unlink the files of the old package that the
new one does not have and that still belong to it. -/
def removeObsolescedFiles (i oldPkg : PkgId) : Run PUnit := do
  match ← pkgGetInstalledFiles env oldPkg with
  | none => return PUnit.unit
  | some oldFiles =>
    match ← pkgGetInstalledFiles env i with
    | none => pkgFreeInstalledFiles oldPkg
    | some newFiles =>
      oldFiles.forM fun old => do
        if old ∈ newFiles ∨ (← fileIsDir old) then return PUnit.unit
        else if (← fileHashGetFileOwner env old) ≠ some oldPkg ∨ env.noaction then
          return PUnit.unit
        else
          let _ ← unlink env old
      pkgFreeInstalledFiles oldPkg
      pkgFreeInstalledFiles i

/-- What is done to the old package. -/
def retireOldPkg (i oldPkg : PkgId) : Run PUnit := do
  modifyPkg oldPkg fun p => { p with stateWant := .deinstall }
  if !(← getPkg oldPkg).stateFlag.noprune then
    removeObsolescedFiles env i oldPkg
  removeDataFilesAndList env oldPkg
  removeMaintainerScripts env (← getPkg oldPkg)

/-- `install_maintainer_scripts` -/
def installMaintainerScripts (i : PkgId) : Run Int := do
  let pkg ← getPkg i
  let dest ← Op.deref pkg.dest
  pkgExtractControlFiles env pkg (dest.infoDir ++ "/".toList ++ pkg.name ++ ".".toList)

/-- Extract one entry of the data archive. -/
def extractEntry (dest : PkgDest) (entry : CStr × Node) : DiskOp Int := do
  match entry.2 with
  | .dir =>
    setNode (archiveName dest.rootDir entry.1) (some .dir)
    return 0
  | .file content =>
    return if ← writeFile env (archiveName dest.rootDir entry.1) content then 0 else -1

/-- `pkg_extract_data_files_to_dir` -/
def pkgExtractDataFiles (pkg : Pkg) (dest : PkgDest) : DiskOp Int := do
  let localFilename := pkg.localFilename.getD []
  let extracted ← ask (env.succeeds · (.extract localFilename))
  match (← readFile env localFilename).bind env.dataFiles with
  | some entries =>
    let err ← untilError (extractEntry env dest) entries
    return if extracted then err else -1
  | none => return -1

/-- Does the first stanza of a control file say `Essential: yes`? -/
def saysEssential (control : CStr) : Bool :=
  ((fileLines control).takeWhile fun line => !lineIsBlank line).any fun line =>
    "Essential".toList.isPrefixOf line && trimXstrdup (line.drop 10) == "yes".toList

/-- `set_flags_from_control` -/
def setFlagsFromControl (i : PkgId) : Run PUnit := do
  let pkg ← getPkg i
  let dest ← Op.deref pkg.dest
  match ← readFile env (dest.infoDir ++ "/".toList ++ pkg.name ++ ".control".toList) with
  | some control =>
    if saysEssential control then
      modifyPkg i fun p => { p with essential := true }
  | none => return PUnit.unit

/-- `install_data_files` -/
def installDataFiles (i : PkgId) : Run Int := do
  let pkg ← getPkg i
  let dest ← Op.deref pkg.dest
  let err ← pkgExtractDataFiles env pkg dest
  if err ≠ 0 then return err
  else
    setFlagsFromControl env i
    pkgWriteFilelist env i

/-- One file in `check_data_file_clashes_change`: it is taken over by force or from a package that is
replaced. -/
def changeOwner (i : PkgId) (filename : CStr) : Run PUnit := do
  let rootFilename := rootFilenameAlloc env filename
  if !(← fileExists rootFilename) ∨ (← fileIsDir rootFilename) then return PUnit.unit
  else if env.forceOverwrite then fileHashSetFileOwner env filename i
  else
    match ← fileHashGetFileOwner env filename with
    | none => return PUnit.unit
    | some owner =>
      let db := (← get).db
      if ← Op.deref (pkgReplaces (db.pkg i) (db.pkg owner)) then fileHashSetFileOwner env filename i
      else return PUnit.unit

/-- `check_data_file_clashes_change`, whose result is only reported. -/
def checkDataFileClashesChange (i : PkgId) : Run PUnit := do
  match ← pkgGetInstalledFiles env i with
  | none => return PUnit.unit
  | some filesList =>
    filesList.forM (changeOwner env i)
    pkgFreeInstalledFiles i

/-- Put the user's version of a configuration file back where the backup differs from what the
package brings. -/
def restoreConffile (value : Option CStr) (rootFilename : CStr) : DiskOp PUnit := do
  let cfBackup := backupFilename rootFilename
  if ← fileExists cfBackup then
    let md5sum ← fileMd5sumAlloc env cfBackup
    if md5sum.isSome ∧ value.isSome ∧ md5sum ≠ value ∧ !env.forceMaintainer then
      let _ ← fileMove env rootFilename (rootFilename ++ "-opkg".toList)
      let _ ← fileMove env cfBackup rootFilename
    let _ ← unlink env cfBackup
  else return PUnit.unit

/-- One configuration file in `resolve_conffiles`: its md5sum is computed if it has none. -/
def resolveConffile (conffile : Conffile) : DiskOp Conffile := do
  let rootFilename := rootFilenameAlloc env conffile.name
  let value ← match conffile.value with
    | some value => pure (some value)
    | none => fileMd5sumAlloc env rootFilename
  if ← fileExists rootFilename then
    restoreConffile env value rootFilename
  return { conffile with value }

/-- `resolve_conffiles` -/
def resolveConffiles (i : PkgId) : Run PUnit := do
  if env.noaction then return PUnit.unit
  else
    let pkg ← getPkg i
    let conffiles ← onDisk (pkg.conffiles.mapM (resolveConffile env))
    modifyPkg i fun p => { p with conffiles }

/-- The last lines of `opkg_install_pkg`. -/
def finishInstall (i : PkgId) (oldPkg : Option PkgId) : Run PUnit := do
  modifyPkg i fun p => { p with
    stateStatus := .unpacked, stateFlag := { p.stateFlag with prefer := false } }
  oldPkg.toList.forM fun old => modifyPkg old fun p => { p with stateStatus := .notInstalled }
  let now ← ask env.time
  modifyPkg i fun p => { p with installedTime := now }
  let pkg ← getPkg i
  match pkg.parent with
  | some abPkg => modifyAbstractPkg abPkg fun ab => { ab with stateStatus := pkg.stateStatus }
  | none => return PUnit.unit

/-- `opkg_install_pkg` behind the point of no return. -/
def behindPointOfNoReturn (i : PkgId) (oldPkg : Option PkgId) : Run Int := do
  oldPkg.toList.forM (retireOldPkg env i)
  let err ← installMaintainerScripts env i
  if err ≠ 0 then return -1
  else
    let err ← installDataFiles env i
    if err ≠ 0 then return -1
    else
      checkDataFileClashesChange env i
      resolveConffiles env i
      finishInstall env i oldPkg
      return 0

/-- `opkg_install_pkg`, with the depth of the recursion as fuel. -/
def opkgInstallPkg : Nat → PkgId → Run Int
  | 0, _ => Op.stop
  | fuel + 1, i => do
    match ← untilPointOfNoReturn env (opkgInstallPkg fuel)
        (fun i => opkgRemovePkg env fuel i false) i with
    | .done rc => return rc
    | .go oldPkg => behindPointOfNoReturn env i oldPkg

end FirmwareTools.Opkg

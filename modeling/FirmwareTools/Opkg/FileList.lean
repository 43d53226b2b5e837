import FirmwareTools.Opkg.World

/-! # The files of a package

`pkg_get_installed_files` loads the list of a package's files, from its list file if it is installed
and from its archive if not, and `pkg_free_installed_files` drops it when nobody holds it any more.
`file_hash_set_file_owner` gives a file to a package and notes that the list files of the new and
the old owner have to be written again, which `pkg_write_changed_filelists` does. -/

namespace FirmwareTools.Opkg

variable (env : Env)

/-- Set `installed_files`. -/
def Pkg.withInstalledFiles (pkg : Pkg) (files : Option (List CStr)) : Pkg :=
  { pkg with installedFiles := files }

/-- Set `installed_files_ref_cnt`. -/
def Pkg.withRefCnt (pkg : Pkg) (cnt : Int) : Pkg := { pkg with installedFilesRefCnt := cnt }

/-- Set or clear `SF_FILELIST_CHANGED`. -/
def Pkg.withFilelistChanged (pkg : Pkg) (changed : Bool) : Pkg :=
  { pkg with stateFlag := { pkg.stateFlag with filelistChanged := changed } }

/-- `pkg_get_conffile` -/
def Pkg.getConffile (pkg : Pkg) (fileName : CStr) : Option Conffile :=
  pkg.conffiles.find? fun conffile => conffile.name == fileName

/-- `conffile_has_been_modified` -/
def conffileHasBeenModified (conffile : Conffile) : DiskOp Bool := do
  match conffile.value with
  | none => return true
  | some value =>
    match ← fileMd5sumAlloc env (rootFilenameAlloc env conffile.name) with
    | some md5sum => return md5sum != value
    | none => return true

/-- The name an entry of a data archive gets below a root directory. -/
def archiveName (rootDir fileName : CStr) : CStr :=
  let fileName := if fileName.head? = some '.' then fileName.drop 1 else fileName
  let fileName := if fileName.head? = some '/' then fileName.drop 1 else fileName
  rootDir ++ fileName

/-- The name a line of a list file stands for. -/
def listedName (line : CStr) : CStr :=
  match env.offlineRoot with
  | some root => if root.isPrefixOf line then line else root ++ line
  | none => line

/-- `"%s/%s.list"` -/
def listFileName (dest : PkgDest) (name : CStr) : CStr :=
  dest.infoDir ++ "/".toList ++ name ++ ".list".toList

/-- `pkg_extract_data_file_names_to_stream`: the names in the data archive of a package file. -/
def pkgExtractDataFileNames (localFilename : CStr) : DiskOp (Option (List CStr)) := do
  let extracted ← ask (env.succeeds · (.extract localFilename))
  match ← readFile env localFilename with
  | some archive =>
    return if extracted then (env.dataFiles archive).map (·.map Prod.fst) else none
  | none => return none

/-- The list of a package's files as it is read from the package file or from the list file: `none`
if the package file cannot be read. A list file that cannot be read gives an empty list. -/
def loadInstalledFiles (pkg : Pkg) : DiskOp (Option (List CStr)) := do
  match pkg.dest with
  | some dest =>
    if pkg.stateStatus = .notInstalled then
      match pkg.localFilename with
      | none => return some []
      | some localFilename =>
        let opened ← ask (env.succeeds · (.mkstemp env.tmpDir))
        if !opened then return some []
        else
          let names ← pkgExtractDataFileNames env localFilename
          return names.map (·.map (archiveName dest.rootDir))
    else
      match ← readFile env (listFileName dest pkg.name) with
      | none => return some []
      | some content => return some ((fileLines content).map (listedName env))
  | none =>
    match pkg.localFilename with
    | none => return some []
    | some localFilename =>
      let opened ← ask (env.succeeds · (.mkstemp env.tmpDir))
      if !opened then return some []
      else
        match ← pkgExtractDataFileNames env localFilename with
        | none => return none
        | some [] => return some []
        -- the root directory is that of a destination the package does not have
        | some (_ :: _) => Op.stop

/-- `pkg_get_installed_files` -/
def pkgGetInstalledFiles (i : PkgId) : Run (Option (List CStr)) := do
  modifyPkg i fun p => p.withRefCnt (p.installedFilesRefCnt + 1)
  let pkg ← getPkg i
  match pkg.installedFiles with
  | some files => return some files
  | none =>
    let files ← loadInstalledFiles env pkg
    modifyPkg i fun p => p.withInstalledFiles files
    return files

/-- `pkg_free_installed_files` -/
def pkgFreeInstalledFiles (i : PkgId) : Run PUnit :=
  modifyPkg i fun p =>
    let cnt := p.installedFilesRefCnt - 1
    if 0 < cnt then p.withRefCnt cnt else (p.withRefCnt cnt).withInstalledFiles none

/-- `file_hash_get_file_owner` -/
def fileHashGetFileOwner (fileName : CStr) : Run (Option PkgId) := do
  return (← get).fileHash.get (stripOfflineRoot env fileName)

theorem fileHashGetFileOwner_eq_some {fileName : CStr} {w : World} {r : Option PkgId × World} :
    fileHashGetFileOwner env fileName w = some r
      ↔ r = (w.fileHash.get (stripOfflineRoot env fileName), w) :=
  Op.pure_eq_some

/-- `file_hash_remove` -/
def fileHashRemove (fileName : CStr) : Run PUnit :=
  modify fun w => { w with fileHash := w.fileHash.remove (stripOfflineRoot env fileName) }

/-- `hash_table_get(&conf->obs_file_hash, …)` -/
def obsFileHashGet (fileName : CStr) : Run (Option PkgId) := do
  return (← get).obsFileHash.get fileName

/-- `hash_table_insert(&conf->obs_file_hash, …)` -/
def obsFileHashInsert (fileName : CStr) (i : PkgId) : Run PUnit :=
  modify fun w => { w with obsFileHash := w.obsFileHash.insert fileName i }

/-- What `file_hash_set_file_owner` does to the owner a file had before: the file leaves its list, if
that is held, and both packages have to have their list files written. Removing from a list that
could not be loaded is a `NULL` dereference. -/
def dropFromOldOwner (fileName : CStr) (oldOwningPkg owningPkg : PkgId) : Run PUnit := do
  let files ← Op.deref (← pkgGetInstalledFiles env oldOwningPkg)
  modifyPkg oldOwningPkg fun p => p.withInstalledFiles (some (files.erase fileName))
  pkgFreeInstalledFiles oldOwningPkg
  modifyPkg oldOwningPkg fun p => p.withFilelistChanged true
  modifyPkg owningPkg fun p => p.withFilelistChanged true

/-- `file_hash_set_file_owner`. A directory has no owner. -/
def fileHashSetFileOwner (fileName : CStr) (owningPkg : PkgId) : Run PUnit := do
  if fileName.getLast? = some '/' then return PUnit.unit
  else
    let oldOwningPkg ← fileHashGetFileOwner env fileName
    modify fun w =>
      { w with fileHash := w.fileHash.insert (stripOfflineRoot env fileName) owningPkg }
    match oldOwningPkg with
    | none => return PUnit.unit
    | some old => dropFromOldOwner env (stripOfflineRoot env fileName) old owningPkg

/-- `pkg_write_filelist`. A package without a destination is a `NULL` dereference. -/
def pkgWriteFilelist (i : PkgId) : Run Int := do
  let pkg ← getPkg i
  let dest ← Op.deref pkg.dest
  let owned := (← get).fileHash.filter fun entry => entry.2 == i
  let written ← writeFile env (listFileName dest pkg.name)
    (owned.flatMap fun entry => entry.1 ++ ['\n'])
  if written then
    modifyPkg i fun p => p.withFilelistChanged false
    return 0
  else return -1

/-- `pkg_hash_fetch_all_installed` -/
def pkgHashFetchAllInstalled : Run (List PkgId) := do
  let w ← get
  return (w.names.flatMap w.db.filed).filter fun i => (w.db.pkg i).isInstalled

/-- `pkg_write_changed_filelists` -/
def pkgWriteChangedFilelists : Run Int := do
  if env.noaction then return 0
  else
    let installedPkgs ← pkgHashFetchAllInstalled
    installedPkgs.foldlM (fun ret i => do
      if (← getPkg i).stateFlag.filelistChanged then
        let err ← pkgWriteFilelist env i
        return if err ≠ 0 then -1 else ret
      else return ret) 0

/-- `pkg_vec_fetch_by_name`: the packages of a name, or of its first provider if the name has no vector
of its own. -/
def Database.pkgVecFetchByName (db : Database) (name : AbstractPkgId) : List PkgId :=
  match (db.abstractPkg name).pkgs with
  | some pkgs => pkgs
  | none =>
    match (db.abstractPkg name).providedBy.head? with
    | some abpkg => db.filed abpkg
    | none => []

/-- `pkg_hash_fetch_installed_by_name` -/
def Database.installedByName (db : Database) (name : AbstractPkgId) : Option PkgId :=
  (db.pkgVecFetchByName name).find? fun i => (db.pkg i).isInstalled

end FirmwareTools.Opkg

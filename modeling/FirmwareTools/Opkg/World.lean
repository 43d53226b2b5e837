import FirmwareTools.Opkg.Resolve
import FirmwareTools.System.Op

/-! # The state of a run of opkg

What the commands of opkg read and write: the package database with its marks, the hash tables of the
file owners, and the files of the machine. The configuration and the world outside of the program are
parameters: which calls of the operating system succeed, what a download delivers, what an archive
holds and what a maintainer script does. The outside may answer differently each time it is asked. -/

namespace FirmwareTools.Opkg

/-- What is at a path: a directory, or a file with its bytes. -/
inductive Node
  | dir
  | file (content : CStr)
  deriving DecidableEq, Repr

/-- The files of the machine. -/
abbrev Files := CStr → Option Node

/-- The fields of `conf` that installing and removing read, and two options of the build. -/
structure Conf where
  archList : List CStr
  defaultDest : PkgDest
  tmpDir : CStr
  listsDir : CStr := []
  offlineRoot : Option CStr := none
  overlayRoot : Option CStr := none
  cache : Option CStr := none
  restrictToDefaultDest : Bool := false
  autoremove : Bool := false
  forceDepends : Bool := false
  forceMaintainer : Bool := false
  forceOverwrite : Bool := false
  forceDowngrade : Bool := false
  forceSpace : Bool := false
  forceRemovalOfDependentPackages : Bool := false
  forceRemovalOfEssentialPackages : Bool := false
  forcePostinstall : Bool := false
  forceRemove : Bool := false
  checkSignature : Bool := false
  nodeps : Bool := false
  noaction : Bool := false
  downloadOnly : Bool := false
  haveSha256 : Bool := false
  haveSignatures : Bool := false

/-- A call that may fail for reasons outside of the program. -/
inductive SysCall
  | fopen (path : CStr)
  | mkstemp (path : CStr)
  | unlink (path : CStr)
  | rmdir (path : CStr)
  | rename (src dest : CStr)
  | copy (src dest : CStr)
  | extract (path : CStr)
  deriving DecidableEq, Repr

/-- The world outside of the program. The first argument of a question is the number of questions
asked before it. -/
structure Sys where
  succeeds : Nat → SysCall → Bool
  mkdtemp : Nat → CStr → Option CStr
  getcwd : Nat → Option CStr
  getAvailableKbytes : Nat → CStr → Nat
  download : Nat → CStr → Option CStr
  verifyFile : Nat → CStr → CStr → Bool
  xsystem : Nat → CStr → Files → Int × Files
  time : Nat → Nat
  md5sum : CStr → CStr
  sha256sum : CStr → CStr
  /-- The files of the control archive of a package file, if it can be read. -/
  controlFiles : CStr → Option (List (CStr × CStr))
  /-- The entries of the data archive of a package file in their order, if it can be read. -/
  dataFiles : CStr → Option (List (CStr × Node))

/-- The parameters of a run. -/
structure Env extends Conf, Sys where
  qsort : Qsort

/-! ## Hash tables of files -/

/-- A `hash_table_t` from file names to packages, as the list of its entries. -/
abbrev FileHash := List (CStr × PkgId)

/-- `hash_table_get` -/
def FileHash.get : FileHash → CStr → Option PkgId
  | [], _ => none
  | (k, i) :: hash, key => if k = key then some i else FileHash.get hash key

/-- `hash_table_insert` -/
def FileHash.insert : FileHash → CStr → PkgId → FileHash
  | [], key, value => [(key, value)]
  | (k, i) :: hash, key, value =>
    if k = key then (k, value) :: hash else (k, i) :: FileHash.insert hash key value

/-- `hash_table_remove` -/
def FileHash.remove : FileHash → CStr → FileHash
  | [], _ => []
  | (k, i) :: hash, key => if k = key then hash else (k, i) :: FileHash.remove hash key

theorem FileHash.get_insert_self (hash : FileHash) (key : CStr) (value : PkgId) :
    (hash.insert key value).get key = some value := by
  induction hash with
  | nil => simp [insert, get]
  | cons e hash ih =>
      obtain ⟨k, i⟩ := e
      rw [insert]
      split
      · rename_i h
        rw [get, if_pos h]
      · rename_i h
        rw [get, if_neg h, ih]

theorem FileHash.get_insert_of_ne (hash : FileHash) {key key' : CStr} (value : PkgId)
    (h : key' ≠ key) : (hash.insert key value).get key' = hash.get key' := by
  induction hash with
  | nil => simp [insert, get, h.symm]
  | cons e hash ih =>
      obtain ⟨k, i⟩ := e
      rw [insert]
      split
      · rename_i hk
        have hne : k ≠ key' := by
          rintro rfl
          exact h hk
        rw [get, if_neg hne, get, if_neg hne]
      · rw [get, get, ih]

/-! ## The state -/

/-- The files, and the number of questions put to the outside so far. -/
structure Disk where
  files : Files
  asked : Nat

/-- An operation on files. -/
abbrev DiskOp (α : Type) := Op Disk α

/-- The state of a run. `names` are the keys of `conf->pkg_hash`. -/
structure World where
  db : Database
  names : List AbstractPkgId
  marks : Marks
  fileHash : FileHash
  obsFileHash : FileHash
  disk : Disk

/-- An operation of opkg. -/
abbrev Run (α : Type) := Op World α

/-- An operation on files leaves the rest of the state alone. -/
def onDisk {α : Type} (op : DiskOp α) : Run α := fun w =>
  (op w.disk).map fun r => (r.1, { w with disk := r.2 })

instance : MonadLift DiskOp Run := ⟨onDisk⟩

/-- The record behind a `pkg_t *`. -/
def getPkg (i : PkgId) : Run Pkg := do return (← get).db.pkg i

/-- Write the record behind a `pkg_t *`. -/
def modifyPkg (i : PkgId) (f : Pkg → Pkg) : Run PUnit :=
  modify fun w => { w with db := w.db.setPkg i (f (w.db.pkg i)) }

/-- Write the record behind an `abstract_pkg_t *`. -/
def modifyAbstractPkg (a : AbstractPkgId) (f : AbstractPkg → AbstractPkg) : Run PUnit :=
  modify fun w => { w with db := w.db.setAbstractPkg a (f (w.db.abstractPkg a)) }

theorem getPkg_eq_some {i : PkgId} {w : World} {r : Pkg × World} :
    getPkg i w = some r ↔ r = (w.db.pkg i, w) :=
  Op.pure_eq_some

theorem modifyPkg_eq_some {i : PkgId} {f : Pkg → Pkg} {w : World} {r : PUnit × World} :
    modifyPkg i f w = some r ↔ r = (⟨⟩, { w with db := w.db.setPkg i (f (w.db.pkg i)) }) :=
  Op.modify_eq_some

theorem getPkg_bind {α : Type} {i : PkgId} {f : Pkg → Run α} {w : World} :
    (getPkg i >>= f) w = f (w.db.pkg i) w := rfl

theorem modifyPkg_bind {α : Type} {i : PkgId} {g : Pkg → Pkg} {f : PUnit → Run α} {w : World} :
    (modifyPkg i g >>= f) w = f ⟨⟩ { w with db := w.db.setPkg i (g (w.db.pkg i)) } := rfl

theorem onDisk_eq_some {α : Type} {op : DiskOp α} {w : World} {a : α} {w' : World} :
    onDisk op w = some (a, w') ↔ ∃ disk, op w.disk = some (a, disk) ∧ w' = { w with disk } := by
  rw [onDisk, Option.map_eq_some_iff]
  constructor
  · rintro ⟨⟨a', disk⟩, hop, hr⟩
    obtain ⟨rfl, rfl⟩ := Prod.mk.inj hr
    exact ⟨disk, hop, rfl⟩
  · rintro ⟨disk, hop, rfl⟩
    exact ⟨(a, disk), hop, rfl⟩

/-! ## Files -/

variable (env : Env)

/-- `strip_offline_root` -/
def stripOfflineRoot (fileName : CStr) : CStr :=
  match env.offlineRoot with
  | some root => if root.isPrefixOf fileName then fileName.drop root.length else fileName
  | none => fileName

/-- `root_filename_alloc` -/
def rootFilenameAlloc (filename : CStr) : CStr := env.offlineRoot.getD [] ++ filename

/-- Ask the outside. -/
def ask {α : Type} (question : Nat → α) : DiskOp α := do
  let disk ← get
  modify fun disk => { disk with asked := disk.asked + 1 }
  return question disk.asked

/-- Put a node at a path, or nothing. -/
def setNode (path : CStr) (node : Option Node) : DiskOp PUnit :=
  modify fun disk => { disk with files := Function.update disk.files path node }

/-- `file_exists` -/
def fileExists (path : CStr) : DiskOp Bool := do return ((← get).files path).isSome

/-- `file_is_dir` -/
def fileIsDir (path : CStr) : DiskOp Bool := do return (← get).files path == some .dir

/-- `fopen` for reading: the bytes of a file. -/
def readFile (path : CStr) : DiskOp (Option CStr) := do
  let opened ← ask (env.succeeds · (.fopen path))
  match (← get).files path with
  | some (.file content) => return if opened then some content else none
  | _ => return none

/-- `fopen` for writing, the bytes, and `fclose`. -/
def writeFile (path content : CStr) : DiskOp Bool := do
  let opened ← ask (env.succeeds · (.fopen path))
  if opened ∧ (← get).files path ≠ some .dir then
    setNode path (some (.file content))
    return true
  else return false

/-- `unlink`: true if it succeeds. -/
def unlink (path : CStr) : DiskOp Bool := do
  let succeeded ← ask (env.succeeds · (.unlink path))
  match (← get).files path with
  | some (.file _) =>
    if succeeded then
      setNode path none
      return true
    else return false
  | _ => return false

/-- `rmdir`: true if it succeeds. Whether the directory is empty is for the outside to know. -/
def rmdir (path : CStr) : DiskOp Bool := do
  let succeeded ← ask (env.succeeds · (.rmdir path))
  match (← get).files path with
  | some .dir =>
    if succeeded then
      setNode path none
      return true
    else return false
  | _ => return false

/-- `file_copy` -/
def fileCopy (src dest : CStr) : DiskOp Int := do
  let succeeded ← ask (env.succeeds · (.copy src dest))
  match (← get).files src with
  | some (.file content) =>
    if succeeded ∧ src ≠ dest ∧ (← get).files dest ≠ some .dir then
      setNode dest (some (.file content))
      return 0
    else return -1
  | _ => return -1

/-- `rename` of a file, and `file_move`, which falls back to copying. -/
def fileMove (src dest : CStr) : DiskOp Int := do
  let succeeded ← ask (env.succeeds · (.rename src dest))
  match (← get).files src with
  | some (.file content) =>
    if succeeded ∧ (← get).files dest ≠ some .dir then
      setNode src none
      setNode dest (some (.file content))
      return 0
    else return -1
  | _ => return -1

/-- `file_md5sum_alloc` -/
def fileMd5sumAlloc (path : CStr) : DiskOp (Option CStr) := do
  return (← readFile env path).map env.md5sum

/-- `file_sha256sum_alloc` -/
def fileSha256sumAlloc (path : CStr) : DiskOp (Option CStr) := do
  return (← readFile env path).map env.sha256sum

/-- The lines `file_read_line_alloc` returns one by one. -/
def fileLines (content : CStr) : List CStr :=
  let parts := content.splitOn '\n'
  if parts.getLast? = some [] then parts.dropLast else parts

/-- **Lines one by one**: what stands before a newline is the first line. -/
theorem fileLines_append_newline {line : CStr} (h : '\n' ∉ line) (rest : CStr) :
    fileLines (line ++ '\n' :: rest) = line :: fileLines rest := by
  have hsplit := List.splitOn_append_cons_self_of_not_mem h rest
  have hne : rest.splitOn '\n' ≠ [] := List.splitOn_ne_nil _ _
  rw [fileLines, fileLines]
  simp only [hsplit, List.getLast?_cons_of_ne_nil hne]
  split
  · rw [List.dropLast_cons_of_ne_nil hne]
  · rfl

theorem fileLines_ne_nil (line : CStr) : fileLines (line ++ ['\n']) ≠ [] := by
  by_cases hmem : '\n' ∈ line
  · obtain ⟨before, after, rfl, hbefore⟩ := List.eq_append_cons_of_mem hmem
    rw [List.append_assoc, List.cons_append, fileLines_append_newline hbefore]
    exact List.cons_ne_nil _ _
  · rw [fileLines_append_newline hmem []]
    exact List.cons_ne_nil _ _

/-- What is read back as one line has no newline. -/
theorem length_fileLines_eq_one_iff (line : CStr) :
    (fileLines (line ++ ['\n'])).length = 1 ↔ '\n' ∉ line := by
  constructor
  · intro h hmem
    obtain ⟨before, after, rfl, hbefore⟩ := List.eq_append_cons_of_mem hmem
    rw [List.append_assoc, List.cons_append, fileLines_append_newline hbefore, List.length_cons,
      Nat.add_eq_right, List.length_eq_zero_iff] at h
    exact fileLines_ne_nil after h
  · intro h
    rw [fileLines_append_newline h []]
    rfl

/-! ## A plain machine -/

/-- Where everything is installed. -/
def rootDest : PkgDest where
  name := "root".toList
  rootDir := "/".toList
  opkgDir := "/opkg".toList
  listsDir := "/lists".toList
  infoDir := "/info".toList
  statusFileName := "/status".toList

/-- A machine on which every call succeeds. The data archive of each package file has the given
entries. -/
def plainEnv (dataFiles : List (CStr × Node)) : Env where
  archList := ["all".toList]
  defaultDest := rootDest
  tmpDir := "/tmp".toList
  succeeds _ _ := true
  mkdtemp _ _ := some "/tmp/d".toList
  getcwd _ := some "/".toList
  getAvailableKbytes _ _ := 1000
  download _ _ := none
  verifyFile _ _ _ := true
  xsystem _ _ files := (0, files)
  time _ := 0
  md5sum content := content
  sha256sum content := content
  controlFiles _ := some []
  dataFiles _ := some dataFiles
  qsort := insertionQsort

end FirmwareTools.Opkg

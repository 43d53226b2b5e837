import FirmwareTools.Opkg.CString

/-! # The package database of opkg

The records of `pkg.h`, `pkg_depends.h`, `pkg_src.h` and `pkg_dest.h`, and the heap they live in.

A `pkg_t *` is a `PkgId`. An `abstract_pkg_t *` is the name it is filed under in `conf->pkg_hash`
(`ensure_abstract_pkg_by_name` creates one abstract package per name), and a name nobody has asked
for yet reads as a fresh `abstract_pkg_new()`. Every pointer of the model can be followed: a
`NULL` is an `Option` where the source tests for it.

The `dependencies_checked` field of the abstract packages is kept beside the database, since it is
the only thing a dependency resolution writes. -/

namespace FirmwareTools.Opkg

/-- A `pkg_t *` -/
abbrev PkgId := Nat

/-- An `abstract_pkg_t *`, named by its key in `conf->pkg_hash`. -/
abbrev AbstractPkgId := CStr

/-- `enum pkg_state_want` -/
inductive StateWant
  | unknown | install | deinstall | purge
  deriving DecidableEq, Repr

/-- `enum pkg_state_flag`, a set of bits. -/
structure StateFlag where
  reinstreq : Bool := false
  hold : Bool := false
  replace : Bool := false
  noprune : Bool := false
  prefer : Bool := false
  obsolete : Bool := false
  marked : Bool := false
  filelistChanged : Bool := false
  user : Bool := false
  deriving DecidableEq, Repr

/-- `enum pkg_state_status` -/
inductive StateStatus
  | notInstalled | unpacked | halfConfigured | installed | halfInstalled | configFiles
  | postInstFailed | removalFailed
  deriving DecidableEq, Repr

/-- `enum depend_type` -/
inductive DependType
  | predepend | depend | conflicts | greedyDepend | recommend | suggest
  deriving DecidableEq, Repr

/-- `enum version_constraint` -/
inductive VersionConstraint
  | none | earlier | earlierEqual | equal | laterEqual | later
  deriving DecidableEq, Repr

/-- `struct depend` -/
structure Depend where
  constraint : VersionConstraint := .none
  version : Option CStr := none
  pkg : AbstractPkgId
  deriving DecidableEq, Repr

/-- `struct compound_depend`; `possibility_count` is the length of the list. -/
structure CompoundDepend where
  type : DependType
  possibilities : List Depend
  deriving DecidableEq, Repr

/-- `pkg_src_t` -/
structure PkgSrc where
  name : CStr
  value : CStr
  extraData : Option CStr := none
  gzip : Bool := false
  deriving DecidableEq, Repr

/-- `struct pkg_dest` -/
structure PkgDest where
  name : CStr
  rootDir : CStr
  opkgDir : CStr
  listsDir : CStr
  infoDir : CStr
  statusFileName : CStr
  deriving DecidableEq, Repr

/-- `conffile_t`: a file name and its recorded md5sum, `none` until it is known. -/
structure Conffile where
  name : CStr
  value : Option CStr
  deriving DecidableEq, Repr

/-- `struct pkg`, with the values of `pkg_new` as defaults. The `_str` lists hold the entries of a
field until they are resolved against the database. `depends` has
`preDependsCount + dependsCount + recommendsCount + suggestsCount` entries; `provides` is the array
that was allocated, `none` for `NULL`, and `providesCount` what the loops over it count to. -/
structure Pkg where
  name : CStr := []
  epoch : Nat := 0
  version : Option CStr := none
  revision : Option CStr := none
  src : Option PkgSrc := none
  dest : Option PkgDest := none
  architecture : Option CStr := none
  sectionName : Option CStr := none
  maintainer : Option CStr := none
  description : Option CStr := none
  tags : Option CStr := none
  stateWant : StateWant := .unknown
  stateFlag : StateFlag := {}
  stateStatus : StateStatus := .notInstalled
  dependsStr : List CStr := []
  dependsCount : Nat := 0
  preDependsStr : List CStr := []
  preDependsCount : Nat := 0
  recommendsStr : List CStr := []
  recommendsCount : Nat := 0
  suggestsStr : List CStr := []
  suggestsCount : Nat := 0
  depends : List CompoundDepend := []
  conflictsStr : List CStr := []
  conflicts : List CompoundDepend := []
  conflictsCount : Nat := 0
  replacesStr : List CStr := []
  replacesCount : Nat := 0
  replaces : List AbstractPkgId := []
  providesStr : List CStr := []
  providesCount : Nat := 0
  provides : Option (List AbstractPkgId) := none
  parent : Option AbstractPkgId := none
  filename : Option CStr := none
  localFilename : Option CStr := none
  tmpUnpackDir : Option CStr := none
  md5sum : Option CStr := none
  sha256sum : Option CStr := none
  size : Nat := 0
  installedSize : Nat := 0
  priority : Option CStr := none
  source : Option CStr := none
  conffiles : List Conffile := []
  installedTime : Nat := 0
  installedFiles : Option (List CStr) := none
  installedFilesRefCnt : Int := 0
  essential : Bool := false
  archPriority : Int := 0
  providedByHand : Bool := false
  autoInstalled : Bool := false
  deriving DecidableEq, Repr

/-- `pkg_new` -/
def pkgNew : Pkg := {}

/-- Installed or unpacked: the package's files are in place. -/
def Pkg.isInstalled (p : Pkg) : Bool :=
  p.stateStatus == .installed || p.stateStatus == .unpacked

/-- `struct abstract_pkg` without its name and its `dependencies_checked` field, with the values of
`abstract_pkg_new` as defaults. -/
structure AbstractPkg where
  pkgs : Option (List PkgId) := none
  stateStatus : StateStatus := .notInstalled
  stateFlag : StateFlag := {}
  dependedUponBy : List AbstractPkgId := []
  providedBy : List AbstractPkgId := []
  replacedBy : Option (List AbstractPkgId) := none
  deriving DecidableEq, Repr

/-- The heap: what each `pkg_t *` and each `abstract_pkg_t *` points to. -/
structure Database where
  pkg : PkgId → Pkg
  abstractPkg : AbstractPkgId → AbstractPkg

/-- Write the package record behind a pointer. -/
def Database.setPkg (db : Database) (i : PkgId) (p : Pkg) : Database :=
  { db with pkg := Function.update db.pkg i p }

/-- Write the abstract package behind a pointer. -/
def Database.setAbstractPkg (db : Database) (a : AbstractPkgId) (ab : AbstractPkg) : Database :=
  { db with abstractPkg := Function.update db.abstractPkg a ab }

@[simp] theorem Database.setPkg_pkg_self (db : Database) (i : PkgId) (p : Pkg) :
    (db.setPkg i p).pkg i = p := by
  simp [Database.setPkg]

theorem Database.setPkg_pkg_of_ne (db : Database) {i j : PkgId} (p : Pkg) (h : j ≠ i) :
    (db.setPkg i p).pkg j = db.pkg j := by
  simp [Database.setPkg, h]

@[simp] theorem Database.setPkg_abstractPkg (db : Database) (i : PkgId) (p : Pkg) :
    (db.setPkg i p).abstractPkg = db.abstractPkg := rfl

@[simp] theorem Database.setAbstractPkg_self (db : Database) (a : AbstractPkgId)
    (ab : AbstractPkg) : (db.setAbstractPkg a ab).abstractPkg a = ab := by
  simp [Database.setAbstractPkg]

theorem Database.setAbstractPkg_of_ne (db : Database) {a b : AbstractPkgId} (ab : AbstractPkg)
    (h : b ≠ a) : (db.setAbstractPkg a ab).abstractPkg b = db.abstractPkg b := by
  simp [Database.setAbstractPkg, h]

@[simp] theorem Database.setAbstractPkg_pkg (db : Database) (a : AbstractPkgId)
    (ab : AbstractPkg) : (db.setAbstractPkg a ab).pkg = db.pkg := rfl

/-! ## States by their names -/

/-- `pkg_state_want_from_str` -/
def pkgStateWantFromStr (s : CStr) : StateWant :=
  if s = "unknown".toList then .unknown
  else if s = "install".toList then .install
  else if s = "deinstall".toList then .deinstall
  else if s = "purge".toList then .purge
  else .unknown

/-- `pkg_state_flag_map`: the name of a flag and how it is set. -/
def pkgStateFlagMap : List (CStr × (StateFlag → StateFlag)) :=
  [("ok".toList, id),
    ("reinstreq".toList, fun sf => { sf with reinstreq := true }),
    ("hold".toList, fun sf => { sf with hold := true }),
    ("replace".toList, fun sf => { sf with replace := true }),
    ("noprune".toList, fun sf => { sf with noprune := true }),
    ("prefer".toList, fun sf => { sf with prefer := true }),
    ("obsolete".toList, fun sf => { sf with obsolete := true }),
    ("user".toList, fun sf => { sf with user := true })]

/-- The loop of `pkg_state_flag_from_str`: the names are looked for in the order of the map. -/
def stateFlagFromStr : List (CStr × (StateFlag → StateFlag)) → CStr → StateFlag → StateFlag
  | [], _, sf => sf
  | (sfname, set) :: map, str, sf =>
    if sfname.isPrefixOf str then
      let rest := str.drop sfname.length
      if rest.head? = some ',' then stateFlagFromStr map (rest.drop 1) (set sf) else set sf
    else stateFlagFromStr map str sf

/-- `pkg_state_flag_from_str` -/
def pkgStateFlagFromStr (str : CStr) : StateFlag :=
  if str = "ok".toList then {} else stateFlagFromStr pkgStateFlagMap str {}

/-- `pkg_state_status_map` -/
def pkgStateStatusMap : List (CStr × StateStatus) :=
  [("not-installed".toList, .notInstalled), ("unpacked".toList, .unpacked),
    ("half-configured".toList, .halfConfigured), ("installed".toList, .installed),
    ("half-installed".toList, .halfInstalled), ("config-files".toList, .configFiles),
    ("post-inst-failed".toList, .postInstFailed), ("removal-failed".toList, .removalFailed)]

/-- `pkg_state_status_from_str` -/
def pkgStateStatusFromStr (str : CStr) : StateStatus :=
  ((pkgStateStatusMap.find? fun entry => entry.1 == str).map Prod.snd).getD .notInstalled

end FirmwareTools.Opkg

import FirmwareTools.Opkg.Install

/-! # What installing and removing write

Most operations write only a few kinds of things: files, marks, fields of a package that do not say
what it is or whether it is installed, the lists of files and their owners. An operation that writes
certain kinds keeps every relation that allows writes of these kinds; the status of a package is none
of them. -/

namespace FirmwareTools.Opkg

open Op

/-! ## Kinds of writes -/

/-- What a write is to. -/
inductive Kind
  | disk
  | marks
  | minor
  | list (i : PkgId)
  | changed
  | owners
  | obsolete

/-- The fields of a package that say what it is and whether it is installed. The fields that
installing and removing it writes besides are set to their defaults, those of the list of its files
included. -/
def Pkg.major (p : Pkg) : Pkg :=
  { p with
    stateWant := .unknown
    stateFlag := {}
    dest := none
    localFilename := none
    tmpUnpackDir := none
    conffiles := []
    essential := false
    autoInstalled := false
    installedTime := 0
    installedFiles := none
    installedFilesRefCnt := 0 }

/-- The fields that are about the list of a package's files. -/
def Pkg.listing (p : Pkg) : Option (List CStr) × Int × Bool :=
  (p.installedFiles, p.installedFilesRefCnt, p.stateFlag.filelistChanged)

/-- A single write. -/
def Write : Kind → World → World → Prop
  | .disk, w, w' => ∃ disk, w' = { w with disk }
  | .marks, w, w' => ∃ marks, w' = { w with marks }
  | .minor, w, w' => ∃ i p, p.major = (w.db.pkg i).major ∧ p.listing = (w.db.pkg i).listing ∧
      w' = { w with db := w.db.setPkg i p }
  | .list i, w, w' => ∃ files cnt,
      w' = { w with db := w.db.setPkg i (((w.db.pkg i).withInstalledFiles files).withRefCnt cnt) }
  | .changed, w, w' => ∃ i changed,
      w' = { w with db := w.db.setPkg i ((w.db.pkg i).withFilelistChanged changed) }
  | .owners, w, w' => ∃ fileHash, w' = { w with fileHash }
  | .obsolete, w, w' => ∃ obsFileHash, w' = { w with obsFileHash }

/-- A relation between states that holds across every write of a kind. -/
def Allows (R : World → World → Prop) (k : Kind) : Prop := ∀ w w', Write k w w' → R w w'

variable {env : Env} {R : World → World → Prop}

theorem keeps_onDisk (hdisk : Allows R .disk) {α : Type} (op : DiskOp α) :
    Keeps R (onDisk op) := by
  intro w a w' h
  obtain ⟨r, -, hr⟩ := Option.map_eq_some_iff.mp h
  obtain ⟨-, rfl⟩ := Prod.mk.inj hr
  exact hdisk _ _ ⟨r.2, rfl⟩

theorem keeps_liftM (hdisk : Allows R .disk) {α : Type} (op : DiskOp α) :
    Keeps R (liftM op : Run α) := keeps_onDisk hdisk op

theorem keeps_getPkg (hR : Frame R) (i : PkgId) : Keeps R (getPkg i) :=
  Keeps.bind hR (Keeps.get hR) fun _ => Keeps.pure hR _

theorem keeps_modifyPkg_minor (hminor : Allows R .minor) (i : PkgId) {f : Pkg → Pkg}
    (hmajor : ∀ p, (f p).major = p.major) (hlisting : ∀ p, (f p).listing = p.listing) :
    Keeps R (modifyPkg i f) :=
  Keeps.modify fun w => hminor _ _ ⟨i, f (w.db.pkg i), hmajor _, hlisting _, rfl⟩

theorem keeps_modifyPkg_list {i : PkgId} (hlist : Allows R (.list i)) {f : Pkg → Pkg}
    (hf : ∀ p, ∃ files cnt, f p = (p.withInstalledFiles files).withRefCnt cnt) :
    Keeps R (modifyPkg i f) :=
  Keeps.modify fun w => by
    obtain ⟨files, cnt, h⟩ := hf (w.db.pkg i)
    exact hlist _ _ ⟨files, cnt, by rw [h]⟩

theorem keeps_modifyPkg_changed (hchanged : Allows R .changed) (i : PkgId) (b : Bool) :
    Keeps R (modifyPkg i fun p => p.withFilelistChanged b) :=
  Keeps.modify fun _ => hchanged _ _ ⟨i, b, rfl⟩

/-! ## Files of packages -/

theorem keeps_pkgGetInstalledFiles (hR : Frame R)
    (hload : ∀ pkg, Keeps R (onDisk (loadInstalledFiles env pkg))) {i : PkgId}
    (hlist : Allows R (.list i)) : Keeps R (pkgGetInstalledFiles env i) := by
  refine Keeps.bind hR (keeps_modifyPkg_list hlist fun p => ⟨p.installedFiles, _, rfl⟩) fun _ => ?_
  refine Keeps.bind hR (keeps_getPkg hR i) fun pkg => ?_
  split
  · exact Keeps.pure hR _
  · refine Keeps.bind hR (hload pkg) fun files => ?_
    refine Keeps.bind hR (keeps_modifyPkg_list hlist fun p => ⟨files, _, rfl⟩) fun _ => ?_
    exact Keeps.pure hR _

theorem keeps_pkgFreeInstalledFiles {i : PkgId} (hlist : Allows R (.list i)) :
    Keeps R (pkgFreeInstalledFiles i) :=
  keeps_modifyPkg_list hlist fun p => by
    dsimp only
    split
    · exact ⟨p.installedFiles, _, rfl⟩
    · exact ⟨none, _, rfl⟩

theorem keeps_fileHashGetFileOwner (hR : Frame R) (fileName : CStr) :
    Keeps R (fileHashGetFileOwner env fileName) :=
  Keeps.bind hR (Keeps.get hR) fun _ => Keeps.pure hR _

theorem keeps_fileHashRemove (howners : Allows R .owners) (fileName : CStr) :
    Keeps R (fileHashRemove env fileName) :=
  Keeps.modify fun _ => howners _ _ ⟨_, rfl⟩

theorem keeps_obsFileHashGet (hR : Frame R) (fileName : CStr) :
    Keeps R (obsFileHashGet fileName) :=
  Keeps.bind hR (Keeps.get hR) fun _ => Keeps.pure hR _

theorem keeps_obsFileHashInsert (hobsolete : Allows R .obsolete) (fileName : CStr) (i : PkgId) :
    Keeps R (obsFileHashInsert fileName i) :=
  Keeps.modify fun _ => hobsolete _ _ ⟨_, rfl⟩

theorem keeps_dropFromOldOwner (hR : Frame R)
    (hload : ∀ pkg, Keeps R (onDisk (loadInstalledFiles env pkg))) {old : PkgId}
    (hlist : Allows R (.list old)) (hchanged : Allows R .changed) (fileName : CStr)
    (owningPkg : PkgId) : Keeps R (dropFromOldOwner env fileName old owningPkg) := by
  refine Keeps.bind hR (keeps_pkgGetInstalledFiles hR hload hlist) fun files => ?_
  refine Keeps.bind hR (Keeps.deref hR files) fun files => ?_
  refine Keeps.bind hR (keeps_modifyPkg_list hlist fun p =>
    ⟨some (files.erase fileName), p.installedFilesRefCnt, rfl⟩) fun _ => ?_
  refine Keeps.bind hR (keeps_pkgFreeInstalledFiles hlist) fun _ => ?_
  refine Keeps.bind hR (keeps_modifyPkg_changed hchanged old true) fun _ => ?_
  exact keeps_modifyPkg_changed hchanged owningPkg true

theorem keeps_fileHashSetFileOwner (hR : Frame R)
    (hload : ∀ pkg, Keeps R (onDisk (loadInstalledFiles env pkg)))
    (hlist : ∀ i, Allows R (.list i)) (hchanged : Allows R .changed) (howners : Allows R .owners)
    (fileName : CStr) (owningPkg : PkgId) :
    Keeps R (fileHashSetFileOwner env fileName owningPkg) := by
  unfold fileHashSetFileOwner
  refine Keeps.ite (Keeps.pure hR _) ?_
  refine Keeps.bind hR (keeps_fileHashGetFileOwner hR fileName) fun oldOwningPkg => ?_
  refine Keeps.bind hR (Keeps.modify fun _ => howners _ _ ⟨_, rfl⟩) fun _ => ?_
  split
  · exact Keeps.pure hR _
  · exact keeps_dropFromOldOwner hR hload (hlist _) hchanged _ owningPkg

theorem keeps_pkgWriteFilelist (hR : Frame R) (hdisk : Allows R .disk)
    (hchanged : Allows R .changed) (i : PkgId) : Keeps R (pkgWriteFilelist env i) := by
  refine Keeps.bind hR (keeps_getPkg hR i) fun pkg => ?_
  refine Keeps.bind hR (Keeps.deref hR _) fun dest => ?_
  refine Keeps.bind hR (Keeps.get hR) fun w => ?_
  refine Keeps.bind hR (keeps_liftM hdisk _) fun written => ?_
  refine Keeps.ite ?_ (Keeps.pure hR _)
  exact Keeps.bind hR (keeps_modifyPkg_changed hchanged i false) fun _ => Keeps.pure hR _

/-! ## Removing the files of a package -/

theorem keeps_removeDataFile (hR : Frame R) (hdisk : Allows R .disk) (howners : Allows R .owners)
    (i : PkgId) (fileName : CStr) : Keeps R (removeDataFile env i fileName) := by
  unfold removeDataFile
  refine Keeps.bind hR (keeps_fileHashGetFileOwner hR fileName) fun owner => ?_
  refine Keeps.ite (Keeps.pure hR _) ?_
  refine Keeps.bind hR (keeps_liftM hdisk _) fun isDir => ?_
  refine Keeps.ite (Keeps.pure hR _) ?_
  refine Keeps.bind hR (keeps_getPkg hR i) fun pkg => ?_
  extract_lets last rest
  have hlast : Keeps R (last ()) :=
    Keeps.bind hR (keeps_fileHashRemove howners fileName) fun _ => Keeps.pure hR _
  have hrest : ∀ modified, Keeps R (rest modified) := by
    intro modified
    refine Keeps.ite (Keeps.pure hR _) ?_
    split
    · exact Keeps.bind hR (keeps_liftM hdisk _) fun _ => hlast
    · exact hlast
  split
  · exact Keeps.bind hR (keeps_liftM hdisk _) hrest
  · exact hrest false

theorem keeps_removeDataFilesAndList (hR : Frame R) (hdisk : Allows R .disk)
    (howners : Allows R .owners) {i : PkgId} (hlist : Allows R (.list i)) :
    Keeps R (removeDataFilesAndList env i) := by
  unfold removeDataFilesAndList
  refine Keeps.bind hR (keeps_pkgGetInstalledFiles hR (fun _ => keeps_onDisk hdisk _) hlist)
    fun files => ?_
  split
  · exact Keeps.pure hR _
  · refine Keeps.bind hR (Keeps.foldlM hR (fun dirs fileName _ => ?_) _) fun installedDirs => ?_
    · exact Keeps.bind hR (keeps_removeDataFile hR hdisk howners i fileName) fun _ => Keeps.pure hR _
    · extract_lets rest
      have hrest : Keeps R (rest ()) := by
        refine Keeps.bind hR (keeps_pkgFreeInstalledFiles hlist) fun _ => ?_
        refine Keeps.bind hR (keeps_getPkg hR i) fun pkg => ?_
        refine Keeps.bind hR (Keeps.deref hR _) fun dest => ?_
        refine Keeps.ite ?_ (Keeps.pure hR _)
        exact Keeps.bind hR (keeps_liftM hdisk _) fun _ => Keeps.pure hR _
      split
      · exact Keeps.bind hR (keeps_liftM hdisk _) fun _ => hrest
      · exact hrest

/-! ## Before the dependencies -/

theorem keeps_checkConflictsFor (hR : Frame R) (i : PkgId) : Keeps R (checkConflictsFor env i) := by
  unfold checkConflictsFor
  refine Keeps.ite (Keeps.pure hR _) ?_
  refine Keeps.bind hR (Keeps.get hR) fun w => ?_
  exact Keeps.bind hR (Keeps.deref hR _) fun conflicts => Keeps.pure hR _

theorem keeps_opkgInstallCheckDowngrade (hR : Frame R) (hminor : Allows R .minor) (i : PkgId)
    (oldPkg : Option PkgId) : Keeps R (opkgInstallCheckDowngrade env i oldPkg) := by
  unfold opkgInstallCheckDowngrade
  refine Keeps.bind hR (keeps_getPkg hR i) fun pkg => ?_
  split
  · rename_i old
    refine Keeps.bind hR (keeps_getPkg hR old) fun old => ?_
    extract_lets cmp rest
    have hrest : Keeps R (rest ()) := by
      refine Keeps.ite ?_ (Keeps.pure hR _)
      refine Keeps.bind hR ?_ fun _ => Keeps.pure hR _
      exact keeps_modifyPkg_minor hminor i (fun _ => rfl) fun _ => rfl
    split
    · exact Keeps.bind hR (Keeps.deref hR _) fun _ => hrest
    · exact hrest
  · extract_lets rest
    split
    · exact Keeps.bind hR (Keeps.deref hR _) fun _ => Keeps.pure hR _
    · exact Keeps.pure hR _

theorem keeps_opkgDownloadPkg (hR : Frame R) (hdisk : Allows R .disk) (hminor : Allows R .minor)
    (i : PkgId) (dir : CStr) : Keeps R (opkgDownloadPkg env i dir) := by
  unfold opkgDownloadPkg
  refine Keeps.bind hR (keeps_getPkg hR i) fun pkg => ?_
  split
  · refine Keeps.bind hR ?_ fun _ => keeps_liftM hdisk _
    exact keeps_modifyPkg_minor hminor i (fun _ => rfl) fun _ => rfl
  · exact Keeps.pure hR _

theorem keeps_downloadPkgFile (hR : Frame R) (hdisk : Allows R .disk) (hminor : Allows R .minor)
    (i : PkgId) : Keeps R (downloadPkgFile env i) := by
  unfold downloadPkgFile
  refine Keeps.bind hR (keeps_getPkg hR i) fun pkg => ?_
  refine Keeps.ite (Keeps.pure hR _) (Keeps.ite ?_ (keeps_opkgDownloadPkg hR hdisk hminor i _))
  refine Keeps.bind hR (keeps_liftM hdisk _) fun cwd => ?_
  split
  · exact keeps_opkgDownloadPkg hR hdisk hminor i _
  · exact Keeps.pure hR _

theorem keeps_obtainPkgFile (hR : Frame R) (hdisk : Allows R .disk) (hminor : Allows R .minor)
    (i : PkgId) : Keeps R (obtainPkgFile env i) := by
  unfold obtainPkgFile
  refine Keeps.bind hR (keeps_getPkg hR i) fun pkg => ?_
  refine Keeps.bind hR (keeps_liftM hdisk _) fun err => ?_
  refine Keeps.ite (Keeps.pure hR _) ?_
  refine Keeps.bind hR (keeps_downloadPkgFile hR hdisk hminor i) fun err => ?_
  refine Keeps.ite (Keeps.pure hR _) ?_
  refine Keeps.bind hR (keeps_getPkg hR i) fun pkg => ?_
  refine Keeps.bind hR (keeps_liftM hdisk _) fun err => ?_
  refine Keeps.ite (Keeps.pure hR _) ?_
  exact Keeps.bind hR (keeps_getPkg hR i) fun pkg => keeps_liftM hdisk _

theorem keeps_readConffiles (hR : Frame R) (hdisk : Allows R .disk) (hminor : Allows R .minor)
    (i : PkgId) (dir : CStr) : Keeps R (readConffiles env i dir) := by
  unfold readConffiles
  refine Keeps.bind hR (keeps_getPkg hR i) fun pkg => ?_
  refine Keeps.ite (Keeps.pure hR _) ?_
  refine Keeps.bind hR (keeps_liftM hdisk _) fun present => ?_
  refine Keeps.ite (Keeps.pure hR _) ?_
  refine Keeps.bind hR (keeps_liftM hdisk _) fun content => ?_
  split
  · exact Keeps.pure hR _
  · refine Keeps.ite (Keeps.pure hR _) ?_
    refine Keeps.bind hR (Keeps.deref hR _) fun dest => ?_
    refine Keeps.bind hR ?_ fun _ => Keeps.pure hR _
    exact keeps_modifyPkg_minor hminor i (fun _ => rfl) fun _ => rfl

theorem keeps_unpackPkg (hR : Frame R) (hdisk : Allows R .disk) (hminor : Allows R .minor)
    (i : PkgId) : Keeps R (unpackPkg env i) := by
  unfold unpackPkg
  refine Keeps.bind hR (keeps_getPkg hR i) fun pkg => ?_
  refine Keeps.ite ?_ (Keeps.pure hR _)
  unfold unpackPkgControlFiles
  refine Keeps.bind hR (keeps_getPkg hR i) fun pkg => ?_
  refine Keeps.bind hR (keeps_liftM hdisk _) fun dir => ?_
  split
  · refine Keeps.bind hR ?_ fun _ => Keeps.pure hR _
    exact keeps_modifyPkg_minor hminor i (fun _ => rfl) fun _ => rfl
  · refine Keeps.bind hR (keeps_liftM hdisk _) fun _ => ?_
    refine Keeps.bind hR ?_ fun _ => ?_
    · exact keeps_modifyPkg_minor hminor i (fun _ => rfl) fun _ => rfl
    · refine Keeps.bind hR (keeps_getPkg hR i) fun pkg => ?_
      refine Keeps.bind hR (keeps_liftM hdisk _) fun err => ?_
      exact Keeps.ite (Keeps.pure hR _) (keeps_readConffiles hR hdisk hminor i _)

theorem keeps_preparePkg (hR : Frame R) (hdisk : Allows R .disk) (hminor : Allows R .minor)
    (i : PkgId) (oldPkg : Option PkgId) : Keeps R (preparePkg env i oldPkg) := by
  unfold preparePkg
  refine Keeps.bind hR ?_ fun _ => ?_
  · exact keeps_modifyPkg_minor hminor i (fun _ => rfl) fun _ => rfl
  refine Keeps.bind hR (Keeps.forM hR fun old _ => ?_) fun _ => ?_
  · exact keeps_modifyPkg_minor hminor old (fun _ => rfl) fun _ => rfl
  refine Keeps.bind hR (keeps_checkConflictsFor hR i) fun err => ?_
  refine Keeps.ite (Keeps.pure hR _) ?_
  refine Keeps.bind hR (keeps_getPkg hR i) fun pkg => ?_
  refine Keeps.ite (Keeps.pure hR _) ?_
  refine Keeps.bind hR (keeps_obtainPkgFile hR hdisk hminor i) fun err => ?_
  refine Keeps.ite (Keeps.pure hR _) (Keeps.ite (Keeps.pure hR _) ?_)
  exact Keeps.bind hR (keeps_unpackPkg hR hdisk hminor i) fun err => Keeps.pure hR _

/-- **Before it takes over files** `opkg_install_pkg` writes files and minor fields only. -/
theorem keeps_beforeOwnership (hR : Frame R) (hdisk : Allows R .disk) (hminor : Allows R .minor)
    (i : PkgId) : Keeps R (beforeOwnership env i) := by
  unfold beforeOwnership
  refine Keeps.bind hR (keeps_getPkg hR i) fun pkg => ?_
  refine Keeps.ite (Keeps.pure hR _) (Keeps.ite (Keeps.pure hR _) ?_)
  refine Keeps.bind hR ?_ fun _ => ?_
  · exact keeps_modifyPkg_minor hminor i (fun _ => rfl) fun _ => rfl
  refine Keeps.bind hR (Keeps.get hR) fun w => ?_
  refine Keeps.bind hR (keeps_opkgInstallCheckDowngrade hR hminor i _) fun err => ?_
  exact Keeps.ite (Keeps.pure hR _) (keeps_preparePkg hR hdisk hminor i _)

/-! ## Reading files -/

/-- No file has changed. -/
def SameFiles (disk disk' : Disk) : Prop := disk'.files = disk.files

theorem sameFiles_frame : Frame SameFiles where
  refl _ := rfl
  trans h h' := h'.trans h

theorem ask_sameFiles {α : Type} (question : Nat → α) : Keeps SameFiles (ask question) := by
  intro disk r disk' h
  obtain ⟨-, rfl⟩ := Prod.mk.inj (Option.some.inj h)
  rfl

theorem fileExists_sameFiles (path : CStr) : Keeps SameFiles (fileExists path) :=
  Keeps.bind sameFiles_frame (Keeps.get sameFiles_frame) fun _ => Keeps.pure sameFiles_frame _

theorem fileIsDir_sameFiles (path : CStr) : Keeps SameFiles (fileIsDir path) :=
  Keeps.bind sameFiles_frame (Keeps.get sameFiles_frame) fun _ => Keeps.pure sameFiles_frame _

theorem readFile_sameFiles (path : CStr) : Keeps SameFiles (readFile env path) := by
  refine Keeps.bind sameFiles_frame (ask_sameFiles _) fun opened => ?_
  refine Keeps.bind sameFiles_frame (Keeps.get sameFiles_frame) fun disk => ?_
  split
  · exact Keeps.pure sameFiles_frame _
  · exact Keeps.pure sameFiles_frame _

theorem pkgExtractDataFileNames_sameFiles (localFilename : CStr) :
    Keeps SameFiles (pkgExtractDataFileNames env localFilename) := by
  refine Keeps.bind sameFiles_frame (ask_sameFiles _) fun extracted => ?_
  refine Keeps.bind sameFiles_frame (readFile_sameFiles localFilename) fun archive => ?_
  split
  · exact Keeps.pure sameFiles_frame _
  · exact Keeps.pure sameFiles_frame _

theorem loadInstalledFiles_sameFiles (pkg : Pkg) : Keeps SameFiles (loadInstalledFiles env pkg) := by
  have hR := sameFiles_frame
  unfold loadInstalledFiles
  split
  · split
    · split
      · exact Keeps.pure hR _
      · refine Keeps.bind hR (ask_sameFiles _) fun opened => Keeps.ite (Keeps.pure hR _) ?_
        exact Keeps.bind hR (pkgExtractDataFileNames_sameFiles _) fun names => Keeps.pure hR _
    · refine Keeps.bind hR (readFile_sameFiles _) fun content => ?_
      split
      · exact Keeps.pure hR _
      · exact Keeps.pure hR _
  · split
    · exact Keeps.pure hR _
    · refine Keeps.bind hR (ask_sameFiles _) fun opened => Keeps.ite (Keeps.pure hR _) ?_
      refine Keeps.bind hR (pkgExtractDataFileNames_sameFiles _) fun names => ?_
      split
      · exact Keeps.pure hR _
      · exact Keeps.pure hR _
      · exact Keeps.stop

/-- A relation that allows writes to the lists of files and to their owners, but not to files. -/
structure AllowsReads (R : World → World → Prop) : Prop where
  frame : Frame R
  read : ∀ w disk, SameFiles w.disk disk → R w { w with disk }
  list : ∀ i, Allows R (.list i)
  changed : Allows R .changed
  owners : Allows R .owners

theorem AllowsReads.onDisk (h : AllowsReads R) {α : Type} {op : DiskOp α}
    (hop : Keeps SameFiles op) : Keeps R (onDisk op) := by
  intro w a w' hrun
  obtain ⟨disk, hdisk, rfl⟩ := onDisk_eq_some.mp hrun
  exact h.read w disk (hop _ _ _ hdisk)

theorem AllowsReads.fileHashSetFileOwner (h : AllowsReads R) (fileName : CStr) (owningPkg : PkgId) :
    Keeps R (fileHashSetFileOwner env fileName owningPkg) :=
  keeps_fileHashSetFileOwner h.frame (fun pkg => h.onDisk (loadInstalledFiles_sameFiles pkg)) h.list
    h.changed h.owners fileName owningPkg

theorem AllowsReads.pkgGetInstalledFiles (h : AllowsReads R) (i : PkgId) :
    Keeps R (pkgGetInstalledFiles env i) :=
  keeps_pkgGetInstalledFiles h.frame (fun pkg => h.onDisk (loadInstalledFiles_sameFiles pkg)) (h.list i)

theorem AllowsReads.checkDataFile (h : AllowsReads R) (i : PkgId) (oldPkg : Option PkgId)
    (clashes : Nat) (filename : CStr) : Keeps R (checkDataFile env i oldPkg clashes filename) := by
  unfold Opkg.checkDataFile
  refine Keeps.bind h.frame (h.onDisk (fileExists_sameFiles filename)) fun present => ?_
  refine Keeps.bind h.frame (h.onDisk (fileIsDir_sameFiles filename)) fun isDir => ?_
  refine Keeps.ite (Keeps.pure h.frame _) ?_
  refine Keeps.bind h.frame (h.onDisk (fileExists_sameFiles _)) fun backup => ?_
  refine Keeps.ite (Keeps.pure h.frame _) (Keeps.ite ?_ ?_)
  · exact Keeps.bind h.frame (h.fileHashSetFileOwner filename i) fun _ => Keeps.pure h.frame _
  · refine Keeps.bind h.frame (keeps_fileHashGetFileOwner h.frame filename) fun owner => ?_
    extract_lets rest
    have hrest : ∀ allowed, Keeps R (rest allowed) := by
      intro allowed
      refine Keeps.ite (Keeps.pure h.frame _) ?_
      refine Keeps.bind h.frame (keeps_obsFileHashGet h.frame filename) fun obs => ?_
      exact Keeps.ite (Keeps.pure h.frame _) (Keeps.pure h.frame _)
    split
    · refine Keeps.bind h.frame (Keeps.get h.frame) fun w => ?_
      exact Keeps.bind h.frame (Keeps.deref h.frame _) hrest
    · exact hrest false

/-- **`check_data_file_clashes` changes no file.** -/
theorem AllowsReads.checkDataFileClashes (h : AllowsReads R) (i : PkgId) (oldPkg : Option PkgId) :
    Keeps R (checkDataFileClashes env i oldPkg) := by
  unfold Opkg.checkDataFileClashes
  refine Keeps.bind h.frame (h.pkgGetInstalledFiles i) fun files => ?_
  split
  · exact Keeps.pure h.frame _
  · refine Keeps.bind h.frame
      (Keeps.foldlM h.frame (fun clashes file _ => h.checkDataFile i oldPkg clashes file) _)
      fun clashes => ?_
    exact Keeps.bind h.frame (keeps_pkgFreeInstalledFiles (h.list i)) fun _ => Keeps.pure h.frame _

/-! ## Ownership -/

/-- A relation that allows every kind of write. -/
structure AllowsAll (R : World → World → Prop) : Prop where
  frame : Frame R
  allows : ∀ k, Allows R k

theorem AllowsAll.reads (h : AllowsAll R) : AllowsReads R where
  frame := h.frame
  read w disk _ := h.allows .disk w _ ⟨disk, rfl⟩
  list _ := h.allows _
  changed := h.allows _
  owners := h.allows _

theorem AllowsAll.fileHashSetFileOwner (h : AllowsAll R) (fileName : CStr) (owningPkg : PkgId) :
    Keeps R (fileHashSetFileOwner env fileName owningPkg) :=
  h.reads.fileHashSetFileOwner fileName owningPkg

theorem AllowsAll.pkgGetInstalledFiles (h : AllowsAll R) (i : PkgId) :
    Keeps R (pkgGetInstalledFiles env i) :=
  h.reads.pkgGetInstalledFiles i

theorem AllowsAll.pkgFreeInstalledFiles (h : AllowsAll R) (i : PkgId) :
    Keeps R (pkgFreeInstalledFiles i) :=
  keeps_pkgFreeInstalledFiles (h.allows _)

theorem AllowsAll.liftM (h : AllowsAll R) {α : Type} (op : DiskOp α) :
    Keeps R (MonadLiftT.monadLift op : Run α) :=
  keeps_liftM (h.allows _) op

theorem AllowsAll.minor (h : AllowsAll R) (i : PkgId) {f : Pkg → Pkg}
    (hmajor : ∀ p, (f p).major = p.major) (hlisting : ∀ p, (f p).listing = p.listing) :
    Keeps R (modifyPkg i f) :=
  keeps_modifyPkg_minor (h.allows _) i hmajor hlisting

theorem AllowsAll.claimFile (h : AllowsAll R) (newPkg : PkgId) (oldPkg : Option PkgId)
    (newFile : CStr) : Keeps R (claimFile env newPkg oldPkg newFile) := by
  unfold Opkg.claimFile
  refine Keeps.bind h.frame (keeps_fileHashGetFileOwner h.frame newFile) fun owner => ?_
  refine Keeps.bind h.frame (keeps_obsFileHashGet h.frame newFile) fun obs => ?_
  exact Keeps.ite (h.fileHashSetFileOwner newFile newPkg) (Keeps.pure h.frame _)

theorem AllowsAll.obsoleteFile (h : AllowsAll R) (oldPkg : PkgId) (oldFile : CStr) :
    Keeps R (obsoleteFile env oldPkg oldFile) := by
  unfold Opkg.obsoleteFile
  refine Keeps.bind h.frame (keeps_fileHashGetFileOwner h.frame oldFile) fun owner => ?_
  exact Keeps.ite (keeps_obsFileHashInsert (h.allows _) oldFile oldPkg) (Keeps.pure h.frame _)

theorem AllowsAll.updateFileOwnership (h : AllowsAll R) (newPkg : PkgId) (oldPkg : Option PkgId) :
    Keeps R (updateFileOwnership env newPkg oldPkg) := by
  unfold Opkg.updateFileOwnership
  refine Keeps.bind h.frame (h.pkgGetInstalledFiles newPkg) fun newList => ?_
  split
  · exact Keeps.pure h.frame _
  · refine Keeps.bind h.frame (Keeps.forM h.frame fun file _ => h.claimFile newPkg oldPkg file)
      fun _ => ?_
    split
    · rename_i old
      unfold obsoleteFiles
      refine Keeps.bind h.frame (h.pkgGetInstalledFiles old) fun oldList => ?_
      split
      · exact Keeps.bind h.frame (h.pkgFreeInstalledFiles newPkg) fun _ => Keeps.pure h.frame _
      · refine Keeps.bind h.frame (Keeps.forM h.frame fun file _ => h.obsoleteFile old file)
          fun _ => ?_
        refine Keeps.bind h.frame (h.pkgFreeInstalledFiles old) fun _ => ?_
        exact Keeps.bind h.frame (h.pkgFreeInstalledFiles newPkg) fun _ => Keeps.pure h.frame _
    · exact Keeps.bind h.frame (h.pkgFreeInstalledFiles newPkg) fun _ => Keeps.pure h.frame _

theorem AllowsAll.beforeDependencies (h : AllowsAll R) (i : PkgId) :
    Keeps R (beforeDependencies env i) := by
  unfold Opkg.beforeDependencies
  refine Keeps.bind h.frame (keeps_beforeOwnership h.frame (h.allows _) (h.allows _) i)
    fun progressed => ?_
  split
  · exact Keeps.bind h.frame (h.updateFileOwnership i _) fun err => Keeps.pure h.frame _
  · exact Keeps.pure h.frame _

/-! ## From the dependencies on -/

section Nested

variable {installPkg removePkg : PkgId → Run Int}

theorem keeps_installDepends (hR : Frame R) (hminor : Allows R .minor) {depends : List PkgId}
    (hinstall : ∀ dep ∈ depends, Keeps R (installPkg dep)) :
    Keeps R (installDepends installPkg depends) := by
  induction depends with
  | nil => exact Keeps.pure hR _
  | cons dep depends ih =>
      have hrest := ih fun dep hdep => hinstall dep (List.mem_cons_of_mem _ hdep)
      unfold installDepends
      refine Keeps.bind hR (keeps_getPkg hR dep) fun pkg => ?_
      refine Keeps.ite hrest ?_
      refine Keeps.bind hR (hinstall dep List.mem_cons_self) fun err => ?_
      refine Keeps.bind hR ?_ fun _ => Keeps.ite (Keeps.pure hR _) hrest
      exact keeps_modifyPkg_minor hminor dep (fun _ => rfl) fun _ => rfl

theorem keeps_wantInstalled (hR : Frame R) (hminor : Allows R .minor) (i dep : PkgId) :
    Keeps R (wantInstalled i dep) := by
  refine Keeps.bind hR (keeps_getPkg hR i) fun pkg => ?_
  exact keeps_modifyPkg_minor hminor dep (fun _ => rfl) fun _ => rfl

/-- The installations a resolution leads to are those of the packages it returns. -/
theorem satisfyDependenciesFor_run (hR : Frame R) (hmarks : Allows R .marks)
    (hminor : Allows R .minor) {i : PkgId} {w w' : World} {rc : Int}
    (hinstall : ∀ r, w.resolve env i = some r → ∀ dep ∈ r.unsatisfied, Keeps R (installPkg dep))
    (hrun : satisfyDependenciesFor env installPkg i w = some (rc, w')) : R w w' := by
  unfold satisfyDependenciesFor at hrun
  rw [get_bind] at hrun
  obtain ⟨r, w₁, hderef, hrest⟩ := bind_eq_some.mp hrun
  obtain ⟨_, hresolve, hr⟩ := deref_eq_some.mp hderef
  obtain ⟨rfl, rfl⟩ := Prod.mk.inj hr
  refine (?_ : Keeps R _) _ _ _ hrest
  refine Keeps.bind hR (Keeps.modify fun _ => hmarks _ _ ⟨_, rfl⟩) fun _ => ?_
  refine Keeps.ite (Keeps.pure hR _) (Keeps.ite (Keeps.pure hR _) ?_)
  refine Keeps.bind hR (Keeps.forM hR fun dep _ => keeps_wantInstalled hR hminor i dep) fun _ => ?_
  exact keeps_installDepends hR hminor (hinstall r hresolve)

theorem keeps_satisfyDependenciesFor (hR : Frame R) (hmarks : Allows R .marks)
    (hminor : Allows R .minor) (i : PkgId) (hinstall : ∀ dep, Keeps R (installPkg dep)) :
    Keeps R (satisfyDependenciesFor env installPkg i) := fun _ _ _ hrun =>
  satisfyDependenciesFor_run hR hmarks hminor (fun _ _ dep _ => hinstall dep) hrun

theorem keeps_flagReplace (hminor : Allows R .minor) (i : PkgId) : Keeps R (flagReplace i) :=
  keeps_modifyPkg_minor hminor i (fun _ => rfl) fun _ => rfl

theorem keeps_pkgRemoveInstalledReplacees (hR : Frame R) (hminor : Allows R .minor)
    {replacees : List PkgId} (hremove : ∀ i ∈ replacees, Keeps R (removePkg i)) :
    Keeps R (pkgRemoveInstalledReplacees removePkg replacees) := by
  induction replacees with
  | nil => exact Keeps.pure hR _
  | cons replacee replacees ih =>
      unfold pkgRemoveInstalledReplacees
      refine Keeps.bind hR (keeps_flagReplace hminor replacee) fun _ => ?_
      refine Keeps.bind hR (hremove replacee List.mem_cons_self) fun err => ?_
      exact Keeps.ite (Keeps.pure hR _) (ih fun i hi => hremove i (List.mem_cons_of_mem _ hi))

theorem keeps_pkgRemoveInstalledReplaceesUnwind (hR : Frame R) {replacees : List PkgId}
    (hinstall : ∀ i ∈ replacees, Keeps R (installPkg i)) :
    Keeps R (pkgRemoveInstalledReplaceesUnwind installPkg replacees) := by
  induction replacees with
  | nil => exact Keeps.pure hR _
  | cons replacee replacees ih =>
      have hrest := ih fun i hi => hinstall i (List.mem_cons_of_mem _ hi)
      unfold pkgRemoveInstalledReplaceesUnwind
      refine Keeps.bind hR (keeps_getPkg hR replacee) fun pkg => ?_
      refine Keeps.ite ?_ hrest
      refine Keeps.bind hR (hinstall replacee List.mem_cons_self) fun err => ?_
      exact Keeps.ite (Keeps.pure hR _) hrest

theorem keeps_removeOrphanDependent (hR : Frame R) (hminor : Allows R .minor) (depend : Depend)
    (hremove : ∀ i, Keeps R (removePkg i)) : Keeps R (removeOrphanDependent removePkg depend) := by
  unfold removeOrphanDependent
  refine Keeps.bind hR (Keeps.get hR) fun w => ?_
  split
  · exact Keeps.pure hR _
  · rename_i p _
    refine Keeps.bind hR (keeps_getPkg hR p) fun pkg => ?_
    refine Keeps.ite (Keeps.pure hR _) ?_
    refine Keeps.bind hR (Keeps.get hR) fun w => ?_
    refine Keeps.bind hR (Keeps.deref hR _) fun n => ?_
    refine Keeps.ite ?_ (Keeps.pure hR _)
    refine Keeps.bind hR (keeps_flagReplace hminor p) fun _ => ?_
    exact Keeps.bind hR (hremove p) fun _ => Keeps.pure hR _

theorem keeps_pkgRemoveOrphanDependent (hR : Frame R) (hminor : Allows R .minor) (oldPkg : PkgId)
    (hremove : ∀ i, Keeps R (removePkg i)) :
    Keeps R (pkgRemoveOrphanDependent removePkg oldPkg) := by
  unfold pkgRemoveOrphanDependent
  refine Keeps.bind hR (keeps_getPkg hR oldPkg) fun pkg => ?_
  exact Keeps.forM hR fun depend _ => keeps_removeOrphanDependent hR hminor depend hremove

theorem keeps_preinstConfigure (hR : Frame R) (hdisk : Allows R .disk) (i : PkgId)
    (oldPkg : Option PkgId) : Keeps R (preinstConfigure env i oldPkg) := by
  unfold preinstConfigure
  refine Keeps.bind hR (keeps_getPkg hR i) fun pkg => ?_
  extract_lets rest
  have hrest : ∀ args, Keeps R (rest args) := by
    intro args
    refine Keeps.bind hR (keeps_getPkg hR i) fun pkg => ?_
    exact Keeps.bind hR (keeps_liftM hdisk _) fun err => Keeps.pure hR _
  split
  · rename_i old
    exact Keeps.bind hR (keeps_getPkg hR old) fun pkg => hrest _
  · split
    · exact hrest _
    · exact hrest _

theorem AllowsAll.unwindableSteps (h : AllowsAll R) (i : PkgId) (oldPkg : Option PkgId)
    {replacees : List PkgId} (hinstall : ∀ j ∈ replacees, Keeps R (installPkg j))
    (hremove : ∀ j ∈ replacees, Keeps R (removePkg j)) :
    Keeps R (unwindableSteps env installPkg removePkg i oldPkg replacees) := by
  unfold Opkg.unwindableSteps
  have hunwind : Keeps R (do
      let _ ← pkgRemoveInstalledReplaceesUnwind installPkg replacees
      return -1 : Run Int) :=
    Keeps.bind h.frame (keeps_pkgRemoveInstalledReplaceesUnwind h.frame hinstall)
      fun _ => Keeps.pure h.frame _
  refine Keeps.bind h.frame (keeps_pkgRemoveInstalledReplacees h.frame (h.allows _) hremove)
    fun err => ?_
  refine Keeps.ite hunwind ?_
  refine Keeps.bind h.frame (keeps_preinstConfigure h.frame (h.allows _) i oldPkg) fun err => ?_
  refine Keeps.ite hunwind ?_
  refine Keeps.bind h.frame (Keeps.get h.frame) fun w => ?_
  refine Keeps.bind h.frame (h.liftM _) fun err => ?_
  extract_lets rest
  have hrest : ∀ err, Keeps R (rest err) := by
    intro err
    refine Keeps.ite ?_ (Keeps.pure h.frame _)
    refine Keeps.bind h.frame (Keeps.get h.frame) fun w => ?_
    exact Keeps.bind h.frame (h.liftM _) fun _ => hunwind
  split
  · exact hrest err
  · exact Keeps.bind h.frame (h.reads.checkDataFileClashes i oldPkg) hrest

/-- The package itself from its dependencies to the point of no return. The installations it may
lead to are those that put replaced packages back. -/
theorem AllowsAll.beforePointOfNoReturn_run (h : AllowsAll R) {i : PkgId} {oldPkg : Option PkgId}
    {w w' : World} {progressed : Progressed (Option PkgId)}
    (hinstall : ∀ replacees, pkgGetInstalledReplacees w.db (w.db.pkg i) = some replacees →
      ∀ j ∈ replacees, Keeps R (installPkg j)) (hremove : ∀ j, Keeps R (removePkg j))
    (hrun : beforePointOfNoReturn env installPkg removePkg i oldPkg w = some (progressed, w')) :
    R w w' := by
  unfold Opkg.beforePointOfNoReturn at hrun
  rw [get_bind] at hrun
  obtain ⟨replacees, w₁, hderef, hrest⟩ := bind_eq_some.mp hrun
  obtain ⟨_, hreplacees, hr⟩ := deref_eq_some.mp hderef
  obtain ⟨rfl, rfl⟩ := Prod.mk.inj hr
  refine (?_ : Keeps R _) _ _ _ hrest
  refine Keeps.bind h.frame (keeps_modifyPkg_changed (h.allows _) i true) fun _ => ?_
  refine Keeps.bind h.frame (Keeps.forM h.frame fun old _ =>
    keeps_pkgRemoveOrphanDependent h.frame (h.allows _) old hremove) fun _ => ?_
  refine Keeps.bind h.frame (h.unwindableSteps i oldPkg (hinstall replacees hreplacees)
    fun j _ => hremove j) fun err => ?_
  exact Keeps.ite (Keeps.pure h.frame _) (Keeps.ite (Keeps.pure h.frame _) (Keeps.pure h.frame _))

theorem keeps_atStage (hR : Frame R) (i : PkgId) (stage : Stage)
    (hsatisfy : Keeps R (satisfyDependenciesFor env installPkg i))
    (hlast : ∀ oldPkg, Keeps R (beforePointOfNoReturn env installPkg removePkg i oldPkg)) :
    Keeps R (atStage env installPkg removePkg i stage) := by
  cases stage with
  | alreadyInstalled =>
      refine Keeps.bind hR hsatisfy fun err => Keeps.ite (Keeps.pure hR _) ?_
      refine Keeps.bind hR (keeps_getPkg hR i) fun pkg => ?_
      exact Keeps.bind hR (Keeps.deref hR _) fun _ => Keeps.pure hR _
  | downloadOnly => exact Keeps.bind hR hsatisfy fun err => Keeps.pure hR _
  | install oldPkg =>
      refine Keeps.ite (hlast oldPkg) ?_
      refine Keeps.bind hR hsatisfy fun err => Keeps.ite (Keeps.pure hR _) ?_
      refine Keeps.bind hR (keeps_getPkg hR i) fun pkg => ?_
      exact Keeps.ite (Keeps.pure hR _) (hlast oldPkg)

/-- **Up to the point of no return** `opkg_install_pkg` keeps what its two parts with nested calls
keep. -/
theorem AllowsAll.keeps_untilPointOfNoReturn (h : AllowsAll R) (i : PkgId)
    (hsatisfy : Keeps R (satisfyDependenciesFor env installPkg i))
    (hlast : ∀ oldPkg, Keeps R (beforePointOfNoReturn env installPkg removePkg i oldPkg)) :
    Keeps R (untilPointOfNoReturn env installPkg removePkg i) := by
  unfold Opkg.untilPointOfNoReturn
  refine Keeps.bind h.frame (h.beforeDependencies i) fun progressed => ?_
  split
  · exact Keeps.pure h.frame _
  · exact keeps_atStage h.frame i _ hsatisfy hlast

/-- It writes no status itself. -/
theorem AllowsAll.untilPointOfNoReturn (h : AllowsAll R) (i : PkgId)
    (hinstall : ∀ j, Keeps R (installPkg j)) (hremove : ∀ j, Keeps R (removePkg j)) :
    Keeps R (untilPointOfNoReturn env installPkg removePkg i) :=
  h.keeps_untilPointOfNoReturn i
    (keeps_satisfyDependenciesFor h.frame (h.allows _) (h.allows _) i hinstall)
    fun _ _ _ _ hrun => h.beforePointOfNoReturn_run (fun _ _ j _ => hinstall j) hremove hrun

end Nested

/-! ## Behind the point of no return -/

theorem AllowsAll.removeObsolescedFiles (h : AllowsAll R) (i oldPkg : PkgId) :
    Keeps R (removeObsolescedFiles env i oldPkg) := by
  unfold Opkg.removeObsolescedFiles
  refine Keeps.bind h.frame (h.pkgGetInstalledFiles oldPkg) fun oldFiles => ?_
  split
  · exact Keeps.pure h.frame _
  · refine Keeps.bind h.frame (h.pkgGetInstalledFiles i) fun newFiles => ?_
    split
    · exact h.pkgFreeInstalledFiles oldPkg
    · refine Keeps.bind h.frame (Keeps.forM h.frame fun old _ => ?_) fun _ => ?_
      · refine Keeps.bind h.frame (h.liftM _) fun isDir => Keeps.ite (Keeps.pure h.frame _) ?_
        refine Keeps.bind h.frame (keeps_fileHashGetFileOwner h.frame old) fun owner => ?_
        refine Keeps.ite (Keeps.pure h.frame _) ?_
        exact Keeps.bind h.frame (h.liftM _) fun _ => Keeps.pure h.frame _
      · exact Keeps.bind h.frame (h.pkgFreeInstalledFiles oldPkg) fun _ => h.pkgFreeInstalledFiles i

theorem AllowsAll.retireOldPkg (h : AllowsAll R) (i oldPkg : PkgId) :
    Keeps R (retireOldPkg env i oldPkg) := by
  unfold Opkg.retireOldPkg
  refine Keeps.bind h.frame (h.minor oldPkg (fun _ => rfl) fun _ => rfl) fun _ => ?_
  refine Keeps.bind h.frame (keeps_getPkg h.frame oldPkg) fun pkg => ?_
  extract_lets rest
  have hrest : Keeps R (rest ()) := by
    refine Keeps.bind h.frame (keeps_removeDataFilesAndList h.frame (h.allows _) (h.allows _)
      (h.allows _)) fun _ => ?_
    exact Keeps.bind h.frame (keeps_getPkg h.frame oldPkg) fun pkg => h.liftM _
  split
  · exact Keeps.bind h.frame (h.removeObsolescedFiles i oldPkg) fun _ => hrest
  · exact hrest

theorem AllowsAll.installMaintainerScripts (h : AllowsAll R) (i : PkgId) :
    Keeps R (installMaintainerScripts env i) := by
  refine Keeps.bind h.frame (keeps_getPkg h.frame i) fun pkg => ?_
  exact Keeps.bind h.frame (Keeps.deref h.frame _) fun dest => h.liftM _

theorem AllowsAll.installDataFiles (h : AllowsAll R) (i : PkgId) :
    Keeps R (installDataFiles env i) := by
  unfold Opkg.installDataFiles
  refine Keeps.bind h.frame (keeps_getPkg h.frame i) fun pkg => ?_
  refine Keeps.bind h.frame (Keeps.deref h.frame _) fun dest => ?_
  refine Keeps.bind h.frame (h.liftM _) fun err => Keeps.ite (Keeps.pure h.frame _) ?_
  refine Keeps.bind h.frame ?_ fun _ => keeps_pkgWriteFilelist h.frame (h.allows _) (h.allows _) i
  unfold setFlagsFromControl
  refine Keeps.bind h.frame (keeps_getPkg h.frame i) fun pkg => ?_
  refine Keeps.bind h.frame (Keeps.deref h.frame _) fun dest => ?_
  refine Keeps.bind h.frame (h.liftM _) fun control => ?_
  split
  · refine Keeps.ite ?_ (Keeps.pure h.frame _)
    exact h.minor i (fun _ => rfl) fun _ => rfl
  · exact Keeps.pure h.frame _

theorem AllowsAll.checkDataFileClashesChange (h : AllowsAll R) (i : PkgId) :
    Keeps R (checkDataFileClashesChange env i) := by
  unfold Opkg.checkDataFileClashesChange
  refine Keeps.bind h.frame (h.pkgGetInstalledFiles i) fun files => ?_
  split
  · exact Keeps.pure h.frame _
  · refine Keeps.bind h.frame (Keeps.forM h.frame fun file _ => ?_) fun _ =>
      h.pkgFreeInstalledFiles i
    unfold changeOwner
    refine Keeps.bind h.frame (h.liftM _) fun present => ?_
    refine Keeps.bind h.frame (h.liftM _) fun isDir => ?_
    refine Keeps.ite (Keeps.pure h.frame _) (Keeps.ite (h.fileHashSetFileOwner file i) ?_)
    refine Keeps.bind h.frame (keeps_fileHashGetFileOwner h.frame file) fun owner => ?_
    split
    · exact Keeps.pure h.frame _
    · refine Keeps.bind h.frame (Keeps.get h.frame) fun w => ?_
      refine Keeps.bind h.frame (Keeps.deref h.frame _) fun replaces => ?_
      exact Keeps.ite (h.fileHashSetFileOwner file i) (Keeps.pure h.frame _)

theorem AllowsAll.resolveConffiles (h : AllowsAll R) (i : PkgId) :
    Keeps R (resolveConffiles env i) := by
  unfold Opkg.resolveConffiles
  refine Keeps.ite (Keeps.pure h.frame _) ?_
  refine Keeps.bind h.frame (keeps_getPkg h.frame i) fun pkg => ?_
  refine Keeps.bind h.frame (keeps_onDisk (h.allows _) _) fun conffiles => ?_
  exact h.minor i (fun _ => rfl) fun _ => rfl

/-- **Behind the point of no return** the status is written in the last lines only, and the return
value tells whether they are reached. -/
theorem AllowsAll.behindPointOfNoReturn (h : AllowsAll R) {i : PkgId} {oldPkg : Option PkgId}
    {w w' : World} {rc : Int} (hrun : behindPointOfNoReturn env i oldPkg w = some (rc, w')) :
    (rc = -1 ∧ R w w') ∨
      ∃ w₁, rc = 0 ∧ R w w₁ ∧ finishInstall env i oldPkg w₁ = some (⟨⟩, w') := by
  unfold Opkg.behindPointOfNoReturn at hrun
  obtain ⟨_, w₁, hretire, hrun⟩ := bind_eq_some.mp hrun
  have h₁ : R w w₁ := Keeps.forM h.frame (fun old _ => h.retireOldPkg i old) _ _ _ hretire
  obtain ⟨err, w₂, hscripts, hrun⟩ := bind_eq_some.mp hrun
  have h₂ : R w w₂ := h.frame.trans h₁ (h.installMaintainerScripts i _ _ _ hscripts)
  split at hrun
  · obtain ⟨rfl, rfl⟩ := Prod.mk.inj (pure_eq_some.mp hrun)
    exact .inl ⟨rfl, h₂⟩
  · obtain ⟨err, w₃, hdata, hrun⟩ := bind_eq_some.mp hrun
    have h₃ : R w w₃ := h.frame.trans h₂ (h.installDataFiles i _ _ _ hdata)
    split at hrun
    · obtain ⟨rfl, rfl⟩ := Prod.mk.inj (pure_eq_some.mp hrun)
      exact .inl ⟨rfl, h₃⟩
    · obtain ⟨_, w₄, hclashes, hrun⟩ := bind_eq_some.mp hrun
      have h₄ : R w w₄ := h.frame.trans h₃ (h.checkDataFileClashesChange i _ _ _ hclashes)
      obtain ⟨_, w₅, hconffiles, hrun⟩ := bind_eq_some.mp hrun
      have h₅ : R w w₅ := h.frame.trans h₄ (h.resolveConffiles i _ _ _ hconffiles)
      obtain ⟨_, w₆, hfinish, hrun⟩ := bind_eq_some.mp hrun
      obtain ⟨rfl, rfl⟩ := Prod.mk.inj (pure_eq_some.mp hrun)
      exact .inr ⟨w₅, rfl, h₅, hfinish⟩

end FirmwareTools.Opkg

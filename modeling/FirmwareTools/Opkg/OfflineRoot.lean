import FirmwareTools.Opkg.Footprint

/-! # List files under an offline root

The file owners and the list files name a file by its path without the offline root. Who reads a list
file puts the root in front again, unless the line begins with it already.

* **`fileList_roundTrip_iff`** — a file under the root is read back as it was recorded exactly when its
  path within the root does not begin with the root. -/

namespace FirmwareTools.Opkg

open Op

/-- An offline root: an absolute path without a slash at its end. -/
structure OfflineRoot (root : CStr) : Prop where
  absolute : root.head? = some '/'
  noSlash : root.getLast? ≠ some '/'

variable {env : Env}

theorem stripOfflineRoot_append {root : CStr} (hroot : env.offlineRoot = some root) (path : CStr) :
    stripOfflineRoot env (root ++ path) = path := by
  have hstart : root.isPrefixOf (root ++ path) = true :=
    List.isPrefixOf_iff_prefix.mpr (List.prefix_append root path)
  simp only [stripOfflineRoot, hroot, hstart, if_true]
  exact List.drop_left

/-- Reading a line puts the root in front exactly when the line does not begin with it. -/
theorem listedName_eq_iff {root path : CStr} (hroot : env.offlineRoot = some root)
    (hne : root ≠ []) : listedName env path = root ++ path ↔ ¬ root <+: path := by
  simp only [listedName, hroot]
  split
  · rename_i hstart
    rw [List.isPrefixOf_iff_prefix] at hstart
    refine iff_of_false (fun h => hne ?_) (not_not.mpr hstart)
    exact List.append_left_eq_self.mp h.symm
  · rename_i hstart
    rw [List.isPrefixOf_iff_prefix] at hstart
    exact iff_of_true rfl hstart

/-! ## Recording a file -/

/-- The file owners and what the list of a package is read by stay the same. -/
structure SameRecord (i : PkgId) (w w' : World) : Prop where
  fileHash : w'.fileHash = w.fileHash
  name : (w'.db.pkg i).name = (w.db.pkg i).name
  dest : (w'.db.pkg i).dest = (w.db.pkg i).dest
  stateStatus : (w'.db.pkg i).stateStatus = (w.db.pkg i).stateStatus
  installedFiles : (w'.db.pkg i).installedFiles = (w.db.pkg i).installedFiles

theorem SameRecord.refl (i : PkgId) (w : World) : SameRecord i w w := ⟨rfl, rfl, rfl, rfl, rfl⟩

theorem sameRecord_frame (i : PkgId) : Frame (SameRecord i) where
  refl := SameRecord.refl i
  trans h h' := ⟨h'.fileHash.trans h.fileHash, h'.name.trans h.name, h'.dest.trans h.dest,
    h'.stateStatus.trans h.stateStatus, h'.installedFiles.trans h.installedFiles⟩

theorem sameRecord_disk (i : PkgId) : Allows (SameRecord i) .disk := by
  rintro w _ ⟨disk, rfl⟩
  exact ⟨rfl, rfl, rfl, rfl, rfl⟩

theorem sameRecord_list {i j : PkgId} (hj : j ≠ i) : Allows (SameRecord i) (.list j) := by
  rintro w _ ⟨files, cnt, rfl⟩
  have hpkg := w.db.setPkg_pkg_of_ne (((w.db.pkg j).withInstalledFiles files).withRefCnt cnt) hj.symm
  exact ⟨rfl, by rw [hpkg], by rw [hpkg], by rw [hpkg], by rw [hpkg]⟩

theorem sameRecord_changed (i : PkgId) : Allows (SameRecord i) .changed := by
  rintro w _ ⟨j, changed, rfl⟩
  by_cases hj : i = j
  · subst hj
    have hpkg := w.db.setPkg_pkg_self i ((w.db.pkg i).withFilelistChanged changed)
    exact ⟨rfl, by rw [hpkg]; rfl, by rw [hpkg]; rfl, by rw [hpkg]; rfl, by rw [hpkg]; rfl⟩
  · have hpkg := w.db.setPkg_pkg_of_ne ((w.db.pkg j).withFilelistChanged changed) hj
    exact ⟨rfl, by rw [hpkg], by rw [hpkg], by rw [hpkg], by rw [hpkg]⟩

/-- **Recording a file**: it is entered under its path within the root. -/
theorem fileHashSetFileOwner_record {root path : CStr} {i : PkgId} {w w' : World} {r : PUnit}
    (hroot : env.offlineRoot = some root) (hne : path ≠ []) (hfile : path.getLast? ≠ some '/')
    (howner : w.fileHash.get path ≠ some i)
    (h : fileHashSetFileOwner env (root ++ path) i w = some (r, w')) :
    SameRecord i { w with fileHash := w.fileHash.insert path i } w' := by
  have hlast : (root ++ path).getLast? ≠ some '/' := by
    rwa [List.getLast?_append_of_ne_nil root hne]
  rw [fileHashSetFileOwner, if_neg hlast] at h
  obtain ⟨oldOwningPkg, w₁, hget, hrest⟩ := bind_eq_some.mp h
  obtain ⟨hold, rfl⟩ := Prod.mk.inj ((fileHashGetFileOwner_eq_some env).mp hget)
  obtain ⟨_, w₂, hinsert, hdrop⟩ := bind_eq_some.mp hrest
  obtain ⟨-, rfl⟩ := Prod.mk.inj (modify_eq_some.mp hinsert)
  rw [stripOfflineRoot_append hroot] at hold hdrop
  cases oldOwningPkg with
  | none =>
      obtain ⟨-, rfl⟩ := Prod.mk.inj (pure_eq_some.mp hdrop)
      exact SameRecord.refl i _
  | some old =>
      have hne : old ≠ i := by
        rintro rfl
        exact howner hold.symm
      exact keeps_dropFromOldOwner (sameRecord_frame i) (fun _ => keeps_onDisk (sameRecord_disk i) _)
        (sameRecord_list hne) (sameRecord_changed i) path i _ _ _ hdrop

/-! ## Writing and reading the list file -/

/-- A file that has been written holds what was written. -/
theorem writeFile_true {path content : CStr} {disk disk' : Disk}
    (h : writeFile env path content disk = some (true, disk')) :
    disk'.files path = some (.file content) := by
  obtain ⟨opened, disk₁, -, hrest⟩ := bind_eq_some.mp h
  obtain ⟨disk₂, disk₃, hget, hwrite⟩ := bind_eq_some.mp hrest
  split at hwrite
  · obtain ⟨_, disk₄, hset, hpure⟩ := bind_eq_some.mp hwrite
    obtain ⟨-, rfl⟩ := Prod.mk.inj (pure_eq_some.mp hpure)
    obtain ⟨-, rfl⟩ := Prod.mk.inj (modify_eq_some.mp hset)
    exact Function.update_self ..
  · obtain ⟨hfalse, -⟩ := Prod.mk.inj (pure_eq_some.mp hwrite)
    exact absurd hfalse (by decide)

/-- Every file that is there can be opened. -/
def OpensFiles (env : Env) : Prop := ∀ n path, env.succeeds n (.fopen path) = true

/-- A file that is there is read. -/
theorem readFile_some {path content : CStr} {disk disk' : Disk} {r : Option CStr}
    (hopens : OpensFiles env) (hfile : disk.files path = some (.file content))
    (h : readFile env path disk = some (r, disk')) : r = some content := by
  obtain ⟨opened, disk₁, hask, hrest⟩ := bind_eq_some.mp h
  obtain ⟨disk₂, disk₃, hget, hpure⟩ := bind_eq_some.mp hask
  obtain ⟨rfl, rfl⟩ := Prod.mk.inj (get_eq_some.mp hget)
  obtain ⟨_, disk₄, hcount, hopened⟩ := bind_eq_some.mp hpure
  obtain ⟨-, rfl⟩ := Prod.mk.inj (modify_eq_some.mp hcount)
  obtain ⟨rfl, rfl⟩ := Prod.mk.inj (pure_eq_some.mp hopened)
  obtain ⟨disk₅, disk₆, hget', hread⟩ := bind_eq_some.mp hrest
  obtain ⟨rfl, rfl⟩ := Prod.mk.inj (get_eq_some.mp hget')
  simp only [hfile] at hread
  exact (Prod.mk.inj (pure_eq_some.mp hread)).1.trans (if_pos (hopens _ path))

/-- The keys under which the files of a package are entered. -/
def World.ownedKeys (w : World) (i : PkgId) : List CStr :=
  (w.fileHash.filter fun entry => entry.2 == i).map Prod.fst

/-- **Writing the list file**: it has a line for each file of the package. -/
theorem pkgWriteFilelist_zero {i : PkgId} {w w' : World}
    (h : pkgWriteFilelist env i w = some (0, w')) :
    (∃ dest, (w'.db.pkg i).dest = some dest ∧
      w'.disk.files (listFileName dest (w'.db.pkg i).name)
        = some (.file ((w.ownedKeys i).flatMap fun line => line ++ ['\n']))) ∧
    SameRecord i w w' := by
  refine ⟨?_, keeps_pkgWriteFilelist (sameRecord_frame i) (sameRecord_disk i) (sameRecord_changed i)
    i _ _ _ h⟩
  obtain ⟨pkg, w₁, hpkg, hrest⟩ := bind_eq_some.mp h
  obtain ⟨rfl, rfl⟩ := Prod.mk.inj (getPkg_eq_some.mp hpkg)
  obtain ⟨dest, w₂, hdest, hwrite⟩ := bind_eq_some.mp hrest
  obtain ⟨dest', hdest', hr⟩ := deref_eq_some.mp hdest
  obtain ⟨rfl, rfl⟩ := Prod.mk.inj hr
  obtain ⟨w₃, w₄, hget, hlines⟩ := bind_eq_some.mp hwrite
  obtain ⟨rfl, rfl⟩ := Prod.mk.inj (get_eq_some.mp hget)
  obtain ⟨written, w₅, hfile, hend⟩ := bind_eq_some.mp hlines
  obtain ⟨disk, hdisk, rfl⟩ := onDisk_eq_some.mp hfile
  split at hend
  · rename_i hwritten
    rw [hwritten] at hdisk
    obtain ⟨_, w₆, hflag, hpure⟩ := bind_eq_some.mp hend
    obtain ⟨-, rfl⟩ := Prod.mk.inj (pure_eq_some.mp hpure)
    obtain ⟨-, rfl⟩ := Prod.mk.inj (modifyPkg_eq_some.mp hflag)
    have hcontent := writeFile_true hdisk
    rw [World.ownedKeys, List.flatMap_map]
    refine ⟨dest, ?_, ?_⟩
    · rw [Database.setPkg_pkg_self]
      exact hdest'
    · rw [Database.setPkg_pkg_self]
      exact hcontent
  · obtain ⟨hfalse, -⟩ := Prod.mk.inj (pure_eq_some.mp hend)
    exact absurd hfalse (by decide)

/-- **Reading the list file**: every line is taken for a name under the root. -/
theorem pkgGetInstalledFiles_list {i : PkgId} {w w' : World} {dest : PkgDest} {content : CStr}
    {files : Option (List CStr)} (hopens : OpensFiles env)
    (hinstalled : (w.db.pkg i).stateStatus ≠ .notInstalled)
    (hunloaded : (w.db.pkg i).installedFiles = none) (hdest : (w.db.pkg i).dest = some dest)
    (hfile : w.disk.files (listFileName dest (w.db.pkg i).name) = some (.file content))
    (h : pkgGetInstalledFiles env i w = some (files, w')) :
    files = some ((fileLines content).map (listedName env)) := by
  obtain ⟨_, w₁, hcount, hrest⟩ := bind_eq_some.mp h
  obtain ⟨-, rfl⟩ := Prod.mk.inj (modifyPkg_eq_some.mp hcount)
  obtain ⟨pkg, w₂, hpkg, hload⟩ := bind_eq_some.mp hrest
  obtain ⟨hpkg', rfl⟩ := Prod.mk.inj (getPkg_eq_some.mp hpkg)
  rw [Database.setPkg_pkg_self] at hpkg'
  have hunloaded' : pkg.installedFiles = none := by
    rw [hpkg']
    exact hunloaded
  simp only [hunloaded'] at hload
  obtain ⟨loaded, w₃, hlist, hset⟩ := bind_eq_some.mp hload
  obtain ⟨disk, hdisk, rfl⟩ := onDisk_eq_some.mp hlist
  obtain ⟨_, w₄, -, hpure⟩ := bind_eq_some.mp hset
  obtain ⟨rfl, -⟩ := Prod.mk.inj (pure_eq_some.mp hpure)
  -- the package is installed, so the list file is read
  have hdest' : pkg.dest = some dest := by
    rw [hpkg']
    exact hdest
  have hinstalled' : pkg.stateStatus ≠ .notInstalled := by
    rw [hpkg']
    exact hinstalled
  have hname : pkg.name = (w.db.pkg i).name := by
    rw [hpkg']
    rfl
  rw [loadInstalledFiles] at hdisk
  simp only [hdest', if_neg hinstalled'] at hdisk
  obtain ⟨read, disk', hread, hlines⟩ := bind_eq_some.mp hdisk
  rw [hname] at hread
  have hcontent := readFile_some hopens hfile hread
  subst hcontent
  exact (Prod.mk.inj (pure_eq_some.mp hlines)).1

/-! ## The round trip -/

/-- An installed package whose list is not loaded and that owns no file yet. -/
structure OwnsNothing (w : World) (i : PkgId) : Prop where
  installed : (w.db.pkg i).stateStatus ≠ .notInstalled
  unloaded : (w.db.pkg i).installedFiles = none
  owners : ∀ entry ∈ w.fileHash, entry.2 ≠ i

/-- A file is recorded as one of a package, the list file of the package is written, and the list is
read back. -/
def recordAndRead (env : Env) (fileName : CStr) (i : PkgId) :
    Run (Int × Option (List CStr)) := do
  fileHashSetFileOwner env fileName i
  let rc ← pkgWriteFilelist env i
  let files ← pkgGetInstalledFiles env i
  return (rc, files)

/-- Whoever records the file `path` under the root reads it back as it was. -/
def FileListRoundTrip (root path : CStr) : Prop :=
  ∀ env : Env, env.offlineRoot = some root → OpensFiles env → ∀ i w files w', OwnsNothing w i →
    recordAndRead env (root ++ path) i w = some ((0, files), w') → files = some [root ++ path]

/-- An owner that is entered for the first time owns one file. -/
theorem FileHash.filter_insert {hash : FileHash} {i : PkgId} (h : ∀ entry ∈ hash, entry.2 ≠ i)
    (path : CStr) : (hash.insert path i).filter (fun entry => entry.2 == i) = [(path, i)] := by
  induction hash with
  | nil => simp [FileHash.insert]
  | cons entry hash ih =>
      obtain ⟨key, owner⟩ := entry
      rw [List.forall_mem_cons] at h
      have hrest : hash.filter (fun entry => entry.2 == i) = [] := by
        rw [List.filter_eq_nil_iff]
        intro entry hentry
        simpa using h.2 entry hentry
      rw [FileHash.insert]
      split
      · rename_i hkey
        subst hkey
        rw [List.filter_cons_of_pos (by simp), hrest]
      · rw [List.filter_cons_of_neg (by simpa using h.1), ih h.2]

theorem FileHash.get_ne_of_forall {hash : FileHash} {i : PkgId} (h : ∀ entry ∈ hash, entry.2 ≠ i)
    (path : CStr) : hash.get path ≠ some i := by
  induction hash with
  | nil => simp [FileHash.get]
  | cons entry hash ih =>
      obtain ⟨key, owner⟩ := entry
      rw [List.forall_mem_cons] at h
      rw [FileHash.get]
      split
      · exact fun heq => h.1 (Option.some.inj heq)
      · exact ih h.2

/-- **What is read back**: the lines of the recorded path, each taken for a name under the root. -/
theorem recordAndRead_eq {root path : CStr} (hroot : env.offlineRoot = some root)
    (hopens : OpensFiles env) (hne : path ≠ []) (hfile : path.getLast? ≠ some '/') {i : PkgId}
    {w w' : World} {files : Option (List CStr)} (hw : OwnsNothing w i)
    (h : recordAndRead env (root ++ path) i w = some ((0, files), w')) :
    files = some ((fileLines (path ++ ['\n'])).map (listedName env)) := by
  obtain ⟨_, w₁, hset, hrest⟩ := bind_eq_some.mp h
  obtain ⟨rc, w₂, hwrite, hread⟩ := bind_eq_some.mp hrest
  obtain ⟨files', w₃, hget, hpure⟩ := bind_eq_some.mp hread
  obtain ⟨hpair, rfl⟩ := Prod.mk.inj (pure_eq_some.mp hpure)
  obtain ⟨rfl, rfl⟩ := Prod.mk.inj hpair
  have hrecord := fileHashSetFileOwner_record hroot hne hfile
    (FileHash.get_ne_of_forall hw.owners path) hset
  obtain ⟨⟨dest, hdest, hlines⟩, hsame⟩ := pkgWriteFilelist_zero hwrite
  have hkeys : w₁.ownedKeys i = [path] := by
    rw [World.ownedKeys, hrecord.fileHash, FileHash.filter_insert hw.owners]
    rfl
  rw [hkeys, List.flatMap_singleton] at hlines
  refine pkgGetInstalledFiles_list hopens ?_ ?_ hdest hlines hget
  · rw [hsame.stateStatus, hrecord.stateStatus]
    exact hw.installed
  · rw [hsame.installedFiles, hrecord.installedFiles]
    exact hw.unloaded

/-- A plain machine with an offline root. -/
def rootedEnv (root : CStr) : Env := { plainEnv [] with offlineRoot := some root }

/-- A state in which package `0` is installed and owns no file. -/
def rootedWorld : World where
  db := { pkg := fun _ => { name := "p".toList, stateStatus := .installed, dest := some rootDest }
          abstractPkg := fun _ => {} }
  names := []
  marks _ := 0
  fileHash := []
  obsFileHash := []
  disk := { files := fun _ => none, asked := 0 }

theorem rootedWorld_ownsNothing : OwnsNothing rootedWorld 0 :=
  ⟨by decide, rfl, fun _ h => absurd h List.not_mem_nil⟩

/-- The calls come to their end there. -/
theorem recordAndRead_rootedWorld {root path : CStr} (hne : path ≠ [])
    (hfile : path.getLast? ≠ some '/') :
    ∃ files w', recordAndRead (rootedEnv root) (root ++ path) 0 rootedWorld
      = some ((0, files), w') := by
  have hlast : (root ++ path).getLast? ≠ some '/' := by
    rwa [List.getLast?_append_of_ne_nil root hne]
  rw [recordAndRead, fileHashSetFileOwner, if_neg hlast]
  exact ⟨_, _, rfl⟩

/-- **The round trip**: a file of a package under an offline root is read back as it was recorded
exactly when its path within the root does not begin with the root itself and has no newline. -/
theorem fileList_roundTrip_iff {root path : CStr} (hroot : OfflineRoot root)
    (habsolute : path.head? = some '/') (hfile : path.getLast? ≠ some '/') :
    FileListRoundTrip root path ↔ ¬ root <+: path ∧ '\n' ∉ path := by
  have hpath : path ≠ [] := by
    rintro rfl
    exact absurd habsolute (by decide)
  have hne : root ≠ [] := by
    rintro rfl
    exact absurd hroot.absolute (by decide)
  constructor
  · intro h
    obtain ⟨files, w', hrun⟩ := recordAndRead_rootedWorld hpath hfile
    have hback := h (rootedEnv root) rfl (fun _ _ => rfl) 0 rootedWorld files w'
      rootedWorld_ownsNothing hrun
    rw [recordAndRead_eq rfl (fun _ _ => rfl) hpath hfile
      rootedWorld_ownsNothing hrun, Option.some.injEq] at hback
    have hnewline : '\n' ∉ path := by
      have hlength := congrArg List.length hback
      rwa [List.length_map, List.length_singleton, length_fileLines_eq_one_iff] at hlength
    rw [fileLines_append_newline hnewline []] at hback
    exact ⟨(listedName_eq_iff rfl hne).mp (List.cons.inj hback).1, hnewline⟩
  · rintro ⟨hstart, hnewline⟩ env henv hopens i w files w' hw hrun
    rw [recordAndRead_eq henv hopens hpath hfile hw hrun, fileLines_append_newline hnewline []]
    have hline := (listedName_eq_iff henv hne).mpr hstart
    change some [listedName env path] = some [root ++ path]
    rw [hline]

/-- A package of the root `/mnt` that has a file `/mnt/x` of its own: it is read back as the file `/x`
of the root. -/
theorem not_fileListRoundTrip_mnt :
    ¬ ∀ root path, OfflineRoot root → path.head? = some '/' → path.getLast? ≠ some '/' →
      FileListRoundTrip root path := by
  intro h
  have hmnt := h "/mnt".toList "/mnt/x".toList ⟨by decide, by decide⟩ (by decide) (by decide)
  obtain ⟨files, w', hrun⟩ := @recordAndRead_rootedWorld "/mnt".toList "/mnt/x".toList (by decide)
    (by decide)
  have hback := hmnt (rootedEnv "/mnt".toList) rfl (fun _ _ => rfl) 0 rootedWorld files w'
    rootedWorld_ownsNothing hrun
  rw [recordAndRead_eq rfl (fun _ _ => rfl) (by decide) (by decide) rootedWorld_ownsNothing hrun]
    at hback
  exact absurd hback (by decide)

/-- The file `/etc/x` of that root is read back as it was. -/
theorem fileList_roundTrip_mnt : FileListRoundTrip "/mnt".toList "/etc/x".toList ↔
    ¬ "/mnt".toList <+: "/etc/x".toList ∧ '\n' ∉ "/etc/x".toList :=
  fileList_roundTrip_iff ⟨by decide, by decide⟩ (by decide) (by decide)

end FirmwareTools.Opkg

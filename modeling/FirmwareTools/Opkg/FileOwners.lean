import FirmwareTools.Opkg.HashTable
import FirmwareTools.Opkg.OfflineRoot

/-! # File owners from one run to the next

At its end a run writes the list files of the packages whose lists have changed; at its beginning the next
one reads the list files of all installed packages, and enters the files in the table of owners.

* **`pkgWriteChangedFilelists_lists`** — afterwards each list file has the files that the table gives to its
  package;
* **`loadFileOwners_eq`** — list files that have no file in common become the table;
* **`fileOwners_restart`** — every file has the owner that it had. -/

namespace FirmwareTools.Opkg

open Op

variable {env : Env}

/-! ## The code -/

section

variable (env)

/-- The loop of `pkg_info_preinstall_check`, which is left at a list that is `NULL`. -/
def loadFileOwners : List PkgId → Run PUnit
  | [] => return PUnit.unit
  | i :: installedPkgs => do
    match ← pkgGetInstalledFiles env i with
    | none => return PUnit.unit
    | some installedFiles =>
      installedFiles.forM fun installedFile => fileHashSetFileOwner env installedFile i
      pkgFreeInstalledFiles i
      loadFileOwners installedPkgs

/-- `pkg_info_preinstall_check` -/
def pkgInfoPreinstallCheck : Run PUnit := do
  let installedPkgs ← pkgHashFetchAllInstalled
  loadFileOwners env installedPkgs

end

/-! ## List files -/

/-- The installed packages, in the order in which they are gone through. -/
def World.installedPkgs (w : World) : List PkgId :=
  (w.names.flatMap w.db.filed).filter fun i => (w.db.pkg i).isInstalled

/-- The path of a package's list file. -/
def World.listFile (w : World) (i : PkgId) : Option CStr :=
  (w.db.pkg i).dest.map fun dest => listFileName dest (w.db.pkg i).name

/-- The list file of a package has these lines. -/
def World.Lists (w : World) (i : PkgId) (keys : List CStr) : Prop :=
  ∃ path, w.listFile i = some path ∧
    w.disk.files path = some (.file (keys.flatMap fun line => line ++ ['\n']))

/-! ## Writing -/

/-- A list file is written: nothing else is, and of the packages nothing changes but the flags of this one. -/
structure Saves (i : PkgId) (w w' : World) : Prop where
  fileHash : w'.fileHash = w.fileHash
  listFile : ∀ j, w'.listFile j = w.listFile j
  other : ∀ j, j ≠ i → w'.db.pkg j = w.db.pkg j
  files : ∀ path, w.listFile i ≠ some path → w'.disk.files path = w.disk.files path

/-- The other files stay. -/
theorem writeFile_files {path content : CStr} {disk disk' : Disk} {written : Bool}
    (h : writeFile env path content disk = some (written, disk')) {other : CStr} (hother : other ≠ path) :
    disk'.files other = disk.files other := by
  obtain ⟨opened, disk₁, hask, hrest⟩ := bind_eq_some.mp h
  rw [← congrFun (ask_sameFiles _ _ _ _ hask) other]
  obtain ⟨disk₂, disk₃, hget, hwrite⟩ := bind_eq_some.mp hrest
  obtain ⟨rfl, rfl⟩ := Prod.mk.inj (get_eq_some.mp hget)
  split at hwrite
  · obtain ⟨_, disk₄, hset, hpure⟩ := bind_eq_some.mp hwrite
    obtain ⟨-, rfl⟩ := Prod.mk.inj (pure_eq_some.mp hpure)
    obtain ⟨-, rfl⟩ := Prod.mk.inj (modify_eq_some.mp hset)
    exact Function.update_of_ne hother _ _
  · obtain ⟨-, rfl⟩ := Prod.mk.inj (pure_eq_some.mp hwrite)
    rfl

/-- **One list file.** -/
theorem pkgWriteFilelist_saves {i : PkgId} {w w' : World} {rc : Int}
    (h : pkgWriteFilelist env i w = some (rc, w')) :
    Saves i w w' ∧ (rc ≠ 0 ∨ w'.Lists i (w.ownedKeys i)) := by
  have hlists : rc ≠ 0 ∨ w'.Lists i (w.ownedKeys i) := by
    by_cases hrc : rc = 0
    · subst hrc
      obtain ⟨⟨dest, hdest, hfile⟩, -⟩ := pkgWriteFilelist_zero h
      exact .inr ⟨_, by rw [World.listFile, hdest]; rfl, hfile⟩
    · exact .inl hrc
  refine ⟨?_, hlists⟩
  obtain ⟨dest, hdest, hwrite⟩ : ∃ dest, (w.db.pkg i).dest = some dest ∧ _ := by
    unfold pkgWriteFilelist at h
    rw [getPkg_bind, deref_bind] at h
    exact Option.bind_eq_some_iff.mp h
  rw [get_bind] at hwrite
  obtain ⟨written, w₁, hfile, hend⟩ := bind_eq_some.mp hwrite
  obtain ⟨disk, hdisk, rfl⟩ := onDisk_eq_some.mp hfile
  have hfiles : ∀ path, w.listFile i ≠ some path → disk.files path = w.disk.files path := by
    intro path hpath
    refine writeFile_files hdisk ?_
    rintro rfl
    exact hpath (by rw [World.listFile, hdest]; rfl)
  split at hend
  · obtain ⟨_, w₂, hflag, hpure⟩ := bind_eq_some.mp hend
    obtain ⟨-, rfl⟩ := Prod.mk.inj (pure_eq_some.mp hpure)
    obtain ⟨-, rfl⟩ := Prod.mk.inj (modifyPkg_eq_some.mp hflag)
    refine ⟨rfl, fun j => ?_, fun j hj => Database.setPkg_pkg_of_ne _ _ hj, hfiles⟩
    by_cases hj : j = i
    · rw [World.listFile, hj, Database.setPkg_pkg_self]
      rfl
    · rw [World.listFile, Database.setPkg_pkg_of_ne _ _ hj]
      rfl
  · obtain ⟨-, rfl⟩ := Prod.mk.inj (pure_eq_some.mp hend)
    exact ⟨rfl, fun _ => rfl, fun _ _ => rfl, hfiles⟩

/-- **All list files that are out of date**: if each write succeeds, every package of the list has the list
file that it had or was to have, where no two share one. -/
theorem writeLists_lists {installed : List PkgId} {ret : Int} {w w' : World}
    (hpaths : installed.Pairwise fun i j => w.listFile i ≠ w.listFile j)
    (hcurrent : ∀ i ∈ installed, (w.db.pkg i).stateFlag.filelistChanged = false → w.Lists i (w.ownedKeys i))
    (h : (installed.foldlM (fun ret i => do
      if (← getPkg i).stateFlag.filelistChanged then
        let err ← pkgWriteFilelist env i
        return if err ≠ 0 then -1 else ret
      else return ret) ret : Run Int) w = some (0, w')) :
    ret = 0 ∧ (∀ j, w'.listFile j = w.listFile j) ∧ (∀ i ∈ installed, w'.Lists i (w.ownedKeys i)) ∧
      ∀ path, (∀ i ∈ installed, w.listFile i ≠ some path) → w'.disk.files path = w.disk.files path := by
  induction installed generalizing ret w with
  | nil =>
      obtain ⟨hret, rfl⟩ := Prod.mk.inj (pure_eq_some.mp h)
      exact ⟨hret.symm, fun _ => rfl, fun _ hi => absurd hi List.not_mem_nil, fun _ _ => rfl⟩
  | cons i installed ih =>
      rw [List.pairwise_cons] at hpaths
      rw [List.forall_mem_cons] at hcurrent
      rw [List.foldlM_cons] at h
      obtain ⟨ret', w₁, hone, hrest⟩ := bind_eq_some.mp h
      -- what has become of the first package
      obtain ⟨hsaves, hret⟩ : Saves i w w₁ ∧ (ret' = 0 → ret = 0 ∧ w₁.Lists i (w.ownedKeys i)) := by
        rw [getPkg_bind] at hone
        split at hone
        · obtain ⟨err, w₂, hwrite, hpure⟩ := bind_eq_some.mp hone
          obtain ⟨rfl, rfl⟩ := Prod.mk.inj (pure_eq_some.mp hpure)
          obtain ⟨hsaves, hlists⟩ := pkgWriteFilelist_saves hwrite
          refine ⟨hsaves, fun hzero => ?_⟩
          split at hzero
          · cases hzero
          · rename_i hok
            exact ⟨hzero, hlists.resolve_left hok⟩
        · rename_i hclean
          obtain ⟨rfl, rfl⟩ := Prod.mk.inj (pure_eq_some.mp hone)
          exact ⟨⟨rfl, fun _ => rfl, fun _ _ => rfl, fun _ _ => rfl⟩,
            fun hzero => ⟨hzero, hcurrent.1 (Bool.eq_false_iff.mpr hclean)⟩⟩
      have hkeys : ∀ j, w₁.ownedKeys j = w.ownedKeys j := fun j => by
        rw [World.ownedKeys, hsaves.fileHash, World.ownedKeys]
      obtain ⟨hzero, hlistFile, hlists, hfiles⟩ := ih
        (hpaths.2.imp fun {a b} hab => by rwa [hsaves.listFile, hsaves.listFile])
        (fun j hj hclean => by
          have hne : j ≠ i := fun heq => hpaths.1 j hj (by rw [heq])
          rw [hsaves.other j hne] at hclean
          obtain ⟨path, hpath, hfile⟩ := hcurrent.2 j hj hclean
          refine ⟨path, (hsaves.listFile j).trans hpath, ?_⟩
          rw [hkeys, hsaves.files path fun heq => hpaths.1 j hj (heq.trans hpath.symm), hfile])
        hrest
      obtain ⟨hstart, path, hpath, hfile⟩ := hret hzero
      refine ⟨hstart, fun j => (hlistFile j).trans (hsaves.listFile j), ?_, fun other hother => ?_⟩
      · rw [List.forall_mem_cons]
        refine ⟨⟨path, (hlistFile i).trans hpath, ?_⟩, fun j hj => by rw [← hkeys]; exact hlists j hj⟩
        rw [hfiles path fun j hj heq => ?_, hfile]
        rw [hsaves.listFile] at hpath
        exact hpaths.1 j hj (hpath.trans ((hsaves.listFile j).symm.trans heq).symm)
      · rw [List.forall_mem_cons] at hother
        rw [hfiles other fun j hj => by rw [hsaves.listFile]; exact hother.2 j hj, hsaves.files other hother.1]

/-- **The list files at the end of a run**, where those of packages without the flag are up to date. -/
theorem pkgWriteChangedFilelists_lists (hnoaction : env.noaction = false) {w w' : World}
    (hpaths : w.installedPkgs.Pairwise fun i j => w.listFile i ≠ w.listFile j)
    (hcurrent : ∀ i ∈ w.installedPkgs, (w.db.pkg i).stateFlag.filelistChanged = false →
      w.Lists i (w.ownedKeys i))
    (h : pkgWriteChangedFilelists env w = some (0, w')) :
    ∀ i ∈ w.installedPkgs, w'.Lists i (w.ownedKeys i) := by
  unfold pkgWriteChangedFilelists at h
  rw [if_neg (Bool.eq_false_iff.mp hnoaction)] at h
  exact (writeLists_lists hpaths hcurrent h).2.2.1

/-! ## Reading -/

/-- A key that comes back from a list file: it is one line, no directory, and what is put in front of it is
taken away again. -/
structure ComesBack (env : Env) (key : CStr) : Prop where
  line : '\n' ∉ key
  file : (listedName env key).getLast? ≠ some '/'
  strip : stripOfflineRoot env (listedName env key) = key

theorem fileLines_flatMap {keys : List CStr} (h : ∀ key ∈ keys, '\n' ∉ key) :
    fileLines (keys.flatMap fun line => line ++ ['\n']) = keys := by
  induction keys with
  | nil => rfl
  | cons key keys ih =>
      rw [List.forall_mem_cons] at h
      rw [List.flatMap_cons, List.append_assoc, List.singleton_append, fileLines_append_newline h.1, ih h.2]

theorem readFile_of_opens (hopens : OpensFiles env) {path content : CStr} {disk : Disk}
    (hfile : disk.files path = some (.file content)) :
    readFile env path disk = some (some content, { disk with asked := disk.asked + 1 }) := by
  have hask : ask (env.succeeds · (.fopen path)) disk =
      some (env.succeeds disk.asked (.fopen path), { disk with asked := disk.asked + 1 }) := rfl
  unfold readFile
  rw [bind_of_eq_some hask, get_bind]
  simp only [hfile]
  rw [if_pos (hopens _ path)]
  rfl

theorem loadInstalledFiles_of_file (hopens : OpensFiles env) {pkg : Pkg} {dest : PkgDest} {keys : List CStr}
    {disk : Disk} (hdest : pkg.dest = some dest) (hinstalled : pkg.stateStatus ≠ .notInstalled)
    (hfile : disk.files (listFileName dest pkg.name) =
      some (.file (keys.flatMap fun line => line ++ ['\n'])))
    (hkeys : ∀ key ∈ keys, '\n' ∉ key) :
    loadInstalledFiles env pkg disk =
      some (some (keys.map (listedName env)), { disk with asked := disk.asked + 1 }) := by
  unfold loadInstalledFiles
  simp only [hdest]
  rw [if_neg hinstalled, bind_of_eq_some (readFile_of_opens hopens hfile)]
  dsimp only
  rw [fileLines_flatMap hkeys]
  rfl

/-- A package's list is read: of the packages nothing changes but this one. -/
structure Loads (i : PkgId) (w w' : World) : Prop where
  other : ∀ j, j ≠ i → w'.db.pkg j = w.db.pkg j
  files : w'.disk.files = w.disk.files

/-- **One list file** is read as it was written. -/
theorem pkgGetInstalledFiles_of_lists (hopens : OpensFiles env) {i : PkgId} {w : World} {keys : List CStr}
    (hinstalled : (w.db.pkg i).stateStatus ≠ .notInstalled) (hunloaded : (w.db.pkg i).installedFiles = none)
    (hlists : w.Lists i keys) (hkeys : ∀ key ∈ keys, '\n' ∉ key) :
    ∃ w', pkgGetInstalledFiles env i w = some (some (keys.map (listedName env)), w') ∧ Loads i w w' ∧
      w'.fileHash = w.fileHash := by
  obtain ⟨path, hpath, hfile⟩ := hlists
  obtain ⟨dest, hdest, rfl⟩ := Option.map_eq_some_iff.mp hpath
  generalize hcounted : (w.db.pkg i).withRefCnt ((w.db.pkg i).installedFilesRefCnt + 1) = pkg
  have hload := @loadInstalledFiles_of_file env hopens pkg dest keys w.disk (by rw [← hcounted]; exact hdest)
    (by rw [← hcounted]; exact hinstalled) (by rw [← hcounted]; exact hfile) hkeys
  have hnone : pkg.installedFiles = none := by
    rw [← hcounted]
    exact hunloaded
  have hdisk := (onDisk_eq_some (w := { w with db := w.db.setPkg i pkg })).mpr ⟨_, hload, rfl⟩
  unfold pkgGetInstalledFiles
  rw [modifyPkg_bind, hcounted, getPkg_bind, Database.setPkg_pkg_self]
  simp only [hnone]
  refine ⟨_, (bind_of_eq_some hdisk).trans (modifyPkg_bind.trans rfl), ⟨fun j hj => ?_, rfl⟩, rfl⟩
  exact (Database.setPkg_pkg_of_ne _ _ hj).trans (Database.setPkg_pkg_of_ne _ _ hj)

/-- A file that nobody owns is entered. -/
theorem fileHashSetFileOwner_of_none {key : CStr} (hkey : ComesBack env key) {i : PkgId} {w : World}
    (hnone : w.fileHash.get key = none) :
    fileHashSetFileOwner env (listedName env key) i w =
      some (⟨⟩, { w with fileHash := w.fileHash.insert key i }) := by
  have howner : fileHashGetFileOwner env (listedName env key) w = some _ :=
    (fileHashGetFileOwner_eq_some env).mpr rfl
  unfold fileHashSetFileOwner
  rw [if_neg hkey.file, bind_of_eq_some howner, modify_bind, hkey.strip, hnone]
  rfl

/-- **The files of one package** are entered. -/
theorem setOwners_eq {keys : List CStr} (hkeys : ∀ key ∈ keys, ComesBack env key) (hnodup : keys.Nodup)
    {i : PkgId} {w : World} (hnone : ∀ key ∈ keys, w.fileHash.get key = none) :
    ∃ hash, (keys.map (listedName env)).forM (fun file => fileHashSetFileOwner env file i) w =
        some (⟨⟩, { w with fileHash := hash }) ∧
      (∀ key ∈ keys, hash.get key = some i) ∧ ∀ key ∉ keys, hash.get key = w.fileHash.get key := by
  induction keys generalizing w with
  | nil => exact ⟨w.fileHash, rfl, fun _ h => absurd h List.not_mem_nil, fun _ _ => rfl⟩
  | cons key keys ih =>
      rw [List.forall_mem_cons] at hkeys hnone
      rw [List.nodup_cons] at hnodup
      have hset := @fileHashSetFileOwner_of_none env key hkeys.1 i w hnone.1
      obtain ⟨hash, hrun, hin, hout⟩ := @ih hkeys.2 hnodup.2 { w with fileHash := w.fileHash.insert key i }
        fun other hother => by
          rw [FileHash.get_insert_of_ne _ _ (ne_of_mem_of_not_mem hother hnodup.1), hnone.2 other hother]
      refine ⟨hash, ?_, ?_, fun other hother => ?_⟩
      · exact (bind_of_eq_some hset).trans hrun
      · rw [List.forall_mem_cons]
        exact ⟨(hout key hnodup.1).trans (FileHash.get_insert_self _ _ _), hin⟩
      · rw [List.mem_cons, not_or] at hother
        rw [hout other hother.2, FileHash.get_insert_of_ne _ _ hother.1]

/-- **The list files become the table**: packages with the lines of their list files, which have no file in
common and none that is owned already. -/
theorem loadFileOwners_eq (hopens : OpensFiles env) {lists : List (PkgId × List CStr)} {w : World}
    (hids : (lists.map Prod.fst).Nodup) (hkeys : (lists.flatMap Prod.snd).Nodup)
    (hback : ∀ key ∈ lists.flatMap Prod.snd, ComesBack env key)
    (hready : ∀ e ∈ lists, (w.db.pkg e.1).stateStatus ≠ .notInstalled ∧
      (w.db.pkg e.1).installedFiles = none ∧ w.Lists e.1 e.2)
    (hnone : ∀ key ∈ lists.flatMap Prod.snd, w.fileHash.get key = none) :
    ∃ w', loadFileOwners env (lists.map Prod.fst) w = some (⟨⟩, w') ∧
      (∀ e ∈ lists, ∀ key ∈ e.2, w'.fileHash.get key = some e.1) ∧
      ∀ key ∉ lists.flatMap Prod.snd, w'.fileHash.get key = w.fileHash.get key := by
  induction lists generalizing w with
  | nil => exact ⟨w, rfl, fun _ h => absurd h List.not_mem_nil, fun _ _ => rfl⟩
  | cons e lists ih =>
      obtain ⟨i, keys⟩ := e
      rw [List.map_cons, List.nodup_cons] at hids
      rw [List.flatMap_cons] at hkeys hback hnone ⊢
      rw [List.nodup_append'] at hkeys
      rw [List.forall_mem_append] at hback hnone
      rw [List.forall_mem_cons] at hready
      obtain ⟨⟨hinstalled, hunloaded, hlists⟩, hready⟩ := hready
      obtain ⟨w₁, hget, hloads, hhash⟩ := pkgGetInstalledFiles_of_lists hopens hinstalled hunloaded hlists
        fun key hkey => (hback.1 key hkey).line
      obtain ⟨hash, hset, hin, hout⟩ := @setOwners_eq env keys hback.1 hkeys.1 i w₁ (by rw [hhash]; exact hnone.1)
      rw [hhash] at hout
      obtain ⟨w₂, hfree, hloads₂, hhash₂⟩ : ∃ w₂, pkgFreeInstalledFiles i { w₁ with fileHash := hash } =
          some (⟨⟩, w₂) ∧ Loads i w w₂ ∧ w₂.fileHash = hash :=
        ⟨_, rfl, ⟨fun j hj => (Database.setPkg_pkg_of_ne _ _ hj).trans (hloads.other j hj), hloads.files⟩, rfl⟩
      have hdisjoint : ∀ key ∈ lists.flatMap Prod.snd, key ∉ keys := fun key hkey hkey' => hkeys.2.2 hkey' hkey
      obtain ⟨w', hrun, hrest, hother⟩ := @ih w₂ hids.2 hkeys.2.1 hback.2
        (fun e he => by
          have hne : e.1 ≠ i := fun heq => hids.1 (List.mem_map.mpr ⟨e, he, heq⟩)
          obtain ⟨hinstalled, hunloaded, path, hpath, hfile⟩ := hready e he
          rw [World.Lists, World.listFile, hloads₂.other e.1 hne, hloads₂.files]
          exact ⟨hinstalled, hunloaded, path, hpath, hfile⟩)
        (fun key hkey => by rw [hhash₂, hout key (hdisjoint key hkey), hnone.2 key hkey])
      refine ⟨w', ?_, ?_, fun key hkey => ?_⟩
      · rw [List.map_cons, loadFileOwners, bind_of_eq_some hget]
        dsimp only
        rw [bind_of_eq_some hset, bind_of_eq_some hfree]
        exact hrun
      · rw [List.forall_mem_cons]
        refine ⟨fun key hkey => ?_, hrest⟩
        rw [hother key fun hmem => hdisjoint key hmem hkey, hhash₂, hin key hkey]
      · rw [List.mem_append, not_or] at hkey
        rw [hother key hkey.2, hhash₂, hout key hkey.1]

/-! ## From one run to the next -/

theorem FileHash.mem_of_get {hash : FileHash} {key : CStr} {i : PkgId} (h : hash.get key = some i) :
    (key, i) ∈ hash := by
  induction hash with
  | nil => cases h
  | cons entry hash ih =>
      obtain ⟨k, j⟩ := entry
      rw [FileHash.get] at h
      split at h
      · rename_i hk
        rw [hk, Option.some.inj h]
        exact List.mem_cons_self
      · exact List.mem_cons_of_mem _ (ih h)

theorem FileHash.Distinct.get_of_mem {hash : FileHash} (hdistinct : hash.Distinct) {key : CStr} {i : PkgId}
    (h : (key, i) ∈ hash) : hash.get key = some i := by
  induction hash with
  | nil => cases h
  | cons entry hash ih =>
      obtain ⟨k, j⟩ := entry
      obtain ⟨hk, hdistinct⟩ := List.nodup_cons.mp hdistinct
      rw [FileHash.get]
      rcases List.mem_cons.mp h with heq | hmem
      · obtain ⟨rfl, rfl⟩ := Prod.mk.inj heq
        exact if_pos rfl
      · rw [if_neg fun heq : k = key => hk (List.mem_map.mpr ⟨_, hmem, heq.symm⟩), ih hdistinct hmem]

theorem World.mem_ownedKeys {w : World} {i : PkgId} {key : CStr} : key ∈ w.ownedKeys i ↔ (key, i) ∈ w.fileHash := by
  rw [World.ownedKeys, List.mem_map]
  constructor
  · rintro ⟨⟨k, j⟩, hmem, rfl⟩
    obtain ⟨hmem, hj⟩ := List.mem_filter.mp hmem
    exact beq_iff_eq.mp hj ▸ hmem
  · exact fun h => ⟨(key, i), List.mem_filter.mpr ⟨h, beq_self_eq_true i⟩, rfl⟩

/-- The run `w₀` begins where `w'` has ended, and `f` says what has become of the pointers of `w`: the
packages that were installed are, they have their list files, and no file has an owner yet. -/
structure NextRun (f : PkgId → PkgId) (w w' w₀ : World) : Prop where
  installedPkgs : w₀.installedPkgs = w.installedPkgs.map f
  nodup : w₀.installedPkgs.Nodup
  listFile : ∀ i ∈ w.installedPkgs, w₀.listFile (f i) = w'.listFile i
  unloaded : ∀ i ∈ w.installedPkgs, (w₀.db.pkg (f i)).installedFiles = none
  fileHash : w₀.fileHash = []
  files : w₀.disk.files = w'.disk.files

/-- **Owners are kept** from one run to the next, where the list files have been written and each package has
one of its own. -/
theorem fileOwners_restart (hnoaction : env.noaction = false) (hopens : OpensFiles env) {w w' w₀ : World}
    {f : PkgId → PkgId} (hpaths : w.installedPkgs.Pairwise fun i j => w.listFile i ≠ w.listFile j)
    (hcurrent : ∀ i ∈ w.installedPkgs, (w.db.pkg i).stateFlag.filelistChanged = false →
      w.Lists i (w.ownedKeys i))
    (hdistinct : w.fileHash.Distinct) (howners : ∀ entry ∈ w.fileHash, entry.2 ∈ w.installedPkgs)
    (hback : ∀ entry ∈ w.fileHash, ComesBack env entry.1)
    (hwrite : pkgWriteChangedFilelists env w = some (0, w')) (hnext : NextRun f w w' w₀) :
    ∃ w₁, pkgInfoPreinstallCheck env w₀ = some (⟨⟩, w₁) ∧
      ∀ key, w₁.fileHash.get key = (w.fileHash.get key).map f := by
  have hlists := pkgWriteChangedFilelists_lists hnoaction hpaths hcurrent hwrite
  have hids : (w.installedPkgs.map fun i => (f i, w.ownedKeys i)).map Prod.fst = w₀.installedPkgs := by
    rw [hnext.installedPkgs, List.map_map]
    rfl
  have hflat : (w.installedPkgs.map fun i => (f i, w.ownedKeys i)).flatMap Prod.snd =
      w.installedPkgs.flatMap w.ownedKeys := List.flatMap_map ..
  have hmem : ∀ key, key ∈ w.installedPkgs.flatMap w.ownedKeys ↔ (w.fileHash.get key).isSome = true := by
    intro key
    rw [List.mem_flatMap, Option.isSome_iff_exists]
    constructor
    · exact fun ⟨i, _, hkey⟩ => ⟨i, hdistinct.get_of_mem (World.mem_ownedKeys.mp hkey)⟩
    · intro ⟨i, hget⟩
      have hentry := FileHash.mem_of_get hget
      exact ⟨i, howners _ hentry, World.mem_ownedKeys.mpr hentry⟩
  -- no file is in two lists, for it has one owner
  have hnodup : (w.installedPkgs.flatMap w.ownedKeys).Nodup := by
    refine List.nodup_flatMap.mpr ⟨fun i _ => ?_, hpaths.imp fun {i j} hne => ?_⟩
    · exact hdistinct.sublist (List.filter_sublist.map _)
    · intro key hi hj
      have hboth := (hdistinct.get_of_mem (World.mem_ownedKeys.mp hi)).symm.trans
        (hdistinct.get_of_mem (World.mem_ownedKeys.mp hj))
      exact hne (by rw [Option.some.inj hboth])
  obtain ⟨w₁, hrun, hin, hout⟩ := @loadFileOwners_eq env hopens
    (w.installedPkgs.map fun i => (f i, w.ownedKeys i)) w₀ (by rw [hids]; exact hnext.nodup)
    (by rw [hflat]; exact hnodup)
    (fun key hkey => by
      rw [hflat] at hkey
      obtain ⟨i, -, hi⟩ := List.mem_flatMap.mp hkey
      exact hback _ (World.mem_ownedKeys.mp hi))
    (fun e he => by
      obtain ⟨i, hi, rfl⟩ := List.mem_map.mp he
      have hinstalled : f i ∈ w₀.installedPkgs := hnext.installedPkgs ▸ List.mem_map_of_mem hi
      refine ⟨fun hstatus => ?_, hnext.unloaded i hi, ?_⟩
      · have htrue := (List.mem_filter.mp hinstalled).2
        rw [Pkg.isInstalled, hstatus] at htrue
        cases htrue
      · obtain ⟨path, hpath, hfile⟩ := hlists i hi
        exact ⟨path, (hnext.listFile i hi).trans hpath, by rw [hnext.files]; exact hfile⟩)
    (fun key _ => by rw [hnext.fileHash]; rfl)
  rw [hids] at hrun
  refine ⟨w₁, hrun, fun key => ?_⟩
  cases hget : w.fileHash.get key with
  | none =>
      have hnot : key ∉ w.installedPkgs.flatMap w.ownedKeys := by
        rw [hmem, hget]
        exact Bool.false_ne_true
      rw [hout key (by rw [hflat]; exact hnot), hnext.fileHash]
      rfl
  | some i =>
      have hentry := FileHash.mem_of_get hget
      exact hin (f i, w.ownedKeys i) (List.mem_map.mpr ⟨i, howners _ hentry, rfl⟩) key
        (World.mem_ownedKeys.mpr hentry)

/-- An installed package whose list file is out of date. -/
def changedPkg (changed : Bool) : Pkg :=
  { name := "p".toList, stateStatus := .installed, dest := some rootDest
    stateFlag := { filelistChanged := changed } }

/-- It owns the file `/f`. -/
def changedWorld : World :=
  { rootedWorld with
    db := { pkg := fun _ => changedPkg true, abstractPkg := fun _ => { pkgs := some [0] } }
    names := ["p".toList]
    fileHash := [("/f".toList, 0)] }

/-- The file is found in the list file by the next run. -/
theorem fileOwners_restart_changed :
    ∃ w' w₁, pkgWriteChangedFilelists (plainEnv []) changedWorld = some (0, w') ∧
      pkgInfoPreinstallCheck (plainEnv []) { w' with fileHash := [] } = some (⟨⟩, w₁) ∧
      ∀ key, w₁.fileHash.get key = (changedWorld.fileHash.get key).map id := by
  have hrun : (pkgWriteChangedFilelists (plainEnv []) changedWorld).map
      (fun r => (r.1, r.2.installedPkgs, r.2.db.pkg 0)) = some (0, [0], changedPkg false) := by
    decide +kernel
  obtain ⟨⟨rc, w'⟩, hwrite, hresult⟩ := Option.map_eq_some_iff.mp hrun
  obtain ⟨rfl, hrest⟩ := Prod.mk.inj hresult
  obtain ⟨hinstalled, hpkg⟩ := Prod.mk.inj hrest
  dsimp only at hinstalled hpkg
  have hone : changedWorld.installedPkgs = [0] := by decide
  have hnodup : w'.installedPkgs.Nodup := hinstalled.symm ▸ List.nodup_singleton 0
  obtain ⟨w₁, hcheck, howners⟩ := @fileOwners_restart (plainEnv []) rfl (fun _ _ => rfl) changedWorld w'
    { w' with fileHash := [] } id (by rw [hone]; exact List.pairwise_singleton _ _)
    (fun i hi hclean => by rw [hone] at hi; rw [List.mem_singleton.mp hi] at hclean; cases hclean)
    (List.nodup_singleton _) (by decide)
    (fun entry hentry => by
      rw [List.mem_singleton.mp hentry]
      exact ⟨by decide, by decide, rfl⟩)
    hwrite
    { installedPkgs := by rw [hone]; exact hinstalled
      nodup := hnodup
      listFile := fun _ _ => rfl
      unloaded := fun i hi => by
        rw [hone] at hi
        rw [List.mem_singleton.mp hi]
        exact congrArg Pkg.installedFiles hpkg
      fileHash := rfl
      files := rfl }
  exact ⟨w', w₁, hwrite, hcheck, howners⟩

end FirmwareTools.Opkg

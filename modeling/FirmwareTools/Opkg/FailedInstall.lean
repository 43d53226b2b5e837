import FirmwareTools.Opkg.Duplicates
import FirmwareTools.Opkg.Nested
import FirmwareTools.Opkg.Statuses

/-! # Failed installations

`opkg_install_pkg` takes over the files of its package before it looks at the dependencies, and it
marks the list of the package's files as changed before the steps that it unwinds. None of what it
calls when it fails gives the files back or takes the mark away.

* **`updateFileOwnership_cases`** — the files that are taken over;
* **`failedInstall_iff`** — a call that fails leaves the bookkeeping of the files as it was if and
  only if it took over no file of another owner and did not come to the mark;
* **`not_sameBookkeeping_clash`** — a package with a file that nobody owns and one that clashes. -/

namespace FirmwareTools.Opkg

open Op

variable {env : Env}

/-! ## The bookkeeping -/

/-- `SF_FILELIST_CHANGED` -/
def World.changed (w : World) (i : PkgId) : Bool := (w.db.pkg i).stateFlag.filelistChanged

/-- The list of a package's files that is in memory because somebody holds it. A list that nobody
holds is read when it is asked for. -/
def Pkg.Holds (pkg : Pkg) (files : List CStr) : Prop :=
  pkg.installedFiles = some files ∧ 0 < pkg.installedFilesRefCnt

/-- What the installation of a package that fails should leave as it was: the owner of each file, the
lists of the files of the other packages, and which lists have changed. -/
structure SameBookkeeping (i : PkgId) (w w' : World) : Prop where
  owner : ∀ fileName, w'.fileHash.get fileName = w.fileHash.get fileName
  list : ∀ j ≠ i, ∀ files, (w.db.pkg j).Holds files → (w'.db.pkg j).Holds files
  changed : ∀ j, w'.changed j = w.changed j

theorem sameBookkeeping_frame (i : PkgId) : Frame (SameBookkeeping i) where
  refl _ := ⟨fun _ => rfl, fun _ _ _ h => h, fun _ => rfl⟩
  trans h h' := ⟨fun fileName => (h'.owner fileName).trans (h.owner fileName),
    fun j hj files hfiles => h'.list j hj files (h.list j hj files hfiles),
    fun j => (h'.changed j).trans (h.changed j)⟩

theorem sameBookkeeping_disk (i : PkgId) : Allows (SameBookkeeping i) .disk := by
  rintro w _ ⟨disk, rfl⟩
  exact ⟨fun _ => rfl, fun _ _ _ h => h, fun _ => rfl⟩

theorem sameBookkeeping_marks (i : PkgId) : Allows (SameBookkeeping i) .marks := by
  rintro w _ ⟨marks, rfl⟩
  exact ⟨fun _ => rfl, fun _ _ _ h => h, fun _ => rfl⟩

theorem sameBookkeeping_minor (i : PkgId) : Allows (SameBookkeeping i) .minor := by
  rintro w _ ⟨k, p, -, hlisting, rfl⟩
  have hpkg : ∀ j, ((w.db.setPkg k p).pkg j).listing = (w.db.pkg j).listing := by
    intro j
    by_cases hj : j = k
    · subst hj
      rw [Database.setPkg_pkg_self, hlisting]
    · rw [Database.setPkg_pkg_of_ne _ _ hj]
  refine ⟨fun _ => rfl, fun j _ files h => ?_, fun j => ?_⟩
  · obtain ⟨hfiles, hcnt⟩ := h
    have hp := hpkg j
    simp only [Pkg.listing, Prod.mk.injEq] at hp
    exact ⟨hp.1.trans hfiles, hp.2.1 ▸ hcnt⟩
  · have hp := hpkg j
    simp only [Pkg.listing, Prod.mk.injEq] at hp
    exact hp.2.2

/-! ## Lists that are read and dropped -/

/-- Nothing but the list of one package's files has been read or dropped. -/
structure OnlyList (i : PkgId) (w w' : World) : Prop where
  fileHash : w'.fileHash = w.fileHash
  obsFileHash : w'.obsFileHash = w.obsFileHash
  changed : ∀ j, w'.changed j = w.changed j
  pkg : ∀ j ≠ i, w'.db.pkg j = w.db.pkg j

theorem onlyList_frame (i : PkgId) : Frame (OnlyList i) where
  refl _ := ⟨rfl, rfl, fun _ => rfl, fun _ _ => rfl⟩
  trans h h' := ⟨h'.fileHash.trans h.fileHash, h'.obsFileHash.trans h.obsFileHash,
    fun j => (h'.changed j).trans (h.changed j), fun j hj => (h'.pkg j hj).trans (h.pkg j hj)⟩

theorem onlyList_disk (i : PkgId) : Allows (OnlyList i) .disk := by
  rintro w _ ⟨disk, rfl⟩
  exact ⟨rfl, rfl, fun _ => rfl, fun _ _ => rfl⟩

theorem onlyList_list (i : PkgId) : Allows (OnlyList i) (.list i) := by
  rintro w _ ⟨files, cnt, rfl⟩
  refine ⟨rfl, rfl, fun j => ?_, fun j hj => Database.setPkg_pkg_of_ne _ _ hj⟩
  by_cases hj : j = i
  · subst hj
    rw [World.changed, Database.setPkg_pkg_self]
    rfl
  · rw [World.changed, Database.setPkg_pkg_of_ne _ _ hj]
    rfl

theorem OnlyList.sameBookkeeping {i : PkgId} {w w' : World} (h : OnlyList i w w') :
    SameBookkeeping i w w' where
  owner _ := by rw [h.fileHash]
  list j hj files hfiles := by rwa [h.pkg j hj]
  changed := h.changed

theorem pkgGetInstalledFiles_onlyList (i : PkgId) : Keeps (OnlyList i) (pkgGetInstalledFiles env i) :=
  keeps_pkgGetInstalledFiles (onlyList_frame i) (fun _ => keeps_onDisk (onlyList_disk i) _)
    (onlyList_list i)

theorem pkgFreeInstalledFiles_onlyList (i : PkgId) : Keeps (OnlyList i) (pkgFreeInstalledFiles i) :=
  keeps_pkgFreeInstalledFiles (onlyList_list i)

/-- A list that is held before it is asked for is held once more. -/
theorem pkgGetInstalledFiles_holds {i : PkgId} {w w' : World} {files : List CStr}
    {r : Option (List CStr)} (h : pkgGetInstalledFiles env i w = some (r, w'))
    (hfiles : (w.db.pkg i).Holds files) :
    (w'.db.pkg i).installedFiles = some files ∧ 1 < (w'.db.pkg i).installedFilesRefCnt := by
  obtain ⟨hlist, hcnt⟩ := hfiles
  unfold pkgGetInstalledFiles at h
  rw [modifyPkg_bind, getPkg_bind] at h
  simp only [Database.setPkg_pkg_self, Pkg.withRefCnt, hlist] at h
  obtain ⟨-, rfl⟩ := Prod.mk.inj (pure_eq_some.mp h)
  rw [Database.setPkg_pkg_self]
  exact ⟨rfl, by simpa using hcnt⟩

/-- Reading a list and dropping it, with something in between that is not about packages, leaves a
list that is held. -/
theorem holds_free {i j : PkgId} {w w₁ w₂ w' : World} {files : List CStr} {r : Option (List CStr)}
    (hget : pkgGetInstalledFiles env i w = some (r, w₁)) (hsame : w₂.db = w₁.db)
    (hfree : pkgFreeInstalledFiles i w₂ = some (⟨⟩, w')) (hfiles : (w.db.pkg j).Holds files) :
    (w'.db.pkg j).Holds files := by
  obtain ⟨-, rfl⟩ := Prod.mk.inj (modifyPkg_eq_some.mp hfree)
  by_cases hj : j = i
  · subst hj
    obtain ⟨hlist, hcnt⟩ := pkgGetInstalledFiles_holds hget hfiles
    have hpos : 0 < (w₁.db.pkg j).installedFilesRefCnt - 1 := by omega
    dsimp only
    rw [Database.setPkg_pkg_self, hsame, if_pos hpos]
    exact ⟨hlist, hpos⟩
  · dsimp only
    rw [Database.setPkg_pkg_of_ne _ _ hj, hsame, (pkgGetInstalledFiles_onlyList i _ _ _ hget).pkg j hj]
    exact hfiles

/-! ## Giving a file to a package -/

/-- Mark the list of a package's files as changed. -/
def World.mark (w : World) (i : PkgId) : World :=
  { w with db := w.db.setPkg i ((w.db.pkg i).withFilelistChanged true) }

theorem changed_mark (w : World) (i j : PkgId) :
    (w.mark i).changed j = if j = i then true else w.changed j := by
  split
  · rename_i hj
    subst hj
    rw [World.changed, World.mark, Database.setPkg_pkg_self]
    rfl
  · rename_i hj
    rw [World.changed, World.mark, Database.setPkg_pkg_of_ne _ _ hj]
    rfl

theorem holds_mark {w : World} {i j : PkgId} {files : List CStr} :
    ((w.mark i).db.pkg j).Holds files ↔ (w.db.pkg j).Holds files := by
  by_cases hj : j = i
  · subst hj
    rw [World.mark, Database.setPkg_pkg_self]
    exact Iff.rfl
  · rw [World.mark, Database.setPkg_pkg_of_ne _ _ hj]

/-- The mark is a change unless it is there. -/
theorem sameBookkeeping_mark {w : World} {i j : PkgId} (h : w.changed j = true) :
    SameBookkeeping i w (w.mark j) where
  owner _ := rfl
  list _ _ _ hfiles := holds_mark.mpr hfiles
  changed k := by
    rw [changed_mark]
    split
    · rename_i hk
      rw [hk, h]
    · rfl

/-- **`file_hash_set_file_owner`**: a directory is nobody's; a file that has an owner leaves the
list of the owner, and both packages are marked. -/
theorem fileHashSetFileOwner_cases {fileName : CStr} {i : PkgId} {w w' : World}
    (h : fileHashSetFileOwner env fileName i w = some (⟨⟩, w')) :
    (fileName.getLast? = some '/' ∧ w' = w) ∨
    (fileName.getLast? ≠ some '/' ∧ ∃ w₀,
      w₀ = { w with fileHash := w.fileHash.insert (stripOfflineRoot env fileName) i } ∧
      ((w.fileHash.get (stripOfflineRoot env fileName) = none ∧ w' = w₀) ∨
        ∃ old w₁, w.fileHash.get (stripOfflineRoot env fileName) = some old ∧
          OnlyList old w₀ w₁ ∧ w' = (w₁.mark old).mark i)) := by
  unfold fileHashSetFileOwner at h
  split at h
  · rename_i hdir
    obtain ⟨-, rfl⟩ := Prod.mk.inj (pure_eq_some.mp h)
    exact .inl ⟨hdir, rfl⟩
  · rename_i hdir
    refine .inr ⟨hdir, _, rfl, ?_⟩
    obtain ⟨owner, w₁, howner, hrest⟩ := bind_eq_some.mp h
    obtain ⟨rfl, rfl⟩ := Prod.mk.inj ((fileHashGetFileOwner_eq_some env).mp howner)
    rw [modify_bind] at hrest
    cases hget : w₁.fileHash.get (stripOfflineRoot env fileName) with
    | none =>
        rw [hget] at hrest
        obtain ⟨-, rfl⟩ := Prod.mk.inj (pure_eq_some.mp hrest)
        exact .inl ⟨rfl, rfl⟩
    | some old =>
        rw [hget] at hrest
        refine .inr ⟨old, ?_⟩
        dsimp only at hrest
        unfold dropFromOldOwner at hrest
        obtain ⟨_, w₂, hfiles, hderef⟩ := bind_eq_some.mp hrest
        rw [deref_bind] at hderef
        obtain ⟨files, -, hdrop⟩ := Option.bind_eq_some_iff.mp hderef
        obtain ⟨_, w₄, herase, hheld⟩ := bind_eq_some.mp hdrop
        obtain ⟨_, w₅, hfree, hmarks⟩ := bind_eq_some.mp hheld
        rw [modifyPkg_bind] at hmarks
        obtain ⟨-, rfl⟩ := Prod.mk.inj (modifyPkg_eq_some.mp hmarks)
        have hR := onlyList_frame old
        have herased : OnlyList old w₂ w₄ := by
          refine (keeps_modifyPkg_list (onlyList_list old) fun p => ?_) _ _ _ herase
          exact ⟨some (files.erase _), p.installedFilesRefCnt, rfl⟩
        refine ⟨w₅, rfl, ?_, rfl⟩
        exact hR.trans (hR.trans (pkgGetInstalledFiles_onlyList old _ _ _ hfiles) herased)
          (pkgFreeInstalledFiles_onlyList old _ _ _ hfree)

/-! ## Taking over files -/

variable (env) in
/-- `update_file_ownership` gives a file to the new package if it has no owner, belongs to the old
package or is obsolete. A directory stays nobody's. -/
def World.Claimable (w : World) (oldPkg : Option PkgId) (fileName : CStr) : Prop :=
  fileName.getLast? ≠ some '/' ∧ (w.fileHash.get (stripOfflineRoot env fileName) = none ∨
    w.fileHash.get (stripOfflineRoot env fileName) = oldPkg ∨
    (w.obsFileHash.get fileName).isSome = true)

/-- What taking over files does to any of them and to the marks. -/
structure Claims (i : PkgId) (w w' : World) : Prop where
  owner : ∀ key, w'.fileHash.get key = w.fileHash.get key ∨ w'.fileHash.get key = some i
  obsFileHash : w'.obsFileHash = w.obsFileHash
  changed : ∀ j, w.changed j = true → w'.changed j = true

theorem claims_frame (i : PkgId) : Frame (Claims i) where
  refl _ := ⟨fun _ => .inl rfl, rfl, fun _ h => h⟩
  trans h h' := by
    refine ⟨fun key => ?_, h'.obsFileHash.trans h.obsFileHash, fun j hj => h'.changed j (h.changed j hj)⟩
    rcases h'.owner key with hkey | hkey
    · rw [hkey]
      exact h.owner key
    · exact .inr hkey

/-- A file that the package has is not lost. -/
theorem Claims.keeps {i : PkgId} {w w' : World} (h : Claims i w w') {key : CStr}
    (hkey : w.fileHash.get key = some i) : w'.fileHash.get key = some i := by
  rcases h.owner key with hsame | hsame
  · rw [hsame, hkey]
  · exact hsame

/-- One file: it is left alone, or it gets the package as its owner. -/
theorem claimFile_cases {fileName : CStr} {i : PkgId} {oldPkg : Option PkgId} {w w' : World}
    (h : claimFile env i oldPkg fileName w = some (⟨⟩, w')) :
    (¬ w.Claimable env oldPkg fileName ∧ w' = w) ∨
    (w.Claimable env oldPkg fileName ∧ ∃ w₀,
      w₀ = { w with fileHash := w.fileHash.insert (stripOfflineRoot env fileName) i } ∧
      ((w.fileHash.get (stripOfflineRoot env fileName) = none ∧ w' = w₀) ∨
        ∃ old w₁, w.fileHash.get (stripOfflineRoot env fileName) = some old ∧
          OnlyList old w₀ w₁ ∧ w' = (w₁.mark old).mark i)) := by
  unfold claimFile at h
  obtain ⟨owner, w₁, howner, hobs⟩ := bind_eq_some.mp h
  obtain ⟨rfl, rfl⟩ := Prod.mk.inj ((fileHashGetFileOwner_eq_some env).mp howner)
  unfold obsFileHashGet at hobs
  rw [bind_assoc, get_bind, pure_bind] at hobs
  split at hobs
  · rename_i hclaim
    rcases fileHashSetFileOwner_cases hobs with ⟨hdir, rfl⟩ | ⟨hdir, hset⟩
    · exact .inl ⟨fun hclaimable => hclaimable.1 hdir, rfl⟩
    · exact .inr ⟨⟨hdir, hclaim⟩, hset⟩
  · rename_i hclaim
    obtain ⟨-, rfl⟩ := Prod.mk.inj (pure_eq_some.mp hobs)
    exact .inl ⟨fun hclaimable => hclaim hclaimable.2, rfl⟩

theorem get_insert {hash : FileHash} {key key' : CStr} {i : PkgId} :
    (hash.insert key i).get key' = if key' = key then some i else hash.get key' := by
  split
  · rename_i hkey
    rw [hkey, FileHash.get_insert_self]
  · rename_i hkey
    rw [FileHash.get_insert_of_ne _ _ hkey]

theorem claimFile_claims (fileName : CStr) (i : PkgId) (oldPkg : Option PkgId) :
    Keeps (Claims i) (claimFile env i oldPkg fileName) := by
  intro w _ w' h
  rcases claimFile_cases h with ⟨-, rfl⟩ | ⟨-, w₀, rfl, hset⟩
  · exact (claims_frame i).refl _
  · have howner : ∀ key, (w.fileHash.insert (stripOfflineRoot env fileName) i).get key
        = w.fileHash.get key ∨ (w.fileHash.insert (stripOfflineRoot env fileName) i).get key
        = some i := by
      intro key
      rw [get_insert]
      split
      · exact .inr rfl
      · exact .inl rfl
    rcases hset with ⟨-, rfl⟩ | ⟨old, w₁, -, honly, rfl⟩
    · exact ⟨howner, rfl, fun _ hj => hj⟩
    · refine ⟨fun key => ?_, honly.obsFileHash, fun j hj => ?_⟩
      · change w₁.fileHash.get key = _ ∨ w₁.fileHash.get key = _
        rw [honly.fileHash]
        exact howner key
      · rw [changed_mark, changed_mark, honly.changed]
        split
        · rfl
        · split
          · rfl
          · exact hj

/-- **A file that may be taken over** belongs to the package afterwards, which is marked if the file
was its own before. -/
theorem claimFile_takes {fileName : CStr} {i : PkgId} {oldPkg : Option PkgId} {w w' : World}
    (h : claimFile env i oldPkg fileName w = some (⟨⟩, w'))
    (hclaimable : w.Claimable env oldPkg fileName) :
    w'.fileHash.get (stripOfflineRoot env fileName) = some i ∧
      (w.fileHash.get (stripOfflineRoot env fileName) = some i → w'.changed i = true) := by
  rcases claimFile_cases h with ⟨hnot, -⟩ | ⟨-, w₀, rfl, ⟨hnone, rfl⟩ | ⟨old, w₁, -, honly, rfl⟩⟩
  · exact absurd hclaimable hnot
  · refine ⟨FileHash.get_insert_self _ _ _, fun hself => ?_⟩
    rw [hnone] at hself
    cases hself
  · refine ⟨?_, fun _ => by rw [changed_mark, if_pos rfl]⟩
    change w₁.fileHash.get _ = _
    rw [honly.fileHash]
    exact FileHash.get_insert_self _ _ _

/-- Taking over a file the marked package has changes nothing. -/
theorem claimFile_same {fileName : CStr} {i : PkgId} {oldPkg : Option PkgId} {w w' : World}
    (h : claimFile env i oldPkg fileName w = some (⟨⟩, w'))
    (hown : w.Claimable env oldPkg fileName →
      w.fileHash.get (stripOfflineRoot env fileName) = some i ∧ w.changed i = true) :
    SameBookkeeping i w w' := by
  rcases claimFile_cases h with ⟨-, rfl⟩ | ⟨hclaimable, w₀, rfl, hset⟩
  · exact (sameBookkeeping_frame i).refl _
  · obtain ⟨hself, hchanged⟩ := hown hclaimable
    have hinsert : SameBookkeeping i w
        { w with fileHash := w.fileHash.insert (stripOfflineRoot env fileName) i } := by
      refine ⟨fun key => ?_, fun _ _ _ hfiles => hfiles, fun _ => rfl⟩
      dsimp only
      rw [get_insert]
      split
      · rename_i hkey
        rw [hkey, hself]
      · rfl
    rcases hset with ⟨hnone, -⟩ | ⟨old, w₁, hold, honly, rfl⟩
    · rw [hnone] at hself
      cases hself
    · obtain rfl := Option.some.inj (hold.symm.trans hself)
      have h₁ : w₁.changed old = true := by
        rw [honly.changed]
        exact hchanged
      have hR := sameBookkeeping_frame old
      refine hR.trans (hR.trans hinsert honly.sameBookkeeping)
        (hR.trans (sameBookkeeping_mark h₁) (sameBookkeeping_mark ?_))
      rw [changed_mark, if_pos rfl]

theorem Claims.claimable {i : PkgId} {oldPkg : Option PkgId} {w w' : World} {fileName : CStr}
    (h : Claims i w w') (hclaimable : w.Claimable env oldPkg fileName)
    (hsame : w'.fileHash.get (stripOfflineRoot env fileName)
      = w.fileHash.get (stripOfflineRoot env fileName)) : w'.Claimable env oldPkg fileName := by
  rw [World.Claimable, hsame, h.obsFileHash]
  exact hclaimable

/-- **The files that may be taken over** are those that may be at the beginning. -/
theorem claimFiles_take {files : List CStr} {i : PkgId} {oldPkg : Option PkgId} {w w' : World}
    (h : files.forM (claimFile env i oldPkg) w = some (⟨⟩, w')) {fileName : CStr}
    (hmem : fileName ∈ files) (hclaimable : w.Claimable env oldPkg fileName) :
    w'.fileHash.get (stripOfflineRoot env fileName) = some i ∧
      (w.fileHash.get (stripOfflineRoot env fileName) = some i → w'.changed i = true) := by
  induction files generalizing w with
  | nil => exact absurd hmem List.not_mem_nil
  | cons file files ih =>
      obtain ⟨_, w₁, hfile, hfiles⟩ := bind_eq_some.mp h
      have hfirst := claimFile_claims file i oldPkg _ _ _ hfile
      have hrest : Claims i w₁ w' := Keeps.forM (claims_frame i)
        (fun x _ => claimFile_claims x i oldPkg) _ _ _ hfiles
      rcases List.mem_cons.mp hmem with rfl | hmem
      · obtain ⟨howner, hchanged⟩ := claimFile_takes hfile hclaimable
        exact ⟨hrest.keeps howner, fun hself => hrest.changed i (hchanged hself)⟩
      · rcases hfirst.owner (stripOfflineRoot env fileName) with hsame | hown
        · obtain ⟨howner, hchanged⟩ := ih hfiles hmem (hfirst.claimable hclaimable hsame)
          exact ⟨howner, fun hself => hchanged (hsame.trans hself)⟩
        · refine ⟨hrest.keeps hown, fun hself => ?_⟩
          have hsame := hown.trans hself.symm
          exact (ih hfiles hmem (hfirst.claimable hclaimable hsame)).2 hown

/-- Taking over files of the marked package only changes nothing. -/
theorem claimFiles_same {files : List CStr} {i : PkgId} {oldPkg : Option PkgId} {w w' : World}
    (h : files.forM (claimFile env i oldPkg) w = some (⟨⟩, w'))
    (hown : ∀ fileName ∈ files, w.Claimable env oldPkg fileName →
      w.fileHash.get (stripOfflineRoot env fileName) = some i ∧ w.changed i = true) :
    SameBookkeeping i w w' := by
  induction files generalizing w with
  | nil =>
      obtain ⟨-, rfl⟩ := Prod.mk.inj (pure_eq_some.mp h)
      exact (sameBookkeeping_frame i).refl _
  | cons file files ih =>
      obtain ⟨_, w₁, hfile, hfiles⟩ := bind_eq_some.mp h
      have hsame := claimFile_same hfile (hown file List.mem_cons_self)
      have hobs := (claimFile_claims file i oldPkg _ _ _ hfile).obsFileHash
      refine (sameBookkeeping_frame i).trans hsame (ih hfiles fun fileName hmem hclaimable => ?_)
      rw [World.Claimable, hsame.owner, hobs] at hclaimable
      rw [hsame.owner, hsame.changed]
      exact hown fileName (List.mem_cons_of_mem _ hmem) hclaimable

/-- The packages and the owners of the files are the same. -/
def SameOwners (w w' : World) : Prop := w'.db = w.db ∧ w'.fileHash = w.fileHash

theorem sameOwners_frame : Frame SameOwners where
  refl _ := ⟨rfl, rfl⟩
  trans h h' := ⟨h'.1.trans h.1, h'.2.trans h.2⟩

theorem obsoleteFile_sameOwners (oldPkg : PkgId) (oldFile : CStr) :
    Keeps SameOwners (obsoleteFile env oldPkg oldFile) := by
  have hR := sameOwners_frame
  unfold obsoleteFile
  refine Keeps.bind hR (keeps_fileHashGetFileOwner hR oldFile) fun owner => ?_
  refine Keeps.ite (keeps_obsFileHashInsert ?_ oldFile oldPkg) (Keeps.pure hR _)
  rintro w _ ⟨obsFileHash, rfl⟩
  exact ⟨rfl, rfl⟩

/-- **The second half of `update_file_ownership`** is not about owners. -/
theorem obsoleteFiles_same (i old : PkgId) :
    Keeps (SameBookkeeping i) (obsoleteFiles env i old) := by
  intro w rc w' h
  have hR := sameBookkeeping_frame i
  have hfree : Keeps (SameBookkeeping i) (pkgFreeInstalledFiles i) :=
    (pkgFreeInstalledFiles_onlyList i).mono fun _ _ h => h.sameBookkeeping
  unfold obsoleteFiles at h
  obtain ⟨files, w₁, hget, hrest⟩ := bind_eq_some.mp h
  have honly := pkgGetInstalledFiles_onlyList old _ _ _ hget
  cases files with
  | none =>
      have hsame : SameBookkeeping i w w₁ := by
        refine ⟨fun key => by rw [honly.fileHash], fun j hj files hfiles => ?_, honly.changed⟩
        by_cases hjo : j = old
        · subst hjo
          obtain ⟨hlist, hcnt⟩ := pkgGetInstalledFiles_holds hget hfiles
          exact ⟨hlist, by omega⟩
        · rwa [honly.pkg j hjo]
      exact hR.trans hsame (Keeps.bind hR hfree (fun _ => Keeps.pure hR _) _ _ _ hrest)
  | some files =>
      obtain ⟨_, w₂, hforM, hrest⟩ := bind_eq_some.mp hrest
      obtain ⟨_, w₃, hold, hrest⟩ := bind_eq_some.mp hrest
      have hobs : SameOwners w₁ w₂ := Keeps.forM sameOwners_frame
        (fun file _ => obsoleteFile_sameOwners old file) _ _ _ hforM
      have honly' := pkgFreeInstalledFiles_onlyList old _ _ _ hold
      have hsame : SameBookkeeping i w w₃ := by
        refine ⟨fun key => by rw [honly'.fileHash, hobs.2, honly.fileHash],
          fun j _ files hfiles => holds_free hget hobs.1 hold hfiles, fun j => ?_⟩
        rw [honly'.changed, ← honly.changed, World.changed, hobs.1]
        rfl
      exact hR.trans hsame (Keeps.bind hR hfree (fun _ => Keeps.pure hR _) _ _ _ hrest)

/-- **`update_file_ownership`**: the list of the new package's files cannot be read, or they are taken
over one by one. -/
theorem updateFileOwnership_cases {i : PkgId} {oldPkg : Option PkgId} {w w' : World} {rc : Int}
    (h : updateFileOwnership env i oldPkg w = some (rc, w')) :
    ∃ files w₁, pkgGetInstalledFiles env i w = some (files, w₁) ∧
      ((files = none ∧ rc = -1 ∧ w' = w₁) ∨
        ∃ newList w₂, files = some newList ∧
          newList.forM (claimFile env i oldPkg) w₁ = some (⟨⟩, w₂) ∧ SameBookkeeping i w₂ w') := by
  unfold updateFileOwnership at h
  obtain ⟨files, w₁, hget, hrest⟩ := bind_eq_some.mp h
  refine ⟨files, w₁, hget, ?_⟩
  cases files with
  | none =>
      obtain ⟨rfl, rfl⟩ := Prod.mk.inj (pure_eq_some.mp hrest)
      exact .inl ⟨rfl, rfl, rfl⟩
  | some newList =>
      obtain ⟨_, w₂, hclaim, hrest⟩ := bind_eq_some.mp hrest
      refine .inr ⟨newList, w₂, rfl, hclaim, ?_⟩
      cases oldPkg with
      | none =>
          obtain ⟨_, w₃, hfree, hreturn⟩ := bind_eq_some.mp hrest
          obtain ⟨-, rfl⟩ := Prod.mk.inj (pure_eq_some.mp hreturn)
          exact (pkgFreeInstalledFiles_onlyList i _ _ _ hfree).sameBookkeeping
      | some old => exact obsoleteFiles_same i old _ _ _ hrest

/-! ## Clashes -/

/-- With `--force-overwrite` nothing clashes. -/
theorem checkDataFile_forced (hforce : env.forceOverwrite = true) {i : PkgId}
    {oldPkg : Option PkgId} {clashes n : Nat} {filename : CStr} {w w' : World}
    (h : checkDataFile env i oldPkg clashes filename w = some (n, w')) : n = clashes := by
  unfold checkDataFile at h
  obtain ⟨present, w₁, -, h₁⟩ := bind_eq_some.mp h
  obtain ⟨isDir, w₂, -, h₂⟩ := bind_eq_some.mp h₁
  split at h₂
  · exact (Prod.mk.inj (pure_eq_some.mp h₂)).1
  · obtain ⟨backup, w₃, -, h₃⟩ := bind_eq_some.mp h₂
    split at h₃
    · exact (Prod.mk.inj (pure_eq_some.mp h₃)).1
    · obtain ⟨_, w₄, -, h₄⟩ := bind_eq_some.mp h₃
      exact (Prod.mk.inj (pure_eq_some.mp h₄)).1

theorem checkDataFiles_forced (hforce : env.forceOverwrite = true) {i : PkgId}
    {oldPkg : Option PkgId} {clashes n : Nat} {files : List CStr} {w w' : World}
    (h : files.foldlM (checkDataFile env i oldPkg) clashes w = some (n, w')) : n = clashes := by
  induction files generalizing clashes w with
  | nil => exact (Prod.mk.inj (pure_eq_some.mp h)).1
  | cons file files ih =>
      rw [List.foldlM_cons] at h
      obtain ⟨m, w₁, hfile, hfiles⟩ := bind_eq_some.mp h
      rw [ih hfiles, checkDataFile_forced hforce hfile]

/-- Without it nothing is written. -/
theorem checkDataFile_same (hforce : env.forceOverwrite = false) (i : PkgId)
    (oldPkg : Option PkgId) (clashes : Nat) (filename : CStr) :
    Keeps (SameBookkeeping i) (checkDataFile env i oldPkg clashes filename) := by
  have hR := sameBookkeeping_frame i
  have hdisk := sameBookkeeping_disk i
  unfold checkDataFile
  refine Keeps.bind hR (keeps_liftM hdisk _) fun present => ?_
  refine Keeps.bind hR (keeps_liftM hdisk _) fun isDir => Keeps.ite (Keeps.pure hR _) ?_
  refine Keeps.bind hR (keeps_liftM hdisk _) fun backup => Keeps.ite (Keeps.pure hR _) ?_
  rw [if_neg (Bool.eq_false_iff.mp hforce)]
  refine Keeps.bind hR (keeps_fileHashGetFileOwner hR filename) fun owner => ?_
  extract_lets rest
  have hrest : ∀ allowed, Keeps (SameBookkeeping i) (rest allowed) := by
    intro allowed
    refine Keeps.ite (Keeps.pure hR _) ?_
    refine Keeps.bind hR (keeps_obsFileHashGet hR filename) fun obs => ?_
    exact Keeps.ite (Keeps.pure hR _) (Keeps.pure hR _)
  split
  · exact Keeps.bind hR (Keeps.get hR) fun w => Keeps.bind hR (Keeps.deref hR _) hrest
  · exact hrest false

/-- **A clash changes nothing**: where `check_data_file_clashes` gives files to the package, it does
not fail. -/
theorem checkDataFileClashes_fails {i : PkgId} {oldPkg : Option PkgId} {w w' : World} {rc : Int}
    (h : checkDataFileClashes env i oldPkg w = some (rc, w')) (hrc : rc ≠ 0) :
    SameBookkeeping i w w' := by
  have hR := sameBookkeeping_frame i
  unfold checkDataFileClashes at h
  obtain ⟨files, w₁, hget, hrest⟩ := bind_eq_some.mp h
  have hread := (pkgGetInstalledFiles_onlyList i _ _ _ hget).sameBookkeeping
  cases files with
  | none =>
      obtain ⟨-, rfl⟩ := Prod.mk.inj (pure_eq_some.mp hrest)
      exact hread
  | some files =>
      obtain ⟨clashes, w₂, hcheck, hrest⟩ := bind_eq_some.mp hrest
      obtain ⟨_, w₃, hfree, hreturn⟩ := bind_eq_some.mp hrest
      obtain ⟨rfl, rfl⟩ := Prod.mk.inj (pure_eq_some.mp hreturn)
      cases hforce : env.forceOverwrite with
      | true => exact absurd (congrArg Nat.cast (checkDataFiles_forced hforce hcheck)) hrc
      | false =>
          have hchecked := Keeps.foldlM hR
            (fun clashes file _ => checkDataFile_same hforce i oldPkg clashes file) _ _ _ _ hcheck
          exact hR.trans (hR.trans hread hchecked)
            (pkgFreeInstalledFiles_onlyList i _ _ _ hfree).sameBookkeeping

/-! ## Up to the point of no return -/

section Nested

variable {installPkg removePkg : PkgId → Run Int} {i : PkgId}
  (hinstall : ∀ j, Keeps (SameBookkeeping i) (installPkg j))
  (hremove : ∀ j, Keeps (SameBookkeeping i) (removePkg j))

include hinstall hremove

/-- **A step that fails and is unwound** leaves the bookkeeping to the nested calls. -/
theorem unwindableSteps_fails {oldPkg : Option PkgId} {replacees : List PkgId} {w w' : World}
    {rc : Int} (h : unwindableSteps env installPkg removePkg i oldPkg replacees w = some (rc, w'))
    (hrc : rc ≠ 0) : SameBookkeeping i w w' := by
  have hR := sameBookkeeping_frame i
  have hdisk := sameBookkeeping_disk i
  have hunwind : Keeps (SameBookkeeping i) (do
      let _ ← pkgRemoveInstalledReplaceesUnwind installPkg replacees
      return -1 : Run Int) :=
    Keeps.bind hR (keeps_pkgRemoveInstalledReplaceesUnwind hR fun j _ => hinstall j)
      fun _ => Keeps.pure hR _
  unfold unwindableSteps at h
  obtain ⟨err, w₁, hreplacees, h⟩ := bind_eq_some.mp h
  have h₁ := keeps_pkgRemoveInstalledReplacees hR (sameBookkeeping_minor i)
    (fun j _ => hremove j) _ _ _ hreplacees
  split at h
  · exact hR.trans h₁ (hunwind _ _ _ h)
  · obtain ⟨err, w₂, hpreinst, h⟩ := bind_eq_some.mp h
    have h₂ := hR.trans h₁ (keeps_preinstConfigure hR hdisk i oldPkg _ _ _ hpreinst)
    split at h
    · exact hR.trans h₂ (hunwind _ _ _ h)
    · rw [get_bind] at h
      obtain ⟨err, w₃, hbackup, h⟩ := bind_eq_some.mp h
      have h₃ := hR.trans h₂ (keeps_liftM hdisk _ _ _ _ hbackup)
      have hrest : ∀ (err : Int) w₁, (if err ≠ 0 then do
            let db := (← get).db
            backupModifiedConffilesUnwind env (db.pkg i) (oldPkg.map db.pkg)
            let _ ← pkgRemoveInstalledReplaceesUnwind installPkg replacees
            return -1
          else return 0 : Run Int) w₁ = some (rc, w') → err ≠ 0 ∧ SameBookkeeping i w₁ w' := by
        intro err w₁ h
        split at h
        · rename_i herr
          refine ⟨herr, Keeps.bind hR (Keeps.get hR) (fun w => ?_) _ _ _ h⟩
          exact Keeps.bind hR (keeps_liftM hdisk _) fun _ => hunwind
        · exact absurd (Prod.mk.inj (pure_eq_some.mp h)).1 hrc
      split at h
      · exact hR.trans h₃ (hrest err w₃ h).2
      · obtain ⟨err, w₄, hcheck, h⟩ := bind_eq_some.mp h
        obtain ⟨hclash, hsame⟩ := hrest err w₄ h
        exact hR.trans (hR.trans h₃ (checkDataFileClashes_fails hcheck hclash)) hsame

/-- **Between the dependencies and the point of no return** the package is marked, and the mark
stays. -/
theorem beforePointOfNoReturn_fails {oldPkg : Option PkgId} {w w' : World}
    (h : beforePointOfNoReturn env installPkg removePkg i oldPkg w = some (.done (-1), w')) :
    SameBookkeeping i (w.mark i) w' := by
  have hR := sameBookkeeping_frame i
  unfold beforePointOfNoReturn at h
  rw [get_bind, deref_bind] at h
  obtain ⟨replacees, -, h⟩ := Option.bind_eq_some_iff.mp h
  rw [modifyPkg_bind] at h
  obtain ⟨_, w₁, horphans, h⟩ := bind_eq_some.mp h
  have h₁ : SameBookkeeping i (w.mark i) w₁ := Keeps.forM hR (fun old _ =>
    keeps_pkgRemoveOrphanDependent hR (sameBookkeeping_minor i) old hremove) _ _ _ horphans
  obtain ⟨err, w₂, hsteps, h⟩ := bind_eq_some.mp h
  split at h
  · rename_i herr
    obtain ⟨-, rfl⟩ := Prod.mk.inj (pure_eq_some.mp h)
    exact hR.trans h₁ (unwindableSteps_fails hinstall hremove hsteps herr)
  · split at h
    · exact absurd h (pure_ne_some (by decide))
    · exact absurd h (pure_ne_some (by simp))

end Nested

/-! ## Where a call fails -/

variable (env) in
/-- The call comes to take over its package's files, which are these. -/
def ComesToClaim (i : PkgId) (w : World) (files : List CStr) : Prop :=
  ∃ oldPkg w₁ w₂, beforeOwnership env i w = some (.go (.install oldPkg), w₁) ∧
    pkgGetInstalledFiles env i w₁ = some (some files, w₂)

variable (env) in
/-- The call gets past the dependencies, to where it marks its package. -/
def ComesToMark (installPkg : PkgId → Run Int) (i : PkgId) (w : World) : Prop :=
  ∃ oldPkg w₁, beforeDependencies env i w = some (.go (.install oldPkg), w₁) ∧
    (env.nodeps = true ∨ ∃ w₂, satisfyDependenciesFor env installPkg i w₁ = some (0, w₂) ∧
      (w₂.db.pkg i).stateStatus ≠ .unpacked)

variable (env) in
/-- The call is one that leaves the bookkeeping alone: a file it may take over is one that its marked
package has, and it comes to the mark only if that is there. -/
structure LeavesBookkeeping (installPkg : PkgId → Run Int) (i : PkgId) (w : World) : Prop where
  claim : ∀ files, ComesToClaim env i w files → ∀ fileName ∈ files,
    w.Claimable env (w.db.installedByName (w.db.pkg i).name) fileName →
      w.fileHash.get (stripOfflineRoot env fileName) = some i ∧ w.changed i = true
  mark : ComesToMark env installPkg i w → w.changed i = true

/-- What comes before the dependencies: with the files taken over or without. -/
theorem beforeDependencies_cases {i : PkgId} {w w' : World} {progressed : Progressed Stage}
    (h : beforeDependencies env i w = some (progressed, w')) :
    (beforeOwnership env i w = some (progressed, w') ∧
      ∀ oldPkg, progressed ≠ .go (.install oldPkg)) ∨
    ∃ oldPkg w₁ rc, beforeOwnership env i w = some (.go (.install oldPkg), w₁) ∧
      updateFileOwnership env i oldPkg w₁ = some (rc, w') ∧
      progressed = if rc ≠ 0 then .done (-1) else .go (.install oldPkg) := by
  unfold beforeDependencies at h
  obtain ⟨before, w₁, hbefore, h⟩ := bind_eq_some.mp h
  cases before with
  | done rc =>
      obtain ⟨rfl, rfl⟩ := Prod.mk.inj (pure_eq_some.mp h)
      exact .inl ⟨hbefore, fun _ => by simp⟩
  | go stage =>
      cases stage with
      | alreadyInstalled =>
          obtain ⟨rfl, rfl⟩ := Prod.mk.inj (pure_eq_some.mp h)
          exact .inl ⟨hbefore, fun _ => by simp⟩
      | downloadOnly =>
          obtain ⟨rfl, rfl⟩ := Prod.mk.inj (pure_eq_some.mp h)
          exact .inl ⟨hbefore, fun _ => by simp⟩
      | install oldPkg =>
          obtain ⟨rc, w₂, hupdate, h⟩ := bind_eq_some.mp h
          obtain ⟨rfl, rfl⟩ := Prod.mk.inj (pure_eq_some.mp h)
          exact .inr ⟨oldPkg, w₁, rc, hbefore, hupdate, rfl⟩

theorem beforeOwnership_same (i : PkgId) : Keeps (SameBookkeeping i) (beforeOwnership env i) :=
  keeps_beforeOwnership (sameBookkeeping_frame i) (sameBookkeeping_disk i) (sameBookkeeping_minor i) i

theorem beforeOwnership_obsFileHash (i : PkgId) :
    Keeps (fun w w' : World => w'.obsFileHash = w.obsFileHash) (beforeOwnership env i) := by
  have hR : Frame fun w w' : World => w'.obsFileHash = w.obsFileHash :=
    ⟨fun _ => rfl, fun h h' => h'.trans h⟩
  refine keeps_beforeOwnership hR ?_ ?_ i
  · rintro w _ ⟨disk, rfl⟩
    rfl
  · rintro w _ ⟨k, p, -, -, rfl⟩
    rfl

/-- **A call whose own claims decide**: the files have been taken over, and what comes then keeps
their owners and the mark. -/
theorem sameBookkeeping_claims_iff {i : PkgId} {oldPkg : Option PkgId} {files : List CStr}
    {w w₁ w₂ w₃ w' : World} {marked : Prop}
    (hbefore : beforeOwnership env i w = some (.go (.install oldPkg), w₁))
    (hget : pkgGetInstalledFiles env i w₁ = some (some files, w₂))
    (hclaim : files.forM (claimFile env i oldPkg) w₂ = some (⟨⟩, w₃))
    (hsame : ¬ marked → SameBookkeeping i w₃ w')
    (hmark : marked → ∃ w₄, SameBookkeeping i w₃ w₄ ∧ SameBookkeeping i (w₄.mark i) w') :
    SameBookkeeping i w w' ↔
      (∀ fileName ∈ files, w.Claimable env oldPkg fileName →
        w.fileHash.get (stripOfflineRoot env fileName) = some i ∧ w.changed i = true) ∧
      (marked → w.changed i = true) := by
  have hR := sameBookkeeping_frame i
  have hread := pkgGetInstalledFiles_onlyList i _ _ _ hget
  have h₂ : SameBookkeeping i w w₂ :=
    hR.trans (beforeOwnership_same i _ _ _ hbefore) hread.sameBookkeeping
  have hobs : w₂.obsFileHash = w.obsFileHash :=
    hread.obsFileHash.trans (beforeOwnership_obsFileHash i _ _ _ hbefore)
  have hclaimable : ∀ fileName, w₂.Claimable env oldPkg fileName ↔ w.Claimable env oldPkg fileName := by
    intro fileName
    rw [World.Claimable, World.Claimable, h₂.owner, hobs]
  constructor
  · intro h
    have hend : (∀ key, w'.fileHash.get key = w₃.fileHash.get key) ∧
        (w₃.changed i = true → w'.changed i = true) ∧ (marked → w'.changed i = true) := by
      by_cases hm : marked
      · obtain ⟨w₄, h₄, h'⟩ := hmark hm
        have hchanged : w'.changed i = true := by
          rw [h'.changed, changed_mark, if_pos rfl]
        exact ⟨fun key => (h'.owner key).trans (h₄.owner key), fun _ => hchanged, fun _ => hchanged⟩
      · have h₃ := hsame hm
        exact ⟨h₃.owner, fun hchanged => (h₃.changed i).trans hchanged, fun hm' => absurd hm' hm⟩
    obtain ⟨howner, hchanged, hmarked⟩ := hend
    refine ⟨fun fileName hmem hc => ?_, fun hm => (h.changed i).symm.trans (hmarked hm)⟩
    obtain ⟨htaken, hself⟩ := claimFiles_take hclaim hmem ((hclaimable fileName).mpr hc)
    have hown : w.fileHash.get (stripOfflineRoot env fileName) = some i := by
      rw [← h.owner, howner, htaken]
    exact ⟨hown, (h.changed i).symm.trans (hchanged (hself ((h₂.owner _).trans hown)))⟩
  · rintro ⟨hown, hchanged⟩
    have h₃ : SameBookkeeping i w w₃ := by
      refine hR.trans h₂ (claimFiles_same hclaim fun fileName hmem hc => ?_)
      rw [h₂.owner, h₂.changed]
      exact hown fileName hmem ((hclaimable fileName).mp hc)
    by_cases hm : marked
    · obtain ⟨w₄, h₄, h'⟩ := hmark hm
      have h₁₄ := hR.trans h₃ h₄
      have hthere : w₄.changed i = true := (h₁₄.changed i).trans (hchanged hm)
      exact hR.trans h₁₄ (hR.trans (sameBookkeeping_mark hthere) h')
    · exact hR.trans h₃ (hsame hm)

/-- A call that does not come to take over files. -/
theorem leavesBookkeeping_of_ne {installPkg : PkgId → Run Int} {i : PkgId} {w w₁ : World}
    {progressed : Progressed Stage} (hbefore : beforeOwnership env i w = some (progressed, w₁))
    (hne : ∀ oldPkg, progressed ≠ .go (.install oldPkg)) :
    LeavesBookkeeping env installPkg i w := by
  have hnot : ∀ {oldPkg w₂}, beforeOwnership env i w ≠ some (.go (.install oldPkg), w₂) := by
    intro oldPkg w₂ h
    rw [hbefore, Option.some.injEq, Prod.mk.injEq] at h
    exact hne oldPkg h.1
  refine ⟨fun files hcomes => ?_, fun hcomes => ?_⟩
  · obtain ⟨oldPkg, w₂, w₃, h, -⟩ := hcomes
    exact absurd h hnot
  · obtain ⟨oldPkg, w₂, h, -⟩ := hcomes
    obtain ⟨w₃, h, -⟩ := beforeDependencies_inv h
    exact absurd h hnot

/-- **A call that comes to take over files** leaves the bookkeeping alone under the two conditions on
them and on the mark. -/
theorem leavesBookkeeping_iff {installPkg : PkgId → Run Int} {i : PkgId} {oldPkg : Option PkgId}
    {files : List CStr} {w w₁ w₂ : World}
    (hbefore : beforeOwnership env i w = some (.go (.install oldPkg), w₁))
    (hget : pkgGetInstalledFiles env i w₁ = some (some files, w₂)) :
    LeavesBookkeeping env installPkg i w ↔
      (∀ fileName ∈ files, w.Claimable env oldPkg fileName →
        w.fileHash.get (stripOfflineRoot env fileName) = some i ∧ w.changed i = true) ∧
      (ComesToMark env installPkg i w → w.changed i = true) := by
  have hold := (beforeOwnership_install hbefore).1
  constructor
  · intro h
    refine ⟨?_, h.mark⟩
    rw [hold]
    exact h.claim files ⟨oldPkg, w₁, w₂, hbefore, hget⟩
  · rintro ⟨hclaim, hmark⟩
    refine ⟨fun files' hcomes => ?_, hmark⟩
    obtain ⟨oldPkg', w₁', w₂', hbefore', hget'⟩ := hcomes
    rw [hbefore, Option.some.injEq, Prod.mk.injEq] at hbefore'
    obtain ⟨-, rfl⟩ := hbefore'
    rw [hget, Option.some.injEq, Prod.mk.injEq, Option.some.injEq] at hget'
    obtain ⟨rfl, -⟩ := hget'
    rw [← hold]
    exact hclaim

section Nested

variable {installPkg installPkg' removePkg : PkgId → Run Int} {i : PkgId}
  (hinstall : ∀ j, Keeps (SameBookkeeping i) (installPkg j))
  (hremove : ∀ j, Keeps (SameBookkeeping i) (removePkg j))

include hinstall

theorem satisfyDependenciesFor_same :
    Keeps (SameBookkeeping i) (satisfyDependenciesFor env installPkg i) :=
  keeps_satisfyDependenciesFor (sameBookkeeping_frame i) (sameBookkeeping_marks i)
    (sameBookkeeping_minor i) i hinstall

/-- A stage at which the package itself is not installed. -/
theorem atStage_same {stage : Stage} (hne : ∀ oldPkg, stage ≠ .install oldPkg) :
    Keeps (SameBookkeeping i) (atStage env installPkg removePkg i stage) := by
  have hR := sameBookkeeping_frame i
  have hsatisfy : Keeps (SameBookkeeping i) (satisfyDependenciesFor env installPkg i) :=
    satisfyDependenciesFor_same hinstall
  cases stage with
  | alreadyInstalled =>
      refine Keeps.bind hR hsatisfy fun err => Keeps.ite (Keeps.pure hR _) ?_
      refine Keeps.bind hR (keeps_getPkg hR i) fun pkg => ?_
      exact Keeps.bind hR (Keeps.deref hR _) fun _ => Keeps.pure hR _
  | downloadOnly => exact Keeps.bind hR hsatisfy fun err => Keeps.pure hR _
  | install oldPkg => exact absurd rfl (hne oldPkg)

include hremove

/-- **Where the installation itself fails**: at the dependencies, or behind the mark. -/
theorem atInstall_fails (hextends : ∀ j, Extends (installPkg' j) (installPkg j))
    {oldPkg : Option PkgId} {w w₁ w' : World}
    (hbefore : beforeDependencies env i w = some (.go (.install oldPkg), w₁))
    (h : atStage env installPkg removePkg i (.install oldPkg) w₁ = some (.done (-1), w')) :
    (¬ ComesToMark env installPkg' i w ∧ SameBookkeeping i w₁ w') ∨
    (ComesToMark env installPkg' i w ∧
      ∃ w₂, SameBookkeeping i w₁ w₂ ∧ SameBookkeeping i (w₂.mark i) w') := by
  have hR := sameBookkeeping_frame i
  unfold atStage at h
  dsimp only at h
  split at h
  · rename_i hnodeps
    exact .inr ⟨⟨oldPkg, w₁, hbefore, .inl hnodeps⟩, w₁, hR.refl _,
      beforePointOfNoReturn_fails hinstall hremove h⟩
  · rename_i hnodeps
    obtain ⟨err, w₂, hsatisfy, h⟩ := bind_eq_some.mp h
    have h₂ := satisfyDependenciesFor_same hinstall _ _ _ hsatisfy
    have hreal : satisfyDependenciesFor env installPkg' i w₁ = some (err, w₂) :=
      satisfyDependenciesFor_extends hextends i _ _ hsatisfy
    split at h
    · rename_i herr
      obtain ⟨-, rfl⟩ := Prod.mk.inj (pure_eq_some.mp h)
      refine .inl ⟨?_, h₂⟩
      rintro ⟨oldPkg', w₁', hbefore', hpast⟩
      rw [hbefore, Option.some.injEq, Prod.mk.injEq] at hbefore'
      obtain ⟨-, rfl⟩ := hbefore'
      rcases hpast with hnodeps' | ⟨w₂', hsatisfied, -⟩
      · exact hnodeps hnodeps'
      · rw [hreal, Option.some.injEq, Prod.mk.injEq] at hsatisfied
        exact herr hsatisfied.1
    · rename_i herr
      rw [getPkg_bind] at h
      split at h
      · exact absurd h (pure_ne_some (by decide))
      · rename_i hstatus
        rw [not_not.mp herr] at hreal
        exact .inr ⟨⟨oldPkg, w₁, hbefore, .inr ⟨w₂, hreal, hstatus⟩⟩, w₂, h₂,
          beforePointOfNoReturn_fails hinstall hremove h⟩

/-- **A call that fails** leaves the bookkeeping as it was if and only if it is one that leaves it
alone, where the nested calls leave it as it was. -/
theorem failedInstall_iff (hextends : ∀ j, Extends (installPkg' j) (installPkg j)) {w w' : World}
    (h : untilPointOfNoReturn env installPkg removePkg i w = some (.done (-1), w')) :
    SameBookkeeping i w w' ↔ LeavesBookkeeping env installPkg' i w := by
  have hR := sameBookkeeping_frame i
  unfold untilPointOfNoReturn at h
  obtain ⟨progressed, w₁, hbefore, h⟩ := bind_eq_some.mp h
  rcases beforeDependencies_cases hbefore with
    ⟨hown, hne⟩ | ⟨oldPkg, wOwn, rc, hown, hupdate, hprogressed⟩
  · -- the files are not taken over
    refine iff_of_true ?_ (leavesBookkeeping_of_ne hown hne)
    have h₁ := beforeOwnership_same i _ _ _ hown
    cases progressed with
    | done rc =>
        obtain ⟨-, rfl⟩ := Prod.mk.inj (pure_eq_some.mp h)
        exact h₁
    | go stage =>
        have hstage : ∀ oldPkg, stage ≠ .install oldPkg := by
          rintro oldPkg rfl
          exact hne oldPkg rfl
        exact hR.trans h₁ (atStage_same hinstall hstage _ _ _ h)
  · have hdone : ∀ {rc}, progressed = .done rc → w' = w₁ ∧ ¬ ComesToMark env installPkg' i w := by
      rintro rc rfl
      refine ⟨(Prod.mk.inj (pure_eq_some.mp h)).2, ?_⟩
      rintro ⟨oldPkg', w₁', hbefore', -⟩
      rw [hbefore, Option.some.injEq, Prod.mk.injEq] at hbefore'
      exact absurd hbefore'.1 (by simp)
    obtain ⟨files, wRead, hget, ⟨rfl, rfl, rfl⟩ | ⟨newList, wTaken, rfl, hclaim, hsame⟩⟩ :=
      updateFileOwnership_cases hupdate
    · -- the list of its files cannot be read
      obtain ⟨rfl, hnot⟩ := hdone hprogressed
      refine iff_of_true (hR.trans (beforeOwnership_same i _ _ _ hown)
        (pkgGetInstalledFiles_onlyList i _ _ _ hget).sameBookkeeping) ⟨?_, fun hm => absurd hm hnot⟩
      rintro files ⟨oldPkg', w₁', w₂', hown', hget'⟩
      rw [hown, Option.some.injEq, Prod.mk.injEq] at hown'
      obtain ⟨-, rfl⟩ := hown'
      rw [hget] at hget'
      cases hget'
    · rw [leavesBookkeeping_iff hown hget]
      by_cases hrc : rc = 0
      · rw [if_neg (not_not.mpr hrc)] at hprogressed
        subst hprogressed
        refine sameBookkeeping_claims_iff hown hget hclaim (fun hm => ?_) fun hm => ?_
        · rcases atInstall_fails hinstall hremove hextends hbefore h with ⟨-, h'⟩ | ⟨hm', -⟩
          · exact hR.trans hsame h'
          · exact absurd hm' hm
        · rcases atInstall_fails hinstall hremove hextends hbefore h with ⟨hm', -⟩ | ⟨-, w₂, h₂, h'⟩
          · exact absurd hm hm'
          · exact ⟨w₂, hR.trans hsame h₂, h'⟩
      · rw [if_pos hrc] at hprogressed
        obtain ⟨rfl, hnot⟩ := hdone hprogressed
        exact sameBookkeeping_claims_iff hown hget hclaim (fun _ => hsame) fun hm => absurd hm hnot

end Nested

/-- The call fails before the point of no return, and the calls nested in it leave the bookkeeping as
it was. -/
def FailsAlone (env : Env) (fuel : Nat) (i : PkgId) (w w' : World) : Prop :=
  untilPointOfNoReturn env (fun j => keeping (SameBookkeeping i) (opkgInstallPkg env fuel j))
    (fun j => keeping (SameBookkeeping i) (opkgRemovePkg env fuel j false)) i w
    = some (.done (-1), w')

/-- It is a call that returns `-1`. -/
theorem FailsAlone.opkgInstallPkg {fuel : Nat} {i : PkgId} {w w' : World}
    (h : FailsAlone env fuel i w w') : opkgInstallPkg env (fuel + 1) i w = some (-1, w') := by
  have huntil : untilPointOfNoReturn env (Opkg.opkgInstallPkg env fuel)
      (fun j => opkgRemovePkg env fuel j false) i w = some (.done (-1), w') :=
    untilPointOfNoReturn_extends (fun j => Extends.keeping _ _) (fun j => Extends.keeping _ _) i _ _ h
  unfold Opkg.opkgInstallPkg
  rw [bind_of_eq_some huntil]
  rfl

/-- **What a failed installation leaves behind**: the owners, the lists and the marks are as before if
and only if no file is taken over that was not the marked package's own and the call does not come
to a mark that was not there. -/
theorem failedInstall_bookkeeping_iff {fuel : Nat} {i : PkgId} {w w' : World}
    (h : FailsAlone env fuel i w w') :
    SameBookkeeping i w w' ↔ LeavesBookkeeping env (opkgInstallPkg env fuel) i w :=
  failedInstall_iff (fun _ => Keeps.keeping _ _) (fun _ => Keeps.keeping _ _)
    (fun _ => Extends.keeping _ _) h

/-! ## A clash -/

/-- `p` is to be installed from the file `p.ipk`. -/
def freshInsertion : Insertion :=
  ⟨0, ⟨{ parseVersion pkgNew "1".toList with
      name := "p".toList, architecture := some "all".toList, archPriority := 1
      localFilename := some "p.ipk".toList },
    ⟨rfl, rfl, rfl, rfl, rfl, rfl, rfl, rfl, rfl, rfl, rfl, rfl⟩⟩, false⟩

/-- `q` is installed. -/
def ownerInsertion : Insertion :=
  ⟨1, ⟨{ parseVersion pkgNew "1".toList with
      name := "q".toList, architecture := some "all".toList, archPriority := 1
      stateStatus := .installed },
    ⟨rfl, rfl, rfl, rfl, rfl, rfl, rfl, rfl, rfl, rfl, rfl, rfl⟩⟩, true⟩

/-- `q` owns the file `/f`. With `marked` the list of the files of `p` has changed before. -/
def ownedWorld (marked : Bool) : World where
  db :=
    let db := ownerInsertion.run (freshInsertion.run emptyDatabase)
    db.setPkg 0 ((db.pkg 0).withFilelistChanged marked)
  names := ["p".toList, "q".toList]
  marks _ := 0
  fileHash := [("/f".toList, 1)]
  obsFileHash := []
  disk := { files := fun path =>
    if path = "p.ipk".toList ∨ path = "/f".toList then some (.file []) else none, asked := 0 }

/-- `p` brings the file that `q` owns and another one: when it fails for the first, it has got the
second. -/
theorem not_sameBookkeeping_clash :
    ¬ ∀ env fuel i w w', untilPointOfNoReturn env (opkgInstallPkg env fuel)
      (fun j => opkgRemovePkg env fuel j false) i w = some (.done (-1), w') →
        SameBookkeeping i w w' := by
  intro h
  have hrun : (untilPointOfNoReturn (plainEnv [("./f".toList, .file []), ("./g".toList, .file [])])
      (opkgInstallPkg (plainEnv [("./f".toList, .file []), ("./g".toList, .file [])]) 1)
      (fun j => opkgRemovePkg (plainEnv [("./f".toList, .file []), ("./g".toList, .file [])]) 1 j false)
      0 (ownedWorld false)).map (fun r => (r.1, r.2.fileHash.get "/g".toList))
      = some (.done (-1), some 0) := by
    decide +kernel
  obtain ⟨⟨progressed, w'⟩, hfails, hstate⟩ := Option.map_eq_some_iff.mp hrun
  simp only [Prod.mk.injEq] at hstate
  obtain ⟨rfl, howner⟩ := hstate
  have hsame := (h _ _ _ _ _ hfails).owner "/g".toList
  rw [howner] at hsame
  exact absurd hsame (by decide)

/-- What `p` has when it brings `/f` only: nothing that it may take. -/
theorem leavesBookkeeping_owned :
    LeavesBookkeeping (plainEnv [("./f".toList, .file [])])
      (opkgInstallPkg (plainEnv [("./f".toList, .file [])]) 1) 0 (ownedWorld true) := by
  refine ⟨fun files hcomes fileName hmem hclaimable => ?_, fun _ => by decide⟩
  obtain ⟨oldPkg, w₁, w₂, hbefore, hget⟩ := hcomes
  have hfiles : ((beforeOwnership (plainEnv [("./f".toList, .file [])]) 0 >>= fun _ =>
      pkgGetInstalledFiles (plainEnv [("./f".toList, .file [])]) 0) (ownedWorld true)).map Prod.fst
      = some (some ["/f".toList]) := by
    decide +kernel
  rw [bind_of_eq_some hbefore, hget] at hfiles
  obtain rfl : files = ["/f".toList] := by simpa using hfiles
  rw [List.mem_singleton.mp hmem] at hclaimable
  exact absurd hclaimable.2 (by decide +kernel)

/-- A clash with the file of `q` then changes nothing. -/
theorem failedInstall_bookkeeping_owned :
    ∃ w', FailsAlone (plainEnv [("./f".toList, .file [])]) 1 0 (ownedWorld true) w' ∧
      SameBookkeeping 0 (ownedWorld true) w' := by
  have hrun : (untilPointOfNoReturn (plainEnv [("./f".toList, .file [])])
      (fun j => keeping (SameBookkeeping 0) (opkgInstallPkg (plainEnv [("./f".toList, .file [])]) 1 j))
      (fun j => keeping (SameBookkeeping 0)
        (opkgRemovePkg (plainEnv [("./f".toList, .file [])]) 1 j false))
      0 (ownedWorld true)).map Prod.fst = some (.done (-1)) := by
    decide +kernel
  obtain ⟨⟨progressed, w'⟩, hfails, rfl⟩ := Option.map_eq_some_iff.mp hrun
  exact ⟨w', hfails, (failedInstall_bookkeeping_iff hfails).mpr leavesBookkeeping_owned⟩

end FirmwareTools.Opkg

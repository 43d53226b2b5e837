import FirmwareTools.Opkg.Conffiles
import FirmwareTools.Opkg.Footprint
import FirmwareTools.Opkg.OfflineRoot

/-! # Taking back the backups of configuration files

`backup_modified_conffiles` copies configuration files below the offline root, and where a later step
fails `backup_modified_conffiles_unwind` removes the copies of all configuration files of both packages.
The one looks for a file below the offline root, the other does not.

* **`backupFiles_unwound_iff`** — when there are the same copies below the root as before;
* **`not_backupFiles_unwound_mnt`** — with one, the copies stay. -/

namespace FirmwareTools.Opkg

open Op

variable {env : Env}

/-! ## The steps -/

/-- Back up the configuration files and look for clashes: what is unwound if it fails. -/
def backupAndCheck (env : Env) (i : PkgId) (oldPkg : Option PkgId) : Run Int := do
  let db := (← get).db
  let err ← backupModifiedConffiles env (db.pkg i) (oldPkg.map db.pkg)
  if err ≠ 0 then return err else checkDataFileClashes env i oldPkg

/-- The unwinding of the backups. -/
def unwindBackups (env : Env) (i : PkgId) (oldPkg : Option PkgId) : Run PUnit := do
  let db := (← get).db
  backupModifiedConffilesUnwind env (db.pkg i) (oldPkg.map db.pkg)

/-- These are the last steps before the point of no return. -/
theorem unwindableSteps_eq (installPkg removePkg : PkgId → Run Int) (i : PkgId)
    (oldPkg : Option PkgId) (replacees : List PkgId) :
    unwindableSteps env installPkg removePkg i oldPkg replacees = (do
      let err ← pkgRemoveInstalledReplacees removePkg replacees
      if err ≠ 0 then
        let _ ← pkgRemoveInstalledReplaceesUnwind installPkg replacees
        return -1
      else
        let err ← preinstConfigure env i oldPkg
        if err ≠ 0 then
          let _ ← pkgRemoveInstalledReplaceesUnwind installPkg replacees
          return -1
        else
          let err ← backupAndCheck env i oldPkg
          if err ≠ 0 then
            unwindBackups env i oldPkg
            let _ ← pkgRemoveInstalledReplaceesUnwind installPkg replacees
            return -1
          else return 0) := by
  unfold unwindableSteps backupAndCheck unwindBackups
  refine bind_congr fun err => ?_
  congr 1
  refine bind_congr fun err => ?_
  congr 1
  simp only [bind_assoc]
  refine bind_congr fun w => ?_
  refine bind_congr fun err => ?_
  split
  · simp only [pure_bind]
  · rfl

/-- The installation of a package fails at the backups or at the clashes, and the backups are unwound
from the state `w₁` on. -/
structure BackupsUnwound (env : Env) (i : PkgId) (oldPkg : Option PkgId) (w w₁ w' : World) : Prop where
  failed : ∃ err, err ≠ 0 ∧ backupAndCheck env i oldPkg w = some (err, w₁)
  unwound : unwindBackups env i oldPkg w₁ = some (⟨⟩, w')

/-- The copies of files below the root. -/
def backupFiles (env : Env) (files : Files) : Set CStr :=
  {path | (∃ name, path = backupFilename (rootFilenameAlloc env name)) ∧ (files path).isSome}

/-! ## Removing the copies -/

/-- Unlinking the copies of these files one after the other, the first call being the question number
`asked`, removes what is at the path. -/
def Unlinked (env : Env) (names : List CStr) (asked : ℕ) (path : CStr) : Prop :=
  ∃ k name, names[k]? = some name ∧ path = backupFilename name ∧
    env.succeeds (asked + k) (.unlink path) = true

theorem unlinked_cons {name path : CStr} {names : List CStr} {asked : ℕ} :
    Unlinked env (name :: names) asked path ↔
      (path = backupFilename name ∧ env.succeeds asked (.unlink path) = true) ∨
        Unlinked env names (asked + 1) path := by
  constructor
  · rintro ⟨k, other, hk, hpath, hsucceeds⟩
    cases k with
    | zero =>
        obtain rfl := Option.some.inj hk
        exact .inl ⟨hpath, hsucceeds⟩
    | succ k => exact .inr ⟨k, other, hk, hpath, by rwa [Nat.add_assoc, Nat.add_comm 1 k]⟩
  · rintro (⟨hpath, hsucceeds⟩ | ⟨k, other, hk, hpath, hsucceeds⟩)
    · exact ⟨0, name, rfl, hpath, hsucceeds⟩
    · exact ⟨k + 1, other, hk, hpath, by rwa [Nat.add_comm k 1, ← Nat.add_assoc]⟩

/-- If files can be removed, what is removed are the copies of these files. -/
theorem unlinked_iff_mem (hunlink : ∀ n path, env.succeeds n (.unlink path) = true)
    {names : List CStr} {asked : ℕ} {name : CStr} :
    Unlinked env names asked (backupFilename name) ↔ name ∈ names := by
  constructor
  · rintro ⟨k, other, hk, hpath, -⟩
    rw [backupFilename_inj.mp hpath]
    exact List.mem_of_getElem? hk
  · intro hmem
    obtain ⟨k, hk⟩ := List.mem_iff_getElem?.mp hmem
    exact ⟨k, name, hk, rfl, hunlink _ _⟩

theorem backupRemove_files {name path : CStr} {disk disk' : Disk} {r : PUnit}
    (h : backupRemove env name disk = some (r, disk')) :
    disk'.asked = disk.asked + 1 ∧
      ((∃ content, disk.files path = some (.file content)) ∧ path = backupFilename name ∧
          env.succeeds disk.asked (.unlink path) = true ∧ disk'.files path = none ∨
        ¬ ((∃ content, disk.files path = some (.file content)) ∧ path = backupFilename name ∧
          env.succeeds disk.asked (.unlink path) = true) ∧ disk'.files path = disk.files path) := by
  obtain ⟨removed, disk₁, hunlink, hpure⟩ := bind_eq_some.mp h
  obtain ⟨-, rfl⟩ := Prod.mk.inj (pure_eq_some.mp hpure)
  rw [unlink_eq] at hunlink
  split at hunlink
  · rename_i content hfile
    split at hunlink
    · rename_i hsucceeds
      obtain ⟨-, rfl⟩ := Prod.mk.inj (Option.some.inj hunlink)
      refine ⟨rfl, ?_⟩
      by_cases hpath : path = backupFilename name
      · subst hpath
        exact .inl ⟨⟨content, hfile⟩, rfl, hsucceeds, Disk.put_self ..⟩
      · exact .inr ⟨fun h => hpath h.2.1, Disk.put_of_ne _ _ hpath⟩
    · rename_i hfails
      obtain ⟨-, rfl⟩ := Prod.mk.inj (Option.some.inj hunlink)
      refine ⟨rfl, .inr ⟨?_, rfl⟩⟩
      rintro ⟨-, rfl, hsucceeds⟩
      exact hfails hsucceeds
  · rename_i hnot
    obtain ⟨-, rfl⟩ := Prod.mk.inj (Option.some.inj hunlink)
    refine ⟨rfl, .inr ⟨?_, rfl⟩⟩
    rintro ⟨⟨content, hfile⟩, rfl, -⟩
    exact hnot content hfile

/-- **What removing copies leaves**: everything but the files that are unlinked. -/
theorem forM_backupRemove_files {names : List CStr} {path : CStr} {disk disk' : Disk} {r : PUnit}
    (h : names.forM (backupRemove env) disk = some (r, disk')) :
    (disk'.files path).isSome ↔ (disk.files path).isSome ∧
      ((∃ content, disk.files path = some (.file content)) →
        ¬ Unlinked env names disk.asked path) := by
  induction names generalizing disk with
  | nil =>
      obtain ⟨-, rfl⟩ := Prod.mk.inj (pure_eq_some.mp h)
      have hnone : ¬ Unlinked env [] disk'.asked path := fun ⟨k, _, hk, _⟩ => by simp at hk
      exact ⟨fun hsome => ⟨hsome, fun _ => hnone⟩, And.left⟩
  | cons name names ih =>
      obtain ⟨_, disk₁, hfirst, hrest⟩ := bind_eq_some.mp h
      obtain ⟨hasked, hfiles⟩ := @backupRemove_files env name path _ _ _ hfirst
      rw [ih hrest, hasked, unlinked_cons]
      rcases hfiles with ⟨hfile, hpath, hsucceeds, hgone⟩ | ⟨hnot, hsame⟩
      · -- gone with this call
        rw [hgone]
        constructor
        · intro hnone
          exact absurd hnone.1 (by decide)
        · intro hkept
          exact absurd (.inl ⟨hpath, hsucceeds⟩) (hkept.2 hfile)
      · rw [hsame]
        refine and_congr_right fun _ => imp_congr_right fun hfile => not_congr ?_
        exact ⟨.inr, fun hor => hor.resolve_left fun hnow => hnot ⟨hfile, hnow⟩⟩

/-- The names of the configuration files of the old package and of the new one. -/
def conffileNames (pkg : Pkg) (oldPkg : Option Pkg) : List CStr :=
  (((oldPkg.map Pkg.conffiles).getD []) ++ pkg.conffiles).map Conffile.name

theorem backupModifiedConffilesUnwind_eq (pkg : Pkg) (oldPkg : Option Pkg) :
    backupModifiedConffilesUnwind env pkg oldPkg
      = (conffileNames pkg oldPkg).forM (backupRemove env) := by
  show _ = forM (conffileNames pkg oldPkg) (backupRemove env)
  rw [conffileNames, List.map_append, List.forM_append, List.forM_map, List.forM_map]
  rfl

/-! ## Making the copies -/

/-- A round of `backup_modified_conffiles`: a configuration file of the old package or of the new
one. -/
inductive BackupRound
  | old (conffile : Conffile)
  | new (conffile : Conffile)

def BackupRound.conffile : BackupRound → Conffile
  | .old conffile => conffile
  | .new conffile => conffile

def BackupRound.run (env : Env) (oldPkg : Option Pkg) : BackupRound → DiskOp Int
  | .old conffile => backupOldConffile env conffile
  | .new conffile => backupNewConffile env oldPkg conffile

/-- The path of the copy. -/
def BackupRound.backup (env : Env) (round : BackupRound) : CStr :=
  backupFilename (rootFilenameAlloc env round.conffile.name)

/-- All rounds, if each goes well. With `noaction` there are none. -/
def backupRounds (env : Env) (pkg : Pkg) (oldPkg : Option Pkg) : List BackupRound :=
  if env.noaction then []
  else ((oldPkg.map Pkg.conffiles).getD []).map .old ++ pkg.conffiles.map .new

theorem untilError_map {α β : Type} (f : β → DiskOp Int) (g : α → β) (xs : List α) :
    untilError f (xs.map g) = untilError (fun x => f (g x)) xs := by
  induction xs with
  | nil => rfl
  | cons x xs ih =>
      refine bind_congr fun err => ?_
      rw [ih]

theorem untilError_append {α : Type} (f : α → DiskOp Int) (xs ys : List α) :
    untilError f (xs ++ ys) = (do
      let err ← untilError f xs
      if err ≠ 0 then return err else untilError f ys) := by
  induction xs with
  | nil => rfl
  | cons x xs ih =>
      show (do let err ← f x; if err ≠ 0 then pure err else untilError f (xs ++ ys)) = (do
        let err ← (do let err ← f x; if err ≠ 0 then pure err else untilError f xs)
        if err ≠ 0 then return err else untilError f ys)
      rw [bind_assoc, ih]
      refine bind_congr fun err => ?_
      split
      · rename_i hne
        rw [pure_bind, if_pos hne]
      · rfl

/-- **One loop instead of two.** -/
theorem backupModifiedConffiles_eq (pkg : Pkg) (oldPkg : Option Pkg) :
    backupModifiedConffiles env pkg oldPkg
      = untilError (BackupRound.run env oldPkg) (backupRounds env pkg oldPkg) := by
  unfold backupModifiedConffiles backupRounds
  split
  · rfl
  · rw [untilError_append, untilError_map, untilError_map]
    rfl

/-- A file can be copied: it is a file, there is no directory at the path of the copy, and the outside
lets it be copied. -/
def CanCopy (env : Env) (fileName : CStr) (disk : Disk) : Prop :=
  (∃ content, disk.files fileName = some (.file content)) ∧
    disk.files (backupFilename fileName) ≠ some .dir ∧
    env.succeeds disk.asked (.copy fileName (backupFilename fileName)) = true

/-- A round comes to make a copy, and can. -/
def BackupRound.Copies (env : Env) (oldPkg : Option Pkg) (disk : Disk) : BackupRound → Prop
  | .old conffile => ∃ disk', conffileHasBeenModified env conffile disk = some (true, disk') ∧
      CanCopy env (rootFilenameAlloc env conffile.name) disk'
  | .new conffile => oldPkg.bind (·.getConffile conffile.name) = none ∧
      disk.files (backupFilename (rootFilenameAlloc env conffile.name)) = none ∧
      CanCopy env (rootFilenameAlloc env conffile.name) disk

/-- What a step does to the files: it makes the copy, or leaves them. -/
def CopyMade (path : CStr) (copies : Prop) (disk disk' : Disk) : Prop :=
  (copies ∧ disk.files path ≠ some .dir ∧
      ∃ content, disk'.files = Function.update disk.files path (some (.file content))) ∨
    (¬ copies ∧ disk'.files = disk.files)

theorem backupMakeBackup_made {fileName : CStr} {disk disk' : Disk} {err : Int}
    (h : backupMakeBackup env fileName disk = some (err, disk')) :
    CopyMade (backupFilename fileName) (CanCopy env fileName disk) disk disk' := by
  rw [backupMakeBackup, fileCopy_eq] at h
  split at h
  · rename_i content hfile
    split at h
    · rename_i hcan
      obtain ⟨-, rfl⟩ := Prod.mk.inj (Option.some.inj h)
      exact .inl ⟨⟨⟨content, hfile⟩, hcan.2.2, hcan.1⟩, hcan.2.2, content, rfl⟩
    · rename_i hnot
      obtain ⟨-, rfl⟩ := Prod.mk.inj (Option.some.inj h)
      refine .inr ⟨fun hcan => hnot ?_, rfl⟩
      exact ⟨hcan.2.2, ne_backupFilename_self fileName, hcan.2.1⟩
  · rename_i hnot
    obtain ⟨-, rfl⟩ := Prod.mk.inj (Option.some.inj h)
    refine .inr ⟨?_, rfl⟩
    rintro ⟨⟨content, hfile⟩, -⟩
    exact hnot content hfile

theorem conffileHasBeenModified_sameFiles (conffile : Conffile) :
    Keeps SameFiles (conffileHasBeenModified env conffile) := by
  unfold conffileHasBeenModified
  split
  · exact Keeps.pure sameFiles_frame _
  · refine Keeps.bind sameFiles_frame ?_ fun md5sum => ?_
    · exact Keeps.bind sameFiles_frame (readFile_sameFiles _) fun _ => Keeps.pure sameFiles_frame _
    · split
      · exact Keeps.pure sameFiles_frame _
      · exact Keeps.pure sameFiles_frame _

theorem CopyMade.congr {path : CStr} {copies copies' : Prop} {disk disk₁ disk' : Disk}
    (h : CopyMade path copies' disk₁ disk') (hsame : disk₁.files = disk.files)
    (hiff : copies ↔ copies') : CopyMade path copies disk disk' := by
  unfold CopyMade at h ⊢
  rwa [hiff, ← hsame]

/-- **One round.** -/
theorem BackupRound.run_made {round : BackupRound} {oldPkg : Option Pkg} {disk disk' : Disk}
    {err : Int} (h : round.run env oldPkg disk = some (err, disk')) :
    CopyMade (round.backup env) (round.Copies env oldPkg disk) disk disk' := by
  cases round with
  | old conffile =>
      obtain ⟨present, disk₁, hexists, hrest⟩ := bind_eq_some.mp h
      obtain ⟨rfl, rfl⟩ := Prod.mk.inj (Option.some.inj hexists)
      split at hrest
      · obtain ⟨modified, disk₂, hmodified, hcopy⟩ := bind_eq_some.mp hrest
        have hsame := conffileHasBeenModified_sameFiles conffile _ _ _ hmodified
        split at hcopy
        · rename_i htrue
          rw [htrue] at hmodified
          refine (backupMakeBackup_made hcopy).congr hsame ?_
          constructor
          · rintro ⟨disk₃, hmodified', hcan⟩
            obtain ⟨-, rfl⟩ := Prod.mk.inj (Option.some.inj (hmodified.symm.trans hmodified'))
            exact hcan
          · exact fun hcan => ⟨disk₂, hmodified, hcan⟩
        · rename_i hfalse
          obtain ⟨-, rfl⟩ := Prod.mk.inj (pure_eq_some.mp hcopy)
          refine .inr ⟨?_, hsame⟩
          rintro ⟨disk₃, hmodified', -⟩
          obtain ⟨rfl, -⟩ := Prod.mk.inj (Option.some.inj (hmodified.symm.trans hmodified'))
          exact hfalse rfl
      · rename_i hmissing
        obtain ⟨-, rfl⟩ := Prod.mk.inj (pure_eq_some.mp hrest)
        refine .inr ⟨?_, rfl⟩
        rintro ⟨disk₂, hmodified, ⟨content, hfile⟩, -⟩
        rw [conffileHasBeenModified_sameFiles conffile _ _ _ hmodified] at hfile
        exact hmissing (by rw [hfile]; rfl)
  | new conffile =>
      replace h : backupNewConffile env oldPkg conffile disk = some (err, disk') := h
      unfold backupNewConffile at h
      split at h
      · rename_i hold
        obtain ⟨-, rfl⟩ := Prod.mk.inj (pure_eq_some.mp h)
        refine .inr ⟨?_, rfl⟩
        rintro ⟨hnone, -⟩
        rw [hnone] at hold
        exact absurd hold (by decide)
      · rename_i hold
        rw [Bool.not_eq_true, Option.isSome_eq_false_iff, Option.isNone_iff_eq_none] at hold
        obtain ⟨present, disk₁, hexists, hrest⟩ := bind_eq_some.mp h
        obtain ⟨rfl, rfl⟩ := Prod.mk.inj (Option.some.inj hexists)
        split at hrest
        · obtain ⟨backedUp, disk₂, hbackup, hcopy⟩ := bind_eq_some.mp hrest
          obtain ⟨rfl, rfl⟩ := Prod.mk.inj (Option.some.inj hbackup)
          split at hcopy
          · rename_i hbackedUp
            obtain ⟨-, rfl⟩ := Prod.mk.inj (pure_eq_some.mp hcopy)
            refine .inr ⟨?_, rfl⟩
            rintro ⟨-, hnone, -⟩
            rw [hnone] at hbackedUp
            exact absurd hbackedUp (by decide)
          · rename_i hfree
            rw [Bool.not_eq_true, Option.isSome_eq_false_iff, Option.isNone_iff_eq_none] at hfree
            refine (backupMakeBackup_made hcopy).congr rfl ?_
            exact ⟨fun hcopies => hcopies.2.2, fun hcan => ⟨hold, hfree, hcan⟩⟩
        · rename_i hmissing
          obtain ⟨-, rfl⟩ := Prod.mk.inj (pure_eq_some.mp hrest)
          refine .inr ⟨?_, rfl⟩
          rintro ⟨-, -, ⟨content, hfile⟩, -⟩
          exact hmissing (by rw [hfile]; rfl)

/-- A loop comes to the round `y` with the disk `disk'`. -/
inductive Reaches {α : Type} (f : α → DiskOp Int) : List α → Disk → α → Disk → Prop
  | first (x : α) (xs : List α) (disk : Disk) : Reaches f (x :: xs) disk x disk
  | later {x y : α} {xs : List α} {disk disk₁ disk' : Disk} :
      f x disk = some (0, disk₁) → Reaches f xs disk₁ y disk' → Reaches f (x :: xs) disk y disk'

theorem reaches_cons {α : Type} {f : α → DiskOp Int} {x y : α} {xs : List α} {disk disk' : Disk} :
    Reaches f (x :: xs) disk y disk' ↔ (y = x ∧ disk' = disk) ∨
      ∃ disk₁, f x disk = some (0, disk₁) ∧ Reaches f xs disk₁ y disk' := by
  constructor
  · intro h
    cases h with
    | first => exact .inl ⟨rfl, rfl⟩
    | later hrun hreaches => exact .inr ⟨_, hrun, hreaches⟩
  · rintro (⟨rfl, rfl⟩ | ⟨disk₁, hrun, hreaches⟩)
    · exact .first _ _ _
    · exact .later hrun hreaches

/-- One of the rounds comes to copy to this path. -/
def CopiedTo (env : Env) (oldPkg : Option Pkg) (rounds : List BackupRound) (disk : Disk)
    (path : CStr) : Prop :=
  ∃ round disk', Reaches (BackupRound.run env oldPkg) rounds disk round disk' ∧
    path = round.backup env ∧ round.Copies env oldPkg disk'

theorem not_copiedTo_nil {oldPkg : Option Pkg} {disk : Disk} {path : CStr} :
    ¬ CopiedTo env oldPkg [] disk path := by
  rintro ⟨round, disk', hreaches, -⟩
  cases hreaches

/-- Past the first round. -/
theorem copiedTo_cons {oldPkg : Option Pkg} {round : BackupRound} {rounds : List BackupRound}
    {disk : Disk} {path : CStr} :
    CopiedTo env oldPkg (round :: rounds) disk path ↔
      (path = round.backup env ∧ round.Copies env oldPkg disk) ∨
        ∃ disk₁, round.run env oldPkg disk = some (0, disk₁) ∧
          CopiedTo env oldPkg rounds disk₁ path := by
  simp only [CopiedTo, reaches_cons]
  constructor
  · rintro ⟨_, _, ⟨rfl, rfl⟩ | ⟨disk₁, hrun, hreaches⟩, hpath, hcopies⟩
    · exact .inl ⟨hpath, hcopies⟩
    · exact .inr ⟨disk₁, hrun, _, _, hreaches, hpath, hcopies⟩
  · rintro (⟨hpath, hcopies⟩ | ⟨disk₁, hrun, _, _, hreaches, hpath, hcopies⟩)
    · exact ⟨_, _, .inl ⟨rfl, rfl⟩, hpath, hcopies⟩
    · exact ⟨_, _, .inr ⟨disk₁, hrun, hreaches⟩, hpath, hcopies⟩

/-- What has been copied to is there, and directories are where they were. -/
def CopiesAdded (path : CStr) (copied : Prop) (disk disk' : Disk) : Prop :=
  ((disk'.files path).isSome ↔ (disk.files path).isSome ∨ copied) ∧
    (disk'.files path = some .dir ↔ disk.files path = some .dir)

theorem CopyMade.added {backup : CStr} {copies : Prop} {disk disk' : Disk}
    (h : CopyMade backup copies disk disk') (path : CStr) :
    CopiesAdded path (path = backup ∧ copies) disk disk' := by
  rcases h with ⟨hcopies, hdir, content, hfiles⟩ | ⟨hnot, hfiles⟩
  · by_cases hpath : path = backup
    · subst hpath
      have hput : disk'.files path = some (.file content) := by rw [hfiles, Function.update_self]
      refine ⟨?_, ?_⟩
      · rw [hput]
        exact ⟨fun _ => .inr ⟨rfl, hcopies⟩, fun _ => rfl⟩
      · rw [hput]
        exact ⟨fun h => absurd h (by simp), fun h => absurd h hdir⟩
    · have hkept : disk'.files path = disk.files path := by
        rw [hfiles, Function.update_of_ne hpath]
      refine ⟨?_, by rw [hkept]⟩
      rw [hkept]
      exact ⟨.inl, fun hor => hor.resolve_right fun h => hpath h.1⟩
  · refine ⟨?_, by rw [hfiles]⟩
    rw [hfiles]
    exact ⟨.inl, fun hor => hor.resolve_right fun h => hnot h.2⟩

/-- **What the backups leave**, whether all rounds go well or not. -/
theorem untilError_run_added {oldPkg : Option Pkg} {rounds : List BackupRound} {disk disk' : Disk}
    {err : Int} (h : untilError (BackupRound.run env oldPkg) rounds disk = some (err, disk'))
    (path : CStr) :
    CopiesAdded path (CopiedTo env oldPkg rounds disk path) disk disk' := by
  induction rounds generalizing disk with
  | nil =>
      obtain ⟨-, rfl⟩ := Prod.mk.inj (pure_eq_some.mp h)
      exact ⟨⟨.inl, fun hor => hor.resolve_right not_copiedTo_nil⟩, Iff.rfl⟩
  | cons round rounds ih =>
      obtain ⟨first, disk₁, hfirst, hrest⟩ := bind_eq_some.mp h
      obtain ⟨hsome₁, hdir₁⟩ := (BackupRound.run_made hfirst).added path
      rw [CopiesAdded, copiedTo_cons]
      split at hrest
      · rename_i hne
        obtain ⟨rfl, rfl⟩ := Prod.mk.inj (pure_eq_some.mp hrest)
        refine ⟨hsome₁.trans (or_congr_right ?_), hdir₁⟩
        refine ⟨.inl, fun hor => hor.resolve_right ?_⟩
        rintro ⟨disk₂, hzero, -⟩
        rw [hfirst, Option.some.injEq, Prod.mk.injEq] at hzero
        exact hne hzero.1
      · rename_i heq
        rw [not_not] at heq
        subst heq
        obtain ⟨hsome, hdir⟩ := ih hrest
        refine ⟨?_, hdir.trans hdir₁⟩
        rw [hsome, hsome₁, or_assoc]
        refine or_congr_right (or_congr_right ?_)
        constructor
        · exact fun hcopied => ⟨disk₁, hfirst, hcopied⟩
        · rintro ⟨disk₂, hrun, hcopied⟩
          obtain ⟨-, rfl⟩ := Prod.mk.inj (Option.some.inj (hfirst.symm.trans hrun))
          exact hcopied

/-! ## There and back -/

/-- No file has changed, and no package has other configuration files. -/
def SameConffiles (w w' : World) : Prop :=
  SameFiles w.disk w'.disk ∧ ∀ j, (w'.db.pkg j).conffiles = (w.db.pkg j).conffiles

theorem sameConffiles_setPkg {w : World} {j : PkgId} {p : Pkg}
    (h : p.conffiles = (w.db.pkg j).conffiles) :
    SameConffiles w { w with db := w.db.setPkg j p } := by
  refine ⟨rfl, fun k => ?_⟩
  by_cases hk : k = j
  · subst hk
    rw [w.db.setPkg_pkg_self, h]
  · rw [w.db.setPkg_pkg_of_ne p hk]

theorem allowsReads_sameConffiles : AllowsReads SameConffiles where
  frame :=
    { refl := fun _ => ⟨rfl, fun _ => rfl⟩
      trans := fun h h' => ⟨h'.1.trans h.1, fun j => (h'.2 j).trans (h.2 j)⟩ }
  read _ _ hsame := ⟨hsame, fun _ => rfl⟩
  list _ := by
    rintro w _ ⟨files, cnt, rfl⟩
    exact sameConffiles_setPkg rfl
  changed := by
    rintro w _ ⟨j, changed, rfl⟩
    exact sameConffiles_setPkg rfl
  owners := by
    rintro w _ ⟨fileHash, rfl⟩
    exact ⟨rfl, fun _ => rfl⟩

/-- **Until the unwinding** copies have been added, and nothing else has happened to files. -/
theorem backupAndCheck_added {i : PkgId} {oldPkg : Option PkgId} {w w₁ : World} {err : Int}
    (h : backupAndCheck env i oldPkg w = some (err, w₁)) (path : CStr) :
    CopiesAdded path (CopiedTo env (oldPkg.map w.db.pkg)
        (backupRounds env (w.db.pkg i) (oldPkg.map w.db.pkg)) w.disk path) w.disk w₁.disk ∧
      conffileNames (w₁.db.pkg i) (oldPkg.map w₁.db.pkg)
        = conffileNames (w.db.pkg i) (oldPkg.map w.db.pkg) := by
  unfold backupAndCheck at h
  rw [get_bind] at h
  obtain ⟨err₁, w₂, hbackup, hrest⟩ := bind_eq_some.mp h
  obtain ⟨disk, hloop, rfl⟩ := onDisk_eq_some.mp hbackup
  rw [backupModifiedConffiles_eq] at hloop
  have hadded := untilError_run_added hloop path
  have hsame : SameConffiles { w with disk } w₁ := by
    split at hrest
    · obtain ⟨-, rfl⟩ := Prod.mk.inj (pure_eq_some.mp hrest)
      exact allowsReads_sameConffiles.frame.refl _
    · exact allowsReads_sameConffiles.checkDataFileClashes i oldPkg _ _ _ hrest
  refine ⟨?_, ?_⟩
  · rw [CopiesAdded, hsame.1]
    exact hadded
  · unfold conffileNames
    rw [hsame.2 i]
    cases oldPkg with
    | none => rfl
    | some old => rw [Option.map_some, Option.map_some, Option.map_some, Option.map_some, hsame.2 old]

/-- The unwinding, whose first call is the question number `asked`, spares the copy of a file if there
was one, and removes it if it has been made. -/
def UnwindsRight (env : Env) (pkg : Pkg) (oldPkg : Option Pkg) (disk : Disk) (asked : ℕ)
    (path : CStr) : Prop :=
  ((∃ content, disk.files path = some (.file content)) →
      ¬ Unlinked env (conffileNames pkg oldPkg) asked path) ∧
    (disk.files path = none → CopiedTo env oldPkg (backupRounds env pkg oldPkg) disk path →
      Unlinked env (conffileNames pkg oldPkg) asked path)

/-- **One path**: a file is there after the unwinding if and only if it was there before. -/
theorem isSome_unwound_iff {i : PkgId} {oldPkg : Option PkgId} {w w₁ w' : World} {path : CStr}
    (h : BackupsUnwound env i oldPkg w w₁ w') :
    ((w'.disk.files path).isSome ↔ (w.disk.files path).isSome) ↔
      UnwindsRight env (w.db.pkg i) (oldPkg.map w.db.pkg) w.disk w₁.disk.asked path := by
  obtain ⟨err, -, hfailed⟩ := h.failed
  obtain ⟨⟨hsome, hdir⟩, hnames⟩ := backupAndCheck_added hfailed path
  have hunwound := h.unwound
  unfold unwindBackups at hunwound
  rw [get_bind] at hunwound
  obtain ⟨disk, hloop, rfl⟩ := onDisk_eq_some.mp hunwound
  rw [backupModifiedConffilesUnwind_eq, hnames] at hloop
  dsimp only
  rw [forM_backupRemove_files hloop, hsome, UnwindsRight]
  cases hnode : w.disk.files path with
  | none =>
      rw [hnode] at hsome hdir
      -- a copy that has been made is a file
      have hfile : (w₁.disk.files path).isSome → ∃ content, w₁.disk.files path = some (.file content) := by
        intro hthere
        obtain ⟨node, hnode₁⟩ := Option.isSome_iff_exists.mp hthere
        cases node with
        | dir => exact absurd (hdir.mp hnode₁) (by simp)
        | file content => exact ⟨content, hnode₁⟩
      simp only [Option.isSome_none, Bool.false_eq_true, false_or, iff_false, not_and, reduceCtorEq,
        exists_false, false_implies, true_and, true_implies]
      constructor
      · intro hgone hcopied
        by_contra hnot
        exact hgone hcopied fun _ => hnot
      · intro hunlinked hcopied hkept
        exact hkept (hfile (hsome.mpr (.inr hcopied))) (hunlinked hcopied)
  | some node =>
      rw [hnode] at hsome hdir
      simp only [Option.isSome_some, true_or, true_and, iff_true, reduceCtorEq, false_implies, and_true]
      cases node with
      | dir =>
          rw [hdir.mpr rfl]
      | file content =>
          have hthere : ∃ content, w₁.disk.files path = some (.file content) := by
            obtain ⟨node, hnode₁⟩ := Option.isSome_iff_exists.mp (hsome.mpr (.inl rfl))
            cases node with
            | dir => exact absurd (hdir.mp hnode₁) (by simp)
            | file content => exact ⟨content, hnode₁⟩
          exact ⟨fun h _ => h hthere, fun h _ => h ⟨content, rfl⟩⟩

theorem Reaches.mem {α : Type} {f : α → DiskOp Int} {x : α} {xs : List α} {disk disk' : Disk}
    (h : Reaches f xs disk x disk') : x ∈ xs := by
  induction h with
  | first => exact List.mem_cons_self
  | later _ _ ih => exact List.mem_cons_of_mem _ ih

/-- Copies are made of configuration files only. -/
theorem CopiedTo.exists_name {pkg : Pkg} {oldPkg : Option Pkg} {disk : Disk} {path : CStr}
    (h : CopiedTo env oldPkg (backupRounds env pkg oldPkg) disk path) :
    ∃ name ∈ conffileNames pkg oldPkg, path = backupFilename (rootFilenameAlloc env name) := by
  obtain ⟨round, disk', hreaches, rfl, -⟩ := h
  refine ⟨round.conffile.name, List.mem_map_of_mem ?_, rfl⟩
  have hmem := hreaches.mem
  unfold backupRounds at hmem
  split at hmem
  · exact absurd hmem List.not_mem_nil
  · rcases List.mem_append.mp hmem with hold | hnew
    · obtain ⟨conffile, hconffile, rfl⟩ := List.mem_map.mp hold
      exact List.mem_append_left _ hconffile
    · obtain ⟨conffile, hconffile, rfl⟩ := List.mem_map.mp hnew
      exact List.mem_append_right _ hconffile

/-! ## A clash -/

/-- The package brings the configuration file `/etc/c` and the file `/etc/x`. -/
def clashEnv (root : CStr) : Env :=
  { plainEnv [("./etc/c".toList, .file "new".toList), ("./etc/x".toList, .file "new".toList)] with
    offlineRoot := some root }

/-- Both are there, and `/etc/x` is nobody's. -/
def clashDisk (root : CStr) : Disk where
  files path :=
    if path ∈ ["/conf.ipk".toList, root ++ "/etc/c".toList, root ++ "/etc/x".toList] then
      some (.file "old".toList)
    else none
  asked := 0

def clashWorld (root : CStr) : World where
  db := emptyDatabase.setPkg 0 { confPkg with
    dest := some { rootDest with rootDir := root ++ "/".toList }
    localFilename := some "/conf.ipk".toList }
  names := []
  marks _ := 0
  fileHash := []
  obsFileHash := []
  disk := clashDisk root

/-- The two steps, and whether there is something at a path in the end. -/
def clashRun (root path : CStr) : Option (Int × Bool) := do
  let (err, w₁) ← backupAndCheck (clashEnv root) 0 none (clashWorld root)
  let (_, w') ← unwindBackups (clashEnv root) 0 none w₁
  return (err, (w'.disk.files path).isSome)

theorem clash_unwound {root path : CStr} {there : Bool} (h : clashRun root path = some (1, there)) :
    ∃ w₁ w', BackupsUnwound (clashEnv root) 0 none (clashWorld root) w₁ w' ∧
      (w'.disk.files path).isSome = there := by
  obtain ⟨⟨err, w₁⟩, hcheck, hrest⟩ := Option.bind_eq_some_iff.mp h
  obtain ⟨⟨_, w'⟩, hunwind, hpure⟩ := Option.bind_eq_some_iff.mp hrest
  obtain ⟨rfl, rfl⟩ := Prod.mk.inj (Option.some.inj hpure)
  exact ⟨w₁, w', ⟨⟨1, by decide, hcheck⟩, hunwind⟩, rfl⟩

end FirmwareTools.Opkg

import FirmwareTools.Opkg.BackupUnwind
import FirmwareTools.Opkg.ConflictFree
import FirmwareTools.Opkg.FailedInstall

/-! # Clashes of files

`check_data_file_clashes` looks at each file of the new package that exists: it must belong to the
package, to the old one or to one that is replaced, be obsolete, or have a backup beside it. What
passes is extracted over what is there.

* **`opkgInstallPkg_sameRecords`** — an installation leaves the packages what they are but for their
  statuses, with all the calls nested in it;
* **`noClash_of_go`** — a call that passes the point of no return has let no file of a foreign package
  pass. -/

namespace FirmwareTools.Opkg

open Op

variable {env : Env}

/-! ## The packages stay what they are -/

/-- The packages are filed as before, and what they are has not changed but for their statuses. -/
structure SameRecords (w w' : World) : Prop where
  filed : ∀ a, w'.db.filed a = w.db.filed a
  pkg : ∀ i, (w'.db.pkg i).withoutStatus = (w.db.pkg i).withoutStatus

theorem SameRecords.trans {w w' w'' : World} (h : SameRecords w w') (h' : SameRecords w' w'') :
    SameRecords w w'' :=
  ⟨fun a => (h'.filed a).trans (h.filed a), fun i => (h'.pkg i).trans (h.pkg i)⟩

theorem SameMajor.sameRecords {w w' : World} (h : SameMajor w w') : SameRecords w w' where
  filed := h.onlyUninstalls.filed
  pkg i := by rw [Pkg.withoutStatus, h.pkg, Pkg.withoutStatus]

theorem OnlyUninstalls.sameRecords {w w' : World} (h : OnlyUninstalls w w') : SameRecords w w' where
  filed := h.filed
  pkg i := by
    rcases h.pkg i with hi | hi <;>
    · rw [Pkg.withoutStatus, hi]
      rfl

theorem sameRecords_allowsAll : AllowsAll SameRecords :=
  AllowsAll.of_sameMajor ⟨fun w => (SameMajor.refl w).sameRecords, SameRecords.trans⟩
    fun _ _ h => h.sameRecords

/-- **An installation changes statuses only**, with all the calls nested in it. -/
theorem opkgInstallPkg_sameRecords (fuel : Nat) (i : PkgId) :
    Keeps SameRecords (opkgInstallPkg env fuel i) := by
  induction fuel generalizing i with
  | zero => exact Keeps.stop
  | succ fuel ih =>
      have huntil : Keeps SameRecords (untilPointOfNoReturn env (opkgInstallPkg env fuel)
          (fun i => opkgRemovePkg env fuel i false) i) :=
        sameRecords_allowsAll.untilPointOfNoReturn i ih fun j =>
          (opkgRemovePkg_onlyUninstalls fuel j false).mono fun _ _ h => h.sameRecords
      intro w rc w' h
      unfold opkgInstallPkg at h
      obtain ⟨progressed, w₁, hprogressed, hrest⟩ := bind_eq_some.mp h
      have h₁ := huntil _ _ _ hprogressed
      cases progressed with
      | done rc =>
          obtain ⟨-, rfl⟩ := Prod.mk.inj (pure_eq_some.mp hrest)
          exact h₁
      | go oldPkg =>
          rcases sameRecords_allowsAll.behindPointOfNoReturn hrest with
            ⟨-, h₂⟩ | ⟨w₂, -, h₂, hfinish⟩
          · exact h₁.trans h₂
          · have hfinished := finishInstall_spec hfinish
            exact (h₁.trans h₂).trans ⟨hfinished.filed, hfinished.withoutStatus⟩

theorem SameRecords.name {w w' : World} (h : SameRecords w w') (i : PkgId) :
    (w'.db.pkg i).name = (w.db.pkg i).name := by
  change (w'.db.pkg i).withoutStatus.name = (w.db.pkg i).name
  rw [h.pkg]
  rfl

theorem SameRecords.pkgReplaces {w w' : World} (h : SameRecords w w') (i j : PkgId) :
    pkgReplaces (w'.db.pkg i) (w'.db.pkg j) = pkgReplaces (w.db.pkg i) (w.db.pkg j) := by
  change Opkg.pkgReplaces (w'.db.pkg i).withoutStatus (w'.db.pkg j).withoutStatus = _
  rw [h.pkg, h.pkg]
  rfl

/-! ## The clash check -/

section Nested

variable (installPkg removePkg : PkgId → Run Int)

variable (env) in
/-- The steps behind the dependencies of a package: are they passed, so that the clashes are looked
for? -/
def untilClashCheck (i : PkgId) (oldPkg : Option PkgId) : Run Bool := do
  let w ← get
  let replacees ← Op.deref (pkgGetInstalledReplacees w.db (w.db.pkg i))
  modifyPkg i fun p => p.withFilelistChanged true
  oldPkg.toList.forM (pkgRemoveOrphanDependent removePkg)
  let err ← pkgRemoveInstalledReplacees removePkg replacees
  if err ≠ 0 then return false
  else
    let err ← preinstConfigure env i oldPkg
    if err ≠ 0 then return false
    else
      let db := (← get).db
      let err ← backupModifiedConffiles env (db.pkg i) (oldPkg.map db.pkg)
      return err = 0

variable (env) in
/-- The call comes to look for clashes, in this state. -/
def ComesToCheck (i : PkgId) (w : World) (oldPkg : Option PkgId) (w' : World) : Prop :=
  ∃ w₁ w₂, beforeDependencies env i w = some (.go (.install oldPkg), w₁) ∧
    (if env.nodeps then w₂ = w₁ else satisfyDependenciesFor env installPkg i w₁ = some (0, w₂)) ∧
    untilClashCheck env removePkg i oldPkg w₂ = some (true, w')

end Nested

/-- **What has passed the point of no return** has passed the clash check. -/
theorem beforePointOfNoReturn_checked {installPkg removePkg : PkgId → Run Int} {i : PkgId}
    {oldPkg oldPkg' : Option PkgId} {w w' : World}
    (h : beforePointOfNoReturn env installPkg removePkg i oldPkg w = some (.go oldPkg', w')) :
    oldPkg' = oldPkg ∧ ∃ w₁, untilClashCheck env removePkg i oldPkg w = some (true, w₁) ∧
      checkDataFileClashes env i oldPkg w₁ = some (0, w') := by
  unfold beforePointOfNoReturn at h
  rw [get_bind] at h
  obtain ⟨replacees, w₁, hreplacees, h₁⟩ := bind_eq_some.mp h
  obtain ⟨_, w₂, hmark, h₂⟩ := bind_eq_some.mp h₁
  obtain ⟨_, w₃, horphans, h₃⟩ := bind_eq_some.mp h₂
  obtain ⟨err, w₄, hsteps, h₄⟩ := bind_eq_some.mp h₃
  split at h₄
  · exact absurd h₄ (pure_ne_some (by simp))
  · rename_i herr
    split at h₄
    · exact absurd h₄ (pure_ne_some (by simp))
    · obtain ⟨hold, rfl⟩ := Prod.mk.inj (pure_eq_some.mp h₄)
      refine ⟨Progressed.go.inj hold, ?_⟩
      obtain rfl := not_not.mp herr
      unfold untilClashCheck
      rw [get_bind, bind_of_eq_some hreplacees, bind_of_eq_some hmark, bind_of_eq_some horphans]
      rw [unwindableSteps_eq] at hsteps
      obtain ⟨err, w₅, hremoved, h₅⟩ := bind_eq_some.mp hsteps
      rw [bind_of_eq_some hremoved]
      split at h₅
      · obtain ⟨_, w₆, -, h₆⟩ := bind_eq_some.mp h₅
        exact absurd h₆ (pure_ne_some (by decide))
      · rename_i hnone
        rw [if_neg hnone]
        obtain ⟨err, w₆, hpreinst, h₆⟩ := bind_eq_some.mp h₅
        rw [bind_of_eq_some hpreinst]
        split at h₆
        · obtain ⟨_, w₇, -, h₇⟩ := bind_eq_some.mp h₆
          exact absurd h₇ (pure_ne_some (by decide))
        · rename_i hnone
          rw [if_neg hnone, get_bind]
          obtain ⟨err, w₇, hcheck, h₇⟩ := bind_eq_some.mp h₆
          split at h₇
          · obtain ⟨_, w₈, -, h₈⟩ := bind_eq_some.mp h₇
            obtain ⟨_, w₉, -, h₉⟩ := bind_eq_some.mp h₈
            exact absurd h₉ (pure_ne_some (by decide))
          · rename_i hzero
            obtain rfl := not_not.mp hzero
            obtain ⟨-, rfl⟩ := Prod.mk.inj (pure_eq_some.mp h₇)
            unfold backupAndCheck at hcheck
            rw [get_bind] at hcheck
            obtain ⟨err, w₈, hbackup, h₈⟩ := bind_eq_some.mp hcheck
            split at h₈
            · rename_i hne
              obtain ⟨rfl, -⟩ := Prod.mk.inj (pure_eq_some.mp h₈)
              exact absurd rfl hne
            · rename_i hzero
              refine ⟨w₈, ?_, h₈⟩
              rw [bind_of_eq_some hbackup, not_not.mp hzero]
              rfl

/-- **What passes the point of no return** has come to the clash check and passed it. -/
theorem untilPointOfNoReturn_comesToCheck {installPkg removePkg : PkgId → Run Int} {i : PkgId}
    {oldPkg : Option PkgId} {w w' : World}
    (h : untilPointOfNoReturn env installPkg removePkg i w = some (.go oldPkg, w')) :
    ∃ w₁, ComesToCheck env installPkg removePkg i w oldPkg w₁ ∧
      checkDataFileClashes env i oldPkg w₁ = some (0, w') := by
  obtain ⟨w₁, hbefore, hstage⟩ := untilPointOfNoReturn_inv h
  unfold atStage at hstage
  dsimp only at hstage
  split at hstage
  · rename_i hnodeps
    obtain ⟨-, w₂, huntil, hcheck⟩ := beforePointOfNoReturn_checked hstage
    exact ⟨w₂, ⟨w₁, w₁, hbefore, by rw [if_pos hnodeps], huntil⟩, hcheck⟩
  · rename_i hnodeps
    obtain ⟨err, w₂, hsatisfy, hrest⟩ := bind_eq_some.mp hstage
    split at hrest
    · exact absurd hrest (pure_ne_some (by simp))
    · rename_i hzero
      rw [getPkg_bind] at hrest
      split at hrest
      · exact absurd hrest (pure_ne_some (by simp))
      · obtain ⟨-, w₃, huntil, hcheck⟩ := beforePointOfNoReturn_checked hrest
        rw [not_not.mp hzero] at hsatisfy
        exact ⟨w₃, ⟨w₁, w₂, hbefore, by rwa [if_neg hnodeps], huntil⟩, hcheck⟩

/-! ## What the check lets pass -/

variable (env) in
/-- A file of the new package is no clash: it is not there, or there for one of the four reasons. -/
def World.Passes (w : World) (i : PkgId) (oldPkg : Option PkgId) (fileName : CStr) : Prop :=
  (∀ content, w.disk.files fileName ≠ some (.file content)) ∨
    (w.disk.files (backupFilename fileName)).isSome = true ∨
    (∃ owner, w.fileHash.get (stripOfflineRoot env fileName) = some owner ∧
      ownerAllowsOverwrite w.db i oldPkg owner = some true) ∨
    (w.obsFileHash.get fileName).isSome = true

theorem fileExists_run (path : CStr) (w : World) :
    (liftM (fileExists path) : Run Bool) w = some ((w.disk.files path).isSome, w) := rfl

theorem fileIsDir_run (path : CStr) (w : World) :
    (liftM (fileIsDir path) : Run Bool) w = some (w.disk.files path == some .dir, w) := rfl

/-- **One file**: nothing is written, and what is no clash passes. -/
theorem checkDataFile_cases (hforce : env.forceOverwrite = false) {i : PkgId}
    {oldPkg : Option PkgId} {clashes n : Nat} {fileName : CStr} {w w' : World}
    (h : checkDataFile env i oldPkg clashes fileName w = some (n, w')) :
    w' = w ∧ (n = clashes ∧ w.Passes env i oldPkg fileName ∨ n = clashes + 1) := by
  have hpass : w.Passes env i oldPkg fileName → (pure clashes : Run Nat) w = some (n, w') →
      w' = w ∧ (n = clashes ∧ w.Passes env i oldPkg fileName ∨ n = clashes + 1) := by
    intro hpasses hpure
    obtain ⟨rfl, rfl⟩ := Prod.mk.inj (pure_eq_some.mp hpure)
    exact ⟨rfl, .inl ⟨rfl, hpasses⟩⟩
  unfold checkDataFile at h
  rw [bind_of_eq_some (fileExists_run fileName w), bind_of_eq_some (fileIsDir_run fileName w)] at h
  split at h
  · rename_i hnone
    refine hpass (.inl fun content hfile => ?_) h
    rw [hfile] at hnone
    exact absurd hnone (by simp)
  · unfold backupExistsFor at h
    rw [bind_of_eq_some (fileExists_run (backupFilename fileName) w)] at h
    split at h
    · rename_i hbackup
      exact hpass (.inr (.inl hbackup)) h
    · rw [if_neg (Bool.eq_false_iff.mp hforce)] at h
      obtain ⟨owner, w₁, howner, h⟩ := bind_eq_some.mp h
      obtain ⟨rfl, rfl⟩ := Prod.mk.inj ((fileHashGetFileOwner_eq_some env).mp howner)
      have hlast : ∀ allowed : Bool, (allowed = true →
            ∃ owner, w₁.fileHash.get (stripOfflineRoot env fileName) = some owner ∧
              ownerAllowsOverwrite w₁.db i oldPkg owner = some true) →
          (if allowed = true then pure clashes
            else do
              if (← obsFileHashGet fileName).isSome then return clashes
              else return clashes + 1 : Run Nat) w₁ = some (n, w') →
          w' = w₁ ∧ (n = clashes ∧ w₁.Passes env i oldPkg fileName ∨ n = clashes + 1) := by
        intro allowed hallowed h
        split at h
        · rename_i htrue
          exact hpass (.inr (.inr (.inl (hallowed htrue)))) h
        · unfold obsFileHashGet at h
          rw [bind_assoc, get_bind, pure_bind] at h
          split at h
          · rename_i hobs
            exact hpass (.inr (.inr (.inr hobs))) h
          · obtain ⟨rfl, rfl⟩ := Prod.mk.inj (pure_eq_some.mp h)
            exact ⟨rfl, .inr rfl⟩
      cases howner : w₁.fileHash.get (stripOfflineRoot env fileName) with
      | none =>
          rw [howner] at h
          exact hlast false (fun hfalse => absurd hfalse (by decide)) h
      | some owner =>
          rw [howner] at h
          dsimp only at h
          rw [get_bind, deref_bind] at h
          obtain ⟨allowed, hallowed, h⟩ := Option.bind_eq_some_iff.mp h
          refine hlast allowed (fun htrue => ⟨owner, howner, ?_⟩) h
          rw [hallowed, htrue]

/-- The loop over the files counts the clashes. -/
theorem checkDataFiles_cases (hforce : env.forceOverwrite = false) {i : PkgId}
    {oldPkg : Option PkgId} {files : List CStr} {clashes n : Nat} {w w' : World}
    (h : files.foldlM (checkDataFile env i oldPkg) clashes w = some (n, w')) :
    w' = w ∧ clashes ≤ n ∧ (n = clashes → ∀ fileName ∈ files, w.Passes env i oldPkg fileName) := by
  induction files generalizing clashes w with
  | nil =>
      obtain ⟨rfl, rfl⟩ := Prod.mk.inj (pure_eq_some.mp h)
      exact ⟨rfl, Nat.le_refl _, fun _ _ hmem => absurd hmem List.not_mem_nil⟩
  | cons file files ih =>
      rw [List.foldlM_cons] at h
      obtain ⟨m, w₁, hfile, hfiles⟩ := bind_eq_some.mp h
      obtain ⟨hsame, hcase⟩ := checkDataFile_cases hforce hfile
      subst hsame
      obtain ⟨hsame, hle, hall⟩ := ih hfiles
      rcases hcase with ⟨rfl, hpasses⟩ | rfl
      · exact ⟨hsame, hle, fun hn => List.forall_mem_cons.mpr ⟨hpasses, hall hn⟩⟩
      · exact ⟨hsame, by omega, fun hn => absurd hn (by omega)⟩

/-- **A check that finds no clash** has let each file of the list pass. -/
theorem checkDataFileClashes_passes (hforce : env.forceOverwrite = false) {i : PkgId}
    {oldPkg : Option PkgId} {w w' : World}
    (h : checkDataFileClashes env i oldPkg w = some (0, w')) :
    ∃ files w₁, pkgGetInstalledFiles env i w = some (some files, w₁) ∧
      pkgFreeInstalledFiles i w₁ = some (⟨⟩, w') ∧
      ∀ fileName ∈ files, w₁.Passes env i oldPkg fileName := by
  unfold checkDataFileClashes at h
  obtain ⟨files, w₁, hget, hrest⟩ := bind_eq_some.mp h
  cases files with
  | none => exact absurd hrest (pure_ne_some (by decide))
  | some files =>
      obtain ⟨clashes, w₂, hcheck, hrest⟩ := bind_eq_some.mp hrest
      obtain ⟨_, w₃, hfree, hreturn⟩ := bind_eq_some.mp hrest
      obtain ⟨hzero, rfl⟩ := Prod.mk.inj (pure_eq_some.mp hreturn)
      obtain ⟨hsame, -, hall⟩ := checkDataFiles_cases hforce hcheck
      subst hsame
      exact ⟨files, w₂, hget, hfree, hall (by omega)⟩

/-! ## Past the point of no return -/

variable (env) in
/-- A file that is there and belongs to none of the packages that the call may overwrite: the package, one
of its name, one of the old package's name, or one that it replaces. It has no backup and is not
obsolete. -/
structure Clash (db : Database) (i : PkgId) (oldPkg : Option PkgId) (w : World) (fileName : CStr) : Prop where
  file : ∃ content, w.disk.files fileName = some (.file content)
  noBackup : w.disk.files (backupFilename fileName) = none
  notObsolete : w.obsFileHash.get fileName = none
  owner : ∀ owner, w.fileHash.get (stripOfflineRoot env fileName) = some owner →
    (db.pkg owner).name ≠ (db.pkg i).name ∧ (∀ old ∈ oldPkg, (db.pkg owner).name ≠ (db.pkg old).name) ∧
      pkgReplaces (db.pkg i) (db.pkg owner) ≠ some true

/-- **No clash** in the list of the files of a package that is past the point of no return, by what the
packages were when the call began. -/
theorem noClash_of_go (hforce : env.forceOverwrite = false) {fuel : Nat} {i : PkgId}
    {oldPkg : Option PkgId} {w w' : World}
    (h : untilPointOfNoReturn env (opkgInstallPkg env fuel) (fun j => opkgRemovePkg env fuel j false) i w
      = some (.go oldPkg, w')) :
    ∃ files w₁ w₂, ComesToCheck env (opkgInstallPkg env fuel) (fun j => opkgRemovePkg env fuel j false) i w
        oldPkg w₁ ∧
      pkgGetInstalledFiles env i w₁ = some (some files, w₂) ∧
      ∀ fileName ∈ files, ¬ Clash env w.db i oldPkg w' fileName := by
  have hrecords : SameRecords w w' := sameRecords_allowsAll.untilPointOfNoReturn i
    (opkgInstallPkg_sameRecords fuel) (fun j =>
      (opkgRemovePkg_onlyUninstalls fuel j false).mono fun _ _ h => h.sameRecords) _ _ _ h
  obtain ⟨w₁, hcomes, hcheck⟩ := untilPointOfNoReturn_comesToCheck h
  obtain ⟨files, w₂, hget, hfree, hpasses⟩ := checkDataFileClashes_passes hforce hcheck
  obtain ⟨-, rfl⟩ := Prod.mk.inj (modifyPkg_eq_some.mp hfree)
  -- the list is freed last, which leaves the packages what they are
  have hfreed := sameRecords_allowsAll.pkgFreeInstalledFiles i _ _ _ hfree
  have hname : ∀ j, (w₂.db.pkg j).name = (w.db.pkg j).name := fun j => by
    rw [← hfreed.name, hrecords.name]
  have hreplaces : ∀ j, pkgReplaces (w₂.db.pkg i) (w₂.db.pkg j) = pkgReplaces (w.db.pkg i) (w.db.pkg j) :=
    fun j => by rw [← hfreed.pkgReplaces, hrecords.pkgReplaces]
  refine ⟨files, w₁, w₂, hcomes, hget, fun fileName hmem hclash => ?_⟩
  obtain ⟨content, hthere⟩ := hclash.file
  rcases hpasses fileName hmem with hgone | hbackup | ⟨owner, howner, hallowed⟩ | hobsolete
  · exact hgone content hthere
  · rw [show w₂.disk.files (backupFilename fileName) = none from hclash.noBackup] at hbackup
    cases hbackup
  · obtain ⟨hself, hold, hreplaced⟩ := hclash.owner owner howner
    unfold ownerAllowsOverwrite at hallowed
    split at hallowed
    · rename_i hsome
      cases oldPkg with
      | none => cases hsome
      | some old =>
          rw [Option.any_some, beq_iff_eq, hname, hname] at hsome
          exact hold old rfl hsome
    · rw [hreplaces, Option.bind_eq_bind, Option.bind_eq_some_iff] at hallowed
      obtain ⟨replaces, hvalue, hallowed⟩ := hallowed
      split at hallowed
      · rename_i htrue
        rw [htrue] at hvalue
        exact hreplaced hvalue
      · rw [Option.some.injEq, beq_iff_eq, hname, hname] at hallowed
        exact hself hallowed
  · rw [show w₂.obsFileHash.get fileName = none from hclash.notObsolete] at hobsolete
    cases hobsolete

/-- The package holds the file of `q`. -/
abbrev fileEnv : Env := plainEnv [("./f".toList, .file [])]

/-- `p` takes over the file of `q` where it is obsolete. -/
theorem noClash_of_go_obsolete :
    ∃ w', untilPointOfNoReturn fileEnv (opkgInstallPkg fileEnv 1) (fun j => opkgRemovePkg fileEnv 1 j false) 0
        { ownedWorld false with obsFileHash := [("/f".toList, 1)] } = some (.go none, w') ∧
      ∃ files w₁ w₂, ComesToCheck fileEnv (opkgInstallPkg fileEnv 1) (fun j => opkgRemovePkg fileEnv 1 j false) 0
          { ownedWorld false with obsFileHash := [("/f".toList, 1)] } none w₁ ∧
        pkgGetInstalledFiles fileEnv 0 w₁ = some (some files, w₂) ∧
        ∀ fileName ∈ files, ¬ Clash fileEnv (ownedWorld false).db 0 none w' fileName := by
  have hrun : (untilPointOfNoReturn fileEnv (opkgInstallPkg fileEnv 1) (fun j => opkgRemovePkg fileEnv 1 j false) 0
      { ownedWorld false with obsFileHash := [("/f".toList, 1)] }).map Prod.fst = some (.go none) := by
    decide +kernel
  obtain ⟨⟨progressed, w'⟩, hgo, rfl⟩ := Option.map_eq_some_iff.mp hrun
  exact ⟨w', hgo, noClash_of_go rfl hgo⟩

end FirmwareTools.Opkg

import FirmwareTools.Squashfs.DirScan
import FirmwareTools.System.Descent

/-! # How deep a scan goes

`pre_scan` counts what an extraction will write, `dir_scan` writes it. Both open a directory and call
themselves for every directory among its entries that matches, at the inode that the entry refers to; no
record is kept of the directories that have been entered.

* **`runCall_dirScanActs`** — `dir_scan` as a routine that calls itself is the walk of `dirScan`;
* **`scansEnd_iff`** — the scans end, with distinct directories on each path down and no path longer than
  there are directories, exactly when no directory is entered from within itself. -/

namespace FirmwareTools.Squashfs

/-! ## Directories by the positions of their inodes -/

/-- `read_inode_4` behind its lookup, on the record at a position of the inode table. -/
def InodeTable.inodeAt (t : InodeTable) (blockPtr : ℕ) : Option Inode := do
  let record := t.bytes.drop blockPtr
  let i ← readBaseHeader t record
  readInodeBody t i blockPtr (record.drop 16)

/-- `squashfs_opendir_4` behind its first lookup. -/
def Image.directoryAt (img : Image) (blockPtr : ℕ) : Option (Inode × List DirEnt) := do
  let i ← img.inodeTable.inodeAt blockPtr
  let bytes ← img.lookupDirectory (img.directoryTableStart + i.start)
  let bytes := bytes + i.offset
  let entries ← readDirectory img.directoryTable (toInt32 (i.data + bytes - 3)) bytes
  some (i, entries)

/-- The directories in an image: the positions of the inodes that open as one. -/
def Image.directories (img : Image) : Finset ℕ :=
  (Finset.range img.inodeTable.bytes.length).filter fun p => (img.directoryAt p).isSome

theorem opendir4_eq (img : Image) (blockStart offset : ℕ) :
    opendir4 img blockStart offset =
      (img.inodeTable.lookupEntry (img.inodeTable.inodeTableStart + blockStart)).bind
        fun bytes => img.directoryAt (bytes + offset) := by
  rw [opendir4, readInode4]
  cases img.inodeTable.lookupEntry (img.inodeTable.inodeTableStart + blockStart) with
  | none => rfl
  | some bytes => rfl

/-- There is no inode behind the end of the table. -/
theorem mem_directories {img : Image} {p : ℕ} (h : (img.directoryAt p).isSome) :
    p ∈ img.directories := by
  refine Finset.mem_filter.mpr ⟨Finset.mem_range.mpr ?_, h⟩
  by_contra hle
  have hdrop : img.inodeTable.bytes.drop p = [] := List.drop_eq_nil_of_le (Nat.le_of_not_lt hle)
  rw [Image.directoryAt, InodeTable.inodeAt, hdrop] at h
  exact Bool.noConfusion h

/-! ## The scans -/

/-- The arguments of `pre_scan` and of `dir_scan`. -/
structure ScanCall where
  parent : Path
  startBlock : ℕ
  offset : ℕ
  paths : Option (List Pathname)

/-- The position of the inode that a call opens. -/
def ScanCall.position (img : Image) (c : ScanCall) : ℕ :=
  (img.inodeTable.lookupEntry (img.inodeTable.inodeTableStart + c.startBlock)).getD 0 + c.offset

/-- What `pre_scan` counts, and the inode numbers for which `created_inode` has an entry. -/
structure PreScan where
  created : List ℕ := []
  totalBlocks : ℕ := 0
  totalFiles : ℕ := 0
  totalInodes : ℕ := 0

/-- `pre_scan` for an entry that is no directory. `created_inode` has room for the number of inodes that
the superblock gives. -/
def countInode (env : ScanEnv) (inodes : ℕ) (entry : DirEnt) (s : PreScan) : Option PreScan :=
  if entry.type = InodeType.file.code ∨ entry.type = InodeType.lreg.code then do
    let i ← readInode4 env.img.inodeTable entry.startBlock entry.offset
    if i.inodeNumber = 0 ∨ inodes < i.inodeNumber then none
    else
      let blocks := shiftRight64 (i.data + env.img.inodeTable.blockSize - 1) env.img.inodeTable.blockLog
      let s := if i.inodeNumber ∈ s.created then s else
        { s with
          created := i.inodeNumber :: s.created
          totalBlocks := ((s.totalBlocks + blocks) % 2 ^ 32).toNat }
      some { s with totalFiles := s.totalFiles + 1, totalInodes := s.totalInodes + 1 }
  else some { s with totalInodes := s.totalInodes + 1 }

/-- One round of the loop of `pre_scan`. The pathname is glued together, but the name of the parent is
passed on. -/
def preScanEntry (env : ScanEnv) (inodes : ℕ) (c : ScanCall) (entry : DirEnt) :
    List (Act ScanCall PreScan) :=
  match matchesPaths env.fnmatch c.paths entry.name with
  | (false, _) => []
  | (true, new) =>
    if pathnameSize ≤ (joinName c.parent entry.name).length then [.effect fun _ => none]
    else if entry.type = InodeType.dir.code then
      [.call ⟨c.parent, entry.startBlock, entry.offset, new⟩]
    else if new.isNone then [.effect (countInode env inodes entry)]
    else []

/-- `pre_scan` -/
def preScanActs (env : ScanEnv) (inodes : ℕ) (c : ScanCall) : Option (List (Act ScanCall PreScan)) :=
  (opendir4 env.img c.startBlock c.offset).map fun dir => dir.2.flatMap (preScanEntry env inodes c)

/-- Pass a pathname on, unless the image is only listed. -/
def pass (lsonly : Bool) (event : ScanEvent) : Act ScanCall (List ScanEvent) :=
  .effect fun events => some (if lsonly then events else events ++ [event])

/-- One round of the loop of `dir_scan`. -/
def dirScanEntry (env : ScanEnv) (c : ScanCall) (entry : DirEnt) :
    List (Act ScanCall (List ScanEvent)) :=
  match matchesPaths env.fnmatch c.paths entry.name with
  | (false, _) => []
  | (true, new) =>
    let pathname := joinName c.parent entry.name
    if pathnameSize ≤ pathname.length then [.effect fun _ => none]
    else if entry.type = InodeType.dir.code then
      [pass false (.dirScan pathname), .call ⟨pathname, entry.startBlock, entry.offset, new⟩]
    else if new.isNone then
      match readInode4 env.img.inodeTable entry.startBlock entry.offset with
      | some i => [pass env.lsonly (.createInode pathname i)]
      | none => [.effect fun _ => none]
    else []

/-- `dir_scan`, where `mkdir` may answer by all that has been done before. -/
def dirScanActs (env : ScanEnv) (mkdir : List ScanEvent → Path → MkdirResult) (c : ScanCall) :
    Option (List (Act ScanCall (List ScanEvent))) :=
  (opendir4 env.img c.startBlock c.offset).map fun (dir, entries) =>
    pass env.lsonly (.mkdir c.parent) ::
      .check (fun events => env.lsonly || mkdir events c.parent == .ok ||
        env.force && mkdir events c.parent == .eexist) ::
      (entries.flatMap (dirScanEntry env c) ++
        [pass env.lsonly (.setAttributes c.parent dir.mode dir.uid dir.gid dir.time dir.xattr)])

/-! ## The walk of `dirScan` -/

/-- What a list of things passes on and whether it is done, against a part of the walk. -/
def Agrees (events : List ScanEvent) (run : List ScanEvent × Ending) (walk : List ScanEvent × Bool) :
    Prop :=
  ∃ ending, run = (events ++ walk.1, ending) ∧ (walk.2 = true ↔ ending = .done)

variable {env : ScanEnv} {run : ScanCall → List ScanEvent → List ScanEvent × Ending}
  {walk : Path → ℕ → ℕ → Option (List Pathname) → List ScanEvent × Bool} {c : ScanCall}
  {events : List ScanEvent}

theorem check_notMem_dirScanEntry (entry : DirEnt) (p : List ScanEvent → Bool) :
    .check p ∉ dirScanEntry env c entry := by
  intro h
  rw [dirScanEntry] at h
  split at h
  · simp at h
  · dsimp only at h
    split_ifs at h with hlong htype hnew
    · simp at h
    · simp [pass] at h
    · split at h
      · simp [pass] at h
      · simp at h
    · simp at h

/-- One round of the loop. -/
theorem agrees_dirScanEntry (events : List ScanEvent)
    (hrun : ∀ c events, Agrees events (run c events) (walk c.parent c.startBlock c.offset c.paths))
    (entry : DirEnt) :
    Agrees events (runActs run (dirScanEntry env c entry) events)
      (scanEntry env walk c.parent c.paths entry) := by
  rw [dirScanEntry, scanEntry]
  rcases matchesPaths env.fnmatch c.paths entry.name with ⟨matched, new⟩
  cases matched with
  | false => exact ⟨.done, by simp [runActs], by simp⟩
  | true =>
      dsimp only
      by_cases hlong : pathnameSize ≤ (joinName c.parent entry.name).length
      · rw [if_pos hlong, if_pos hlong]
        exact ⟨.stopped, by simp [runActs], by simp⟩
      rw [if_neg hlong, if_neg hlong]
      by_cases htype : entry.type = InodeType.dir.code
      · rw [if_pos htype, if_pos htype]
        obtain ⟨ending, hcall, hdone⟩ := hrun ⟨joinName c.parent entry.name, entry.startBlock,
          entry.offset, new⟩ (events ++ [.dirScan (joinName c.parent entry.name)])
        refine ⟨ending, ?_, hdone⟩
        simp only [pass, runActs, Bool.false_eq_true, if_false, hcall]
        cases ending <;> simp
      rw [if_neg htype, if_neg htype]
      cases new with
      | some new => exact ⟨.done, by simp [runActs], by simp⟩
      | none =>
          cases readInode4 env.img.inodeTable entry.startBlock entry.offset with
          | none => exact ⟨.stopped, by simp [runActs], by simp⟩
          | some i =>
              refine ⟨.done, ?_, by simp⟩
              cases hlsonly : env.lsonly <;> simp [pass, runActs]

/-- The loop. -/
theorem agrees_flatMap (c : ScanCall) (events : List ScanEvent)
    (hrun : ∀ c events, Agrees events (run c events) (walk c.parent c.startBlock c.offset c.paths))
    (entries : List DirEnt) :
    Agrees events (runActs run (entries.flatMap (dirScanEntry env c)) events)
      (scanEntries (scanEntry env walk c.parent c.paths) entries) := by
  induction entries generalizing events with
  | nil => exact ⟨.done, by simp [runActs, scanEntries], by simp [scanEntries]⟩
  | cons entry entries ih =>
      obtain ⟨ending, hentry, hdone⟩ := agrees_dirScanEntry events hrun entry
      rw [List.flatMap_cons, runActs_append (check_notMem_dirScanEntry entry), hentry, scanEntries]
      rcases hwalk : scanEntry env walk c.parent c.paths entry with ⟨passed, ok⟩
      rw [hwalk] at hdone
      cases ok with
      | false =>
          cases ending with
          | done => simp at hdone
          | stopped => exact ⟨.stopped, rfl, by simp⟩
          | deep => exact ⟨.deep, rfl, by simp⟩
      | true =>
          obtain rfl := hdone.mp rfl
          obtain ⟨ending', hrest, hdone'⟩ := ih (events ++ passed)
          refine ⟨ending', ?_, hdone'⟩
          dsimp only at hrest ⊢
          rw [hrest, List.append_assoc]

/-- **`dir_scan` is the walk of `dirScan`**, where `mkdir` always gives the same answer. -/
theorem runCall_dirScanActs (env : ScanEnv) (n : ℕ) (c : ScanCall) (events : List ScanEvent) :
    Agrees events (runCall (dirScanActs env fun _ => env.mkdir) n c events)
      (dirScan env n c.parent c.startBlock c.offset c.paths) := by
  induction n generalizing c events with
  | zero => exact ⟨.deep, by simp [runCall, dirScan], by simp [dirScan]⟩
  | succ n ih =>
      rw [runCall, dirScan, dirScanActs]
      cases opendir4 env.img c.startBlock c.offset with
      | none => exact ⟨.stopped, by simp, by simp⟩
      | some opened =>
          obtain ⟨dir, entries⟩ := opened
          -- the destination, the loop, the attributes
          obtain ⟨ending, hloop, hdone⟩ := agrees_flatMap c
            (events ++ if env.lsonly then [] else [.mkdir c.parent]) (fun c events => ih c events) entries
          rcases hscan : scanEntries (scanEntry env (dirScan env n) c.parent c.paths) entries
            with ⟨passed, ok⟩
          rw [hscan] at hloop hdone
          have hmade : (if env.lsonly then events else events ++ [.mkdir c.parent]) =
              events ++ if env.lsonly then [] else [.mkdir c.parent] := by
            cases env.lsonly <;> simp
          have hcheck : ∀ p, .check p ∉ entries.flatMap (dirScanEntry env c) := by
            intro p hp
            obtain ⟨entry, -, hp⟩ := List.mem_flatMap.mp hp
            exact check_notMem_dirScanEntry entry p hp
          rw [Option.map_some]
          dsimp only
          rw [pass, runActs]
          dsimp only
          rw [runActs, hmade]
          by_cases hgo : (!env.lsonly && env.mkdir c.parent != .ok &&
              (!env.force || env.mkdir c.parent != .eexist)) = true
          · -- the directory could not be made
            have hleave : (env.lsonly || env.mkdir c.parent == .ok ||
                env.force && env.mkdir c.parent == .eexist) = false := by
              revert hgo
              cases env.lsonly <;> cases env.force <;> cases env.mkdir c.parent <;> decide
            rw [if_pos hgo, hleave]
            exact ⟨.done, rfl, by simp⟩
          · have henter : (env.lsonly || env.mkdir c.parent == .ok ||
                env.force && env.mkdir c.parent == .eexist) = true := by
              revert hgo
              cases env.lsonly <;> cases env.force <;> cases env.mkdir c.parent <;> decide
            rw [if_neg hgo, if_pos henter, runActs_append hcheck, hloop, hscan]
            cases ok with
            | false =>
                cases ending with
                | done => simp at hdone
                | stopped => exact ⟨.stopped, by simp, by simp⟩
                | deep => exact ⟨.deep, by simp, by simp⟩
            | true =>
                obtain rfl := hdone.mp rfl
                refine ⟨.done, ?_, by simp⟩
                cases env.lsonly <;> simp [pass, runActs]

/-! ## Which directories are entered -/

/-- A directory has an entry of its type for another one. -/
def Refers (img : Image) (p q : ℕ) : Prop :=
  ∃ dir entries entry bytes, img.directoryAt p = some (dir, entries) ∧ entry ∈ entries ∧
    entry.type = InodeType.dir.code ∧
    img.inodeTable.lookupEntry (img.inodeTable.inodeTableStart + entry.startBlock) = some bytes ∧
    q = bytes + entry.offset

section

variable {env : ScanEnv} {c c' : ScanCall} {entry : DirEnt}

theorem call_mem_preScanEntry {inodes : ℕ} (h : .call c' ∈ preScanEntry env inodes c entry) :
    entry.type = InodeType.dir.code ∧ c'.startBlock = entry.startBlock ∧ c'.offset = entry.offset := by
  rw [preScanEntry] at h
  split at h
  · simp at h
  · split_ifs at h with hlong htype hnew
    · simp at h
    · rw [List.mem_singleton] at h
      cases h
      exact ⟨htype, rfl, rfl⟩
    · simp at h
    · simp at h

theorem call_mem_dirScanEntry (h : .call c' ∈ dirScanEntry env c entry) :
    entry.type = InodeType.dir.code ∧ c'.startBlock = entry.startBlock ∧ c'.offset = entry.offset := by
  rw [dirScanEntry] at h
  split at h
  · simp at h
  · dsimp only at h
    split_ifs at h with hlong htype hnew
    · simp at h
    · simp only [pass, List.mem_cons, reduceCtorEq, false_or, List.not_mem_nil, or_false,
        Act.call.injEq] at h
      rw [h]
      exact ⟨htype, rfl, rfl⟩
    · split at h
      · simp [pass] at h
      · simp at h
    · simp at h

/-- A call is opened where its inode is. -/
theorem opendir4_eq_directoryAt {img : Image} (h : (opendir4 img c.startBlock c.offset).isSome) :
    opendir4 img c.startBlock c.offset = img.directoryAt (c.position img) := by
  rw [opendir4_eq] at h ⊢
  rw [ScanCall.position]
  cases hlookup : img.inodeTable.lookupEntry (img.inodeTable.inodeTableStart + c.startBlock) with
  | none =>
      rw [hlookup] at h
      cases h
  | some bytes => rfl

/-- What is opened is a directory of the image. -/
theorem position_mem_directories {img : Image}
    (h : (opendir4 img c.startBlock c.offset).isSome) : c.position img ∈ img.directories := by
  apply mem_directories
  rwa [← opendir4_eq_directoryAt h]

/-- A call made for an entry of a directory goes to a directory that the directory refers to. -/
theorem refers_of_entry {img : Image} {dir : Inode} {entries : List DirEnt}
    (hopen : opendir4 img c.startBlock c.offset = some (dir, entries)) (hentry : entry ∈ entries)
    (htype : entry.type = InodeType.dir.code) (hblock : c'.startBlock = entry.startBlock)
    (hoffset : c'.offset = entry.offset) (hsome : (opendir4 img c'.startBlock c'.offset).isSome) :
    Refers img (c.position img) (c'.position img) := by
  have hat := opendir4_eq_directoryAt (c := c) (by rw [hopen]; rfl)
  rw [hopen] at hat
  rw [opendir4_eq, Option.isSome_iff_exists] at hsome
  obtain ⟨opened, hsome⟩ := hsome
  obtain ⟨bytes, hlookup, -⟩ := Option.bind_eq_some_iff.mp hsome
  refine ⟨dir, entries, entry, bytes, hat.symm, hentry, htype, by rw [← hblock, hlookup], ?_⟩
  rw [ScanCall.position, hlookup, hoffset]
  rfl

theorem refers_of_preScan {inodes p q : ℕ}
    (h : Calls (preScanActs env inodes) (ScanCall.position env.img) p q) : Refers env.img p q := by
  obtain ⟨c, acts, c', hacts, hcall, hsome, rfl, rfl⟩ := h
  obtain ⟨⟨dir, entries⟩, hopen, rfl⟩ := Option.map_eq_some_iff.mp hacts
  obtain ⟨entry, hentry, hcall⟩ := List.mem_flatMap.mp hcall
  obtain ⟨htype, hblock, hoffset⟩ := call_mem_preScanEntry hcall
  rw [preScanActs, Option.isSome_map] at hsome
  exact refers_of_entry hopen hentry htype hblock hoffset hsome

theorem refers_of_dirScan {mkdir : List ScanEvent → Path → MkdirResult} {p q : ℕ}
    (h : Calls (dirScanActs env mkdir) (ScanCall.position env.img) p q) : Refers env.img p q := by
  obtain ⟨c, acts, c', hacts, hcall, hsome, rfl, rfl⟩ := h
  obtain ⟨⟨dir, entries⟩, hopen, rfl⟩ := Option.map_eq_some_iff.mp hacts
  have hcall : .call c' ∈ entries.flatMap (dirScanEntry env c) := by
    simpa [pass] using hcall
  obtain ⟨entry, hentry, hcall⟩ := List.mem_flatMap.mp hcall
  obtain ⟨htype, hblock, hoffset⟩ := call_mem_dirScanEntry hcall
  rw [dirScanActs, Option.isSome_map] at hsome
  exact refers_of_entry hopen hentry htype hblock hoffset hsome

end

/-! ## Scans that end -/

/-- Both scans end, each going down no path on which a directory is entered again, and so at most as deep
as there are directories. -/
structure ScansEnd (env : ScanEnv) (inodes : ℕ) (mkdir : List ScanEvent → Path → MkdirResult)
    (c : ScanCall) : Prop where
  preScan : EndsDistinct (preScanActs env inodes) (ScanCall.position env.img) env.img.directories c {}
  dirScan : EndsDistinct (dirScanActs env mkdir) (ScanCall.position env.img) env.img.directories c []

/-- Neither scan enters a directory from within itself. -/
structure NoneWithin (env : ScanEnv) (inodes : ℕ) (mkdir : List ScanEvent → Path → MkdirResult)
    (c : ScanCall) : Prop where
  preScan : NoReturn (preScanActs env inodes) (ScanCall.position env.img) c {}
  dirScan : NoReturn (dirScanActs env mkdir) (ScanCall.position env.img) c []

/-- **When the scans end**: exactly when no directory is entered from within itself; and so they do in
every image whose directories refer to each other in no circle below the first one. -/
theorem scansEnd_iff (env : ScanEnv) (inodes : ℕ) (mkdir : List ScanEvent → Path → MkdirResult)
    (c : ScanCall) :
    (ScansEnd env inodes mkdir c ↔ NoneWithin env inodes mkdir c) ∧
      ((∀ p, Relation.ReflTransGen (Refers env.img) (c.position env.img) p →
          ¬ Relation.TransGen (Refers env.img) p p) → ScansEnd env inodes mkdir c) := by
  have hpre : EndsDistinct (preScanActs env inodes) (ScanCall.position env.img) env.img.directories c {} ↔
      NoReturn (preScanActs env inodes) (ScanCall.position env.img) c {} := by
    refine endsDistinct_iff fun c hsome => ?_
    rw [preScanActs, Option.isSome_map] at hsome
    exact position_mem_directories hsome
  have hdir : EndsDistinct (dirScanActs env mkdir) (ScanCall.position env.img) env.img.directories c [] ↔
      NoReturn (dirScanActs env mkdir) (ScanCall.position env.img) c [] := by
    refine endsDistinct_iff fun c hsome => ?_
    rw [dirScanActs, Option.isSome_map] at hsome
    exact position_mem_directories hsome
  refine ⟨⟨fun h => ⟨hpre.mp h.preScan, hdir.mp h.dirScan⟩,
    fun h => ⟨hpre.mpr h.preScan, hdir.mpr h.dirScan⟩⟩, fun hacyclic => ⟨hpre.mpr ?_, hdir.mpr ?_⟩⟩
  · exact noReturn_of_acyclic fun p hp hcycle =>
      hacyclic p (hp.lift id fun _ _ => refers_of_preScan) (hcycle.lift id fun _ _ => refers_of_preScan)
  · exact noReturn_of_acyclic fun p hp hcycle =>
      hacyclic p (hp.lift id fun _ _ => refers_of_dirScan) (hcycle.lift id fun _ _ => refers_of_dirScan)

/-! ## A directory that contains itself -/

/-- An image whose root directory has one entry, a directory `x`: the root directory. -/
def loopImage : Image where
  inodeTable :=
    { bytes := (createInode { type := .dir, byteSize := 24 }).getD []
      lookupEntry := fun _ => some 0, inodeTableStart := 0, idTable := fun _ => 0
      blockSize := 4096, blockLog := 12 }
  directoryTable := packFields [(4, 0), (4, 0), (4, 1)] ++
    packFields [(2, 0), (2, 0), (2, InodeType.dir.code), (2, 0)] ++ [120]
  lookupDirectory := fun _ => some 0
  directoryTableStart := 0

def loopEnv : ScanEnv := { img := loopImage, fnmatch := fun _ _ => true, mkdir := fun _ => .ok }

/-- `pre_scan` never ends there: it calls itself with its own arguments. -/
theorem not_scansEnd_loopImage :
    ¬ ∀ env inodes mkdir c, ScansEnd env inodes mkdir c := by
  intro h
  have hends := (h loopEnv 1 (fun _ _ => .ok) ⟨[100], 0, 0, none⟩).preScan.ends
  refine hends (deep_of_call_self ?_ _)
  have hopen : ((opendir4 loopEnv.img 0 0).map Prod.snd) = some [⟨[120], 0, 0, 1⟩] := by
    decide +kernel
  obtain ⟨⟨dir, entries⟩, hopen, rfl⟩ := Option.map_eq_some_iff.mp hopen
  rw [preScanActs, hopen]
  rfl

end FirmwareTools.Squashfs

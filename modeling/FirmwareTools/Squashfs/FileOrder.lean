import FirmwareTools.Squashfs.SourceTree

/-! # The order in which files are read and written

The reader thread of `mksquashfs` goes through the tree on its own and queues the blocks of the regular
files; the main thread goes through it another way and takes for each file the blocks that come next.
With a sort list both follow the list of priorities.

* **`fileOrder_iff`** — they agree exactly when, with a sort list, no file is the output of a process,
  and without one no directory that the main thread passes over has a file that is not read yet. -/

namespace FirmwareTools.Squashfs

variable {ε : Type*}

/-! ## The sort list -/

/-- `struct sort_info`. `read_sort_file` skips other priorities. -/
structure SortInfo where
  stDev : ℕ
  stIno : ℕ
  priority : ℤ
  range : -32768 ≤ priority ∧ priority ≤ 32767 := by decide

/-- `get_priority`; the list is a hash table. -/
def getPriority (sortInfoList : ℕ → List SortInfo) (buf : FileStat) (priority : ℤ) : ℤ :=
  match (sortInfoList (buf.ino &&& 0xffff)).find? fun s => s.stDev = buf.dev ∧ s.stIno = buf.ino with
  | some s => s.priority
  | none => priority

/-- `generate_file_priorities`, for the entries of a directory with this priority: the calls of
`add_priority_list`. -/
def generateFilePriorities (info : ℕ → InodeInfo) (sortInfoList : ℕ → List SortInfo) :
    Entries ε → ℤ → List ((ε × ℕ) × ℤ)
  | .nil, _ => []
  | .cons ent inode sub rest, priority =>
    let buf := (info inode).buf
    (if (info inode).rootEntry then []
      else match buf.format with
        | .reg => [((ent, inode), getPriority sortInfoList buf priority)]
        | .dir =>
          generateFilePriorities info sortInfoList sub (getPriority sortInfoList buf priority)
        | _ => []) ++ generateFilePriorities info sortInfoList rest priority

/-- The entries of `priority_list`, from the highest priority on: `add_priority_list` puts an entry in
front of those with the same priority. -/
def priorityOrder (calls : List ((ε × ℕ) × ℤ)) : List (ε × ℕ) :=
  (List.range 65536).reverse.flatMap fun i : ℕ =>
    ((calls.filter fun c => c.2 + 32768 = (i : ℤ)).map Prod.fst).reverse

/-- The list that both threads follow. -/
def priorityList (info : ℕ → InodeInfo) (sortInfoList : ℕ → List SortInfo) (rootBuf : FileStat)
    (root : Entries ε) : List (ε × ℕ) :=
  priorityOrder (generateFilePriorities info sortInfoList root (getPriority sortInfoList rootBuf 0))

/-! ## The two threads -/

/-- The routines by which the reader queues the blocks of a file. -/
inductive ReadRoutine
  | readProcess | readFile
  deriving DecidableEq, Repr

/-- The routine for an inode. -/
def InodeInfo.routine (i : InodeInfo) : ReadRoutine :=
  if i.isPseudoProcess then .readProcess else .readFile

/-- `reader_read_file`: what is queued, and the inodes that are read then. -/
def readerReadFileEntry (e : ε × ℕ) (read : List ℕ) : List ((ε × ℕ) × ReadRoutine) × List ℕ :=
  if e.2 ∈ read then ([], read) else ([(e, .readFile)], e.2 :: read)

/-- `reader_scan` -/
def readerScan (info : ℕ → InodeInfo) :
    Entries ε → List ℕ → List ((ε × ℕ) × ReadRoutine) × List ℕ
  | .nil, read => ([], read)
  | .cons ent inode sub rest, read =>
    let r :=
      if (info inode).rootEntry then ([], read)
      else if (info inode).isPseudoProcess then ([((ent, inode), .readProcess)], read)
      else match (info inode).buf.format with
        | .reg => readerReadFileEntry (ent, inode) read
        | .dir => readerScan info sub read
        | _ => ([], read)
    let s := readerScan info rest r.2
    (r.1 ++ s.1, s.2)

/-- The loop of `reader` over the priority list. -/
def readPriorities : List (ε × ℕ) → List ℕ → List ((ε × ℕ) × ReadRoutine)
  | [], _ => []
  | e :: entries, read =>
    let r := readerReadFileEntry e read
    r.1 ++ readPriorities entries r.2

/-- `sort_files_and_write`: the files it writes. -/
def sortFilesAndWrite : List (ε × ℕ) → List ℕ → List (ε × ℕ)
  | [], _ => []
  | e :: entries, written =>
    if e.2 ∈ written then sortFilesAndWrite entries written
    else e :: sortFilesAndWrite entries (e.2 :: written)

/-- A tree of source files. The names of the entries tell them apart, as their addresses do. -/
structure SourceTree (ε : Type*) where
  info : ℕ → InodeInfo
  rootBuf : FileStat
  root : Entries ε
  nodup : root.ents.Nodup

/-- The regular files among these entries. -/
def regularFiles (info : ℕ → InodeInfo) (entries : List (ε × ℕ)) : List (ε × ℕ) :=
  entries.filter fun e => (info e.2).buf.format = .reg

/-- The priority list. -/
def SourceTree.order (t : SourceTree ε) (sortInfoList : ℕ → List SortInfo) : List (ε × ℕ) :=
  priorityList t.info sortInfoList t.rootBuf t.root

/-- `reader`: the files it queues blocks for; there may be a sort list. -/
def SourceTree.reads (t : SourceTree ε) :
    Option (ℕ → List SortInfo) → List ((ε × ℕ) × ReadRoutine)
  | none => (readerScan t.info t.root []).1
  | some sortInfoList => readPriorities (t.order sortInfoList) []

/-- The calls of `write_file`, of `dir_scan3` and before it of `sort_files_and_write`. -/
def SourceTree.writes (t : SourceTree ε) : Option (ℕ → List SortInfo) → List (ε × ℕ)
  | none => regularFiles t.info (dirScan3 t.info t.root [])
  | some sortInfoList =>
    let sorted := sortFilesAndWrite (t.order sortInfoList) []
    sorted ++ regularFiles t.info (dirScan3 t.info t.root (sorted.map Prod.snd))

/-- Reader and main thread agree on the order of the files, and each is read by the routine for it. -/
def FileOrder (t : SourceTree ε) (sort : Option (ℕ → List SortInfo)) : Prop :=
  (t.reads sort).map Prod.fst = t.writes sort ∧ ∀ r ∈ t.reads sort, r.2 = (t.info r.1.2).routine

/-! ## When they agree -/

/-- The regular files of the tree. -/
def Entries.files (info : ℕ → InodeInfo) : Entries ε → List (ε × ℕ)
  | .nil => []
  | .cons ent inode sub rest =>
    (if (info inode).rootEntry then []
      else match (info inode).buf.format with
        | .reg => [(ent, inode)]
        | .dir => sub.files info
        | _ => []) ++ rest.files info

/-- A directory that was left before, under another name, has no output of a process in it, and no file
that is not one of `seen`, those before it; and a process has a single name. -/
def Entries.NothingNewPassed (info : ℕ → InodeInfo) : Entries ε → List ℕ → List ℕ → Prop
  | .nil, _, _ => True
  | .cons _ inode sub rest, seen, done =>
    if (info inode).rootEntry then rest.NothingNewPassed info seen done
    else match (info inode).buf.format with
      | .reg =>
        ((info inode).isPseudoProcess = true → inode ∉ seen) ∧
          rest.NothingNewPassed info (inode :: seen) done
      | .dir =>
        if inode ∈ done then
          (∀ f ∈ sub.files info, (info f.2).isPseudoProcess = false ∧ f.2 ∈ seen) ∧
            rest.NothingNewPassed info seen done
        else
          sub.NothingNewPassed info seen done ∧
            rest.NothingNewPassed info ((sub.files info).map Prod.snd ++ seen)
              (inode :: sub.left info done)
      | _ => rest.NothingNewPassed info seen done

/-- With a sort list there are no outputs of processes; without one nothing new is passed over. -/
def SourceTree.InStep (t : SourceTree ε) : Option (ℕ → List SortInfo) → Prop
  | none => t.root.NothingNewPassed t.info [] []
  | some _ => ∀ f ∈ t.root.files t.info, (t.info f.2).isPseudoProcess = false

/-! ## Without a sort list -/

variable {info : ℕ → InodeInfo} {read written seen done : List ℕ}

theorem isPseudoProcess_eq_false {i : InodeInfo} (h : i.buf.format ≠ .reg) :
    i.isPseudoProcess = false := by
  by_contra hne
  rw [Bool.not_eq_false] at hne
  exact h (i.reg_of_process (beq_iff_eq.mp hne)).1

theorem mem_ents_of_mem_dirScan3 {t : Entries ε} {e : ε × ℕ} (h : e ∈ dirScan3 info t written) :
    e.1 ∈ t.ents := by
  induction t generalizing written with
  | nil => cases h
  | cons ent inode sub rest ihSub ihRest =>
      rw [Entries.ents, List.mem_cons, List.mem_append]
      rw [dirScan3] at h
      split at h
      · exact Or.inr (Or.inr (ihRest h))
      · split at h
        · rcases List.mem_append.mp h with h | h
          · exact Or.inr (Or.inl (ihSub h))
          · rcases List.mem_cons.mp h with rfl | h
            · exact Or.inl rfl
            · exact Or.inr (Or.inr (ihRest h))
        · rcases List.mem_cons.mp h with rfl | h
          · exact Or.inl rfl
          · exact Or.inr (Or.inr (ihRest h))

theorem mem_ents_of_mem_readerScan {t : Entries ε} {r : (ε × ℕ) × ReadRoutine}
    (h : r ∈ (readerScan info t read).1) : r.1.1 ∈ t.ents := by
  induction t generalizing read with
  | nil => cases h
  | cons ent inode sub rest ihSub ihRest =>
      rw [Entries.ents, List.mem_cons, List.mem_append]
      rw [readerScan] at h
      rcases List.mem_append.mp h with h | h
      · split at h
        · cases h
        · split at h
          · rw [List.mem_singleton] at h
            exact Or.inl (h ▸ rfl)
          · split at h
            · rw [readerReadFileEntry] at h
              split at h
              · cases h
              · rw [List.mem_singleton] at h
                exact Or.inl (h ▸ rfl)
            · exact Or.inr (Or.inl (ihSub h))
            · cases h
      · exact Or.inr (Or.inr (ihRest h))

/-- `reader_scan` reads each file by the routine for it. -/
theorem routine_of_mem_readerScan {t : Entries ε} {r : (ε × ℕ) × ReadRoutine}
    (h : r ∈ (readerScan info t read).1) : r.2 = (info r.1.2).routine := by
  induction t generalizing read with
  | nil => cases h
  | cons ent inode sub rest ihSub ihRest =>
      rw [readerScan] at h
      rcases List.mem_append.mp h with h | h
      · split at h
        · cases h
        · split at h
          · rename_i hprocess
            rw [List.mem_singleton] at h
            subst h
            exact (if_pos hprocess).symm
          · rename_i hprocess
            split at h
            · rw [readerReadFileEntry] at h
              split at h
              · cases h
              · rw [List.mem_singleton] at h
                subst h
                exact (if_neg hprocess).symm
            · exact ihSub h
            · cases h
      · exact ihRest h

/-- When the reader queues nothing. -/
theorem readerScan_eq_nil_iff (t : Entries ε) :
    ((readerScan info t read).1 = [] ↔
      ∀ f ∈ t.files info, (info f.2).isPseudoProcess = false ∧ f.2 ∈ read) ∧
      ((readerScan info t read).1 = [] → (readerScan info t read).2 = read) := by
  induction t with
  | nil => simp [readerScan, Entries.files]
  | cons ent inode sub rest ihSub ihRest =>
      rw [readerScan, Entries.files]
      dsimp only
      by_cases hroot : (info inode).rootEntry = true
      · rw [if_pos hroot, if_pos hroot]
        exact ihRest
      rw [if_neg hroot, if_neg hroot]
      by_cases hprocess : (info inode).isPseudoProcess = true
      · rw [if_pos hprocess, ((info inode).reg_of_process (beq_iff_eq.mp hprocess)).1]
        simp [hprocess]
      rw [if_neg hprocess]
      rw [Bool.not_eq_true] at hprocess
      cases hformat : (info inode).buf.format with
      | reg =>
          dsimp only
          rw [readerReadFileEntry]
          by_cases hread : inode ∈ read
          · rw [if_pos hread]
            simpa [hprocess, hread] using ihRest
          · rw [if_neg hread]
            simp [hread]
      | dir =>
          dsimp only
          rw [List.append_eq_nil_iff, List.forall_mem_append, ihSub.1]
          constructor
          · constructor
            · rintro ⟨hsub, hrest⟩
              rw [ihSub.2 (ihSub.1.mpr hsub)] at hrest
              exact ⟨hsub, ihRest.1.mp hrest⟩
            · rintro ⟨hsub, hrest⟩
              rw [ihSub.2 (ihSub.1.mpr hsub)]
              exact ⟨hsub, ihRest.1.mpr hrest⟩
          · rintro ⟨hsub, hrest⟩
            rw [ihSub.2 (ihSub.1.mpr hsub)] at hrest ⊢
            exact ihRest.2 hrest
      | lnk => exact ihRest
      | chr => exact ihRest
      | blk => exact ihRest
      | fifo => exact ihRest
      | sock => exact ihRest

/-- The two threads at the same place: both have had the files of `seen`, and the main thread has left
the directories of `done`. -/
structure SamePlace (info : ℕ → InodeInfo) (read written seen done : List ℕ) : Prop where
  dirs : DirsDone info written done
  read : ∀ i, (info i).buf.format = .reg → (info i).isPseudoProcess = false → (i ∈ read ↔ i ∈ seen)
  written : ∀ i, (info i).buf.format = .reg → (i ∈ written ↔ i ∈ seen)

/-- Parts of lists with different elements. -/
theorem append_eq_append_iff_of_apart {α : Type*} {as bs as' bs' : List α} {p : α → Prop}
    (has : ∀ a ∈ as, p a) (has' : ∀ a ∈ as', p a) (hbs : ∀ b ∈ bs, ¬ p b) (hbs' : ∀ b ∈ bs', ¬ p b) :
    as ++ bs = as' ++ bs' ↔ as = as' ∧ bs = bs' := by
  classical
  have hpart : ∀ {xs ys : List α}, (∀ a ∈ xs, p a) → (∀ b ∈ ys, ¬ p b) →
      (xs ++ ys).filter (fun a => decide (p a)) = xs := by
    intro xs ys hxs hys
    have hfull : xs.filter (fun a => decide (p a)) = xs := by
      rw [List.filter_eq_self]
      exact fun a ha => decide_eq_true (hxs a ha)
    have hnil : ys.filter (fun a => decide (p a)) = [] := by
      rw [List.filter_eq_nil_iff]
      intro b hb hpb
      exact hys b hb (of_decide_eq_true hpb)
    rw [List.filter_append, hfull, hnil, List.append_nil]
  constructor
  · intro h
    have hfilter := congrArg (List.filter fun a => decide (p a)) h
    rw [hpart has hbs, hpart has' hbs'] at hfilter
    subst hfilter
    exact ⟨rfl, List.append_cancel_left h⟩
  · rintro ⟨rfl, rfl⟩
    rfl

theorem regularFiles_append (as bs : List (ε × ℕ)) :
    regularFiles info (as ++ bs) = regularFiles info as ++ regularFiles info bs :=
  List.filter_append ..

theorem regularFiles_cons_of_ne {e : ε × ℕ} (h : (info e.2).buf.format ≠ .reg) (es : List (ε × ℕ)) :
    regularFiles info (e :: es) = regularFiles info es :=
  List.filter_cons_of_neg (by simpa using h)

theorem regularFiles_cons_of_eq {e : ε × ℕ} (h : (info e.2).buf.format = .reg) (es : List (ε × ℕ)) :
    regularFiles info (e :: es) = e :: regularFiles info es :=
  List.filter_cons_of_pos (by simpa using h)

theorem mem_ents_of_mem_regularFiles {t : Entries ε} {e : ε × ℕ}
    (h : e ∈ regularFiles info (dirScan3 info t written)) : e.1 ∈ t.ents :=
  mem_ents_of_mem_dirScan3 (List.mem_filter.mp h).1

/-- Both go on with the same file, or both have had it. -/
theorem SamePlace.file (h : SamePlace info read written seen done) {inode : ℕ}
    (hreg : (info inode).buf.format = .reg) (hplain : (info inode).isPseudoProcess = false) (ent : ε) :
    SamePlace info (readerReadFileEntry (ent, inode) read).2
      (if inode ∈ written then written else inode :: written) (inode :: seen) done := by
  rw [readerReadFileEntry]
  by_cases hseen : inode ∈ seen
  · rw [if_pos ((h.read _ hreg hplain).mpr hseen), if_pos ((h.written _ hreg).mpr hseen)]
    refine ⟨h.dirs, fun i hi hi' => ?_, fun i hi => ?_⟩
    · rw [h.read i hi hi', List.mem_cons, or_iff_right_of_imp]
      rintro rfl
      exact hseen
    · rw [h.written i hi, List.mem_cons, or_iff_right_of_imp]
      rintro rfl
      exact hseen
  · rw [if_neg (mt (h.read _ hreg hplain).mp hseen), if_neg (mt (h.written _ hreg).mp hseen)]
    refine ⟨h.dirs.cons_other (by rw [hreg]; decide), fun i hi hi' => ?_, fun i hi => ?_⟩
    · rw [List.mem_cons, List.mem_cons, h.read i hi hi']
    · rw [List.mem_cons, List.mem_cons, h.written i hi]

/-- The output of a process is only written by the main thread. -/
theorem SamePlace.process (h : SamePlace info read written seen done) {inode : ℕ}
    (hreg : (info inode).buf.format = .reg) (hprocess : (info inode).isPseudoProcess = true) :
    SamePlace info read (inode :: written) (inode :: seen) done := by
  refine ⟨h.dirs.cons_other (by rw [hreg]; decide), fun i hi hi' => ?_, fun i hi => ?_⟩
  · rw [h.read i hi hi', List.mem_cons, or_iff_right_of_imp]
    rintro rfl
    rw [hprocess] at hi'
    cases hi'
  · rw [List.mem_cons, List.mem_cons, h.written i hi]

/-- Other inodes are of no account. -/
theorem SamePlace.other (h : SamePlace info read written seen done) {inode : ℕ}
    (hreg : (info inode).buf.format ≠ .reg) (hdir : (info inode).buf.format ≠ .dir) :
    SamePlace info read (inode :: written) seen done := by
  refine ⟨h.dirs.cons_other hdir, h.read, fun i hi => ?_⟩
  rw [List.mem_cons, ← h.written i hi, or_iff_right_of_imp]
  rintro rfl
  exact absurd hi hreg

/-- A directory is left. -/
theorem SamePlace.leave (h : SamePlace info read written seen done) {inode : ℕ}
    (hdir : (info inode).buf.format = .dir) :
    SamePlace info read (inode :: written) seen (inode :: done) := by
  refine ⟨h.dirs.cons inode, h.read, fun i hi => ?_⟩
  rw [List.mem_cons, ← h.written i hi, or_iff_right_of_imp]
  rintro rfl
  rw [hi] at hdir
  cases hdir

theorem SamePlace.congr {written' seen' : List ℕ} (h : SamePlace info read written seen done)
    (hwritten : ∀ i, i ∈ written' ↔ i ∈ written) (hseen : ∀ i, i ∈ seen' ↔ i ∈ seen) :
    SamePlace info read written' seen' done := by
  refine ⟨fun i hi => ?_, fun i hi hi' => ?_, fun i hi => ?_⟩
  · rw [hwritten, h.dirs i hi]
  · rw [hseen, h.read i hi hi']
  · rw [hwritten, hseen, h.written i hi]

/-! What is neither a regular file nor a directory is of no account to the reader. -/

section

variable {ent : ε} {inode : ℕ} {sub rest : Entries ε} (hreg : (info inode).buf.format ≠ .reg)
  (hdir : (info inode).buf.format ≠ .dir)

include hreg hdir

theorem readerScan_cons_other :
    readerScan info (.cons ent inode sub rest) read = readerScan info rest read := by
  rw [readerScan, isPseudoProcess_eq_false hreg]
  cases hformat : (info inode).buf.format with
  | reg => exact absurd hformat hreg
  | dir => exact absurd hformat hdir
  | _ => cases (info inode).rootEntry <;> rfl

theorem files_cons_other :
    (Entries.cons ent inode sub rest).files info = rest.files info := by
  rw [Entries.files]
  cases hformat : (info inode).buf.format with
  | reg => exact absurd hformat hreg
  | dir => exact absurd hformat hdir
  | _ => cases (info inode).rootEntry <;> rfl

theorem nothingNewPassed_cons_other :
    (Entries.cons ent inode sub rest).NothingNewPassed info seen done ↔
      rest.NothingNewPassed info seen done := by
  rw [Entries.NothingNewPassed]
  cases hformat : (info inode).buf.format with
  | reg => exact absurd hformat hreg
  | dir => exact absurd hformat hdir
  | _ => cases (info inode).rootEntry <;> exact Iff.rfl

end

theorem readerScan_cons_dir {ent : ε} {inode : ℕ} {sub rest : Entries ε}
    (hroot : ¬ (info inode).rootEntry = true) (hdir : (info inode).buf.format = .dir) :
    readerScan info (.cons ent inode sub rest) read =
      ((readerScan info sub read).1 ++ (readerScan info rest (readerScan info sub read).2).1,
        (readerScan info rest (readerScan info sub read).2).2) := by
  have hreg : (info inode).buf.format ≠ .reg := by
    rw [hdir]
    decide
  rw [readerScan, if_neg hroot, isPseudoProcess_eq_false hreg, hdir]
  rfl

theorem format_of_mem_files {t : Entries ε} {f : ε × ℕ} (h : f ∈ t.files info) :
    (info f.2).buf.format = .reg := by
  induction t with
  | nil => cases h
  | cons ent inode sub rest ihSub ihRest =>
      rw [Entries.files, List.mem_append] at h
      rcases h with h | h
      · split at h
        · cases h
        · split at h
          · rename_i hformat
            rw [List.mem_singleton] at h
            exact h ▸ hformat
          · exact ihSub h
          · cases h
      · exact ihRest h

/-- In a directory that is passed over there is nothing new. -/
theorem SamePlace.passed (h : SamePlace info read written seen done) (t : Entries ε) :
    ((readerScan info t read).1 = [] ↔
      ∀ f ∈ t.files info, (info f.2).isPseudoProcess = false ∧ f.2 ∈ seen) := by
  rw [(readerScan_eq_nil_iff t).1]
  constructor
  · intro hall f hf
    obtain ⟨hplain, hread⟩ := hall f hf
    exact ⟨hplain, (h.read _ (format_of_mem_files hf) hplain).mp hread⟩
  · intro hall f hf
    obtain ⟨hplain, hseen⟩ := hall f hf
    exact ⟨hplain, (h.read _ (format_of_mem_files hf) hplain).mpr hseen⟩

/-- What is to be shown of the two walks over some entries: wherever both begin, they have the same files
exactly when nothing new is passed over, and are then at the same place again. -/
def InStepOver (info : ℕ → InodeInfo) (t : Entries ε) : Prop :=
  ∀ read written seen done, SamePlace info read written seen done →
    ((readerScan info t read).1.map Prod.fst = regularFiles info (dirScan3 info t written) ↔
      t.NothingNewPassed info seen done) ∧
    (t.NothingNewPassed info seen done →
      SamePlace info (readerScan info t read).2 ((dirScan3 info t written).map Prod.snd ++ written)
        ((t.files info).map Prod.snd ++ seen) (t.left info done))

section

variable {ent : ε} {inode : ℕ} {sub rest : Entries ε} (hroot : ¬ (info inode).rootEntry = true)

include hroot

/-- A directory: what is in it is told apart from what is behind it. -/
theorem InStepOver.dir (hdir : (info inode).buf.format = .dir)
    (hapart : ∀ a ∈ sub.ents, ∀ b ∈ rest.ents, a ≠ b) (hsub : InStepOver info sub)
    (hrest : InStepOver info rest) : InStepOver info (.cons ent inode sub rest) := by
  intro read written seen done h
  have hreadSub : ∀ e ∈ (readerScan info sub read).1.map Prod.fst, e.1 ∈ sub.ents := by
    intro e he
    obtain ⟨r, hr, rfl⟩ := List.mem_map.mp he
    exact mem_ents_of_mem_readerScan hr
  have hreadRest : ∀ read', ∀ e ∈ (readerScan info rest read').1.map Prod.fst, e.1 ∉ sub.ents := by
    intro read' e he hmem
    obtain ⟨r, hr, rfl⟩ := List.mem_map.mp he
    exact hapart _ hmem _ (mem_ents_of_mem_readerScan hr) rfl
  have hwriteRest : ∀ written', ∀ e ∈ regularFiles info (dirScan3 info rest written'),
      e.1 ∉ sub.ents :=
    fun written' e he hmem => hapart _ hmem _ (mem_ents_of_mem_regularFiles he) rfl
  rw [readerScan_cons_dir hroot hdir, Entries.files, if_neg hroot, Entries.NothingNewPassed,
    if_neg hroot, hdir]
  dsimp only
  rw [List.map_append]
  by_cases hdone : inode ∈ done
  · -- the main thread passes the directory over, and the reader has to find nothing in it
    rw [dirScan3, if_pos (Or.inr ((h.dirs inode hdir).mpr hdone)), if_pos hdone, Entries.left,
      if_pos (Or.inr (Or.inr hdone)), ← h.passed sub]
    have hsplit := @append_eq_append_iff_of_apart _ _ _ [] _ _ hreadSub (by simp)
      (hreadRest (readerScan info sub read).2) (hwriteRest written)
    rw [List.nil_append, List.map_eq_nil_iff] at hsplit
    rw [hsplit]
    have hnext := hrest _ _ _ _ h
    constructor
    · constructor
      · rintro ⟨hnil, heq⟩
        rw [(readerScan_eq_nil_iff sub).2 hnil] at heq
        exact ⟨hnil, hnext.1.mp heq⟩
      · rintro ⟨hnil, hpassed⟩
        rw [(readerScan_eq_nil_iff sub).2 hnil]
        exact ⟨hnil, hnext.1.mpr hpassed⟩
    · rintro ⟨hnil, hpassed⟩
      rw [(readerScan_eq_nil_iff sub).2 hnil]
      refine (hnext.2 hpassed).congr (fun _ => Iff.rfl) fun i => ?_
      rw [List.map_append, List.mem_append, List.mem_append, List.mem_append, or_assoc,
        or_iff_right_of_imp]
      intro hi
      obtain ⟨f, hf, rfl⟩ := List.mem_map.mp hi
      exact Or.inr ((h.passed sub).mp hnil f hf).2
  · have hw : inode ∉ written := fun hw => hdone ((h.dirs inode hdir).mp hw)
    have hne : (info inode).buf.format ≠ .reg := by
      rw [hdir]
      decide
    have hcond : ¬ ((info inode).rootEntry = true ∨
        (info inode).buf.format ≠ .dir ∨ inode ∈ done) := by tauto
    rw [dirScan3, if_neg (not_or.mpr ⟨hroot, hw⟩), if_pos hdir, if_neg hdone, Entries.left,
      if_neg hcond]
    dsimp only
    rw [regularFiles_append, regularFiles_cons_of_ne hne]
    rw [append_eq_append_iff_of_apart hreadSub (fun e he => mem_ents_of_mem_regularFiles he)
      (hreadRest _) (hwriteRest _), (hsub _ _ _ _ h).1]
    constructor
    · refine and_congr_right fun hpassed => ?_
      exact (hrest _ _ _ _ (((hsub _ _ _ _ h).2 hpassed).leave hdir)).1
    · rintro ⟨hpassed, hpassed'⟩
      refine ((hrest _ _ _ _ (((hsub _ _ _ _ h).2 hpassed).leave hdir)).2 hpassed').congr
        (fun i => ?_) fun i => ?_
      · simp only [List.map_append, List.map_cons, List.mem_append, List.mem_cons]
        tauto
      · simp only [List.map_append, List.mem_append]
        tauto

/-- The output of a process: the reader queues it under each of its names. -/
theorem InStepOver.process (hreg : (info inode).buf.format = .reg)
    (hprocess : (info inode).isPseudoProcess = true) (hent : ent ∉ rest.ents)
    (hrest : InStepOver info rest) : InStepOver info (.cons ent inode sub rest) := by
  intro read written seen done h
  have hdir : (info inode).buf.format ≠ .dir := by
    rw [hreg]
    decide
  have hleft : (Entries.cons ent inode sub rest).left info done = rest.left info done := by
    rw [Entries.left, if_pos (Or.inr (Or.inl hdir))]
  rw [hleft, readerScan, if_neg hroot, if_pos hprocess, Entries.files, if_neg hroot,
    Entries.NothingNewPassed, if_neg hroot, dirScan3, if_neg hdir, hreg, hprocess]
  dsimp only
  by_cases hseen : inode ∈ seen
  · -- the main thread has written it, and does not write it under this name
    rw [if_pos (Or.inr ((h.written inode hreg).mpr hseen))]
    refine ⟨iff_of_false (fun heq => ?_) fun hpassed => hpassed.1 rfl hseen, fun hpassed =>
      absurd hseen (hpassed.1 rfl)⟩
    have hmem : (ent, inode) ∈ regularFiles info (dirScan3 info rest written) := by
      rw [← heq]
      exact List.mem_cons_self
    exact hent (mem_ents_of_mem_regularFiles hmem)
  · have hnext := hrest _ _ _ _ (h.process hreg hprocess)
    have hw := mt (h.written inode hreg).mp hseen
    rw [if_neg (not_or.mpr ⟨hroot, hw⟩), regularFiles_cons_of_eq hreg]
    constructor
    · rw [← hnext.1]
      simp [hseen]
    · rintro ⟨-, hpassed⟩
      refine (hnext.2 hpassed).congr (fun i => ?_) fun i => ?_
      · simp only [List.map_cons, List.mem_append, List.mem_cons]
        tauto
      · simp only [List.map_append, List.map_cons, List.map_nil, List.mem_append, List.mem_cons,
          List.not_mem_nil]
        tauto

/-- Any other regular file: both have had it, or none has. -/
theorem InStepOver.file (hreg : (info inode).buf.format = .reg)
    (hplain : (info inode).isPseudoProcess = false) (hrest : InStepOver info rest) :
    InStepOver info (.cons ent inode sub rest) := by
  intro read written seen done h
  have hdir : (info inode).buf.format ≠ .dir := by
    rw [hreg]
    decide
  have hleft : (Entries.cons ent inode sub rest).left info done = rest.left info done := by
    rw [Entries.left, if_pos (Or.inr (Or.inl hdir))]
  have hnext := hrest _ _ _ _ (h.file hreg hplain ent)
  have hseen : inode ∈ read ↔ inode ∈ written :=
    (h.read _ hreg hplain).trans (h.written _ hreg).symm
  rw [hleft, readerScan, if_neg hroot, hplain, if_neg Bool.false_ne_true, Entries.files,
    if_neg hroot, Entries.NothingNewPassed, if_neg hroot, dirScan3, if_neg hdir, hreg, hplain]
  dsimp only
  have hfiles : ∀ i, i ∈ ([(ent, inode)] ++ rest.files info).map Prod.snd ++ seen ↔
      i ∈ (rest.files info).map Prod.snd ++ inode :: seen := by
    intro i
    simp only [List.map_append, List.map_cons, List.map_nil, List.mem_append, List.mem_cons,
      List.not_mem_nil]
    tauto
  by_cases hw : inode ∈ written
  · rw [if_pos hw] at hnext
    rw [if_pos (Or.inr hw)]
    rw [readerReadFileEntry, if_pos (hseen.mpr hw)] at hnext ⊢
    refine ⟨?_, fun hpassed => (hnext.2 hpassed.2).congr (fun _ => Iff.rfl) hfiles⟩
    rw [List.nil_append, hnext.1]
    simp
  · rw [if_neg hw] at hnext
    rw [if_neg (not_or.mpr ⟨hroot, hw⟩), regularFiles_cons_of_eq hreg]
    rw [readerReadFileEntry, if_neg (mt hseen.mp hw)] at hnext ⊢
    refine ⟨?_, fun hpassed => (hnext.2 hpassed.2).congr (fun i => ?_) hfiles⟩
    · rw [← hnext.1]
      simp
    · simp only [List.map_cons, List.mem_append, List.mem_cons]
      tauto

/-- Anything else. -/
theorem InStepOver.other (hreg : (info inode).buf.format ≠ .reg)
    (hdir : (info inode).buf.format ≠ .dir) (hrest : InStepOver info rest) :
    InStepOver info (.cons ent inode sub rest) := by
  intro read written seen done h
  have hleft : (Entries.cons ent inode sub rest).left info done = rest.left info done := by
    rw [Entries.left, if_pos (Or.inr (Or.inl hdir))]
  rw [hleft, readerScan_cons_other hreg hdir, files_cons_other hreg hdir,
    nothingNewPassed_cons_other hreg hdir, dirScan3]
  by_cases hw : inode ∈ written
  · rw [if_pos (Or.inr hw)]
    exact hrest _ _ _ _ h
  · have hnext := hrest _ _ _ _ (h.other hreg hdir)
    rw [if_neg (not_or.mpr ⟨hroot, hw⟩), if_neg hdir, regularFiles_cons_of_ne hreg]
    refine ⟨hnext.1, fun hpassed => (hnext.2 hpassed).congr (fun i => ?_) fun i => Iff.rfl⟩
    simp only [List.map_cons, List.mem_append, List.mem_cons]
    tauto

end

/-- **The two walks**, over any entries that are told apart. -/
theorem inStepOver (t : Entries ε) (hnodup : t.ents.Nodup) : InStepOver info t := by
  induction t with
  | nil =>
      intro read written seen done h
      exact ⟨by simp [readerScan, dirScan3, regularFiles, Entries.NothingNewPassed], fun _ => h⟩
  | cons ent inode sub rest ihSub ihRest =>
      rw [Entries.ents, List.nodup_cons, List.mem_append, not_or, List.nodup_append] at hnodup
      obtain ⟨⟨-, hent⟩, hsub, hrest, hapart⟩ := hnodup
      by_cases hroot : (info inode).rootEntry = true
      · intro read written seen done h
        rw [readerScan, dirScan3, Entries.files, Entries.NothingNewPassed, Entries.left, if_pos hroot,
          if_pos (Or.inl hroot), if_pos hroot, if_pos hroot, if_pos (Or.inl hroot)]
        exact ihRest hrest _ _ _ _ h
      by_cases hdir : (info inode).buf.format = .dir
      · exact .dir hroot hdir hapart (ihSub hsub) (ihRest hrest)
      by_cases hreg : (info inode).buf.format = .reg
      · cases hprocess : (info inode).isPseudoProcess with
        | true => exact .process hroot hreg hprocess hent (ihRest hrest)
        | false => exact .file hroot hreg hprocess (ihRest hrest)
      · exact .other hroot hreg hdir (ihRest hrest)

/-! ## With a sort list -/

variable {sortInfoList : ℕ → List SortInfo}

theorem getPriority_range (sortInfoList : ℕ → List SortInfo) (buf : FileStat) {priority : ℤ}
    (h : -32768 ≤ priority ∧ priority ≤ 32767) :
    -32768 ≤ getPriority sortInfoList buf priority ∧ getPriority sortInfoList buf priority ≤ 32767 := by
  unfold getPriority
  split
  · exact SortInfo.range _
  · exact h

variable (info sortInfoList) in
/-- The calls of `add_priority_list` are for the regular files, and in range. -/
theorem generateFilePriorities_spec (t : Entries ε) {priority : ℤ}
    (h : -32768 ≤ priority ∧ priority ≤ 32767) :
    (generateFilePriorities info sortInfoList t priority).map Prod.fst = t.files info ∧
      ∀ c ∈ generateFilePriorities info sortInfoList t priority, -32768 ≤ c.2 ∧ c.2 ≤ 32767 := by
  induction t generalizing priority with
  | nil => exact ⟨rfl, by simp [generateFilePriorities]⟩
  | cons ent inode sub rest ihSub ihRest =>
      rw [generateFilePriorities, Entries.files, List.map_append, (ihRest h).1,
        List.forall_mem_append]
      have hbuf := getPriority_range sortInfoList (info inode).buf h
      by_cases hroot : (info inode).rootEntry = true
      · rw [if_pos hroot, if_pos hroot]
        exact ⟨rfl, by simp, (ihRest h).2⟩
      · rw [if_neg hroot, if_neg hroot]
        cases (info inode).buf.format with
        | reg => exact ⟨rfl, by simpa using hbuf, (ihRest h).2⟩
        | dir => exact ⟨by rw [(ihSub hbuf).1], (ihSub hbuf).2, (ihRest h).2⟩
        | _ => exact ⟨rfl, by simp, (ihRest h).2⟩

variable (info sortInfoList) in
/-- The priority list has the regular files. -/
theorem mem_priorityList (rootBuf : FileStat) (root : Entries ε) (e : ε × ℕ) :
    e ∈ priorityList info sortInfoList rootBuf root ↔ e ∈ root.files info := by
  have hroot : -32768 ≤ getPriority sortInfoList rootBuf 0 ∧
      getPriority sortInfoList rootBuf 0 ≤ 32767 :=
    getPriority_range sortInfoList rootBuf (by decide)
  obtain ⟨hfiles, hrange⟩ :=
    generateFilePriorities_spec info sortInfoList root hroot
  rw [← hfiles, priorityList, priorityOrder, List.mem_flatMap, List.mem_map]
  constructor
  · rintro ⟨i, -, he⟩
    obtain ⟨c, hc, rfl⟩ := List.mem_map.mp (List.mem_reverse.mp he)
    exact ⟨c, (List.mem_filter.mp hc).1, rfl⟩
  · rintro ⟨c, hc, rfl⟩
    obtain ⟨hlow, hhigh⟩ := hrange c hc
    refine ⟨(c.2 + 32768).toNat, ?_, List.mem_reverse.mpr (List.mem_map_of_mem ?_)⟩
    · rw [List.mem_reverse, List.mem_range]
      omega
    · rw [List.mem_filter, decide_eq_true_eq]
      exact ⟨hc, by omega⟩

/-- **Over one list both do the same.** -/
theorem map_readPriorities (entries : List (ε × ℕ)) (flags : List ℕ) :
    (readPriorities entries flags).map Prod.fst = sortFilesAndWrite entries flags := by
  induction entries generalizing flags with
  | nil => rfl
  | cons e entries ih =>
      rw [readPriorities, readerReadFileEntry, sortFilesAndWrite]
      by_cases hflag : e.2 ∈ flags
      · rw [if_pos hflag, if_pos hflag]
        exact ih flags
      · rw [if_neg hflag, if_neg hflag, List.map_append, ih]
        rfl

/-- Of every file in the list there is an inode in the end. -/
theorem mem_sortFilesAndWrite {entries : List (ε × ℕ)} (flags : List ℕ) {e : ε × ℕ}
    (h : e ∈ entries) : e.2 ∈ (sortFilesAndWrite entries flags).map Prod.snd ++ flags := by
  induction entries generalizing flags with
  | nil => cases h
  | cons x entries ih =>
      rw [sortFilesAndWrite]
      by_cases hflag : x.2 ∈ flags
      · rw [if_pos hflag]
        rcases List.mem_cons.mp h with rfl | h
        · exact List.mem_append_right _ hflag
        · exact ih flags h
      · rw [if_neg hflag, List.map_cons, List.cons_append, List.mem_cons]
        rcases List.mem_cons.mp h with rfl | h
        · exact Or.inl rfl
        · have hlater := ih (x.2 :: flags) h
          simp only [List.mem_append, List.mem_cons] at hlater ⊢
          tauto

theorem mem_of_mem_sortFilesAndWrite {entries : List (ε × ℕ)} {flags : List ℕ} {e : ε × ℕ}
    (h : e ∈ sortFilesAndWrite entries flags) : e ∈ entries := by
  induction entries generalizing flags with
  | nil => cases h
  | cons x entries ih =>
      rw [sortFilesAndWrite] at h
      split at h
      · exact List.mem_cons_of_mem _ (ih h)
      · rcases List.mem_cons.mp h with rfl | h
        · exact List.mem_cons_self
        · exact List.mem_cons_of_mem _ (ih h)

theorem nodup_sortFilesAndWrite {ε : Type*} (entries : List (ε × ℕ)) (flags : List ℕ) :
    ((sortFilesAndWrite entries flags).map Prod.snd).Nodup ∧
      ∀ i ∈ (sortFilesAndWrite entries flags).map Prod.snd, i ∉ flags := by
  induction entries generalizing flags with
  | nil => exact ⟨List.nodup_nil, by simp [sortFilesAndWrite]⟩
  | cons e entries ih =>
      rw [sortFilesAndWrite]
      split
      · exact ih flags
      · rename_i hflag
        obtain ⟨hnodup, hnew⟩ := ih (e.2 :: flags)
        rw [List.map_cons, List.nodup_cons, List.forall_mem_cons]
        exact ⟨⟨fun hmem => hnew _ hmem List.mem_cons_self, hnodup⟩, hflag,
          fun i hi hi' => hnew i hi (List.mem_cons_of_mem _ hi')⟩

theorem routine_of_mem_readPriorities {entries : List (ε × ℕ)} {flags : List ℕ}
    {r : (ε × ℕ) × ReadRoutine} (h : r ∈ readPriorities entries flags) : r.2 = .readFile := by
  induction entries generalizing flags with
  | nil => cases h
  | cons x entries ih =>
      rw [readPriorities, List.mem_append] at h
      rcases h with h | h
      · rw [readerReadFileEntry] at h
        split at h
        · cases h
        · rw [List.mem_singleton] at h
          exact h ▸ rfl
      · exact ih h

/-- `dir_scan3` writes regular files of the tree only, and only such that are not written. -/
theorem mem_files_of_mem_dirScan3 {t : Entries ε} {e : ε × ℕ} (h : e ∈ dirScan3 info t written)
    (hreg : (info e.2).buf.format = .reg) : e ∈ t.files info := by
  induction t generalizing written with
  | nil => cases h
  | cons ent inode sub rest ihSub ihRest =>
      rw [dirScan3] at h
      rw [Entries.files, List.mem_append]
      by_cases hroot : (info inode).rootEntry = true
      · rw [if_pos (Or.inl hroot)] at h
        exact Or.inr (ihRest h)
      by_cases hw : inode ∈ written
      · rw [if_pos (Or.inr hw)] at h
        exact Or.inr (ihRest h)
      rw [if_neg (not_or.mpr ⟨hroot, hw⟩)] at h
      rw [if_neg hroot]
      by_cases hdir : (info inode).buf.format = .dir
      · rw [if_pos hdir] at h
        rw [hdir]
        rcases List.mem_append.mp h with h | h
        · exact Or.inl (ihSub h)
        · rcases List.mem_cons.mp h with rfl | h
          · rw [hdir] at hreg
            cases hreg
          · exact Or.inr (ihRest h)
      · rw [if_neg hdir] at h
        rcases List.mem_cons.mp h with rfl | h
        · rw [hreg]
          exact Or.inl List.mem_cons_self
        · exact Or.inr (ihRest h)

/-- After `sort_files_and_write` no file is left for `dir_scan3`. -/
theorem regularFiles_dirScan3_sorted (t : SourceTree ε) :
    regularFiles t.info (dirScan3 t.info t.root
      ((sortFilesAndWrite (t.order sortInfoList) []).map Prod.snd)) = [] := by
  rw [regularFiles, List.filter_eq_nil_iff]
  intro e he hreg
  have hfile := mem_files_of_mem_dirScan3 he (of_decide_eq_true hreg)
  have hsorted := mem_sortFilesAndWrite []
    ((mem_priorityList t.info sortInfoList t.rootBuf t.root e).mpr hfile)
  rw [List.append_nil] at hsorted
  exact notMem_of_mem_dirScan3 t.info t.root _ e.2 (List.mem_map_of_mem he) hsorted

/-- With a sort list an output of a process is read as a file. -/
theorem plain_of_routine {t : SourceTree ε}
    (h : ∀ r ∈ t.reads (some sortInfoList), r.2 = (t.info r.1.2).routine) {f : ε × ℕ}
    (hf : f ∈ t.root.files t.info) : (t.info f.2).isPseudoProcess = false := by
  -- the inode of the file is read under some name
  have hsorted := mem_sortFilesAndWrite []
    ((mem_priorityList t.info sortInfoList t.rootBuf t.root f).mpr hf)
  rw [List.append_nil, ← map_readPriorities, List.map_map] at hsorted
  obtain ⟨r, hr, heq⟩ := List.mem_map.mp hsorted
  have hfile := h r hr
  rw [routine_of_mem_readPriorities hr] at hfile
  by_contra hprocess
  rw [Bool.not_eq_false, ← heq] at hprocess
  have hread : (t.info r.1.2).routine = .readProcess := if_pos hprocess
  rw [hread] at hfile
  cases hfile

/-! ## Both threads -/

/-- **Reader and main thread agree** on the files and their order, and each file is read by the routine
for it, exactly when the tree is in step: for every tree, with any sort list or none. -/
theorem fileOrder_iff (t : SourceTree ε) (sort : Option (ℕ → List SortInfo)) :
    FileOrder t sort ↔ t.InStep sort := by
  cases sort with
  | none =>
      have hstart : SamePlace t.info [] [] [] [] :=
        ⟨fun _ _ => Iff.rfl, fun _ _ _ => Iff.rfl, fun _ _ => Iff.rfl⟩
      have hwalks := (inStepOver t.root t.nodup _ _ _ _ hstart).1
      rw [SourceTree.InStep, ← hwalks]
      constructor
      · exact And.left
      · intro heq
        exact ⟨heq, fun r hr => routine_of_mem_readerScan hr⟩
  | some sortInfoList =>
      rw [SourceTree.InStep]
      constructor
      · rintro ⟨-, hroutine⟩ f hf
        exact plain_of_routine hroutine hf
      · intro hplain
        refine ⟨?_, fun r hr => ?_⟩
        · rw [SourceTree.reads, SourceTree.writes, regularFiles_dirScan3_sorted, List.append_nil,
            map_readPriorities]
        · have hmem : r.1 ∈ sortFilesAndWrite (t.order sortInfoList) [] := by
            rw [← map_readPriorities]
            exact List.mem_map_of_mem hr
          have hfile := (mem_priorityList t.info _ t.rootBuf t.root r.1).mp (mem_of_mem_sortFilesAndWrite hmem)
          rw [routine_of_mem_readPriorities hr, InodeInfo.routine, hplain _ hfile]
          rfl

/-- Two inodes: the output of a process and a directory. -/
def processAndDir : ℕ → InodeInfo
  | 0 => { pseudoFile := .process }
  | _ => { buf := { format := .dir } }

/-- The output of a process with a sort list; and a directory that is given as a source twice, with a
process in it under its second name. -/
theorem not_fileOrder_process :
    (∃ t : SourceTree ℕ, ¬ FileOrder t (some fun _ => [])) ∧ ∃ t : SourceTree ℕ, ¬ FileOrder t none := by
  constructor
  · refine ⟨⟨processAndDir, {}, .cons 0 0 .nil .nil, by decide⟩, fun h => ?_⟩
    have hplain := plain_of_routine h.2 (f := (0, 0)) List.mem_cons_self
    cases hplain
  · refine ⟨⟨processAndDir, {}, .cons 0 1 .nil (.cons 1 1 (.cons 2 0 .nil .nil) .nil), by decide⟩, ?_⟩
    rw [FileOrder, not_and_or]
    refine Or.inl ?_
    decide

end FirmwareTools.Squashfs

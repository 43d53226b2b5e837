import FirmwareTools.Squashfs.FileOrder
import FirmwareTools.Squashfs.ListFiles

/-! # Sort files

A sort file gives priorities to files and directories. `read_sort_file` scans it for a name and a number at a
time, and keeps the number before if there is none. What `lstat` says of the name is put in front of a hash
chain, a file takes over what its directory has, and the files come to one list for each priority.

* **`sortFilesAndWrite_sorted`** — each file is written once, by the highest priority of its names;
* **`sortFile_iff`** — when the names without a number add nothing to the sort list. -/

namespace FirmwareTools.Squashfs

/-! ## Scanning -/

/-- What `fscanf(fd, "%s %d", sort_filename, &priority)` reads: a name, and what it assigns to `priority`. The
number is valid if it is on the line of the name and fits in an `int`. -/
structure SortScan where
  name : Path
  number : Option ℤ
  valid : Bool

/-- One call, and what is behind it; nothing at the end of the file. A number is read as a `long` and kept as
an `int`. -/
def scanSortLine (s : Path) : Option (SortScan × Path) :=
  match scanWord s with
  | none => none
  | some (name, s) =>
    let space := s.takeWhile isSpace
    let (negative, s) := scanSign (skipSpace s)
    match scanDigits 10 s with
    -- a sign has been read also if there is no digit
    | none => some ({ name, number := none, valid := false }, s)
    | some (n, s) =>
      let long : ℤ := if negative then max (-n) (-2 ^ 63) else min n (2 ^ 63 - 1)
      let int := Int.bmod long (2 ^ 32)
      some ({ name, number := int, valid := newline ∉ space ∧ int = if negative then -(n : ℤ) else n }, s)

/-- The calls of `fscanf` up to the end of the file, of which each reads something. -/
def sortScansN : ℕ → Path → List SortScan
  | 0, _ => []
  | n + 1, s =>
    match scanSortLine s with
    | none => []
    | some (scan, s) => scan :: sortScansN n s

/-- All of them. -/
def sortScans (s : Path) : List SortScan := sortScansN s.length s

theorem length_skipSpace_le (s : Path) : (skipSpace s).length ≤ s.length :=
  (List.dropWhile_suffix isSpace).length_le

theorem length_scanSign_le (s : Path) : (scanSign s).2.length ≤ s.length := by
  unfold scanSign
  split
  · exact Nat.le_succ _
  · exact Nat.le_succ _
  · exact le_rfl

theorem length_lt_of_scanWord {s word rest : Path} (h : scanWord s = some (word, rest)) :
    rest.length < s.length := by
  unfold scanWord at h
  dsimp only at h
  split at h
  · cases h
  · rename_i hword
    obtain ⟨-, rfl⟩ := Prod.mk.inj (Option.some.inj h)
    have hspace := length_skipSpace_le s
    have hlength := (List.takeWhile_prefix (fun c => !isSpace c) (l := skipSpace s)).length_le
    have hpos := List.length_pos_iff.mpr hword
    rw [List.length_drop]
    omega

theorem length_le_of_scanDigits {base : ℕ} {s rest : Path} {n : ℕ} (h : scanDigits base s = some (n, rest)) :
    rest.length ≤ s.length := by
  unfold scanDigits at h
  dsimp only at h
  split at h
  · cases h
  · obtain ⟨-, rfl⟩ := Prod.mk.inj (Option.some.inj h)
    exact (List.drop_suffix _ _).length_le

/-- A call that reads something leaves less. -/
theorem length_lt_of_scanSortLine {s rest : Path} {scan : SortScan} (h : scanSortLine s = some (scan, rest)) :
    rest.length < s.length := by
  unfold scanSortLine at h
  split at h
  · cases h
  · rename_i word behind hword
    have hword := length_lt_of_scanWord hword
    have hspace := length_skipSpace_le behind
    have hsign := length_scanSign_le (skipSpace behind)
    dsimp only at h
    split at h
    · obtain ⟨-, rfl⟩ := Prod.mk.inj (Option.some.inj h)
      omega
    · rename_i hdigits
      obtain ⟨-, rfl⟩ := Prod.mk.inj (Option.some.inj h)
      have hdigits := length_le_of_scanDigits hdigits
      omega

/-- Only the end of the file ends the loop. -/
theorem sortScansN_eq {n m : ℕ} {s : Path} (hn : s.length ≤ n) (hm : s.length ≤ m) :
    sortScansN n s = sortScansN m s := by
  induction n generalizing s m with
  | zero =>
      obtain rfl := List.eq_nil_of_length_eq_zero (Nat.le_zero.mp hn)
      cases m <;> rfl
  | succ n ih =>
      cases m with
      | zero =>
          obtain rfl := List.eq_nil_of_length_eq_zero (Nat.le_zero.mp hm)
          rfl
      | succ m =>
          rw [sortScansN, sortScansN]
          split
          · rfl
          · rename_i scan rest hscan
            have hlength := length_lt_of_scanSortLine hscan
            exact congrArg (scan :: ·) (ih (by omega) (by omega))

/-- One call after the other. -/
theorem sortScans_eq (s : Path) :
    sortScans s = match scanSortLine s with
      | none => []
      | some (scan, rest) => scan :: sortScans rest := by
  rw [sortScans, sortScansN_eq le_rfl (Nat.le_succ _), sortScansN]
  split
  · rfl
  · rename_i scan rest hscan
    exact congrArg (scan :: ·) (sortScansN_eq (length_lt_of_scanSortLine hscan).le le_rfl)

/-! ## The sort list -/

/-- What `lstat` says: device and inode; that there is no such file; or another error. -/
inductive Lstat
  | file (dev ino : ℕ)
  | missing
  | failed
  deriving DecidableEq

/-- The files, and the sources on the command line. -/
structure SortEnv where
  lstat : Path → Lstat
  sourcePath : List Path

/-- Device and inode of a file. -/
def Lstat.ids : Lstat → List (ℕ × ℕ)
  | .file dev ino => [(dev, ino)]
  | _ => []

/-- A name without `/*` at its end. -/
def stripStar (path : Path) : Path :=
  if path.drop (path.length - 2) = [47, 42] then path.dropLast.dropLast else path

/-- `/`, `./` or `../` -/
def isAnchored (path : Path) : Bool :=
  [47].isPrefixOf path || [46, 47].isPrefixOf path || [46, 46, 47].isPrefixOf path

/-- The loop of `add_sort_list` over the sources: the files it adds, and whether it has come to the end.
`filename` has 4096 bytes. -/
def statSources (env : SortEnv) (path : Path) : List Path → Option (List (ℕ × ℕ) × Bool)
  | [] => some ([], true)
  | source :: sources =>
    let filename := source ++ 47 :: path
    if 4096 ≤ filename.length then none
    else match env.lstat filename with
      | .failed => some ([], false)
      | .missing => statSources env path sources
      | .file dev ino => do
        let (ids, atEnd) ← statSources env path sources
        some ((dev, ino) :: ids, atEnd)

/-- What a call of `add_sort_list` does: the files it adds with `ADD_ENTRY`, its result, and `mkisofs_style`. -/
structure SortAdds where
  ids : List (ℕ × ℕ)
  ok : Bool
  style : ℤ
  deriving DecidableEq

/-- `add_sort_list` -/
def addSortList (env : SortEnv) (path : Path) (style : ℤ) : Option SortAdds :=
  let path := stripStar path
  if isAnchored path ∨ style = 1 then some { ids := (env.lstat path).ids, ok := true, style }
  else do
    let (ids, atEnd) ← statSources env path env.sourcePath
    if !atEnd then some { ids, ok := true, style }
    else if ids = [] ∧ style = -1 ∧ (env.lstat path).ids ≠ [] then
      some { ids := (env.lstat path).ids, ok := true, style := 1 }
    else some { ids, ok := ids.length ≤ 1, style := 0 }

/-- An entry of the sort list, and what it has been read from. -/
structure SortEntry where
  scan : SortScan
  info : SortInfo

/-- The loop of `read_sort_file`: its calls of `ADD_ENTRY`, and `mkisofs_style`, if the file is accepted.
`sort_filename` has 16385 bytes. -/
def readSortScans (env : SortEnv) : List SortScan → ℤ → ℤ → Option (List SortEntry × ℤ)
  | [], _, style => some ([], style)
  | scan :: scans, priority, style =>
    let priority := scan.number.getD priority
    if 16385 ≤ scan.name.length then none
    else if h : -32768 ≤ priority ∧ priority ≤ 32767 then do
      let adds ← addSortList env scan.name style
      if adds.ok then
        let (entries, style) ← readSortScans env scans priority adds.style
        let added := adds.ids.map fun id =>
          { scan, info := { stDev := id.1, stIno := id.2, priority, range := h } }
        some (added ++ entries, style)
      else none
    else readSortScans env scans priority style

/-- `read_sort_file` for each sort file; `priority` has no value at the start of a call. -/
def readSortFiles (env : SortEnv) : List (Path × ℤ) → ℤ → Option (List SortEntry)
  | [], _ => some []
  | (content, priority) :: files, style => do
    let (entries, style) ← readSortScans env (sortScans content) priority style
    let rest ← readSortFiles env files style
    some (entries ++ rest)

/-- `ADD_ENTRY` -/
def addEntry (sortInfoList : ℕ → List SortInfo) (s : SortInfo) : ℕ → List SortInfo :=
  Function.update sortInfoList (s.stIno &&& 0xffff) (s :: sortInfoList (s.stIno &&& 0xffff))

/-- `sort_info_list` after some calls of it. -/
def sortInfoTable (entries : List SortEntry) : ℕ → List SortInfo :=
  (entries.map SortEntry.info).foldl addEntry fun _ => []

/-! ## Effective priorities -/

variable {ε : Type*} {info : ℕ → InodeInfo} {entries : List SortEntry} {env : SortEnv}

/-- The priority of the last entry of the sort list that designates an inode. -/
def designated (entries : List SortEntry) (buf : FileStat) : Option ℤ :=
  ((entries.map SortEntry.info).reverse.find? fun s => s.stDev = buf.dev ∧ s.stIno = buf.ino).map
    SortInfo.priority

/-- The effective priority of a name: the inode's, or that of the nearest directory above it. -/
def effectivePriority (entries : List SortEntry) (buf : FileStat) (above : List FileStat) : ℤ :=
  ((buf :: above).findSome? (designated entries)).getD 0

/-- The names of the regular files among these entries, with the directories above each, the nearest first. -/
def Entries.names (info : ℕ → InodeInfo) : Entries ε → List FileStat → List ((ε × ℕ) × List FileStat)
  | .nil, _ => []
  | .cons ent inode sub rest, above =>
    (if (info inode).rootEntry then []
      else match (info inode).buf.format with
        | .reg => [((ent, inode), above)]
        | .dir => sub.names info ((info inode).buf :: above)
        | _ => []) ++ rest.names info above

/-- The names in a tree. -/
def SourceTree.names (t : SourceTree ε) : List ((ε × ℕ) × List FileStat) := t.root.names t.info [t.rootBuf]

/-- The effective priority of an inode: the highest one of its names. -/
def SourceTree.inodePriority (t : SourceTree ε) (entries : List SortEntry) (i : ℕ) : Option ℤ :=
  ((t.names.filter fun n => n.1.2 = i).map fun n => effectivePriority entries (t.info i).buf n.2).max?

/-- Each inode of a regular file is written once, and one after the other by priority. -/
structure WrittenByPriority (t : SourceTree ε) (entries : List SortEntry) (writes : List (ε × ℕ)) : Prop where
  once : (writes.map Prod.snd).Nodup
  all : ∀ i, i ∈ writes.map Prod.snd ↔ ∃ n ∈ t.names, n.1.2 = i
  order : writes.Pairwise fun a b =>
    ∀ p ∈ t.inodePriority entries a.2, ∀ q ∈ t.inodePriority entries b.2, q ≤ p

/-! ## Looking up -/

theorem foldl_addEntry (infos : List SortInfo) (table : ℕ → List SortInfo) (h : ℕ) :
    infos.foldl addEntry table h = (infos.filter fun s => s.stIno &&& 0xffff = h).reverse ++ table h := by
  induction infos generalizing table with
  | nil => rfl
  | cons s infos ih =>
      rw [List.foldl_cons, ih, List.filter_cons, addEntry]
      by_cases hs : s.stIno &&& 0xffff = h
      · simp [hs]
      · rw [Function.update_of_ne (Ne.symm hs), decide_eq_false hs]
        rfl

/-- **The newest entry of the chain** is the last one that designates the inode. -/
theorem getPriority_sortInfoTable (entries : List SortEntry) (buf : FileStat) (priority : ℤ) :
    getPriority (sortInfoTable entries) buf priority = (designated entries buf).getD priority := by
  unfold getPriority designated sortInfoTable
  rw [foldl_addEntry, List.append_nil, ← List.filter_reverse, List.find?_filter]
  have hsame : (fun s : SortInfo => decide (decide (s.stIno &&& 0xffff = buf.ino &&& 0xffff) = true ∧
      decide (s.stDev = buf.dev ∧ s.stIno = buf.ino) = true))
        = fun s => decide (s.stDev = buf.dev ∧ s.stIno = buf.ino) := by
    funext s
    by_cases hs : s.stDev = buf.dev ∧ s.stIno = buf.ino
    · simp [hs]
    · simp [hs]
  rw [hsame]
  cases (entries.map SortEntry.info).reverse.find? fun s => s.stDev = buf.dev ∧ s.stIno = buf.ino with
  | none => rfl
  | some s => rfl

/-- What a directory hands down. -/
theorem generateFilePriorities_eq (entries : List SortEntry) (t : Entries ε) (above : List FileStat) :
    generateFilePriorities info (sortInfoTable entries) t ((above.findSome? (designated entries)).getD 0)
      = (t.names info above).map fun n => (n.1, effectivePriority entries (info n.1.2).buf n.2) := by
  induction t generalizing above with
  | nil => rfl
  | cons ent inode sub rest ihSub ihRest =>
      have hown : getPriority (sortInfoTable entries) (info inode).buf
          ((above.findSome? (designated entries)).getD 0)
            = ((((info inode).buf :: above).findSome? (designated entries)).getD 0) := by
        rw [getPriority_sortInfoTable, List.findSome?_cons]
        cases designated entries (info inode).buf <;> rfl
      rw [generateFilePriorities, Entries.names, List.map_append, ihRest]
      congr 1
      rw [hown]
      by_cases hroot : (info inode).rootEntry = true
      · rw [if_pos hroot, if_pos hroot]
        rfl
      · rw [if_neg hroot, if_neg hroot]
        cases (info inode).buf.format with
        | reg => rfl
        | dir => exact ihSub ((info inode).buf :: above)
        | _ => rfl

/-! ## One list for each priority -/

/-- The list with the priorities. -/
def priorityCalls (calls : List ((ε × ℕ) × ℤ)) : List ((ε × ℕ) × ℤ) :=
  (List.range 65536).reverse.flatMap fun i : ℕ => (calls.filter fun c => c.2 + 32768 = (i : ℤ)).reverse

theorem map_priorityCalls (calls : List ((ε × ℕ) × ℤ)) :
    (priorityCalls calls).map Prod.fst = priorityOrder calls := by
  rw [priorityCalls, priorityOrder, List.map_flatMap]
  congr 1
  funext i
  exact List.map_reverse ..

theorem mem_priorityCalls {calls : List ((ε × ℕ) × ℤ)} (hrange : ∀ c ∈ calls, -32768 ≤ c.2 ∧ c.2 ≤ 32767)
    {c : (ε × ℕ) × ℤ} : c ∈ priorityCalls calls ↔ c ∈ calls := by
  rw [priorityCalls, List.mem_flatMap]
  constructor
  · rintro ⟨i, -, hc⟩
    exact (List.mem_filter.mp (List.mem_reverse.mp hc)).1
  · intro hc
    obtain ⟨hlow, hhigh⟩ := hrange c hc
    refine ⟨(c.2 + 32768).toNat, ?_, List.mem_reverse.mpr (List.mem_filter.mpr ⟨hc, ?_⟩)⟩
    · rw [List.mem_reverse, List.mem_range]
      omega
    · rw [decide_eq_true_eq]
      omega

/-- It goes down. -/
theorem pairwise_priorityCalls (calls : List ((ε × ℕ) × ℤ)) :
    (priorityCalls calls).Pairwise fun x y => y.2 ≤ x.2 := by
  have hmem : ∀ {i : ℕ} {c : (ε × ℕ) × ℤ},
      c ∈ (calls.filter fun c => c.2 + 32768 = (i : ℤ)).reverse → c.2 + 32768 = i := by
    intro i c hc
    exact of_decide_eq_true (List.mem_filter.mp (List.mem_reverse.mp hc)).2
  rw [priorityCalls, List.pairwise_flatMap]
  constructor
  · intro i _
    refine List.pairwise_of_forall_mem_list fun x hx y hy => ?_
    have hx := hmem hx
    have hy := hmem hy
    omega
  · refine List.pairwise_reverse.mpr (List.pairwise_lt_range.imp ?_)
    intro i j hij x hx y hy
    have hx := hmem hx
    have hy := hmem hy
    omega

/-- Each name of a file has a name of every file written before it that is not below it. -/
theorem pairwise_sortFilesAndWrite {calls : List ((ε × ℕ) × ℤ)}
    (hsorted : calls.Pairwise fun x y => y.2 ≤ x.2) (written : List ℕ) :
    (sortFilesAndWrite (calls.map Prod.fst) written).Pairwise fun a b =>
      ∀ y ∈ calls, y.1.2 = b.2 → ∃ x ∈ calls, x.1.2 = a.2 ∧ y.2 ≤ x.2 := by
  induction calls generalizing written with
  | nil => exact .nil
  | cons c calls ih =>
      rw [List.pairwise_cons] at hsorted
      rw [List.map_cons, sortFilesAndWrite]
      -- names of `c` are not names of a file that is written later
      have hlater : ∀ {written : List ℕ}, c.1.2 ∈ written →
          (sortFilesAndWrite (calls.map Prod.fst) written).Pairwise fun a b =>
            ∀ y ∈ c :: calls, y.1.2 = b.2 → ∃ x ∈ c :: calls, x.1.2 = a.2 ∧ y.2 ≤ x.2 := by
        intro written hmem
        refine List.Pairwise.imp_of_mem (fun {a b} _ hb hab y hy hyb => ?_) (ih hsorted.2 written)
        rcases List.mem_cons.mp hy with rfl | hy
        · exact absurd (hyb ▸ hmem) ((nodup_sortFilesAndWrite _ _).2 _ (List.mem_map_of_mem hb))
        · obtain ⟨x, hx, hxa, hle⟩ := hab y hy hyb
          exact ⟨x, List.mem_cons_of_mem _ hx, hxa, hle⟩
      split
      · rename_i hmem
        exact hlater hmem
      · rw [List.pairwise_cons]
        refine ⟨fun b _ y hy _ => ⟨c, List.mem_cons_self, rfl, ?_⟩, hlater List.mem_cons_self⟩
        rcases List.mem_cons.mp hy with rfl | hy
        · exact le_rfl
        · exact hsorted.1 y hy

/-- The calls of `add_priority_list` for a tree. -/
theorem generateFilePriorities_root (t : SourceTree ε) (entries : List SortEntry) :
    generateFilePriorities t.info (sortInfoTable entries) t.root
        (getPriority (sortInfoTable entries) t.rootBuf 0)
      = t.names.map fun n => (n.1, effectivePriority entries (t.info n.1.2).buf n.2) := by
  have hroot : getPriority (sortInfoTable entries) t.rootBuf 0
      = ([t.rootBuf].findSome? (designated entries)).getD 0 := by
    rw [getPriority_sortInfoTable, List.findSome?_cons]
    cases designated entries t.rootBuf <;> rfl
  rw [hroot]
  exact generateFilePriorities_eq entries t.root [t.rootBuf]

/-- **Sorted files are written by priority.** -/
theorem sortFilesAndWrite_sorted (t : SourceTree ε) (entries : List SortEntry) :
    WrittenByPriority t entries (sortFilesAndWrite (t.order (sortInfoTable entries)) []) := by
  have hcalls := generateFilePriorities_root t entries
  have hrange : ∀ c ∈ generateFilePriorities t.info (sortInfoTable entries) t.root
      (getPriority (sortInfoTable entries) t.rootBuf 0), -32768 ≤ c.2 ∧ c.2 ≤ 32767 :=
    (generateFilePriorities_spec t.info _ t.root (getPriority_range _ t.rootBuf (by decide))).2
  have horder : t.order (sortInfoTable entries) = (priorityCalls (t.names.map fun n =>
      (n.1, effectivePriority entries (t.info n.1.2).buf n.2))).map Prod.fst := by
    rw [← hcalls, map_priorityCalls]
    rfl
  rw [hcalls] at hrange
  refine ⟨(nodup_sortFilesAndWrite _ _).1, fun i => ?_, ?_⟩
  · have hmem : ∀ e, e ∈ t.order (sortInfoTable entries) ↔ ∃ n ∈ t.names, n.1 = e := by
      intro e
      rw [horder, List.mem_map]
      constructor
      · rintro ⟨c, hc, rfl⟩
        obtain ⟨n, hn, rfl⟩ := List.mem_map.mp ((mem_priorityCalls hrange).mp hc)
        exact ⟨n, hn, rfl⟩
      · rintro ⟨n, hn, rfl⟩
        exact ⟨_, (mem_priorityCalls hrange).mpr (List.mem_map_of_mem hn), rfl⟩
    constructor
    · intro hi
      obtain ⟨e, he, rfl⟩ := List.mem_map.mp hi
      obtain ⟨n, hn, rfl⟩ := (hmem e).mp (mem_of_mem_sortFilesAndWrite he)
      exact ⟨n, hn, rfl⟩
    · rintro ⟨n, hn, rfl⟩
      have hwritten := mem_sortFilesAndWrite [] ((hmem n.1).mpr ⟨n, hn, rfl⟩)
      rw [List.append_nil] at hwritten
      exact hwritten
  · rw [horder]
    refine (pairwise_sortFilesAndWrite (pairwise_priorityCalls _) []).imp fun {a b} hab p hp q hq => ?_
    -- the name of `b` with its priority, and the name of `a` that is not below it
    obtain ⟨n, hn, rfl⟩ := List.mem_map.mp (List.max?_mem hq)
    rw [List.mem_filter, decide_eq_true_eq] at hn
    obtain ⟨x, hx, hxa, hle⟩ := hab (n.1, effectivePriority entries (t.info n.1.2).buf n.2)
      ((mem_priorityCalls hrange).mpr (List.mem_map_of_mem hn.1)) hn.2
    obtain ⟨n', hn', rfl⟩ := List.mem_map.mp ((mem_priorityCalls hrange).mp hx)
    refine le_trans ?_ ((List.max?_eq_some_iff.mp hp).2 _ (List.mem_map_of_mem
      (List.mem_filter.mpr ⟨hn', decide_eq_true hxa⟩)))
    rw [← hn.2, ← hxa]
    exact hle

/-! ## Names without a number -/

/-- `lstat` finds a file. -/
def Lstat.IsFile (l : Lstat) : Prop := l.ids ≠ []

/-- It finds the name in a source, and does not fail in one before. -/
def FoundInSources (env : SortEnv) (path : Path) : List Path → Prop
  | [] => False
  | source :: sources =>
    (env.lstat (source ++ 47 :: path)).IsFile ∨
      env.lstat (source ++ 47 :: path) = .missing ∧ FoundInSources env path sources

/-- There is a file by this name where `add_sort_list` looks for it. -/
def IsFound (env : SortEnv) (path : Path) (style : ℤ) : Prop :=
  if isAnchored (stripStar path) ∨ style = 1 then (env.lstat (stripStar path)).IsFile
  else FoundInSources env (stripStar path) env.sourcePath ∨
    (∀ source ∈ env.sourcePath, env.lstat (source ++ 47 :: stripStar path) ≠ .failed) ∧ style = -1 ∧
      (env.lstat (stripStar path)).IsFile

/-- A name without a valid number comes when the number from before, or what there is of one, is out of range,
or there is no file by this name. -/
def StraysAddNothing (env : SortEnv) : List SortScan → ℤ → ℤ → Prop
  | [], _, _ => True
  | scan :: scans, priority, style =>
    let priority := scan.number.getD priority
    if -32768 ≤ priority ∧ priority ≤ 32767 then
      (scan.valid = false → ¬ IsFound env scan.name style) ∧
        ∀ adds, addSortList env scan.name style = some adds → StraysAddNothing env scans priority adds.style
    else StraysAddNothing env scans priority style

/-- So in each sort file. -/
def StraysAddNothingFiles (env : SortEnv) : List (Path × ℤ) → ℤ → Prop
  | [], _ => True
  | (content, priority) :: files, style =>
    StraysAddNothing env (sortScans content) priority style ∧
      ∀ r, readSortScans env (sortScans content) priority style = some r → StraysAddNothingFiles env files r.2

variable {path name : Path} {priority style : ℤ} {scans : List SortScan}

theorem statSources_spec {sources : List Path} {ids : List (ℕ × ℕ)} {atEnd : Bool}
    (h : statSources env path sources = some (ids, atEnd)) :
    (ids ≠ [] ↔ FoundInSources env path sources) ∧
      (atEnd = true ↔ ∀ source ∈ sources, env.lstat (source ++ 47 :: path) ≠ .failed) := by
  induction sources generalizing ids atEnd with
  | nil =>
      obtain ⟨rfl, rfl⟩ := Prod.mk.inj (Option.some.inj h)
      simp [FoundInSources]
  | cons source sources ih =>
      rw [statSources] at h
      dsimp only at h
      split at h
      · cases h
      rw [FoundInSources, List.forall_mem_cons, Lstat.IsFile]
      split at h
      · rename_i hfailed
        obtain ⟨rfl, rfl⟩ := Prod.mk.inj (Option.some.inj h)
        simp [hfailed, Lstat.ids]
      · rename_i hmissing
        simp [hmissing, Lstat.ids, ih h]
      · rename_i dev ino hfile
        obtain ⟨⟨ids', atEnd'⟩, hrest, h⟩ := Option.bind_eq_some_iff.mp h
        obtain ⟨rfl, rfl⟩ := Prod.mk.inj (Option.some.inj h)
        simp [hfile, Lstat.ids, (ih hrest).2]

/-- **When a name adds an entry.** -/
theorem ids_ne_nil_iff {adds : SortAdds} (h : addSortList env name style = some adds) :
    adds.ids ≠ [] ↔ IsFound env name style := by
  unfold addSortList at h
  unfold IsFound
  dsimp only at h
  split at h
  · rename_i hanchored
    rw [if_pos hanchored]
    exact Option.some.inj h ▸ Iff.rfl
  · rename_i hanchored
    rw [if_neg hanchored]
    obtain ⟨⟨ids, atEnd⟩, hsources, h⟩ := Option.bind_eq_some_iff.mp h
    obtain ⟨hids, hend⟩ := statSources_spec hsources
    dsimp only at h
    rw [← hids, ← hend, Lstat.IsFile]
    split at h
    · rename_i hfailed
      obtain rfl := Option.some.inj h
      simp at hfailed
      simp [hfailed]
    · rename_i hatEnd
      simp at hatEnd
      split at h
      · rename_i hstyle
        obtain rfl := Option.some.inj h
        simp [hatEnd, hstyle]
      · rename_i hstyle
        obtain rfl := Option.some.inj h
        simp only [hatEnd, true_and]
        tauto

/-- One sort file. -/
theorem valid_readSortScans_iff {r : List SortEntry × ℤ} (h : readSortScans env scans priority style = some r) :
    (∀ e ∈ r.1, e.scan.valid = true) ↔ StraysAddNothing env scans priority style := by
  induction scans generalizing priority style r with
  | nil =>
      obtain rfl := Option.some.inj h
      simp [StraysAddNothing]
  | cons scan scans ih =>
      rw [readSortScans] at h
      rw [StraysAddNothing]
      dsimp only at h ⊢
      split at h
      · cases h
      split at h
      · rename_i hrange
        rw [if_pos hrange]
        obtain ⟨adds, hadds, h⟩ := Option.bind_eq_some_iff.mp h
        split at h
        · obtain ⟨⟨entries, style'⟩, hrest, h⟩ := Option.bind_eq_some_iff.mp h
          obtain rfl := Option.some.inj h
          dsimp only
          rw [List.forall_mem_append, ih hrest, ← ids_ne_nil_iff hadds]
          refine and_congr ?_ ⟨fun hstrays adds' hadds' => ?_, fun hstrays => hstrays adds hadds⟩
          · rw [List.forall_mem_map]
            show (∀ id ∈ adds.ids, scan.valid = true) ↔ _
            constructor
            · intro hvalid hinvalid hne
              obtain ⟨id, hid⟩ := List.exists_mem_of_ne_nil _ hne
              rw [hvalid id hid] at hinvalid
              cases hinvalid
            · intro hstray id hid
              by_contra hinvalid
              exact hstray (Bool.not_eq_true _ ▸ hinvalid) (List.ne_nil_of_mem hid)
          · obtain rfl : adds = adds' := Option.some.inj (hadds.symm.trans hadds')
            exact hstrays
        · cases h
      · rename_i hrange
        rw [if_neg hrange]
        exact ih h

/-- All sort files. -/
theorem valid_readSortFiles_iff {files : List (Path × ℤ)} (h : readSortFiles env files style = some entries) :
    (∀ e ∈ entries, e.scan.valid = true) ↔ StraysAddNothingFiles env files style := by
  induction files generalizing style entries with
  | nil =>
      obtain rfl := Option.some.inj h
      simp [StraysAddNothingFiles]
  | cons file files ih =>
      obtain ⟨content, priority⟩ := file
      obtain ⟨⟨first, style'⟩, hfirst, h⟩ := Option.bind_eq_some_iff.mp h
      obtain ⟨rest, hrest, h⟩ := Option.bind_eq_some_iff.mp h
      obtain rfl := Option.some.inj h
      rw [StraysAddNothingFiles, List.forall_mem_append, valid_readSortScans_iff hfirst, ih hrest]
      refine and_congr_right fun _ => ⟨fun hstrays r hr => ?_, fun hstrays => hstrays _ hfirst⟩
      obtain rfl : (first, style') = r := Option.some.inj (hfirst.symm.trans hr)
      exact hstrays

/-- **Sort files**: for those that are accepted, the files are written by priority, and what has been added to
the sort list has a valid number if what has none adds nothing. -/
theorem sortFile_iff (t : SourceTree ε) (env : SortEnv) {files : List (Path × ℤ)}
    (h : readSortFiles env files (-1) = some entries) :
    WrittenByPriority t entries (sortFilesAndWrite (t.order (sortInfoTable entries)) []) ∧
        (∀ e ∈ entries, e.scan.valid = true) ↔ StraysAddNothingFiles env files (-1) := by
  rw [valid_readSortFiles_iff h]
  exact and_iff_right (sortFilesAndWrite_sorted t entries)

/-! ## A name alone on its line -/

/-- A source `s` with files `a` and `b`. -/
def twoFilesEnv : SortEnv where
  lstat path := if path = [115, 47, 97] then .file 0 1 else if path = [115, 47, 98] then .file 0 2 else .missing
  sourcePath := [[115]]

/-- Their tree. -/
def twoFilesTree : SourceTree ℕ where
  info i := { buf := { ino := i }, reg_of_process := fun h => by cases h }
  rootBuf := { format := .dir }
  root := .cons 0 1 .nil (.cons 1 2 .nil .nil)
  nodup := by decide

/-- `a 5`, and `b` -/
def twoFilesList : Path := [97, 32, 53, 10, 98, 10]

theorem sortFile_iff_twoFiles :
    ∃ entries, readSortFiles twoFilesEnv [(twoFilesList, 0)] (-1) = some entries ∧
      (WrittenByPriority twoFilesTree entries
          (sortFilesAndWrite (twoFilesTree.order (sortInfoTable entries)) []) ∧
        (∀ e ∈ entries, e.scan.valid = true) ↔ StraysAddNothingFiles twoFilesEnv [(twoFilesList, 0)] (-1)) :=
  ⟨_, rfl, sortFile_iff twoFilesTree twoFilesEnv rfl⟩

/-- `b` gets the number of `a`. -/
theorem not_sortFile_nameAlone :
    ∃ entries, readSortFiles twoFilesEnv [(twoFilesList, 0)] (-1) = some entries ∧
      ∃ e ∈ entries, e.scan.name = [98] ∧ e.scan.number = none ∧ e.info.priority = 5 :=
  ⟨_, rfl, _, List.mem_cons_of_mem _ List.mem_cons_self, rfl, rfl, rfl⟩

end FirmwareTools.Squashfs

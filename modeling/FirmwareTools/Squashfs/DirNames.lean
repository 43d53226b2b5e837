import Mathlib.Data.Nat.Digits.Defs
import Mathlib.Data.Set.Finite.Basic
import FirmwareTools.Squashfs.PseudoDefs

/-! # The names in the directories

Which names `add_dir` is given, directory by directory: those of the source files that are not left out
(`dir_scan1`), with those of sources on the command line made different by a number, and those of the
pseudo file definitions (`dir_scan2`), sorted.

* **`mem_allNames_dirScan2`** — a directory has the names of the source files in it, and of the definitions
  for which there is a directory to put them in;
* **`pairwise_dirScan2`** — in strictly increasing order;
* **`dirNames_iff`** — when all of them are names that a directory can have. -/

namespace FirmwareTools.Squashfs

/-! ## The name of a source -/

/-- `basename_r`, on the text that `name` points to: what it returns, and what `name` points to then. The
first argument bounds the depth of the calls. -/
def basenameR : ℕ → Path → Option Path × Path
  | 0, name => (none, name)
  | n + 1, name =>
    if name = [] then (none, [])
    else
      -- at a slash nothing is skipped before the slashes are, and one character is taken
      let s := if name.head? = some 47 then [47] else name.takeWhile (· != 47)
      let rest := (name.dropWhile (· != 47)).dropWhile (· == 47)
      if s = [46] then basenameR n rest
      else if rest = [] ∨ s = [46, 46] then (some s, rest)
      else
        match basenameR n rest with
        | (none, rest) => (some s, rest)
        | (some p, rest) => if p = [46, 46] then basenameR n rest else (some p, rest)

/-- `getbase` -/
def getbase (cwd : Option Path) (pathname : Path) : Option Path :=
  (if pathname.head? = some 47 then some pathname else cwd.map (· ++ 47 :: pathname)).bind fun buffer =>
    (basenameR (buffer.length + 1) buffer).1.bind fun result =>
      if result = [46, 46] then none else some result

theorem ne_nil_of_basenameR {n : ℕ} {name s : Path} (h : (basenameR n name).1 = some s) : s ≠ [] := by
  induction n generalizing name with
  | zero => cases h
  | succ n ih =>
      rw [basenameR] at h
      by_cases hnil : name = []
      · rw [if_pos hnil] at h
        cases h
      rw [if_neg hnil] at h
      dsimp only at h
      -- what is taken is a slash, or begins with something else
      have hne : (if name.head? = some 47 then [47] else name.takeWhile (· != 47)) ≠ [] := by
        obtain ⟨c, rest, rfl⟩ := List.exists_cons_of_ne_nil hnil
        by_cases hc : c = 47
        · simp [hc]
        · simp [hc, List.takeWhile_cons_of_pos]
      generalize (if name.head? = some 47 then [47] else name.takeWhile (· != 47)) = word at h hne
      split_ifs at h
      · exact ih h
      · rw [← Option.some.inj h]
        exact hne
      · split at h
        · rw [← Option.some.inj h]
          exact hne
        · next p rest hrec =>
            split_ifs at h
            · exact ih h
            · exact ih (by rw [hrec, h])

theorem ne_nil_of_getbase {cwd : Option Path} {pathname basename : Path}
    (h : getbase cwd pathname = some basename) : basename ≠ [] := by
  obtain ⟨buffer, -, h⟩ := Option.bind_eq_some_iff.mp h
  obtain ⟨result, hresult, h⟩ := Option.bind_eq_some_iff.mp h
  split_ifs at h
  rw [← Option.some.inj h]
  exact ne_nil_of_basenameR hresult

/-- The names that are tried for a source: the name itself, and then with a number behind it. -/
def sourceName (basename : Path) (pass : ℕ) : Path :=
  if pass = 0 then basename
  else basename ++ 95 :: (Nat.digits 10 pass).reverse.map fun d => (48 + d).toUInt8

theorem sourceName_injective (basename : Path) : Function.Injective (sourceName basename) := by
  intro m n h
  rw [sourceName, sourceName] at h
  split_ifs at h with hm hn hn
  · rw [hm, hn]
  · exact absurd (congrArg List.length h) (by simp)
  · exact absurd (congrArg List.length h) (by simp)
  · have hdigits := (List.cons.inj (List.append_cancel_left h)).2
    -- the digits can be read back
    have hback : ∀ k, (Nat.digits 10 k).map (fun d => (48 + d).toUInt8.toNat - 48) = Nat.digits 10 k := by
      intro k
      refine (List.map_congr_left fun d hd => ?_).trans (List.map_id _)
      have hlt := Nat.digits_lt_base (by decide) hd
      simp only [Nat.toUInt8, UInt8.toNat_ofNat', id_eq]
      omega
    rw [List.map_reverse, List.map_reverse, List.reverse_inj] at hdigits
    have hmap := congrArg (List.map fun u => u.toNat - 48) hdigits
    rw [List.map_map, List.map_map] at hmap
    exact Nat.digits_inj_iff.mp ((hback m).symm.trans (hmap.trans (hback n)))

theorem exists_unused (used : List Path) (basename : Path) : ∃ pass, sourceName basename pass ∉ used := by
  by_contra hall
  push Not at hall
  exact (Set.infinite_range_of_injective (sourceName_injective basename))
    ((List.finite_toSet used).subset (Set.range_subset_iff.mpr hall))

/-- The loop of `scan1_encomp_readdir` that looks for a name that is not used. -/
def unusedName (used : List Path) (basename : Path) : Path :=
  sourceName basename (Nat.find (exists_unused used basename))

theorem unusedName_notMem (used : List Path) (basename : Path) : unusedName used basename ∉ used :=
  Nat.find_spec (exists_unused used basename)

/-! ## The source files -/

/-- What a directory has in it: the names that `readdir` returns, each with the file type that `lstat`
says (`none` if it fails or says an unknown one), whether the name is excluded, whether it can be opened
if it is a directory, and whether its inode was written before under another name; and what is in it. -/
inductive SourceNames
  | nil
  | cons (name : Path) (stat : Option FileFormat) (excluded opened again : Bool) (sub rest : SourceNames)

/-- The names of a directory. -/
def SourceNames.names : SourceNames → List Path
  | .nil => []
  | .cons name _ _ _ _ _ rest => name :: rest.names

/-- What the system promises of the names that it returns: they are not empty, not too long, have no
slash in them, and there are no two of the same name in a directory. -/
def SourceNames.Listed : SourceNames → Prop
  | .nil => True
  | .cons name _ _ _ _ sub rest => name ≠ [] ∧ name.length ≤ 255 ∧ 47 ∉ name ∧ name ∉ rest.names ∧
      sub.Listed ∧ rest.Listed

/-- A source on the command line. Whether it is excluded depends on the name it gets. -/
structure SourceArg where
  path : Path
  stat : Option FileFormat
  excluded : Path → Bool := fun _ => false
  opened : Bool := true
  again : Bool := false
  sub : SourceNames := .nil
  sub_listed : sub.Listed := by trivial

/-- An entry is made for a file. -/
def TakesFile (name : Path) (stat : Option FileFormat) (excluded opened : Bool) : Prop :=
  name ≠ [46] ∧ name ≠ [46, 46] ∧ stat ≠ none ∧ ¬ excluded ∧ (stat = some .dir → opened)

instance (name : Path) (stat : Option FileFormat) (excluded opened : Bool) :
    Decidable (TakesFile name stat excluded opened) := inferInstanceAs (Decidable (_ ∧ _))

/-- `scan1_encomp_readdir`: the sources under the names that they get. `used` are the names for which there
is an entry. -/
def scan1EncompReaddir (cwd : Option Path) : List Path → List SourceArg → SourceNames
  | _, [] => .nil
  | used, arg :: args =>
    match getbase cwd arg.path with
    | none => scan1EncompReaddir cwd used args
    | some basename =>
      let name := unusedName used basename
      .cons name arg.stat (arg.excluded name) arg.opened arg.again arg.sub
        (scan1EncompReaddir cwd
          (if TakesFile name arg.stat (arg.excluded name) arg.opened then used ++ [name] else used) args)

/-- The source files: what is in one directory, or what is given on the command line. -/
inductive SourceFiles
  | directory (listing : SourceNames) (listed : listing.Listed)
  | arguments (cwd : Option Path) (args : List SourceArg)

/-- What `dir_scan1` finds in the top directory. -/
def SourceFiles.listing : SourceFiles → SourceNames
  | .directory listing _ => listing
  | .arguments cwd args => scan1EncompReaddir cwd [] args

/-! ## Directories to put a file in -/

section

variable {τ τ' : Type*} (find : Path → τ → Option (Bool × Bool × τ)) (nil : τ)

/-- There is a directory to put a file in: one that is written, or one that a definition makes. `find` says
what is under a name: whether it is a directory, whether its inode was written before, and what is in it;
`dirs` says which definitions make directories. -/
def Makes : (List Path → Prop) → τ → List Path → Prop
  | _, _, [] => False
  | dirs, t, c :: rest =>
    match find c t with
    | some (isDir, again, sub) => isDir = true ∧ again = false ∧ Makes (fun p => dirs (c :: p)) sub rest
    | none => rest = [] ∨ (dirs [c] ∧ Makes (fun p => dirs (c :: p)) nil rest)

/-- The names for which there is a definition that makes a directory. -/
def DirDef (defs : List PlacedDef) (p : List Path) : Prop := ∃ d, (p, d) ∈ defs ∧ d.type = .d

variable {find nil}

theorem makes_congr {dirs dirs' : List Path → Prop} {t : τ} {p : List Path}
    (h : ∀ p ≠ [], dirs p ↔ dirs' p) : Makes find nil dirs t p ↔ Makes find nil dirs' t p := by
  induction p generalizing dirs dirs' t with
  | nil => rfl
  | cons c rest ih =>
      have hbelow : ∀ p ≠ [], dirs (c :: p) ↔ dirs' (c :: p) := fun p _ => h _ (List.cons_ne_nil _ _)
      rw [Makes, Makes]
      cases find c t with
      | some e => simp only [ih hbelow]
      | none => simp only [ih hbelow, h [c] (List.cons_ne_nil _ _)]

/-- Two ways to look at the same directories. -/
theorem makes_map {find' : Path → τ' → Option (Bool × Bool × τ')} {nil' : τ'} {f : τ → τ'}
    (hfind : ∀ c t, find' c (f t) = (find c t).map fun e => (e.1, e.2.1, if e.1 then f e.2.2 else nil'))
    (hnil : f nil = nil') {dirs : List Path → Prop} {t : τ} {p : List Path} :
    Makes find' nil' dirs (f t) p ↔ Makes find nil dirs t p := by
  induction p generalizing dirs t with
  | nil => rfl
  | cons c rest ih =>
      rw [Makes, Makes, hfind]
      cases find c t with
      | some e =>
          obtain ⟨isDir, again, sub⟩ := e
          refine and_congr_right fun hdir => and_congr_right fun _ => ?_
          rw [if_pos hdir]
          exact ih
      | none =>
          refine or_congr_right (and_congr_right fun _ => ?_)
          rw [← ih (t := nil), hnil]

end

/-! ## The directories -/

/-- The list of a directory: the names of the entries, whether they are directories, whether their inode
was written before when `dir_scan3` comes to them, and what is in them. -/
inductive NameTree
  | nil
  | cons (name : Path) (isDir again : Bool) (sub rest : NameTree)

namespace NameTree

/-- The names of a directory. -/
def names : NameTree → List Path
  | .nil => []
  | .cons name _ _ _ rest => name :: rest.names

/-- `dir_scan1` -/
def dirScan1 : SourceNames → NameTree
  | .nil => .nil
  | .cons name stat excluded opened again sub rest =>
    if TakesFile name stat excluded opened then
      .cons name (stat = some .dir) again (if stat = some .dir then dirScan1 sub else .nil) (dirScan1 rest)
    else dirScan1 rest

/-- `add_dir_entry` -/
def addDirEntry (name : Path) (isDir : Bool) (sub : NameTree) : NameTree → NameTree
  | .nil => .cons name isDir false sub .nil
  | .cons n d a s rest => .cons n d a s (addDirEntry name isDir sub rest)

/-- An entry at its place in a sorted directory. -/
def insertSorted (name : Path) (isDir again : Bool) (sub : NameTree) : NameTree → NameTree
  | .nil => .cons name isDir again sub .nil
  | .cons n d a s rest =>
    if name < n then .cons name isDir again sub (.cons n d a s rest)
    else .cons n d a s (insertSorted name isDir again sub rest)

/-- `sort_directory`; names are compared by `strcmp`. -/
def sortDirectory : NameTree → NameTree
  | .nil => .nil
  | .cons n d a s rest => insertSorted n d a s rest.sortDirectory

/-- The loop of `dir_scan2` over the definitions for a directory. -/
def pseudoScan : PseudoTree → NameTree → NameTree
  | .nil, dir => dir
  | .cons name dev pseudo rest, dir =>
    match dev with
    | none => pseudoScan rest dir
    | some d =>
      -- a file is modified, or is there already
      if d.type = .m ∨ name ∈ dir.names then pseudoScan rest dir
      else
        let sub := if d.type = .d then (pseudoScan pseudo .nil).sortDirectory else .nil
        pseudoScan rest (addDirEntry name (d.type = .d) sub dir)

/-- The first loop of `dir_scan2`, over the directories that are there. -/
def subdirScan : NameTree → PseudoTree → NameTree
  | .nil, _ => .nil
  | .cons name isDir again sub rest, pseudo =>
    let below := pseudo.pseudoSubdir name
    .cons name isDir again
      (if isDir then (pseudoScan below (subdirScan sub below)).sortDirectory else sub)
      (subdirScan rest pseudo)

/-- `dir_scan2` -/
def dirScan2 (dir : NameTree) (pseudo : PseudoTree) : NameTree :=
  (pseudoScan pseudo (subdirScan dir pseudo)).sortDirectory

/-- The directories below that `dir_scan3` writes, each with the names that it passes to `add_dir`. -/
def written : NameTree → List (List Path)
  | .nil => []
  | .cons _ isDir again sub rest =>
    (if isDir ∧ ¬ again then sub.written ++ [sub.names] else []) ++ rest.written

/-- `dir_scan3` -/
def dirScan3 (dir : NameTree) : List (List Path) := dir.written ++ [dir.names]

/-! ## All names -/

/-- All names that are passed to `add_dir`. -/
def allNames (t : NameTree) : List Path := t.names ++ t.written.flatten

/-- The entry for a name. -/
def find (name : Path) : NameTree → Option (Bool × Bool × NameTree)
  | .nil => none
  | .cons n isDir again sub rest => if n = name then some (isDir, again, sub) else rest.find name

/-- There are no two entries with one name in a directory. -/
def Distinct : NameTree → Prop
  | .nil => True
  | .cons name _ _ sub rest => name ∉ rest.names ∧ sub.Distinct ∧ rest.Distinct

variable {t sub : NameTree} {name n : Path} {isDir again : Bool} {l : List Path}

theorem mem_allNames : n ∈ t.allNames ↔ n ∈ t.names ∨ ∃ l ∈ t.written, n ∈ l := by
  rw [allNames, List.mem_append, List.mem_flatten]

/-- These are the names in some call. -/
theorem mem_allNames_iff : n ∈ t.allNames ↔ ∃ l ∈ dirScan3 t, n ∈ l := by
  simp only [mem_allNames, dirScan3, List.mem_append, List.mem_singleton, or_and_right, exists_or,
    exists_eq_left]
  exact or_comm

theorem mem_written_cons {rest : NameTree} : l ∈ (cons name isDir again sub rest).written ↔
    (isDir = true ∧ again = false ∧ (l ∈ sub.written ∨ l = sub.names)) ∨ l ∈ rest.written := by
  rw [written, List.mem_append]
  refine or_congr_left ?_
  split_ifs with h
  · simp [h]
  · simp only [List.not_mem_nil, false_iff]
    rintro ⟨hdir, hagain, -⟩
    exact h ⟨hdir, by simp [hagain]⟩

theorem mem_allNames_cons {rest : NameTree} : n ∈ (cons name isDir again sub rest).allNames ↔
    n = name ∨ (isDir = true ∧ again = false ∧ n ∈ sub.allNames) ∨ n ∈ rest.allNames := by
  simp only [mem_allNames, mem_written_cons, names, List.mem_cons, or_and_right, exists_or, and_assoc,
    exists_and_left, exists_eq_left]
  rw [or_comm (b := n ∈ sub.names)]
  grind

theorem find_eq_none_iff : t.find name = none ↔ name ∉ t.names := by
  induction t with
  | nil => simp [find, names]
  | cons m d a s rest ihs ihr =>
      rw [find, names, List.mem_cons]
      split_ifs with hm
      · simp [hm]
      · rw [ihr, not_or]
        exact (and_iff_right (Ne.symm hm)).symm

/-- The names of a directory and what is in its entries. -/
theorem mem_allNames_iff_find (hnames : t.names.Nodup) : n ∈ t.allNames ↔ n ∈ t.names ∨
    ∃ c sub, t.find c = some (true, false, sub) ∧ n ∈ sub.allNames := by
  induction t with
  | nil => simp [mem_allNames, written, find]
  | cons m d a s rest ihs ihr =>
      obtain ⟨hfresh, hrest⟩ := List.nodup_cons.mp hnames
      rw [mem_allNames_cons, ihr hrest, names, List.mem_cons, or_assoc, or_left_comm (b := n ∈ rest.names)]
      refine or_congr_right (or_congr_right ?_)
      constructor
      · rintro (⟨rfl, rfl, hn⟩ | ⟨c, sub, hfind, hn⟩)
        · exact ⟨m, s, by rw [find, if_pos rfl], hn⟩
        · refine ⟨c, sub, ?_, hn⟩
          rw [find, if_neg, hfind]
          rintro rfl
          rw [find_eq_none_iff.mpr hfresh] at hfind
          cases hfind
      · rintro ⟨c, sub, hfind, hn⟩
        rw [find] at hfind
        split_ifs at hfind
        · cases hfind
          exact Or.inl ⟨rfl, rfl, hn⟩
        · exact Or.inr ⟨c, sub, hfind, hn⟩

/-! ### Sorting -/

theorem names_addDirEntry : (addDirEntry name isDir sub t).names = t.names ++ [name] := by
  induction t with
  | nil => rfl
  | cons m d a s rest ihs ihr => rw [addDirEntry, names, ihr, names, List.cons_append]

theorem mem_written_addDirEntry : l ∈ (addDirEntry name isDir sub t).written ↔
    l ∈ t.written ∨ (isDir = true ∧ (l ∈ sub.written ∨ l = sub.names)) := by
  induction t with
  | nil => simp [addDirEntry, written]
  | cons m d a s rest ihs ihr =>
      rw [addDirEntry, mem_written_cons, ihr, mem_written_cons]
      exact or_assoc.symm

theorem mem_allNames_addDirEntry : n ∈ (addDirEntry name isDir sub t).allNames ↔
    n ∈ t.allNames ∨ n = name ∨ (isDir = true ∧ n ∈ sub.allNames) := by
  simp only [mem_allNames, mem_written_addDirEntry, names_addDirEntry, List.mem_append,
    List.mem_singleton, or_and_right, exists_or, and_assoc, exists_and_left, exists_eq_left]
  rw [or_comm (b := n ∈ sub.names)]
  grind

theorem perm_names_insertSorted :
    (insertSorted name isDir again sub t).names.Perm (name :: t.names) := by
  induction t with
  | nil => exact List.Perm.refl _
  | cons m d a s rest ihs ihr =>
      rw [insertSorted]
      split_ifs
      · exact List.Perm.refl _
      · exact (ihr.cons m).trans (List.Perm.swap _ _ _)

theorem mem_written_insertSorted : l ∈ (insertSorted name isDir again sub t).written ↔
    l ∈ (cons name isDir again sub t).written := by
  induction t with
  | nil => rfl
  | cons m d a s rest ihs ihr =>
      rw [insertSorted]
      split_ifs
      · rfl
      · rw [mem_written_cons, ihr, mem_written_cons, mem_written_cons, mem_written_cons]
        exact or_left_comm

theorem perm_names_sortDirectory : t.sortDirectory.names.Perm t.names := by
  induction t with
  | nil => exact List.Perm.refl _
  | cons m d a s rest ihs ihr => exact perm_names_insertSorted.trans (ihr.cons m)

theorem mem_written_sortDirectory : l ∈ t.sortDirectory.written ↔ l ∈ t.written := by
  induction t with
  | nil => rfl
  | cons m d a s rest ihs ihr =>
      rw [sortDirectory, mem_written_insertSorted, mem_written_cons, ihr, mem_written_cons]

theorem mem_allNames_sortDirectory : n ∈ t.sortDirectory.allNames ↔ n ∈ t.allNames := by
  simp only [mem_allNames, perm_names_sortDirectory.mem_iff, mem_written_sortDirectory]

/-- An entry whose name is not there yet comes to its place. -/
theorem pairwise_insertSorted (h : t.names.Pairwise (· < ·)) (hname : name ∉ t.names) :
    (insertSorted name isDir again sub t).names.Pairwise (· < ·) := by
  induction t with
  | nil => exact List.pairwise_singleton _ _
  | cons m d a s rest ihs ihr =>
      rw [names, List.pairwise_cons] at h
      rw [names, List.mem_cons, not_or] at hname
      rw [insertSorted]
      split_ifs with hlt
      · refine List.pairwise_cons.mpr ⟨fun k hk => ?_, List.pairwise_cons.mpr h⟩
        rcases List.mem_cons.mp hk with rfl | hk
        · exact hlt
        · exact List.lt_trans hlt (h.1 k hk)
      · refine List.pairwise_cons.mpr ⟨fun k hk => ?_, ihr h.2 hname.2⟩
        rcases List.mem_cons.mp (perm_names_insertSorted.mem_iff.mp hk) with rfl | hk
        · exact (List.le_iff_lt_or_eq.mp (List.not_lt.mp hlt)).resolve_right (Ne.symm hname.1)
        · exact h.1 k hk

theorem pairwise_sortDirectory (h : t.names.Nodup) : t.sortDirectory.names.Pairwise (· < ·) := by
  induction t with
  | nil => exact List.Pairwise.nil
  | cons m d a s rest ihs ihr =>
      obtain ⟨hm, hrest⟩ := List.nodup_cons.mp h
      exact pairwise_insertSorted (ihr hrest) fun hmem => hm (perm_names_sortDirectory.mem_iff.mp hmem)

/-! ## The definitions -/

/-- A name is added by a definition. -/
def Adds (t : NameTree) (pseudo : PseudoTree) (n : Path) : Prop :=
  ∃ x ∈ pseudo.defs, x.2.type ≠ .m ∧ Makes find .nil (DirDef pseudo.defs) t x.1 ∧ x.1.getLast? = some n

variable {pseudo : PseudoTree}

/-- The level below a name has the definitions below it. -/
theorem mem_defs_find (hwf : pseudo.WellFormed) {c : Path} {e : Option PseudoDev × PseudoTree}
    (hfind : pseudo.find c = some e) {p : List Path} (hp : p ≠ []) (d : PseudoDev) :
    (c :: p, d) ∈ pseudo.defs ↔ (p, d) ∈ e.2.defs := by
  rw [PseudoTree.mem_defs_iff_find hwf rfl, hfind]
  simp only [Option.some.injEq, exists_eq_left', PseudoTree.mem_defsBelow]
  constructor
  · rintro (⟨d', -, h⟩ | ⟨y, hy, h⟩)
    · exact absurd (List.cons.inj (Prod.mk.inj h).1).2 hp
    · obtain ⟨hp, rfl⟩ := Prod.mk.inj h
      rw [(List.cons.inj hp).2]
      exact hy
  · exact fun h => Or.inr ⟨_, h, rfl⟩

theorem mem_defs_single (hwf : pseudo.WellFormed) {c : Path} {e : Option PseudoDev × PseudoTree}
    (hfind : pseudo.find c = some e) (d : PseudoDev) : ([c], d) ∈ pseudo.defs ↔ d ∈ e.1 := by
  rw [PseudoTree.mem_defs_iff_find hwf rfl, hfind]
  simp only [Option.some.injEq, exists_eq_left', PseudoTree.mem_defsBelow]
  constructor
  · rintro (⟨d', hd', h⟩ | ⟨y, hy, h⟩)
    · rw [(Prod.mk.inj h).2]
      exact hd'
    · exact absurd (List.cons.inj (Prod.mk.inj h).1).2.symm (PseudoTree.ne_nil_of_mem_defs hy)
  · exact fun h => Or.inl ⟨d, h, rfl⟩

/-- A definition adds a name to the directory itself, or below one of its names. -/
theorem adds_iff (hwf : pseudo.WellFormed) : Adds t pseudo n ↔ ∃ c e, pseudo.find c = some e ∧
    match t.find c with
    | some (isDir, again, sub) => isDir = true ∧ again = false ∧ Adds sub e.2 n
    | none => ∃ d ∈ e.1, d.type ≠ .m ∧ (n = c ∨ (d.type = .d ∧ Adds .nil e.2 n)) := by
  have hdirs : ∀ {c : Path} {e : Option PseudoDev × PseudoTree}, pseudo.find c = some e →
      ∀ {t : NameTree} {p : List Path}, Makes find .nil (fun p => DirDef pseudo.defs (c :: p)) t p ↔
        Makes find .nil (DirDef e.2.defs) t p := fun hfind => makes_congr fun p hp => by
    simp only [DirDef, mem_defs_find hwf hfind hp]
  have hlast : ∀ {c : Path} {p : List Path}, p ≠ [] → ((c :: p).getLast? = some n ↔
      p.getLast? = some n) := fun hp => by
    obtain ⟨b, p, rfl⟩ := List.exists_cons_of_ne_nil hp
    rw [List.getLast?_cons_cons]
  constructor
  · rintro ⟨⟨q, d⟩, hx, hm, hmakes, hn⟩
    obtain ⟨c, rest, hq⟩ := List.exists_cons_of_ne_nil (PseudoTree.ne_nil_of_mem_defs hx)
    obtain rfl : q = c :: rest := hq
    obtain ⟨e, hfind, -⟩ := (PseudoTree.mem_defs_iff_find hwf rfl).mp hx
    refine ⟨c, e, hfind, ?_⟩
    rw [Makes] at hmakes
    split at hmakes
    · next isDir again sub hsub =>
        obtain ⟨hdir, hagain, hmakes⟩ := hmakes
        have hne : rest ≠ [] := by
          rintro rfl
          exact hmakes
        rw [hsub]
        exact ⟨hdir, hagain, (rest, d), (mem_defs_find hwf hfind hne d).mp hx, hm,
          (hdirs hfind).mp hmakes, (hlast hne).mp hn⟩
    · next hnone =>
        rw [hnone]
        rcases eq_or_ne rest [] with rfl | hne
        · exact ⟨d, (mem_defs_single hwf hfind d).mp hx, hm, Or.inl (Option.some.inj hn).symm⟩
        · obtain ⟨⟨d', hd', htype⟩, hmakes⟩ := hmakes.resolve_left hne
          refine ⟨d', (mem_defs_single hwf hfind d').mp hd', by simp [htype], Or.inr ⟨htype, ?_⟩⟩
          exact ⟨(rest, d), (mem_defs_find hwf hfind hne d).mp hx, hm, (hdirs hfind).mp hmakes,
            (hlast hne).mp hn⟩
  · rintro ⟨c, e, hfind, h⟩
    split at h
    · next isDir again sub hsub =>
        obtain ⟨hdir, hagain, ⟨q, d⟩, hx, hm, hmakes, hn⟩ := h
        have hne := PseudoTree.ne_nil_of_mem_defs hx
        refine ⟨(c :: q, d), (mem_defs_find hwf hfind hne d).mpr hx, hm, ?_, (hlast hne).mpr hn⟩
        rw [Makes, hsub]
        exact ⟨hdir, hagain, (hdirs hfind).mpr hmakes⟩
    · next hnone =>
        obtain ⟨d, hd, hm, rfl | ⟨htype, ⟨q, d'⟩, hx, hm', hmakes, hn⟩⟩ := h
        · refine ⟨([n], d), (mem_defs_single hwf hfind d).mpr hd, hm, ?_, rfl⟩
          rw [Makes, hnone]
          exact Or.inl rfl
        · have hne := PseudoTree.ne_nil_of_mem_defs hx
          refine ⟨(c :: q, d'), (mem_defs_find hwf hfind hne d').mpr hx, hm', ?_, (hlast hne).mpr hn⟩
          rw [Makes, hnone]
          exact Or.inr ⟨⟨d, (mem_defs_single hwf hfind d).mpr hd, htype⟩, (hdirs hfind).mpr hmakes⟩

/-! ## What the scans add -/

/-- **What the definitions for a directory add to it.** -/
theorem mem_allNames_pseudoScan (hwf : pseudo.WellFormed) (dir : NameTree) :
    n ∈ (pseudoScan pseudo dir).allNames ↔ n ∈ dir.allNames ∨ ∃ c e, pseudo.find c = some e ∧
      c ∉ dir.names ∧ ∃ d ∈ e.1, d.type ≠ .m ∧
        (n = c ∨ (d.type = .d ∧ n ∈ (dirScan2 .nil e.2).allNames)) := by
  induction pseudo generalizing dir with
  | nil => simp [pseudoScan, PseudoTree.find]
  | cons c dev below rest ihb ihr =>
      obtain ⟨hfresh, -, -, -, hrest⟩ := hwf
      -- the entries of the other definitions
      have hothers : ∀ {c' e}, rest.find c' = some e → c' ≠ c := by
        rintro c' e hfind rfl
        exact hfresh (PseudoTree.mem_names_of_find hfind)
      have hsplit : ∀ P : Path → Option PseudoDev × PseudoTree → Prop,
          (∃ c' e, (PseudoTree.cons c dev below rest).find c' = some e ∧ P c' e) ↔
            P c (dev, below) ∨ ∃ c' e, rest.find c' = some e ∧ P c' e := by
        intro P
        constructor
        · rintro ⟨c', e, hfind, hP⟩
          rw [PseudoTree.find] at hfind
          split_ifs at hfind with hc
          · cases hfind
            subst hc
            exact Or.inl hP
          · exact Or.inr ⟨c', e, hfind, hP⟩
        · rintro (hP | ⟨c', e, hfind, hP⟩)
          · exact ⟨c, _, by rw [PseudoTree.find, if_pos rfl], hP⟩
          · exact ⟨c', e, by rw [PseudoTree.find, if_neg (hothers hfind).symm, hfind], hP⟩
      rw [hsplit]
      cases dev with
      | none => simp [pseudoScan, ihr hrest]
      | some d =>
          rw [pseudoScan]
          dsimp only
          by_cases hskip : d.type = .m ∨ c ∈ dir.names
          · rw [if_pos hskip, ihr hrest]
            refine or_congr_right (or_iff_right ?_).symm
            rintro ⟨hc, d', hd', hm, -⟩
            cases hd'
            exact hskip.elim hm hc
          · rw [if_neg hskip, ihr hrest, mem_allNames_addDirEntry, names_addDirEntry]
            obtain ⟨hm, hc⟩ := not_or.mp hskip
            have hsame : ∀ c' e, rest.find c' = some e → (c' ∉ dir.names ++ [c] ↔ c' ∉ dir.names) := by
              intro c' e hfind
              rw [List.mem_append, List.mem_singleton, not_or]
              exact and_iff_left (hothers hfind)
            rw [or_assoc]
            refine or_congr_right (or_congr ?_ ?_)
            · by_cases hd : d.type = .d
              · simp [hd, hc, dirScan2, subdirScan]
              · simp [hd, hc, hm]
            · refine exists_congr fun c' => exists_congr fun e => and_congr_right fun hfind => ?_
              rw [hsame c' e hfind]

theorem names_subdirScan : (subdirScan t pseudo).names = t.names := by
  induction t with
  | nil => rfl
  | cons c d a sub rest ihs ihr => rw [subdirScan, names, ihr, names]

/-- Induction over the directories below. -/
theorem findInduction {p : NameTree → Prop}
    (h : ∀ t, (∀ c isDir again sub, t.find c = some (isDir, again, sub) → p sub) → p t) (t : NameTree) :
    p t := by
  have hall : ∀ t : NameTree, ∀ c isDir again sub, t.find c = some (isDir, again, sub) → p sub := by
    intro t
    induction t with
    | nil =>
        intro c isDir again sub he
        cases he
    | cons m d a s rest ihs ihr =>
        intro c isDir again sub he
        rw [find] at he
        split_ifs at he
        · cases he
          exact h s ihs
        · exact ihr c isDir again sub he
  exact h t (hall t)

theorem Distinct.find (hdistinct : t.Distinct) {c : Path} (h : t.find c = some (isDir, again, sub)) :
    sub.Distinct := by
  induction t with
  | nil => cases h
  | cons m d a s rest ihs ihr =>
      rw [NameTree.find] at h
      split_ifs at h
      · cases h
        exact hdistinct.2.1
      · exact ihr hdistinct.2.2 h

theorem find_subdirScan (c : Path) : (subdirScan t pseudo).find c =
    (t.find c).map fun e => (e.1, e.2.1,
      if e.1 then dirScan2 e.2.2 (pseudo.pseudoSubdir c) else e.2.2) := by
  induction t with
  | nil => rfl
  | cons m d a s rest ihs ihr =>
      rw [subdirScan, find, find]
      by_cases hm : m = c
      · subst hm
        rw [if_pos rfl, if_pos rfl]
        rfl
      · rw [if_neg hm, if_neg hm, ihr]

/-- Names stay different, and the directories that are made are in order. -/
theorem pseudoScan_ordered (dir : NameTree) (hdir : dir.names.Nodup)
    (hwritten : ∀ l ∈ dir.written, l.Pairwise (· < ·)) :
    (pseudoScan pseudo dir).names.Nodup ∧ ∀ l ∈ (pseudoScan pseudo dir).written, l.Pairwise (· < ·) := by
  induction pseudo generalizing dir with
  | nil => exact ⟨hdir, hwritten⟩
  | cons c dev below rest ihb ihr =>
      cases dev with
      | none => exact ihr dir hdir hwritten
      | some d =>
          rw [pseudoScan]
          dsimp only
          by_cases hskip : d.type = .m ∨ c ∈ dir.names
          · rw [if_pos hskip]
            exact ihr dir hdir hwritten
          rw [if_neg hskip]
          obtain ⟨hnodup, hbelow⟩ := ihb .nil List.nodup_nil fun l hl => absurd hl List.not_mem_nil
          refine ihr _ ?_ fun l hl => ?_
          · rw [names_addDirEntry]
            exact (List.nodup_append.mpr ⟨hdir, List.nodup_singleton _, fun a ha b hb => by
              rintro rfl
              exact (not_or.mp hskip).2 (List.mem_singleton.mp hb ▸ ha)⟩)
          · rcases mem_written_addDirEntry.mp hl with hl | ⟨hd, hl⟩
            · exact hwritten l hl
            · rw [if_pos (by simpa using hd)] at hl
              rcases hl with hl | rfl
              · exact hbelow l (mem_written_sortDirectory.mp hl)
              · exact pairwise_sortDirectory hnodup

theorem subdirScan_ordered (hdistinct : t.Distinct) (hnames : t.names.Nodup)
    (hsub : ∀ c again sub, t.find c = some (true, again, sub) →
      ∀ l ∈ dirScan3 (dirScan2 sub (pseudo.pseudoSubdir c)), l.Pairwise (· < ·)) :
    ∀ l ∈ (subdirScan t pseudo).written, l.Pairwise (· < ·) := by
  induction t with
  | nil => exact fun l hl => absurd hl List.not_mem_nil
  | cons m d a s rest ihs ihr =>
      intro l hl
      rw [subdirScan] at hl
      rcases mem_written_cons.mp hl with ⟨hd, -, hbelow⟩ | hl
      · rw [if_pos hd] at hbelow
        subst hd
        refine hsub m a s (by rw [find, if_pos rfl]) l ?_
        rw [dirScan3, List.mem_append, List.mem_singleton]
        exact hbelow
      · refine ihr hdistinct.2.2 (List.nodup_cons.mp hnames).2 (fun c again sub hfind => ?_) l hl
        refine hsub c again sub ?_
        rw [find, if_neg, hfind]
        rintro rfl
        rw [find_eq_none_iff.mpr hdistinct.1] at hfind
        cases hfind

theorem Distinct.nodup (hdistinct : t.Distinct) : t.names.Nodup := by
  induction t with
  | nil => exact List.nodup_nil
  | cons m d a s rest ihs ihr => exact List.nodup_cons.mpr ⟨hdistinct.1, ihr hdistinct.2.2⟩

/-- **The names of every directory are strictly increasing.** -/
theorem pairwise_dirScan2 (hdistinct : t.Distinct) (pseudo : PseudoTree) :
    ∀ l ∈ dirScan3 (dirScan2 t pseudo), l.Pairwise (· < ·) := by
  induction t using findInduction generalizing pseudo with
  | h t ih =>
      have hwritten := @subdirScan_ordered t pseudo hdistinct hdistinct.nodup
        fun c again sub hfind => ih c true again sub hfind (hdistinct.find hfind) _
      obtain ⟨hnodup, hordered⟩ := @pseudoScan_ordered pseudo (subdirScan t pseudo)
        (by rw [names_subdirScan]; exact hdistinct.nodup) hwritten
      intro l hl
      rw [dirScan3, List.mem_append, List.mem_singleton] at hl
      rcases hl with hl | rfl
      · exact hordered l (mem_written_sortDirectory.mp hl)
      · exact pairwise_sortDirectory hnodup

/-- What is in the directories that are there. -/
theorem mem_allNames_subdirScan (hnames : t.names.Nodup) : n ∈ (subdirScan t pseudo).allNames ↔
    n ∈ t.names ∨ ∃ c sub, t.find c = some (true, false, sub) ∧
      n ∈ (dirScan2 sub (pseudo.pseudoSubdir c)).allNames := by
  rw [mem_allNames_iff_find (by rwa [names_subdirScan]), names_subdirScan]
  refine or_congr_right ⟨?_, ?_⟩
  · rintro ⟨c, sub, hfind, hn⟩
    rw [find_subdirScan, Option.map_eq_some_iff] at hfind
    obtain ⟨⟨d, a, s⟩, hfind, heq⟩ := hfind
    simp only [Prod.mk.injEq] at heq
    obtain ⟨rfl, rfl, rfl⟩ := heq
    exact ⟨c, s, hfind, hn⟩
  · rintro ⟨c, sub, hfind, hn⟩
    exact ⟨c, _, by rw [find_subdirScan, hfind]; rfl, hn⟩

/-- A directory that a definition makes. -/
theorem mem_allNames_dirScan2_nil (hwf : pseudo.WellFormed) (n : Path) :
    n ∈ (dirScan2 .nil pseudo).allNames ↔ Adds .nil pseudo n := by
  induction pseudo using PseudoTree.findInduction generalizing n with
  | h pseudo ih =>
      rw [dirScan2, mem_allNames_sortDirectory, mem_allNames_pseudoScan hwf, adds_iff hwf]
      simp only [subdirScan, names, find, List.not_mem_nil, not_false_eq_true, true_and]
      rw [or_iff_right (by simp [mem_allNames, names, written])]
      refine exists_congr fun c => exists_congr fun e => and_congr_right fun hfind => ?_
      rw [ih c e hfind (PseudoTree.find_wellFormed hwf hfind).2.2 n]

/-- **What is in a directory**: the names of the source files, and those that definitions add. -/
theorem mem_allNames_dirScan2 (hdistinct : t.Distinct) (hwf : pseudo.WellFormed) (n : Path) :
    n ∈ (dirScan2 t pseudo).allNames ↔ n ∈ t.allNames ∨ Adds t pseudo n := by
  induction t using findInduction generalizing pseudo n with
  | h t ih =>
      rw [dirScan2, mem_allNames_sortDirectory, mem_allNames_pseudoScan hwf,
        mem_allNames_subdirScan hdistinct.nodup, mem_allNames_iff_find hdistinct.nodup, adds_iff hwf,
        names_subdirScan]
      have hbelow : ∀ c sub, t.find c = some (true, false, sub) →
          (n ∈ (dirScan2 sub (pseudo.pseudoSubdir c)).allNames ↔
            n ∈ sub.allNames ∨ Adds sub (pseudo.pseudoSubdir c) n) := fun c sub hfind =>
        ih c true false sub hfind (hdistinct.find hfind) (hwf.pseudoSubdir c) n
      have hsubdir : ∀ {c e}, pseudo.find c = some e → pseudo.pseudoSubdir c = e.2 := by
        intro c e hfind
        rw [PseudoTree.pseudoSubdir, hfind]
        rfl
      constructor
      · rintro ((hn | ⟨c, sub, hfind, hn⟩) | ⟨c, e, hfind, hc, d, hd, hm, hn⟩)
        · exact Or.inl (Or.inl hn)
        · rcases (hbelow c sub hfind).mp hn with hn | hn
          · exact Or.inl (Or.inr ⟨c, sub, hfind, hn⟩)
          · cases he : pseudo.find c with
            | none =>
                obtain ⟨x, hx, -⟩ := hn
                rw [PseudoTree.pseudoSubdir, he] at hx
                cases hx
            | some e =>
                refine Or.inr ⟨c, e, he, ?_⟩
                rw [hfind]
                exact ⟨rfl, rfl, hsubdir he ▸ hn⟩
        · refine Or.inr ⟨c, e, hfind, ?_⟩
          rw [find_eq_none_iff.mpr hc]
          refine ⟨d, hd, hm, hn.imp_right fun hn => ⟨hn.1, ?_⟩⟩
          exact (mem_allNames_dirScan2_nil (PseudoTree.find_wellFormed hwf hfind).2.2 n).mp hn.2
      · rintro ((hn | ⟨c, sub, hfind, hn⟩) | ⟨c, e, hfind, h⟩)
        · exact Or.inl (Or.inl hn)
        · exact Or.inl (Or.inr ⟨c, sub, hfind, (hbelow c sub hfind).mpr (Or.inl hn)⟩)
        · split at h
          · next isDir again sub hsub =>
              obtain ⟨rfl, rfl, hn⟩ := h
              exact Or.inl (Or.inr ⟨c, sub, hsub,
                (hbelow c sub hsub).mpr (Or.inr (hsubdir hfind ▸ hn))⟩)
          · next hnone =>
              obtain ⟨d, hd, hm, hn⟩ := h
              refine Or.inr ⟨c, e, hfind, find_eq_none_iff.mp hnone, d, hd, hm, ?_⟩
              refine hn.imp_right fun hn => ⟨hn.1, ?_⟩
              exact (mem_allNames_dirScan2_nil (PseudoTree.find_wellFormed hwf hfind).2.2 n).mpr hn.2

end NameTree

/-! ## The names of the source files -/

namespace SourceNames

/-- The names of the files that are not left out. -/
def taken : SourceNames → List Path
  | .nil => []
  | .cons name stat excluded opened _ _ rest =>
    if TakesFile name stat excluded opened then name :: rest.taken else rest.taken

/-- What is under a name that is not left out. -/
def find (c : Path) : SourceNames → Option (Bool × Bool × SourceNames)
  | .nil => none
  | .cons name stat excluded opened again sub rest =>
    if TakesFile name stat excluded opened ∧ name = c then some (stat = some .dir, again, sub)
    else rest.find c

variable {s : SourceNames} {n : Path}

theorem names_dirScan1 : (NameTree.dirScan1 s).names = s.taken := by
  induction s with
  | nil => rfl
  | cons name stat excluded opened again sub rest ihs ihr =>
      rw [NameTree.dirScan1, taken]
      by_cases htakes : TakesFile name stat excluded opened
      · rw [if_pos htakes, if_pos htakes, NameTree.names, ihr]
      · rw [if_neg htakes, if_neg htakes, ihr]

theorem find_dirScan1 (c : Path) (s : SourceNames) : (NameTree.dirScan1 s).find c =
    (s.find c).map fun e => (e.1, e.2.1, if e.1 then NameTree.dirScan1 e.2.2 else .nil) := by
  induction s with
  | nil => rfl
  | cons name stat excluded opened again sub rest ihs ihr =>
      rw [NameTree.dirScan1, find]
      by_cases htakes : TakesFile name stat excluded opened
      · rw [if_pos htakes, NameTree.find]
        by_cases hname : name = c
        · have hboth : TakesFile name stat excluded opened ∧ name = c := ⟨htakes, hname⟩
          rw [if_pos hname, if_pos hboth]
          simp
        · rw [if_neg hname, if_neg (fun h => hname h.2), ihr]
      · rw [if_neg htakes, if_neg (fun h => htakes h.1), ihr]

theorem mem_names_of_mem_taken (h : n ∈ s.taken) : n ∈ s.names := by
  induction s with
  | nil => cases h
  | cons name stat excluded opened again sub rest ihs ihr =>
      rw [taken] at h
      split_ifs at h
      · rcases List.mem_cons.mp h with rfl | h
        · exact List.mem_cons_self
        · exact List.mem_cons_of_mem _ (ihr h)
      · exact List.mem_cons_of_mem _ (ihr h)

/-- In a directory that is read there are no two entries with one name. -/
theorem Listed.distinct (h : s.Listed) : (NameTree.dirScan1 s).Distinct := by
  induction s with
  | nil => trivial
  | cons name stat excluded opened again sub rest ihs ihr =>
      obtain ⟨-, -, -, hfresh, hsub, hrest⟩ := h
      rw [NameTree.dirScan1]
      split_ifs with htakes hdir
      · refine ⟨?_, ihs hsub, ihr hrest⟩
        rw [names_dirScan1]
        exact fun hmem => hfresh (mem_names_of_mem_taken hmem)
      · refine ⟨?_, trivial, ihr hrest⟩
        rw [names_dirScan1]
        exact fun hmem => hfresh (mem_names_of_mem_taken hmem)
      · exact ihr hrest

end SourceNames

/-! ## Names that a directory can have -/

/-- A name that a directory can have. -/
def FitName (n : Path) : Prop :=
  n ≠ [] ∧ n.length ≤ nameLen ∧ 47 ∉ n ∧ n ≠ [46] ∧ n ≠ [46, 46]

/-- The names that a directory can have, in the order that a lookup needs. -/
def FitNames (names : List Path) : Prop := (∀ n ∈ names, FitName n) ∧ names.Pairwise (· < ·)

/-- The names that the system returns fit, at any depth. -/
theorem SourceNames.Listed.fitName {s : SourceNames} (h : s.Listed) :
    ∀ n ∈ (NameTree.dirScan1 s).allNames, FitName n := by
  induction s with
  | nil => exact fun n hn => absurd hn (by simp [NameTree.dirScan1, NameTree.allNames, NameTree.names,
      NameTree.written])
  | cons name stat excluded opened again sub rest ihs ihr =>
      obtain ⟨hne, hlength, hslash, -, hsub, hrest⟩ := h
      rw [NameTree.dirScan1]
      intro n hn
      split_ifs at hn with htakes hdir
      · rcases NameTree.mem_allNames_cons.mp hn with rfl | ⟨-, -, hn⟩ | hn
        · exact ⟨hne, by rw [nameLen]; omega, hslash, htakes.1, htakes.2.1⟩
        · exact ihs hsub n hn
        · exact ihr hrest n hn
      · rcases NameTree.mem_allNames_cons.mp hn with rfl | ⟨-, -, hn⟩ | hn
        · exact ⟨hne, by rw [nameLen]; omega, hslash, htakes.1, htakes.2.1⟩
        · simp [NameTree.allNames, NameTree.names, NameTree.written] at hn
        · exact ihr hrest n hn
      · exact ihr hrest n hn

/-- The sources of the command line get different names, none of which was used. -/
theorem distinct_scan1EncompReaddir (cwd : Option Path) (used : List Path) (args : List SourceArg) :
    (NameTree.dirScan1 (scan1EncompReaddir cwd used args)).Distinct ∧
      ∀ n ∈ (NameTree.dirScan1 (scan1EncompReaddir cwd used args)).names, n ∉ used := by
  induction args generalizing used with
  | nil => exact ⟨trivial, fun n hn => absurd hn List.not_mem_nil⟩
  | cons arg args ih =>
      rw [scan1EncompReaddir]
      cases hbase : getbase cwd arg.path with
      | none => exact ih used
      | some basename =>
          dsimp only
          rw [NameTree.dirScan1]
          split_ifs with htakes hdir
          · obtain ⟨hdistinct, hfresh⟩ := ih (used ++ [unusedName used basename])
            simp only [List.mem_append, List.mem_singleton, not_or] at hfresh
            refine ⟨⟨fun hmem => (hfresh _ hmem).2 rfl, arg.sub_listed.distinct, hdistinct⟩, ?_⟩
            intro n hn
            rcases List.mem_cons.mp hn with rfl | hn
            · exact unusedName_notMem used basename
            · exact (hfresh n hn).1
          · obtain ⟨hdistinct, hfresh⟩ := ih (used ++ [unusedName used basename])
            simp only [List.mem_append, List.mem_singleton, not_or] at hfresh
            refine ⟨⟨fun hmem => (hfresh _ hmem).2 rfl, trivial, hdistinct⟩, ?_⟩
            intro n hn
            rcases List.mem_cons.mp hn with rfl | hn
            · exact unusedName_notMem used basename
            · exact (hfresh n hn).1
          · exact ih used

/-- Only the length of a name and slashes in it can be wrong with a source of the command line. -/
theorem fitName_scan1EncompReaddir {cwd : Option Path} {used : List Path} {args : List SourceArg} :
    (∀ n ∈ (NameTree.dirScan1 (scan1EncompReaddir cwd used args)).allNames, FitName n) ↔
      ∀ n ∈ (scan1EncompReaddir cwd used args).taken, n.length ≤ nameLen ∧ 47 ∉ n := by
  induction args generalizing used with
  | nil => simp [scan1EncompReaddir, NameTree.dirScan1, NameTree.allNames, NameTree.names,
      NameTree.written, SourceNames.taken]
  | cons arg args ih =>
      rw [scan1EncompReaddir]
      cases hbase : getbase cwd arg.path with
      | none => exact ih
      | some basename =>
          dsimp only
          rw [NameTree.dirScan1, SourceNames.taken]
          by_cases htakes : TakesFile (unusedName used basename) arg.stat
              (arg.excluded (unusedName used basename)) arg.opened
          · have hne : unusedName used basename ≠ [] := by
              rw [unusedName, sourceName]
              split_ifs
              · exact ne_nil_of_getbase hbase
              · simp
            have hname : FitName (unusedName used basename) ↔
                (unusedName used basename).length ≤ nameLen ∧ 47 ∉ unusedName used basename := by
              rw [FitName]
              exact ⟨fun h => ⟨h.2.1, h.2.2.1⟩, fun h => ⟨hne, h.1, h.2, htakes.1, htakes.2.1⟩⟩
            have hsub : ∀ n ∈ (if arg.stat = some .dir then NameTree.dirScan1 arg.sub
                else .nil : NameTree).allNames, FitName n := by
              intro n hn
              split_ifs at hn
              · exact arg.sub_listed.fitName n hn
              · simp [NameTree.allNames, NameTree.names, NameTree.written] at hn
            rw [if_pos htakes, if_pos htakes, if_pos htakes, List.forall_mem_cons, ← hname, ← ih]
            simp only [NameTree.mem_allNames_cons, or_imp, forall_and, forall_eq]
            exact ⟨fun h => ⟨h.1, h.2.2⟩, fun h => ⟨h.1, fun n hn => hsub n hn.2.2, h.2⟩⟩
          · rw [if_neg htakes, if_neg htakes, if_neg htakes]
            exact ih

namespace SourceFiles

theorem distinct (files : SourceFiles) : (NameTree.dirScan1 files.listing).Distinct := by
  cases files with
  | directory listing listed => exact listed.distinct
  | arguments cwd args => exact (distinct_scan1EncompReaddir cwd [] args).1

theorem fitName_iff (files : SourceFiles) :
    (∀ n ∈ (NameTree.dirScan1 files.listing).allNames, FitName n) ↔
      ∀ n ∈ files.listing.taken, n.length ≤ nameLen ∧ 47 ∉ n := by
  cases files with
  | directory listing listed =>
      refine iff_of_true listed.fitName fun n hn => ?_
      have hfit := listed.fitName n (by
        rw [NameTree.mem_allNames, SourceNames.names_dirScan1]
        exact Or.inl hn)
      exact ⟨hfit.2.1, hfit.2.2.1⟩
  | arguments cwd args => exact fitName_scan1EncompReaddir

end SourceFiles

/-! ## When all names fit -/

/-- The names that are passed to `add_dir`, directory by directory. -/
def addDirNames (files : SourceFiles) (pseudo : PseudoTree) : List (List Path) :=
  NameTree.dirScan3 (NameTree.dirScan2 (NameTree.dirScan1 files.listing) pseudo)

/-- **The names that are written fit** exactly if each source of the command line gets a name of at most
256 bytes and without a slash, and so does what a definition makes: for each definition that is filed, and
for which there is a directory to put a file in, the last name is not empty, `.` or `..`, and not too
long. -/
theorem dirNames_iff {env : PseudoEnv} {texts : List Path} {pseudo : PseudoTree}
    (h : readPseudoDefs env .nil texts = some pseudo) {parsed : List (Path × PseudoDev)}
    (hparsed : texts.mapM (parsePseudoDef env) = some parsed) (files : SourceFiles) :
    (∀ names ∈ addDirNames files pseudo, FitNames names) ↔
      (∀ name ∈ files.listing.taken, name.length ≤ nameLen ∧ 47 ∉ name) ∧
      ∀ x ∈ placedDefs parsed, x.2.type ≠ .m →
        Makes SourceNames.find .nil (DirDef (placedDefs parsed)) files.listing x.1 →
        ∀ name, x.1.getLast? = some name → FitName name := by
  obtain ⟨hwf, parsed', hparsed', hfiled⟩ := mem_defs_readPseudoDefs h
  obtain rfl : parsed' = parsed := Option.some.inj (hparsed'.symm.trans hparsed)
  have hordered := NameTree.pairwise_dirScan2 files.distinct pseudo
  have hall : (∀ names ∈ addDirNames files pseudo, FitNames names) ↔
      ∀ n ∈ (NameTree.dirScan2 (NameTree.dirScan1 files.listing) pseudo).allNames, FitName n := by
    constructor
    · intro hfit n hn
      obtain ⟨names, hnames, hmem⟩ := NameTree.mem_allNames_iff.mp hn
      exact (hfit names hnames).1 n hmem
    · intro hfit names hnames
      exact ⟨fun n hn => hfit n (NameTree.mem_allNames_iff.mpr ⟨names, hnames, hn⟩), hordered names hnames⟩
  have hmakes : ∀ p, Makes NameTree.find .nil (DirDef pseudo.defs) (NameTree.dirScan1 files.listing) p ↔
      Makes SourceNames.find .nil (DirDef (placedDefs parsed')) files.listing p := by
    intro p
    have hnil : NameTree.dirScan1 .nil = .nil := rfl
    rw [makes_map SourceNames.find_dirScan1 hnil]
    exact makes_congr fun p _ => by simp only [DirDef, hfiled]
  rw [hall, ← files.fitName_iff]
  simp only [NameTree.mem_allNames_dirScan2 files.distinct hwf, or_imp, forall_and]
  refine and_congr_right fun _ => ?_
  simp only [NameTree.Adds, hfiled, hmakes]
  constructor
  · exact fun hfit x hx hm hx' name hname => hfit name ⟨x, hx, hm, hx', hname⟩
  · rintro hfit name ⟨x, hx, hm, hx', hname⟩
    exact hfit x hx hm hx' name hname

/-! ## A definition for no name -/

/-- A system without users and groups. -/
def plainEnv : PseudoEnv := { getpwnam := fun _ => none, getgrnam := fun _ => none, execFile := fun _ => true }

/-- `x d 755 0 0` -/
def xDirectory : Path := [120, 32, 100, 32, 55, 53, 53, 32, 48, 32, 48]

/-- `/ d 755 0 0` -/
def slashDirectory : Path := [47, 32, 100, 32, 55, 53, 53, 32, 48, 32, 48]

theorem addPseudo_nil {filename name : Path} (h : targetNames filename = [name]) (dev : PseudoDev) :
    addPseudo .nil dev filename = .cons name (some dev) .nil .nil := by
  rw [addPseudo, h]
  rfl

/-- The directory `x` in an empty directory. -/
theorem dirNames_xDirectory :
    addDirNames (.directory .nil trivial) (.cons [120] (some { type := .d, mode := 0o755 }) .nil .nil) =
      [[], [[120]]] ∧
    ∀ names ∈ addDirNames (.directory .nil trivial)
      (.cons [120] (some { type := .d, mode := 0o755 }) .nil .nil), FitNames names := by
  refine ⟨rfl, ?_⟩
  have hnames : targetNames [120] = [[120]] := by
    rw [targetNames_eq]
    decide
  have hparse : parsePseudoDef plainEnv xDirectory = some ([120], { type := .d, mode := 0o755 }) := rfl
  have hread : readPseudoDefs plainEnv .nil [xDirectory] =
      some (.cons [120] (some { type := .d, mode := 0o755 }) .nil .nil) := by
    simp [readPseudoDefs, readPseudoDef, hparse, addPseudo_nil hnames]
  have hparsed : [xDirectory].mapM (parsePseudoDef plainEnv) =
      some [([120], { type := .d, mode := 0o755 })] := by
    simp [hparse]
  refine (dirNames_iff hread hparsed (.directory .nil trivial)).mpr
    ⟨fun n hn => absurd hn List.not_mem_nil, ?_⟩
  have hplaced : placedDefs [([120], { type := .d, mode := 0o755 })] = [([[120]], { type := .d, mode := 0o755 })] := by
    simp [placedDefs, place, hnames, Accepts]
  rw [hplaced]
  intro x hx _ _ name hname
  obtain rfl := List.mem_singleton.mp hx
  obtain rfl := Option.some.inj hname
  simp [FitName, nameLen]

/-- The definition `/ d 755 0 0` is accepted, and makes a directory with an empty name. -/
theorem not_fitNames_slashDirectory : ¬ ∀ (env : PseudoEnv) (texts : List Path) (pseudo : PseudoTree),
    readPseudoDefs env .nil texts = some pseudo → ∀ (files : SourceFiles),
    ∀ names ∈ addDirNames files pseudo, FitNames names := by
  intro hall
  have hnames : targetNames [47] = [[]] := by
    rw [targetNames_eq]
    decide
  have hparse : parsePseudoDef plainEnv slashDirectory = some ([47], { type := .d, mode := 0o755 }) := rfl
  have hread : readPseudoDefs plainEnv .nil [slashDirectory] =
      some (.cons [] (some { type := .d, mode := 0o755 }) .nil .nil) := by
    simp [readPseudoDefs, readPseudoDef, hparse, addPseudo_nil hnames]
  have hfit := hall _ _ _ hread (.directory .nil trivial) [[]] (List.mem_append_right _ (by
    exact List.mem_singleton_self _))
  exact (hfit.1 [] (List.mem_singleton_self _)).1 rfl

end FirmwareTools.Squashfs

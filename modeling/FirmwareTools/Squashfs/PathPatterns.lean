import Mathlib.Data.List.Perm.Basic
import Mathlib.Data.List.TakeWhile
import FirmwareTools.Squashfs.DirScan

/-! # Exclude and extract patterns

Patterns are split at slashes and merged into a tree, a level for each component: `add_path` of
`mksquashfs` and of `unsquashfs`. The walks over the directories keep the set of the levels that may go
on: `excluded` and `matches`.

* **`matches_addPath`** — a pattern that is added matches what it says, and the others what they did;
* **`excluded_iff`**, **`selected_iff`** — the walks find exactly what some pattern matches;
* **`patterns_iff`** — when this is what the patterns mean. -/

namespace FirmwareTools.Squashfs

/-! ## Matching the first components of a path -/

section

variable {π α : Type*} (m : π → α → Prop)

/-- The components of a pattern match the first components of a path. -/
def MatchesPrefix : List π → List α → Prop
  | [], _ => True
  | _ :: _, [] => False
  | p :: ps, a :: as => m p a ∧ MatchesPrefix ps as

@[simp] theorem matchesPrefix_nil (as : List α) : MatchesPrefix m [] as := trivial

@[simp] theorem matchesPrefix_cons_nil (p : π) (ps : List π) : ¬ MatchesPrefix m (p :: ps) [] := id

@[simp] theorem matchesPrefix_cons_cons (p : π) (ps : List π) (a : α) (as : List α) :
    MatchesPrefix m (p :: ps) (a :: as) ↔ m p a ∧ MatchesPrefix m ps as := Iff.rfl

/-- The longer of two patterns goes on behind the shorter one. -/
theorem matchesPrefix_append (ps qs : List π) (as : List α) :
    MatchesPrefix m (ps ++ qs) as ↔
      MatchesPrefix m ps as ∧ MatchesPrefix m qs (as.drop ps.length) := by
  induction ps generalizing as with
  | nil => simp
  | cons p ps ih =>
      cases as with
      | nil => simp
      | cons a as => simp [ih, and_assoc]

end

/-! ## Splitting a target -/

/-- `get_component`: the name that comes next, behind any slashes, and what is left of the target. -/
def getComponent (target : Path) : Path × Path :=
  let target := target.dropWhile (· == 47)
  (target.takeWhile (· != 47), target.dropWhile (· != 47))

theorem length_getComponent_lt {target : Path} (h : (getComponent target).2 ≠ []) :
    (getComponent target).2.length < target.length := by
  rw [getComponent] at h ⊢
  cases target with
  | nil => exact absurd rfl h
  | cons c target =>
      by_cases hc : c = 47
      · subst hc
        rw [List.dropWhile_cons_of_pos rfl]
        exact Nat.lt_succ_of_le (((List.dropWhile_sublist _).trans
          (List.dropWhile_sublist _)).length_le)
      · -- the name has the first character at least
        rw [List.dropWhile_cons_of_neg (by simpa using hc),
          List.dropWhile_cons_of_pos (by simpa using hc)]
        exact Nat.lt_succ_of_le (List.dropWhile_sublist _).length_le

/-- The names that a target is split into, one call of `get_component` after the other, until nothing
is left. -/
def targetNames (target : Path) : List Path :=
  if _h : (getComponent target).2 = [] then [(getComponent target).1]
  else (getComponent target).1 :: targetNames (getComponent target).2
termination_by target.length
decreasing_by exact length_getComponent_lt _h

theorem targetNames_ne_nil (target : Path) : targetNames target ≠ [] := by
  rw [targetNames]
  split
  · exact List.cons_ne_nil _ _
  · exact List.cons_ne_nil _ _

/-- The components of a target: what is between slashes and not empty. -/
def components (target : Path) : List Path := (target.splitOn 47).filter (· ≠ [])

/-- A target that is empty, or ends in a slash. -/
def EndsOpen (target : Path) : Prop := target.getLast? = none ∨ target.getLast? = some 47

instance (target : Path) : Decidable (EndsOpen target) := inferInstanceAs (Decidable (_ ∨ _))

theorem components_slash (target : Path) : components (47 :: target) = components target := by
  rw [components, ← List.nil_append (47 :: target), List.splitOn_append_cons_self,
    List.splitOn_nil]
  simp [components]

theorem components_dropWhile (target : Path) :
    components (target.dropWhile (· == 47)) = components target := by
  induction target with
  | nil => rfl
  | cons c target ih =>
      by_cases hc : c = 47
      · subst hc
        rw [List.dropWhile_cons_of_pos rfl, ih, components_slash]
      · rw [List.dropWhile_cons_of_neg (by simpa using hc)]

theorem components_name {name : Path} (hname : name ≠ []) (hslash : 47 ∉ name) :
    components name = [name] := by
  rw [components, List.splitOn_eq_singleton hslash]
  simp [hname]

theorem components_name_slash {name : Path} (hname : name ≠ []) (hslash : 47 ∉ name)
    (rest : Path) : components (name ++ 47 :: rest) = name :: components rest := by
  rw [components, List.splitOn_append_cons_self, List.filter_append,
    List.splitOn_eq_singleton hslash]
  simp [components, hname]

theorem endsOpen_dropWhile (target : Path) :
    EndsOpen (target.dropWhile (· == 47)) ↔ EndsOpen target := by
  induction target with
  | nil => rfl
  | cons c target ih =>
      by_cases hc : c = 47
      · subst hc
        rw [List.dropWhile_cons_of_pos rfl, ih, EndsOpen, EndsOpen, List.getLast?_cons]
        cases target.getLast? with
        | none => simp
        | some d => simp
      · rw [List.dropWhile_cons_of_neg (by simpa using hc)]

theorem endsOpen_append {name rest : Path} (h : rest ≠ []) :
    EndsOpen (name ++ rest) ↔ EndsOpen rest := by
  rw [EndsOpen, EndsOpen, List.getLast?_append_of_ne_nil _ h]

/-- What `get_component` splits: a name without slashes, which is not empty if something is left, and
what is left begins with a slash. -/
theorem getComponent_spec (target : Path) :
    47 ∉ (getComponent target).1 ∧
      (getComponent target).1 ++ (getComponent target).2 = target.dropWhile (· == 47) ∧
      ((getComponent target).2 = [] ∨
        (getComponent target).1 ≠ [] ∧ ∃ rest, (getComponent target).2 = 47 :: rest) := by
  simp only [getComponent]
  generalize htrimmed : target.dropWhile (· == 47) = trimmed
  refine ⟨fun h => by simpa using List.mem_takeWhile_imp h, List.takeWhile_append_dropWhile, ?_⟩
  by_cases hrest : trimmed.dropWhile (· != 47) = []
  · exact Or.inl hrest
  · refine Or.inr ⟨fun hname => ?_, ?_⟩
    · -- what is left behind the slashes begins with none
      have hwhole := List.takeWhile_append_dropWhile (p := (· != 47)) (l := trimmed)
      rw [hname, List.nil_append] at hwhole
      have hne : target.dropWhile (· == 47) ≠ [] := by rwa [htrimmed, ← hwhole]
      have hhead := List.head_dropWhile_not (· == 47) hne
      have hhead' := List.head_dropWhile_not (· != 47) hrest
      simp only [htrimmed] at hhead
      simp only [hwhole] at hhead'
      simp [bne, hhead] at hhead'
    · obtain ⟨c, rest, hcons⟩ := List.exists_cons_of_ne_nil hrest
      have hhead := List.head_dropWhile_not (· != 47) hrest
      simp only [hcons, List.head_cons, bne_eq_false_iff_eq] at hhead
      exact ⟨rest, by rw [hcons, hhead]⟩

/-- **What a target is split into**: its components, and an empty name at the end of a target that is
empty or ends in a slash. -/
theorem targetNames_eq (target : Path) :
    targetNames target = components target ++ if EndsOpen target then [[]] else [] := by
  induction target using targetNames.induct with
  | case1 target hrest =>
      obtain ⟨hslash, hwhole, -⟩ := getComponent_spec target
      rw [targetNames, dif_pos hrest, ← components_dropWhile,
        if_congr (endsOpen_dropWhile target).symm rfl rfl, ← hwhole, hrest, List.append_nil]
      by_cases hnil : (getComponent target).1 = []
      · rw [hnil]
        rfl
      · have hopen : ¬ EndsOpen (getComponent target).1 := by
          rintro (hlast | hlast)
          · exact hnil (List.getLast?_eq_none_iff.mp hlast)
          · exact hslash (List.mem_of_getLast? hlast)
        rw [components_name hnil hslash, if_neg hopen, List.append_nil]
  | case2 target hrest ih =>
      obtain ⟨hslash, hwhole, hcases⟩ := getComponent_spec target
      obtain ⟨hname, rest, hcons⟩ := hcases.resolve_left hrest
      rw [targetNames, dif_neg hrest, ih, ← components_dropWhile target,
        if_congr (endsOpen_dropWhile target).symm rfl rfl, ← hwhole,
        if_congr (endsOpen_append hrest) rfl rfl, hcons, components_name_slash hname hslash,
        components_slash, List.cons_append]

/-! ## The tree of the patterns -/

/-- The loop of `add_path` over the names of a level: the first entry with the name is replaced, or one
is added at the end. `none` says that there is no such entry. -/
def alterFirst (name : Path) (f : Option (Option Pathname) → Option Pathname) :
    List (Path × Option Pathname) → List (Path × Option Pathname)
  | [] => [(name, f none)]
  | entry :: names =>
    if entry.1 = name then (name, f (some entry.2)) :: names
    else entry :: alterFirst name f names

/-- The body of `add_path`, with the names that are still to come. -/
def addNames (paths : Option Pathname) (name : Path) : List Path → Pathname
  | [] => .mk <| alterFirst name (fun _ => none) (paths.elim [] Pathname.names)
  | next :: rest => .mk <| alterFirst name (fun
      | none => some (addNames none next rest)
      -- a pattern that ends here subsumes the one that is added
      | some none => none
      | some (some sub) => some (addNames (some sub) next rest)) (paths.elim [] Pathname.names)

/-- `add_path` -/
def addPath (paths : Option Pathname) (target : Path) : Pathname :=
  match targetNames target with
  | [] => .mk (paths.elim [] Pathname.names)
  | name :: rest => addNames paths name rest

section

variable (fnmatch : Path → Path → Bool)

/-- Some pattern in the tree matches the first components of a path. -/
def Pathname.Matches : Pathname → List Path → Prop
  | _, [] => False
  | paths, a :: as => ∃ entry ∈ paths.names, fnmatch entry.1 a = true ∧
      ∀ sub, entry.2 = some sub → sub.Matches as

variable {fnmatch}

theorem exists_mem_alterFirst_iff {p : Path × Option Pathname → Prop} {name : Path}
    {f : Option (Option Pathname) → Option Pathname} {q : Prop}
    (hnew : p (name, f none) ↔ q) (hold : ∀ sub, p (name, f (some sub)) ↔ p (name, sub) ∨ q)
    (names : List (Path × Option Pathname)) :
    (∃ entry ∈ alterFirst name f names, p entry) ↔ (∃ entry ∈ names, p entry) ∨ q := by
  induction names with
  | nil => simp [alterFirst, hnew]
  | cons entry names ih =>
      rw [alterFirst]
      split
      · next hname =>
          obtain ⟨n, sub⟩ := entry
          obtain rfl : n = name := hname
          rw [List.exists_mem_cons_iff, List.exists_mem_cons_iff, hold, or_right_comm]
      · rw [List.exists_mem_cons_iff, List.exists_mem_cons_iff, ih, or_assoc]

/-- A level that is not there matches nothing. -/
theorem matches_elim (paths : Option Pathname) (a : Path) (as : List Path) :
    (∃ entry ∈ paths.elim [] Pathname.names, fnmatch entry.1 a = true ∧
      ∀ sub, entry.2 = some sub → sub.Matches fnmatch as) ↔
      ∃ paths' ∈ paths, paths'.Matches fnmatch (a :: as) := by
  cases paths with
  | none => simp
  | some paths => simp [Pathname.Matches]

/-- **A pattern that is added** matches what its names match, and nothing else changes: what it subsumes
was matched by it, and what subsumes it goes on matching. -/
theorem matches_addNames (paths : Option Pathname) (name : Path) (rest : List Path)
    (path : List Path) :
    (addNames paths name rest).Matches fnmatch path ↔
      (∃ paths' ∈ paths, paths'.Matches fnmatch path) ∨
        MatchesPrefix (fnmatch · · = true) (name :: rest) path := by
  induction rest generalizing paths name path with
  | nil =>
      cases path with
      | nil => simp [Pathname.Matches]
      | cons a as =>
          rw [addNames, Pathname.Matches, Pathname.names, ← matches_elim]
          apply exists_mem_alterFirst_iff
          · simp
          · intro sub
            simp only [matchesPrefix_cons_cons, matchesPrefix_nil, reduceCtorEq, false_implies,
              implies_true, and_true]
            tauto
  | cons next rest ih =>
      cases path with
      | nil => simp [Pathname.Matches]
      | cons a as =>
          rw [addNames, Pathname.Matches, Pathname.names, ← matches_elim]
          apply exists_mem_alterFirst_iff
          · simp [ih]
          · intro sub
            cases sub with
            | none =>
                simp only [matchesPrefix_cons_cons, reduceCtorEq, false_implies, implies_true,
                  and_true]
                tauto
            | some sub =>
                simp only [Option.some.injEq, forall_eq', ih, matchesPrefix_cons_cons,
                  Option.mem_def, exists_eq_left']
                tauto

/-- **A pattern that is added**, split by `get_component`. -/
theorem matches_addPath (paths : Option Pathname) (target : Path) (path : List Path) :
    (addPath paths target).Matches fnmatch path ↔
      (∃ paths' ∈ paths, paths'.Matches fnmatch path) ∨
        MatchesPrefix (fnmatch · · = true) (targetNames target) path := by
  obtain ⟨name, rest, hnames⟩ := List.exists_cons_of_ne_nil (targetNames_ne_nil target)
  rw [addPath, hnames]
  exact matches_addNames paths name rest path

end

/-! ## The walks -/

/-- Extract patterns, as `main` of `unsquashfs` adds them. -/
def addPaths (targets : List Path) : Option Pathname :=
  targets.foldl (fun paths target => some (addPath paths target)) none

/-- The exclude patterns: `path` and `stickypath`. -/
structure Excludes where
  path : Option Pathname := none
  stickypath : Option Pathname := none

/-- `add_exclude`; a pattern that begins with `/`, `./` or `../` ends the program. -/
def addExclude (e : Excludes) (target : Path) : Option Excludes :=
  if [47] <+: target ∨ [46, 47] <+: target ∨ [46, 46, 47] <+: target then none
  else if [46, 46, 46, 32] <+: target then
    some { e with stickypath := addPath e.stickypath (target.drop 4) }
  else some { e with path := addPath e.path target }

/-- The exclude patterns in the order of the arguments. -/
def addExcludes (e : Excludes) : List Path → Option Excludes
  | [] => some e
  | target :: targets => (addExclude e target).bind fun e => addExcludes e targets

/-- The set of levels with which `main` of `mksquashfs` begins. -/
def Excludes.paths (e : Excludes) : Option (List Pathname) :=
  if e.path.isSome ∨ e.stickypath.isSome then some (e.path.toList ++ e.stickypath.toList) else none

section

variable (fnmatch : Path → Path → Bool)

/-- `excluded`: is a name excluded, and which patterns are left below it? `none` stands for
"nothing". -/
def excluded (stickypath : Option Pathname) (paths : Option (List Pathname)) (name : Path) :
    Bool × Option (List Pathname) :=
  match paths with
  | none => (false, none)
  | some paths =>
    let matching := (paths.flatMap Pathname.names).filter fun entry => fnmatch entry.1 name
    if matching.any fun entry => entry.2.isNone then (true, none)
    else
      let new := stickypath.toList ++ matching.filterMap Prod.snd
      if new.isEmpty then (false, none) else (false, some new)

/-- The walk of `dir_scan1` to a path: what is below an excluded directory is not looked at. -/
def excludedWalk (stickypath : Option Pathname) :
    Option (List Pathname) → List Path → Bool
  | _, [] => false
  | paths, name :: rest =>
    match excluded fnmatch stickypath paths name with
    | (true, _) => true
    | (false, new) => excludedWalk stickypath new rest

/-- The walk of `dir_scan` of `unsquashfs` to a path: what is at its end is taken, with everything
below it, if no patterns are left. -/
def selectedWalk : Option (List Pathname) → List Path → Bool
  | paths, [] => paths.isNone
  | paths, name :: rest =>
    match matchesPaths fnmatch paths name with
    | (false, _) => false
    | (true, new) => selectedWalk new rest

variable {fnmatch : Path → Path → Bool}

/-- In `dir_scan` the walk to an entry that is not a directory is `selectedWalk`. -/
theorem scanEntry_selectedWalk {env : ScanEnv}
    {dirScan : Path → ℕ → ℕ → Option (List Pathname) → List ScanEvent × Bool} {parent : Path}
    {paths : Option (List Pathname)} {entry : DirEnt} {i : Inode} (hlsonly : env.lsonly = false)
    (hfits : (joinName parent entry.name).length < pathnameSize)
    (htype : entry.type ≠ InodeType.dir.code)
    (hinode : readInode4 env.img.inodeTable entry.startBlock entry.offset = some i) :
    (scanEntry env dirScan parent paths entry).1 =
      if selectedWalk env.fnmatch paths [entry.name] then [.createInode (joinName parent entry.name) i]
      else [] := by
  rw [scanEntry, selectedWalk]
  rcases matchesPaths env.fnmatch paths entry.name with ⟨matched, new⟩
  cases matched with
  | false => simp
  | true =>
      simp only [if_neg hfits.not_ge, if_neg htype, selectedWalk, hinode, hlsonly]
      cases new with
      | none => rfl
      | some levels => rfl

/-- What the levels match is what their entries for the first name match. -/
theorem exists_matches_cons_iff (levels : List Pathname) (a : Path) (as : List Path) :
    (∃ level ∈ levels, level.Matches fnmatch (a :: as)) ↔
      ∃ entry ∈ (levels.flatMap Pathname.names).filter fun entry => fnmatch entry.1 a,
        ∀ sub, entry.2 = some sub → sub.Matches fnmatch as := by
  constructor
  · rintro ⟨level, hlevel, entry, hentry, hmatch, hsub⟩
    exact ⟨entry, List.mem_filter.mpr ⟨List.mem_flatMap.mpr ⟨level, hlevel, hentry⟩, hmatch⟩, hsub⟩
  · rintro ⟨entry, hentry, hsub⟩
    obtain ⟨hmem, hmatch⟩ := List.mem_filter.mp hentry
    obtain ⟨level, hlevel, hmem⟩ := List.mem_flatMap.mp hmem
    exact ⟨level, hlevel, entry, hmem, hmatch, hsub⟩

/-- Among entries none of which is the end of a pattern. -/
theorem exists_entry_iff {entries : List (Path × Option Pathname)}
    (hends : ¬ (entries.any fun entry => entry.2.isNone) = true) (as : List Path) :
    (∃ entry ∈ entries, ∀ sub, entry.2 = some sub → sub.Matches fnmatch as) ↔
      ∃ sub ∈ entries.filterMap Prod.snd, sub.Matches fnmatch as := by
  simp only [List.any_eq_true, Option.isNone_iff_eq_none, not_exists, not_and] at hends
  constructor
  · rintro ⟨⟨n, sub⟩, hentry, hsub⟩
    cases sub with
    | none => exact absurd rfl (hends _ hentry)
    | some sub => exact ⟨sub, List.mem_filterMap.mpr ⟨_, hentry, rfl⟩, hsub sub rfl⟩
  · rintro ⟨sub, hsub, hmatches⟩
    obtain ⟨⟨n, sub'⟩, hentry, rfl⟩ := List.mem_filterMap.mp hsub
    exact ⟨_, hentry, fun sub' h => by cases h; exact hmatches⟩

/-- The end of a pattern among the entries matches whatever comes. -/
theorem exists_entry_of_any {entries : List (Path × Option Pathname)}
    (hends : (entries.any fun entry => entry.2.isNone) = true) (as : List Path) :
    ∃ entry ∈ entries, ∀ sub, entry.2 = some sub → sub.Matches fnmatch as := by
  obtain ⟨entry, hentry, hnone⟩ := List.any_eq_true.mp hends
  exact ⟨entry, hentry, fun sub h => by rw [h] at hnone; cases hnone⟩

theorem selectedWalk_none (path : List Path) : selectedWalk fnmatch none path = true := by
  induction path with
  | nil => rfl
  | cons a as ih => exact ih

theorem excludedWalk_none (stickypath : Option Pathname) (path : List Path) :
    excludedWalk fnmatch stickypath none path = false := by
  induction path with
  | nil => rfl
  | cons a as ih => exact ih

/-- **What `unsquashfs` takes** is what the levels match. -/
theorem selectedWalk_iff (levels : List Pathname) (a : Path) (as : List Path) :
    selectedWalk fnmatch (some levels) (a :: as) = true ↔
      ∃ level ∈ levels, level.Matches fnmatch (a :: as) := by
  induction as generalizing levels a with
  | nil =>
      rw [exists_matches_cons_iff, selectedWalk, matchesPaths]
      generalize (levels.flatMap Pathname.names).filter _ = entries
      split_ifs with hends hnil
      · exact iff_of_true rfl (exists_entry_of_any hends _)
      · simp [List.isEmpty_iff.mp hnil]
      · rw [exists_entry_iff hends]
        simp [selectedWalk, Pathname.Matches]
  | cons b bs ih =>
      rw [exists_matches_cons_iff, selectedWalk, matchesPaths]
      generalize (levels.flatMap Pathname.names).filter _ = entries
      split_ifs with hends hnil
      · exact iff_of_true (selectedWalk_none _) (exists_entry_of_any hends _)
      · simp [List.isEmpty_iff.mp hnil]
      · rw [exists_entry_iff hends]
        exact ih _ b

/-- **What `mksquashfs` excludes** is what the levels match, and what the sticky patterns match from
some component further down on. -/
theorem excludedWalk_iff (stickypath : Option Pathname) (levels : List Pathname) (a : Path)
    (as : List Path) :
    excludedWalk fnmatch stickypath (some levels) (a :: as) = true ↔
      (∃ level ∈ levels, level.Matches fnmatch (a :: as)) ∨
        ∃ s, s <:+ as ∧ ∃ sticky ∈ stickypath, sticky.Matches fnmatch s := by
  induction as generalizing levels a with
  | nil =>
      rw [exists_matches_cons_iff, excludedWalk, excluded]
      dsimp only
      generalize (levels.flatMap Pathname.names).filter _ = entries
      split_ifs with hends hnil
      · exact iff_of_true rfl (Or.inl (exists_entry_of_any hends _))
      · rw [exists_entry_iff hends]
        simp [excludedWalk, Pathname.Matches]
      · rw [exists_entry_iff hends]
        simp [excludedWalk, Pathname.Matches]
  | cons b bs ih =>
      rw [exists_matches_cons_iff, excludedWalk, excluded]
      dsimp only
      generalize (levels.flatMap Pathname.names).filter _ = entries
      have hsuffix : (∃ s, s <:+ b :: bs ∧ ∃ sticky ∈ stickypath, sticky.Matches fnmatch s) ↔
          (∃ sticky ∈ stickypath, sticky.Matches fnmatch (b :: bs)) ∨
            ∃ s, s <:+ bs ∧ ∃ sticky ∈ stickypath, sticky.Matches fnmatch s := by
        simp only [List.suffix_cons_iff, or_and_right, exists_or, exists_eq_left]
      split_ifs with hends hnil
      · exact iff_of_true rfl (Or.inl (exists_entry_of_any hends _))
      · rw [exists_entry_iff hends]
        simp only [List.isEmpty_iff, List.append_eq_nil_iff, Option.toList_eq_nil_iff] at hnil
        simp [hnil, excludedWalk_none]
      · rw [exists_entry_iff hends, hsuffix]
        dsimp only
        rw [ih]
        simp only [List.mem_append, Option.mem_toList, or_and_right, exists_or]
        rw [← or_assoc, or_comm (b := ∃ sub ∈ entries.filterMap Prod.snd, _)]
        exact Iff.rfl

/-! ## Whole lists of patterns -/

/-- The tree of the extract patterns matches what one of them matches. -/
theorem matches_addPaths (targets : List Path) (path : List Path) :
    (∃ paths ∈ addPaths targets, paths.Matches fnmatch path) ↔
      ∃ target ∈ targets, MatchesPrefix (fnmatch · · = true) (targetNames target) path := by
  have hfold : ∀ paths : Option Pathname,
      (∃ paths' ∈ targets.foldl (fun paths target => some (addPath paths target)) paths,
        paths'.Matches fnmatch path) ↔
      (∃ paths' ∈ paths, paths'.Matches fnmatch path) ∨
        ∃ target ∈ targets, MatchesPrefix (fnmatch · · = true) (targetNames target) path := by
    induction targets with
    | nil => simp
    | cons target targets ih =>
        intro paths
        rw [List.foldl_cons, ih, List.exists_mem_cons_iff, ← or_assoc, ← matches_addPath]
        simp
  rw [addPaths, hfold]
  simp

/-- What is looked for in a path, or from some component of it on if the pattern is sticky. -/
def ExcludeFinds (finds : Path → List Path → Prop) (target : Path) (path : List Path) : Prop :=
  if [46, 46, 46, 32] <+: target then ∃ s, s <:+ path ∧ s ≠ [] ∧ finds (target.drop 4) s
  else finds target path

/-- The trees of the exclude patterns match what one of them matches. -/
theorem matches_addExcludes {e e' : Excludes} {targets : List Path}
    (h : addExcludes e targets = some e') (path : List Path) :
    (∃ paths ∈ e'.path, paths.Matches fnmatch path) ∨
        (∃ s, s <:+ path ∧ ∃ sticky ∈ e'.stickypath, sticky.Matches fnmatch s) ↔
      ((∃ paths ∈ e.path, paths.Matches fnmatch path) ∨
        (∃ s, s <:+ path ∧ ∃ sticky ∈ e.stickypath, sticky.Matches fnmatch s)) ∨
      ∃ target ∈ targets, ExcludeFinds
        (fun target s => MatchesPrefix (fnmatch · · = true) (targetNames target) s) target path := by
  induction targets generalizing e with
  | nil =>
      cases h
      simp
  | cons target targets ih =>
      obtain ⟨e₁, hadd, hrest⟩ := Option.bind_eq_some_iff.mp h
      rw [ih hrest, List.exists_mem_cons_iff, ← or_assoc]
      apply or_congr_left
      rw [addExclude] at hadd
      split_ifs at hadd with hrejected hsticky
      · obtain rfl := Option.some.inj hadd
        rw [ExcludeFinds, if_pos hsticky, or_assoc]
        apply or_congr_right
        simp only [Option.mem_def, Option.some.injEq, exists_eq_left', matches_addPath, ← exists_or,
          ← and_or_left]
        apply exists_congr
        intro s
        apply and_congr_right
        intro hs
        apply or_congr_right
        constructor
        · intro hmatch
          refine ⟨?_, hmatch⟩
          rintro rfl
          -- at the end of the path there is no component
          rw [targetNames] at hmatch
          split at hmatch
          · exact hmatch
          · exact hmatch
        · exact And.right
      · obtain rfl := Option.some.inj hadd
        rw [ExcludeFinds, if_neg hsticky, or_right_comm]
        apply or_congr_left
        simp only [Option.mem_def, Option.some.injEq, exists_eq_left', matches_addPath]

/-! ## What the patterns mean -/

variable (fnmatch)

/-- What a pattern means: its components match the first components of the path. -/
def Means (target : Path) (path : List Path) : Prop :=
  MatchesPrefix (fnmatch · · = true) (components target) path

/-- Nothing more is looked for behind the components of a pattern: it does not end in a slash (and is
not empty), or the empty name behind the slash matches the component that comes next. -/
def ClosedAt (target : Path) (path : List Path) : Prop :=
  EndsOpen target → ∃ a, path[(components target).length]? = some a ∧ fnmatch [] a = true

/-- `excluded` finds the path, or a directory on the way to it. -/
def Excluded (e : Excludes) (path : List Path) : Prop :=
  excludedWalk fnmatch e.stickypath e.paths path = true

/-- `matches` finds the path, or a directory on the way to it. -/
def Selected (targets : List Path) (path : List Path) : Prop :=
  selectedWalk fnmatch ((addPaths targets).map fun paths => [paths]) path = true

variable {fnmatch}

theorem matchesPrefix_targetNames (target : Path) (path : List Path) :
    MatchesPrefix (fnmatch · · = true) (targetNames target) path ↔
      Means fnmatch target path ∧ ClosedAt fnmatch target path := by
  rw [targetNames_eq, matchesPrefix_append, Means, ClosedAt]
  apply and_congr_right
  intro _
  split_ifs with hopen
  · rw [forall_prop_of_true hopen, ← List.head?_drop]
    cases path.drop (components target).length with
    | nil => simp
    | cons a as => simp
  · simp [hopen]

/-- **What is excluded**: what a pattern means whose last component is the end of it. -/
theorem excluded_iff {e : Excludes} {targets : List Path} (h : addExcludes {} targets = some e)
    (a : Path) (as : List Path) :
    Excluded fnmatch e (a :: as) ↔ ∃ target ∈ targets, ExcludeFinds
      (fun target s => Means fnmatch target s ∧ ClosedAt fnmatch target s) target (a :: as) := by
  have hadded := @matches_addExcludes fnmatch _ _ _ h (a :: as)
  simp only [Option.not_mem_none, false_and, exists_false, and_false, false_or,
    matchesPrefix_targetNames] at hadded
  rw [← hadded, Excluded, Excludes.paths]
  split_ifs with hsome
  · rw [excludedWalk_iff]
    simp only [List.mem_append, Option.mem_toList, or_and_right, exists_or, List.suffix_cons_iff,
      exists_eq_left]
    exact or_assoc
  · -- without patterns there is no set of levels
    simp only [Option.isSome_iff_ne_none, not_or, not_not] at hsome
    simp [excludedWalk_none, hsome]

/-- **What is taken**: what a pattern means whose last component is the end of it. -/
theorem selected_iff (target : Path) (targets : List Path) (a : Path) (as : List Path) :
    Selected fnmatch (target :: targets) (a :: as) ↔ ∃ target' ∈ target :: targets,
      Means fnmatch target' (a :: as) ∧ ClosedAt fnmatch target' (a :: as) := by
  have hadded := @matches_addPaths fnmatch (target :: targets) (a :: as)
  simp only [matchesPrefix_targetNames] at hadded
  rw [← hadded, Selected]
  have hsome : ∀ (targets : List Path) (paths : Pathname), ∃ paths', targets.foldl
      (fun paths target => some (addPath paths target)) (some paths) = some paths' := by
    intro targets
    induction targets with
    | nil => exact fun paths => ⟨paths, rfl⟩
    | cons target targets ih => exact fun paths => ih _
  obtain ⟨paths, hpaths⟩ := hsome targets (addPath none target)
  rw [addPaths, List.foldl_cons, hpaths, Option.map_some, selectedWalk_iff]
  simp

/-- Whether the patterns are accepted does not depend on their order. -/
theorem isSome_addExcludes_iff (e : Excludes) (targets : List Path) :
    (addExcludes e targets).isSome ↔ ∀ target ∈ targets,
      ¬ ([47] <+: target ∨ [46, 47] <+: target ∨ [46, 46, 47] <+: target) := by
  induction targets generalizing e with
  | nil => simp [addExcludes]
  | cons target targets ih =>
      rw [addExcludes, addExclude, List.forall_mem_cons]
      split_ifs with hrejected hsticky
      · simp [hrejected]
      · rw [Option.bind_some, ih]
        exact (and_iff_right hrejected).symm
      · rw [Option.bind_some, ih]
        exact (and_iff_right hrejected).symm

variable (fnmatch)

/-- **When patterns mean component-wise matching**: exactly if, whenever a pattern matches the first
components of the path, some pattern does that does not end in a slash and is not empty, or whose empty
name behind the slash matches the component of the path that comes next. In which order the patterns are
added makes no difference. -/
theorem patterns_iff {excludes : List Path} {e : Excludes} (h : addExcludes {} excludes = some e)
    (extract : Path) (extracts : List Path) (name : Path) (rest : List Path) :
    ((Excluded fnmatch e (name :: rest) ↔
        ∃ target ∈ excludes, ExcludeFinds (Means fnmatch) target (name :: rest)) ↔
      ((∃ target ∈ excludes, ExcludeFinds (Means fnmatch) target (name :: rest)) →
        ∃ target ∈ excludes, ExcludeFinds (fun target s => Means fnmatch target s ∧
          ClosedAt fnmatch target s) target (name :: rest))) ∧
    ((Selected fnmatch (extract :: extracts) (name :: rest) ↔
        ∃ target ∈ extract :: extracts, Means fnmatch target (name :: rest)) ↔
      ((∃ target ∈ extract :: extracts, Means fnmatch target (name :: rest)) →
        ∃ target ∈ extract :: extracts, Means fnmatch target (name :: rest) ∧
          ClosedAt fnmatch target (name :: rest))) ∧
    (∀ excludes' : List Path, excludes'.Perm excludes → ∃ e', addExcludes {} excludes' = some e' ∧
      (Excluded fnmatch e' (name :: rest) ↔ Excluded fnmatch e (name :: rest))) ∧
    (∀ extracts' : List Path, extracts'.Perm (extract :: extracts) →
      (Selected fnmatch extracts' (name :: rest) ↔
        Selected fnmatch (extract :: extracts) (name :: rest))) := by
  refine ⟨?_, ?_, fun excludes' hperm => ?_, fun extracts' hperm => ?_⟩
  · rw [excluded_iff h]
    constructor
    · exact fun hiff => hiff.mpr
    · refine fun himp => ⟨?_, himp⟩
      rintro ⟨target, htarget, hfinds⟩
      refine ⟨target, htarget, ?_⟩
      rw [ExcludeFinds] at hfinds ⊢
      split_ifs at hfinds ⊢ with hsticky
      · obtain ⟨s, hs, hne, hmeans, -⟩ := hfinds
        exact ⟨s, hs, hne, hmeans⟩
      · exact hfinds.1
  · rw [selected_iff]
    constructor
    · exact fun hiff => hiff.mpr
    · refine fun himp => ⟨?_, himp⟩
      rintro ⟨target, htarget, hmeans, -⟩
      exact ⟨target, htarget, hmeans⟩
  · have hsome : (addExcludes {} excludes').isSome := by
      rw [isSome_addExcludes_iff]
      intro target htarget
      exact (isSome_addExcludes_iff {} excludes).mp (by rw [h]; rfl) target
        (hperm.mem_iff.mp htarget)
    obtain ⟨e', he'⟩ := Option.isSome_iff_exists.mp hsome
    refine ⟨e', he', ?_⟩
    rw [excluded_iff he', excluded_iff h]
    simp only [hperm.mem_iff]
  · obtain ⟨extract', extracts', rfl⟩ := List.exists_cons_of_ne_nil (l := extracts') (by
      rintro rfl
      exact List.cons_ne_nil _ _ hperm.nil_eq.symm)
    rw [selected_iff, selected_iff]
    simp only [hperm.mem_iff]

/-- The pattern `a/b`, for the path `a/b/c`. -/
theorem patterns_ab :
    (Excluded (fun p a => p == a) { path := some (addPath none [97, 47, 98]) } [[97], [98], [99]] ↔
        ∃ target ∈ [[97, 47, 98]], ExcludeFinds (Means fun p a => p == a) target
          [[97], [98], [99]]) ∧
      (Selected (fun p a => p == a) [[97, 47, 98]] [[97], [98], [99]] ↔
        ∃ target ∈ [[97, 47, 98]], Means (fun p a => p == a) target [[97], [98], [99]]) := by
  have hclosed : ClosedAt (fun p a => p == a) [97, 47, 98] [[97], [98], [99]] :=
    fun hopen => absurd hopen (by decide)
  have h : addExcludes {} [[97, 47, 98]] = some { path := some (addPath none [97, 47, 98]) } := by
    simp [addExcludes, addExclude]
  obtain ⟨hexclude, hselect, -⟩ := patterns_iff (fun p a => p == a) h [97, 47, 98] [] [97] [[98], [99]]
  refine ⟨hexclude.mpr ?_, hselect.mpr ?_⟩
  · simp only [List.mem_singleton, exists_eq_left, ExcludeFinds]
    rw [if_neg (by decide), if_neg (by decide)]
    exact fun hmeans => ⟨hmeans, hclosed⟩
  · simp only [List.mem_singleton, exists_eq_left]
    exact fun hmeans => ⟨hmeans, hclosed⟩

/-- The pattern `a/` means the path `a`, and is not found there: an empty name is looked for in it. -/
theorem not_patterns_slash : ¬ ∀ (fnmatch : Path → Path → Bool) (excludes : List Path) (e : Excludes),
    addExcludes {} excludes = some e → ∀ (extract : Path) (extracts : List Path) (name : Path)
      (rest : List Path),
    (Excluded fnmatch e (name :: rest) ↔
      ∃ target ∈ excludes, ExcludeFinds (Means fnmatch) target (name :: rest)) ∧
    (Selected fnmatch (extract :: extracts) (name :: rest) ↔
      ∃ target ∈ extract :: extracts, Means fnmatch target (name :: rest)) := by
  intro hall
  have h : addExcludes {} [[97, 47]] = some { path := some (addPath none [97, 47]) } := by
    simp [addExcludes, addExclude]
  obtain ⟨hexclude, -⟩ := hall (fun p a => p == a) _ _ h [97, 47] [] [97] []
  have hmeans : Means (fun p a => p == a) [97, 47] [[97]] :=
    ⟨by decide, trivial⟩
  have hfinds : ∃ target ∈ [[97, 47]], ExcludeFinds (Means fun p a => p == a) target [[97]] := by
    refine ⟨[97, 47], List.mem_singleton_self _, ?_⟩
    rw [ExcludeFinds, if_neg (by decide)]
    exact hmeans
  obtain ⟨target, htarget, hcoded⟩ := (excluded_iff h _ _).mp (hexclude.mpr hfinds)
  obtain rfl := List.mem_singleton.mp htarget
  rw [ExcludeFinds, if_neg (by decide)] at hcoded
  obtain ⟨a, ha, -⟩ := hcoded.2 (by decide)
  exact absurd ha (by simp [show (components [97, 47]).length = 1 by decide])

end

end FirmwareTools.Squashfs

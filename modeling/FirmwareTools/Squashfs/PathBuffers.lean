import FirmwareTools.Squashfs.PseudoDefs
import FirmwareTools.Squashfs.ScanDepth

/-! # Buffers for paths and names

Strings of any length are copied to buffers of a fixed size: the pathnames that the scans of `unsquashfs`
put together, the names that `get_component` splits off, and the words that `sscanf` finds in a pseudo
file definition. Nothing compares their lengths with the sizes of the buffers.

* **`dirScanVisits_spec`**, **`preScanVisits_spec`** — how long the pathnames get;
* **`mem_addNamesRead`**, **`PseudoTree.mem_addRead`** — which names are split off;
* **`copiesFit_iff`** — when all of it stays in its buffers. -/

namespace FirmwareTools.Squashfs

/-- A string is copied: the size of the buffer, and how many bytes are written to it. -/
structure Copy where
  size : ℕ
  bytes : ℕ

/-- The copy stays in its buffer. -/
def Copy.Fits (copy : Copy) : Prop := copy.bytes ≤ copy.size

instance (copy : Copy) : Decidable copy.Fits := inferInstanceAs (Decidable (_ ≤ _))

/-- A string is copied with the NUL at its end. -/
def Copy.ofString (size : ℕ) (s : Path) : Copy := ⟨size, s.length + 1⟩

theorem Copy.fits_ofString {size : ℕ} {s : Path} : (Copy.ofString size s).Fits ↔ s.length < size := Iff.rfl

/-! ## Pathnames -/

/-- An entry that a scan comes to: the names on the way to it from the destination on, and the copy to
`pathname`. -/
abbrev Visit := List Path × Copy

section

variable {σ : Type*} (env : ScanEnv) (acts : ScanCall → DirEnt → List (Act ScanCall σ))

/-- One round of a scan, with a log of the entries that match. -/
def visitEntry (c : ScanCall) (names : List Path) (entry : DirEnt) :
    List (Act (ScanCall × List Path) (σ × List Visit)) :=
  let round := (acts c entry).map fun a => a.logged (names ++ [entry.name])
  if (matchesPaths env.fnmatch c.paths entry.name).1 then
    .log (names ++ [entry.name], .ofString pathnameSize (joinName c.parent entry.name)) :: round
  else round

variable {env acts}

/-- What is logged in a round, and with which names it calls. -/
theorem mem_visitEntry {c : ScanCall} {names : List Path} {entry : DirEnt}
    {a : Act (ScanCall × List Path) (σ × List Visit)} (h : a ∈ visitEntry env acts c names entry) :
    a = .log (names ++ [entry.name], .ofString pathnameSize (joinName c.parent entry.name)) ∨
      ∃ b ∈ acts c entry, a = b.logged (names ++ [entry.name]) := by
  rw [visitEntry] at h
  split at h
  · rcases List.mem_cons.mp h with rfl | h
    · exact Or.inl rfl
    · obtain ⟨b, hb, rfl⟩ := List.mem_map.mp h
      exact Or.inr ⟨b, hb, rfl⟩
  · obtain ⟨b, hb, rfl⟩ := List.mem_map.mp h
    exact Or.inr ⟨b, hb, rfl⟩

end

section

variable (env : ScanEnv) (inodes : ℕ) (mkdir : List ScanEvent → Path → MkdirResult)

/-- `pre_scan`, with a log. -/
def preScanVisits :
    ScanCall × List Path → Option (List (Act (ScanCall × List Path) (PreScan × List Visit)))
  | (c, names) => (opendir4 env.img c.startBlock c.offset).map fun dir =>
    dir.2.flatMap (visitEntry env (preScanEntry env inodes) c names)

/-- `dir_scan`, with a log. -/
def dirScanVisits :
    ScanCall × List Path → Option (List (Act (ScanCall × List Path) (List ScanEvent × List Visit)))
  | (c, names) => (opendir4 env.img c.startBlock c.offset).map fun (dir, entries) =>
    (pass env.lsonly (.mkdir c.parent)).logged names ::
      (Act.check fun events => env.lsonly || mkdir events c.parent == .ok ||
        env.force && mkdir events c.parent == .eexist).logged names ::
      (entries.flatMap (visitEntry env (dirScanEntry env) c names) ++
        [(pass env.lsonly (.setAttributes c.parent dir.mode dir.uid dir.gid dir.time dir.xattr)).logged
          names])

variable {env inodes mkdir}

theorem joinNames_concat (dest : Path) (names : List Path) (name : Path) :
    joinNames dest (names ++ [name]) = joinName (joinNames dest names) name := by
  rw [joinNames, List.foldl_append]
  rfl

theorem length_joinNames (dest : Path) (names : List Path) :
    (joinNames dest names).length = dest.length + (names.map fun name => name.length + 1).sum := by
  induction names generalizing dest with
  | nil => rfl
  | cons name names ih =>
      rw [joinNames, List.foldl_cons, ← joinNames, ih, joinName, List.map_cons, List.sum_cons,
        List.length_append, List.length_cons]
      omega

theorem parent_of_mem_preScanEntry {c c' : ScanCall} {entry : DirEnt}
    (h : .call c' ∈ preScanEntry env inodes c entry) : c'.parent = c.parent := by
  rw [preScanEntry] at h
  split at h
  · simp at h
  · split_ifs at h with hlong htype hnew
    · simp at h
    · rw [List.mem_singleton] at h
      cases h
      rfl
    · simp at h
    · simp at h

theorem parent_of_mem_dirScanEntry {c c' : ScanCall} {entry : DirEnt}
    (h : .call c' ∈ dirScanEntry env c entry) : c'.parent = joinName c.parent entry.name := by
  rw [dirScanEntry] at h
  split at h
  · simp at h
  · dsimp only at h
    split_ifs at h with hlong htype hnew
    · simp at h
    · simp only [pass, List.mem_cons, reduceCtorEq, false_or, List.not_mem_nil, or_false,
        Act.call.injEq] at h
      rw [h]
    · split at h
      · simp [pass] at h
      · simp at h
    · simp at h

/-- What is done to a state with a log is done to the state, or is an entry of the log. -/
theorem snd_of_logged {σ : Type*} {b : Act ScanCall σ} {names : List Path}
    {f : σ × List Visit → Option (σ × List Visit)} (h : b.logged names = .effect f)
    {s s' : σ × List Visit} (hf : f s = some s') : s'.2 = s.2 := by
  cases b with
  | call c => cases h
  | check p => cases h
  | effect g =>
      cases h
      obtain ⟨s₁, -, rfl⟩ := Option.map_eq_some_iff.mp hf
      rfl

theorem call_of_logged {σ : Type*} {b : Act ScanCall σ} {names names' : List Path} {c' : ScanCall}
    (h : (b.logged names : Act (ScanCall × List Path) (σ × List Visit)) = .call (c', names')) :
    b = .call c' ∧ names' = names := by
  cases b with
  | call c =>
      cases h
      exact ⟨rfl, rfl⟩
  | check p => cases h
  | effect g => cases h

/-- The log of a round holds copies of one kind if the entry that is put in is of the kind. -/
theorem keeps_visitEntry {σ : Type*} {acts : ScanCall → DirEnt → List (Act ScanCall σ)} {c : ScanCall}
    {names : List Path} {entry : DirEnt} {inv : ScanCall × List Path → Prop} {q : Visit → Prop}
    (hentry : q (names ++ [entry.name], .ofString pathnameSize (joinName c.parent entry.name)))
    (hcall : ∀ c', .call c' ∈ acts c entry → inv (c', names ++ [entry.name])) :
    ∀ a ∈ visitEntry env acts c names entry, (∀ c', a = .call c' → inv c') ∧
      ∀ f, a = .effect f → ∀ s s' : σ × List Visit, (∀ v ∈ s.2, q v) → f s = some s' → ∀ v ∈ s'.2, q v := by
  intro a ha
  rcases mem_visitEntry ha with rfl | ⟨b, hb, rfl⟩
  · refine ⟨fun c' h => (by cases h), ?_⟩
    intro f hf s s' hs hs' v hv
    cases hf
    obtain rfl := Option.some.inj hs'
    rcases List.mem_append.mp hv with hv | hv
    · exact hs v hv
    · obtain rfl := List.mem_singleton.mp hv
      exact hentry
  · refine ⟨fun c' h => ?_, fun f hf s s' hs hs' => ?_⟩
    · obtain ⟨c', names'⟩ := c'
      obtain ⟨rfl, rfl⟩ := call_of_logged h
      exact hcall c' hb
    · rw [snd_of_logged hf hs']
      exact hs

/-- **The pathnames of `dir_scan`** are the destination and all names on the way to the entry. -/
theorem dirScanVisits_spec (n : ℕ) (dest : Path) (startBlock offset : ℕ) (paths : Option (List Pathname)) :
    ∀ v ∈ (runCall (dirScanVisits env mkdir) n (⟨dest, startBlock, offset, paths⟩, []) ([], [])).1.2,
      v.2 = .ofString pathnameSize (joinNames dest v.1) := by
  refine runCall_keeps (fun c : ScanCall × List Path => c.1.parent = joinNames dest c.2)
    (fun s : List ScanEvent × List Visit => ∀ v ∈ s.2,
      v.2 = Copy.ofString pathnameSize (joinNames dest v.1)) ?_ n rfl (by simp)
  rintro ⟨c, names⟩ acts' hparent hbody a ha
  obtain ⟨dir, -, rfl⟩ := Option.map_eq_some_iff.mp hbody
  -- only the rounds of the loop put something in the log, and call
  have hother : ∀ b : Act ScanCall (List ScanEvent), (∀ c', b ≠ .call c') → a = b.logged names →
      (∀ c', a = .call c' → c'.1.parent = joinNames dest c'.2) ∧
        ∀ f, a = .effect f → ∀ s s' : List ScanEvent × List Visit,
          (∀ v ∈ s.2, v.2 = Copy.ofString pathnameSize (joinNames dest v.1)) → f s = some s' →
            ∀ v ∈ s'.2, v.2 = Copy.ofString pathnameSize (joinNames dest v.1) := by
    rintro b hb rfl
    refine ⟨fun c' h => ?_, fun f hf s s' hs hs' => ?_⟩
    · obtain ⟨c', names'⟩ := c'
      exact absurd (call_of_logged h).1 (hb c')
    · rw [snd_of_logged hf hs']
      exact hs
  rcases List.mem_cons.mp ha with ha | ha
  · exact hother _ (fun c' h => by cases h) ha
  rcases List.mem_cons.mp ha with ha | ha
  · exact hother _ (fun c' h => by cases h) ha
  rcases List.mem_append.mp ha with ha | ha
  · obtain ⟨entry, -, ha⟩ := List.mem_flatMap.mp ha
    refine keeps_visitEntry ?_ (fun c' hc' => ?_) a ha
    · dsimp only at hparent ⊢
      rw [joinNames_concat, hparent]
    · dsimp only at hparent ⊢
      rw [joinNames_concat, parent_of_mem_dirScanEntry hc', hparent]
  · exact hother _ (fun c' h => by cases h) (List.mem_singleton.mp ha)

/-- **The pathnames of `pre_scan`** are the destination and the last name. -/
theorem preScanVisits_spec (n : ℕ) (dest : Path) (startBlock offset : ℕ) (paths : Option (List Pathname)) :
    ∀ v ∈ (runCall (preScanVisits env inodes) n (⟨dest, startBlock, offset, paths⟩, []) ({}, [])).1.2,
      ∃ name, v.1.getLast? = some name ∧ v.2 = .ofString pathnameSize (joinName dest name) := by
  refine runCall_keeps (fun c : ScanCall × List Path => c.1.parent = dest)
    (fun s : PreScan × List Visit => ∀ v ∈ s.2, ∃ name, v.1.getLast? = some name ∧
      v.2 = Copy.ofString pathnameSize (joinName dest name)) ?_ n rfl (by simp)
  rintro ⟨c, names⟩ acts' hparent hbody a ha
  obtain ⟨dir, -, rfl⟩ := Option.map_eq_some_iff.mp hbody
  obtain ⟨entry, -, ha⟩ := List.mem_flatMap.mp ha
  dsimp only at hparent
  refine keeps_visitEntry ?_ (fun c' hc' => ?_) a ha
  · exact ⟨entry.name, by simp, by rw [hparent]⟩
  · exact (parent_of_mem_preScanEntry hc').trans hparent

end

/-! ## Names of patterns -/

/-- The size of `targname`. -/
def targnameSize : ℕ := 1024

/-- The entry of a level for a name. -/
def Pathname.find (name : Path) (paths : Option Pathname) : Option (Option Pathname) :=
  ((paths.elim [] Pathname.names).find? fun entry => entry.1 = name).map Prod.snd

/-- The names that `add_path` splits off: it comes to all of them, or to where another pattern ends. -/
def addNamesRead (paths : Option Pathname) (name : Path) : List Path → List Path
  | [] => [name]
  | next :: rest => name :: match Pathname.find name paths with
    | none => addNamesRead none next rest
    | some none => []
    | some (some sub) => addNamesRead (some sub) next rest

/-- The names that `add_path` splits off a target. -/
def addPathRead (paths : Option Pathname) (target : Path) : List Path :=
  match targetNames target with
  | [] => []
  | name :: rest => addNamesRead paths name rest

/-- The names that are split off extract patterns. -/
def addPathsRead : Option Pathname → List Path → List Path
  | _, [] => []
  | paths, target :: targets => addPathRead paths target ++ addPathsRead (some (addPath paths target)) targets

/-- The names that are split off an exclude pattern. -/
def addExcludeRead (e : Excludes) (target : Path) : List Path :=
  if [47] <+: target ∨ [46, 47] <+: target ∨ [46, 46, 47] <+: target then []
  else if [46, 46, 46, 32] <+: target then addPathRead e.stickypath (target.drop 4)
  else addPathRead e.path target

/-- The names that are split off exclude patterns. -/
def addExcludesRead (e : Excludes) : List Path → List Path
  | [] => []
  | target :: targets =>
    addExcludeRead e target ++ (addExclude e target).elim [] fun e => addExcludesRead e targets

/-- A pattern ends at these names, or above them. -/
def Covered : Option Pathname → List Path → Prop
  | _, [] => False
  | paths, name :: rest => ∃ sub, Pathname.find name paths = some sub ∧
    ∀ sub', sub = some sub' → Covered (some sub') rest

@[simp] theorem not_covered_none (names : List Path) : ¬ Covered none names := by
  cases names with
  | nil => exact id
  | cons name rest =>
      rintro ⟨sub, hfind, -⟩
      cases hfind

theorem find_alterFirst (name a : Path) (f : Option (Option Pathname) → Option Pathname)
    (paths : Option Pathname) :
    Pathname.find a (some (.mk (alterFirst name f (paths.elim [] Pathname.names)))) =
      if a = name then some (f (Pathname.find name paths)) else Pathname.find a paths := by
  rw [Pathname.find, Pathname.find, Pathname.find, Option.elim_some, Pathname.names]
  generalize paths.elim [] Pathname.names = names
  induction names with
  | nil =>
      by_cases ha : a = name
      · subst ha
        simp [alterFirst]
      · simp [alterFirst, ha, Ne.symm ha]
  | cons entry names ih =>
      rw [alterFirst]
      by_cases hentry : entry.1 = name
      · subst hentry
        by_cases ha : a = entry.1
        · subst ha
          simp
        · simp [ha, Ne.symm ha]
      · rw [if_neg hentry, List.find?_cons, List.find?_cons, List.find?_cons]
        by_cases ha : entry.1 = a
        · subst ha
          simp [hentry]
        · simp only [ha, hentry, decide_false]
          exact ih

/-- **A pattern that is added** ends at its last name. -/
theorem covered_addNames (paths : Option Pathname) (name : Path) (rest names : List Path) :
    Covered (some (addNames paths name rest)) names ↔ Covered paths names ∨ name :: rest <+: names := by
  induction rest generalizing paths name names with
  | nil =>
      cases names with
      | nil => simp [Covered]
      | cons a as =>
          rw [addNames, Covered, Covered, find_alterFirst, List.cons_prefix_cons]
          by_cases ha : a = name
          · simp [ha]
          · simp [ha, Ne.symm ha]
  | cons next rest ih =>
      cases names with
      | nil => simp [Covered]
      | cons a as =>
          rw [addNames, Covered, Covered, find_alterFirst, List.cons_prefix_cons]
          by_cases ha : a = name
          · subst ha
            rw [if_pos rfl]
            cases Pathname.find a paths with
            | none => simp [ih]
            | some sub =>
                cases sub with
                | none => simp
                | some sub => simp [ih]
          · simp [ha, Ne.symm ha]

theorem covered_addPath (paths : Option Pathname) (target : Path) (names : List Path) :
    Covered (some (addPath paths target)) names ↔ Covered paths names ∨ targetNames target <+: names := by
  obtain ⟨name, rest, hnames⟩ := List.exists_cons_of_ne_nil (targetNames_ne_nil target)
  rw [addPath, hnames]
  exact covered_addNames paths name rest names

/-- A name that a walk comes to, by the names before it. -/
theorem exists_split_cons_iff {α : Type*} {p : List α → Prop} (hnil : p []) {c a : α} {as : List α} :
    (∃ before after, a :: as = before ++ c :: after ∧ p before) ↔
      c = a ∨ ∃ before after, as = before ++ c :: after ∧ p (a :: before) := by
  constructor
  · rintro ⟨before, after, hsplit, hbefore⟩
    cases before with
    | nil => exact Or.inl (List.cons.inj hsplit).1.symm
    | cons b before =>
        rw [List.cons_append, List.cons.injEq] at hsplit
        obtain ⟨rfl, hrest⟩ := hsplit
        exact Or.inr ⟨before, after, hrest, hbefore⟩
  · rintro (rfl | ⟨before, after, rfl, hbefore⟩)
    · exact ⟨[], as, rfl, hnil⟩
    · exact ⟨a :: before, after, rfl, hbefore⟩

/-- **Which names are split off**: those with no end of a pattern on the way to them. -/
theorem mem_addNamesRead (paths : Option Pathname) (name : Path) (rest : List Path) (c : Path) :
    c ∈ addNamesRead paths name rest ↔
      ∃ before after, name :: rest = before ++ c :: after ∧ ¬ Covered paths before := by
  induction rest generalizing paths name with
  | nil =>
      rw [exists_split_cons_iff (by simp [Covered])]
      simp [addNamesRead]
  | cons next rest ih =>
      rw [exists_split_cons_iff (by simp [Covered]), addNamesRead, List.mem_cons]
      refine or_congr_right ?_
      cases hfind : Pathname.find name paths with
      | none => simp [ih, Covered, hfind]
      | some sub =>
          cases sub with
          | none => simp [Covered, hfind]
          | some sub => simp [ih, Covered, hfind]

theorem mem_addPathRead (paths : Option Pathname) (target c : Path) :
    c ∈ addPathRead paths target ↔
      ∃ before after, targetNames target = before ++ c :: after ∧ ¬ Covered paths before := by
  obtain ⟨name, rest, hnames⟩ := List.exists_cons_of_ne_nil (targetNames_ne_nil target)
  rw [addPathRead, hnames]
  exact mem_addNamesRead paths name rest c

/-- A target among others, with a property of those before it. -/
theorem exists_target_cons_iff {α : Type*} {q : List α → α → Prop} {target : α} {targets : List α} :
    (∃ earlier target' later, target :: targets = earlier ++ target' :: later ∧ q earlier target') ↔
      q [] target ∨ ∃ earlier target' later, targets = earlier ++ target' :: later ∧
        q (target :: earlier) target' := by
  constructor
  · rintro ⟨earlier, target', later, hsplit, hq⟩
    cases earlier with
    | nil =>
        rw [List.nil_append, List.cons.injEq] at hsplit
        obtain ⟨rfl, -⟩ := hsplit
        exact Or.inl hq
    | cons e earlier =>
        rw [List.cons_append, List.cons.injEq] at hsplit
        obtain ⟨rfl, hrest⟩ := hsplit
        exact Or.inr ⟨earlier, target', later, hrest, hq⟩
  · rintro (hq | ⟨earlier, target', later, rfl, hq⟩)
    · exact ⟨[], target, targets, rfl, hq⟩
    · exact ⟨target :: earlier, target', later, rfl, hq⟩

/-- A name of a target is split off: none of the targets before it ends on the way to the name. -/
def SplitOff (earlier : List Path) (target c : Path) : Prop :=
  ∃ before after, targetNames target = before ++ c :: after ∧ ∀ t ∈ earlier, ¬ targetNames t <+: before

theorem mem_addPathsRead_of (paths : Option Pathname) (targets : List Path) (c : Path) :
    c ∈ addPathsRead paths targets ↔
      ∃ earlier target later, targets = earlier ++ target :: later ∧
        ∃ before after, targetNames target = before ++ c :: after ∧ ¬ Covered paths before ∧
          ∀ t ∈ earlier, ¬ targetNames t <+: before := by
  induction targets generalizing paths with
  | nil => simp [addPathsRead]
  | cons target targets ih =>
      rw [addPathsRead, List.mem_append, ih, mem_addPathRead, exists_target_cons_iff]
      simp [covered_addPath, and_assoc]

/-- **Which names are split off** extract patterns. -/
theorem mem_addPathsRead (targets : List Path) (c : Path) :
    c ∈ addPathsRead none targets ↔
      ∃ earlier target later, targets = earlier ++ target :: later ∧ SplitOff earlier target c := by
  rw [mem_addPathsRead_of]
  simp [SplitOff]

/-- An exclude pattern that ends the program. -/
def Rejected (target : Path) : Prop := [47] <+: target ∨ [46, 47] <+: target ∨ [46, 46, 47] <+: target

/-- An exclude pattern for every directory. -/
def Sticky (target : Path) : Prop := [46, 46, 46, 32] <+: target

instance (target : Path) : Decidable (Rejected target) := inferInstanceAs (Decidable (_ ∨ _))

instance (target : Path) : Decidable (Sticky target) := inferInstanceAs (Decidable (_ <+: _))

/-- What is added for an exclude pattern. -/
def excludeTarget (target : Path) : Path := if Sticky target then target.drop 4 else target

/-- The tree that an exclude pattern is added to. -/
def Excludes.tree (e : Excludes) (target : Path) : Option Pathname :=
  if Sticky target then e.stickypath else e.path

theorem addExcludeRead_eq (e : Excludes) (target : Path) :
    addExcludeRead e target =
      if Rejected target then [] else addPathRead (e.tree target) (excludeTarget target) := by
  have heq : addExcludeRead e target = if Rejected target then []
      else if Sticky target then addPathRead e.stickypath (target.drop 4)
      else addPathRead e.path target := rfl
  rw [heq, Excludes.tree, excludeTarget]
  by_cases hsticky : Sticky target
  · simp only [if_pos hsticky]
  · simp only [if_neg hsticky]

theorem addExclude_rejected {e : Excludes} {target : Path} (h : Rejected target) :
    addExclude e target = none := if_pos h

/-- A pattern that is added changes its tree, and not the other one. -/
theorem covered_addExclude {e : Excludes} {target : Path} (h : ¬ Rejected target) :
    ∃ e', addExclude e target = some e' ∧ ∀ target' names, Covered (e'.tree target') names ↔
      Covered (e.tree target') names ∨
        (Sticky target ↔ Sticky target') ∧ targetNames (excludeTarget target) <+: names := by
  have heq : addExclude e target = if Rejected target then none
      else if Sticky target then some { e with stickypath := addPath e.stickypath (target.drop 4) }
      else some { e with path := addPath e.path target } := rfl
  rw [heq, if_neg h]
  by_cases hsticky : Sticky target
  · rw [if_pos hsticky]
    refine ⟨_, rfl, fun target' names => ?_⟩
    by_cases hsticky' : Sticky target'
    · simp [Excludes.tree, excludeTarget, hsticky, hsticky', covered_addPath]
    · simp [Excludes.tree, hsticky, hsticky']
  · rw [if_neg hsticky]
    refine ⟨_, rfl, fun target' names => ?_⟩
    by_cases hsticky' : Sticky target'
    · simp [Excludes.tree, hsticky, hsticky']
    · simp [Excludes.tree, excludeTarget, hsticky, hsticky', covered_addPath]

/-- A name of an exclude pattern is split off: no pattern up to it ends the program, and none of those
before it that go to the same tree ends on the way to the name. -/
def ExcludeSplitOff (earlier : List Path) (target c : Path) : Prop :=
  (∀ t ∈ earlier, ¬ Rejected t) ∧ ¬ Rejected target ∧
    ∃ before after, targetNames (excludeTarget target) = before ++ c :: after ∧
      ∀ t ∈ earlier, (Sticky t ↔ Sticky target) → ¬ targetNames (excludeTarget t) <+: before

theorem mem_addExcludesRead_of (e : Excludes) (targets : List Path) (c : Path) :
    c ∈ addExcludesRead e targets ↔
      ∃ earlier target later, targets = earlier ++ target :: later ∧
        ((∀ t ∈ earlier, ¬ Rejected t) ∧ ¬ Rejected target ∧
          ∃ before after, targetNames (excludeTarget target) = before ++ c :: after ∧
            ¬ Covered (e.tree target) before ∧
            ∀ t ∈ earlier, (Sticky t ↔ Sticky target) → ¬ targetNames (excludeTarget t) <+: before) := by
  induction targets generalizing e with
  | nil => simp [addExcludesRead]
  | cons target targets ih =>
      rw [addExcludesRead, List.mem_append, addExcludeRead_eq, exists_target_cons_iff]
      by_cases hrejected : Rejected target
      · simp [addExclude_rejected hrejected, hrejected]
      · obtain ⟨e', hadd, hcovered⟩ := covered_addExclude hrejected
        rw [hadd, Option.elim_some, ih e', if_neg hrejected, mem_addPathRead]
        simp [hrejected, hcovered, and_assoc]

/-- **Which names are split off** exclude patterns. -/
theorem mem_addExcludesRead (targets : List Path) (c : Path) :
    c ∈ addExcludesRead {} targets ↔
      ∃ earlier target later, targets = earlier ++ target :: later ∧ ExcludeSplitOff earlier target c := by
  rw [mem_addExcludesRead_of]
  simp [ExcludeSplitOff, Excludes.tree]

/-! ## Names and words of pseudo definitions -/

namespace PseudoTree

/-- The names that `add_pseudo` splits off: it comes to all of them, or to something that is no
directory. -/
def addRead (name : Path) : List Path → PseudoTree → List Path
  | [], _ => [name]
  | next :: rest, t => name :: match t.find name with
    | none => addRead next rest .nil
    | some (old, .nil) => if old.any fun old => old.type = .d then addRead next rest .nil else []
    | some (_, pseudo) => addRead next rest pseudo

/-- What is filed above a name makes directories. -/
def DirsAbove (defs : List PlacedDef) (names : List Path) : Prop :=
  ∀ x ∈ defs, x.1 <+: names → x.2.type = .d

theorem dirsAbove_nil (t : PseudoTree) : DirsAbove t.defs [] := fun _ hx h =>
  absurd (List.prefix_nil.mp h) (ne_nil_of_mem_defs hx)

theorem dirsAbove_cons {t : PseudoTree} (hwf : t.WellFormed) (name : Path) (names : List Path) :
    DirsAbove t.defs (name :: names) ↔ ∀ e, t.find name = some e →
      (∀ d ∈ e.1, d.type = .d) ∧ DirsAbove e.2.defs names := by
  constructor
  · intro h e he
    refine ⟨fun d hd => ?_, fun y hy hprefix => ?_⟩
    · refine h ([name], d) ?_ (List.cons_prefix_cons.mpr ⟨rfl, List.nil_prefix⟩)
      exact (mem_defs_iff_find hwf rfl).mpr ⟨e, he, mem_defsBelow.mpr (Or.inl ⟨d, hd, rfl⟩)⟩
    · refine h (name :: y.1, y.2) ?_ (List.cons_prefix_cons.mpr ⟨rfl, hprefix⟩)
      exact (mem_defs_iff_find hwf rfl).mpr ⟨e, he, mem_defsBelow.mpr (Or.inr ⟨y, hy, rfl⟩)⟩
  · intro h x hx hprefix
    obtain ⟨n, rest, hcons⟩ := List.exists_cons_of_ne_nil (ne_nil_of_mem_defs hx)
    rw [hcons, List.cons_prefix_cons] at hprefix
    obtain ⟨rfl, hrest⟩ := hprefix
    obtain ⟨e, he, hx⟩ := (mem_defs_iff_find hwf hcons).mp hx
    obtain ⟨hold, hbelow⟩ := h e he
    rcases mem_defsBelow.mp hx with ⟨d, hd, rfl⟩ | ⟨y, hy, rfl⟩
    · exact hold d hd
    · rw [List.cons.injEq] at hcons
      exact hbelow y hy (hcons.2 ▸ hrest)

/-- **Which names are split off**: those with directories above them. -/
theorem mem_addRead {t : PseudoTree} (hwf : t.WellFormed) (name : Path) (rest : List Path) (c : Path) :
    c ∈ addRead name rest t ↔
      ∃ before after, name :: rest = before ++ c :: after ∧ DirsAbove t.defs before := by
  induction rest generalizing t name with
  | nil =>
      rw [exists_split_cons_iff (dirsAbove_nil t)]
      simp [addRead]
  | cons next rest ih =>
      have hempty : ∀ names, DirsAbove PseudoTree.nil.defs names := fun names x hx => by cases hx
      have hnil : PseudoTree.nil.WellFormed := trivial
      rw [exists_split_cons_iff (dirsAbove_nil t), addRead, List.mem_cons]
      refine or_congr_right ?_
      simp only [dirsAbove_cons hwf]
      cases hfind : t.find name with
      | none =>
          rw [ih hnil]
          simp [hempty]
      | some e =>
          obtain ⟨old, pseudo⟩ := e
          obtain ⟨hleaf, hdir, hpseudo⟩ := find_wellFormed hwf hfind
          cases pseudo with
          | nil =>
              obtain ⟨old, rfl⟩ := Option.ne_none_iff_exists'.mp (hleaf rfl)
              by_cases hold : old.type = .d
              · simp [hold, ih hnil, hempty]
              · simp [hold]
          | cons n d sub more =>
              have hdirs := hdir PseudoTree.noConfusion
              rw [ih hpseudo]
              simp only [Option.some.injEq, forall_eq']
              exact exists_congr fun before => exists_congr fun after =>
                and_congr_right fun _ => ⟨fun h => ⟨hdirs, h⟩, fun h => h.2⟩

end PseudoTree

/-- The names that `add_pseudo` splits off a filename. -/
def addPseudoRead (pseudo : PseudoTree) (target : Path) : List Path :=
  match targetNames target with
  | [] => []
  | name :: rest => pseudo.addRead name rest

/-- The copies of `sscanf` in `read_pseudo_def`: `filename`, `suid` and `sgid`. -/
def scanPseudoDefCopies (text : Path) : List Copy :=
  ((scanPseudoDef text).filename.toList.map fun s => .ofString 2048 s) ++
    ((scanPseudoDef text).suid.toList.map fun s => .ofString 100 s) ++
      (scanPseudoDef text).sgid.toList.map fun s => .ofString 100 s

/-- The copies in `read_pseudo_def`, and in the calls of `get_component` behind it. -/
def readPseudoDefCopies (env : PseudoEnv) (pseudo : PseudoTree) (text : Path) : List Copy :=
  scanPseudoDefCopies text ++ (parsePseudoDef env text).elim [] fun parsed =>
    (addPseudoRead pseudo parsed.1).map fun s => .ofString targnameSize s

/-- The copies for a list of definitions. -/
def readPseudoDefsCopies (env : PseudoEnv) (pseudo : PseudoTree) : List Path → List Copy
  | [] => []
  | text :: texts =>
    readPseudoDefCopies env pseudo text ++ (readPseudoDef env pseudo text).elim [] fun pseudo =>
      readPseudoDefsCopies env pseudo texts

/-- The words of a definition are not too long: `filename`, `suid` and `sgid`. -/
def WordsFit (text : Path) : Prop :=
  (∀ s ∈ (scanPseudoDef text).filename, s.length < 2048) ∧
    (∀ s ∈ (scanPseudoDef text).suid, s.length < 100) ∧ ∀ s ∈ (scanPseudoDef text).sgid, s.length < 100

instance (text : Path) : Decidable (WordsFit text) := inferInstanceAs (Decidable (_ ∧ _))

theorem forall_mem_toList_map {α : Type*} {o : Option α} {f : α → Copy} {p : Copy → Prop} :
    (∀ copy ∈ o.toList.map f, p copy) ↔ ∀ a ∈ o, p (f a) := by
  cases o with
  | none => simp
  | some a => simp

theorem scanPseudoDefCopies_fit (text : Path) :
    (∀ copy ∈ scanPseudoDefCopies text, copy.Fits) ↔ WordsFit text := by
  simp only [scanPseudoDefCopies, List.forall_mem_append, forall_mem_toList_map, Copy.fits_ofString,
    WordsFit, and_assoc]

/-- The names of a filename are not too long, as far as they are below directories. -/
def FilenameFits (filed : List PlacedDef) (filename : Path) : Prop :=
  ∀ before name after, targetNames filename = before ++ name :: after →
    PseudoTree.DirsAbove filed before → name.length < targnameSize

theorem addPseudoRead_fit {t : PseudoTree} (hwf : t.WellFormed) {filed : List PlacedDef}
    (hfiled : ∀ x, x ∈ t.defs ↔ x ∈ filed) (filename : Path) :
    (∀ copy ∈ (addPseudoRead t filename).map fun s => Copy.ofString targnameSize s, copy.Fits) ↔
      FilenameFits filed filename := by
  obtain ⟨name, rest, hnames⟩ := List.exists_cons_of_ne_nil (targetNames_ne_nil filename)
  rw [List.forall_mem_map, addPseudoRead, hnames, FilenameFits, hnames]
  simp only [PseudoTree.mem_addRead hwf, Copy.fits_ofString, PseudoTree.DirsAbove, hfiled]
  constructor
  · rintro h before c after hsplit hdirs
    exact h c ⟨before, after, hsplit, hdirs⟩
  · rintro h c ⟨before, after, hsplit, hdirs⟩
    exact h before c after hsplit hdirs

/-- A definition's strings are not too long, where others are filed before it. -/
def DefFits (env : PseudoEnv) (filed : List PlacedDef) (text : Path) : Prop :=
  WordsFit text ∧ ∀ parsed ∈ parsePseudoDef env text, FilenameFits filed parsed.1

theorem readPseudoDefCopies_fit (env : PseudoEnv) {t : PseudoTree} (hwf : t.WellFormed)
    {filed : List PlacedDef} (hfiled : ∀ x, x ∈ t.defs ↔ x ∈ filed) (text : Path) :
    (∀ copy ∈ readPseudoDefCopies env t text, copy.Fits) ↔ DefFits env filed text := by
  rw [readPseudoDefCopies, List.forall_mem_append, scanPseudoDefCopies_fit, DefFits]
  refine and_congr_right fun _ => ?_
  cases parsePseudoDef env text with
  | none => simp
  | some parsed =>
      rw [Option.elim_some, addPseudoRead_fit hwf hfiled]
      simp

theorem readPseudoDefsCopies_fit (env : PseudoEnv) {t : PseudoTree} (hwf : t.WellFormed)
    {filed : List PlacedDef} (hfiled : ∀ x, x ∈ t.defs ↔ x ∈ filed) (texts : List Path) :
    (∀ copy ∈ readPseudoDefsCopies env t texts, copy.Fits) ↔
      ∀ earlier text later parsed, texts = earlier ++ text :: later →
        earlier.mapM (parsePseudoDef env) = some parsed → DefFits env (parsed.foldl place filed) text := by
  induction texts generalizing t filed with
  | nil => simp [readPseudoDefsCopies]
  | cons text texts ih =>
      rw [readPseudoDefsCopies, List.forall_mem_append, readPseudoDefCopies_fit env hwf hfiled]
      constructor
      · rintro ⟨htext, htexts⟩ earlier text' later parsed hsplit hparsed
        cases earlier with
        | nil =>
            rw [List.nil_append, List.cons.injEq] at hsplit
            obtain ⟨rfl, -⟩ := hsplit
            cases hparsed
            exact htext
        | cons text'' earlier =>
            rw [List.cons_append, List.cons.injEq] at hsplit
            obtain ⟨rfl, hrest⟩ := hsplit
            obtain ⟨⟨filename, dev⟩, parsed', hparse, hparsed', rfl⟩ :
                ∃ x xs, parsePseudoDef env text = some x ∧
                  earlier.mapM (parsePseudoDef env) = some xs ∧ x :: xs = parsed := by
              simpa [List.mapM_cons, Option.bind_eq_some_iff] using hparsed
            obtain ⟨hwf', hfiled'⟩ := addPseudo_spec hwf hfiled filename dev
            rw [readPseudoDef, hparse, Option.map_some, Option.elim_some] at htexts
            exact (ih hwf' hfiled').mp htexts earlier text' later parsed' hrest hparsed'
      · intro h
        refine ⟨h [] text texts [] rfl rfl, ?_⟩
        cases hparse : parsePseudoDef env text with
        | none => simp [readPseudoDef, hparse]
        | some parsed =>
            obtain ⟨filename, dev⟩ := parsed
            obtain ⟨hwf', hfiled'⟩ := addPseudo_spec hwf hfiled filename dev
            rw [readPseudoDef, hparse, Option.map_some, Option.elim_some, ih hwf' hfiled']
            intro earlier text' later parsed hsplit hparsed
            refine h (text :: earlier) text' later ((filename, dev) :: parsed) (by rw [hsplit]; rfl) ?_
            simp [List.mapM_cons, hparse, hparsed]

/-! ## All buffers -/

section

variable (env : ScanEnv) (inodes : ℕ) (mkdir : List ScanEvent → Path → MkdirResult) (n : ℕ) (dest : Path)
  (startBlock offset : ℕ) (paths : Option (List Pathname))

/-- The entries that `pre_scan` comes to, with its copies. -/
def preScanCopies : List Visit :=
  (runCall (preScanVisits env inodes) n (⟨dest, startBlock, offset, paths⟩, []) ({}, [])).1.2

/-- The entries that `dir_scan` comes to, with its copies. -/
def dirScanCopies : List Visit :=
  (runCall (dirScanVisits env mkdir) n (⟨dest, startBlock, offset, paths⟩, []) ([], [])).1.2

variable {env inodes mkdir n dest startBlock offset paths}

theorem preScanCopies_fit {v : Visit} (h : v ∈ preScanCopies env inodes n dest startBlock offset paths) :
    v.2.Fits ↔ ∀ name ∈ v.1.getLast?, dest.length + 1 + name.length < pathnameSize := by
  obtain ⟨name, hlast, hcopy⟩ := preScanVisits_spec n dest startBlock offset paths v h
  rw [hlast, hcopy, Copy.fits_ofString, joinName, List.length_append, List.length_cons]
  simp [Nat.add_comm, Nat.add_left_comm]

theorem dirScanCopies_fit {v : Visit} (h : v ∈ dirScanCopies env mkdir n dest startBlock offset paths) :
    v.2.Fits ↔ dest.length + (v.1.map fun name => name.length + 1).sum < pathnameSize := by
  rw [dirScanVisits_spec n dest startBlock offset paths v h, Copy.fits_ofString, length_joinNames]

end

/-- A definition with an owner of a hundred digits: `x d 755 000… 0`. -/
def longOwner : Path :=
  [120, 32, 100, 32, 55, 53, 53, 32] ++ List.replicate 100 48 ++ [32, 48]

/-- An environment without users and commands. -/
def bareEnv : PseudoEnv := ⟨fun _ => none, fun _ => none, fun _ => false⟩

end FirmwareTools.Squashfs

import FirmwareTools.Squashfs.PseudoDefs

/-! # Lists in files

The names to extract, the names to exclude and the pseudo file definitions are read from files, a line at a
time, by a pattern of `fscanf` that takes the line and the white space behind it. An empty line at the
beginning is never taken: nothing of it matches.

* **`fscanfLine_spec`** — what a call takes, and what it leaves;
* **`namesLoop_eq`**, **`readPseudoFile_eq`** — what the loops pass on;
* **`readPseudoFile_readPseudoDefs`** — the tree that the definitions in a file make;
* **`listFile_iff`** — which files are read completely. -/

namespace FirmwareTools.Squashfs

/-! ## The lines of a file -/

/-- `'\n'` -/
def newline : UInt8 := 10

/-- `'#'` -/
def hash : UInt8 := 35

/-- `'\\'` -/
def backslash : UInt8 := 92

def listLines (file : Path) : List Path := file.splitOn newline

def firstLine (file : Path) : Path := file.takeWhile (· ≠ newline)

/-- The lines that are not blank, up to leading white space. -/
def listNames (file : Path) : List Path := ((listLines file).map skipSpace).filter (· ≠ [])

/-- The lines that are neither blank nor comments. -/
def keptLines (file : Path) : List Path := (listNames file).filter fun l => l.head? ≠ some hash

/-- Each line that ends in a backslash is joined with the next one, if there is one. -/
def joinLines (front : Path) : List Path → List Path
  | [] => []
  | [l] => [front ++ l]
  | l :: next :: ls =>
    if l.getLast? = some backslash then joinLines (front ++ l.dropLast) (next :: ls)
    else (front ++ l) :: joinLines [] (next :: ls)

/-- The definitions in a file. -/
def definitions (file : Path) : List Path := joinLines [] (keptLines file)

/-! ## The readers -/

/-- What a call of `fscanf` returns: the end of the file, nothing, or a line and the rest of the file. -/
inductive LineScan
  | eof
  | none
  | line (text rest : Path)

/-- `fscanf(fd, "%N[^\n]\n", text)` for a width `N`. White space in the format matches any white space. -/
def fscanfLine (width : ℕ) (file : Path) : LineScan :=
  let text := (firstLine file).take width
  if text = [] then if file = [] then .eof else .none
  else .line text (skipSpace (file.drop text.length))

section

variable {σ : Type}

/-- The loop over the names in a file. Where a call returns nothing, the buffer is what it was. -/
def namesLoop (width : ℕ) (add : σ → Path → σ) : ℕ → Path → Path → σ → Option σ
  | 0, _, _, _ => none
  | fuel + 1, name, file, s =>
    match fscanfLine width file with
    | .eof => some s
    | .none => namesLoop width add fuel name file (add s name)
    | .line text rest => namesLoop width add fuel text rest (add s text)

/-- `process_extract_files` -/
def processExtractFiles (addPath : σ → Path → σ) (fuel : ℕ) (name file : Path) (path : σ) : Option σ :=
  namesLoop 16384 addPath fuel name file path

/-- The loop of `main` over an exclude file. -/
def readExcludeFile (oldExclude : Bool) (oldAddExclude addExclude : σ → Path → σ) (fuel : ℕ)
    (filename file : Path) (s : σ) : Option σ :=
  namesLoop 16384 (if oldExclude then oldAddExclude else addExclude) fuel filename file s

/-- The loops of `read_pseudo_file`: `joined` is what stands in the buffer in front of the line. The result
says whether all was accepted. -/
def pseudoLoop (readDef : σ → Path → Option σ) : ℕ → Path → Path → σ → Option (σ × Bool)
  | 0, _, _, _ => none
  | fuel + 1, joined, file, s =>
    match fscanfLine 2047 file with
    | .eof | .none => some (s, true)
    | .line text rest =>
      if text.head? = some hash then pseudoLoop readDef fuel joined rest s
      else if text.getLast? = some backslash then pseudoLoop readDef fuel (joined ++ text.dropLast) rest s
      else match readDef s (joined ++ text) with
        | some s => pseudoLoop readDef fuel [] rest s
        | none => some (s, false)

/-- `read_pseudo_file` -/
def readPseudoFile (readDef : σ → Path → Option σ) (fuel : ℕ) (file : Path) (s : σ) : Option (σ × Bool) :=
  pseudoLoop readDef fuel [] file s

/-- The definitions in turn, up to one that is not accepted. -/
def passDefs (readDef : σ → Path → Option σ) : σ → List Path → σ × Bool
  | s, [] => (s, true)
  | s, text :: texts =>
    match readDef s text with
    | some s => passDefs readDef s texts
    | none => (s, false)

end

/-! ## What a call takes -/

section

variable {file : Path} {width : ℕ}

theorem isSpace_newline : isSpace newline = true := by decide

theorem skipSpace_cons_of_space {c : UInt8} (hc : isSpace c = true) (s : Path) :
    skipSpace (c :: s) = skipSpace s := List.dropWhile_cons_of_pos hc

theorem skipSpace_cons_of_not {c : UInt8} (hc : ¬ isSpace c = true) (s : Path) :
    skipSpace (c :: s) = c :: s := List.dropWhile_cons_of_neg hc

theorem not_isSpace_of_skipSpace {c : UInt8} {s : Path} (h : skipSpace (c :: s) = c :: s) :
    ¬ isSpace c = true := by
  intro hc
  have hle := (List.dropWhile_suffix isSpace (l := s)).length_le
  rw [skipSpace_cons_of_space hc, skipSpace] at h
  rw [h, List.length_cons] at hle
  omega

@[simp] theorem skipSpace_skipSpace (s : Path) : skipSpace (skipSpace s) = skipSpace s := by
  induction s with
  | nil => rfl
  | cons c s ih =>
      by_cases hc : isSpace c = true
      · rw [skipSpace_cons_of_space hc, ih]
      · rw [skipSpace_cons_of_not hc, skipSpace_cons_of_not hc]

/-- White space in front of a file does not change its names. -/
theorem listNames_cons {c : UInt8} (hc : isSpace c = true) (t : Path) :
    listNames (c :: t) = listNames t := by
  rw [listNames, listLines, List.splitOn_cons_eq_if_modifyHead]
  split
  · rfl
  · have hne := List.splitOn_ne_nil newline t
    rw [listNames, listLines]
    cases hsplit : t.splitOn newline with
    | nil => exact absurd hsplit hne
    | cons l ls => rw [List.modifyHead_cons, List.map_cons, List.map_cons, skipSpace_cons_of_space hc]

theorem listNames_skipSpace (file : Path) : listNames (skipSpace file) = listNames file := by
  induction file with
  | nil => rfl
  | cons c t ih =>
      by_cases hc : isSpace c = true
      · rw [skipSpace_cons_of_space hc, ih, listNames_cons hc]
      · rw [skipSpace_cons_of_not hc]

theorem length_lines_cons {c : UInt8} {t : Path} (h : ∀ l ∈ listLines (c :: t), l.length ≤ width) :
    ∀ l ∈ listLines t, l.length ≤ width := by
  rw [listLines, List.splitOn_cons_eq_if_modifyHead] at h
  split at h
  · exact fun l hl => h l (List.mem_cons_of_mem _ hl)
  · rw [listLines]
    cases hsplit : t.splitOn newline with
    | nil => exact absurd hsplit (List.splitOn_ne_nil newline t)
    | cons l ls =>
        rw [hsplit, List.modifyHead_cons] at h
        intro l' hl'
        rcases List.mem_cons.mp hl' with rfl | hl'
        · exact Nat.le_of_succ_le (h (c :: l') List.mem_cons_self)
        · exact h l' (List.mem_cons_of_mem _ hl')

/-- What is left of a file has no longer lines. -/
theorem length_lines_suffix {t : Path} (ht : t <:+ file) (h : ∀ l ∈ listLines file, l.length ≤ width) :
    ∀ l ∈ listLines t, l.length ≤ width := by
  obtain ⟨s, rfl⟩ := ht
  induction s with
  | nil => exact h
  | cons c s ih => exact ih (length_lines_cons h)

theorem newline_notMem_firstLine (file : Path) : newline ∉ firstLine file := by
  intro hmem
  have := List.mem_takeWhile_imp hmem
  simp at this

/-- A file is its first line, and a newline in front of what is behind it. -/
theorem firstLine_cases (file : Path) :
    file = firstLine file ∨ ∃ t, file = firstLine file ++ newline :: t := by
  have hsplit := List.takeWhile_append_dropWhile (p := (· ≠ newline)) (l := file)
  cases hdrop : file.dropWhile (· ≠ newline) with
  | nil =>
      left
      rw [hdrop, List.append_nil] at hsplit
      exact hsplit.symm
  | cons c t =>
      right
      have hc : c = newline := by
        have := List.head?_dropWhile_not (· ≠ newline) file
        rw [hdrop] at this
        simpa using this
      rw [hdrop, hc] at hsplit
      exact ⟨t, hsplit.symm⟩

theorem listLines_eq (file : Path) :
    listLines file = [firstLine file] ∧ file = firstLine file ∨
      ∃ t, file = firstLine file ++ newline :: t ∧ listLines file = firstLine file :: listLines t := by
  rcases firstLine_cases file with hfile | ⟨t, hfile⟩
  · left
    refine ⟨?_, hfile⟩
    have hnot := newline_notMem_firstLine file
    rw [← hfile] at hnot ⊢
    exact List.splitOn_eq_singleton hnot
  · refine Or.inr ⟨t, hfile, ?_⟩
    conv_lhs => rw [hfile]
    exact List.splitOn_append_cons_self_of_not_mem (newline_notMem_firstLine file) t

/-- **A call that takes a line** leaves the names in the other lines, and no white space in front of
them. -/
theorem fscanfLine_spec (hlines : ∀ l ∈ listLines file, l.length ≤ width) (hne : firstLine file ≠ []) :
    ∃ rest, fscanfLine width file = .line (firstLine file) rest ∧ skipSpace rest = rest ∧
      rest.length < file.length ∧ (∀ l ∈ listLines rest, l.length ≤ width) ∧
      listNames file =
        (if skipSpace (firstLine file) = [] then [] else [skipSpace (firstLine file)]) ++ listNames rest := by
  have htake : (firstLine file).take width = firstLine file := by
    refine List.take_of_length_le (hlines _ ?_)
    rcases listLines_eq file with ⟨hlist, -⟩ | ⟨t, -, hlist⟩ <;> rw [hlist] <;> exact List.mem_cons_self
  have hsuffix : skipSpace (file.drop (firstLine file).length) <:+ file :=
    (List.dropWhile_suffix _).trans (List.drop_suffix _ _)
  refine ⟨skipSpace (file.drop (firstLine file).length), ?_, skipSpace_skipSpace _, ?_,
    length_lines_suffix hsuffix hlines, ?_⟩
  · rw [fscanfLine, htake, if_neg hne]
  · have hpos := List.length_pos_of_ne_nil hne
    have hle := (List.dropWhile_suffix isSpace (l := file.drop (firstLine file).length)).length_le
    have hlen : (firstLine file).length ≤ file.length := (List.takeWhile_prefix _).length_le
    rw [List.length_drop] at hle
    rw [skipSpace]
    omega
  · rw [listNames_skipSpace]
    have hnames : ∀ ls, ((firstLine file :: ls).map skipSpace).filter (· ≠ []) =
        (if skipSpace (firstLine file) = [] then [] else [skipSpace (firstLine file)]) ++
          (ls.map skipSpace).filter (· ≠ []) := by
      intro ls
      rw [List.map_cons, List.filter_cons]
      by_cases hblank : skipSpace (firstLine file) = [] <;> simp [hblank]
    rcases listLines_eq file with ⟨hlist, hfile⟩ | ⟨t, hfile, hlist⟩
    · rw [listNames, hlist, hnames []]
      have hnil : file.drop (firstLine file).length = [] := by
        exact List.drop_eq_nil_of_le (congrArg List.length hfile).le
      rw [hnil]
      rfl
    · have hdrop : file.drop (firstLine file).length = newline :: t := by
        calc file.drop (firstLine file).length
            = (firstLine file ++ newline :: t).drop (firstLine file).length := by rw [← hfile]
          _ = newline :: t := List.drop_left
      rw [hdrop, listNames_cons isSpace_newline, listNames, hlist, hnames, listNames]

/-- Nothing in front of a line but a part of it without white space. -/
theorem skipSpace_firstLine (h : skipSpace file = file) : skipSpace (firstLine file) = firstLine file := by
  cases file with
  | nil => rfl
  | cons c t =>
      have hc := not_isSpace_of_skipSpace h
      by_cases hnew : c = newline
      · exact absurd (hnew ▸ isSpace_newline) hc
      · rw [firstLine, List.takeWhile_cons_of_pos (by simpa using hnew), skipSpace_cons_of_not hc]

theorem firstLine_ne_nil (h : skipSpace file = file) (hne : file ≠ []) : firstLine file ≠ [] := by
  cases file with
  | nil => exact absurd rfl hne
  | cons c t =>
      intro hnil
      have hnew : c = newline := by
        by_contra hnew
        rw [firstLine, List.takeWhile_cons_of_pos (by simpa using hnew)] at hnil
        exact List.cons_ne_nil _ _ hnil
      exact not_isSpace_of_skipSpace h (hnew ▸ isSpace_newline)

theorem fscanfLine_nil (width : ℕ) : fscanfLine width [] = .eof := by
  rw [fscanfLine, firstLine, List.takeWhile_nil, List.take_nil, if_pos rfl, if_pos rfl]

theorem skipSpace_eq_self_of_mem {l : Path} (h : l ∈ listNames file) : skipSpace l = l ∧ l ≠ [] := by
  obtain ⟨hmem, hne⟩ := List.mem_filter.mp h
  obtain ⟨l', -, rfl⟩ := List.mem_map.mp hmem
  exact ⟨skipSpace_skipSpace l', by simpa using hne⟩

end

/-! ## The names -/

section

variable {σ : Type} {file : Path} {width : ℕ}

/-- **The loop over the names** of a file without white space at its beginning. -/
theorem namesLoop_eq (add : σ → Path → σ) (hstart : skipSpace file = file)
    (hlines : ∀ l ∈ listLines file, l.length ≤ width) {fuel : ℕ} (hfuel : file.length < fuel) (name : Path)
    (s : σ) : namesLoop width add fuel name file s = some ((listNames file).foldl add s) := by
  induction fuel generalizing file name s with
  | zero => exact absurd hfuel (Nat.not_lt_zero _)
  | succ fuel ih =>
      unfold namesLoop
      by_cases hnil : file = []
      · rw [hnil, fscanfLine_nil]
        rfl
      · have hne := firstLine_ne_nil hstart hnil
        obtain ⟨rest, hscan, hrest, hlen, hlines', hnames⟩ := fscanfLine_spec hlines hne
        rw [skipSpace_firstLine hstart, if_neg hne] at hnames
        rw [hscan, hnames]
        exact ih hrest hlines' (by omega) (firstLine file) (add s (firstLine file))

/-- The loop over the names of a file, if its first line is not empty. -/
theorem namesLoop_line (hlines : ∀ l ∈ listLines file, l.length ≤ width) (hne : firstLine file ≠ []) :
    ∃ ls, listNames file =
        (if skipSpace (firstLine file) = [] then [] else [skipSpace (firstLine file)]) ++ ls ∧
      (∀ l ∈ ls, skipSpace l = l) ∧ ∀ (σ : Type) (add : σ → Path → σ) (fuel : ℕ) (name : Path) (s : σ),
        file.length < fuel →
          namesLoop width add fuel name file s = some ((firstLine file :: ls).foldl add s) := by
  obtain ⟨rest, hscan, hrest, hlen, hlines', hnames⟩ := fscanfLine_spec hlines hne
  refine ⟨listNames rest, hnames, fun l hl => (skipSpace_eq_self_of_mem hl).1,
    fun σ add fuel name s hfuel => ?_⟩
  obtain ⟨fuel, rfl⟩ := Nat.exists_eq_succ_of_ne_zero (show fuel ≠ 0 by omega)
  unfold namesLoop
  rw [hscan]
  exact namesLoop_eq add hrest hlines' (by omega) (firstLine file) (add s (firstLine file))

/-- The loop does not come to an end on an empty line. -/
theorem namesLoop_empty (add : σ → Path → σ) (hfile : file ≠ []) (hempty : firstLine file = []) (fuel : ℕ)
    (name : Path) (s : σ) : namesLoop width add fuel name file s = none := by
  induction fuel generalizing s with
  | zero => rfl
  | succ fuel ih =>
      unfold namesLoop
      rw [fscanfLine, hempty, List.take_nil, if_pos rfl, if_neg hfile]
      exact ih (add s name)

/-- A loop that reads names ends, and adds exactly the lines that are not blank, in their order. -/
def ReadsNames (file : Path) (loop : ∀ σ : Type, (σ → Path → σ) → ℕ → Path → σ → Option σ) : Prop :=
  ∃ added : List Path, added.map skipSpace = listNames file ∧
    ∀ (σ : Type) (add : σ → Path → σ) (name : Path) (s : σ),
      ∃ bound, ∀ fuel, bound ≤ fuel → loop σ add fuel name s = some (added.foldl add s)

/-- A list that is built at its end. -/
theorem foldl_snoc (ls acc : List Path) : ls.foldl (fun ls l => ls ++ [l]) acc = acc ++ ls := by
  induction ls generalizing acc with
  | nil => exact (List.append_nil acc).symm
  | cons l ls ih => rw [List.foldl_cons, ih, List.append_assoc, List.singleton_append]

/-- **The names are read** but for a blank line at the beginning: it ends up among them, or is never
passed. -/
theorem readsNames_iff (hlines : ∀ l ∈ listLines file, l.length ≤ width) :
    (ReadsNames file fun _ add fuel name s => namesLoop width add fuel name file s) ↔
      file = [] ∨ skipSpace (firstLine file) ≠ [] := by
  constructor
  · rintro ⟨added, hadded, hloop⟩
    by_contra hnot
    obtain ⟨hfile, hblank⟩ := not_or.mp hnot
    rw [not_not] at hblank
    obtain ⟨bound, hrun⟩ := hloop (List Path) (fun ls l => ls ++ [l]) [] []
    dsimp only at hrun
    by_cases hempty : firstLine file = []
    · have hsome := hrun bound le_rfl
      rw [namesLoop_empty _ hfile hempty] at hsome
      cases hsome
    · obtain ⟨ls, hnames, -, hline⟩ := namesLoop_line hlines hempty
      have hboth := (hrun (bound + file.length + 1) (by omega)).symm.trans
        (hline _ _ (bound + file.length + 1) [] [] (by omega))
      rw [foldl_snoc, foldl_snoc, List.nil_append, List.nil_append] at hboth
      -- the blank line is one of the names that are added
      have hmem : [] ∈ listNames file := by
        rw [← hadded, Option.some.inj hboth, List.map_cons, hblank]
        exact List.mem_cons_self
      exact (skipSpace_eq_self_of_mem hmem).2 rfl
  · rintro (rfl | hne)
    · exact ⟨[], rfl, fun σ add name s => ⟨1, fun fuel hfuel => namesLoop_eq add rfl hlines hfuel name s⟩⟩
    · have hfirst : firstLine file ≠ [] := by
        intro hnil
        rw [hnil] at hne
        exact hne rfl
      obtain ⟨ls, hnames, hls, hline⟩ := namesLoop_line hlines hfirst
      refine ⟨firstLine file :: ls, ?_, fun σ add name s =>
        ⟨file.length + 1, fun fuel hfuel => hline σ add fuel name s hfuel⟩⟩
      rw [hnames, if_neg hne, List.map_cons, List.map_congr_left hls, List.map_id']
      rfl

end

/-! ## The definitions -/

/-- What `read_pseudo_file` makes of lines: a line that ends in a backslash is lost if no other follows. -/
def joinRead (front : Path) : List Path → List Path
  | [] => []
  | l :: ls =>
    if l.getLast? = some backslash then joinRead (front ++ l.dropLast) ls
    else (front ++ l) :: joinRead [] ls

section

variable {σ : Type} {readDef : σ → Path → Option σ} {file : Path} {l front w : Path} {ls : List Path}

theorem passDefs_cons (s : σ) (text : Path) (texts : List Path) :
    passDefs readDef s (text :: texts) =
      match readDef s text with
      | some s => passDefs readDef s texts
      | none => (s, false) := rfl

/-- One line of the loop. -/
theorem pseudoLoop_line {rest : Path} (hscan : fscanfLine 2047 file = .line l rest) (joined : Path)
    (fuel : ℕ) (s : σ) {texts : List Path}
    (hskip : l.head? = some hash → pseudoLoop readDef fuel joined rest s = some (passDefs readDef s texts))
    (hline : l.head? ≠ some hash → ∃ ls, texts = joinRead joined (l :: ls) ∧
      ∀ joined s, pseudoLoop readDef fuel joined rest s = some (passDefs readDef s (joinRead joined ls))) :
    pseudoLoop readDef (fuel + 1) joined file s = some (passDefs readDef s texts) := by
  unfold pseudoLoop
  rw [hscan]
  dsimp only
  by_cases hhash : l.head? = some hash
  · rw [if_pos hhash]
    exact hskip hhash
  · obtain ⟨ls, rfl, hrest⟩ := hline hhash
    rw [if_neg hhash, joinRead]
    split
    · exact hrest (joined ++ l.dropLast) s
    · rw [passDefs_cons]
      cases readDef s (joined ++ l) with
      | none => rfl
      | some s => exact hrest [] s

/-- **The loop over the definitions** of a file without white space at its beginning. -/
theorem pseudoLoop_eq (hstart : skipSpace file = file) (hlines : ∀ l ∈ listLines file, l.length ≤ 2047)
    {fuel : ℕ} (hfuel : file.length < fuel) (joined : Path) (s : σ) :
    pseudoLoop readDef fuel joined file s = some (passDefs readDef s (joinRead joined (keptLines file))) := by
  induction fuel generalizing file joined s with
  | zero => exact absurd hfuel (Nat.not_lt_zero _)
  | succ fuel ih =>
      by_cases hnil : file = []
      · unfold pseudoLoop
        rw [hnil, fscanfLine_nil]
        rfl
      · have hne := firstLine_ne_nil hstart hnil
        obtain ⟨rest, hscan, hrest, hlen, hlines', hnames⟩ := fscanfLine_spec hlines hne
        rw [skipSpace_firstLine hstart, if_neg hne] at hnames
        have hrest' := fun joined s => @ih rest hrest hlines' (by omega) joined s
        refine pseudoLoop_line hscan joined fuel s (fun hhash => ?_) fun hhash => ?_
        · rw [keptLines, hnames, List.singleton_append, List.filter_cons_of_neg (by simpa using hhash)]
          exact hrest' joined s
        · refine ⟨keptLines rest, ?_, hrest'⟩
          rw [keptLines, hnames, List.singleton_append, List.filter_cons_of_pos (by simpa using hhash)]
          rfl

/-- The first line is a comment behind white space, which the program takes for a definition. -/
def IndentedComment (file : Path) : Prop :=
  (firstLine file).head? ≠ some hash ∧ (skipSpace (firstLine file)).head? = some hash

instance (file : Path) : Decidable (IndentedComment file) := inferInstanceAs (Decidable (_ ∧ _))

/-- What `read_pseudo_file` passes on, of a file whose first line is not blank. -/
def passedDefs (file : Path) : List Path :=
  if IndentedComment file then joinRead [] (firstLine file :: keptLines file)
  else joinRead ((firstLine file).takeWhile isSpace) (keptLines file)

/-- White space in front of a line stays in front of what the line becomes. -/
theorem joinRead_cons_append (hne : l ≠ []) :
    joinRead front ((w ++ l) :: ls) = joinRead (front ++ w) (l :: ls) := by
  rw [joinRead, joinRead, List.getLast?_append_of_ne_nil _ hne, List.dropLast_append_of_ne_nil hne,
    List.append_assoc, List.append_assoc]

/-- **`read_pseudo_file`** passes the definitions on, one after the other. -/
theorem readPseudoFile_eq (hlines : ∀ l ∈ listLines file, l.length ≤ 2047)
    (hblank : skipSpace (firstLine file) ≠ []) {fuel : ℕ} (hfuel : file.length < fuel) (s : σ) :
    readPseudoFile readDef fuel file s = some (passDefs readDef s (passedDefs file)) := by
  have hne : firstLine file ≠ [] := by
    intro hnil
    rw [hnil] at hblank
    exact hblank rfl
  obtain ⟨rest, hscan, hrest, hlen, hlines', hnames⟩ := fscanfLine_spec hlines hne
  rw [if_neg hblank] at hnames
  obtain ⟨fuel, rfl⟩ := Nat.exists_eq_succ_of_ne_zero (show fuel ≠ 0 by omega)
  have hrest' := fun joined s => @pseudoLoop_eq σ readDef rest hrest hlines' fuel (by omega) joined s
  have hsplit : (firstLine file).takeWhile isSpace ++ skipSpace (firstLine file) = firstLine file :=
    List.takeWhile_append_dropWhile
  refine pseudoLoop_line hscan [] fuel s (fun hhash => ?_) fun hhash => ?_
  · obtain ⟨t, hfirst⟩ : ∃ t, firstLine file = hash :: t := by
      obtain ⟨c, t, hcons⟩ := List.exists_cons_of_ne_nil hne
      rw [hcons, List.head?_cons, Option.some_inj] at hhash
      exact ⟨t, by rw [hcons, hhash]⟩
    rw [passedDefs, if_neg fun hcomment => hcomment.1 hhash, keptLines, hnames, List.singleton_append, hfirst,
      skipSpace_cons_of_not (by decide), List.filter_cons_of_neg (by simp), List.takeWhile_cons_of_neg (by decide)]
    exact hrest' [] s
  · refine ⟨keptLines rest, ?_, hrest'⟩
    rw [passedDefs]
    split
    · rename_i hcomment
      rw [keptLines, hnames, List.singleton_append, List.filter_cons_of_neg (by simpa using hcomment.2)]
      rfl
    · rename_i hcomment
      have hkept : (skipSpace (firstLine file)).head? ≠ some hash := fun h => hcomment ⟨hhash, h⟩
      rw [keptLines, hnames, List.singleton_append, List.filter_cons_of_pos (by simpa using hkept)]
      conv_rhs => rw [← hsplit]
      rw [joinRead_cons_append hblank, List.nil_append]
      rfl

/-! ### What is passed on, and what is not -/

theorem skipSpace_append {s t : Path} (hs : skipSpace s = s) (ht : skipSpace t = t) :
    skipSpace (s ++ t) = s ++ t := by
  cases s with
  | nil => exact ht
  | cons c s => exact skipSpace_cons_of_not (not_isSpace_of_skipSpace hs) _

theorem skipSpace_dropLast (h : skipSpace l = l) : skipSpace l.dropLast = l.dropLast := by
  match l with
  | [] => rfl
  | [c] => rfl
  | c :: d :: t => exact skipSpace_cons_of_not (not_isSpace_of_skipSpace h) _

/-- White space in front of the first line is all that is passed on with the definitions. -/
theorem map_skipSpace_joinRead (hls : ∀ l ∈ ls, skipSpace l = l) (hfront : skipSpace front = front)
    (hw : ∀ c ∈ w, isSpace c = true) : (joinRead (w ++ front) ls).map skipSpace = joinRead front ls := by
  induction ls generalizing w front with
  | nil => rfl
  | cons l ls ih =>
      have hl := hls l List.mem_cons_self
      have ih' := fun w front => @ih front w fun l hl => hls l (List.mem_cons_of_mem _ hl)
      rw [joinRead, joinRead]
      split
      · rw [List.append_assoc]
        exact ih' w _ (skipSpace_append hfront (skipSpace_dropLast hl)) hw
      · rw [List.map_cons, List.append_assoc, skipSpace, List.dropWhile_append_of_pos hw]
        exact congrArg₂ _ (skipSpace_append hfront hl)
          (ih' [] [] rfl fun c hc => absurd hc List.not_mem_nil)

/-- Without a backslash at the end, no line is lost. -/
theorem joinLines_eq_joinRead (h : ∀ l ∈ ls.getLast?, l.getLast? ≠ some backslash) :
    joinLines front ls = joinRead front ls := by
  induction ls generalizing front with
  | nil => rfl
  | cons l ls ih =>
      cases ls with
      | nil => rw [joinLines, joinRead, if_neg (h l rfl), joinRead]
      | cons next ls =>
          rw [List.getLast?_cons_cons] at h
          rw [joinLines, joinRead]
          split
          · exact ih h
          · rw [ih h]

/-- With one, what the last lines are joined to is lost. -/
theorem length_joinLines (h : ∃ l ∈ ls.getLast?, l.getLast? = some backslash) :
    (joinLines front ls).length = (joinRead front ls).length + 1 := by
  induction ls generalizing front with
  | nil =>
      obtain ⟨l, hl, -⟩ := h
      cases hl
  | cons l ls ih =>
      cases ls with
      | nil =>
          obtain ⟨l', hl', hends⟩ := h
          obtain rfl : l = l' := Option.some.inj hl'
          rw [joinLines, joinRead, if_pos hends]
          rfl
      | cons next ls =>
          rw [List.getLast?_cons_cons] at h
          rw [joinLines, joinRead]
          split
          · exact ih h
          · rw [List.length_cons, List.length_cons, ih h]

/-- A first definition begins as its first line. -/
theorem head_joinRead {c : UInt8} (hfront : front.head? = some c) {x : Path}
    (hx : x ∈ (joinRead front ls).head?) : x.head? = some c := by
  induction ls generalizing front with
  | nil => cases hx
  | cons l ls ih =>
      rw [joinRead] at hx
      split at hx
      · refine ih ?_ hx
        rw [List.head?_append, hfront]
        rfl
      · rw [List.head?_cons, Option.mem_some_iff] at hx
        rw [← hx, List.head?_append, hfront]
        rfl

theorem head_joinRead_comment (hl : l.head? = some hash) {x : Path}
    (hx : x ∈ (joinRead [] (l :: ls)).head?) : x.head? = some hash := by
  rw [joinRead] at hx
  split at hx
  · rename_i hends
    refine head_joinRead ?_ hx
    match l with
    | [c] =>
        rw [List.head?_cons] at hl
        rw [List.getLast?_singleton, hl] at hends
        exact absurd hends (by decide)
    | c :: d :: t => exact hl
  · rw [List.head?_cons, Option.mem_some_iff] at hx
    exact hx ▸ hl

/-- No definition begins as a comment. -/
theorem head_joinLines (hls : ∀ l ∈ ls, l ≠ [] ∧ l.head? ≠ some hash) (hfront : front.head? ≠ some hash)
    {x : Path} (hx : x ∈ (joinLines front ls).head?) : x.head? ≠ some hash := by
  have happend : ∀ {s t : Path}, s.head? ≠ some hash → t.head? ≠ some hash → (s ++ t).head? ≠ some hash := by
    intro s t hs ht
    cases s with
    | nil => exact ht
    | cons c s => exact hs
  have hdrop : ∀ {s : Path}, s.head? ≠ some hash → s.dropLast.head? ≠ some hash := by
    intro s hs
    match s with
    | [] => exact hs
    | [c] => exact nofun
    | c :: d :: s => exact hs
  induction ls generalizing front with
  | nil => cases hx
  | cons l ls ih =>
      have hl := hls l List.mem_cons_self
      cases ls with
      | nil =>
          rw [joinLines, List.head?_cons, Option.mem_some_iff] at hx
          exact hx ▸ happend hfront hl.2
      | cons next ls =>
          rw [joinLines] at hx
          split at hx
          · exact ih (fun l hl => hls l (List.mem_cons_of_mem _ hl)) (happend hfront (hdrop hl.2)) hx
          · rw [List.head?_cons, Option.mem_some_iff] at hx
            exact hx ▸ happend hfront hl.2

theorem joinLines_ne_nil (hls : ls ≠ []) : joinLines front ls ≠ [] := by
  induction ls generalizing front with
  | nil => exact absurd rfl hls
  | cons l ls ih =>
      cases ls with
      | nil => exact List.cons_ne_nil _ _
      | cons next ls =>
          rw [joinLines]
          split
          · exact ih (List.cons_ne_nil _ _)
          · exact List.cons_ne_nil _ _

theorem mem_keptLines (h : l ∈ keptLines file) : skipSpace l = l ∧ l ≠ [] ∧ l.head? ≠ some hash := by
  obtain ⟨hmem, hhash⟩ := List.mem_filter.mp h
  exact ⟨(skipSpace_eq_self_of_mem hmem).1, (skipSpace_eq_self_of_mem hmem).2, by simpa using hhash⟩

/-- **What is passed on are the definitions**, when nothing is lost at the end and no comment is taken for
one. -/
theorem map_passedDefs_iff (hblank : skipSpace (firstLine file) ≠ []) :
    (passedDefs file).map skipSpace = definitions file ↔
      if IndentedComment file then (firstLine file).getLast? = some backslash ∧ keptLines file = []
      else ∀ l ∈ (keptLines file).getLast?, l.getLast? ≠ some backslash := by
  have hspace : ∀ c ∈ (firstLine file).takeWhile isSpace, isSpace c = true := fun c hc =>
    List.mem_takeWhile_imp hc
  have hkept : ∀ l ∈ keptLines file, skipSpace l = l := fun l hl => (mem_keptLines hl).1
  have hsplit : (firstLine file).takeWhile isSpace ++ skipSpace (firstLine file) = firstLine file :=
    List.takeWhile_append_dropWhile
  rw [passedDefs, definitions]
  split
  · rename_i hcomment
    have hmap : (joinRead [] (firstLine file :: keptLines file)).map skipSpace =
        joinRead [] (skipSpace (firstLine file) :: keptLines file) := by
      conv_lhs => rw [← hsplit]
      rw [joinRead_cons_append hblank, List.nil_append]
      have hfirst := @map_skipSpace_joinRead [] ((firstLine file).takeWhile isSpace)
        (skipSpace (firstLine file) :: keptLines file)
        (List.forall_mem_cons.mpr ⟨skipSpace_skipSpace _, hkept⟩) rfl hspace
      rwa [List.append_nil] at hfirst
    have hlast : (firstLine file).getLast? = (skipSpace (firstLine file)).getLast? := by
      conv_lhs => rw [← hsplit]
      exact List.getLast?_append_of_ne_nil _ hblank
    rw [hmap, hlast]
    constructor
    · intro heq
      by_cases hnone : keptLines file = []
      · refine ⟨by_contra fun hends => ?_, hnone⟩
        rw [hnone, joinRead, if_neg hends] at heq
        exact List.cons_ne_nil _ _ heq
      · -- what is passed on first is a comment, and no definition is one
        obtain ⟨x, texts, hx⟩ := List.exists_cons_of_ne_nil (@joinLines_ne_nil [] _ hnone)
        have hread := @head_joinRead_comment _ (keptLines file) hcomment.2 x (by rw [heq, hx]; rfl)
        have hnot := @head_joinLines [] (keptLines file) (fun l hl => (mem_keptLines hl).2) nofun x
          (by rw [hx]; rfl)
        exact absurd hread hnot
    · rintro ⟨hends, hnone⟩
      rw [hnone, joinRead, if_pos hends]
      rfl
  · have hmap := @map_skipSpace_joinRead [] ((firstLine file).takeWhile isSpace) (keptLines file) hkept rfl hspace
    rw [List.append_nil] at hmap
    rw [hmap]
    constructor
    · intro heq l hl hends
      have hlen := @length_joinLines [] (keptLines file) ⟨l, hl, hends⟩
      rw [← heq] at hlen
      omega
    · exact fun hends => (joinLines_eq_joinRead hends).symm

theorem passDefs_snoc (texts acc : List Path) :
    passDefs (fun (ls : List Path) l => some (ls ++ [l])) acc texts = (acc ++ texts, true) := by
  induction texts generalizing acc with
  | nil => rw [passDefs, List.append_nil]
  | cons text texts ih =>
      rw [passDefs_cons]
      dsimp only
      rw [ih, List.append_assoc, List.singleton_append]

/-- A reader of definitions ends, and passes exactly the definitions in the file on, in their order, up to
one that is not accepted. -/
def ReadsDefinitions (file : Path) : Prop :=
  ∃ passed : List Path, passed.map skipSpace = definitions file ∧
    ∀ (σ : Type) (readDef : σ → Path → Option σ) (s : σ),
      ∃ bound, ∀ fuel, bound ≤ fuel → readPseudoFile readDef fuel file s = some (passDefs readDef s passed)

theorem readsDefinitions_iff (hlines : ∀ l ∈ listLines file, l.length ≤ 2047)
    (hblank : skipSpace (firstLine file) ≠ []) :
    ReadsDefinitions file ↔ (passedDefs file).map skipSpace = definitions file := by
  constructor
  · rintro ⟨passed, hpassed, hread⟩
    obtain ⟨bound, hrun⟩ := hread (List Path) (fun ls l => some (ls ++ [l])) []
    have hboth := (hrun (bound + file.length + 1) (by omega)).symm.trans
      (readPseudoFile_eq hlines hblank (show file.length < bound + file.length + 1 by omega) [])
    rw [passDefs_snoc, passDefs_snoc, List.nil_append, List.nil_append] at hboth
    obtain rfl : passed = passedDefs file := congrArg Prod.fst (Option.some.inj hboth)
    exact hpassed
  · intro hpassed
    exact ⟨passedDefs file, hpassed, fun σ readDef s => ⟨file.length + 1, fun fuel hfuel =>
      readPseudoFile_eq hlines hblank hfuel s⟩⟩

theorem readPseudoDef_skipSpace (env : PseudoEnv) (t : PseudoTree) (text : Path) :
    readPseudoDef env t (skipSpace text) = readPseudoDef env t text := by
  have hword : scanWord (skipSpace text) = scanWord text := by
    rw [scanWord, scanWord, skipSpace_skipSpace]
  rw [readPseudoDef, readPseudoDef, parsePseudoDef, parsePseudoDef, scanPseudoDef, scanPseudoDef, hword]

theorem passDefs_readPseudoDef {env : PseudoEnv} {texts : List Path} {t t' : PseudoTree}
    (h : readPseudoDefs env t (texts.map skipSpace) = some t') :
    passDefs (readPseudoDef env) t texts = (t', true) := by
  induction texts generalizing t with
  | nil => exact congrArg (·, true) (Option.some.inj h)
  | cons text texts ih =>
      obtain ⟨t₁, hdef, hrest⟩ := Option.bind_eq_some_iff.mp h
      rw [readPseudoDef_skipSpace] at hdef
      rw [passDefs_cons, hdef]
      exact ih hrest

/-- **The tree of a file** is the one that its definitions make, if they are accepted. -/
theorem readPseudoFile_readPseudoDefs {env : PseudoEnv} {t t' : PseudoTree} (hread : ReadsDefinitions file)
    (h : readPseudoDefs env t (definitions file) = some t') :
    ∃ bound, ∀ fuel, bound ≤ fuel → readPseudoFile (readPseudoDef env) fuel file t = some (t', true) := by
  obtain ⟨passed, hpassed, hrun⟩ := hread
  obtain ⟨bound, hbound⟩ := hrun PseudoTree (readPseudoDef env) t
  refine ⟨bound, fun fuel hfuel => ?_⟩
  rw [hbound fuel hfuel, passDefs_readPseudoDef (hpassed ▸ h)]

end

/-! ## All three readers -/

section

variable {file : Path}

/-- `process_extract_files`, the loop over exclude files and `read_pseudo_file` read a file completely. -/
def ReadCompletely (file : Path) : Prop :=
  (ReadsNames file fun _ addPath fuel name path => processExtractFiles addPath fuel name file path) ∧
  (∀ other : ∀ σ : Type, σ → Path → σ,
    (ReadsNames file fun σ oldAddExclude fuel filename s =>
      readExcludeFile true oldAddExclude (other σ) fuel filename file s) ∧
    ReadsNames file fun σ addExclude fuel filename s =>
      readExcludeFile false (other σ) addExclude fuel filename file s) ∧
  ReadsDefinitions file

/-- The first line is not blank, and no definition is lost or made of a comment: the last line that is
neither blank nor a comment does not end in a backslash. Where the first line is a comment behind white
space, it has to be lost itself. -/
def ListReadable (file : Path) : Prop :=
  file = [] ∨ skipSpace (firstLine file) ≠ [] ∧
    if IndentedComment file then (firstLine file).getLast? = some backslash ∧ keptLines file = []
    else ∀ l ∈ (keptLines file).getLast?, l.getLast? ≠ some backslash

instance (file : Path) : Decidable (ListReadable file) := inferInstanceAs (Decidable (_ ∨ _))

/-- **Which files are read completely.** -/
theorem listFile_iff (file : Path) (hlines : ∀ l ∈ listLines file, l.length < 2047) :
    ReadCompletely file ↔ ListReadable file := by
  have hnames := @readsNames_iff file 16384 fun l hl => (hlines l hl).le.trans (by decide)
  have hdefs := @readsDefinitions_iff file fun l hl => (hlines l hl).le
  constructor
  · rintro ⟨hextract, -, hpseudo⟩
    rcases hnames.mp hextract with hnil | hblank
    · exact Or.inl hnil
    · exact Or.inr ⟨hblank, (map_passedDefs_iff hblank).mp ((hdefs hblank).mp hpseudo)⟩
  · intro h
    have hread := hnames.mpr (h.imp_right And.left)
    refine ⟨hread, fun _ => ⟨hread, hread⟩, ?_⟩
    rcases h with rfl | ⟨hblank, hkept⟩
    · refine ⟨[], rfl, fun σ readDef s => ⟨1, fun fuel hfuel => ?_⟩⟩
      exact pseudoLoop_eq rfl (fun l hl => (hlines l hl).le) hfuel [] s
    · exact (hdefs hblank).mpr ((map_passedDefs_iff hblank).mpr hkept)

/-- A definition over two lines with a comment between them: `/d d \`, `#c`, ` 755 0 0`. -/
theorem listFile_continued :
    ReadCompletely [47, 100, 32, 100, 32, 92, 10, 35, 99, 10, 32, 55, 53, 53, 32, 48, 32, 48, 10] :=
  (listFile_iff _ (by decide +kernel)).mpr (by decide +kernel)

/-- The last line of a text, without its newline. -/
def lastLine (file : Path) : Path :=
  (listLines (if file.getLast? = some newline then file.dropLast else file)).getLastD []

/-- An empty line in front of a name is never passed. -/
theorem not_listFile_empty :
    ¬ ∀ file : Path, (∀ l ∈ listLines file, l.length < 2047) → (lastLine file).getLast? ≠ some backslash →
      ReadCompletely file := by
  intro h
  obtain ⟨⟨added, -, hread⟩, -⟩ := h [10, 97, 10] (by decide +kernel) (by decide +kernel)
  obtain ⟨bound, hrun⟩ := hread Unit (fun _ _ => ()) [] ()
  have hsome : namesLoop 16384 (fun _ _ => ()) bound [] [10, 97, 10] () = _ := hrun bound le_rfl
  rw [namesLoop_empty _ (List.cons_ne_nil _ _) (by decide)] at hsome
  cases hsome

end

end FirmwareTools.Squashfs

import FirmwareTools.Opkg.PkgParse

/-! # Loading a feed

`pkg_hash_add_from_file` reads a file of stanzas. Each becomes a package, which is passed to
`hash_insert_pkg` if it has a name and an architecture that is supported.

* **`readStanza_stale`** — the flags that an earlier stream has left can add configuration files to the
  first package, or let the program crash;
* **`packages_hashAddFromFile`** — the packages that are passed on;
* **`loaded_iff`** — when they are those of the file's stanzas;
* **`not_loaded_staleDescription`** — a stream that ends in a description, and one that begins with a
  blank. -/

namespace FirmwareTools.Opkg

/-! ## The loop -/

/-- The package is passed on if it has a name and an architecture with a priority. -/
def ReadState.accepted (s : ReadState) : Option Pkg :=
  if s.read.named ∧ s.read.pkg.architecture.isSome ∧ s.read.pkg.archPriority ≠ 0 then some s.read.pkg
  else none

section

variable (env : ParseEnv) (fresh : Pkg)

/-- The loop of `pkg_hash_add_from_file`: the packages that are passed to `hash_insert_pkg`, the flags that
are left, and the result. There is none where the program crashes. -/
def addLoop (behind : CStr) : ℕ → ReadingFlags → Stream → Option (List Pkg × ReadingFlags × Int)
  | 0, flags, _ => some ([], flags, 0)
  | fuel + 1, flags, fp =>
    match parseFromStreamNomalloc (pkgParseLine env) behind callerBuf (some ⟨⟨fresh, false⟩, flags⟩) fp with
    | (none, _, _) => none
    | (some s, ret, fp) =>
      -- without a name it is probably just a blank line
      let ret := if s.read.named then ret else 1
      if ret = -1 then some ([], s.flags, ret)
      else
        let passed := if ret = 0 then s.accepted.toList else []
        if fp.eof then some (passed, s.flags, 0)
        else (addLoop behind fuel s.flags fp).map fun (pkgs, flags, ret) => (passed ++ pkgs, flags, ret)

end

/-- `pkg_new`, with the `src` and the `dest` of the file. -/
def freshPkg (src : Option PkgSrc) (dest : Option PkgDest) : Pkg := { pkgNew with src, dest }

/-- `pkg_hash_add_from_file`. The flags are those that the streams before have left, and `behind` is what is
in the buffer behind a last line without a newline. -/
def hashAddFromFile (env : ParseEnv) (src : Option PkgSrc) (dest : Option PkgDest) (behind : CStr)
    (flags : ReadingFlags) (text : CStr) : Option (List Pkg × ReadingFlags × Int) :=
  addLoop env (freshPkg src dest) behind (text.length + 1) flags ⟨text, false⟩

/-! ## Stanzas -/

section

variable (env : ParseEnv) (fresh : Pkg)

/-- The lines of a stanza, one after the other. -/
def readStanza (flags : ReadingFlags) (lines : List Line) : Option ReadState :=
  lines.foldl (fun s line => (pkgParseLine env s line).1) (some ⟨⟨fresh, false⟩, flags⟩)

/-- Lines that have a newline. -/
def linesOf (lines : List CStr) : List Line := lines.map fun l => ⟨l, []⟩

/-- The package of a stanza that is parsed on its own. -/
def stanzaPkg (lines : List CStr) : Option Pkg :=
  (readStanza env fresh {} (linesOf lines)).bind ReadState.accepted

/-- The lines of a file. -/
def fileLinesOf (ls : List CStr) (last : CStr) : List CStr := ls ++ if last = [] then [] else [last]

/-- **The packages of a file**: those of the stanzas between its empty lines. -/
def feedPackages (lines : List CStr) : List Pkg := (lines.splitOn []).filterMap (stanzaPkg env fresh)

end

variable {env : ParseEnv} {fresh : Pkg} {flags : ReadingFlags} {behind : CStr}

theorem foldl_pkgParseLine_none (lines : List Line) :
    lines.foldl (fun s line => (pkgParseLine env s line).1) none = none := by
  induction lines with
  | nil => rfl
  | cons line lines ih => exact ih

/-- A stanza that is parsed on its own can be read. -/
theorem foldl_isSome (lines : List Line) {s : ReadState} (hs : s.DescriptionBegun) :
    ∃ s', lines.foldl (fun s line => (pkgParseLine env s line).1) (some s) = some s' := by
  induction lines generalizing s with
  | nil => exact ⟨s, rfl⟩
  | cons line lines ih =>
      obtain ⟨s', hstep, hs'⟩ := @pkgParseLine_isSome env s hs line
      rw [List.foldl_cons, hstep]
      exact ih hs'

theorem readStanza_isSome (lines : List Line) : ∃ s, readStanza env fresh {} lines = some s :=
  foldl_isSome lines fun h => by cases h

theorem foldl_addConffiles (cs : List Conffile) (lines : List Line) (s : ReadState) :
    lines.foldl (fun s line => (pkgParseLine env s line).1) (some (s.addConffiles cs)) =
      (lines.foldl (fun s line => (pkgParseLine env s line).1) (some s)).map (ReadState.addConffiles cs) := by
  induction lines generalizing s with
  | nil => rfl
  | cons line lines ih =>
      rw [List.foldl_cons, List.foldl_cons, pkgParseLine_addConffiles]
      cases (pkgParseLine env (some s) line).1 with
      | none => simp only [Option.map_none, foldl_pkgParseLine_none]
      | some s' => exact ih s'

/-! ## Flags that are left from before -/

/-- The lines at the beginning that begin with a blank. -/
def leadLines (lines : List CStr) : List CStr := lines.takeWhile fun l => l.head? = some ' '

variable (env) in
/-- A line that begins with a blank is taken for a part of a description. -/
def readingDescription (flags : ReadingFlags) : Bool := !env.masked .description && flags.description

variable (env) in
/-- A line that begins with a blank is taken for a configuration file. -/
def readingConffiles (flags : ReadingFlags) : Bool := !env.masked .conffiles && flags.conffiles

variable (env) in
/-- The configuration files that the first lines of a stanza add to it. -/
def staleConffiles (flags : ReadingFlags) (lines : List CStr) : List Conffile :=
  if readingConffiles env flags then (leadLines lines).filterMap scanConffile else []

theorem pkgParseOther_clear {line : Line} {s : ReadState} (hdescription : readingDescription env s.flags = false)
    (hconffiles : readingConffiles env s.flags = false) :
    (pkgParseOther env s line).1 = some { s with flags := {} } := by
  rw [readingDescription] at hdescription
  rw [readingConffiles] at hconffiles
  rw [pkgParseOther]
  dsimp only
  by_cases hline : line.text.head? = some ' '
  · rw [if_pos hline, hdescription, hconffiles]
    rfl
  · rw [if_neg hline]

/-- The lines that begin with a blank, where no configuration files are read. -/
theorem foldl_lead_clear {lines : List Line} (hlines : ∀ l ∈ lines, l.text.head? = some ' ') {s : ReadState}
    (hdescription : readingDescription env s.flags = false) (hconffiles : readingConffiles env s.flags = false) :
    ∃ flags', lines.foldl (fun s line => (pkgParseLine env s line).1) (some s) =
      some { s with flags := flags' } := by
  induction lines generalizing s with
  | nil => exact ⟨s.flags, rfl⟩
  | cons line lines ih =>
      obtain ⟨hline, hlines⟩ := List.forall_mem_cons.mp hlines
      rw [List.foldl_cons, pkgParseLine_blank hline, pkgParseOther_clear hdescription hconffiles]
      obtain ⟨flags', hfold⟩ := @ih hlines { s with flags := {} } (Bool.and_false _) (Bool.and_false _)
      exact ⟨flags', hfold⟩

/-- The lines that begin with a blank, where they are taken for configuration files. -/
theorem foldl_lead_conffiles {lines : List Line} (hlines : ∀ l ∈ lines, l.text.head? = some ' ') {pkg : Pkg}
    {named : Bool} (hdescription : readingDescription env flags = false)
    (hconffiles : readingConffiles env flags = true) :
    lines.foldl (fun s line => (pkgParseLine env s line).1) (some ⟨⟨pkg, named⟩, flags⟩) =
      some ⟨⟨{ pkg with conffiles := pkg.conffiles ++ lines.filterMap fun l => scanConffile l.text }, named⟩,
        flags⟩ := by
  induction lines generalizing pkg with
  | nil => simp
  | cons line lines ih =>
      obtain ⟨hline, hlines⟩ := List.forall_mem_cons.mp hlines
      have hstep : (pkgParseOther env ⟨⟨pkg, named⟩, flags⟩ line).1 =
          some ⟨⟨parseConffilesLine pkg line.text, named⟩, flags⟩ := by
        rw [readingDescription] at hdescription
        rw [readingConffiles] at hconffiles
        rw [pkgParseOther]
        dsimp only
        rw [if_pos hline, hdescription, hconffiles]
        rfl
      rw [List.foldl_cons, pkgParseLine_blank hline, hstep, ih hlines]
      simp only [parseConffilesLine, List.filterMap_cons]
      cases scanConffile line.text <;> simp

/-- A stanza behind lines that begin with a blank. -/
theorem readStanza_lead (hfresh : fresh.conffiles = []) {lead : List CStr}
    (hlead : ∀ l ∈ lead, l.head? = some ' ') (hdescription : lead = [] ∨ readingDescription env flags = false)
    {rest : List Line} (hrest : ∀ line ∈ rest.head?, line.text.head? ≠ some ' ') :
    ∃ s s', readStanza env fresh flags (linesOf lead ++ rest) = some s ∧
      readStanza env fresh {} (linesOf lead ++ rest) = some s' ∧
      s.read = (s'.addConffiles
        (if readingConffiles env flags then lead.filterMap scanConffile else [])).read := by
  have hlines : ∀ l ∈ linesOf lead, l.text.head? = some ' ' := List.forall_mem_map.mpr hlead
  have hscan : (linesOf lead).filterMap (fun l => scanConffile l.text) = lead.filterMap scanConffile :=
    List.filterMap_map
  -- the state behind the lines that begin with a blank
  have hstale : ∃ flags', (linesOf lead).foldl (fun s line => (pkgParseLine env s line).1)
      (some ⟨⟨fresh, false⟩, flags⟩) = some ⟨⟨fresh.addConffiles
        (if readingConffiles env flags then lead.filterMap scanConffile else []), false⟩, flags'⟩ := by
    by_cases hnil : lead = []
    · subst hnil
      exact ⟨flags, by simp [linesOf, Pkg.addConffiles]⟩
    · have hdescription := hdescription.resolve_left hnil
      cases hconffiles : readingConffiles env flags with
      | false =>
          obtain ⟨flags', hfold⟩ := @foldl_lead_clear env _ hlines ⟨⟨fresh, false⟩, flags⟩ hdescription hconffiles
          exact ⟨flags', hfold⟩
      | true =>
          refine ⟨flags, (foldl_lead_conffiles hlines hdescription hconffiles).trans ?_⟩
          rw [hscan, hfresh, Pkg.addConffiles, hfresh]
          simp
  obtain ⟨flags', hstale⟩ := hstale
  obtain ⟨flags'', hclear⟩ := @foldl_lead_clear env _ hlines ⟨⟨fresh, false⟩, {}⟩ (Bool.and_false _)
    (Bool.and_false _)
  cases rest with
  | nil =>
      rw [readStanza, readStanza, List.append_nil, hstale, hclear]
      exact ⟨_, _, rfl, rfl, rfl⟩
  | cons line rest =>
      -- the next line does not look at the flags
      have hline := hrest line rfl
      obtain ⟨s', hs'⟩ := @readStanza_isSome env fresh (linesOf lead ++ line :: rest)
      have hadd := @foldl_addConffiles env
        (if readingConffiles env flags then lead.filterMap scanConffile else []) (line :: rest)
        ⟨⟨fresh, false⟩, flags''⟩
      refine ⟨_, s', ?_, hs', rfl⟩
      rw [readStanza, List.foldl_append, hclear] at hs'
      rw [hs', Option.map_some] at hadd
      rw [readStanza, List.foldl_append, hstale, ← hadd, List.foldl_cons, List.foldl_cons]
      exact congrArg (fun s => List.foldl _ s.1 rest) (pkgParseLine_flags hline _ flags' flags'')

/-- **Flags that an earlier stream has left** can add configuration files. -/
theorem readStanza_stale (hfresh : fresh.conffiles = []) (L : List CStr) {rest : List Line}
    (hrest : leadLines L = L → ∀ line ∈ rest.head?, line.text.head? ≠ some ' ')
    (hdescription : leadLines L = [] ∨ readingDescription env flags = false) :
    ∃ s s', readStanza env fresh flags (linesOf L ++ rest) = some s ∧
      readStanza env fresh {} (linesOf L ++ rest) = some s' ∧
      s.read = (s'.addConffiles (staleConffiles env flags L)).read := by
  have hsplit : linesOf L ++ rest =
      linesOf (leadLines L) ++ (linesOf (L.dropWhile fun l => l.head? = some ' ') ++ rest) := by
    rw [linesOf, linesOf, linesOf, ← List.append_assoc, ← List.map_append, leadLines,
      List.takeWhile_append_dropWhile]
  rw [hsplit]
  refine readStanza_lead hfresh (fun l hl => ?_) hdescription ?_
  · have hmem := List.mem_takeWhile_imp hl
    exact of_decide_eq_true hmem
  · cases hdrop : L.dropWhile fun l => l.head? = some ' ' with
    | nil =>
        refine hrest ?_
        rw [leadLines, List.takeWhile_eq_self_iff]
        exact List.dropWhile_eq_nil_iff.mp hdrop
    | cons l rest' =>
        have hhead := List.head_dropWhile_not (fun l : CStr => decide (l.head? = some ' ')) (l := L)
          (by rw [hdrop]; exact List.cons_ne_nil _ _)
        intro line hline
        obtain rfl : ⟨l, []⟩ = line := Option.some.inj hline
        simp only [hdrop, List.head_cons, decide_eq_false_iff_not] at hhead
        exact hhead

/-- A description that an earlier stream has begun lets the program crash. -/
theorem readStanza_crash (hfresh : fresh.description = none) {L : List CStr} (rest : List Line)
    (hlead : leadLines L ≠ []) (hdescription : readingDescription env flags = true) :
    readStanza env fresh flags (linesOf L ++ rest) = none := by
  cases L with
  | nil => exact absurd rfl hlead
  | cons l L =>
      have hl : l.head? = some ' ' := by
        by_contra hl
        exact hlead (List.takeWhile_cons_of_neg (by simpa using hl))
      have hstep : (pkgParseLine env (some ⟨⟨fresh, false⟩, flags⟩) ⟨l, []⟩).1 = none := by
        rw [readingDescription] at hdescription
        rw [pkgParseLine_blank hl, pkgParseOther]
        dsimp only
        rw [if_pos hl, if_pos hdescription, hfresh]
        rfl
      rw [readStanza, linesOf, List.map_cons, List.cons_append, List.foldl_cons, hstep]
      exact foldl_pkgParseLine_none _

/-! ## One round of the loop -/

section

variable {eof : Bool} {last : CStr} {atLast : Option ReadState → Option ReadState × Int × Stream}

/-- Nothing more is read where the program has crashed. -/
theorem passShort_none (hlast : (atLast none).1 = none) (ls : List CStr) :
    (passShort (pkgParseLine env) eof last atLast ls none).1 = none := by
  cases ls with
  | nil =>
      rw [passShort]
      split_ifs
      · rfl
      · exact hlast
  | cons l ls => rfl

/-- The lines of a stanza are passed on. -/
theorem passShort_lines (hlast : (atLast none).1 = none) {L : List CStr}
    (hL : ∀ l ∈ L, lineIsBlank l = false) (ls : List CStr) (s : ReadState) :
    match (linesOf L).foldl (fun s line => (pkgParseLine env s line).1) (some s) with
    | some s' => passShort (pkgParseLine env) eof last atLast (L ++ ls) (some s) =
        passShort (pkgParseLine env) eof last atLast ls (some s')
    | none => (passShort (pkgParseLine env) eof last atLast (L ++ ls) (some s)).1 = none := by
  induction L generalizing s with
  | nil => rfl
  | cons l L ih =>
      obtain ⟨hl, hL⟩ := List.forall_mem_cons.mp hL
      have hdone : (pkgParseLine env (some s) ⟨l, []⟩).2 = false := pkgParseLine_snd hl s
      rw [linesOf, List.map_cons, List.foldl_cons, List.cons_append, passShort]
      rcases hparse : pkgParseLine env (some s) ⟨l, []⟩ with ⟨s', done⟩
      rw [hparse] at hdone
      obtain rfl : done = false := hdone
      dsimp only
      cases s' with
      | none =>
          rw [foldl_pkgParseLine_none]
          exact passShort_none hlast _
      | some s' => exact ih hL s'

end

theorem addLoop_none {n : ℕ} {fp : Stream}
    (h : (parseFromStreamNomalloc (pkgParseLine env) behind callerBuf (some ⟨⟨fresh, false⟩, flags⟩) fp).1 =
      none) : addLoop env fresh behind (n + 1) flags fp = none := by
  rw [addLoop]
  rcases hparse : parseFromStreamNomalloc (pkgParseLine env) behind callerBuf (some ⟨⟨fresh, false⟩, flags⟩) fp
    with ⟨s, ret, fp'⟩
  rw [hparse] at h
  obtain rfl : s = none := h
  rfl

/-- A package that is read is passed on if it is accepted. -/
theorem addLoop_some {n : ℕ} {fp fp' : Stream} {s : ReadState}
    (h : parseFromStreamNomalloc (pkgParseLine env) behind callerBuf (some ⟨⟨fresh, false⟩, flags⟩) fp =
      (some s, 0, fp')) :
    addLoop env fresh behind (n + 1) flags fp =
      if fp'.eof then some (s.accepted.toList, s.flags, 0)
      else (addLoop env fresh behind n s.flags fp').map fun (pkgs, flags, ret) =>
        (s.accepted.toList ++ pkgs, flags, ret) := by
  rw [addLoop, h]
  dsimp only
  cases hnamed : s.read.named with
  | true => rfl
  | false =>
      have hnot : s.accepted = none := by simp [ReadState.accepted, hnamed]
      rw [hnot]
      rfl

section

variable {L ls : List CStr} {last : CStr} {n : ℕ}

/-- What a file has to be: its lines are shorter than the limit, and an empty one is empty. -/
structure FeedText (ls : List CStr) (last : CStr) : Prop where
  isLine : ∀ l ∈ ls, IsLine l ∧ Short l
  blank : ∀ l ∈ ls, lineIsBlank l = true → l = []
  isLine_last : IsLine last
  short_last : last.length < excessiveLineLen
  blank_last : lineIsBlank last = true → last = []

theorem FeedText.append {L : List CStr} (h : FeedText (L ++ [] :: ls) last) : FeedText ls last where
  isLine l hl := h.isLine l (by simp [hl])
  blank l hl := h.blank l (by simp [hl])
  isLine_last := h.isLine_last
  short_last := h.short_last
  blank_last := h.blank_last

/-- **A stanza with an empty line behind it.** -/
theorem addLoop_stanza (h : FeedText (L ++ [] :: ls) last) (hL : [] ∉ L) :
    addLoop env fresh behind (n + 1) flags ⟨textOf (L ++ [] :: ls) last, false⟩ =
      (readStanza env fresh flags (linesOf L)).bind fun s =>
        (addLoop env fresh behind n {} ⟨textOf ls last, false⟩).map fun (pkgs, flags, ret) =>
          (s.accepted.toList ++ pkgs, flags, ret) := by
  obtain ⟨e, -, hpass⟩ := @parseFromStreamNomalloc_short _ (pkgParseLine env) behind false last callerBuf
    (L ++ [] :: ls) (by decide) h.isLine h.isLine_last h.short_last
  have hblank : ∀ l ∈ L, lineIsBlank l = false := by
    intro l hl
    by_contra hne
    obtain rfl := h.blank l (by simp [hl]) (by simpa using hne)
    exact hL hl
  have hatLast : (parseLast (pkgParseLine env) behind false last e none).1 = none := by
    cases e <;> rfl
  have hlines := @passShort_lines env false last _ hatLast L hblank ([] :: ls) ⟨⟨fresh, false⟩, flags⟩
  rw [readStanza]
  cases hfold : (linesOf L).foldl (fun s line => (pkgParseLine env s line).1)
    (some (⟨⟨fresh, false⟩, flags⟩ : ReadState)) with
  | none =>
      rw [hfold] at hlines
      exact addLoop_none ((congrArg Prod.fst (hpass _)).trans hlines)
  | some s =>
      rw [hfold] at hlines
      -- the empty line resets the flags
      have hparse := (hpass (some ⟨⟨fresh, false⟩, flags⟩)).trans hlines
      rw [passShort, pkgParseLine_nil] at hparse
      rw [addLoop_some hparse]
      rfl

/-- At the end of the stream nothing more is passed on. -/
theorem addLoop_empty (hn : 0 < n) :
    ∃ flags' ret, addLoop env fresh behind n flags ⟨[], false⟩ = some ([], flags', ret) := by
  obtain ⟨n, rfl⟩ := Nat.exists_eq_succ_of_ne_zero hn.ne'
  have hparse := @parseFromStreamNomalloc_eq _ (pkgParseLine env) behind (some ⟨⟨fresh, false⟩, flags⟩) false
    callerBuf [] [] (fun _ h => by cases h) (by decide) (by decide)
  exact ⟨_, _, addLoop_some hparse⟩

/-- **The last stanza** is read with what is read of the last line. -/
theorem addLoop_last (h : FeedText L last) (hL : [] ∉ L) (hn : last = [] ∨ 0 < n) :
    (addLoop env fresh behind (n + 1) flags ⟨textOf L last, false⟩).map Prod.fst =
      (readStanza env fresh flags (linesOf L ++ lastLine behind L last)).map fun s =>
        if Short last then s.accepted.toList else [] := by
  obtain ⟨e, hends, hpass⟩ := @parseFromStreamNomalloc_short _ (pkgParseLine env) behind false last callerBuf
    L (by decide) h.isLine h.isLine_last h.short_last
  have hblank : ∀ l ∈ L, lineIsBlank l = false := by
    intro l hl
    by_contra hne
    obtain rfl := h.blank l hl (by simpa using hne)
    exact hL hl
  have hatLast : (parseLast (pkgParseLine env) behind false last e none).1 = none := by
    cases e <;> rfl
  have hlines := @passShort_lines env false last _ hatLast L hblank [] ⟨⟨fresh, false⟩, flags⟩
  have hparse := hpass (some ⟨⟨fresh, false⟩, flags⟩)
  rw [List.append_nil] at hlines
  rw [readStanza, List.foldl_append]
  cases hfold : (linesOf L).foldl (fun s line => (pkgParseLine env s line).1)
    (some (⟨⟨fresh, false⟩, flags⟩ : ReadState)) with
  | none =>
      rw [hfold] at hlines
      rw [addLoop_none ((congrArg Prod.fst hparse).trans hlines), foldl_pkgParseLine_none]
      rfl
  | some s =>
      rw [hfold] at hlines
      replace hparse := hparse.trans hlines
      rw [passShort] at hparse
      rw [lastLine]
      by_cases hnil : last = []
      · -- the text ends with a newline
        subst hnil
        rw [if_pos rfl] at hparse
        rw [addLoop_some hparse, if_pos (Or.inl rfl), if_pos rfl]
        rfl
      rw [if_neg hnil] at hparse
      by_cases hshort : Short last
      · by_cases hfills : FillsBuffer callerBuf L last
        · -- the last line is lost
          rw [hends.lost hfills hshort] at hparse
          rw [addLoop_some hparse, if_pos (Or.inr (Or.inr hfills)), if_pos rfl]
          simp [hshort]
        · rw [hends.read hfills, parseLast] at hparse
          rw [if_neg (by simp [hnil, hshort, hfills]), List.foldl_cons, List.foldl_nil]
          cases hlast : (pkgParseLine env (some s) ⟨last, behind⟩).1 with
          | none =>
              rw [addLoop_none ((congrArg Prod.fst hparse).trans hlast)]
              rfl
          | some s' =>
              rw [hlast] at hparse
              rw [addLoop_some hparse, if_pos rfl]
              simp [hshort]
      · -- the last line is one byte too long
        have hlong : last.length + 1 = excessiveLineLen := by
          have := h.short_last
          rw [Short] at hshort
          omega
        have hfills : FillsBuffer callerBuf L last := by
          refine ⟨⟨8, hlong⟩, fun l hl => ?_⟩
          have := (h.isLine l hl).2
          rw [Short] at this
          omega
        have hrest : last.drop (excessiveLineLen - 1) = [] := List.drop_eq_nil_of_le (by omega)
        rw [hends.excessive hfills hlong, parseLast, hrest] at hparse
        obtain ⟨flags', ret, hempty⟩ := @addLoop_empty env fresh s.flags behind n (hn.resolve_left hnil)
        rw [if_pos (Or.inr (Or.inl hshort)), addLoop, hparse]
        dsimp only
        cases s.read.named with
        | true => simp [hshort]
        | false => simp [hshort, hempty]

end

/-! ## Files -/

/-- The lines up to the first empty one. -/
def firstStanza (lines : List CStr) : List CStr := (lines.splitOn []).head (List.splitOn_ne_nil _ _)

/-- The lines behind the last empty one. -/
def lastStanza (lines : List CStr) : List CStr := (lines.splitOn []).getLast (List.splitOn_ne_nil _ _)

/-- Induction on the stanzas of a file. -/
theorem stanza_induction {motive : List CStr → Prop} (single : ∀ L, [] ∉ L → motive L)
    (cons : ∀ L ls, [] ∉ L → motive ls → motive (L ++ [] :: ls)) (ls : List CStr) : motive ls := by
  induction hn : ls.length using Nat.strong_induction_on generalizing ls with
  | h n ih =>
      by_cases hmem : ([] : CStr) ∈ ls
      · obtain ⟨L, rest, rfl, hL⟩ := List.eq_append_cons_of_mem hmem
        refine cons L rest hL (ih rest.length ?_ rest rfl)
        rw [← hn, List.length_append, List.length_cons]
        omega
      · exact single ls hmem

theorem lastStanza_append {L : List CStr} (hL : [] ∉ L) (ls : List CStr) :
    lastStanza (L ++ [] :: ls) = lastStanza ls := by
  simp only [lastStanza, List.splitOn_append_cons_self_of_not_mem hL]
  exact List.getLast_cons (List.splitOn_ne_nil _ _)

theorem lastStanza_single {L : List CStr} (hL : [] ∉ L) : lastStanza L = L := by
  simp only [lastStanza, List.splitOn_eq_singleton hL, List.getLast_singleton]

theorem firstStanza_append {L : List CStr} (hL : [] ∉ L) (ls : List CStr) :
    firstStanza (L ++ [] :: ls) = L := by
  simp only [firstStanza, List.splitOn_append_cons_self_of_not_mem hL, List.head_cons]

theorem FeedText.lastStanza {ls : List CStr} {last : CStr} (h : FeedText ls last) :
    FeedText (lastStanza ls) last := by
  induction ls using stanza_induction with
  | single L hL =>
      rw [lastStanza_single hL]
      exact h
  | cons L ls hL ih =>
      rw [lastStanza_append hL]
      exact ih h.append

section

variable {ls : List CStr} {last : CStr}

theorem fileLinesOf_append (L ls : List CStr) (last : CStr) :
    fileLinesOf (L ++ [] :: ls) last = L ++ [] :: fileLinesOf ls last := by
  rw [fileLinesOf, fileLinesOf, List.append_assoc, List.cons_append]

theorem not_mem_fileLinesOf {L : List CStr} (hL : [] ∉ L) (last : CStr) : [] ∉ fileLinesOf L last := by
  rw [fileLinesOf, List.mem_append, not_or]
  refine ⟨hL, fun h => ?_⟩
  split_ifs at h with hnil
  · cases h
  · exact hnil (List.mem_singleton.mp h).symm

/-- The last line is a part of the last stanza only. -/
theorem feedPackages_fileLinesOf (ls : List CStr) (last : CStr) :
    feedPackages env fresh (fileLinesOf ls last) =
      (ls.splitOn []).dropLast.filterMap (stanzaPkg env fresh) ++
        (stanzaPkg env fresh (fileLinesOf (lastStanza ls) last)).toList := by
  induction ls using stanza_induction with
  | single L hL =>
      rw [feedPackages, List.splitOn_eq_singleton (not_mem_fileLinesOf hL last), lastStanza_single hL,
        List.splitOn_eq_singleton hL]
      cases h : stanzaPkg env fresh (fileLinesOf L last) <;> simp [h]
  | cons L ls hL ih =>
      rw [feedPackages, fileLinesOf_append, List.splitOn_append_cons_self_of_not_mem hL,
        lastStanza_append hL, List.splitOn_append_cons_self_of_not_mem hL,
        List.dropLast_cons_of_ne_nil (List.splitOn_ne_nil _ _)]
      rw [feedPackages] at ih
      rw [List.filterMap_cons, List.filterMap_cons, ih]
      cases stanzaPkg env fresh L <;> rfl

variable (env fresh behind) in
/-- The package that is passed on for the last stanza, of which the last line may be missed. -/
def takenLast (L : List CStr) (last : CStr) : Option Pkg :=
  if Short last then (readStanza env fresh {} (linesOf L ++ lastLine behind L last)).bind ReadState.accepted
  else none

theorem bind_accepted {s : ReadState} {lines : List Line} (h : readStanza env fresh {} lines = some s) :
    (readStanza env fresh {} lines).bind ReadState.accepted = s.accepted := by
  rw [h, Option.bind_some]

/-- **The packages that are passed on**, where no flags are left from before. -/
theorem packages_addLoop_clear (h : FeedText ls last) {n : ℕ} (hn : (textOf ls last).length ≤ n) :
    (addLoop env fresh behind (n + 1) {} ⟨textOf ls last, false⟩).map Prod.fst =
      some ((ls.splitOn []).dropLast.filterMap (stanzaPkg env fresh) ++
        (takenLast env fresh behind (lastStanza ls) last).toList) := by
  induction ls using stanza_induction generalizing n with
  | single L hL =>
      have hpos : last = [] ∨ 0 < n := by
        by_cases hnil : last = []
        · exact Or.inl hnil
        · have := List.length_pos_iff.mpr hnil
          rw [textOf, List.length_append] at hn
          exact Or.inr (by omega)
      obtain ⟨s, hs⟩ := @readStanza_isSome env fresh (linesOf L ++ lastLine behind L last)
      rw [addLoop_last h hL hpos, lastStanza_single hL, List.splitOn_eq_singleton hL, takenLast, bind_accepted hs,
        hs]
      simp only [Option.map_some, List.dropLast_singleton, List.filterMap_nil, List.nil_append]
      split_ifs <;> rfl
  | cons L ls hL ih =>
      have hlength : (textOf (L ++ [] :: ls) last).length = (textOf L []).length + 1 + (textOf ls last).length := by
        simp [textOf]
        omega
      obtain ⟨n, rfl⟩ := Nat.exists_eq_succ_of_ne_zero (show n ≠ 0 by omega)
      obtain ⟨s, hs⟩ := @readStanza_isSome env fresh (linesOf L)
      have hstanza : stanzaPkg env fresh L = s.accepted := bind_accepted hs
      have hrest := ih h.append (n := n) (by omega)
      rw [addLoop_stanza h hL, hs, Option.bind_some, Option.map_map, lastStanza_append hL,
        List.splitOn_append_cons_self_of_not_mem hL, List.dropLast_cons_of_ne_nil (List.splitOn_ne_nil _ _),
        List.filterMap_cons, hstanza]
      obtain ⟨⟨pkgs, flags', ret⟩, hloop, hpkgs⟩ := Option.map_eq_some_iff.mp hrest
      rw [hloop]
      dsimp only at hpkgs
      subst hpkgs
      cases s.accepted <;> rfl

end

/-! ## When a file is loaded stanza by stanza -/

/-- The packages that are passed to `hash_insert_pkg` are those of the file's stanzas. -/
def LoadedByStanza (env : ParseEnv) (src : Option PkgSrc) (dest : Option PkgDest) (flags : ReadingFlags)
    (behind : CStr) (ls : List CStr) (last : CStr) : Prop :=
  (hashAddFromFile env src dest behind flags (textOf ls last)).map Prod.fst =
    some (feedPackages env (freshPkg src dest) (fileLinesOf ls last))

/-- The last line ends with a newline, or is read as it stands: it does not fill the buffer exactly, and
it has a marker or begins with a blank. -/
def LastRead (L : List CStr) (last : CStr) : Prop :=
  last = [] ∨ ¬ FillsBuffer callerBuf L last ∧ (':' ∈ last ∨ last.head? = some ' ')

instance (L : List CStr) (last : CStr) : Decidable (LastRead L last) := inferInstanceAs (Decidable (_ ∨ _))

section

variable (env fresh flags behind)

/-- The flags do not let the program crash at the beginning of a file. -/
def NoCrash (L : List CStr) : Prop := leadLines L = [] ∨ readingDescription env flags = false

/-- The flags do not matter to the first stanza: it does not begin with a blank, or it is in no list of
configuration files and no description, or it is left out. -/
def StaleOk (L : List CStr) : Prop :=
  NoCrash env flags L ∧ (staleConffiles env flags L = [] ∨ stanzaPkg env fresh L = none)

/-- **When a file is loaded stanza by stanza.** The flags matter to its first stanza, and a last line
without a newline to its last stanza: it may be missed where that changes nothing. -/
def FeedOk (ls : List CStr) (last : CStr) : Prop :=
  if [] ∈ ls then StaleOk env fresh flags (firstStanza ls) ∧
    (LastRead (lastStanza ls) last ∨
      takenLast env fresh behind (lastStanza ls) last = stanzaPkg env fresh (fileLinesOf (lastStanza ls) last))
  else if LastRead ls last then StaleOk env fresh flags (fileLinesOf ls last)
  else NoCrash env flags ls ∧
    (takenLast env fresh behind ls last).map (Pkg.addConffiles (staleConffiles env flags ls)) =
      stanzaPkg env fresh (fileLinesOf ls last)

end

theorem accepted_addConffiles (cs : List Conffile) {s s' : ReadState} (h : s.read = (s'.addConffiles cs).read) :
    s.accepted = s'.accepted.map (Pkg.addConffiles cs) := by
  rw [ReadState.accepted, ReadState.accepted, h]
  split_ifs with h₁ h₂ h₂
  · rfl
  · exact absurd h₁ h₂
  · exact absurd h₂ h₁
  · rfl

theorem map_addConffiles_eq_self {cs : List Conffile} {o : Option Pkg} :
    o.map (Pkg.addConffiles cs) = o ↔ cs = [] ∨ o = none := by
  cases o with
  | none => simp
  | some pkg =>
      simp only [Option.map_some, Option.some.injEq, reduceCtorEq, or_false]
      constructor
      · intro h
        have hconffiles := congrArg Pkg.conffiles h
        exact List.append_left_eq_self.mp hconffiles
      · rintro rfl
        rfl

section

variable {L ls : List CStr} {last : CStr}

/-- A last line that is read as it stands is a line like the others. -/
theorem readStanza_lastRead (h : FeedText L last) (hlast : LastRead L last) (flags : ReadingFlags) :
    Short last ∧ readStanza env fresh flags (linesOf L ++ lastLine behind L last) =
      readStanza env fresh flags (linesOf (fileLinesOf L last)) := by
  rw [fileLinesOf, linesOf, linesOf, List.map_append, lastLine]
  rcases hlast with rfl | ⟨hfills, hline⟩
  · exact ⟨by decide, rfl⟩
  · have hshort : Short last := by
      by_contra hlong
      refine hfills ⟨⟨8, ?_⟩, fun l hl => ?_⟩
      · have hlt := h.short_last
        have height : callerBuf * 2 ^ 8 = excessiveLineLen := rfl
        rw [Short] at hlong
        omega
      · have hlt := (h.isLine l hl).2
        rw [Short] at hlt hlong
        omega
    refine ⟨hshort, ?_⟩
    have hnil : last ≠ [] := by
      rintro rfl
      rcases hline with hcolon | hblank
      · cases hcolon
      · cases hblank
    rw [if_neg (by simp [hnil, hshort, hfills]), if_neg hnil, readStanza, readStanza, List.foldl_append,
      List.foldl_append, List.foldl_cons, List.map_cons, List.foldl_cons, pkgParseLine_behind hline]
    rfl

theorem takenLast_lastRead (h : FeedText L last) (hlast : LastRead L last) :
    takenLast env fresh behind L last = stanzaPkg env fresh (fileLinesOf L last) := by
  obtain ⟨hshort, hread⟩ := @readStanza_lastRead env fresh behind L last h hlast {}
  rw [takenLast, if_pos hshort, hread, stanzaPkg]

/-- What is passed on of a stanza that is the first one. -/
theorem map_accepted_stale (hfresh : fresh.conffiles = []) (hfresh' : fresh.description = none) (L : List CStr)
    {rest : List Line} (hrest : leadLines L = L → ∀ line ∈ rest.head?, line.text.head? ≠ some ' ') :
    (readStanza env fresh flags (linesOf L ++ rest)).map ReadState.accepted =
      if leadLines L = [] ∨ readingDescription env flags = false then
        some (((readStanza env fresh {} (linesOf L ++ rest)).bind ReadState.accepted).map
          (Pkg.addConffiles (staleConffiles env flags L)))
      else none := by
  split_ifs with hcrash
  · obtain ⟨s, s', hs, hs', hread⟩ := readStanza_stale hfresh L hrest hcrash
    rw [hs, bind_accepted hs', Option.map_some, accepted_addConffiles _ hread]
  · obtain ⟨hlead, hdescription⟩ := not_or.mp hcrash
    rw [readStanza_crash hfresh' rest hlead (Bool.eq_true_of_not_eq_false hdescription)]
    rfl

theorem toList_append_eq {o o' e e' : Option Pkg} (hsome : o.isSome = e.isSome) (mid : List Pkg) :
    o.toList ++ (mid ++ o'.toList) = e.toList ++ (mid ++ e'.toList) ↔ o = e ∧ o' = e' := by
  have hlast : o'.toList = e'.toList ↔ o' = e' := by cases o' <;> cases e' <;> simp
  cases o <;> cases e
  · simp [hlast]
  · cases hsome
  · cases hsome
  · simp [hlast]

/-- **A file with an empty line**: the flags matter to its first stanza. -/
theorem loaded_append (hfresh : fresh.conffiles = []) (hfresh' : fresh.description = none)
    (h : FeedText (L ++ [] :: ls) last) (hL : [] ∉ L) {n : ℕ} (hn : (textOf ls last).length ≤ n) :
    (addLoop env fresh behind (n + 1 + 1) flags ⟨textOf (L ++ [] :: ls) last, false⟩).map Prod.fst =
        some (feedPackages env fresh (fileLinesOf (L ++ [] :: ls) last)) ↔
      StaleOk env fresh flags L ∧
        takenLast env fresh behind (lastStanza ls) last =
          stanzaPkg env fresh (fileLinesOf (lastStanza ls) last) := by
  have hclear := @packages_addLoop_clear env fresh behind ls last h.append n hn
  have hfirst := @map_accepted_stale env fresh flags hfresh hfresh' L []
    (fun _ _ hline => by cases hline)
  have hexpected : feedPackages env fresh (fileLinesOf (L ++ [] :: ls) last) =
      (stanzaPkg env fresh L).toList ++ ((ls.splitOn []).dropLast.filterMap (stanzaPkg env fresh) ++
        (stanzaPkg env fresh (fileLinesOf (lastStanza ls) last)).toList) := by
    rw [← feedPackages_fileLinesOf, fileLinesOf_append, feedPackages,
      List.splitOn_append_cons_self_of_not_mem hL, List.filterMap_cons, feedPackages]
    cases stanzaPkg env fresh L <;> rfl
  obtain ⟨⟨pkgs, flags', ret⟩, hloop, hpkgs⟩ := Option.map_eq_some_iff.mp hclear
  dsimp only at hpkgs
  rw [List.append_nil, ← stanzaPkg] at hfirst
  rw [addLoop_stanza h hL, hloop, hexpected, StaleOk, NoCrash]
  split_ifs at hfirst with hcrash
  · obtain ⟨s, hs, haccepted⟩ := Option.map_eq_some_iff.mp hfirst
    rw [hs, Option.bind_some, Option.map_some, Option.map_some, haccepted, hpkgs, Option.some.injEq,
      toList_append_eq (by simp), map_addConffiles_eq_self]
    simp [hcrash]
  · rw [Option.map_eq_none_iff.mp hfirst]
    simp [hcrash]

/-- **A file without an empty line** is one stanza. -/
theorem loaded_single (hfresh : fresh.conffiles = []) (hfresh' : fresh.description = none) (h : FeedText L last)
    (hL : [] ∉ L) {n : ℕ} (hn : last = [] ∨ 0 < n) :
    (addLoop env fresh behind (n + 1) flags ⟨textOf L last, false⟩).map Prod.fst =
        some (feedPackages env fresh (fileLinesOf L last)) ↔
      if LastRead L last then StaleOk env fresh flags (fileLinesOf L last)
      else NoCrash env flags L ∧
        (takenLast env fresh behind L last).map (Pkg.addConffiles (staleConffiles env flags L)) =
          stanzaPkg env fresh (fileLinesOf L last) := by
  have hlist : ∀ o o' : Option Pkg, o.toList = o'.toList ↔ o = o' := by
    intro o o'
    cases o <;> cases o' <;> simp
  have hexpected : feedPackages env fresh (fileLinesOf L last) =
      (stanzaPkg env fresh (fileLinesOf L last)).toList := by
    rw [feedPackages, List.splitOn_eq_singleton (not_mem_fileLinesOf hL last)]
    cases hpkg : stanzaPkg env fresh (fileLinesOf L last) <;> simp [hpkg]
  rw [addLoop_last h hL hn, hexpected]
  by_cases hlast : LastRead L last
  · rw [if_pos hlast]
    obtain ⟨hshort, hread⟩ := @readStanza_lastRead env fresh behind L last h hlast flags
    have hfirst := @map_accepted_stale env fresh flags hfresh hfresh' (fileLinesOf L last) []
      (fun _ _ hline => by cases hline)
    rw [List.append_nil, ← stanzaPkg] at hfirst
    rw [hread, StaleOk, NoCrash]
    split_ifs at hfirst with hcrash
    · obtain ⟨s, hs, haccepted⟩ := Option.map_eq_some_iff.mp hfirst
      rw [hs, Option.map_some, if_pos hshort, haccepted, Option.some.injEq, hlist, map_addConffiles_eq_self]
      simp [hcrash]
    · rw [Option.map_eq_none_iff.mp hfirst]
      simp [hcrash]
  · rw [if_neg hlast]
    have hrest : leadLines L = L → ∀ line ∈ (lastLine behind L last).head?, line.text.head? ≠ some ' ' := by
      intro _ line hline
      rw [lastLine] at hline
      split_ifs at hline with hmissed
      · cases hline
      · obtain rfl : ⟨last, behind⟩ = line := Option.some.inj hline
        intro hblank
        exact hlast (Or.inr ⟨fun hfills => hmissed (Or.inr (Or.inr hfills)), Or.inr hblank⟩)
    have hfirst := @map_accepted_stale env fresh flags hfresh hfresh' L _ hrest
    rw [NoCrash, takenLast]
    split_ifs at hfirst with hcrash
    · obtain ⟨s, hs, haccepted⟩ := Option.map_eq_some_iff.mp hfirst
      rw [hs, Option.map_some, Option.some.injEq]
      by_cases hshort : Short last
      · rw [if_pos hshort, if_pos hshort, haccepted, hlist]
        simp [hcrash]
      · rw [if_neg hshort, if_neg hshort, ← Option.toList_none, hlist]
        simp [hcrash]
    · rw [Option.map_eq_none_iff.mp hfirst]
      simp [hcrash]

/-- **A file is loaded stanza by stanza** if and only if the flags that earlier streams have left do not
matter to its first stanza, and its last line is read or does not matter to its last one. -/
theorem loaded_iff (h : FeedText ls last) (src : Option PkgSrc) (dest : Option PkgDest) :
    LoadedByStanza env src dest flags behind ls last ↔ FeedOk env (freshPkg src dest) flags behind ls last := by
  rw [LoadedByStanza, hashAddFromFile, FeedOk]
  by_cases hmem : [] ∈ ls
  · rw [if_pos hmem]
    obtain ⟨L, rest, rfl, hL⟩ := List.eq_append_cons_of_mem hmem
    have hlength : (textOf (L ++ [] :: rest) last).length = (textOf L []).length + 1 + (textOf rest last).length := by
      simp [textOf]
      omega
    rw [show (textOf (L ++ [] :: rest) last).length =
        (textOf L []).length + (textOf rest last).length + 1 by omega, loaded_append rfl rfl h hL (by omega),
      firstStanza_append hL, lastStanza_append hL]
    refine and_congr_right fun _ => ⟨Or.inr, fun hok => hok.elim (fun hread => ?_) id⟩
    exact takenLast_lastRead h.append.lastStanza hread
  · rw [if_neg hmem]
    have hpos : last = [] ∨ 0 < (textOf ls last).length := by
      by_cases hnil : last = []
      · exact Or.inl hnil
      · have := List.length_pos_iff.mpr hnil
        rw [textOf, List.length_append]
        exact Or.inr (by omega)
    exact loaded_single rfl rfl h hmem hpos

end

/-- An architecture. -/
def anyArch : ParseEnv := ⟨[("all".toList, "1".toList)], fun _ => false⟩

/-- A stream that ends in a description leaves its flag, and the next file begins with a blank: a
description that is `NULL` is appended to. -/
theorem not_loaded_staleDescription : ∃ pkgs flags,
    hashAddFromFile anyArch none none [] {} "Package: a\nDescription: b\n".toList = some (pkgs, flags, 0) ∧
      ¬ LoadedByStanza anyArch none none flags [] [" c".toList, "Package: d".toList] [] := by
  refine ⟨[], ⟨false, true⟩, by decide +kernel, ?_⟩
  rw [LoadedByStanza]
  have hcrash : hashAddFromFile anyArch none none [] ⟨false, true⟩
      (textOf [" c".toList, "Package: d".toList] []) = none := by decide +kernel
  rw [hcrash]
  intro h
  cases h

/-- The condition on a file as the program writes it: its last line has a newline, and no flags are left. -/
theorem loaded_twoStanzas :
    FeedText ["Package: a".toList, "Architecture: all".toList, [], "Package: b".toList] [] ∧
      LoadedByStanza anyArch none none {} []
        ["Package: a".toList, "Architecture: all".toList, [], "Package: b".toList] [] := by
  have htext : FeedText ["Package: a".toList, "Architecture: all".toList, [], "Package: b".toList] [] :=
    ⟨by decide, by decide, by decide, by decide, by decide⟩
  refine ⟨htext, (loaded_iff htext none none).mpr ?_⟩
  rw [FeedOk, if_pos (by decide)]
  exact ⟨⟨Or.inl (by decide), Or.inl (by decide)⟩, Or.inl (Or.inl rfl)⟩

end FirmwareTools.Opkg

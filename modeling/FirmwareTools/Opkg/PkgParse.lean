import FirmwareTools.Opkg.FieldLine
import FirmwareTools.Opkg.Hash

/-! # Control fields of a package

`pkg_parse_line` takes the lines of a stanza one by one and fills in a package. Two flags say whether a
line that begins with a blank belongs to the description or to the configuration files; they are static
variables, and an empty line resets them.

* **`pkgParseLine_addConffiles`** — the configuration files that are already there change nothing else;
* **`pkgParseLine_isSome`** — a package that is read from its beginning always has the description that
  is appended to. -/

namespace FirmwareTools.Opkg

/-! ## Values -/

/-- The value of a digit to some base, `strtoul` and `strtol` have letters from ten on. -/
def digitIn (base : ℕ) (c : Char) : Option ℕ :=
  let n := if isdigit c then some (c.toNat - 48)
    else if 'a' ≤ c ∧ c ≤ 'z' then some (c.toNat - 87)
    else if 'A' ≤ c ∧ c ≤ 'Z' then some (c.toNat - 55)
    else none
  n.filter (· < base)

/-- A number whose base is told by its beginning: the sign, and the value of the digits. -/
def scanNumber (s : CStr) : Bool × ℕ :=
  let signed := s.dropWhile isspace
  let negative := signed.head? == some '-'
  let digits := if negative || signed.head? == some '+' then signed.tail else signed
  let (base, digits) := match digits with
    | '0' :: x :: d :: rest =>
      if (x == 'x' || x == 'X') && (digitIn 16 d).isSome then (16, d :: rest) else (8, digits)
    | '0' :: _ => (8, digits)
    | _ => (10, digits)
  (negative, (digits.takeWhile fun c => (digitIn base c).isSome).foldl
    (fun n c => base * n + (digitIn base c).getD 0) 0)

/-- `strtoul(s, NULL, 0)` -/
def strtoulAuto (s : CStr) : ℕ :=
  let (negative, n) := scanNumber s
  if ulongMax < n then ulongMax else if negative then (ulongMax + 1 - n) % (ulongMax + 1) else n

/-- `strtol(s, NULL, 0)`, cut to an `int`. -/
def strtolAuto (s : CStr) : Int :=
  let (negative, n) := scanNumber s
  let long : Int := if negative then max (-n) (-2 ^ 63) else min n (2 ^ 63 - 1)
  (long + 2 ^ 31) % 2 ^ 32 - 2 ^ 31

/-- `%ns` of `sscanf`: a word of at most `n` characters, and what is behind it. -/
def scanWordUpTo (n : ℕ) (s : CStr) : Option (CStr × CStr) :=
  let s := s.dropWhile isspace
  let word := (s.take n).takeWhile fun c => !isspace c
  if word = [] then none else some (word, s.drop word.length)

/-- `parse_status`; a line that is no `Status:` with three words behind it changes nothing. -/
def parseStatus (pkg : Pkg) (sstr : CStr) : Pkg :=
  if "Status:".toList.isPrefixOf sstr then
    match scanWordUpTo 63 (sstr.drop 7) with
    | none => pkg
    | some (sw, s) =>
      match scanWordUpTo 63 s with
      | none => pkg
      | some (sf, s) =>
        match scanWordUpTo 63 s with
        | none => pkg
        | some (ss, _) =>
          { pkg with
            stateWant := pkgStateWantFromStr sw
            stateFlag := pkgStateFlagFromStr sf
            stateStatus := pkgStateStatusFromStr ss }
  else pkg

/-- The configuration file that a line says. -/
def scanConffile (cstr : CStr) : Option Conffile :=
  match scanWordUpTo 1023 cstr with
  | none => none
  | some (fileName, s) => (scanWordUpTo 34 s).map fun (md5sum, _) => ⟨fileName, some md5sum⟩

/-- `parse_conffiles` -/
def parseConffilesLine (pkg : Pkg) (cstr : CStr) : Pkg :=
  { pkg with conffiles := pkg.conffiles ++ (scanConffile cstr).toList }

/-! ## Fields -/

/-- The fields that can be masked. -/
inductive PkgField
  | architecture | autoInstalled | conffiles | conflicts | description | depends | essential | filename
  | installedSize | installedTime | md5sum | maintainer | package | priority | provides | preDepends
  | recommends | replaces | ofSection | sha256sum | size | source | status | suggests | tags | version
  deriving DecidableEq, Repr

/-- What the parser takes from the configuration: the architectures with their priorities, and the fields
that are masked, by `conf->pfm` or by the caller. -/
structure ParseEnv where
  archList : List (CStr × CStr)
  masked : PkgField → Bool := fun _ => false

/-- `get_arch_priority` -/
def getArchPriority (env : ParseEnv) (arch : CStr) : Int :=
  match env.archList.find? fun nv => nv.1 = arch with
  | some nv => strtolAuto nv.2
  | none => 0

/-- The static flags of `pkg_parse_line`. -/
structure ReadingFlags where
  conffiles : Bool := false
  description : Bool := false
  deriving DecidableEq, Repr

/-- A package that is being read. `named` says that `name` is not `NULL`. -/
structure ReadPkg where
  pkg : Pkg := {}
  named : Bool := false
  deriving DecidableEq, Repr

/-- A case of the switch: the field, how its line begins, what is done with it, and the flags that are set
behind it. -/
structure FieldCase where
  field : PkgField
  key : CStr
  act : Line → Pkg → Pkg
  flags : ReadingFlags := {}

/-- The cases of `pkg_parse_line`, in their order. -/
def fieldCases (env : ParseEnv) : List FieldCase :=
  [ { field := .architecture, key := "Architecture".toList, act := fun line pkg =>
        let arch := parseSimple "Architecture".toList line
        { pkg with architecture := some arch, archPriority := getArchPriority env arch } },
    { field := .autoInstalled, key := "Auto-Installed".toList, act := fun line pkg =>
        if parseSimple "Auto-Installed".toList line = "yes".toList then { pkg with autoInstalled := true }
        else pkg },
    { field := .conffiles, key := "Conffiles".toList, act := fun _ pkg => pkg, flags := ⟨true, false⟩ },
    { field := .conflicts, key := "Conflicts".toList, act := fun line pkg =>
        let list := parseList line ',' false
        { pkg with conflictsStr := list, conflictsCount := list.length } },
    { field := .description, key := "Description".toList, flags := ⟨false, true⟩, act := fun line pkg =>
        { pkg with description := some (parseSimple "Description".toList line) } },
    { field := .depends, key := "Depends".toList, act := fun line pkg =>
        let list := parseList line ',' false
        { pkg with dependsStr := list, dependsCount := list.length } },
    { field := .essential, key := "Essential".toList, act := fun line pkg =>
        if parseSimple "Essential".toList line = "yes".toList then { pkg with essential := true } else pkg },
    { field := .filename, key := "Filename".toList, act := fun line pkg =>
        { pkg with filename := some (parseSimple "Filename".toList line) } },
    { field := .installedSize, key := "Installed-Size".toList, act := fun line pkg =>
        { pkg with installedSize := strtoulAuto (parseSimple "Installed-Size".toList line) } },
    { field := .installedTime, key := "Installed-Time".toList, act := fun line pkg =>
        { pkg with installedTime := strtoulAuto (parseSimple "Installed-Time".toList line) } },
    { field := .md5sum, key := "MD5sum:".toList, act := fun line pkg =>
        { pkg with md5sum := some (parseSimple "MD5sum".toList line) } },
    { field := .md5sum, key := "MD5Sum:".toList, act := fun line pkg =>
        { pkg with md5sum := some (parseSimple "MD5Sum".toList line) } },
    { field := .maintainer, key := "Maintainer".toList, act := fun line pkg =>
        { pkg with maintainer := some (parseSimple "Maintainer".toList line) } },
    { field := .package, key := "Package".toList, act := fun line pkg =>
        { pkg with name := parseSimple "Package".toList line } },
    { field := .priority, key := "Priority".toList, act := fun line pkg =>
        { pkg with priority := some (parseSimple "Priority".toList line) } },
    { field := .provides, key := "Provides".toList, act := fun line pkg =>
        let list := parseList line ',' false
        { pkg with providesStr := list, providesCount := list.length } },
    { field := .preDepends, key := "Pre-Depends".toList, act := fun line pkg =>
        let list := parseList line ',' false
        { pkg with preDependsStr := list, preDependsCount := list.length } },
    { field := .recommends, key := "Recommends".toList, act := fun line pkg =>
        let list := parseList line ',' false
        { pkg with recommendsStr := list, recommendsCount := list.length } },
    { field := .replaces, key := "Replaces".toList, act := fun line pkg =>
        let list := parseList line ',' false
        { pkg with replacesStr := list, replacesCount := list.length } },
    { field := .ofSection, key := "Section".toList, act := fun line pkg =>
        { pkg with sectionName := some (parseSimple "Section".toList line) } },
    { field := .sha256sum, key := "SHA256sum".toList, act := fun line pkg =>
        { pkg with sha256sum := some (parseSimple "SHA256sum".toList line) } },
    { field := .size, key := "Size".toList, act := fun line pkg =>
        { pkg with size := strtoulAuto (parseSimple "Size".toList line) } },
    { field := .source, key := "Source".toList, act := fun line pkg =>
        { pkg with source := some (parseSimple "Source".toList line) } },
    { field := .status, key := "Status".toList, act := fun line pkg => parseStatus pkg line.text },
    { field := .suggests, key := "Suggests".toList, act := fun line pkg =>
        let list := parseList line ',' false
        { pkg with suggestsStr := list, suggestsCount := list.length } },
    { field := .tags, key := "Tags".toList, act := fun line pkg =>
        { pkg with tags := some (parseSimple "Tags".toList line) } },
    { field := .version, key := "Version".toList, act := fun line pkg => parseVersion pkg line.text } ]

/-- The case for a line: the first one that is not masked and whose field begins the line. The cases of
one letter stand together, so that it does not matter that the switch looks at the letter first. -/
def fieldCase (env : ParseEnv) (line : Line) : Option FieldCase :=
  (fieldCases env).find? fun c => !env.masked c.field && isField c.key line

/-- A package with the flags that the parser keeps. -/
structure ReadState where
  read : ReadPkg := {}
  flags : ReadingFlags := {}
  deriving DecidableEq, Repr

/-- A line that begins with a blank, or with no letter of a field. -/
def pkgParseOther (env : ParseEnv) (s : ReadState) (line : Line) : Option ReadState × Bool :=
  let pkg := s.read.pkg
  -- the flags are reset, and an empty line ends the package
  let other := (some { s with flags := {} }, lineIsBlank line.text)
  if line.text.head? = some ' ' then
    if !env.masked .description && s.flags.description then
      (pkg.description.map fun description =>
        { s with read.pkg := { pkg with description := some (description ++ '\n' :: line.text) } }, false)
    else if !env.masked .conffiles && s.flags.conffiles then
      (some { s with read.pkg := parseConffilesLine pkg line.text }, false)
    else other
  else other

/-- `pkg_parse_line`; `none` where a description is appended to that is `NULL`. -/
def pkgParseLine (env : ParseEnv) (s : Option ReadState) (line : Line) : Option ReadState × Bool :=
  match s with
  | none => (none, true)
  | some s =>
    match fieldCase env line with
    | some c =>
      (some ⟨⟨c.act line s.read.pkg, s.read.named || c.field == .package⟩, c.flags⟩, false)
    | none => pkgParseOther env s line

/-! ## The cases -/

variable {env : ParseEnv}

/-- Every line of a case begins with a letter. -/
theorem isalpha_head_key {c : FieldCase} (hc : c ∈ fieldCases env) : ∃ a, c.key.head? = some a ∧ isalpha a := by
  simp only [fieldCases, List.mem_cons, List.not_mem_nil, or_false] at hc
  rcases hc with rfl | rfl | rfl | rfl | rfl | rfl | rfl | rfl | rfl | rfl | rfl | rfl | rfl | rfl | rfl |
    rfl | rfl | rfl | rfl | rfl | rfl | rfl | rfl | rfl | rfl | rfl | rfl
  all_goals exact ⟨_, rfl, rfl⟩

/-- Only a line that begins with a letter is a field. -/
theorem isalpha_head_of_fieldCase {line : Line} {c : FieldCase} (h : fieldCase env line = some c) :
    ∃ a, line.text.head? = some a ∧ isalpha a := by
  obtain ⟨a, ha, halpha⟩ := isalpha_head_key (List.mem_of_find?_eq_some h)
  have hfield := List.find?_some h
  simp only [isField, Bool.and_eq_true, List.isPrefixOf_iff_prefix] at hfield
  obtain ⟨t, ht⟩ := hfield.2
  cases hkey : c.key with
  | nil =>
      rw [hkey] at ha
      cases ha
  | cons d key =>
      rw [hkey] at ha ht
      exact ⟨a, by rw [← ht]; exact ha, halpha⟩

theorem fieldCase_eq_none {line : Line} (h : ∀ a, line.text.head? = some a → isalpha a = false) :
    fieldCase env line = none := by
  by_contra hne
  obtain ⟨c, hc⟩ := Option.ne_none_iff_exists'.mp hne
  obtain ⟨a, ha, halpha⟩ := isalpha_head_of_fieldCase hc
  rw [h a ha] at halpha
  cases halpha

/-- **An empty line** ends the package, and resets the flags. -/
theorem pkgParseLine_nil (s : ReadState) (behind : CStr) :
    pkgParseLine env (some s) ⟨[], behind⟩ = (some { s with flags := {} }, true) := by
  rw [pkgParseLine, fieldCase_eq_none (fun a ha => by cases ha)]
  rfl

/-- Any other line does not end it. -/
theorem pkgParseLine_snd {line : Line} (hline : lineIsBlank line.text = false) (s : ReadState) :
    (pkgParseLine env (some s) line).2 = false := by
  rw [pkgParseLine]
  split
  · rfl
  · rw [pkgParseOther]
    dsimp only
    split_ifs
    · rfl
    · rfl
    · exact hline
    · exact hline

/-! ## Configuration files that are already there -/

/-- Configuration files in front of those that are there. -/
def Pkg.addConffiles (cs : List Conffile) (pkg : Pkg) : Pkg := { pkg with conffiles := cs ++ pkg.conffiles }

/-- The same for a package that is being read. -/
def ReadState.addConffiles (cs : List Conffile) (s : ReadState) : ReadState :=
  { s with read.pkg := s.read.pkg.addConffiles cs }

theorem parseStatus_addConffiles (cs : List Conffile) (pkg : Pkg) (sstr : CStr) :
    parseStatus (pkg.addConffiles cs) sstr = (parseStatus pkg sstr).addConffiles cs := by
  rw [parseStatus, parseStatus]
  repeat' split
  all_goals rfl

/-- No case looks at them. -/
theorem act_addConffiles (cs : List Conffile) {c : FieldCase} (hc : c ∈ fieldCases env) (line : Line) (pkg : Pkg) :
    c.act line (pkg.addConffiles cs) = (c.act line pkg).addConffiles cs := by
  simp only [fieldCases, List.mem_cons, List.not_mem_nil, or_false] at hc
  rcases hc with rfl | rfl | rfl | rfl | rfl | rfl | rfl | rfl | rfl | rfl | rfl | rfl | rfl | rfl | rfl |
    rfl | rfl | rfl | rfl | rfl | rfl | rfl | rfl | rfl | rfl | rfl | rfl
  all_goals first
    | rfl
    | exact parseStatus_addConffiles cs pkg line.text
    | (dsimp only; split <;> rfl)

/-- **Configuration files that are already there** change nothing else. -/
theorem pkgParseLine_addConffiles (cs : List Conffile) (s : ReadState) (line : Line) :
    pkgParseLine env (some (s.addConffiles cs)) line =
      ((pkgParseLine env (some s) line).1.map (ReadState.addConffiles cs),
        (pkgParseLine env (some s) line).2) := by
  rw [pkgParseLine, pkgParseLine]
  cases hc : fieldCase env line with
  | some c =>
      dsimp only
      rw [ReadState.addConffiles, act_addConffiles cs (List.mem_of_find?_eq_some hc)]
      rfl
  | none =>
      have hconffiles : parseConffilesLine (s.read.pkg.addConffiles cs) line.text =
          (parseConffilesLine s.read.pkg line.text).addConffiles cs := by
        simp [parseConffilesLine, Pkg.addConffiles]
      have hdescription : (s.read.pkg.addConffiles cs).description = s.read.pkg.description := rfl
      dsimp only
      rw [pkgParseOther, pkgParseOther]
      dsimp only
      rw [show (s.addConffiles cs).flags = s.flags from rfl,
        show (s.addConffiles cs).read.pkg = s.read.pkg.addConffiles cs from rfl, hconffiles, hdescription]
      by_cases hblank : line.text.head? = some ' '
      · rw [if_pos hblank, if_pos hblank]
        split_ifs
        · cases s.read.pkg.description <;> rfl
        · rfl
        · rfl
      · rw [if_neg hblank, if_neg hblank]
        rfl

/-! ## Flags -/

/-- A description that is read has begun. -/
def ReadState.DescriptionBegun (s : ReadState) : Prop := s.flags.description = true → s.read.pkg.description.isSome

theorem description_of_flags {c : FieldCase} (hc : c ∈ fieldCases env) (hflags : c.flags.description = true)
    (line : Line) (pkg : Pkg) : (c.act line pkg).description.isSome := by
  simp only [fieldCases, List.mem_cons, List.not_mem_nil, or_false] at hc
  rcases hc with rfl | rfl | rfl | rfl | rfl | rfl | rfl | rfl | rfl | rfl | rfl | rfl | rfl | rfl | rfl |
    rfl | rfl | rfl | rfl | rfl | rfl | rfl | rfl | rfl | rfl | rfl | rfl
  all_goals first
    | rfl
    | cases hflags

/-- **A description that is appended to** is there. -/
theorem pkgParseLine_isSome {s : ReadState} (hs : s.DescriptionBegun) (line : Line) :
    ∃ s', (pkgParseLine env (some s) line).1 = some s' ∧ s'.DescriptionBegun := by
  rw [pkgParseLine]
  cases hc : fieldCase env line with
  | some c => exact ⟨_, rfl, fun hflags => description_of_flags (List.mem_of_find?_eq_some hc) hflags line _⟩
  | none =>
      dsimp only
      rw [pkgParseOther]
      dsimp only
      split_ifs with hblank hdescription hconffiles
      · obtain ⟨description, hsome⟩ :=
          Option.isSome_iff_exists.mp (hs (Bool.and_eq_true_iff.mp hdescription).2)
        rw [hsome]
        exact ⟨_, rfl, fun _ => rfl⟩
      · exact ⟨_, rfl, hs⟩
      · exact ⟨_, rfl, fun hflags => by cases hflags⟩
      · exact ⟨_, rfl, fun hflags => by cases hflags⟩

/-- The flags matter to a line that begins with a blank only. -/
theorem pkgParseLine_flags {line : Line} (hline : line.text.head? ≠ some ' ') (read : ReadPkg)
    (flags flags' : ReadingFlags) :
    pkgParseLine env (some ⟨read, flags⟩) line = pkgParseLine env (some ⟨read, flags'⟩) line := by
  rw [pkgParseLine, pkgParseLine]
  cases fieldCase env line with
  | some c => rfl
  | none =>
      dsimp only
      rw [pkgParseOther, pkgParseOther]
      dsimp only
      rw [if_neg hline, if_neg hline]

/-- A line that begins with a blank is no field. -/
theorem pkgParseLine_blank {line : Line} (hline : line.text.head? = some ' ') (s : ReadState) :
    pkgParseLine env (some s) line = pkgParseOther env s line := by
  rw [pkgParseLine, fieldCase_eq_none fun a ha => ?_]
  obtain rfl : ' ' = a := Option.some.inj (hline.symm.trans ha)
  decide

/-! ## What is behind the NUL -/

/-- Behind a marker nothing is read beyond the line. -/
theorem parseSimple_behind {type text : CStr} (hcolon : ':' ∈ text) (htype : ':' ∉ type) (hpre : type <+: text)
    (behind : CStr) : parseSimple type ⟨text, behind⟩ = parseSimple type ⟨text, []⟩ := by
  have hlen : type.length + 1 ≤ text.length := by
    by_contra hlt
    have heq : type = text := hpre.eq_of_length_le (by omega)
    rw [heq] at htype
    exact htype hcolon
  rw [parseSimple, parseSimple, Line.stringAt, Line.stringAt, if_pos hlen, if_pos hlen]

theorem parseList_behind {text : CStr} (hcolon : ':' ∈ text) (sep : Char) (behind : CStr) :
    parseList ⟨text, behind⟩ sep false = parseList ⟨text, []⟩ sep false := by
  rw [parseList, parseList]
  dsimp only
  rw [if_pos hcolon, if_pos hcolon]
  rfl

theorem act_behind {text : CStr} (hcolon : ':' ∈ text) (behind : CStr) {c : FieldCase} (hc : c ∈ fieldCases env)
    (hkey : c.key <+: text) (pkg : Pkg) : c.act ⟨text, behind⟩ pkg = c.act ⟨text, []⟩ pkg := by
  simp only [fieldCases, List.mem_cons, List.not_mem_nil, or_false] at hc
  rcases hc with rfl | rfl | rfl | rfl | rfl | rfl | rfl | rfl | rfl | rfl | rfl | rfl | rfl | rfl | rfl |
    rfl | rfl | rfl | rfl | rfl | rfl | rfl | rfl | rfl | rfl | rfl | rfl
  all_goals dsimp only at hkey ⊢
  all_goals first
    | rw [parseSimple_behind hcolon (by decide) hkey]
    | rw [parseList_behind hcolon]
    -- a key with its marker
    | rw [parseSimple_behind hcolon (by decide) ((List.prefix_append "MD5sum".toList [':']).trans hkey)]
    | rw [parseSimple_behind hcolon (by decide) ((List.prefix_append "MD5Sum".toList [':']).trans hkey)]

/-- **What is behind the NUL** of a line matters to a field without a marker only. -/
theorem pkgParseLine_behind {text : CStr} (h : ':' ∈ text ∨ text.head? = some ' ') (behind : CStr)
    (s : Option ReadState) : pkgParseLine env s ⟨text, behind⟩ = pkgParseLine env s ⟨text, []⟩ := by
  cases s with
  | none => rfl
  | some s =>
      rw [pkgParseLine, pkgParseLine]
      have hsame : fieldCase env ⟨text, behind⟩ = fieldCase env ⟨text, []⟩ := rfl
      rw [hsame]
      cases hc : fieldCase env ⟨text, []⟩ with
      | none => rfl
      | some c =>
          have hkey := List.find?_some hc
          simp only [isField, Bool.and_eq_true, List.isPrefixOf_iff_prefix] at hkey
          rcases h with hcolon | hblank
          · dsimp only
            rw [act_behind hcolon behind (List.mem_of_find?_eq_some hc) hkey.2]
          · obtain ⟨a, ha, halpha⟩ := isalpha_head_of_fieldCase hc
            obtain rfl : ' ' = a := Option.some.inj (hblank.symm.trans ha)
            cases halpha

end FirmwareTools.Opkg

import FirmwareTools.Opkg.DependEntry
import FirmwareTools.Opkg.FeedLoad
import FirmwareTools.Opkg.FieldNames
import FirmwareTools.Opkg.VersionStr
import Mathlib.Tactic.IntervalCases

/-! # Writing the status file and reading it again

`opkg_conf_write_status_files` writes the packages of the database that are worth it, each with
`pkg_print_status`; the next program that starts reads them with `pkg_hash_add_from_file`, and
`hash_insert_pkg` resolves their fields.

* **`parseDepends_compoundDependStr`** — what is read of a printed entry: `<<` and `>>` are printed as the
  deprecated `<` and `>`, and become `<=` and `>=`;
* **`stanzaPkg_statusLines`** — what is read of a package: its temporary flags, its pre-dependencies and its
  greedy dependencies are lost;
* **`hashAddFromFile_statusFile`** — the packages of a file;
* **`trace_restart`** — the database that they are filed in;
* **`restarted_restarted`** — what is lost is lost at the first restart; later ones change nothing. -/

namespace FirmwareTools.Opkg

/-! ## States as text -/

/-- `pkg_state_want_to_str` -/
def pkgStateWantToStr : StateWant → CStr
  | .unknown => "unknown".toList
  | .install => "install".toList
  | .deinstall => "deinstall".toList
  | .purge => "purge".toList

/-- `sf & SF_NONVOLATILE_FLAGS` -/
def StateFlag.nonvolatile (sf : StateFlag) : StateFlag :=
  { hold := sf.hold, noprune := sf.noprune, prefer := sf.prefer, obsolete := sf.obsolete, user := sf.user }

/-- The names of `pkg_state_flag_map` with their bits; `SF_OK` has none. -/
def StateFlag.bits (sf : StateFlag) : List (CStr × Bool) :=
  [("ok".toList, false), ("reinstreq".toList, sf.reinstreq), ("hold".toList, sf.hold),
    ("replace".toList, sf.replace), ("noprune".toList, sf.noprune), ("prefer".toList, sf.prefer),
    ("obsolete".toList, sf.obsolete), ("user".toList, sf.user)]

/-- `pkg_state_flag_to_str`: each name with a comma, of which the last one is taken away again. -/
def pkgStateFlagToStr (sf : StateFlag) : CStr :=
  let sf := sf.nonvolatile
  if sf = {} then "ok".toList
  else ((sf.bits.filter Prod.snd).flatMap fun bit => bit.1 ++ [',']).dropLast

/-- `pkg_state_status_to_str` -/
def pkgStateStatusToStr (ss : StateStatus) : CStr :=
  ((pkgStateStatusMap.find? fun entry => entry.2 == ss).map Prod.fst).getD "<STATE_STATUS_UNKNOWN>".toList

theorem pkgStateWantFromStr_toStr (sw : StateWant) : pkgStateWantFromStr (pkgStateWantToStr sw) = sw := by
  cases sw <;> decide

theorem pkgStateStatusFromStr_toStr (ss : StateStatus) :
    pkgStateStatusFromStr (pkgStateStatusToStr ss) = ss := by
  cases ss <;> decide

/-- **The flags** that are kept are read again. -/
theorem pkgStateFlagFromStr_toStr (sf : StateFlag) :
    pkgStateFlagFromStr (pkgStateFlagToStr sf) = sf.nonvolatile := by
  have hall : ∀ hold noprune prefer obsolete user : Bool,
      pkgStateFlagFromStr (pkgStateFlagToStr { hold, noprune, prefer, obsolete, user }) =
        { hold, noprune, prefer, obsolete, user } := by decide +kernel
  exact hall sf.hold sf.noprune sf.prefer sf.obsolete sf.user

/-! ## Fields as text -/

/-- `"%s: %s"` -/
def fieldLine (key value : CStr) : CStr := key ++ ':' :: ' ' :: value

/-- A field that is a list: a blank in front of each item, commas between them. -/
def listLine (key : CStr) (items : List CStr) : CStr :=
  key ++ ':' :: [','].intercalate (items.map fun item => ' ' :: item)

/-- `%ld` -/
def longStr (n : ℕ) : CStr :=
  if n % 2 ^ 64 < 2 ^ 63 then Nat.toDigits 10 (n % 2 ^ 64) else '-' :: Nat.toDigits 10 (2 ^ 64 - n % 2 ^ 64)

/-- The entries of a field, of which only those of its type are printed. -/
def Pkg.entriesOf (pkg : Pkg) (type : DependType) : List CompoundDepend :=
  (pkg.depends.take (pkg.preDependsCount + pkg.dependsCount + pkg.recommendsCount + pkg.suggestsCount)).filter
    fun entry => entry.type = type

/-- The names that are printed for `Provides`: the first one is the package itself. -/
def Pkg.providedNames (pkg : Pkg) : List CStr := ((pkg.provides.getD []).take pkg.providesCount).tail

/-- The first alternatives of the conflicts. -/
def Pkg.conflictAlts (pkg : Pkg) : List Depend :=
  (pkg.conflicts.take pkg.conflictsCount).filterMap fun cdep => cdep.possibilities.head?

/-- `pkg_formatted_field`: the lines that are printed, without their newlines. There is no case for
`Pre-Depends`. -/
def pkgFormattedField (pkg : Pkg) : PkgField → List CStr
  | .architecture => pkg.architecture.toList.map (fieldLine "Architecture".toList)
  | .autoInstalled => if pkg.autoInstalled then [fieldLine "Auto-Installed".toList "yes".toList] else []
  | .conffiles =>
    if pkg.conffiles = [] then []
    else "Conffiles:".toList :: pkg.conffiles.filterMap fun conffile =>
      conffile.value.map fun value => ' ' :: conffile.name ++ ' ' :: value
  | .conflicts =>
    if pkg.conflictsCount = 0 then [] else [listLine "Conflicts".toList (pkg.conflictAlts.map dependStr)]
  | .depends =>
    if pkg.dependsCount = 0 then []
    else [listLine "Depends".toList ((pkg.entriesOf .depend).map compoundDependStr)]
  | .description => pkg.description.toList.map (fieldLine "Description".toList)
  | .essential => if pkg.essential then [fieldLine "Essential".toList "yes".toList] else []
  | .filename => pkg.filename.toList.map (fieldLine "Filename".toList)
  | .installedSize => [fieldLine "Installed-Size".toList (longStr pkg.installedSize)]
  | .installedTime =>
    if pkg.installedTime = 0 then []
    else [fieldLine "Installed-Time".toList (Nat.toDigits 10 pkg.installedTime)]
  | .maintainer => pkg.maintainer.toList.map (fieldLine "Maintainer".toList)
  | .md5sum => pkg.md5sum.toList.map (fieldLine "MD5Sum".toList)
  | .package => [fieldLine "Package".toList pkg.name]
  | .priority => [fieldLine "Priority".toList (pkg.priority.getD "(null)".toList)]
  | .provides =>
    if pkg.providesCount = 0 then [] else [listLine "Provides".toList pkg.providedNames]
  | .preDepends => []
  | .recommends =>
    if pkg.recommendsCount = 0 then []
    else [listLine "Recommends".toList ((pkg.entriesOf .recommend).map compoundDependStr)]
  | .replaces =>
    if pkg.replacesCount = 0 then []
    else [listLine "Replaces".toList (pkg.replaces.take pkg.replacesCount)]
  | .ofSection => pkg.sectionName.toList.map (fieldLine "Section".toList)
  | .sha256sum => pkg.sha256sum.toList.map (fieldLine "SHA256sum".toList)
  | .size => if pkg.size = 0 then [] else [fieldLine "Size".toList (longStr pkg.size)]
  | .source => pkg.source.toList.map (fieldLine "Source".toList)
  | .status =>
    [fieldLine "Status".toList (pkgStateWantToStr pkg.stateWant ++ ' ' :: (pkgStateFlagToStr pkg.stateFlag ++
      ' ' :: pkgStateStatusToStr pkg.stateStatus))]
  | .suggests =>
    if pkg.suggestsCount = 0 then []
    else [listLine "Suggests".toList ((pkg.entriesOf .suggest).map compoundDependStr)]
  | .tags => pkg.tags.toList.map (fieldLine "Tags".toList)
  | .version =>
    -- the copy of a version that is `NULL` is `NULL`
    if pkg.epoch = 0 ∧ pkg.revision = none ∧ pkg.version = none then []
    else [fieldLine "Version".toList (pkgVersionStrAlloc pkg)]

/-- The fields of `pkg_print_status`, in their order. -/
def statusFields : List PkgField :=
  [.package, .version, .depends, .recommends, .suggests, .provides, .replaces, .conflicts, .status, .essential,
    .architecture, .conffiles, .installedTime, .autoInstalled]

/-- The lines of a package in the status file. -/
def statusLines (pkg : Pkg) : List CStr := statusFields.flatMap (pkgFormattedField pkg)

/-- `pkg_print_status`: an empty line comes last. -/
def pkgPrintStatus (pkg : Pkg) : CStr := textOf (statusLines pkg ++ [[]]) []

/-- The packages that `opkg_conf_write_status_files` does not leave out. -/
def Pkg.isWritten (pkg : Pkg) : Bool :=
  !(pkg.stateStatus == .notInstalled && (pkg.stateWant == .unknown ||
    pkg.stateWant == .deinstall && pkg.stateFlag != { hold := true } || pkg.stateWant == .purge))

/-- `opkg_conf_write_status_files`: what is written to the status file of a destination, where the file can
be opened. `all` are the packages of the database. -/
def statusFile (dest : PkgDest) (all : List Pkg) : CStr :=
  (all.filter fun pkg => pkg.isWritten && pkg.dest == some dest).flatMap pkgPrintStatus

/-! ## Reading lists and words -/

/-- An item that is read as it is printed. -/
def Token (s : CStr) : Prop := (⟨[' '], s, []⟩ : ListItem).Ok ','

instance (s : CStr) : Decidable (Token s) := inferInstanceAs (Decidable (ListItem.Ok ',' _))

/-- A word of at most `n` characters. -/
def Word (n : ℕ) (s : CStr) : Prop := s ≠ [] ∧ s.length ≤ n ∧ s.all (!isspace ·) = true

instance (n : ℕ) (s : CStr) : Decidable (Word n s) := inferInstanceAs (Decidable (_ ∧ _ ∧ _))

section

variable {key value : CStr} {items : List CStr}

theorem listLine_eq (key : CStr) (items : List CStr) :
    listLine key items = key ++ ':' :: listText ',' (items.map fun s => ⟨[' '], s, []⟩) := by
  rw [listLine, listText, List.map_map]
  congr 3
  apply List.map_congr_left
  intro s _
  rw [Function.comp_apply, ListItem.text, List.append_nil]
  rfl

/-- **A list** is read as it is printed. -/
theorem parseList_listLine (hkey : ':' ∉ key) (hitems : ∀ s ∈ items, Token s) :
    parseList ⟨listLine key items, []⟩ ',' false = items := by
  rw [listLine_eq, parseList_field hkey]
  cases items with
  | nil => rfl
  | cons s items =>
      have hok : ∀ x ∈ (s :: items).map fun s => (⟨[' '], s, []⟩ : ListItem), x.Ok ',' := by
        intro x hx
        obtain ⟨t, ht, rfl⟩ := List.mem_map.mp hx
        exact hitems t ht
      have hs := hitems s List.mem_cons_self
      -- the first character of the first item is no blank
      obtain ⟨c, t, rfl⟩ := List.exists_cons_of_ne_nil hs.nonempty
      have hc : isspace c = false := hs.head c rfl
      have hmem : c ∈ listText ',' (((c :: t) :: items).map fun s => ⟨[' '], s, []⟩) := by
        cases items with
        | nil => simp [listText, ListItem.text]
        | cons t' items => simp [listText_cons, ListItem.text]
      have hblank : lineIsBlank (listText ',' (((c :: t) :: items).map fun s => ⟨[' '], s, []⟩)) = false := by
        rw [lineIsBlank, List.all_eq_false]
        exact ⟨c, hmem, by rw [hc]; exact Bool.false_ne_true⟩
      rw [hblank, if_neg Bool.false_ne_true, splitList_comma hok (by simp), List.map_map]
      simp [Function.comp_def]

/-- A value is trimmed. -/
theorem parseSimple_fieldLine (key value : CStr) :
    parseSimple key ⟨fieldLine key value, []⟩ = trimXstrdup value := by
  have hspace : isspace ' ' = true := by decide
  have hdrop : (key ++ ':' :: ' ' :: value).drop (key.length + 1) = ' ' :: value := by
    rw [List.drop_append, List.drop_eq_nil_of_le (Nat.le_succ _), List.nil_append,
      show key.length + 1 - key.length = 1 by omega]
    rfl
  rw [fieldLine, parseSimple_field (List.prefix_refl key), hdrop, trimXstrdup, trimXstrdup,
    List.dropWhile_cons_of_pos hspace]

/-- **A word** behind a blank. -/
theorem scanWordUpTo_word {n : ℕ} {s rest : CStr} (hs : Word n s)
    (hrest : ∀ c ∈ rest.head?, isspace c = true) :
    scanWordUpTo n (' ' :: (s ++ rest)) = some (s, rest) := by
  obtain ⟨hne, hlength, hall⟩ := hs
  have hword : ∀ c ∈ s, (!isspace c) = true := List.all_eq_true.mp hall
  have hspace : isspace ' ' = true := by decide
  obtain ⟨d, s', rfl⟩ := List.exists_cons_of_ne_nil hne
  have hd : isspace d = false := by simpa using hword d List.mem_cons_self
  have hdrop : (' ' :: (d :: s' ++ rest)).dropWhile isspace = d :: s' ++ rest := by
    rw [List.dropWhile_cons_of_pos hspace, List.cons_append, List.dropWhile_cons_of_neg (by simp [hd])]
  have htake : ((d :: s' ++ rest).take n).takeWhile (fun c => !isspace c) = d :: s' := by
    rw [List.take_append, List.take_of_length_le hlength, List.takeWhile_append_of_pos hword]
    have hend : (rest.take (n - (d :: s').length)).takeWhile (fun c => !isspace c) = [] := by
      cases rest with
      | nil => simp
      | cons c rest =>
          have hc := hrest c rfl
          cases n - (d :: s').length with
          | zero => rfl
          | succ k => rw [List.take_succ_cons, List.takeWhile_cons_of_neg (by simp [hc])]
    rw [hend, List.append_nil]
  rw [scanWordUpTo, hdrop, htake, if_neg (List.cons_ne_nil _ _), List.drop_left]

/-- A word in front of another one. -/
theorem scanWordUpTo_blank {n : ℕ} {s : CStr} (hs : Word n s) (rest : CStr) :
    scanWordUpTo n (' ' :: (s ++ ' ' :: rest)) = some (s, ' ' :: rest) :=
  scanWordUpTo_word hs fun c hc => by
    obtain rfl : ' ' = c := Option.some.inj hc
    decide

/-- The last word. -/
theorem scanWordUpTo_last {n : ℕ} {s : CStr} (hs : Word n s) : scanWordUpTo n (' ' :: s) = some (s, []) := by
  have h := @scanWordUpTo_word n s [] hs fun c hc => by cases hc
  rwa [List.append_nil] at h

end

/-! ## Entries that are printed -/

/-- The operator that is printed for a constraint. -/
def VersionConstraint.printedOp : VersionConstraint → EntryOp
  | .none | .equal => .equal
  | .earlier => .less
  | .earlierEqual => .earlierEqual
  | .laterEqual => .laterEqual
  | .later => .greater

/-- What is read of it. -/
def VersionConstraint.reread : VersionConstraint → VersionConstraint
  | .earlier => .earlierEqual
  | .later => .laterEqual
  | c => c

def Depend.reread (d : Depend) : Depend := { d with constraint := d.constraint.reread }

def CompoundDepend.reread (entry : CompoundDepend) : CompoundDepend :=
  { entry with possibilities := entry.possibilities.map Depend.reread }

/-- A version that can stand in an entry. -/
structure VersionFits (v : CStr) : Prop where
  noDelimiter : ')' ∉ v ∧ '|' ∉ v ∧ ',' ∉ v
  head : ∀ c ∈ v.head?, isspace c = false
  last : ∀ c ∈ v.getLast?, isspace c = false
  fits : v.length < bufferSize

/-- An alternative that can be printed: `parseDepends` reads no other ones from an entry of which each
alternative has a name. -/
structure Depend.Printable (d : Depend) : Prop where
  nameNonempty : d.pkg ≠ []
  nameChars : ∀ c ∈ d.pkg, isNameChar c = true ∧ c ≠ ')' ∧ c ≠ ','
  nameFits : d.pkg.length < bufferSize
  constraint : d.constraint = .none ↔ d.version = none
  version : ∀ v ∈ d.version, VersionFits v

/-- An entry that can be printed. -/
structure CompoundDepend.Printable (entry : CompoundDepend) : Prop where
  nonempty : entry.possibilities ≠ []
  alts : ∀ d ∈ entry.possibilities, d.Printable

/-- One blank, between two tokens. -/
def oneBlank : Blanks := ⟨[' '], List.forall_mem_singleton.mpr rfl⟩

theorem isspace_of_mem_nil : ∀ c ∈ ([] : CStr), isspace c = true := fun _ h => absurd h List.not_mem_nil

def noBlank : Blanks := ⟨[], isspace_of_mem_nil⟩

section

variable {d : Depend}

theorem constraintToStr_eq (c : VersionConstraint) (hc : c ≠ .none) :
    constraintToStr c = c.printedOp.text ++ [' '] := by
  cases c with
  | none => exact absurd rfl hc
  | _ => rfl

theorem printedOp_constraint (c : VersionConstraint) (hc : c ≠ .none) : c.printedOp.constraint = c.reread := by
  cases c with
  | none => exact absurd rfl hc
  | _ => rfl

/-- **An alternative** with the blanks around it, as an alternative of an entry. -/
theorem Depend.Printable.exists_alt (hd : d.Printable) (before after : Blanks) :
    ∃ a : EntryAlt, a.before = before ∧ a.name ++ a.rest = dependStr d ++ after.1 ∧ a.depend = d.reread ∧
      a.star = none ∧ a.IsRead := by
  obtain ⟨constraint, version, name⟩ := d
  have hname : ∀ c ∈ name, isNameChar c = true ∧ c ≠ ')' := fun c hc =>
    ⟨(hd.nameChars c hc).1, (hd.nameChars c hc).2.1⟩
  cases version with
  | none =>
      obtain rfl : constraint = .none := hd.constraint.mpr rfl
      refine ⟨⟨before, name, none, none, after, hd.nameNonempty, hname, hd.nameFits⟩, rfl, ?_, rfl, rfl, ?_⟩
      · simp [EntryAlt.rest, dependStr]
      · exact ⟨fun c hc => absurd hc (by simp), fun _ => rfl⟩
  | some v =>
      have hv := hd.version v rfl
      have hsome : constraint ≠ .none := fun h => by cases hd.constraint.mp h
      refine ⟨⟨before, name, none, some ⟨oneBlank, noBlank, constraint.printedOp, oneBlank, v, noBlank,
        ⟨hv.noDelimiter.1, hv.noDelimiter.2.1⟩, hv.head, hv.last, hv.fits⟩, after, hd.nameNonempty, hname,
        hd.nameFits⟩, rfl, ?_, ?_, rfl, ?_⟩
      · simp [EntryAlt.rest, EntryConstraint.text, EntryConstraint.body, dependStr, oneBlank, noBlank,
          constraintToStr_eq constraint hsome]
      · rw [EntryAlt.depend, Depend.reread, ← printedOp_constraint constraint hsome]
        rfl
      · refine ⟨fun c hc => ?_, fun h => by cases h⟩
        cases hc
        exact ⟨rfl, fun h => absurd h (List.cons_ne_nil _ _), .inr (by simpa [noBlank] using hv.fits)⟩

end

theorem compoundDependStr_cons (type : DependType) (d e : Depend) (ds : List Depend) :
    compoundDependStr ⟨type, d :: e :: ds⟩ =
      dependStr d ++ " | ".toList ++ compoundDependStr ⟨type, e :: ds⟩ := by
  simp only [compoundDependStr, List.map_cons]
  rw [List.intercalate_cons_cons]

theorem compoundDependStr_single (type : DependType) (d : Depend) :
    compoundDependStr ⟨type, [d]⟩ = dependStr d := List.intercalate_singleton

/-- **The alternatives** of an entry, with a blank on both sides of each bar. -/
theorem exists_alts (type : DependType) {ds : List Depend} (hds : ∀ d ∈ ds, d.Printable) {d : Depend}
    (hd : d.Printable) (before : Blanks) :
    ∃ (a : EntryAlt) (as : List EntryAlt), a.before = before ∧
      entryText a as = before.1 ++ compoundDependStr ⟨type, d :: ds⟩ ∧
      (a :: as).map EntryAlt.depend = (d :: ds).map Depend.reread ∧ (∀ x ∈ a :: as, x.star = none) ∧
      AltsOk (a :: as) := by
  induction ds generalizing d before with
  | nil =>
      obtain ⟨a, hbefore, htext, hdepend, hstar, hread⟩ := hd.exists_alt before noBlank
      refine ⟨a, [], hbefore, ?_, by rw [List.map_singleton, hdepend]; rfl, by simpa using hstar, ?_⟩
      · rw [entryText, hbefore, entryTail, List.append_nil, List.append_assoc, htext,
          compoundDependStr_single, noBlank, List.append_nil]
      · exact (altsOk_cons a []).mpr ⟨hread, fun _ => rfl, trivial⟩
  | cons e ds ih =>
      rw [List.forall_mem_cons] at hds
      obtain ⟨a', as', hbefore', htext', hdepends', hstars', hok'⟩ := ih hds.2 hds.1 oneBlank
      obtain ⟨a, hbefore, htext, hdepend, hstar, hread⟩ := hd.exists_alt before oneBlank
      refine ⟨a, a' :: as', hbefore, ?_, ?_, ?_, ?_⟩
      · have htail : entryTail (a' :: as') = '|' :: entryText a' as' := rfl
        rw [entryText, hbefore, htail, htext', List.append_assoc _ a.name, htext, compoundDependStr_cons]
        simp [oneBlank]
      · rw [List.map_cons, hdepends', hdepend]
        rfl
      · rw [List.forall_mem_cons]
        exact ⟨hstar, hstars'⟩
      · refine (altsOk_cons a _).mpr ⟨hread, fun h => ?_, hok'⟩
        rw [hstar] at h
        cases h

/-- **An entry** is read as it is printed, but for its type and its strict operators. -/
theorem parseDepends_compoundDependStr {entry : CompoundDepend} (h : entry.Printable) :
    parseDepends (compoundDependStr entry) = some { entry.reread with type := .depend } := by
  obtain ⟨type, possibilities⟩ := entry
  obtain ⟨d, ds, rfl⟩ := List.exists_cons_of_ne_nil h.nonempty
  obtain ⟨a, as, hbefore, htext, hdepends, hstars, hok⟩ :=
    exists_alts type (fun e he => h.alts e (List.mem_cons_of_mem d he)) (h.alts d List.mem_cons_self) noBlank
  have hparsed := (parsedExactly_iff a as).mpr ⟨by rw [hbefore]; rfl, hok⟩
  have hgreedy : ((a :: as).any fun a => a.star.isSome) = false := by
    rw [List.any_eq_false]
    intro x hx
    rw [hstars x hx]
    exact Bool.false_ne_true
  rw [ParsedExactly, htext, entryDepend, hgreedy, if_neg Bool.false_ne_true, hdepends] at hparsed
  exact hparsed

theorem printable_earlier : (⟨.earlier, some "2".toList, "q".toList⟩ : Depend).Printable where
  nameNonempty := by decide
  nameChars := List.forall_mem_singleton.mpr (by decide)
  nameFits := by decide
  constraint := by decide
  version v hv := by
    obtain rfl : "2".toList = v := Option.some.inj hv
    exact ⟨by decide, fun c hc => by cases hc; rfl, fun c hc => by cases hc; rfl, by decide⟩

/-- `<<` becomes `<=`. -/
theorem parseDepends_compoundDependStr_earlier :
    parseDepends (compoundDependStr ⟨.recommend, [⟨.earlier, some "2".toList, "q".toList⟩]⟩) =
      some ⟨.depend, [⟨.earlierEqual, some "2".toList, "q".toList⟩]⟩ :=
  parseDepends_compoundDependStr ⟨List.cons_ne_nil _ _, fun d hd => by
    rw [List.mem_singleton.mp hd]
    exact printable_earlier⟩

/-! ## Items -/

section

variable {s t : CStr} {d : Depend}

theorem not_isspace_of_isNameChar {c : Char} (h : isNameChar c = true) : isspace c = false := by
  simp only [isNameChar, Bool.and_eq_true, Bool.not_eq_true'] at h
  exact h.1.1.1

theorem Token.append (hs : Token s) (ht : Token t) {mid : CStr} (hmid : ',' ∉ mid) : Token (s ++ mid ++ t) where
  before := hs.before
  behind := hs.behind
  nonempty h := hs.nonempty (List.append_eq_nil_iff.mp (List.append_eq_nil_iff.mp h).1).1
  head c hc := by
    obtain ⟨e, s', hs'⟩ := List.exists_cons_of_ne_nil hs.nonempty
    rw [show s = e :: s' from hs'] at hc
    exact hs.head c (by rw [show s = e :: s' from hs']; exact hc)
  last c hc := by
    have hlast : (s ++ mid ++ t).getLast? = t.getLast? := by
      rw [List.getLast?_append, List.getLast?_eq_some_getLast ht.nonempty, Option.some_or]
    exact ht.last c (by rw [← hlast]; exact hc)
  noSep := by
    rw [List.mem_append, List.mem_append, not_or, not_or]
    exact ⟨⟨hs.noSep, hmid⟩, ht.noSep⟩
  inside h := absurd h (by decide)

theorem token_name (hd : d.Printable) : Token d.pkg where
  before := oneBlank.2
  behind := noBlank.2
  nonempty := hd.nameNonempty
  head c hc := not_isspace_of_isNameChar (hd.nameChars c (List.mem_of_mem_head? hc)).1
  last c hc := not_isspace_of_isNameChar (hd.nameChars c (List.mem_of_getLast? hc)).1
  noSep h := (hd.nameChars ',' h).2.2 rfl
  inside h := absurd h (by decide)

/-- **An alternative** is an item. -/
theorem token_dependStr (hd : d.Printable) : Token (dependStr d) := by
  obtain ⟨constraint, version, name⟩ := d
  cases version with
  | none =>
      rw [dependStr, List.append_nil]
      exact token_name hd
  | some v =>
      have hv := hd.version v rfl
      have hparen : Token [')'] := by decide
      have hop : ',' ∉ constraintToStr constraint := by cases constraint <;> decide
      have hmid : ',' ∉ " (".toList ++ constraintToStr constraint ++ v := by
        rw [List.mem_append, List.mem_append, not_or, not_or]
        exact ⟨⟨by decide, hop⟩, hv.noDelimiter.2.2⟩
      have h := (token_name hd).append hparen hmid
      rw [dependStr, ← List.append_assoc]
      exact h

/-- **An entry** is an item. -/
theorem token_compoundDependStr {entry : CompoundDepend} (h : entry.Printable) :
    Token (compoundDependStr entry) := by
  obtain ⟨type, possibilities⟩ := entry
  obtain ⟨d, ds, rfl⟩ := List.exists_cons_of_ne_nil h.nonempty
  replace h := h.alts
  dsimp only at h
  induction ds generalizing d with
  | nil =>
      rw [compoundDependStr_single]
      exact token_dependStr (h d List.mem_cons_self)
  | cons e ds ih =>
      rw [List.forall_mem_cons] at h
      rw [compoundDependStr_cons]
      exact (token_dependStr h.1).append (ih e h.2) (by decide)

end

/-! ## Packages -/

/-- What is printed of a list, which is left out if it counts none. -/
def counted {α : Type} (count : ℕ) (items : List α) : List α := if count = 0 then [] else items

def Pkg.dependsItems (p : Pkg) : List CStr :=
  counted p.dependsCount ((p.entriesOf .depend).map compoundDependStr)

def Pkg.recommendsItems (p : Pkg) : List CStr :=
  counted p.recommendsCount ((p.entriesOf .recommend).map compoundDependStr)

def Pkg.suggestsItems (p : Pkg) : List CStr :=
  counted p.suggestsCount ((p.entriesOf .suggest).map compoundDependStr)

def Pkg.providesItems (p : Pkg) : List CStr := counted p.providesCount p.providedNames

def Pkg.replacesItems (p : Pkg) : List CStr := counted p.replacesCount (p.replaces.take p.replacesCount)

def Pkg.conflictsItems (p : Pkg) : List CStr := counted p.conflictsCount (p.conflictAlts.map dependStr)

/-- **What is read** of a package that has been written. -/
def Pkg.statusRecord (env : ParseEnv) (dest : PkgDest) (p : Pkg) : Pkg :=
  { pkgNew with
    dest := some dest
    name := p.name
    epoch := p.epoch
    version := p.version
    revision := p.revision
    dependsStr := p.dependsItems
    dependsCount := p.dependsItems.length
    recommendsStr := p.recommendsItems
    recommendsCount := p.recommendsItems.length
    suggestsStr := p.suggestsItems
    suggestsCount := p.suggestsItems.length
    providesStr := p.providesItems
    providesCount := p.providesItems.length
    replacesStr := p.replacesItems
    replacesCount := p.replacesItems.length
    conflictsStr := p.conflictsItems
    conflictsCount := p.conflictsItems.length
    stateWant := p.stateWant
    stateFlag := p.stateFlag.nonvolatile
    stateStatus := p.stateStatus
    essential := p.essential
    architecture := p.architecture
    archPriority := (p.architecture.map (getArchPriority env)).getD 0
    conffiles := p.conffiles.filter fun conffile => conffile.value.isSome
    installedTime := p.installedTime
    autoInstalled := p.autoInstalled }

/-- A package that can be printed: its lines are lines, and its values are of a kind that the parser takes
over as they are. -/
structure Pkg.Printable (p : Pkg) : Prop where
  lines : ∀ l ∈ statusLines p, IsLine l ∧ Short l
  name : trimXstrdup p.name = p.name
  architecture : ∀ arch ∈ p.architecture, trimXstrdup arch = arch
  version : p.versionParts = (0, none, none) ∨
    ∃ vstr, VersionOk vstr ∧ p.versionParts = (parseVersion pkgNew vstr).versionParts
  depends : ∀ entry ∈ p.depends, entry.Printable
  conflicts : ∀ d ∈ p.conflictAlts, d.Printable
  provides : ∀ name ∈ p.providedNames, Token name
  replaces : ∀ name ∈ p.replaces, Token name
  conffiles : ∀ conffile ∈ p.conffiles, ∀ value ∈ conffile.value, Word 1023 conffile.name ∧ Word 34 value
  installedTime : p.installedTime ≤ ulongMax

/-! ## Reading the lines -/

/-- The lines lead from a package that is being read to another one, where no description is being
read. -/
def ReadsTo (env : ParseEnv) (lines : List CStr) (r r' : ReadPkg) : Prop :=
  ∀ flags : ReadingFlags, flags.description = false → ∃ flags' : ReadingFlags, flags'.description = false ∧
    (linesOf lines).foldl (fun s line => (pkgParseLine env s line).1) (some ⟨r, flags⟩) = some ⟨r', flags'⟩

section

variable {env : ParseEnv} {ls ls' : List CStr} {r r' r'' : ReadPkg} {f : PkgField} {c : FieldCase} {p pkg : Pkg}
  {named : Bool}

theorem ReadsTo.nil : ReadsTo env [] r r := fun flags h => ⟨flags, h, rfl⟩

theorem ReadsTo.append (h : ReadsTo env ls r r') (h' : ReadsTo env ls' r' r'') :
    ReadsTo env (ls ++ ls') r r'' := by
  intro flags hflags
  obtain ⟨flags₁, hflags₁, hfold₁⟩ := h flags hflags
  obtain ⟨flags₂, hflags₂, hfold₂⟩ := h' flags₁ hflags₁
  refine ⟨flags₂, hflags₂, ?_⟩
  rw [linesOf, List.map_append, List.foldl_append, ← linesOf, ← linesOf, hfold₁, hfold₂]

/-- **A line** of a field. -/
theorem readsTo_line (hc : (fieldCases env).find? (fun c => c.field = f) = some c)
    (hmasked : env.masked f = false) (hflags : c.flags.description = false) {line : CStr}
    (hkey : c.key <+: line) :
    ReadsTo env [line] r ⟨c.act ⟨line, []⟩ r.pkg, r.named || f == .package⟩ := by
  intro flags _
  have hfield : c.field = f := by simpa using List.find?_some hc
  have hcase : fieldCase env ⟨line, []⟩ = some c :=
    fieldCase_iff.mpr ⟨List.mem_of_find?_eq_some hc, by rw [hfield, hmasked], hkey⟩
  refine ⟨c.flags, hflags, ?_⟩
  rw [linesOf, List.map_singleton, List.foldl_cons, List.foldl_nil, pkgParseLine]
  dsimp only
  rw [hcase]
  dsimp only
  rw [hfield]

/-- **A list.** -/
theorem readsTo_list (hc : (fieldCases env).find? (fun c => c.field = f) = some c)
    (hmasked : env.masked f = false) (hflags : c.flags.description = false) (hf : f ≠ .package)
    (hkey : ':' ∉ c.key) (set : List CStr → Pkg → Pkg)
    (hact : ∀ line pkg, c.act line pkg = set (parseList line ',' false) pkg) {count : ℕ} {items : List CStr}
    (hitems : ∀ s ∈ items, Token s) (hpkg : set [] pkg = pkg) :
    ReadsTo env (if count = 0 then [] else [listLine c.key items]) ⟨pkg, named⟩
      ⟨set (counted count items) pkg, named⟩ := by
  rw [counted]
  split_ifs
  · rw [hpkg]
    exact .nil
  · have hline := @readsTo_line env ⟨pkg, named⟩ f c hc hmasked hflags (listLine c.key items)
      (List.prefix_append _ _)
    rwa [hact, parseList_listLine hkey hitems, beq_eq_false_iff_ne.mpr hf, Bool.or_false] at hline

/-- A field that is `yes` or not there. -/
theorem readsTo_yes (hc : (fieldCases env).find? (fun c => c.field = f) = some c)
    (hmasked : env.masked f = false) (hflags : c.flags.description = false) (hf : f ≠ .package)
    (set : Bool → Pkg → Pkg) (hact : ∀ line pkg, c.act line pkg =
      if parseSimple c.key line = "yes".toList then set true pkg else pkg) (b : Bool)
    (hpkg : set false pkg = pkg) :
    ReadsTo env (if b then [fieldLine c.key "yes".toList] else []) ⟨pkg, named⟩ ⟨set b pkg, named⟩ := by
  cases b with
  | false =>
      rw [hpkg]
      exact .nil
  | true =>
      have hline := @readsTo_line env ⟨pkg, named⟩ f c hc hmasked hflags (fieldLine c.key "yes".toList)
        (List.prefix_append _ _)
      rwa [hact, parseSimple_fieldLine, if_pos (by decide), beq_eq_false_iff_ne.mpr hf, Bool.or_false] at hline

theorem readsTo_package (hmasked : env.masked .package = false) (hname : trimXstrdup p.name = p.name) :
    ReadsTo env (pkgFormattedField p .package) ⟨pkg, named⟩ ⟨{ pkg with name := p.name }, true⟩ := by
  have hline := @readsTo_line env ⟨pkg, named⟩ .package _ rfl hmasked rfl (fieldLine "Package".toList p.name)
    (List.prefix_append _ _)
  dsimp only at hline
  rwa [parseSimple_fieldLine, hname, beq_self_eq_true, Bool.or_true] at hline

theorem pkgVersionStrAlloc_congr {p q : Pkg} (h : p.versionParts = q.versionParts) :
    pkgVersionStrAlloc p = pkgVersionStrAlloc q := by
  obtain ⟨hepoch, hrest⟩ := Prod.mk.inj h
  obtain ⟨hversion, hrevision⟩ := Prod.mk.inj hrest
  rw [pkgVersionStrAlloc, pkgVersionStrAlloc, hepoch, hversion, hrevision]

theorem readsTo_version (hmasked : env.masked .version = false) (hp : p.versionParts = (0, none, none) ∨
      ∃ vstr, VersionOk vstr ∧ p.versionParts = (parseVersion pkgNew vstr).versionParts)
    (hpkg : pkg.versionParts = (0, none, none)) :
    ReadsTo env (pkgFormattedField p .version) ⟨pkg, named⟩
      ⟨{ pkg with epoch := p.epoch, version := p.version, revision := p.revision }, named⟩ := by
  rcases hp with hp | ⟨vstr, hok, hparts⟩
  · -- there is no version
    have hsame := Prod.mk.inj (hp.trans hpkg.symm)
    have hsame' := Prod.mk.inj hsame.2
    have hnone := Prod.mk.inj hp
    have hnone' := Prod.mk.inj hnone.2
    rw [pkgFormattedField, if_pos ⟨hnone.1, hnone'.2, hnone'.1⟩, hsame.1, hsame'.1, hsame'.2]
    exact .nil
  · have hkept := ((versionKept_iff vstr).mpr hok pkgNew pkg).2
    rw [← pkgVersionStrAlloc_congr hparts, ← hparts] at hkept
    have hline := @readsTo_line env ⟨pkg, named⟩ .version _ rfl hmasked rfl
      (fieldLine "Version".toList (pkgVersionStrAlloc p)) (List.prefix_append _ _)
    have hsome : p.version ≠ none := by
      have hversion := (Prod.mk.inj (Prod.mk.inj hparts).2).1
      rw [show p.version = _ from hversion]
      exact Option.some_ne_none _
    have hread : parseVersion pkg (fieldLine "Version".toList (pkgVersionStrAlloc p)) =
        { pkg with epoch := p.epoch, version := p.version, revision := p.revision } := by
      obtain ⟨hepoch, hrest⟩ := Prod.mk.inj hkept
      obtain ⟨hversion, hrevision⟩ := Prod.mk.inj hrest
      rw [← show _ = p.epoch from hepoch, ← show _ = p.version from hversion,
        ← show _ = p.revision from hrevision]
      rfl
    rw [pkgFormattedField, if_neg fun h => hsome h.2.2]
    dsimp only at hline
    rwa [hread, beq_eq_false_iff_ne.mpr (by decide), Bool.or_false] at hline

theorem word_pkgStateWantToStr (sw : StateWant) : Word 63 (pkgStateWantToStr sw) := by
  cases sw <;> decide

theorem word_pkgStateFlagToStr (sf : StateFlag) : Word 63 (pkgStateFlagToStr sf) := by
  have hall : ∀ hold noprune prefer obsolete user : Bool,
      Word 63 (pkgStateFlagToStr { hold, noprune, prefer, obsolete, user }) := by decide +kernel
  exact hall sf.hold sf.noprune sf.prefer sf.obsolete sf.user

theorem word_pkgStateStatusToStr (ss : StateStatus) : Word 63 (pkgStateStatusToStr ss) := by
  cases ss <;> decide

/-- **The three words** of the status. -/
theorem parseStatus_fieldLine (sw : StateWant) (sf : StateFlag) (ss : StateStatus) :
    parseStatus pkg (fieldLine "Status".toList (pkgStateWantToStr sw ++ ' ' :: (pkgStateFlagToStr sf ++
      ' ' :: pkgStateStatusToStr ss))) =
        { pkg with stateWant := sw, stateFlag := sf.nonvolatile, stateStatus := ss } := by
  have hwant := scanWordUpTo_blank (word_pkgStateWantToStr sw)
    (pkgStateFlagToStr sf ++ ' ' :: pkgStateStatusToStr ss)
  have hflag := scanWordUpTo_blank (word_pkgStateFlagToStr sf) (pkgStateStatusToStr ss)
  have hkey : "Status:".toList.isPrefixOf (fieldLine "Status".toList (pkgStateWantToStr sw ++
      ' ' :: (pkgStateFlagToStr sf ++ ' ' :: pkgStateStatusToStr ss))) = true :=
    List.isPrefixOf_iff_prefix.mpr ⟨_, rfl⟩
  have hdrop : ∀ t, (fieldLine "Status".toList t).drop 7 = ' ' :: t := fun _ => rfl
  rw [parseStatus, if_pos hkey, hdrop, hwant]
  dsimp only
  rw [hflag]
  dsimp only
  rw [scanWordUpTo_last (word_pkgStateStatusToStr ss)]
  dsimp only
  rw [pkgStateWantFromStr_toStr, pkgStateFlagFromStr_toStr, pkgStateStatusFromStr_toStr]

theorem readsTo_status (hmasked : env.masked .status = false) :
    ReadsTo env (pkgFormattedField p .status) ⟨pkg, named⟩
      ⟨{ pkg with
          stateWant := p.stateWant, stateFlag := p.stateFlag.nonvolatile, stateStatus := p.stateStatus },
        named⟩ := by
  have hline := @readsTo_line env ⟨pkg, named⟩ .status _ rfl hmasked rfl
    (fieldLine "Status".toList (pkgStateWantToStr p.stateWant ++ ' ' :: (pkgStateFlagToStr p.stateFlag ++
      ' ' :: pkgStateStatusToStr p.stateStatus))) (List.prefix_append _ _)
  dsimp only at hline
  rwa [parseStatus_fieldLine, beq_eq_false_iff_ne.mpr (by decide), Bool.or_false] at hline

theorem readsTo_architecture (hmasked : env.masked .architecture = false)
    (harch : ∀ arch ∈ p.architecture, trimXstrdup arch = arch)
    (hpkg : pkg.architecture = none ∧ pkg.archPriority = 0) :
    ReadsTo env (pkgFormattedField p .architecture) ⟨pkg, named⟩
      ⟨{ pkg with
          architecture := p.architecture
          archPriority := (p.architecture.map (getArchPriority env)).getD 0 }, named⟩ := by
  rw [pkgFormattedField]
  cases hsome : p.architecture with
  | none =>
      have hsame : { pkg with architecture := none, archPriority := 0 } = pkg := by
        rw [← hpkg.1, ← hpkg.2]
      exact hsame.symm ▸ ReadsTo.nil
  | some arch =>
      have hline := @readsTo_line env ⟨pkg, named⟩ .architecture _ rfl hmasked rfl
        (fieldLine "Architecture".toList arch) (List.prefix_append _ _)
      dsimp only at hline
      rwa [parseSimple_fieldLine, harch arch hsome, beq_eq_false_iff_ne.mpr (by decide), Bool.or_false] at hline

/-- **A configuration file.** -/
theorem scanConffile_line {name value : CStr} (hname : Word 1023 name) (hvalue : Word 34 value) :
    scanConffile (' ' :: name ++ ' ' :: value) = some ⟨name, some value⟩ := by
  rw [List.cons_append, scanConffile, scanWordUpTo_blank hname value]
  dsimp only
  rw [scanWordUpTo_last hvalue]
  rfl

theorem readsTo_conffiles (hmasked : env.masked .conffiles = false)
    (hp : ∀ conffile ∈ p.conffiles, ∀ value ∈ conffile.value, Word 1023 conffile.name ∧ Word 34 value)
    (hpkg : pkg.conffiles = []) :
    ReadsTo env (pkgFormattedField p .conffiles) ⟨pkg, named⟩
      ⟨{ pkg with conffiles := p.conffiles.filter fun conffile => conffile.value.isSome }, named⟩ := by
  rw [pkgFormattedField]
  split_ifs with hnil
  · have hsame : { pkg with conffiles := [] } = pkg := by rw [← hpkg]
    rw [hnil]
    exact hsame.symm ▸ ReadsTo.nil
  · intro flags _
    have hcase : fieldCase env ⟨"Conffiles:".toList, []⟩ =
        some { field := .conffiles, key := "Conffiles".toList, act := fun _ pkg => pkg, flags := ⟨true, false⟩ } :=
      fieldCase_iff.mpr ⟨List.mem_of_find?_eq_some
        (show (fieldCases env).find? (fun c => c.field = .conffiles) = some _ from rfl), hmasked,
        List.prefix_append _ _⟩
    -- the lines behind the field's name
    have hread : ∀ (cs : List Conffile),
        (∀ conffile ∈ cs, ∀ value ∈ conffile.value, Word 1023 conffile.name ∧ Word 34 value) →
        (linesOf (cs.filterMap fun conffile => conffile.value.map fun value =>
          ' ' :: conffile.name ++ ' ' :: value)).filterMap (fun l => scanConffile l.text) =
          cs.filter fun conffile => conffile.value.isSome := by
      intro cs hcs
      induction cs with
      | nil => rfl
      | cons conffile cs ih =>
          rw [List.forall_mem_cons] at hcs
          have hrest := ih hcs.2
          obtain ⟨name, value⟩ := conffile
          cases value with
          | none => simpa using hrest
          | some value =>
              have hword := hcs.1 value rfl
              have hscan := scanConffile_line hword.1 hword.2
              simp only [List.filterMap_cons, Option.map_some, linesOf, List.map_cons, hscan,
                Option.isSome_some, List.filter_cons_of_pos]
              rw [linesOf] at hrest
              rw [hrest]
    have hblank : ∀ l ∈ linesOf (p.conffiles.filterMap fun conffile => conffile.value.map fun value =>
        ' ' :: conffile.name ++ ' ' :: value), l.text.head? = some ' ' := by
      intro l hl
      obtain ⟨text, htext, rfl⟩ := List.mem_map.mp hl
      obtain ⟨conffile, -, hmap⟩ := List.mem_filterMap.mp htext
      obtain ⟨value, -, rfl⟩ := Option.map_eq_some_iff.mp hmap
      rfl
    refine ⟨⟨true, false⟩, rfl, ?_⟩
    have hfold := @foldl_lead_conffiles env ⟨true, false⟩ _ hblank pkg named (Bool.and_false _)
      (by rw [readingConffiles, hmasked]; rfl)
    rw [linesOf, List.map_cons, List.foldl_cons, ← linesOf, pkgParseLine]
    dsimp only
    rw [hcase]
    dsimp only
    rw [show (PkgField.conffiles == PkgField.package) = false from rfl, Bool.or_false, hfold, hread _ hp, hpkg,
      List.nil_append]

/-! ### Numbers -/

theorem head_toDigits {n : ℕ} (hn : 0 < n) : ∃ d ds, Nat.toDigits 10 n = d :: ds ∧ d ≠ '0' := by
  induction n using Nat.strong_induction_on with
  | h n ih =>
      rw [Nat.toDigits_eq_if (by decide)]
      split_ifs with hlt
      · refine ⟨_, [], rfl, ?_⟩
        interval_cases n <;> decide
      · obtain ⟨d, ds, hds, hd⟩ := ih (n / 10) (Nat.div_lt_self hn (by decide)) (by omega)
        exact ⟨d, ds ++ [(n % 10).digitChar], by rw [hds, List.cons_append], hd⟩

theorem digitIn_of_isdigit {c : Char} (hc : isdigit c = true) : digitIn 10 c = some (c.toNat - '0'.toNat) := by
  have hrange := isdigit_iff.mp hc
  rw [digitIn, if_pos hc, Option.filter_some, if_pos (by rw [decide_eq_true_eq]; omega)]
  rfl

/-- **A number** that is printed. -/
theorem strtoulAuto_toDigits {n : ℕ} (hn : 0 < n) (hmax : n ≤ ulongMax) :
    strtoulAuto (Nat.toDigits 10 n) = n := by
  obtain ⟨d, ds, hds, hd⟩ := head_toDigits hn
  have hdigits : ∀ c ∈ d :: ds, isdigit c = true := by
    intro c hc
    rw [← hds] at hc
    exact isdigit_of_mem_toDigits hc
  have hdigit := hdigits d List.mem_cons_self
  have hspace : isspace d = false := isspace_of_isdigit hdigit
  have hminus : d ≠ '-' := by
    rintro rfl
    cases hdigit
  have hplus : d ≠ '+' := by
    rintro rfl
    cases hdigit
  have htake : (d :: ds).takeWhile (fun c => (digitIn 10 c).isSome) = d :: ds :=
    List.takeWhile_eq_self_iff.mpr fun c hc => by rw [digitIn_of_isdigit (hdigits c hc)]; rfl
  have hfold : (d :: ds).foldl (fun n c => 10 * n + (digitIn 10 c).getD 0) 0 = digitsValue (d :: ds) := by
    apply List.foldl_ext
    intro n c hc
    rw [digitIn_of_isdigit (hdigits c hc)]
    rfl
  have hscan : scanNumber (d :: ds) = (false, digitsValue (d :: ds)) := by
    rw [scanNumber, List.dropWhile_cons_of_neg (by simp [hspace])]
    simp only [List.head?_cons, Option.some_beq_some, beq_eq_false_iff_ne.mpr hminus,
      beq_eq_false_iff_ne.mpr hplus, Bool.or_self, Bool.false_eq_true, if_false]
    split
    · rename_i heq
      exact absurd (List.cons.inj heq).1 hd
    · rename_i heq
      exact absurd (List.cons.inj heq).1 hd
    · rw [htake, hfold]
  rw [strtoulAuto, hds, hscan]
  dsimp only
  rw [← hds, digitsValue_toDigits, if_neg (Nat.not_lt.mpr hmax), if_neg Bool.false_ne_true]

theorem trimXstrdup_toDigits (n : ℕ) : trimXstrdup (Nat.toDigits 10 n) = Nat.toDigits 10 n := by
  have hspace : ∀ c ∈ Nat.toDigits 10 n, isspace c = false := fun c hc =>
    isspace_of_isdigit (isdigit_of_mem_toDigits hc)
  exact trimXstrdup_eq_self (fun c hc => hspace c (List.mem_of_mem_head? hc))
    (fun c hc => hspace c (List.mem_of_getLast? hc))

theorem readsTo_installedTime (hmasked : env.masked .installedTime = false) (hp : p.installedTime ≤ ulongMax)
    (hpkg : pkg.installedTime = 0) :
    ReadsTo env (pkgFormattedField p .installedTime) ⟨pkg, named⟩
      ⟨{ pkg with installedTime := p.installedTime }, named⟩ := by
  rw [pkgFormattedField]
  split_ifs with hzero
  · have hsame : { pkg with installedTime := 0 } = pkg := by rw [← hpkg]
    rw [hzero]
    exact hsame.symm ▸ ReadsTo.nil
  · have hline := @readsTo_line env ⟨pkg, named⟩ .installedTime _ rfl hmasked rfl
      (fieldLine "Installed-Time".toList (Nat.toDigits 10 p.installedTime)) (List.prefix_append _ _)
    dsimp only at hline
    rwa [parseSimple_fieldLine, trimXstrdup_toDigits, strtoulAuto_toDigits (Nat.pos_of_ne_zero hzero) hp,
      beq_eq_false_iff_ne.mpr (by decide), Bool.or_false] at hline

/-! ### All lines -/

theorem mem_of_mem_entriesOf {type : DependType} {entry : CompoundDepend} (h : entry ∈ p.entriesOf type) :
    entry ∈ p.depends := List.mem_of_mem_take (List.mem_filter.mp h).1

/-- The entries of a field are items. -/
theorem Pkg.Printable.token_entriesOf (hp : p.Printable) (type : DependType) :
    ∀ s ∈ (p.entriesOf type).map compoundDependStr, Token s := by
  intro s hs
  obtain ⟨entry, hentry, rfl⟩ := List.mem_map.mp hs
  exact token_compoundDependStr (hp.depends entry (mem_of_mem_entriesOf hentry))

theorem Pkg.Printable.token_conflictAlts (hp : p.Printable) : ∀ s ∈ p.conflictAlts.map dependStr, Token s := by
  intro s hs
  obtain ⟨d, hd, rfl⟩ := List.mem_map.mp hs
  exact token_dependStr (hp.conflicts d hd)

/-- **The lines of a package** are read as its record. -/
theorem readsTo_statusLines (hp : p.Printable) (hmasked : ∀ f ∈ statusFields, env.masked f = false)
    (dest : PkgDest) :
    ReadsTo env (statusLines p) ⟨freshPkg none (some dest), false⟩ ⟨p.statusRecord env dest, true⟩ := by
  have hreplaces : ∀ s ∈ p.replaces.take p.replacesCount, Token s := fun s hs =>
    hp.replaces s (List.mem_of_mem_take hs)
  have hlines : statusLines p = pkgFormattedField p .package ++ (pkgFormattedField p .version ++
      (pkgFormattedField p .depends ++ (pkgFormattedField p .recommends ++ (pkgFormattedField p .suggests ++
      (pkgFormattedField p .provides ++ (pkgFormattedField p .replaces ++ (pkgFormattedField p .conflicts ++
      (pkgFormattedField p .status ++ (pkgFormattedField p .essential ++ (pkgFormattedField p .architecture ++
      (pkgFormattedField p .conffiles ++ (pkgFormattedField p .installedTime ++
      (pkgFormattedField p .autoInstalled ++ []))))))))))))) := rfl
  rw [hlines]
  apply (readsTo_package (hmasked _ (by decide)) hp.name).append
  apply (readsTo_version (hmasked _ (by decide)) hp.version rfl).append
  apply (readsTo_list (f := .depends) rfl (hmasked _ (by decide)) rfl (by decide) (by decide)
    (fun list pkg => { pkg with dependsStr := list, dependsCount := list.length }) (fun _ _ => rfl)
    (hp.token_entriesOf .depend) rfl).append
  apply (readsTo_list (f := .recommends) rfl (hmasked _ (by decide)) rfl (by decide) (by decide)
    (fun list pkg => { pkg with recommendsStr := list, recommendsCount := list.length }) (fun _ _ => rfl)
    (hp.token_entriesOf .recommend) rfl).append
  apply (readsTo_list (f := .suggests) rfl (hmasked _ (by decide)) rfl (by decide) (by decide)
    (fun list pkg => { pkg with suggestsStr := list, suggestsCount := list.length }) (fun _ _ => rfl)
    (hp.token_entriesOf .suggest) rfl).append
  apply (readsTo_list (f := .provides) rfl (hmasked _ (by decide)) rfl (by decide) (by decide)
    (fun list pkg => { pkg with providesStr := list, providesCount := list.length }) (fun _ _ => rfl)
    hp.provides rfl).append
  apply (readsTo_list (f := .replaces) rfl (hmasked _ (by decide)) rfl (by decide) (by decide)
    (fun list pkg => { pkg with replacesStr := list, replacesCount := list.length }) (fun _ _ => rfl)
    hreplaces rfl).append
  apply (readsTo_list (f := .conflicts) rfl (hmasked _ (by decide)) rfl (by decide) (by decide)
    (fun list pkg => { pkg with conflictsStr := list, conflictsCount := list.length }) (fun _ _ => rfl)
    hp.token_conflictAlts rfl).append
  apply (readsTo_status (hmasked _ (by decide))).append
  apply (readsTo_yes (f := .essential) rfl (hmasked _ (by decide)) rfl (by decide)
    (fun b pkg => { pkg with essential := b }) (fun _ _ => rfl) p.essential rfl).append
  apply (readsTo_architecture (hmasked _ (by decide)) hp.architecture ⟨rfl, rfl⟩).append
  apply (readsTo_conffiles (hmasked _ (by decide)) hp.conffiles rfl).append
  apply (readsTo_installedTime (hmasked _ (by decide)) hp.installedTime rfl).append
  apply (readsTo_yes (f := .autoInstalled) rfl (hmasked _ (by decide)) rfl (by decide)
    (fun b pkg => { pkg with autoInstalled := b }) (fun _ _ => rfl) p.autoInstalled rfl).append
  exact .nil

theorem mark_of_mem_map {key l : CStr} {value : Option CStr} (h : l ∈ value.toList.map (fieldLine key)) :
    ':' ∈ l := by
  obtain ⟨value, -, rfl⟩ := List.mem_map.mp h
  simp [fieldLine]

theorem mark_of_mem_ite {key value l : CStr} {b : Prop} [Decidable b]
    (h : l ∈ if b then [] else [key ++ ':' :: value]) : ':' ∈ l := by
  split_ifs at h
  · cases h
  · rw [List.mem_singleton.mp h]
    simp

theorem mark_of_mem_yes {key l : CStr} {b : Bool} (h : l ∈ if b then [fieldLine key "yes".toList] else []) :
    ':' ∈ l := by
  cases b with
  | false => cases h
  | true =>
      rw [List.mem_singleton.mp h]
      simp [fieldLine]

/-- **Each line** has a marker, or says a configuration file. -/
theorem mark_of_mem_statusLines {l : CStr} (hl : l ∈ statusLines p) :
    ':' ∈ l ∨ ∃ conffile ∈ p.conffiles, ∃ value ∈ conffile.value, l = ' ' :: conffile.name ++ ' ' :: value := by
  obtain ⟨f, hf, hl⟩ := List.mem_flatMap.mp hl
  simp only [statusFields, List.mem_cons, List.not_mem_nil, or_false] at hf
  rcases hf with rfl | rfl | rfl | rfl | rfl | rfl | rfl | rfl | rfl | rfl | rfl | rfl | rfl | rfl
  · exact .inl (@mark_of_mem_map _ _ (some p.name) hl)
  · exact .inl (mark_of_mem_ite hl)
  · exact .inl (mark_of_mem_ite hl)
  · exact .inl (mark_of_mem_ite hl)
  · exact .inl (mark_of_mem_ite hl)
  · exact .inl (mark_of_mem_ite hl)
  · exact .inl (mark_of_mem_ite hl)
  · exact .inl (mark_of_mem_ite hl)
  · exact .inl (@mark_of_mem_map _ _ (some _) hl)
  · exact .inl (mark_of_mem_yes hl)
  · exact .inl (mark_of_mem_map hl)
  · rw [pkgFormattedField] at hl
    split_ifs at hl
    · cases hl
    · rcases List.mem_cons.mp hl with rfl | hl
      · exact .inl (by decide)
      · obtain ⟨conffile, hconffile, hmap⟩ := List.mem_filterMap.mp hl
        obtain ⟨value, hvalue, rfl⟩ := Option.map_eq_some_iff.mp hmap
        exact .inr ⟨conffile, hconffile, value, hvalue, rfl⟩
  · exact .inl (mark_of_mem_ite hl)
  · exact .inl (mark_of_mem_yes hl)

theorem lineIsBlank_statusLines (hp : p.Printable) {l : CStr} (hl : l ∈ statusLines p) :
    lineIsBlank l = false := by
  rw [lineIsBlank, List.all_eq_false]
  rcases mark_of_mem_statusLines hl with hmark | ⟨conffile, hconffile, value, hvalue, rfl⟩
  · exact ⟨':', hmark, by decide⟩
  · have hword := (hp.conffiles conffile hconffile value hvalue).2
    obtain ⟨c, t, rfl⟩ := List.exists_cons_of_ne_nil hword.1
    have hc := List.all_eq_true.mp hword.2.2 c List.mem_cons_self
    exact ⟨c, by simp, by simpa using hc⟩

theorem nil_not_mem_statusLines (hp : p.Printable) : [] ∉ statusLines p := by
  intro hmem
  have hblank := lineIsBlank_statusLines hp hmem
  cases hblank

/-- **What is read of a package**: its record, if it has an architecture that is supported. -/
theorem stanzaPkg_statusLines (hp : p.Printable) (hmasked : ∀ f ∈ statusFields, env.masked f = false)
    (dest : PkgDest) :
    stanzaPkg env (freshPkg none (some dest)) (statusLines p) =
      if (p.architecture.map (getArchPriority env)).getD 0 ≠ 0 then some (p.statusRecord env dest) else none := by
  obtain ⟨flags, -, hfold⟩ := readsTo_statusLines hp hmasked dest {} rfl
  rw [stanzaPkg, readStanza, hfold, Option.bind_some, ReadState.accepted]
  have hnamed : (p.statusRecord env dest).architecture = p.architecture := rfl
  have hpriority : (p.statusRecord env dest).archPriority =
    (p.architecture.map (getArchPriority env)).getD 0 := rfl
  dsimp only
  rw [hnamed, hpriority]
  cases p.architecture with
  | none => simp
  | some arch => simp

/-! ## Files -/

/-- The lines of the packages, with an empty one behind each. -/
def statusFileLines (pkgs : List Pkg) : List CStr := pkgs.flatMap fun p => statusLines p ++ [[]]

theorem flatMap_pkgPrintStatus (pkgs : List Pkg) :
    pkgs.flatMap pkgPrintStatus = textOf (statusFileLines pkgs) [] := by
  induction pkgs with
  | nil => rfl
  | cons p pkgs ih =>
      have hcons : statusFileLines (p :: pkgs) = statusLines p ++ [[]] ++ statusFileLines pkgs :=
        List.flatMap_cons
      rw [List.flatMap_cons, ih, pkgPrintStatus, hcons, textOf, textOf, textOf, List.append_nil, List.append_nil,
        List.append_nil, List.flatMap_append, List.flatMap_append, List.flatMap_append]

theorem feedText_statusFileLines {pkgs : List Pkg} (hpkgs : ∀ p ∈ pkgs, p.Printable) :
    FeedText (statusFileLines pkgs) [] where
  isLine l hl := by
    obtain ⟨p, hp, hl⟩ := List.mem_flatMap.mp hl
    rcases List.mem_append.mp hl with hl | hl
    · exact (hpkgs p hp).lines l hl
    · obtain rfl := List.mem_singleton.mp hl
      decide
  blank l hl hblank := by
    obtain ⟨p, hp, hl⟩ := List.mem_flatMap.mp hl
    rcases List.mem_append.mp hl with hl | hl
    · rw [lineIsBlank_statusLines (hpkgs p hp) hl] at hblank
      cases hblank
    · exact List.mem_singleton.mp hl
  isLine_last := by decide
  short_last := by decide
  blank_last _ := rfl

theorem feedPackages_statusFileLines {pkgs : List Pkg} (hpkgs : ∀ p ∈ pkgs, p.Printable) (fresh : Pkg) :
    feedPackages env fresh (statusFileLines pkgs) =
      pkgs.filterMap fun p => stanzaPkg env fresh (statusLines p) := by
  induction pkgs with
  | nil => rfl
  | cons p pkgs ih =>
      rw [List.forall_mem_cons] at hpkgs
      have hrest := ih hpkgs.2
      rw [feedPackages] at hrest
      have happend : statusLines p ++ [[]] ++ statusFileLines pkgs =
        statusLines p ++ [] :: statusFileLines pkgs := by simp
      rw [feedPackages, statusFileLines, List.flatMap_cons, ← statusFileLines, happend,
        List.splitOn_append_cons_self_of_not_mem (nil_not_mem_statusLines hpkgs.1), List.filterMap_cons,
        List.filterMap_cons, hrest]

/-- **A status file is loaded** package by package: its first line says the name of a package, so that flags
do not matter that earlier streams have left. -/
theorem loaded_statusFileLines {pkgs : List Pkg} (hpkgs : ∀ p ∈ pkgs, p.Printable) (dest : PkgDest)
    (behind : CStr) (flags : ReadingFlags) :
    LoadedByStanza env none (some dest) flags behind (statusFileLines pkgs) [] := by
  have hstale : ∀ L : List CStr, leadLines L = [] → StaleOk env (freshPkg none (some dest)) flags L := by
    intro L hL
    refine ⟨.inl hL, .inl ?_⟩
    rw [staleConffiles, hL, List.filterMap_nil, ite_self]
  apply (loaded_iff (feedText_statusFileLines hpkgs) none (some dest)).mpr
  rw [FeedOk]
  cases pkgs with
  | nil =>
      rw [if_neg (by exact List.not_mem_nil), if_pos (show LastRead (statusFileLines []) [] from .inl rfl)]
      exact hstale [] rfl
  | cons p pkgs =>
      have hcons : statusFileLines (p :: pkgs) = statusLines p ++ [] :: statusFileLines pkgs := by
        rw [statusFileLines, List.flatMap_cons, ← statusFileLines, List.append_assoc, List.singleton_append]
      rw [if_pos (by rw [hcons]; simp), hcons,
        firstStanza_append (nil_not_mem_statusLines (hpkgs p List.mem_cons_self))]
      exact ⟨hstale _ rfl, .inl (.inl rfl)⟩

end

/-- A package with a strict constraint and a temporary flag. -/
def keptPkg : Pkg :=
  { parseVersion pkgNew "1".toList with
    dest := some rootDest, name := "p".toList, architecture := some "all".toList
    depends := [⟨.depend, [⟨.earlier, some "2".toList, "q".toList⟩]⟩], dependsCount := 1
    stateWant := .install, stateFlag := { reinstreq := true, user := true }, stateStatus := .installed }

theorem printable_keptPkg : keptPkg.Printable where
  lines := by decide +kernel
  name := by decide
  architecture arch harch := by
    obtain rfl : "all".toList = arch := Option.some.inj harch
    decide
  version := .inr ⟨"1".toList, fun colon h => (by cases h), rfl⟩
  depends entry hentry := by
    rw [List.mem_singleton.mp hentry]
    exact ⟨List.cons_ne_nil _ _, fun d hd => by rw [List.mem_singleton.mp hd]; exact printable_earlier⟩
  conflicts d hd := absurd hd List.not_mem_nil
  provides name hname := absurd hname List.not_mem_nil
  replaces name hname := absurd hname List.not_mem_nil
  conffiles conffile h := absurd h List.not_mem_nil
  installedTime := Nat.zero_le _

/-- **A package after a restart**: its record with the fields resolved. -/
def Pkg.restarted (env : ParseEnv) (dest : PkgDest) (p : Pkg) : Pkg :=
  ((p.statusRecord env dest).resolved
    ((counted p.dependsCount (p.entriesOf .depend) ++ counted p.recommendsCount (p.entriesOf .recommend) ++
      counted p.suggestsCount (p.entriesOf .suggest)).map CompoundDepend.reread)
    ((counted p.conflictsCount p.conflictAlts).map fun d => ⟨.depend, [d.reread]⟩)
    p.replacesItems).withParent p.name

section

variable {env : ParseEnv} {dest : PkgDest} {p q : Pkg}

theorem counted_map {α β : Type} (f : α → β) (n : ℕ) (l : List α) : counted n (l.map f) = (counted n l).map f := by
  rw [counted, counted]
  split_ifs <;> rfl

theorem mem_of_mem_counted {α : Type} {n : ℕ} {l : List α} {x : α} (h : x ∈ counted n l) : x ∈ l := by
  rw [counted] at h
  split_ifs at h
  · cases h
  · exact h

theorem type_of_mem_entriesOf {type : DependType} {entry : CompoundDepend} (h : entry ∈ p.entriesOf type) :
    entry.type = type := of_decide_eq_true (List.mem_filter.mp h).2

theorem mapM_parseDepends {entries : List CompoundDepend} (h : ∀ entry ∈ entries, entry.Printable) :
    (entries.map compoundDependStr).mapM parseDepends =
      some (entries.map fun entry => { entry.reread with type := .depend }) := by
  induction entries with
  | nil => rfl
  | cons entry entries ih =>
      rw [List.forall_mem_cons] at h
      rw [List.map_cons, List.mapM_cons, parseDepends_compoundDependStr h.1, ih h.2]
      rfl

theorem mapM_counted (hp : p.Printable) (type : DependType) (count : ℕ) :
    (counted count ((p.entriesOf type).map compoundDependStr)).mapM parseDepends =
      some ((counted count (p.entriesOf type)).map fun entry => { entry.reread with type := .depend }) := by
  rw [counted_map]
  exact mapM_parseDepends fun entry hentry => hp.depends entry (mem_of_mem_entriesOf (mem_of_mem_counted hentry))

/-- The entries of a field get its type again. -/
theorem map_retyped (p : Pkg) (type : DependType) (count : ℕ) :
    ((counted count (p.entriesOf type)).map fun entry => { entry.reread with type := .depend }).map
        (fun entry => { entry with type }) = (counted count (p.entriesOf type)).map CompoundDepend.reread := by
  rw [List.map_map]
  apply List.map_congr_left
  intro entry hentry
  rw [← type_of_mem_entriesOf (mem_of_mem_counted hentry)]
  rfl

theorem buildDepends_statusRecord (hp : p.Printable) :
    buildDepends (p.statusRecord env dest) = some ((p.statusRecord env dest).withDepends
      ((counted p.dependsCount (p.entriesOf .depend) ++ counted p.recommendsCount (p.entriesOf .recommend) ++
        counted p.suggestsCount (p.entriesOf .suggest)).map CompoundDepend.reread)) := by
  have hdepends := mapM_counted hp .depend p.dependsCount
  have hrecommends := mapM_counted hp .recommend p.recommendsCount
  have hsuggests := mapM_counted hp .suggest p.suggestsCount
  have htyped : ((counted p.dependsCount (p.entriesOf .depend)).map fun entry =>
      { entry.reread with type := .depend }) =
      (counted p.dependsCount (p.entriesOf .depend)).map CompoundDepend.reread := by
    rw [← map_retyped, List.map_map]
    rfl
  rw [buildDepends]
  split_ifs with hnone
  · -- nothing was printed
    have hlengths : 0 + p.dependsItems.length + p.recommendsItems.length + p.suggestsItems.length = 0 := hnone
    have hnil : ∀ (count : ℕ) (type : DependType),
        (counted count ((p.entriesOf type).map compoundDependStr)).length = 0 →
        counted count (p.entriesOf type) = [] := by
      intro count type h
      rwa [counted_map, List.length_map, List.length_eq_zero_iff] at h
    rw [hnil p.dependsCount .depend (by rw [Pkg.dependsItems] at hlengths; omega),
      hnil p.recommendsCount .recommend (by rw [Pkg.recommendsItems] at hlengths; omega),
      hnil p.suggestsCount .suggest (by rw [Pkg.suggestsItems] at hlengths; omega)]
    rfl
  · have hstrs : (p.statusRecord env dest).preDependsStr = [] ∧
        (p.statusRecord env dest).dependsStr = p.dependsItems ∧
        (p.statusRecord env dest).recommendsStr = p.recommendsItems ∧
        (p.statusRecord env dest).suggestsStr = p.suggestsItems := ⟨rfl, rfl, rfl, rfl⟩
    rw [hstrs.1, hstrs.2.1, hstrs.2.2.1, hstrs.2.2.2, Pkg.dependsItems, Pkg.recommendsItems, Pkg.suggestsItems,
      hdepends, hrecommends, hsuggests]
    simp only [List.mapM_nil, Option.pure_def, Option.bind_eq_bind, Option.bind_some, List.map_nil,
      List.nil_append, map_retyped, htyped, List.map_append]

theorem buildConflicts_statusRecord (hp : p.Printable) {r : Pkg}
    (hr : r.conflictsStr = p.conflictsItems ∧ r.conflictsCount = p.conflictsItems.length ∧ r.conflicts = []) :
    buildConflicts r = some (r.withConflicts
      ((counted p.conflictsCount p.conflictAlts).map fun d => ⟨.depend, [d.reread]⟩)) := by
  have hitems : p.conflictsItems = ((counted p.conflictsCount p.conflictAlts).map fun d =>
      (⟨.depend, [d]⟩ : CompoundDepend)).map compoundDependStr := by
    rw [Pkg.conflictsItems, counted_map, List.map_map]
    apply List.map_congr_left
    intro d _
    exact (compoundDependStr_single .depend d).symm
  have hread := @mapM_parseDepends ((counted p.conflictsCount p.conflictAlts).map fun d =>
    (⟨.depend, [d]⟩ : CompoundDepend)) fun entry hentry => by
      obtain ⟨d, hd, rfl⟩ := List.mem_map.mp hentry
      exact ⟨List.cons_ne_nil _ _, fun e he => by
        rw [List.mem_singleton.mp he]
        exact hp.conflicts d (mem_of_mem_counted hd)⟩
  rw [← hitems, List.map_map] at hread
  rw [buildConflicts]
  split_ifs with hnone
  · rw [hr.2.1, hitems, List.length_map, List.length_map] at hnone
    rw [List.length_eq_zero_iff.mp hnone, List.map_nil, Pkg.withConflicts, ← hr.2.2]
  · rw [hr.1, hread]
    rfl

theorem isParsed_statusRecord (env : ParseEnv) (dest : PkgDest) (p : Pkg) : (p.statusRecord env dest).IsParsed :=
  ⟨rfl, rfl, rfl, rfl, rfl, rfl, rfl, rfl, rfl, rfl, rfl, rfl⟩

/-- The insertion of a record that has been read. -/
def statusInsertionOf (env : ParseEnv) (dest : PkgDest) (i : PkgId) (p : Pkg) : Insertion :=
  ⟨i, ⟨p.statusRecord env dest, isParsed_statusRecord env dest p⟩, true⟩

theorem findDuplicate_eq_none {db : Database} {r : Pkg} {vec : List PkgId}
    (h : ∀ j ∈ vec, isDuplicate r (db.pkg j) = some false) : findDuplicate db r vec = some none := by
  induction vec with
  | nil => rfl
  | cons j vec ih =>
      rw [List.forall_mem_cons] at h
      rw [findDuplicate, h.1, ih h.2]
      rfl

/-- `buildReplaces` on a record that has been read. -/
theorem buildReplaces_statusRecord (db : Database) (a : AbstractPkgId) {r : Pkg}
    (hr : r.replacesCount = r.replacesStr.length ∧ r.replaces = []) :
    (buildReplaces db a r).2 = r.withReplaces r.replacesStr := by
  rw [buildReplaces]
  split_ifs with hnone
  · rw [hr.1] at hnone
    rw [List.length_eq_zero_iff.mp hnone, Pkg.withReplaces, ← hr.2]
  · rfl

/-- **A record is filed** where no duplicate is: what was there stays, and the new package comes behind
it. -/
theorem insertStep_statusRecord (hp : p.Printable) {db : Database} {i : PkgId}
    (hfresh : ∀ a, i ∉ db.filed a)
    (hdistinct : ∀ j ∈ db.filed p.name, isDuplicate (p.statusRecord env dest) (db.pkg j) = some false) :
    ∃ db', InsertStep db (statusInsertionOf env dest i p) db' ∧
      db'.pkg = Function.update db.pkg i (p.restarted env dest) ∧
      db'.filed p.name = db.filed p.name ++ [i] ∧ ∀ a, a ≠ p.name → db'.filed a = db.filed a := by
  have hdepends := @buildDepends_statusRecord env dest p hp
  generalize hD : (counted p.dependsCount (p.entriesOf .depend) ++
    counted p.recommendsCount (p.entriesOf .recommend) ++
    counted p.suggestsCount (p.entriesOf .suggest)).map CompoundDepend.reread = depends at hdepends
  have hconflicts := @buildConflicts_statusRecord p hp
    (((p.statusRecord env dest).withDepends depends).withProvides (p.name :: p.providesItems)) ⟨rfl, rfl, rfl⟩
  generalize hC : ((counted p.conflictsCount p.conflictAlts).map fun d =>
    (⟨.depend, [d.reread]⟩ : CompoundDepend)) = conflicts at hconflicts
  have hbuilt : p.restarted env dest =
      ((p.statusRecord env dest).resolved depends conflicts p.replacesItems).withParent p.name := by
    rw [Pkg.restarted, hD, hC]
  generalize hr : p.statusRecord env dest = r at hdepends hconflicts hbuilt hdistinct
  have hname : r.name = p.name := by rw [← hr]; rfl
  have hitems : r.providesStr = p.providesItems := by rw [← hr]; rfl
  -- the databases on the way to the vector hold the same packages
  obtain ⟨db₁, hsame, hinsert⟩ : ∃ db₁, SameFiling (db.setPkg i r) db₁ ∧ hashInsertPkg (db.setPkg i r) i true =
      (pkgVecInsertMerge (db₁.setPkg i (r.resolved depends conflicts p.replacesItems)) p.name i true).map
        fun db => db.setPkg i ((db.pkg i).withParent p.name) := by
    have hself : (db.setPkg i r).pkg i = r := Database.setPkg_pkg_self _ _ _
    have hopen := openVector_sameFiling (db.setPkg i r) r
    have hprovides := buildProvides_sameFiling ((db.setPkg i r).openVector r) p.name (r.withDepends depends)
    generalize hdbp : buildProvides ((db.setPkg i r).openVector r) p.name (r.withDepends depends) = dbp
      at hprovides
    have hprovided : dbp.2 = (r.withDepends depends).withProvides (p.name :: p.providesItems) := by
      rw [← hdbp, buildProvides, Pkg.withDepends, hitems]
    have hreplaces := buildReplaces_sameFiling dbp.1 p.name
      (((r.withDepends depends).withProvides (p.name :: p.providesItems)).withConflicts conflicts)
    have hread := @buildReplaces_statusRecord dbp.1 p.name
      (((r.withDepends depends).withProvides (p.name :: p.providesItems)).withConflicts conflicts)
      (by rw [← hr]; exact ⟨rfl, rfl⟩)
    generalize hdbr : buildReplaces dbp.1 p.name
      (((r.withDepends depends).withProvides (p.name :: p.providesItems)).withConflicts conflicts) = dbr
      at hreplaces hread
    have hresolved : dbr.2 = r.resolved depends conflicts p.replacesItems := by
      rw [hread, ← hr]
      rfl
    refine ⟨_, ((hopen.trans hprovides).trans hreplaces).trans (buildDependedUponBy_sameFiling dbr.1 dbr.2 p.name),
      ?_⟩
    rw [hashInsertPkg, hself]
    simp only [hdepends, Option.bind_eq_bind, Option.bind_some, hname, hdbp, hprovided, hconflicts, hdbr, hresolved]
    cases pkgVecInsertMerge _ p.name i true <;> rfl
  have hfiled : ∀ a, (db₁.setPkg i (r.resolved depends conflicts p.replacesItems)).filed a = db.filed a :=
    hsame.filed
  have hpkg : (db₁.setPkg i (r.resolved depends conflicts p.replacesItems)).pkg =
      Function.update db.pkg i (r.resolved depends conflicts p.replacesItems) := by
    rw [Database.setPkg, hsame.pkg, Database.setPkg, Function.update_idem]
  generalize db₁.setPkg i (r.resolved depends conflicts p.replacesItems) = db₂ at hinsert hfiled hpkg
  have hfind : findDuplicate db₂ (db₂.pkg i) (db₂.filed p.name) = some none := by
    apply findDuplicate_eq_none
    intro j hj
    rw [hfiled] at hj
    have hji : j ≠ i := ne_of_mem_of_not_mem hj (hfresh p.name)
    rw [hpkg, Function.update_self, Function.update_of_ne hji,
      isDuplicate_congr (resolved_duplicateKey r depends conflicts p.replacesItems)]
    exact hdistinct j hj
  have hmerge : pkgVecInsertMerge db₂ p.name i true = some (db₂.setAbstractPkg p.name
      { db₂.abstractPkg p.name with pkgs := some (db₂.filed p.name ++ [i]) }) := by
    rw [pkgVecInsertMerge]
    rw [Database.filed] at hfind
    rw [hfind]
    rfl
  rw [hmerge, Option.map_some] at hinsert
  obtain ⟨db', hdb', hreturns⟩ : ∃ db', _ = db' ∧ hashInsertPkg (db.setPkg i r) i true = some db' :=
    ⟨_, rfl, hinsert⟩
  refine ⟨db', ⟨hfresh, ?_⟩, ?_, ?_, ?_⟩
  · subst hr
    exact hreturns
  · rw [← hdb', Database.setPkg, Database.setAbstractPkg_pkg, hpkg, Function.update_self, Function.update_idem,
      hbuilt]
  · rw [← hdb']
    exact (filed_setAbstractPkg_self _ _ _).trans (by rw [Option.getD_some, hfiled])
  · intro a ha
    rw [← hdb']
    exact (filed_setAbstractPkg_of_ne _ _ ha).trans (hfiled a)

theorem isDuplicate_restarted (env : ParseEnv) (dest : PkgDest) (q p : Pkg) :
    isDuplicate (p.statusRecord env dest) (q.restarted env dest) = isDuplicate p q := by
  unfold isDuplicate pkgCompareVersions
  rfl

/-- **The database after a restart**: each package that was written is there as its restarted record, filed
in the order of the file. -/
theorem trace_restart {pkgs : List Pkg} (hprintable : ∀ p ∈ pkgs, p.Printable)
    (hdistinct : pkgs.Pairwise fun q p => isDuplicate p q = some false) :
    ∃ tr db, Trace InsertStep emptyDatabase tr db ∧
      tr.map Prod.snd = pkgs.mapIdx (statusInsertionOf env dest) ∧
      (∀ i p, pkgs[i]? = some p → db.pkg i = p.restarted env dest) ∧
      ∀ a, db.filed a = (List.range pkgs.length).filter fun i => pkgs[i]?.any fun p => p.name == a := by
  induction pkgs using List.reverseRecOn with
  | nil => exact ⟨[], emptyDatabase, .nil _, rfl, fun i p h => (by cases h), fun a => rfl⟩
  | append_singleton pkgs p ih =>
      rw [List.pairwise_append] at hdistinct
      obtain ⟨tr, db, htrace, hlabels, hpkg, hfiled⟩ :=
        ih (fun q hq => hprintable q (List.mem_append_left _ hq)) hdistinct.1
      have hlt : ∀ a, ∀ i ∈ db.filed a, i < pkgs.length := by
        intro a i hi
        rw [hfiled] at hi
        exact List.mem_range.mp (List.mem_filter.mp hi).1
      obtain ⟨db', hstep, hpkg', hself, hother⟩ := @insertStep_statusRecord env dest p
        (hprintable p (List.mem_append_right _ (List.mem_singleton_self p))) db pkgs.length
        (fun a hmem => (hlt a _ hmem).false) fun j hj => by
          have hj' := hlt _ j hj
          rw [hpkg j _ (List.getElem?_eq_getElem hj'), isDuplicate_restarted]
          exact hdistinct.2.2 _ (List.getElem_mem hj') p (List.mem_singleton_self p)
      refine ⟨tr ++ [(db, statusInsertionOf env dest pkgs.length p)], db', htrace.concat hstep, ?_, ?_, ?_⟩
      · rw [List.map_append, hlabels, List.mapIdx_concat]
        rfl
      · intro i q hq
        rw [hpkg']
        rcases Nat.lt_trichotomy i pkgs.length with hi | rfl | hi
        · rw [Function.update_of_ne hi.ne]
          rw [List.getElem?_append_left hi] at hq
          exact hpkg i q hq
        · rw [List.getElem?_concat_length, Option.some.injEq] at hq
          rw [Function.update_self, hq]
        · rw [List.getElem?_eq_none (by rw [List.length_append]; exact hi)] at hq
          cases hq
      · intro a
        have hold : (List.range pkgs.length).filter (fun i => (pkgs ++ [p])[i]?.any fun q => q.name == a) =
            db.filed a := by
          rw [hfiled]
          apply List.filter_congr
          intro i hi
          rw [List.getElem?_append_left (List.mem_range.mp hi)]
        rw [List.length_append, List.length_singleton, List.range_succ, List.filter_append, hold]
        by_cases ha : p.name = a
        · rw [← ha, hself]
          simp
        · rw [hother a (Ne.symm ha)]
          simp [ha]

/-- The restart of one package. -/
theorem trace_restart_keptPkg : ∃ tr db, Trace InsertStep emptyDatabase tr db ∧
    tr.map Prod.snd = [keptPkg].mapIdx (statusInsertionOf anyArch rootDest) ∧
    (∀ i p, [keptPkg][i]? = some p → db.pkg i = p.restarted anyArch rootDest) ∧
    ∀ a, db.filed a = (List.range 1).filter fun i => [keptPkg][i]?.any fun p => p.name == a :=
  trace_restart (fun _ hp => List.mem_singleton.mp hp ▸ printable_keptPkg) (List.pairwise_singleton _ _)

/-! ## The next restart -/

theorem Depend.reread_reread (d : Depend) : d.reread.reread = d.reread := by
  obtain ⟨constraint, version, name⟩ := d
  cases constraint <;> rfl

theorem CompoundDepend.reread_reread (entry : CompoundDepend) : entry.reread.reread = entry.reread := by
  rw [CompoundDepend.reread, CompoundDepend.reread, List.map_map]
  congr 1
  exact List.map_congr_left fun d _ => d.reread_reread

theorem counted_length {α : Type} {n : ℕ} {l : List α} (h : n = l.length) : counted n l = l := by
  rw [counted]
  split_ifs with hzero
  · exact (List.length_eq_zero_iff.mp (h ▸ hzero)).symm
  · rfl

/-- Of all entries, those of one field have its type. -/
theorem filter_counted_entriesOf (p : Pkg) (type type' : DependType) (n : ℕ) :
    (counted n (p.entriesOf type')).filter (fun entry => entry.type = type) =
      if type' = type then counted n (p.entriesOf type') else [] := by
  have htype : ∀ entry ∈ counted n (p.entriesOf type'), entry.type = type' := fun entry h =>
    type_of_mem_entriesOf (mem_of_mem_counted h)
  split_ifs with h
  · exact List.filter_eq_self.mpr fun entry hentry => decide_eq_true ((htype entry hentry).trans h)
  · exact List.filter_eq_nil_iff.mpr fun entry hentry htrue =>
      h ((htype entry hentry).symm.trans (of_decide_eq_true htrue))

/-- **The entries of a field after a restart**. -/
theorem entriesOf_restarted (env : ParseEnv) (dest : PkgDest) (p : Pkg) :
    (p.restarted env dest).entriesOf .depend =
        (counted p.dependsCount (p.entriesOf .depend)).map CompoundDepend.reread ∧
      (p.restarted env dest).entriesOf .recommend =
        (counted p.recommendsCount (p.entriesOf .recommend)).map CompoundDepend.reread ∧
      (p.restarted env dest).entriesOf .suggest =
        (counted p.suggestsCount (p.entriesOf .suggest)).map CompoundDepend.reread := by
  have hentries : ∀ type, (p.restarted env dest).entriesOf type =
      ((counted p.dependsCount (p.entriesOf .depend) ++ counted p.recommendsCount (p.entriesOf .recommend) ++
        counted p.suggestsCount (p.entriesOf .suggest)).filter fun entry => entry.type = type).map
          CompoundDepend.reread := by
    intro type
    have htake : (p.restarted env dest).depends.take (0 + p.dependsItems.length + p.recommendsItems.length +
        p.suggestsItems.length) = (p.restarted env dest).depends := by
      apply List.take_of_length_le
      rw [Pkg.dependsItems, Pkg.recommendsItems, Pkg.suggestsItems, counted_map, counted_map, counted_map]
      simp [Pkg.restarted, Pkg.withParent, Pkg.resolved, Pkg.withDepends, Pkg.withProvides, Pkg.withConflicts,
        Pkg.withReplaces, Nat.add_assoc]
    have hdepends : (p.restarted env dest).depends = (counted p.dependsCount (p.entriesOf .depend) ++
      counted p.recommendsCount (p.entriesOf .recommend) ++
        counted p.suggestsCount (p.entriesOf .suggest)).map CompoundDepend.reread := rfl
    rw [hdepends] at htake
    exact (congrArg _ htake).trans List.filter_map
  refine ⟨?_, ?_, ?_⟩ <;> rw [hentries, List.filter_append, List.filter_append] <;>
    simp [filter_counted_entriesOf]

/-- What is written at the next restart is what has been read at this one. -/
theorem items_restarted (env : ParseEnv) (dest : PkgDest) (p : Pkg) :
    (p.restarted env dest).providesItems = p.providesItems ∧
      (p.restarted env dest).replacesItems = p.replacesItems ∧
      (p.restarted env dest).conflictAlts = (counted p.conflictsCount p.conflictAlts).map Depend.reread := by
  refine ⟨?_, ?_, ?_⟩
  · have hnames : (p.restarted env dest).providedNames =
        ((p.name :: p.providesItems).take (p.providesItems.length + 1)).tail := rfl
    have hitems : (p.restarted env dest).providesItems = (p.restarted env dest).providedNames := rfl
    rw [hitems, hnames, List.take_succ_cons, List.take_length, List.tail_cons]
  · have hitems : (p.restarted env dest).replacesItems =
      counted p.replacesItems.length (p.replacesItems.take p.replacesItems.length) := rfl
    rw [hitems, List.take_length, counted_length rfl]
  · have halts : (p.restarted env dest).conflictAlts =
        (((counted p.conflictsCount p.conflictAlts).map fun d => (⟨.depend, [d.reread]⟩ : CompoundDepend)).take
          p.conflictsItems.length).filterMap fun cdep => cdep.possibilities.head? := rfl
    have hlength : p.conflictsItems.length = (counted p.conflictsCount p.conflictAlts).length := by
      rw [Pkg.conflictsItems, counted_map, List.length_map]
    rw [halts, hlength, List.take_of_length_le (List.length_map _).le, List.filterMap_map]
    exact congrFun (List.filterMap_eq_map (f := Depend.reread)) _

/-- The entries that a field is made from at the next restart. -/
theorem next_entries {n : ℕ} {l entries : List CompoundDepend} (h : entries = l.map CompoundDepend.reread)
    (hn : n = l.length) : (counted n entries).map CompoundDepend.reread = l.map CompoundDepend.reread := by
  rw [counted_length (by rw [hn, h, List.length_map]), h, List.map_map]
  exact List.map_congr_left fun entry _ => entry.reread_reread

/-- The texts of another package, from which its entries have been read. -/
def Pkg.withTexts (pkg p : Pkg) : Pkg :=
  { pkg with
    dependsStr := p.dependsItems
    recommendsStr := p.recommendsItems
    suggestsStr := p.suggestsItems
    conflictsStr := p.conflictsItems }

/-- **What the next restart makes** is the same but for the texts of the fields, which have been freed. -/
theorem restarted_restarted (env : ParseEnv) (dest : PkgDest) (p : Pkg) :
    ((p.restarted env dest).restarted env dest).withTexts p = p.restarted env dest := by
  obtain ⟨hdepend, hrecommend, hsuggest⟩ := entriesOf_restarted env dest p
  obtain ⟨hprovides, hreplaces, halts⟩ := items_restarted env dest p
  have hlength : ∀ n type, ((counted n ((p.entriesOf type).map compoundDependStr))).length =
      (counted n (p.entriesOf type)).length := fun n type => by rw [counted_map, List.length_map]
  -- the entries, field by field
  have hdepends := next_entries hdepend (hlength p.dependsCount .depend)
  have hrecommends := next_entries hrecommend (hlength p.recommendsCount .recommend)
  have hsuggests := next_entries hsuggest (hlength p.suggestsCount .suggest)
  have hcount : ∀ {n : ℕ} {l entries : List CompoundDepend}, entries = l.map CompoundDepend.reread →
      n = l.length → (counted n (entries.map compoundDependStr)).length = n := by
    intro n l entries h hn
    rw [counted_length (by rw [hn, h, List.length_map, List.length_map]), List.length_map, h, List.length_map, hn]
  have hconflictsLength : p.conflictsItems.length = (counted p.conflictsCount p.conflictAlts).length := by
    rw [Pkg.conflictsItems, counted_map, List.length_map]
  have hconflicts : counted p.conflictsItems.length (p.restarted env dest).conflictAlts =
      (counted p.conflictsCount p.conflictAlts).map Depend.reread := by
    rw [counted_length (by rw [halts, hconflictsLength, List.length_map]), halts]
  -- the record that is read has the same counts and lists
  have hrecord : ((p.restarted env dest).statusRecord env dest).withTexts p = p.statusRecord env dest := by
    have hdependsCount : (p.restarted env dest).dependsItems.length = p.dependsItems.length :=
      hcount hdepend (hlength _ _)
    have hrecommendsCount : (p.restarted env dest).recommendsItems.length = p.recommendsItems.length :=
      hcount hrecommend (hlength _ _)
    have hsuggestsCount : (p.restarted env dest).suggestsItems.length = p.suggestsItems.length :=
      hcount hsuggest (hlength _ _)
    have hconflictsCount : (p.restarted env dest).conflictsItems.length = p.conflictsItems.length := by
      have hitems : (p.restarted env dest).conflictsItems =
        counted p.conflictsItems.length ((p.restarted env dest).conflictAlts.map dependStr) := rfl
      rw [hitems, counted_map, hconflicts, List.length_map, List.length_map, hconflictsLength]
    have hconffiles : (p.restarted env dest).conffiles.filter (fun conffile => conffile.value.isSome) =
        p.conffiles.filter fun conffile => conffile.value.isSome :=
      List.filter_eq_self.mpr fun _ h => (List.mem_filter.mp h).2
    rw [Pkg.statusRecord, hdependsCount, hrecommendsCount, hsuggestsCount, hconflictsCount, hprovides, hreplaces,
      hconffiles]
    rfl
  calc
    _ = (((((p.restarted env dest).statusRecord env dest).withTexts p).resolved
        ((counted p.dependsItems.length ((p.restarted env dest).entriesOf .depend) ++
          counted p.recommendsItems.length ((p.restarted env dest).entriesOf .recommend) ++
          counted p.suggestsItems.length ((p.restarted env dest).entriesOf .suggest)).map CompoundDepend.reread)
        ((counted p.conflictsItems.length (p.restarted env dest).conflictAlts).map fun d => ⟨.depend, [d.reread]⟩)
        (p.restarted env dest).replacesItems).withParent p.name) := rfl
    _ = p.restarted env dest := by
      have htwice : ∀ d : Depend, (⟨.depend, [d.reread.reread]⟩ : CompoundDepend) = ⟨.depend, [d.reread]⟩ :=
        fun d => by rw [d.reread_reread]
      rw [hrecord, hconflicts, hreplaces, List.map_append, List.map_append, Pkg.dependsItems, Pkg.recommendsItems,
        Pkg.suggestsItems, hdepends, hrecommends, hsuggests, List.map_map, Pkg.restarted, List.map_append,
        List.map_append]
      simp only [Function.comp_def, htwice]

end

end FirmwareTools.Opkg

import Mathlib.Data.List.Forall2
import FirmwareTools.Opkg.FieldLine

/-! # The Release file of a distribution

`release_parse_line` takes the lines of a Release file one by one. A field is recognised by the first
characters of its line; the checksums of a section are lines that begin with a blank, and two flags say
which section they belong to. A field whose first character occurs in no known field ends the parse.

* **`runLines_entries`** — what the lines of some entries do;
* **`leaves_of_entries`** — what they leave behind in the release;
* **`releaseParsed_iff`** — when the sections and the fields of a file are kept apart. -/

namespace FirmwareTools.Opkg

/-! ## The parser -/

/-- `cksum_t` -/
structure Cksum where
  name : CStr
  value : CStr
  size : Int
  deriving DecidableEq, Repr

/-- `release_t`, with the values of `release_new`. -/
structure Release where
  name : Option CStr := none
  datestring : Option CStr := none
  architectures : List CStr := []
  components : List CStr := []
  md5sums : Option (List Cksum) := none
  sha256sums : Option (List Cksum) := none
  complist : List CStr := []
  deriving DecidableEq, Repr

/-- `cksum_init`, which reads three items whether they are there or not. -/
def cksumInit : List CStr → Option Cksum
  | value :: size :: name :: _ => some { name, value, size := atoi size }
  | _ => none

/-- A release with the static variables of `release_parse_line`. -/
structure ReleaseState where
  release : Release := {}
  readingMd5sums : Bool := false
  readingSha256sums : Bool := false
  deriving DecidableEq, Repr

/-- The end of `release_parse_line`, where no label is jumped to. -/
def ReleaseState.resetFlags (s : ReleaseState) : ReleaseState :=
  { s with readingMd5sums := false, readingSha256sums := false }

/-- `cksum_list_append`, on a list that may be `NULL`. -/
def cksumListAppend (list : Option (List Cksum)) (items : List CStr) : Option (List Cksum) := do
  some ((← list) ++ [← cksumInit items])

/-- `release_parse_line`; `none` where it follows a `NULL` or reads an item that is not there. -/
def releaseParseLine (s : Option ReleaseState) (line : Line) : Option ReleaseState × Bool :=
  match s with
  | none => (none, true)
  | some s =>
    let r := s.release
    match line.text.head? with
    | some 'A' =>
      if isField "Architectures".toList line then
        (some { s.resetFlags with release := { r with architectures := parseList line ' ' false } }, false)
      else (some s.resetFlags, false)
    | some 'C' =>
      if isField "Codename".toList line then
        (some { s.resetFlags with release := { r with name := some (parseSimple "Codename".toList line) } },
          false)
      else if isField "Components".toList line then
        (some { s.resetFlags with release := { r with components := parseList line ' ' false } }, false)
      else (some s.resetFlags, false)
    | some 'D' =>
      if isField "Date".toList line then
        (some { s.resetFlags with release := { r with datestring := some (parseSimple "Date".toList line) } },
          false)
      else (some s.resetFlags, false)
    | some 'M' =>
      if isField "MD5sum".toList line then
        (some { s with release := { r with md5sums := some (r.md5sums.getD []) }, readingMd5sums := true },
          false)
      else (some s.resetFlags, false)
    | some 'S' =>
      -- the flag of the other section stays as it is
      if isField "SHA256".toList line then
        (some { s with
          release := { r with sha256sums := some (r.sha256sums.getD []) }, readingSha256sums := true },
          false)
      else (some s.resetFlags, false)
    | some ' ' =>
      if s.readingMd5sums then
        ((cksumListAppend r.md5sums (parseList line ' ' true)).map fun list =>
          { s with release := { r with md5sums := some list } }, false)
      else if s.readingSha256sums then
        ((cksumListAppend r.sha256sums (parseList line ' ' true)).map fun list =>
          { s with release := { r with sha256sums := some list } }, false)
      else (some s.resetFlags, false)
    | _ => (some s.resetFlags, true)

/-- `release_parse_from_stream` -/
def releaseParseFromStream (behind : CStr) (s : ReleaseState) (fp : Stream) :
    Option ReleaseState × Int × Stream :=
  parseFromStreamNomalloc releaseParseLine behind callerBuf (some s) fp

/-! ## Release files -/

/-- The fields that are read. -/
inductive ReleaseField
  | architectures | codename | components | date | md5sum | sha256
  deriving DecidableEq, Repr

/-- The name of a field. -/
def ReleaseField.key : ReleaseField → CStr
  | .architectures => "Architectures".toList
  | .codename => "Codename".toList
  | .components => "Components".toList
  | .date => "Date".toList
  | .md5sum => "MD5sum".toList
  | .sha256 => "SHA256".toList

/-- A field, or a section with its lines, each without the blank that it begins with. -/
structure ReleaseEntry where
  name : CStr
  value : CStr
  sums : List CStr := []
  deriving DecidableEq, Repr

/-- The checksum that a line of a section says. -/
def lineCksum (sum : CStr) : Option Cksum := cksumInit (parseList ⟨' ' :: sum, []⟩ ' ' true)

namespace ReleaseEntry

/-- The lines of an entry. -/
def lines (e : ReleaseEntry) : List CStr := (e.name ++ ':' :: e.value) :: e.sums.map fun sum => ' ' :: sum

/-- The checksums of a section. -/
def cksums (e : ReleaseEntry) : List Cksum := e.sums.filterMap lineCksum

/-- `Name: value`, and behind the names of the two sections lines with three items each. -/
structure WellFormed (e : ReleaseEntry) : Prop where
  name : IsLine e.name ∧ ':' ∉ e.name ∧ e.name ≠ [] ∧ e.name.head? ≠ some ' '
  value : IsLine e.value
  sums : ∀ sum ∈ e.sums, IsLine sum ∧ (lineCksum sum).isSome
  owner : e.sums ≠ [] → e.name = ReleaseField.md5sum.key ∨ e.name = ReleaseField.sha256.key

end ReleaseEntry

/-! ## One line -/

/-- The field that a name is taken for: the one whose name it begins with. -/
def takenFor (name : CStr) : Option ReleaseField :=
  [.architectures, .codename, .components, .date, .md5sum, .sha256].find? fun f =>
    f.key.isPrefixOf name

theorem key_prefix_unique {f g : ReleaseField} {name : CStr} (hf : f.key <+: name)
    (hg : g.key <+: name) : f = g := by
  have hkeys : ∀ f g : ReleaseField, f.key <+: g.key → f = g := by
    intro f g
    cases f <;> cases g <;> decide
  rcases List.prefix_or_prefix_of_prefix hf hg with h | h
  · exact hkeys f g h
  · exact (hkeys g f h).symm

theorem takenFor_eq_some {f : ReleaseField} {name : CStr} : takenFor name = some f ↔ f.key <+: name := by
  have hsome : ∀ g, takenFor name = some g → g.key <+: name := by
    intro g hg
    have := List.find?_some (p := fun f : ReleaseField => f.key.isPrefixOf name) hg
    exact List.isPrefixOf_iff_prefix.mp this
  refine ⟨hsome f, fun h => ?_⟩
  cases hfind : takenFor name with
  | some g => rw [key_prefix_unique (hsome g hfind) h]
  | none =>
      have hnone := List.find?_eq_none.mp hfind f (by cases f <;> simp)
      exact absurd (List.isPrefixOf_iff_prefix.mpr h) hnone

theorem takenFor_key (f : ReleaseField) : takenFor f.key = some f :=
  takenFor_eq_some.mpr List.prefix_rfl

/-- A name with the first character of a field that is read. -/
def Known (name : CStr) : Prop := name.head? ∈ ['A', 'C', 'D', 'M', 'S'].map some

instance (name : CStr) : Decidable (Known name) := inferInstanceAs (Decidable (_ ∈ _))

theorem key_ne_nil (f : ReleaseField) : f.key ≠ [] := by
  cases f <;> decide

/-- The name begins as the field's. -/
theorem head_of_takenFor {f : ReleaseField} {name : CStr} (h : takenFor name = some f) :
    name.head? = f.key.head? := by
  obtain ⟨t, rfl⟩ := takenFor_eq_some.mp h
  exact List.head?_append_of_ne_nil _ (key_ne_nil f)

theorem known_of_takenFor {f : ReleaseField} {name : CStr} (h : takenFor name = some f) : Known name := by
  have hkey : Known f.key := by cases f <;> decide
  rw [Known, head_of_takenFor h]
  exact hkey

namespace ReleaseEntry

/-- The value of a field that is a list. -/
def listValue (e : ReleaseEntry) : List CStr := if lineIsBlank e.value then [] else splitList ' ' e.value

/-- The value of a field that is a text; it begins where it does if the name is the field's. -/
def textValue (f : ReleaseField) (e : ReleaseEntry) : CStr :=
  trimXstrdup ((e.name ++ ':' :: e.value).drop (f.key.length + 1))

end ReleaseEntry

namespace ReleaseState

/-- What the first line of an entry does. -/
def head (s : ReleaseState) (e : ReleaseEntry) : ReleaseState :=
  let r := s.release
  match takenFor e.name with
  | some .architectures => { s.resetFlags with release := { r with architectures := e.listValue } }
  | some .codename => { s.resetFlags with release := { r with name := some (e.textValue .codename) } }
  | some .components => { s.resetFlags with release := { r with components := e.listValue } }
  | some .date => { s.resetFlags with release := { r with datestring := some (e.textValue .date) } }
  | some .md5sum =>
    { s with release := { r with md5sums := some (r.md5sums.getD []) }, readingMd5sums := true }
  | some .sha256 =>
    { s with release := { r with sha256sums := some (r.sha256sums.getD []) }, readingSha256sums := true }
  | none => s.resetFlags

end ReleaseState

variable {s : ReleaseState} {e : ReleaseEntry} {behind : CStr}

theorem isField_key {f : ReleaseField} (value : CStr) {name : CStr} :
    isField f.key ⟨name ++ ':' :: value, behind⟩ = decide (takenFor name = some f) := by
  have hkey : ':' ∉ f.key := by cases f <;> decide
  rw [Bool.eq_iff_iff, isField_iff hkey, decide_eq_true_iff, takenFor_eq_some]

theorem head?_line (hne : e.name ≠ []) : (e.name ++ ':' :: e.value).head? = e.name.head? :=
  List.head?_append_of_ne_nil _ hne

/-- The first line of a field that is read. -/
theorem releaseParseLine_taken {f : ReleaseField} (hname : ':' ∉ e.name) (hne : e.name ≠ [])
    (htaken : takenFor e.name = some f) :
    releaseParseLine (some s) ⟨e.name ++ ':' :: e.value, behind⟩ = (some (s.head e), false) := by
  have hlist : parseList ⟨e.name ++ ':' :: e.value, behind⟩ ' ' false = e.listValue :=
    parseList_field hname e.value behind ' '
  have hsimple : parseSimple f.key ⟨e.name ++ ':' :: e.value, behind⟩ = e.textValue f :=
    parseSimple_field (takenFor_eq_some.mp htaken) e.value behind
  have hfield : isField f.key ⟨e.name ++ ':' :: e.value, behind⟩ = true := by
    rw [isField_key, htaken]
    exact decide_eq_true rfl
  have hfirst := head_of_takenFor htaken
  rw [releaseParseLine, ReleaseState.head, htaken, head?_line hne, hfirst]
  cases f with
  | architectures =>
      exact (if_pos hfield).trans (by rw [hlist])
  | codename =>
      exact (if_pos hfield).trans (by rw [← hsimple]; rfl)
  | components =>
      have hother : isField ReleaseField.codename.key ⟨e.name ++ ':' :: e.value, behind⟩ ≠ true := by
        rw [isField_key, htaken]
        decide
      exact (if_neg hother).trans ((if_pos hfield).trans (by rw [hlist]))
  | date =>
      exact (if_pos hfield).trans (by rw [← hsimple]; rfl)
  | md5sum =>
      exact if_pos hfield
  | sha256 =>
      exact if_pos hfield

/-- The first line of another field. -/
theorem releaseParseLine_other (hblank : e.name.head? ≠ some ' ') (hne : e.name ≠ [])
    (htaken : takenFor e.name = none) :
    releaseParseLine (some s) ⟨e.name ++ ':' :: e.value, behind⟩ =
      (some s.resetFlags, !decide (Known e.name)) := by
  have hfield : ∀ f : ReleaseField, isField f.key ⟨e.name ++ ':' :: e.value, behind⟩ ≠ true := by
    intro f
    rw [isField_key, htaken]
    exact Bool.false_ne_true
  have hknown : ∀ c, e.name.head? = some c → c ∈ ['A', 'C', 'D', 'M', 'S'] → Known e.name := by
    intro c hc hmem
    rw [Known, hc]
    exact List.mem_map_of_mem hmem
  rw [releaseParseLine, head?_line hne]
  dsimp only
  -- the first character alone decides
  split
  · next hc =>
      rw [decide_eq_true (hknown _ hc (by decide)), Bool.not_true]
      exact if_neg (hfield .architectures)
  · next hc =>
      rw [decide_eq_true (hknown _ hc (by decide)), Bool.not_true]
      exact (if_neg (hfield .codename)).trans (if_neg (hfield .components))
  · next hc =>
      rw [decide_eq_true (hknown _ hc (by decide)), Bool.not_true]
      exact if_neg (hfield .date)
  · next hc =>
      rw [decide_eq_true (hknown _ hc (by decide)), Bool.not_true]
      exact if_neg (hfield .md5sum)
  · next hc =>
      rw [decide_eq_true (hknown _ hc (by decide)), Bool.not_true]
      exact if_neg (hfield .sha256)
  · next hc => exact absurd hc hblank
  · next hA hC hD hM hS hb =>
      have hunknown : ¬ Known e.name := by
        simp only [Known, List.map_cons, List.map_nil, List.mem_cons, List.not_mem_nil, or_false, not_or]
        exact ⟨hA, hC, hD, hM, hS⟩
      rw [decide_eq_false hunknown, Bool.not_false]

/-- **The first line of an entry.** -/
theorem releaseParseLine_head (hwf : e.WellFormed) :
    releaseParseLine (some s) ⟨e.name ++ ':' :: e.value, behind⟩ =
      (some (s.head e), !decide (Known e.name)) := by
  obtain ⟨-, hmarker, hne, hblank⟩ := hwf.name
  cases htaken : takenFor e.name with
  | some f =>
      rw [releaseParseLine_taken hmarker hne htaken, decide_eq_true (known_of_takenFor htaken),
        Bool.not_true]
  | none =>
      rw [releaseParseLine_other hblank hne htaken, ReleaseState.head, htaken]

/-- A line of a section, by the flags. -/
def ReleaseState.sum (s : ReleaseState) (c : Cksum) : Option ReleaseState :=
  let r := s.release
  if s.readingMd5sums then
    r.md5sums.map fun list => { s with release := { r with md5sums := some (list ++ [c]) } }
  else if s.readingSha256sums then
    r.sha256sums.map fun list => { s with release := { r with sha256sums := some (list ++ [c]) } }
  else some s.resetFlags

/-- **A line of a section.** -/
theorem releaseParseLine_sum {sum : CStr} {c : Cksum} (hc : lineCksum sum = some c) :
    releaseParseLine (some s) ⟨' ' :: sum, behind⟩ = (s.sum c, false) := by
  have hitems : cksumInit (parseList ⟨' ' :: sum, behind⟩ ' ' true) = some c := hc
  have happend : ∀ list, cksumListAppend list (parseList ⟨' ' :: sum, behind⟩ ' ' true) =
      list.map (· ++ [c]) := by
    intro list
    cases list with
    | none => rfl
    | some list => simp [cksumListAppend, hitems]
  rw [releaseParseLine, ReleaseState.sum]
  simp only [List.head?_cons, happend, Option.map_map]
  split_ifs <;> rfl

/-! ## Entries -/

namespace ReleaseState

/-- The lines of a section. -/
def sums : List Cksum → ReleaseState → Option ReleaseState
  | [], s => some s
  | c :: cs, s => (s.sum c).bind (sums cs)

/-- An entry. -/
def entry (s : ReleaseState) (e : ReleaseEntry) : Option ReleaseState := sums e.cksums (s.head e)

/-- Entries one after the other. -/
def entries : List ReleaseEntry → ReleaseState → Option ReleaseState
  | [], s => some s
  | e :: es, s => (s.entry e).bind (entries es)

end ReleaseState

theorem runLines_none (ls : List Line) : runLines releaseParseLine ls none = none := by
  cases ls with
  | nil => rfl
  | cons l ls => rfl

theorem runLines_sums {sums : List CStr} (hsums : ∀ sum ∈ sums, (lineCksum sum).isSome) (rest : List Line)
    (s : ReleaseState) :
    runLines releaseParseLine ((sums.map fun sum => ⟨' ' :: sum, []⟩) ++ rest) (some s) =
      runLines releaseParseLine rest (s.sums (sums.filterMap lineCksum)) := by
  induction sums generalizing s with
  | nil => rfl
  | cons sum sums ih =>
      obtain ⟨hsum, hsums⟩ := List.forall_mem_cons.mp hsums
      obtain ⟨c, hc⟩ := Option.isSome_iff_exists.mp hsum
      rw [List.map_cons, List.cons_append, runLines, releaseParseLine_sum hc, List.filterMap_cons_some hc,
        ReleaseState.sums]
      cases hstep : s.sum c with
      | none => exact (runLines_none _).trans (runLines_none _).symm
      | some s' => exact ih hsums s'

/-- **What the lines of some entries do**: they are read up to one with an unknown first character. -/
theorem runLines_entries {es : List ReleaseEntry} (hes : ∀ e ∈ es, e.WellFormed) (s : ReleaseState) :
    (runLines releaseParseLine ((es.flatMap ReleaseEntry.lines).map fun l => ⟨l, []⟩) (some s)).map
        ReleaseState.release =
      (ReleaseState.entries (es.takeWhile fun e => Known e.name) s).map ReleaseState.release := by
  induction es generalizing s with
  | nil => rfl
  | cons e es ih =>
      obtain ⟨he, hes⟩ := List.forall_mem_cons.mp hes
      rw [List.flatMap_cons, ReleaseEntry.lines, List.cons_append, List.map_cons, runLines,
        releaseParseLine_head he]
      by_cases hknown : Known e.name
      · have hsums := runLines_sums (fun sum hsum => (he.sums sum hsum).2)
          ((es.flatMap ReleaseEntry.lines).map fun l => ⟨l, []⟩) (s.head e)
        rw [decide_eq_true hknown, List.takeWhile_cons_of_pos (by simpa using hknown), List.map_append,
          List.map_map, ReleaseState.entries]
        refine (congrArg _ hsums).trans ?_
        rw [ReleaseState.entry, ReleaseEntry.cksums]
        cases hstep : (s.head e).sums (e.sums.filterMap lineCksum) with
        | none => rw [runLines_none]; rfl
        | some s' => exact ih hes s'
      · rw [decide_eq_false hknown, List.takeWhile_cons_of_neg (by simpa using hknown)]
        have hnone : takenFor e.name = none := by
          by_contra h
          obtain ⟨f, hf⟩ := Option.ne_none_iff_exists'.mp h
          exact hknown (known_of_takenFor hf)
        rw [ReleaseState.head, hnone]
        rfl

/-! ## What the entries leave behind -/

/-- Is the flag of the MD5sum section set behind an entry? -/
def flagBehind (reading : Bool) (e : ReleaseEntry) : Bool :=
  match takenFor e.name with
  | some .md5sum => true
  | some .sha256 => reading
  | _ => false

/-- Is it set behind some entries? -/
def flagAfter (reading : Bool) (es : List ReleaseEntry) : Bool := es.foldl flagBehind reading

/-- The checksums that are put in `md5sums`. -/
def md5Cksums : Bool → List ReleaseEntry → List Cksum
  | _, [] => []
  | reading, e :: es =>
    (if takenFor e.name = some .md5sum ∨ takenFor e.name = some .sha256 ∧ reading then e.cksums else []) ++
      md5Cksums (flagBehind reading e) es

/-- The checksums that are put in `sha256sums`. -/
def sha256Cksums : Bool → List ReleaseEntry → List Cksum
  | _, [] => []
  | reading, e :: es =>
    (if takenFor e.name = some .sha256 ∧ !reading then e.cksums else []) ++
      sha256Cksums (flagBehind reading e) es

/-- The last entry that is taken for a field. -/
def lastTaken (f : ReleaseField) (es : List ReleaseEntry) : Option ReleaseEntry :=
  (es.filter fun e => takenFor e.name = some f).getLast?

/-- A list that is there from the first entry on that is taken for a section, with more at its end. -/
def extended (f : ReleaseField) (es : List ReleaseEntry) (list : Option (List Cksum)) (cs : List Cksum) :
    Option (List Cksum) :=
  if list.isSome ∨ ∃ e ∈ es, takenFor e.name = some f then some (list.getD [] ++ cs) else none

theorem elim_lastTaken {α : Type*} (f : ReleaseField) (e : ReleaseEntry) (es : List ReleaseEntry) (a : α)
    (v : ReleaseEntry → α) :
    (lastTaken f (e :: es)).elim a v =
      (lastTaken f es).elim (if takenFor e.name = some f then v e else a) v := by
  rw [lastTaken, lastTaken, List.filter_cons]
  by_cases h : takenFor e.name = some f
  · rw [if_pos (by simpa using h), if_pos h, List.getLast?_cons]
    cases (es.filter fun e => takenFor e.name = some f).getLast? <;> rfl
  · rw [if_neg (by simpa using h), if_neg h]

namespace ReleaseState

/-- Write `md5sums`. -/
def setMd5sums (s : ReleaseState) (list : List Cksum) : ReleaseState :=
  { s with release := { s.release with md5sums := some list } }

/-- Write `sha256sums`. -/
def setSha256sums (s : ReleaseState) (list : List Cksum) : ReleaseState :=
  { s with release := { s.release with sha256sums := some list } }

theorem sums_md5 (cs : List Cksum) {s : ReleaseState} (hreading : s.readingMd5sums = true)
    {list : List Cksum} (hlist : s.release.md5sums = some list) :
    s.sums cs = some (s.setMd5sums (list ++ cs)) := by
  induction cs generalizing s list with
  | nil => rw [sums, List.append_nil, setMd5sums, ← hlist]
  | cons c cs ih =>
      have hsum : s.sum c = some (s.setMd5sums (list ++ [c])) := by
        rw [sum, if_pos hreading, hlist]
        rfl
      have hrest := @ih (s.setMd5sums (list ++ [c])) hreading (list ++ [c]) rfl
      rw [sums, hsum, Option.bind_some, hrest, List.append_assoc]
      rfl

theorem sums_sha256 (cs : List Cksum) {s : ReleaseState} (hreading : s.readingMd5sums = false)
    (hsha : s.readingSha256sums = true) {list : List Cksum} (hlist : s.release.sha256sums = some list) :
    s.sums cs = some (s.setSha256sums (list ++ cs)) := by
  induction cs generalizing s list with
  | nil => rw [sums, List.append_nil, setSha256sums, ← hlist]
  | cons c cs ih =>
      have hsum : s.sum c = some (s.setSha256sums (list ++ [c])) := by
        rw [sum, if_neg (by simp [hreading]), if_pos hsha, hlist]
        rfl
      have hrest := @ih (s.setSha256sums (list ++ [c])) hreading hsha (list ++ [c]) rfl
      rw [sums, hsum, Option.bind_some, hrest, List.append_assoc]
      rfl

/-- Without a list the first checksum ends the program. -/
theorem sums_null {cs : List Cksum} (hcs : cs ≠ []) {s : ReleaseState} (hreading : s.readingMd5sums = true)
    (hlist : s.release.md5sums = none) : s.sums cs = none := by
  obtain ⟨c, cs, rfl⟩ := List.exists_cons_of_ne_nil hcs
  rw [sums, sum, if_pos hreading, hlist]
  rfl

/-- What some entries leave behind, from a state. -/
structure Leaves (s : ReleaseState) (es : List ReleaseEntry) (s' : ReleaseState) : Prop where
  architectures : s'.release.architectures =
    (lastTaken .architectures es).elim s.release.architectures ReleaseEntry.listValue
  name : s'.release.name =
    (lastTaken .codename es).elim s.release.name fun e => some (e.textValue .codename)
  components : s'.release.components =
    (lastTaken .components es).elim s.release.components ReleaseEntry.listValue
  datestring : s'.release.datestring =
    (lastTaken .date es).elim s.release.datestring fun e => some (e.textValue .date)
  md5sums : s'.release.md5sums =
    extended .md5sum es s.release.md5sums (md5Cksums s.readingMd5sums es)
  sha256sums : s'.release.sha256sums =
    extended .sha256 es s.release.sha256sums (sha256Cksums s.readingMd5sums es)
  reading : s'.readingMd5sums = flagAfter s.readingMd5sums es

theorem leaves_nil (s : ReleaseState) : Leaves s [] s := by
  have hextended : ∀ (f : ReleaseField) (list : Option (List Cksum)), list = extended f [] list [] := by
    intro f list
    cases list <;> simp [extended]
  exact ⟨rfl, rfl, rfl, rfl, hextended _ _, hextended _ _, rfl⟩

theorem extended_cons {f : ReleaseField} {e : ReleaseEntry} {es : List ReleaseEntry}
    {list : Option (List Cksum)} {cs cs' : List Cksum}
    (h : extended f [e] list cs = none → cs = []) :
    extended f es (extended f [e] list cs) cs' = extended f (e :: es) list (cs ++ cs') := by
  by_cases hsome : list.isSome ∨ takenFor e.name = some f
  · have he : extended f [e] list cs = some (list.getD [] ++ cs) := by simp [extended, hsome]
    rcases hsome with hlist | htaken
    · simp [extended, hlist]
    · simp [extended, htaken]
  · rw [not_or] at hsome
    have he : extended f [e] list cs = none := by simp [extended, hsome]
    obtain rfl := h he
    have hlist : list = none := by simpa using hsome.1
    simp [extended, hlist, hsome.2]

/-- What an entry leaves behind, and that it gives no checksum to a list that is not there. -/
structure LeavesOne (s : ReleaseState) (e : ReleaseEntry) (s' : ReleaseState) : Prop
    extends Leaves s [e] s' where
  md5Null : s'.release.md5sums = none → md5Cksums s.readingMd5sums [e] = []
  sha256Null : s'.release.sha256sums = none → sha256Cksums s.readingMd5sums [e] = []

theorem LeavesOne.cons {s s₁ s' : ReleaseState} {e : ReleaseEntry} {es : List ReleaseEntry}
    (h : LeavesOne s e s₁) (h' : Leaves s₁ es s') : Leaves s (e :: es) s' := by
  have hlast : ∀ {α : Type} (f : ReleaseField) (a : α) (v : ReleaseEntry → α),
      (lastTaken f es).elim ((lastTaken f [e]).elim a v) v = (lastTaken f (e :: es)).elim a v := by
    intro α f a v
    rw [elim_lastTaken, elim_lastTaken]
    rfl
  have hflag : flagAfter s.readingMd5sums [e] = flagBehind s.readingMd5sums e := rfl
  refine ⟨?_, ?_, ?_, ?_, ?_, ?_, ?_⟩
  · rw [h'.architectures, h.architectures, hlast]
  · rw [h'.name, h.name, hlast]
  · rw [h'.components, h.components, hlast]
  · rw [h'.datestring, h.datestring, hlast]
  · have hnull := h.md5Null
    rw [h.md5sums] at hnull
    rw [h'.md5sums, h.md5sums, extended_cons hnull, h.reading, hflag]
    simp [md5Cksums]
  · have hnull := h.sha256Null
    rw [h.sha256sums] at hnull
    rw [h'.sha256sums, h.sha256sums, extended_cons hnull, h.reading, hflag]
    simp [sha256Cksums]
  · rw [h'.reading, h.reading, hflag, flagAfter, flagAfter, List.foldl_cons]

end ReleaseState

/-- Only the two sections have lines. -/
theorem ReleaseEntry.WellFormed.cksums_eq_nil (he : e.WellFormed) (h5 : takenFor e.name ≠ some .md5sum)
    (h256 : takenFor e.name ≠ some .sha256) : e.cksums = [] := by
  have hsums : e.sums = [] := by
    by_contra hne
    rcases he.owner hne with h | h
    · exact h5 (h ▸ takenFor_key .md5sum)
    · exact h256 (h ▸ takenFor_key .sha256)
  rw [ReleaseEntry.cksums, hsums]
  rfl

theorem extended_of_not {f : ReleaseField} (h : takenFor e.name ≠ some f) (list : Option (List Cksum)) :
    extended f [e] list [] = list := by
  cases list <;> simp [extended, h]

/-- The fields that are no sections, behind the first line of an entry. -/
theorem head_fields (s : ReleaseState) (e : ReleaseEntry) :
    (s.head e).release.architectures =
        (lastTaken .architectures [e]).elim s.release.architectures ReleaseEntry.listValue ∧
      (s.head e).release.name =
        (lastTaken .codename [e]).elim s.release.name (fun e => some (e.textValue .codename)) ∧
      (s.head e).release.components =
        (lastTaken .components [e]).elim s.release.components ReleaseEntry.listValue ∧
      (s.head e).release.datestring =
        (lastTaken .date [e]).elim s.release.datestring (fun e => some (e.textValue .date)) := by
  cases htaken : takenFor e.name with
  | none => simp [ReleaseState.head, htaken, lastTaken, ReleaseState.resetFlags]
  | some f => cases f <;> simp [ReleaseState.head, htaken, lastTaken, ReleaseState.resetFlags]

/-- The lines behind the head of an MD5sum section. -/
theorem sums_head_md5 (htaken : takenFor e.name = some .md5sum) :
    (s.head e).sums e.cksums =
      some ((s.head e).setMd5sums (s.release.md5sums.getD [] ++ e.cksums)) := by
  have hlist : (s.head e).release.md5sums = some (s.release.md5sums.getD []) := by
    rw [ReleaseState.head, htaken]
  exact ReleaseState.sums_md5 e.cksums (by rw [ReleaseState.head, htaken]) hlist

/-- The lines behind the head of a SHA256 section. -/
theorem sums_head_sha256 (htaken : takenFor e.name = some .sha256) (hreading : s.readingMd5sums = false) :
    (s.head e).sums e.cksums =
      some ((s.head e).setSha256sums (s.release.sha256sums.getD [] ++ e.cksums)) := by
  have hlist : (s.head e).release.sha256sums = some (s.release.sha256sums.getD []) := by
    rw [ReleaseState.head, htaken]
  have hhead : (s.head e).readingMd5sums = s.readingMd5sums := by rw [ReleaseState.head, htaken]
  exact ReleaseState.sums_sha256 e.cksums (hhead.trans hreading) (by rw [ReleaseState.head, htaken]) hlist

/-- A field without lines behind it. -/
theorem leavesOne_head (h5 : takenFor e.name ≠ some .md5sum)
    (h256 : takenFor e.name ≠ some .sha256) : s.LeavesOne e (s.head e) := by
  obtain ⟨harchitectures, hname, hcomponents, hdate⟩ := head_fields s e
  have hmd5 : md5Cksums s.readingMd5sums [e] = [] := by simp [md5Cksums, h5, h256]
  have hsha : sha256Cksums s.readingMd5sums [e] = [] := by simp [sha256Cksums, h256]
  have hflag : flagAfter s.readingMd5sums [e] = false := by
    rw [flagAfter, List.foldl_cons, List.foldl_nil, flagBehind]
    split
    · next h => exact absurd h h5
    · next h => exact absurd h h256
    · rfl
  obtain ⟨hlist5, hlist256, hreading⟩ : (s.head e).release.md5sums = s.release.md5sums ∧
      (s.head e).release.sha256sums = s.release.sha256sums ∧ (s.head e).readingMd5sums = false := by
    rw [ReleaseState.head]
    split
    · exact ⟨rfl, rfl, rfl⟩
    · exact ⟨rfl, rfl, rfl⟩
    · exact ⟨rfl, rfl, rfl⟩
    · exact ⟨rfl, rfl, rfl⟩
    · next h => exact absurd h h5
    · next h => exact absurd h h256
    · exact ⟨rfl, rfl, rfl⟩
  exact {
    architectures := harchitectures
    name := hname
    components := hcomponents
    datestring := hdate
    md5sums := by rw [hlist5, hmd5, extended_of_not h5]
    sha256sums := by rw [hlist256, hsha, extended_of_not h256]
    reading := hreading.trans hflag.symm
    md5Null := fun _ => hmd5
    sha256Null := fun _ => hsha }

/-- The MD5sum section. -/
theorem leavesOne_md5sum (htaken : takenFor e.name = some .md5sum) :
    s.LeavesOne e ((s.head e).setMd5sums (s.release.md5sums.getD [] ++ e.cksums)) := by
  obtain ⟨harchitectures, hname, hcomponents, hdate⟩ := head_fields s e
  have hsha : sha256Cksums s.readingMd5sums [e] = [] := by simp [sha256Cksums, htaken]
  exact {
    architectures := harchitectures
    name := hname
    components := hcomponents
    datestring := hdate
    md5sums := by simp [ReleaseState.setMd5sums, extended, htaken, md5Cksums]
    sha256sums := by
      rw [hsha, extended_of_not (by simp [htaken]), ReleaseState.setMd5sums, ReleaseState.head, htaken]
    reading := by simp [ReleaseState.setMd5sums, ReleaseState.head, htaken, flagAfter, flagBehind]
    md5Null := fun h => by simp [ReleaseState.setMd5sums] at h
    sha256Null := fun _ => hsha }

/-- The SHA256 section, where its lines are put in its list. -/
theorem leavesOne_sha256 (htaken : takenFor e.name = some .sha256) (hreading : s.readingMd5sums = false) :
    s.LeavesOne e ((s.head e).setSha256sums (s.release.sha256sums.getD [] ++ e.cksums)) := by
  obtain ⟨harchitectures, hname, hcomponents, hdate⟩ := head_fields s e
  have hmd5 : md5Cksums s.readingMd5sums [e] = [] := by simp [md5Cksums, htaken, hreading]
  exact {
    architectures := harchitectures
    name := hname
    components := hcomponents
    datestring := hdate
    md5sums := by
      rw [hmd5, extended_of_not (by simp [htaken]), ReleaseState.setSha256sums, ReleaseState.head, htaken]
    sha256sums := by simp [ReleaseState.setSha256sums, extended, htaken, sha256Cksums, hreading]
    reading := by
      simp [ReleaseState.setSha256sums, ReleaseState.head, htaken, flagAfter, flagBehind]
    md5Null := fun _ => hmd5
    sha256Null := fun h => by simp [ReleaseState.setSha256sums] at h }

/-- The SHA256 section, where the flag of the other section is still set. -/
theorem leavesOne_flagged (htaken : takenFor e.name = some .sha256) (hreading : s.readingMd5sums = true)
    {list : List Cksum} (hlist : s.release.md5sums = some list) :
    s.LeavesOne e ((s.head e).setMd5sums (list ++ e.cksums)) := by
  obtain ⟨harchitectures, hname, hcomponents, hdate⟩ := head_fields s e
  have hsha : sha256Cksums s.readingMd5sums [e] = [] := by simp [sha256Cksums, hreading]
  exact {
    architectures := harchitectures
    name := hname
    components := hcomponents
    datestring := hdate
    md5sums := by simp [ReleaseState.setMd5sums, extended, hlist, htaken, md5Cksums, hreading]
    sha256sums := by
      simp [hsha, ReleaseState.setMd5sums, ReleaseState.head, htaken, extended]
    reading := by simp [ReleaseState.setMd5sums, ReleaseState.head, htaken, flagAfter, flagBehind]
    md5Null := fun h => by simp [ReleaseState.setMd5sums] at h
    sha256Null := fun _ => hsha }

/-- The SHA256 section without lines. -/
theorem leavesOne_empty (htaken : takenFor e.name = some .sha256) (hcksums : e.cksums = []) :
    s.LeavesOne e (s.head e) := by
  obtain ⟨harchitectures, hname, hcomponents, hdate⟩ := head_fields s e
  have hmd5 : md5Cksums s.readingMd5sums [e] = [] := by simp [md5Cksums, hcksums]
  have hsha : sha256Cksums s.readingMd5sums [e] = [] := by simp [sha256Cksums, hcksums]
  exact {
    architectures := harchitectures
    name := hname
    components := hcomponents
    datestring := hdate
    md5sums := by rw [hmd5, extended_of_not (by simp [htaken]), ReleaseState.head, htaken]
    sha256sums := by simp [hsha, ReleaseState.head, htaken, extended]
    reading := by simp [ReleaseState.head, htaken, flagAfter, flagBehind]
    md5Null := fun _ => hmd5
    sha256Null := fun _ => hsha }

/-- **What one entry leaves behind.** -/
theorem leavesOne_of_entry (he : e.WellFormed) {s' : ReleaseState} (h : s.entry e = some s') :
    s.LeavesOne e s' := by
  rw [ReleaseState.entry] at h
  by_cases h5 : takenFor e.name = some .md5sum
  · have hsums := sums_head_md5 (s := s) h5
    obtain rfl := Option.some.inj (hsums.symm.trans h)
    exact leavesOne_md5sum h5
  by_cases h256 : takenFor e.name = some .sha256
  · by_cases hcksums : e.cksums = []
    · rw [hcksums] at h
      obtain rfl := Option.some.inj h
      exact leavesOne_empty h256 hcksums
    have hhead : (s.head e).readingMd5sums = s.readingMd5sums ∧
        (s.head e).release.md5sums = s.release.md5sums := by
      rw [ReleaseState.head, h256]
      exact ⟨rfl, rfl⟩
    cases hreading : s.readingMd5sums with
    | true =>
        cases hlist : s.release.md5sums with
        | none =>
            rw [ReleaseState.sums_null hcksums (hhead.1.trans hreading) (hhead.2.trans hlist)] at h
            cases h
        | some list =>
            have hsums := ReleaseState.sums_md5 e.cksums (hhead.1.trans hreading) (hhead.2.trans hlist)
            obtain rfl := Option.some.inj (hsums.symm.trans h)
            exact leavesOne_flagged h256 hreading hlist
    | false =>
        have hsums := sums_head_sha256 h256 hreading
        obtain rfl := Option.some.inj (hsums.symm.trans h)
        exact leavesOne_sha256 h256 hreading
  · rw [he.cksums_eq_nil h5 h256] at h
    obtain rfl := Option.some.inj h
    exact leavesOne_head h5 h256

/-- **What some entries leave behind.** -/
theorem leaves_of_entries {es : List ReleaseEntry} (hes : ∀ e ∈ es, e.WellFormed) {s s' : ReleaseState}
    (h : ReleaseState.entries es s = some s') : s.Leaves es s' := by
  induction es generalizing s with
  | nil =>
      obtain rfl := Option.some.inj h
      exact ReleaseState.leaves_nil s
  | cons e es ih =>
      obtain ⟨he, hes⟩ := List.forall_mem_cons.mp hes
      obtain ⟨s₁, hentry, hrest⟩ := Option.bind_eq_some_iff.mp h
      exact (leavesOne_of_entry he hentry).cons (ih hes hrest)

/-- The lines of a SHA256 section come while the flag of the other section is set. -/
def Flagged (reading : Bool) (es : List ReleaseEntry) : Prop :=
  ∃ before e after, es = before ++ e :: after ∧ takenFor e.name = some .sha256 ∧ e.cksums ≠ [] ∧
    flagAfter reading before = true

/-- Only such lines can end the program. -/
theorem flagged_of_entries {es : List ReleaseEntry} (hes : ∀ e ∈ es, e.WellFormed) {s : ReleaseState}
    (h : ReleaseState.entries es s = none) : Flagged s.readingMd5sums es := by
  induction es generalizing s with
  | nil => cases h
  | cons e es ih =>
      obtain ⟨he, hes⟩ := List.forall_mem_cons.mp hes
      rw [ReleaseState.entries] at h
      cases hentry : s.entry e with
      | some s₁ =>
          rw [hentry] at h
          obtain ⟨before, e', after, rfl, htaken, hcksums, hflag⟩ := ih hes h
          refine ⟨e :: before, e', after, rfl, htaken, hcksums, ?_⟩
          rw [(leavesOne_of_entry he hentry).reading] at hflag
          exact hflag
      | none =>
          refine ⟨[], e, es, rfl, ?_⟩
          rw [ReleaseState.entry] at hentry
          by_cases h5 : takenFor e.name = some .md5sum
          · rw [sums_head_md5 h5] at hentry
            cases hentry
          by_cases h256 : takenFor e.name = some .sha256
          · refine ⟨h256, fun hnil => ?_, ?_⟩
            · rw [hnil] at hentry
              cases hentry
            · by_contra hreading
              rw [sums_head_sha256 h256 (Bool.eq_false_iff.mpr hreading)] at hentry
              cases hentry
          · rw [he.cksums_eq_nil h5 h256] at hentry
            cases hentry

/-! ## Files -/

/-- The entries that the first lines are of; the last one may be cut off. -/
def cut : ℕ → List ReleaseEntry → List ReleaseEntry
  | 0, _ => []
  | _ + 1, [] => []
  | n + 1, e :: es => { e with sums := e.sums.take n } :: cut (n - e.sums.length) es

theorem flatMap_lines_cut (n : ℕ) (es : List ReleaseEntry) :
    (cut n es).flatMap ReleaseEntry.lines = (es.flatMap ReleaseEntry.lines).take n := by
  induction es generalizing n with
  | nil => cases n <;> rfl
  | cons e es ih =>
      cases n with
      | zero => rfl
      | succ n =>
          rw [cut, List.flatMap_cons, List.flatMap_cons, ih, ReleaseEntry.lines, ReleaseEntry.lines,
            List.cons_append, List.cons_append, List.take_succ_cons, List.take_append, List.map_take,
            List.length_map]

/-- An entry, with all or some of its lines. -/
structure CutOf (e' e : ReleaseEntry) : Prop where
  name : e'.name = e.name
  value : e'.value = e.value
  sums : e'.sums <+: e.sums

theorem forall₂_cut (n : ℕ) (es : List ReleaseEntry) : ∃ k, List.Forall₂ CutOf (cut n es) (es.take k) := by
  induction es generalizing n with
  | nil => exact ⟨0, by cases n <;> exact List.Forall₂.nil⟩
  | cons e es ih =>
      cases n with
      | zero => exact ⟨0, List.Forall₂.nil⟩
      | succ n =>
          obtain ⟨k, hk⟩ := ih (n - e.sums.length)
          exact ⟨k + 1, List.Forall₂.cons ⟨rfl, rfl, List.take_prefix _ _⟩ hk⟩

theorem exists_of_forall₂ {es es' : List ReleaseEntry} (h : List.Forall₂ CutOf es' es) {e' : ReleaseEntry}
    (he' : e' ∈ es') : ∃ e ∈ es, CutOf e' e := by
  induction h with
  | nil => cases he'
  | cons hcut h ih =>
      rcases List.mem_cons.mp he' with rfl | he'
      · exact ⟨_, List.mem_cons_self, hcut⟩
      · obtain ⟨e, he, hcut⟩ := ih he'
        exact ⟨e, List.mem_cons_of_mem _ he, hcut⟩

theorem CutOf.wellFormed {e' e : ReleaseEntry} (h : CutOf e' e) (he : e.WellFormed) : e'.WellFormed where
  name := h.name ▸ he.name
  value := h.value ▸ he.value
  sums sum hsum := he.sums sum (h.sums.subset hsum)
  owner hne := by
    rw [h.name]
    refine he.owner fun hnil => hne ?_
    have hfront := h.sums
    rw [hnil] at hfront
    exact List.prefix_nil.mp hfront

/-- A Release file: each of the six fields once, in any order, among any others. `newline` says whether
its last line has a newline. -/
structure ReleaseFile where
  entries : List ReleaseEntry
  newline : Bool := true
  wellFormed : ∀ e ∈ entries, e.WellFormed
  once : ∀ f : ReleaseField, ∃ e, (entries.filter fun e => e.name = f.key) = [e]

namespace ReleaseFile

/-- The lines of a file. -/
def lines (file : ReleaseFile) : List CStr := file.entries.flatMap ReleaseEntry.lines

/-- The lines with a newline. -/
def terminated (file : ReleaseFile) : List CStr := if file.newline then file.lines else file.lines.dropLast

/-- What is behind the last newline. -/
def last (file : ReleaseFile) : CStr := if file.newline then [] else file.lines.getLastD []

/-- The text of a file. -/
def text (file : ReleaseFile) : CStr := textOf file.terminated file.last

/-- The entries that are read: up to a line that is too long or gets lost, and up to one with an unknown
first character. -/
def read (file : ReleaseFile) : List ReleaseEntry :=
  (cut (linesRead [] file.terminated file.last).length file.entries).takeWhile fun e => Known e.name

end ReleaseFile

/-- Every field and every section of a file is in the release. -/
structure Stored (entries : List ReleaseEntry) (r : Release) : Prop where
  architectures : ∀ e ∈ entries, e.name = ReleaseField.architectures.key → r.architectures = e.listValue
  name : ∀ e ∈ entries, e.name = ReleaseField.codename.key → r.name = some (trimXstrdup e.value)
  components : ∀ e ∈ entries, e.name = ReleaseField.components.key → r.components = e.listValue
  datestring : ∀ e ∈ entries, e.name = ReleaseField.date.key → r.datestring = some (trimXstrdup e.value)
  md5sums : ∀ e ∈ entries, e.name = ReleaseField.md5sum.key → r.md5sums = some e.cksums
  sha256sums : ∀ e ∈ entries, e.name = ReleaseField.sha256.key → r.sha256sums = some e.cksums

/-- What has to hold of the entries that are read. Of each field the last entry that is taken for it has
its value; of each section an entry that is taken for it is read, and the section with all its lines; and
when the lines of the SHA256 section come the flag of the other section is not set. -/
structure ReadApart (reading : Bool) (entries read : List ReleaseEntry) : Prop where
  architectures : ∀ e ∈ entries, e.name = ReleaseField.architectures.key →
    (lastTaken .architectures read).elim [] ReleaseEntry.listValue = e.listValue
  name : ∀ e ∈ entries, e.name = ReleaseField.codename.key →
    (lastTaken .codename read).map (ReleaseEntry.textValue .codename) = some (trimXstrdup e.value)
  components : ∀ e ∈ entries, e.name = ReleaseField.components.key →
    (lastTaken .components read).elim [] ReleaseEntry.listValue = e.listValue
  datestring : ∀ e ∈ entries, e.name = ReleaseField.date.key →
    (lastTaken .date read).map (ReleaseEntry.textValue .date) = some (trimXstrdup e.value)
  md5sum : ∃ e ∈ read, takenFor e.name = some .md5sum
  md5sums : ∀ e ∈ entries, e.name = ReleaseField.md5sum.key → e.sums ≠ [] → e ∈ read
  sha256 : ∃ e ∈ read, takenFor e.name = some .sha256
  sha256sums : ∀ e ∈ entries, e.name = ReleaseField.sha256.key → e.sums ≠ [] → e ∈ read
  apart : ¬ Flagged reading read

namespace ReleaseFile

variable (file : ReleaseFile)

theorem lines_ne_nil : file.lines ≠ [] := by
  obtain ⟨e, he⟩ := file.once .date
  have hmem : e ∈ file.entries := by
    have : e ∈ file.entries.filter fun e => e.name = ReleaseField.date.key := by simp [he]
    exact (List.mem_filter.mp this).1
  refine List.ne_nil_of_mem (a := e.name ++ ':' :: e.value) (List.mem_flatMap.mpr ⟨e, hmem, ?_⟩)
  exact List.mem_cons_self

/-- What a line is: the first one of an entry, or one of a section. -/
theorem mem_lines {l : CStr} (h : l ∈ file.lines) : ∃ e ∈ file.entries,
    l = e.name ++ ':' :: e.value ∨ ∃ sum ∈ e.sums, l = ' ' :: sum := by
  obtain ⟨e, he, hl⟩ := List.mem_flatMap.mp h
  rcases List.mem_cons.mp hl with rfl | hl
  · exact ⟨e, he, Or.inl rfl⟩
  · obtain ⟨sum, hsum, rfl⟩ := List.mem_map.mp hl
    exact ⟨e, he, Or.inr ⟨sum, hsum, rfl⟩⟩

theorem isLine_of_mem {l : CStr} (h : l ∈ file.lines) : IsLine l ∧ l ≠ [] := by
  obtain ⟨e, he, rfl | ⟨sum, hsum, rfl⟩⟩ := file.mem_lines h
  · have hwf := file.wellFormed e he
    refine ⟨isLine_append.mpr ⟨hwf.name.1, ?_⟩, by simp⟩
    exact isLine_append.mpr ⟨(by decide : IsLine [':']), hwf.value⟩
  · refine ⟨?_, List.cons_ne_nil _ _⟩
    exact isLine_append.mpr ⟨(by decide : IsLine [' ']), ((file.wellFormed e he).sums sum hsum).1⟩

/-- What is behind the NUL of a line is not read. -/
theorem releaseParseLine_behind {l : CStr} (h : l ∈ file.lines) (behind : CStr) (s : Option ReleaseState) :
    releaseParseLine s ⟨l, behind⟩ = releaseParseLine s ⟨l, []⟩ := by
  cases s with
  | none => rfl
  | some s =>
      obtain ⟨e, he, rfl | ⟨sum, hsum, rfl⟩⟩ := file.mem_lines h
      · have hwf := file.wellFormed e he
        rw [releaseParseLine_head hwf, releaseParseLine_head hwf]
      · obtain ⟨c, hc⟩ := Option.isSome_iff_exists.mp ((file.wellFormed e he).sums sum hsum).2
        rw [releaseParseLine_sum hc, releaseParseLine_sum hc]

theorem lines_eq : file.lines = file.terminated ++ if file.last = [] then [] else [file.last] := by
  rw [terminated, last]
  cases file.newline with
  | true => simp
  | false =>
      have hlast := List.getLast_mem file.lines_ne_nil
      have hne := (file.isLine_of_mem hlast).2
      rw [List.getLastD_eq_getLast?, List.getLast?_eq_some_getLast file.lines_ne_nil]
      simp [hne, List.dropLast_append_getLast file.lines_ne_nil]

/-- **What is read of a file.** -/
theorem releaseParseFromStream_eq (behind : CStr) (s : ReleaseState) (eof : Bool) :
    (releaseParseFromStream behind s ⟨file.text, eof⟩).1.map ReleaseState.release =
      (ReleaseState.entries file.read s).map ReleaseState.release := by
  have hsub : ∀ l, l ∈ file.terminated ∨ l = file.last ∧ file.last ≠ [] → l ∈ file.lines := by
    intro l h
    rw [file.lines_eq, List.mem_append]
    refine h.imp_right ?_
    rintro ⟨rfl, hne⟩
    simp [hne]
  have hlast : IsLine file.last := by
    by_cases hnil : file.last = []
    · rw [hnil]
      decide
    · exact (file.isLine_of_mem (hsub _ (Or.inr ⟨rfl, hnil⟩))).1
  have hbehind : ∀ item, releaseParseLine item ⟨file.last, behind⟩ =
      releaseParseLine item ⟨file.last, []⟩ := by
    intro item
    by_cases hnil : file.last = []
    · rw [hnil]
      cases item <;> rfl
    · exact file.releaseParseLine_behind (hsub _ (Or.inr ⟨rfl, hnil⟩)) behind item
  have hls : ∀ l ∈ file.terminated, IsLine l := fun l hl => (file.isLine_of_mem (hsub l (Or.inl hl))).1
  obtain ⟨ts, hfront, hts⟩ := linesRead_nil file.terminated file.last
  rw [← file.lines_eq] at hfront
  have hcut : ts = (cut ts.length file.entries).flatMap ReleaseEntry.lines := by
    rw [flatMap_lines_cut]
    exact List.prefix_iff_eq_take.mp hfront
  have hwf : ∀ e ∈ cut ts.length file.entries, e.WellFormed := by
    intro e he
    obtain ⟨k, hk⟩ := forall₂_cut ts.length file.entries
    obtain ⟨e₀, he₀, hcutOf⟩ := exists_of_forall₂ hk he
    exact hcutOf.wellFormed (file.wellFormed e₀ (List.mem_of_mem_take he₀))
  rw [releaseParseFromStream, text, parseFromStreamNomalloc_item hls hlast, runLines_linesRead _ hbehind,
    hts, read, hts, List.length_map]
  refine Eq.trans ?_ (runLines_entries hwf s)
  rw [← hcut]

end ReleaseFile

/-! ## Whose checksums are where -/

/-- The checksums of all entries that are taken for a field. -/
def takenCksums (f : ReleaseField) (es : List ReleaseEntry) : List Cksum :=
  (es.filter fun e => takenFor e.name = some f).flatMap ReleaseEntry.cksums

theorem takenCksums_cons (f : ReleaseField) (e : ReleaseEntry) (es : List ReleaseEntry) :
    takenCksums f (e :: es) = (if takenFor e.name = some f then e.cksums else []) ++ takenCksums f es := by
  rw [takenCksums, List.filter_cons]
  by_cases h : takenFor e.name = some f
  · simp [h, takenCksums]
  · simp [h, takenCksums]

theorem Flagged.cons {reading : Bool} {es : List ReleaseEntry} (h : Flagged (flagBehind reading e) es) :
    Flagged reading (e :: es) := by
  obtain ⟨before, e', after, rfl, htaken, hcksums, hflag⟩ := h
  exact ⟨e :: before, e', after, rfl, htaken, hcksums, hflag⟩

/-- **Where the flags are right**, each list gets the checksums of its section. -/
theorem cksums_of_not_flagged {reading : Bool} {es : List ReleaseEntry} (h : ¬ Flagged reading es) :
    md5Cksums reading es = takenCksums .md5sum es ∧ sha256Cksums reading es = takenCksums .sha256 es := by
  induction es generalizing reading with
  | nil => exact ⟨rfl, rfl⟩
  | cons e es ih =>
      obtain ⟨hmd5, hsha⟩ := ih fun hflagged => h hflagged.cons
      have hhead : takenFor e.name = some .sha256 → e.cksums = [] ∨ reading = false := by
        intro htaken
        by_contra hnot
        rw [not_or, Bool.not_eq_false] at hnot
        exact h ⟨[], e, es, rfl, htaken, hnot.1, hnot.2⟩
      rw [md5Cksums, sha256Cksums, takenCksums_cons, takenCksums_cons, hmd5, hsha]
      by_cases h256 : takenFor e.name = some .sha256
      · rcases hhead h256 with hcksums | hreading
        · simp [h256, hcksums]
        · simp [h256, hreading]
      · simp [h256]

/-- An entry that has checksums and is taken for a section is that section. -/
theorem ReleaseEntry.WellFormed.name_eq (he : e.WellFormed) {f : ReleaseField}
    (htaken : takenFor e.name = some f) (hcksums : e.cksums ≠ []) : e.name = f.key := by
  have hne : e.sums ≠ [] := by
    intro hnil
    rw [ReleaseEntry.cksums, hnil] at hcksums
    exact hcksums rfl
  rcases he.owner hne with h | h
  · rw [h, takenFor_key] at htaken
    rw [h, Option.some.inj htaken]
  · rw [h, takenFor_key] at htaken
    rw [h, Option.some.inj htaken]

theorem takenCksums_eq_nil {f : ReleaseField} {es : List ReleaseEntry} (hes : ∀ e ∈ es, e.WellFormed)
    (hname : ∀ e ∈ es, e.name ≠ f.key) : takenCksums f es = [] := by
  refine List.flatMap_eq_nil_iff.mpr fun e he => ?_
  obtain ⟨hmem, htaken⟩ := List.mem_filter.mp he
  by_contra hcksums
  exact hname e hmem ((hes e hmem).name_eq (by simpa using htaken) hcksums)

/-- Of a section that is there once, the first lines are read. -/
theorem takenCksums_of_once {f : ReleaseField} {read entries : List ReleaseEntry} {e₀ : ReleaseEntry}
    (hwf : ∀ e ∈ entries, e.WellFormed) {k : ℕ} (h : List.Forall₂ CutOf read (entries.take k))
    (honce : (entries.filter fun e => e.name = f.key) = [e₀]) :
    ∃ sums, sums <+: e₀.sums ∧ takenCksums f read = sums.filterMap lineCksum ∧
      (sums ≠ [] → sums = e₀.sums → e₀ ∈ read) ∧ (e₀ ∈ read → sums = e₀.sums) := by
  induction entries generalizing read k with
  | nil => cases honce
  | cons e es ih =>
      obtain ⟨he, hes⟩ := List.forall_mem_cons.mp hwf
      cases k with
      | zero =>
          rw [List.take_zero] at h
          cases h
          exact ⟨[], List.nil_prefix, rfl, fun h => absurd rfl h, fun h => by cases h⟩
      | succ k =>
          rw [List.take_succ_cons] at h
          cases h with
          | @cons e' _ read' _ hcut hrest =>
              have hread' : ∀ e ∈ read', e.WellFormed := by
                intro e he
                obtain ⟨e₁, he₁, hcut₁⟩ := exists_of_forall₂ hrest he
                exact hcut₁.wellFormed (hes e₁ (List.mem_of_mem_take he₁))
              rw [takenCksums_cons]
              by_cases hname : e.name = f.key
              · -- this is the section, and there is no other one
                rw [List.filter_cons_of_pos (by simpa using hname), List.cons.injEq] at honce
                obtain ⟨rfl, hnone⟩ := honce
                have hother : ∀ e' ∈ read', e'.name ≠ f.key := by
                  intro e' he'
                  obtain ⟨e₁, he₁, hcut₁⟩ := exists_of_forall₂ hrest he'
                  rw [hcut₁.name]
                  simpa using List.filter_eq_nil_iff.mp hnone e₁ (List.mem_of_mem_take he₁)
                have htaken : takenFor e'.name = some f := by rw [hcut.name, hname, takenFor_key]
                refine ⟨e'.sums, hcut.sums, ?_, fun _ hsums => ?_, fun hmem => ?_⟩
                · rw [if_pos htaken, takenCksums_eq_nil hread' hother, List.append_nil]
                  rfl
                · have heq : e' = e := by
                    obtain ⟨n, v, l⟩ := e'
                    obtain ⟨hn, hv, -⟩ := hcut
                    cases e
                    simp_all
                  exact heq ▸ List.mem_cons_self
                · rcases List.mem_cons.mp hmem with rfl | hmem
                  · rfl
                  · exact absurd hname (hother e hmem)
              · rw [List.filter_cons_of_neg (by simpa using hname)] at honce
                obtain ⟨sums, hfront, hcksums, hmem, hsums⟩ := ih hes hrest honce
                have hnil : (if takenFor e'.name = some f then e'.cksums else []) = [] := by
                  split_ifs with htaken
                  · by_contra hne
                    exact hname (hcut.name ▸ (hcut.wellFormed he).name_eq htaken hne)
                  · rfl
                refine ⟨sums, hfront, by rw [hnil, List.nil_append, hcksums], fun hne heq =>
                  List.mem_cons_of_mem _ (hmem hne heq), fun hread => ?_⟩
                rcases List.mem_cons.mp hread with rfl | hread
                · have hf : e₀.name = f.key := by
                    have : e₀ ∈ es.filter fun e => e.name = f.key := by simp [honce]
                    simpa using (List.mem_filter.mp this).2
                  exact absurd (hcut.name.symm.trans hf) hname
                · exact hsums hread

theorem sha256Cksums_append (reading : Bool) (es es' : List ReleaseEntry) :
    sha256Cksums reading (es ++ es') =
      sha256Cksums reading es ++ sha256Cksums (flagAfter reading es) es' := by
  induction es generalizing reading with
  | nil => rfl
  | cons e es ih =>
      rw [List.cons_append, sha256Cksums, sha256Cksums, ih, List.append_assoc]
      rfl

theorem sha256Cksums_eq_nil {es : List ReleaseEntry} (hes : ∀ e ∈ es, e.WellFormed)
    (hname : ∀ e ∈ es, e.name ≠ ReleaseField.sha256.key) (reading : Bool) : sha256Cksums reading es = [] := by
  induction es generalizing reading with
  | nil => rfl
  | cons e es ih =>
      obtain ⟨he, hes⟩ := List.forall_mem_cons.mp hes
      obtain ⟨hne, hname⟩ := List.forall_mem_cons.mp hname
      rw [sha256Cksums, ih hes hname, List.append_nil]
      split_ifs with htaken
      · by_contra hcksums
        exact hne (he.name_eq htaken.1 hcksums)
      · rfl

theorem names_of_forall₂ {es es' : List ReleaseEntry} (h : List.Forall₂ CutOf es' es) :
    es'.map ReleaseEntry.name = es.map ReleaseEntry.name := by
  induction h with
  | nil => rfl
  | cons hcut h ih => rw [List.map_cons, List.map_cons, hcut.name, ih]

/-- All checksums of a section are there if all its lines are. -/
theorem filterMap_lineCksum_inj {sums : List CStr} {e : ReleaseEntry} (he : e.WellFormed)
    (hfront : sums <+: e.sums) (h : sums.filterMap lineCksum = e.cksums) : sums = e.sums := by
  have hlength : ∀ sums : List CStr, (∀ sum ∈ sums, (lineCksum sum).isSome) →
      (sums.filterMap lineCksum).length = sums.length := by
    intro sums hsums
    induction sums with
    | nil => rfl
    | cons sum sums ih =>
        obtain ⟨hsum, hsums⟩ := List.forall_mem_cons.mp hsums
        obtain ⟨c, hc⟩ := Option.isSome_iff_exists.mp hsum
        rw [List.filterMap_cons_some hc, List.length_cons, List.length_cons, ih hsums]
  have hall : ∀ sum ∈ e.sums, (lineCksum sum).isSome := fun sum hsum => (he.sums sum hsum).2
  refine hfront.eq_of_length ?_
  rw [← hlength sums fun sum hsum => hall sum (hfront.subset hsum), h, ← hlength e.sums hall]
  rfl

namespace ReleaseFile

variable {file : ReleaseFile}

theorem forall₂_read (file : ReleaseFile) : ∃ k, List.Forall₂ CutOf file.read (file.entries.take k) := by
  obtain ⟨k, hk⟩ := forall₂_cut (linesRead [] file.terminated file.last).length file.entries
  have hfront : file.read <+: cut (linesRead [] file.terminated file.last).length file.entries :=
    List.takeWhile_prefix _
  have htake := List.forall₂_take file.read.length hk
  rw [List.take_take, ← List.prefix_iff_eq_take.mp hfront] at htake
  exact ⟨min file.read.length k, htake⟩

theorem wellFormed_read (file : ReleaseFile) : ∀ e ∈ file.read, e.WellFormed := by
  intro e he
  obtain ⟨k, hk⟩ := file.forall₂_read
  obtain ⟨e₀, he₀, hcut⟩ := exists_of_forall₂ hk he
  exact hcut.wellFormed (file.wellFormed e₀ (List.mem_of_mem_take he₀))

/-- A field is read once at most. -/
theorem count_read (file : ReleaseFile) (f : ReleaseField) :
    (file.read.map ReleaseEntry.name).count f.key ≤ 1 := by
  obtain ⟨k, hk⟩ := file.forall₂_read
  obtain ⟨e, he⟩ := file.once f
  have hcount : (file.entries.map ReleaseEntry.name).count f.key = 1 := by
    have hlength := congrArg List.length he
    rw [← List.countP_eq_length_filter] at hlength
    rw [List.count, List.countP_map]
    refine (List.countP_congr fun e _ => ?_).trans hlength
    simp
  rw [names_of_forall₂ hk, ← hcount]
  exact ((List.take_sublist k file.entries).map ReleaseEntry.name).count_le f.key

/-- The entry for a field. -/
theorem exists_entry (file : ReleaseFile) (f : ReleaseField) : ∃ e ∈ file.entries, e.name = f.key ∧
    (file.entries.filter fun e => e.name = f.key) = [e] ∧ ∀ e' ∈ file.entries, e'.name = f.key → e' = e := by
  obtain ⟨e, he⟩ := file.once f
  have hmem : ∀ e', e' ∈ file.entries ∧ e'.name = f.key ↔ e' = e := by
    intro e'
    rw [← @List.mem_singleton _ e' e, ← he, List.mem_filter, decide_eq_true_iff]
  obtain ⟨hentry, hname⟩ := (hmem e).mpr rfl
  exact ⟨e, hentry, hname, he, fun e' he' hname' => (hmem e').mp ⟨he', hname'⟩⟩

/-- **The sections of what is read.** -/
theorem takenCksums_read (file : ReleaseFile) {f : ReleaseField} {e : ReleaseEntry} (he : e ∈ file.entries)
    (hname : e.name = f.key) :
    takenCksums f file.read = e.cksums ↔ (e.sums ≠ [] → e ∈ file.read) := by
  obtain ⟨k, hk⟩ := file.forall₂_read
  obtain ⟨e₀, -, -, honce, hunique⟩ := file.exists_entry f
  obtain rfl := hunique e he hname
  obtain ⟨sums, hfront, hcksums, hmem, hsums⟩ := takenCksums_of_once file.wellFormed hk honce
  rw [hcksums]
  constructor
  · intro h hne
    have heq := filterMap_lineCksum_inj (file.wellFormed e he) hfront h
    exact hmem (heq ▸ hne) heq
  · intro h
    by_cases hne : e.sums = []
    · rw [hne] at hfront
      rw [ReleaseEntry.cksums, hne, List.prefix_nil.mp hfront]
    · rw [hsums (h hne)]
      rfl

/-- Where a SHA256 section is read under the wrong flag, no checksum gets in its list. -/
theorem sha256Cksums_of_flagged (file : ReleaseFile) {reading : Bool} (h : Flagged reading file.read) :
    ∃ e ∈ file.entries, e.name = ReleaseField.sha256.key ∧ e.cksums ≠ [] ∧
      sha256Cksums reading file.read = [] := by
  obtain ⟨before, e, after, hsplit, htaken, hcksums, hflag⟩ := h
  have hmem : e ∈ file.read := by simp [hsplit]
  obtain ⟨k, hk⟩ := file.forall₂_read
  obtain ⟨e₀, he₀, hcut⟩ := exists_of_forall₂ hk hmem
  have hname : e.name = ReleaseField.sha256.key := (file.wellFormed_read e hmem).name_eq htaken hcksums
  have hcksums₀ : e₀.cksums ≠ [] := by
    intro hnil
    have hsums := @filterMap_lineCksum_inj [] _ (file.wellFormed e₀ (List.mem_of_mem_take he₀))
      List.nil_prefix hnil.symm
    have hfront := hcut.sums
    rw [← hsums] at hfront
    rw [ReleaseEntry.cksums, List.prefix_nil.mp hfront] at hcksums
    exact hcksums rfl
  refine ⟨e₀, List.mem_of_mem_take he₀, hcut.name ▸ hname, hcksums₀, ?_⟩
  -- there is no other section with this name
  have hcount := file.count_read .sha256
  rw [hsplit, List.map_append, List.map_cons, List.count_append, List.count_cons, hname] at hcount
  simp only [beq_self_eq_true, if_true] at hcount
  have hbefore : ∀ e' ∈ before, e'.name ≠ ReleaseField.sha256.key := fun e' he' h =>
    absurd (List.count_pos_iff.mpr (List.mem_map.mpr ⟨e', he', h⟩)) (by omega)
  have hafter : ∀ e' ∈ after, e'.name ≠ ReleaseField.sha256.key := fun e' he' h =>
    absurd (List.count_pos_iff.mpr (List.mem_map.mpr ⟨e', he', h⟩)) (by omega)
  have hwf : ∀ e' ∈ before ++ e :: after, e'.WellFormed := hsplit ▸ file.wellFormed_read
  rw [hsplit, sha256Cksums_append, sha256Cksums,
    sha256Cksums_eq_nil (fun e' he' => hwf e' (List.mem_append_left _ he')) hbefore,
    sha256Cksums_eq_nil (fun e' he' => hwf e' (by simp [he'])) hafter, hflag]
  simp

end ReleaseFile

theorem exists_release_iff {o : Option ReleaseState} {p : Release → Prop} :
    (∃ s, o = some s ∧ p s.release) ↔ ∃ r, o.map ReleaseState.release = some r ∧ p r := by
  cases o with
  | none => simp
  | some s => simp

theorem elim_some_eq_map {α : Type*} (o : Option ReleaseEntry) (v : ReleaseEntry → α) :
    o.elim none (fun e => some (v e)) = o.map v := by
  cases o <;> rfl

/-- From what is left behind by the entries that are read. -/
theorem stored_iff_readApart (file : ReleaseFile) {readingMd5sums readingSha256sums : Bool} :
    (∃ s, ReleaseState.entries file.read ⟨{}, readingMd5sums, readingSha256sums⟩ = some s ∧
        Stored file.entries s.release) ↔ ReadApart readingMd5sums file.entries file.read := by
  obtain ⟨e5, he5, hname5, -, -⟩ := file.exists_entry .md5sum
  obtain ⟨e256, he256, hname256, -, -⟩ := file.exists_entry .sha256
  have hlist : ∀ {f : ReleaseField} {cs cs' : List Cksum},
      extended f file.read none cs = some cs' ↔ (∃ e ∈ file.read, takenFor e.name = some f) ∧ cs = cs' := by
    intro f cs cs'
    by_cases h : ∃ e ∈ file.read, takenFor e.name = some f
    · simp [extended, h]
    · simp [extended, h]
  constructor
  · rintro ⟨s, hs, hstored⟩
    have hleaves := leaves_of_entries file.wellFormed_read hs
    have hsha : ∀ e ∈ file.entries, e.name = ReleaseField.sha256.key → _ := fun e he hname =>
      hlist.mp (hleaves.sha256sums.symm.trans (hstored.sha256sums e he hname))
    have hmd5 : ∀ e ∈ file.entries, e.name = ReleaseField.md5sum.key → _ := fun e he hname =>
      hlist.mp (hleaves.md5sums.symm.trans (hstored.md5sums e he hname))
    have hapart : ¬ Flagged readingMd5sums file.read := by
      intro hflagged
      obtain ⟨e, he, hname, hne, hnil⟩ := file.sha256Cksums_of_flagged hflagged
      exact hne ((hsha e he hname).2.symm.trans hnil)
    obtain ⟨htaken5, htaken256⟩ := cksums_of_not_flagged hapart
    exact {
      architectures := fun e he hname => hleaves.architectures.symm.trans (hstored.architectures e he hname)
      name := fun e he hname => (elim_some_eq_map _ _).symm.trans
        (hleaves.name.symm.trans (hstored.name e he hname))
      components := fun e he hname => hleaves.components.symm.trans (hstored.components e he hname)
      datestring := fun e he hname => (elim_some_eq_map _ _).symm.trans
        (hleaves.datestring.symm.trans (hstored.datestring e he hname))
      md5sum := (hmd5 e5 he5 hname5).1
      md5sums := fun e he hname =>
        (file.takenCksums_read he hname).mp (htaken5.symm.trans (hmd5 e he hname).2)
      sha256 := (hsha e256 he256 hname256).1
      sha256sums := fun e he hname =>
        (file.takenCksums_read he hname).mp (htaken256.symm.trans (hsha e he hname).2)
      apart := hapart }
  · intro h
    cases hs : ReleaseState.entries file.read ⟨{}, readingMd5sums, readingSha256sums⟩ with
    | none => exact absurd (flagged_of_entries file.wellFormed_read hs) h.apart
    | some s =>
        have hleaves := leaves_of_entries file.wellFormed_read hs
        obtain ⟨htaken5, htaken256⟩ := cksums_of_not_flagged h.apart
        exact ⟨s, rfl, {
          architectures := fun e he hname => hleaves.architectures.trans (h.architectures e he hname)
          name := fun e he hname => hleaves.name.trans ((elim_some_eq_map _ _).trans (h.name e he hname))
          components := fun e he hname => hleaves.components.trans (h.components e he hname)
          datestring := fun e he hname =>
            hleaves.datestring.trans ((elim_some_eq_map _ _).trans (h.datestring e he hname))
          md5sums := fun e he hname => hleaves.md5sums.trans (hlist.mpr ⟨h.md5sum,
            htaken5.trans ((file.takenCksums_read he hname).mpr (h.md5sums e he hname))⟩)
          sha256sums := fun e he hname => hleaves.sha256sums.trans (hlist.mpr ⟨h.sha256,
            htaken256.trans ((file.takenCksums_read he hname).mpr (h.sha256sums e he hname))⟩) }⟩

/-- **When the sections and the fields of a file are kept apart**: in the release that is read of it is
every field and every section, exactly when it is `ReadApart`. -/
theorem releaseParsed_iff (file : ReleaseFile) (behind : CStr) (eof readingMd5sums readingSha256sums : Bool) :
    (∃ s, (releaseParseFromStream behind ⟨{}, readingMd5sums, readingSha256sums⟩ ⟨file.text, eof⟩).1 = some s ∧
        Stored file.entries s.release) ↔
      ReadApart readingMd5sums file.entries file.read := by
  rw [← stored_iff_readApart, exists_release_iff, exists_release_iff, file.releaseParseFromStream_eq]

/-- A file in which the section SHA256 stands right behind the section MD5sum:
```
Architectures: all
Codename: c
Components: main
Date: d
MD5sum:
 a 1 x
SHA256:
 b 1 x
``` -/
def adjacentEntries : List ReleaseEntry :=
  [{ name := "Architectures".toList, value := " all".toList },
    { name := "Codename".toList, value := " c".toList },
    { name := "Components".toList, value := " main".toList },
    { name := "Date".toList, value := " d".toList },
    { name := "MD5sum".toList, value := [], sums := ["a 1 x".toList] },
    { name := "SHA256".toList, value := [], sums := ["b 1 x".toList] }]

theorem wellFormed_adjacentEntries : ∀ e ∈ adjacentEntries, e.WellFormed := by
  have hlines : ∀ e ∈ adjacentEntries, (IsLine e.name ∧ ':' ∉ e.name ∧ e.name ≠ [] ∧
      e.name.head? ≠ some ' ') ∧ IsLine e.value ∧ (∀ sum ∈ e.sums, IsLine sum ∧ (lineCksum sum).isSome) ∧
      (e.sums ≠ [] → e.name = ReleaseField.md5sum.key ∨ e.name = ReleaseField.sha256.key) := by
    decide +kernel
  exact fun e he => ⟨(hlines e he).1, (hlines e he).2.1, (hlines e he).2.2.1, (hlines e he).2.2.2⟩

def adjacentFile : ReleaseFile where
  entries := adjacentEntries
  wellFormed := wellFormed_adjacentEntries
  once f := by cases f <;> exact ⟨_, rfl⟩

/-- The checksums of both sections are put in `md5sums`. -/
theorem not_stored_adjacent : ¬ ∃ s, (releaseParseFromStream [] {} ⟨adjacentFile.text, false⟩).1 = some s ∧
    Stored adjacentFile.entries s.release := by
  rw [exists_release_iff, adjacentFile.releaseParseFromStream_eq, ← exists_release_iff, stored_iff_readApart]
  intro h
  have hread : adjacentFile.read = adjacentEntries := by decide
  refine h.apart ⟨adjacentEntries.take 5,
    { name := "SHA256".toList, value := [], sums := ["b 1 x".toList] }, [], ?_, ?_, ?_, ?_⟩
  · rw [hread]
    rfl
  · decide
  · decide +kernel
  · decide

end FirmwareTools.Opkg

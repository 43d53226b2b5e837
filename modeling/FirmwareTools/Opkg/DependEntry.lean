import FirmwareTools.Opkg.Depends

/-! # Entries of a dependency field

An entry of a dependency field as it may be written: alternatives between bars, each a name with an
optional star and an optional constraint, and blanks around every token. `parseDepends` reads it with a
scanner that looks for a star in one place only.

* **`parseTail_constraint`**, **`parseTail_constraint_ne`** — which constraints are read;
* **`parsePossibilities_iff`** — how far the scanner stays in step with the alternatives;
* **`parsedExactly_iff`** — when an entry is read as it is written. -/

namespace FirmwareTools.Opkg

/-! ## Entries as they are written -/

/-- White space between two tokens. -/
abbrev Blanks := { s : CStr // ∀ c ∈ s, isspace c = true }

/-- The operators; `<` and `>` are the deprecated spellings. -/
inductive EntryOp
  | earlier | earlierEqual | equal | laterEqual | later | less | greater
  deriving DecidableEq, Repr

/-- How an operator is written. -/
def EntryOp.text : EntryOp → CStr
  | .earlier => ['<', '<']
  | .earlierEqual => ['<', '=']
  | .equal => ['=']
  | .laterEqual => ['>', '=']
  | .later => ['>', '>']
  | .less => ['<']
  | .greater => ['>']

/-- The constraint it stands for. -/
def EntryOp.constraint : EntryOp → VersionConstraint
  | .earlier => .earlier
  | .earlierEqual => .earlierEqual
  | .equal => .equal
  | .laterEqual => .laterEqual
  | .later => .later
  | .less => .earlierEqual
  | .greater => .laterEqual

/-- A constraint: `(`, the operator, the version and `)`, with the blanks before each of them. -/
structure EntryConstraint where
  beforeParen : Blanks
  beforeOp : Blanks
  op : EntryOp
  beforeVersion : Blanks
  version : CStr
  beforeClose : Blanks
  no_delimiter : ')' ∉ version ∧ '|' ∉ version
  head_not_space : ∀ c ∈ version.head?, isspace c = false
  last_not_space : ∀ c ∈ version.getLast?, isspace c = false
  version_fits : version.length < bufferSize

/-- An alternative: a name, a star with the blanks before it, and a constraint, with the blanks around. -/
structure EntryAlt where
  before : Blanks
  name : CStr
  star : Option Blanks
  constraint : Option EntryConstraint
  after : Blanks
  name_ne_nil : name ≠ []
  name_chars : ∀ c ∈ name, isNameChar c = true ∧ c ≠ ')'
  name_fits : name.length < bufferSize

/-- What is between the parentheses, and the closing one. -/
def EntryConstraint.body (c : EntryConstraint) : CStr :=
  c.beforeOp.1 ++ c.op.text ++ c.beforeVersion.1 ++ c.version ++ c.beforeClose.1 ++ [')']

def EntryConstraint.text (c : EntryConstraint) : CStr := c.beforeParen.1 ++ '(' :: c.body

/-- What is behind the name. -/
def EntryAlt.rest (a : EntryAlt) : CStr :=
  (match a.star with | some blanks => blanks.1 ++ ['*'] | none => []) ++
    (match a.constraint with | some c => c.text | none => []) ++ a.after.1

/-- The alternatives behind a bar. -/
def entryTail : List EntryAlt → CStr
  | [] => []
  | a :: as => '|' :: (a.before.1 ++ a.name ++ a.rest ++ entryTail as)

/-- The text of an entry. -/
def entryText (a : EntryAlt) (as : List EntryAlt) : CStr := a.before.1 ++ a.name ++ a.rest ++ entryTail as

/-- What an alternative denotes. -/
def EntryAlt.depend (a : EntryAlt) : Depend :=
  { constraint := match a.constraint with | some c => c.op.constraint | none => .none
    version := a.constraint.map EntryConstraint.version
    pkg := a.name }

/-- What an entry denotes. -/
def entryDepend (as : List EntryAlt) : CompoundDepend :=
  { type := if as.any fun a => a.star.isSome then .greedyDepend else .depend
    possibilities := as.map EntryAlt.depend }

/-- The entry is read as it is written. No possibility has an empty name then. -/
def ParsedExactly (a : EntryAlt) (as : List EntryAlt) : Prop :=
  parseDepends (entryText a as) = some (entryDepend (a :: as))

/-! ## When an entry is read as it is written -/

/-- The operator stands right behind the parenthesis; a version right behind `<` or `>` does not make
another operator of it; and the version fits the buffer with the blanks behind it. -/
structure EntryConstraint.Ok (c : EntryConstraint) : Prop where
  beforeOp : c.beforeOp.1 = []
  op : c.beforeVersion.1 = [] → c.op = .less ∨ c.op = .greater →
    c.version.head? ≠ some '=' ∧ c.version.head? ≠ c.op.text.head?
  fits : c.version = [] ∨ c.version.length + c.beforeClose.1.length < bufferSize

/-- A star stands behind the last alternative only, and no constraint behind it. -/
def AltsOk : List EntryAlt → Prop
  | [] => True
  | a :: as => (∀ c, a.constraint = some c → c.Ok) ∧ (a.star.isSome → a.constraint = none ∧ as = []) ∧ AltsOk as

/-- **When an entry is read as it is written**: no blank comes first, and the alternatives are fine. -/
def EntryOk (a : EntryAlt) (as : List EntryAlt) : Prop := a.before.1 = [] ∧ AltsOk (a :: as)

/-! ## Blanks -/

/-- What `parseDepends` skips at the end of a round. -/
def isSkipped (c : Char) : Bool := isspace c || c == ')' || c == '|'

theorem dropWhile_blanks (b : Blanks) (s : CStr) : (b.1 ++ s).dropWhile isspace = s.dropWhile isspace :=
  List.dropWhile_append_of_pos b.2

theorem dropWhile_isSkipped_blanks (b : Blanks) (s : CStr) :
    (b.1 ++ s).dropWhile isSkipped = s.dropWhile isSkipped :=
  List.dropWhile_append_of_pos fun c hc => by simp [isSkipped, b.2 c hc]

theorem isNameChar_eq_false_of_isspace {c : Char} (h : isspace c = true) : isNameChar c = false := by
  simp [isNameChar, h]

/-- A string that begins with blanks begins with no character of a name, if what is behind them does not. -/
theorem head_blanks (b : Blanks) {s : CStr} (h : ∀ c ∈ s.head?, isNameChar c = false) :
    ∀ c ∈ (b.1 ++ s).head?, isNameChar c = false := by
  obtain ⟨b, hb⟩ := b
  cases b with
  | nil => exact h
  | cons d b =>
      intro c hc
      obtain rfl : d = c := Option.some.inj hc
      exact isNameChar_eq_false_of_isspace (hb d (by simp))

theorem head_entryTail (as : List EntryAlt) : ∀ c ∈ (entryTail as).head?, isNameChar c = false := by
  intro c hc
  cases as with
  | nil => cases hc
  | cons a as =>
      obtain rfl : '|' = c := Option.some.inj hc
      decide

theorem EntryAlt.head_rest (a : EntryAlt) (as : List EntryAlt) :
    ∀ c ∈ (a.rest ++ entryTail as).head?, isNameChar c = false := by
  have hafter : ∀ c ∈ (a.after.1 ++ entryTail as).head?, isNameChar c = false :=
    head_blanks a.after (head_entryTail as)
  have hparen : ∀ (c : EntryConstraint) (s : CStr), ∀ d ∈ (c.text ++ s).head?, isNameChar d = false := by
    intro c s
    rw [EntryConstraint.text, List.append_assoc]
    refine head_blanks _ fun d hd => ?_
    obtain rfl : '(' = d := Option.some.inj hd
    decide
  have hstar : ∀ (b : Blanks) (s : CStr), ∀ d ∈ (b.1 ++ ['*'] ++ s).head?, isNameChar d = false := by
    intro b s
    rw [List.append_assoc]
    refine head_blanks _ fun d hd => ?_
    obtain rfl : '*' = d := Option.some.inj hd
    decide
  rw [EntryAlt.rest]
  cases a.star with
  | some b => simpa only [List.append_assoc] using hstar b _
  | none =>
      cases a.constraint with
      | some c => simpa only [List.nil_append, List.append_assoc] using hparen c _
      | none => exact hafter

/-- What is behind the bars: the next alternative, without the blanks before it. -/
def entryNext : List EntryAlt → CStr
  | [] => []
  | a :: as => a.name ++ a.rest ++ entryTail as

theorem EntryAlt.exists_name (a : EntryAlt) :
    ∃ c s, a.name = c :: s ∧ isNameChar c = true ∧ c ≠ ')' := by
  obtain ⟨c, s, hname⟩ := List.exists_cons_of_ne_nil a.name_ne_nil
  have hc := a.name_chars c (by simp [hname])
  exact ⟨c, s, hname, hc⟩

theorem dropWhile_entryTail (as : List EntryAlt) : (entryTail as).dropWhile isSkipped = entryNext as := by
  cases as with
  | nil => rfl
  | cons a as =>
      obtain ⟨c, s, hname, hc, hparen⟩ := a.exists_name
      have hskip : isSkipped c = false := by
        simp only [isNameChar, Bool.and_eq_true, Bool.not_eq_true', bne_iff_ne] at hc
        simp [isSkipped, hc.1.1.1, hc.2, hparen]
      have hbar : isSkipped '|' = true := by decide
      rw [entryTail, entryNext, List.dropWhile_cons_of_pos hbar, List.append_assoc, List.append_assoc,
        dropWhile_isSkipped_blanks, hname, List.cons_append, List.dropWhile_cons_of_neg (by simp [hskip])]
      simp

theorem head_entryNext (as : List EntryAlt) : (entryNext as).head? ≠ some '*' := by
  cases as with
  | nil => simp [entryNext]
  | cons a as =>
      obtain ⟨c, s, hname, hc, -⟩ := a.exists_name
      rw [entryNext, hname]
      intro h
      obtain rfl : c = '*' := Option.some.inj h
      cases hc

/-! ## A round of the scanner -/

/-- A constraint behind a name. -/
def parseParen (pkgName src : CStr) : Option (Depend × CStr) :=
  match src with
  | '(' :: src =>
    (copyWhile (· != ')') ((parseConstraint src).2.dropWhile isspace)).map fun (version, src') =>
      ({ constraint := (parseConstraint src).1, version := some (trimXstrdup version), pkg := pkgName }, src')
  | src => some ({ pkg := pkgName }, src)

/-- The end of a round: a star makes the entry greedy. -/
def parseStar (possibility : Depend) (src : CStr) : Depend × Bool × CStr :=
  match src with
  | '*' :: src => (possibility, true, src)
  | src => (possibility, false, src)

/-- What `parseDepends` does behind a name. -/
def parseTail (pkgName src : CStr) : Option (Depend × Bool × CStr) :=
  (parseParen pkgName (src.dropWhile isspace)).map fun (possibility, src) =>
    parseStar possibility (src.dropWhile isSkipped)

theorem parseParen_of_ne {src : CStr} (h : src.head? ≠ some '(') (pkgName : CStr) :
    parseParen pkgName src = some ({ pkg := pkgName }, src) := by
  unfold parseParen
  split
  · exact absurd rfl h
  · rfl

theorem parseStar_of_ne {src : CStr} (h : src.head? ≠ some '*') (possibility : Depend) :
    parseStar possibility src = (possibility, false, src) := by
  unfold parseStar
  split
  · exact absurd rfl h
  · rfl

/-- The end of a round is the same in all cases. -/
theorem match_dropWhile_eq (d : Depend) (src : CStr) :
    (match src.dropWhile fun c => isspace c || c == ')' || c == '|' with
      | '*' :: src => some (d, true, src)
      | src => some (d, false, src)) = some (parseStar d (src.dropWhile isSkipped)) := by
  change (match src.dropWhile isSkipped with
    | '*' :: src => some (d, true, src)
    | src => some (d, false, src)) = _
  generalize src.dropWhile isSkipped = src
  split
  · rfl
  · next hnot =>
      rw [parseStar_of_ne fun hhead => ?_]
      cases src with
      | nil => cases hhead
      | cons c src =>
          obtain rfl : c = '*' := Option.some.inj hhead
          exact hnot src rfl

/-- **A round**: a name, and what is behind it. -/
theorem parsePossibility_eq (src : CStr) :
    parsePossibility src =
      (copyWhile isNameChar src).bind fun (name, src) => parseTail (trimXstrdup name) src := by
  rw [parsePossibility]
  cases copyWhile isNameChar src with
  | none => rfl
  | some found =>
      obtain ⟨name, rest⟩ := found
      simp only [Option.bind_eq_bind, Option.bind_some, parseTail]
      split
      · next src hsrc =>
          rw [hsrc, parseParen]
          cases copyWhile (· != ')') ((parseConstraint src).2.dropWhile isspace) with
          | none => rfl
          | some found => exact match_dropWhile_eq _ _
      · next hnot =>
          rw [parseParen_of_ne fun hhead => ?_]
          · exact match_dropWhile_eq _ _
          · cases hsrc : rest.dropWhile isspace with
            | nil => simp [hsrc] at hhead
            | cons c src =>
                rw [hsrc] at hhead
                obtain rfl : c = '(' := Option.some.inj hhead
                exact hnot src hsrc

/-- **The name** is what comes first. -/
theorem parsePossibility_name {name rest : CStr} (hname : ∀ c ∈ name, isNameChar c = true)
    (hfits : name.length < bufferSize) (hrest : ∀ c ∈ rest.head?, isNameChar c = false) :
    parsePossibility (name ++ rest) = parseTail name rest := by
  have hcopy : copyWhile isNameChar (name ++ rest) = some (name, rest) := by
    cases rest with
    | nil =>
        rw [List.append_nil, copyWhile, List.takeWhile_eq_self_iff.mpr hname, if_pos hfits,
          List.dropWhile_eq_nil_iff.mpr hname]
    | cons c rest => rw [copyWhile_append rest hname (hrest c rfl), if_pos hfits]
  have htrim : trimXstrdup name = name := by
    have hspace : ∀ c ∈ name, isspace c = false := by
      intro c hc
      have h := hname c hc
      simp only [isNameChar, Bool.and_eq_true, Bool.not_eq_true'] at h
      exact h.1.1.1
    exact trimXstrdup_eq_self (fun c hc => hspace c (List.mem_of_mem_head? hc))
      (fun c hc => hspace c (List.mem_of_getLast? hc))
  rw [parsePossibility_eq, hcopy, Option.bind_some]
  dsimp only
  rw [htrim]

/-- Where a name does not come first, an empty one is read. -/
theorem parsePossibility_empty {src : CStr} (hsrc : ∀ c ∈ src.head?, isNameChar c = false) :
    parsePossibility src = parseTail [] src :=
  @parsePossibility_name [] src (fun _ h => by cases h) (by decide) hsrc

theorem fst_parseStar (d : Depend) (src : CStr) : (parseStar d src).1 = d := by
  unfold parseStar
  split <;> rfl

/-- The name is taken over. -/
theorem pkg_parseTail {name src : CStr} {found : Depend × Bool × CStr} (h : parseTail name src = some found) :
    found.1.pkg = name := by
  obtain ⟨⟨d, src'⟩, hparen, rfl⟩ := Option.map_eq_some_iff.mp h
  rw [fst_parseStar]
  unfold parseParen at hparen
  split at hparen
  · obtain ⟨_, -, hsome⟩ := Option.map_eq_some_iff.mp hparen
    cases hsome
    rfl
  · cases hparen
    rfl

/-- **A star**: what is behind it is left for the next round. -/
theorem parseTail_star (name : CStr) (b : Blanks) (src : CStr) :
    parseTail name (b.1 ++ '*' :: src) = some ({ pkg := name }, true, src) := by
  have hdrop : (b.1 ++ '*' :: src).dropWhile isspace = '*' :: src := dropWhile_blanks b _
  rw [parseTail, hdrop]
  rfl

/-- **A name alone**: blanks and a bar are skipped. -/
theorem parseTail_plain (name : CStr) (b : Blanks) (as : List EntryAlt) :
    parseTail name (b.1 ++ entryTail as) = some ({ pkg := name }, false, entryNext as) := by
  have hdrop : (b.1 ++ entryTail as).dropWhile isspace = entryTail as := by
    rw [dropWhile_blanks]
    cases as <;> rfl
  have hparen : (entryTail as).head? ≠ some '(' := by
    cases as <;> simp [entryTail]
  rw [parseTail, hdrop, parseParen_of_ne hparen, Option.map_some]
  dsimp only
  rw [dropWhile_entryTail, parseStar_of_ne (head_entryNext as)]

/-! ## Constraints -/

section

variable {c : EntryConstraint}

/-- What comes behind the operator. -/
theorem head_behind_op {d : Char} {s : CStr}
    (h : (c.beforeVersion.1 ++ c.version ++ c.beforeClose.1 ++ ')' :: s).head? = some d) :
    isspace d = true ∨ d = ')' ∨ c.beforeVersion.1 = [] ∧ c.version.head? = some d := by
  cases hbefore : c.beforeVersion.1 with
  | cons e b =>
      rw [hbefore] at h
      obtain rfl : e = d := Option.some.inj h
      exact Or.inl (c.beforeVersion.2 e (by simp [hbefore]))
  | nil =>
      cases hversion : c.version with
      | cons e v =>
          rw [hbefore, hversion] at h
          obtain rfl : e = d := Option.some.inj h
          exact Or.inr (Or.inr ⟨rfl, rfl⟩)
      | nil =>
          rw [hbefore, hversion] at h
          cases hclose : c.beforeClose.1 with
          | cons e b =>
              rw [hclose] at h
              obtain rfl : e = d := Option.some.inj h
              exact Or.inl (c.beforeClose.2 e (by simp [hclose]))
          | nil =>
              rw [hclose] at h
              exact Or.inr (Or.inl (Option.some.inj h).symm)

/-- A short operator, where no longer one stands there. -/
theorem parseConstraint_short {s : CStr} (heq : s.head? ≠ some '=') :
    (s.head? ≠ some '<' → parseConstraint ('<' :: s) = (.earlierEqual, s)) ∧
      (s.head? ≠ some '>' → parseConstraint ('>' :: s) = (.laterEqual, s)) := by
  cases s with
  | nil => exact ⟨fun _ => rfl, fun _ => rfl⟩
  | cons d s =>
      have heq : '=' ≠ d := fun h => heq (by rw [h]; rfl)
      constructor
      · intro h
        have hd : '<' ≠ d := fun h' => h (by rw [h']; rfl)
        simp [parseConstraint, heq, hd]
      · intro h
        have hd : '>' ≠ d := fun h' => h (by rw [h']; rfl)
        simp [parseConstraint, heq, hd]

/-- **The operator** right behind the parenthesis. -/
theorem parseConstraint_op (hop : c.beforeVersion.1 = [] → c.op = .less ∨ c.op = .greater →
      c.version.head? ≠ some '=' ∧ c.version.head? ≠ c.op.text.head?) (s : CStr) :
    parseConstraint (c.op.text ++ (c.beforeVersion.1 ++ c.version ++ c.beforeClose.1 ++ ')' :: s)) =
      (c.op.constraint, c.beforeVersion.1 ++ c.version ++ c.beforeClose.1 ++ ')' :: s) := by
  have hnot : ∀ d, isspace d = false → d ≠ ')' → (c.beforeVersion.1 = [] → c.version.head? ≠ some d) →
      (c.beforeVersion.1 ++ c.version ++ c.beforeClose.1 ++ ')' :: s).head? ≠ some d := by
    intro d hspace hparen hversion h
    rcases head_behind_op h with hd | hd | ⟨hbefore, hd⟩
    · rw [hspace] at hd
      cases hd
    · exact hparen hd
    · exact hversion hbefore hd
  cases hop' : c.op with
  | earlier => simp [parseConstraint, EntryOp.text, EntryOp.constraint]
  | earlierEqual => simp [parseConstraint, EntryOp.text, EntryOp.constraint]
  | equal => simp [parseConstraint, EntryOp.text, EntryOp.constraint]
  | laterEqual => simp [parseConstraint, EntryOp.text, EntryOp.constraint]
  | later => simp [parseConstraint, EntryOp.text, EntryOp.constraint]
  | less =>
      have hop := fun hbefore => hop hbefore (Or.inl hop')
      rw [hop'] at hop
      exact (parseConstraint_short (hnot '=' (by decide) (by decide) fun h => (hop h).1)).1
        (hnot '<' (by decide) (by decide) fun h => (hop h).2)
  | greater =>
      have hop := fun hbefore => hop hbefore (Or.inr hop')
      rw [hop'] at hop
      exact (parseConstraint_short (hnot '=' (by decide) (by decide) fun h => (hop h).1)).2
        (hnot '>' (by decide) (by decide) fun h => (hop h).2)

/-- Blanks right behind the parenthesis: there is no operator. -/
theorem parseConstraint_blank {b : CStr} (hb : ∀ d ∈ b, isspace d = true) (hne : b ≠ []) (s : CStr) :
    parseConstraint (b ++ s) = (.none, b ++ s) := by
  obtain ⟨d, b, rfl⟩ := List.exists_cons_of_ne_nil hne
  have hd := hb d (by simp)
  have hlt : d ≠ '<' := by
    rintro rfl
    cases hd
  have hgt : d ≠ '>' := by
    rintro rfl
    cases hd
  have heq : d ≠ '=' := by
    rintro rfl
    cases hd
  simp [parseConstraint, Ne.symm hlt, Ne.symm hgt, Ne.symm heq]

theorem rdropWhile_append_blanks (u : CStr) (b : Blanks) :
    (u ++ b.1).rdropWhile isspace = u.rdropWhile isspace := by
  have hreverse : ∀ d ∈ b.1.reverse, isspace d = true := fun d hd => b.2 d (List.mem_reverse.mp hd)
  rw [List.rdropWhile, List.rdropWhile, List.reverse_append, List.dropWhile_append_of_pos hreverse]

/-- The version is copied with the blanks behind it, which are trimmed. -/
theorem trimXstrdup_version (c : EntryConstraint) : trimXstrdup (c.version ++ c.beforeClose.1) = c.version := by
  by_cases hversion : c.version = []
  · have hdrop : c.beforeClose.1.dropWhile isspace = [] := List.dropWhile_eq_nil_iff.mpr c.beforeClose.2
    rw [hversion, List.nil_append, trimXstrdup, hdrop]
    rfl
  · obtain ⟨d, v, hv⟩ := List.exists_cons_of_ne_nil hversion
    have hd : isspace d = false := c.head_not_space d (by simp [hv])
    have hdrop : (c.version ++ c.beforeClose.1).dropWhile isspace = c.version ++ c.beforeClose.1 := by
      rw [hv, List.cons_append, List.dropWhile_cons_of_neg (by simp [hd])]
    rw [trimXstrdup, hdrop, rdropWhile_append_blanks, List.rdropWhile_eq_self_iff]
    intro hne hlast
    rw [c.last_not_space _ (List.getLast?_eq_some_getLast hne)] at hlast
    cases hlast

theorem length_trim_le (t : CStr) (b : Blanks) : (trimXstrdup (t ++ b.1)).length ≤ t.length := by
  have hdrop : b.1.dropWhile isspace = [] := List.dropWhile_eq_nil_iff.mpr b.2
  rw [trimXstrdup, List.dropWhile_append]
  split_ifs
  · rw [hdrop]
    exact Nat.zero_le _
  · rw [rdropWhile_append_blanks]
    exact (List.rdropWhile_prefix isspace _).length_le.trans (List.dropWhile_sublist _).length_le

/-- What is copied of a version, wherever it begins. -/
theorem copyWhile_of_plain {u : CStr} (hu : ')' ∉ u) (s : CStr) :
    copyWhile (· != ')') ((u ++ ')' :: s).dropWhile isspace) =
      if (u.dropWhile isspace).length < bufferSize then some (u.dropWhile isspace, ')' :: s) else none := by
  have hparen : isspace ')' = false := by decide
  have hdrop : (u ++ ')' :: s).dropWhile isspace = u.dropWhile isspace ++ ')' :: s := by
    rw [List.dropWhile_append]
    split_ifs with hempty
    · rw [List.isEmpty_iff.mp hempty, List.dropWhile_cons_of_neg (by simp [hparen])]
      rfl
    · rfl
  rw [hdrop, copyWhile_append s (fun d hd => ?_) (by decide)]
  have hmem := (List.dropWhile_sublist _).subset hd
  simpa using ne_of_mem_of_not_mem hmem hu

/-- The blanks before the version are skipped; those behind it are not. -/
theorem dropWhile_version (c : EntryConstraint) :
    (c.beforeVersion.1 ++ c.version ++ c.beforeClose.1).dropWhile isspace =
      if c.version = [] then [] else c.version ++ c.beforeClose.1 := by
  rw [List.append_assoc, dropWhile_blanks]
  split_ifs with hversion
  · rw [hversion]
    exact List.dropWhile_eq_nil_iff.mpr c.beforeClose.2
  · obtain ⟨d, v, hv⟩ := List.exists_cons_of_ne_nil hversion
    have hd : isspace d = false := c.head_not_space d (by simp [hv])
    rw [hv, List.cons_append, List.dropWhile_cons_of_neg (by simp [hd])]

theorem length_dropWhile_version (c : EntryConstraint) :
    ((c.beforeVersion.1 ++ c.version ++ c.beforeClose.1).dropWhile isspace).length < bufferSize ↔
      c.version = [] ∨ c.version.length + c.beforeClose.1.length < bufferSize := by
  rw [dropWhile_version]
  split_ifs with hversion
  · exact iff_of_true (by decide) (Or.inl hversion)
  · simp [hversion]

theorem trimXstrdup_dropWhile (u : CStr) : trimXstrdup (u.dropWhile isspace) = trimXstrdup u := by
  rw [trimXstrdup, trimXstrdup, List.dropWhile_idempotent]

theorem not_mem_blanks (b : Blanks) : ')' ∉ b.1 := fun h => by
  cases b.2 _ h

theorem EntryConstraint.plain (c : EntryConstraint) :
    ')' ∉ c.beforeVersion.1 ++ c.version ++ c.beforeClose.1 := by
  simp [not_mem_blanks, c.no_delimiter.1]

/-- **A constraint that is read.** -/
theorem parseTail_constraint (hc : c.Ok) (name : CStr) (b : Blanks) (as : List EntryAlt) :
    parseTail name (c.text ++ b.1 ++ entryTail as) =
      some ({ constraint := c.op.constraint, version := some c.version, pkg := name }, false, entryNext as) := by
  have htext : c.text ++ b.1 ++ entryTail as = c.beforeParen.1 ++ '(' :: (c.op.text ++ (c.beforeVersion.1 ++
      c.version ++ c.beforeClose.1 ++ ')' :: (b.1 ++ entryTail as))) := by
    simp [EntryConstraint.text, EntryConstraint.body, hc.beforeOp]
  have hparen : isspace '(' = false := by decide
  have hcopy := copyWhile_of_plain c.plain (b.1 ++ entryTail as)
  have hfits := (length_dropWhile_version c).mpr hc.fits
  have htrim : trimXstrdup ((c.beforeVersion.1 ++ c.version ++ c.beforeClose.1).dropWhile isspace) = c.version := by
    rw [dropWhile_version]
    split_ifs with hversion
    · rw [hversion]
      rfl
    · exact trimXstrdup_version c
  have hskip : (')' :: (b.1 ++ entryTail as)).dropWhile isSkipped = entryNext as := by
    have hclose : isSkipped ')' = true := by decide
    rw [List.dropWhile_cons_of_pos hclose, dropWhile_isSkipped_blanks, dropWhile_entryTail]
  rw [htext, parseTail, dropWhile_blanks, List.dropWhile_cons_of_neg (by simp [hparen]), parseParen,
    parseConstraint_op hc.op]
  dsimp only
  rw [hcopy, if_pos hfits]
  simp only [Option.map_some, htrim, hskip]
  rw [parseStar_of_ne (head_entryNext as)]

/-- **A constraint that is not read** as it stands. -/
theorem parseTail_constraint_ne (hc : ¬ c.Ok) (name s : CStr) {found : Depend × Bool × CStr}
    (h : parseTail name (c.text ++ s) = some found) :
    found.1 ≠ { constraint := c.op.constraint, version := some c.version, pkg := name } := by
  have htext : c.text ++ s = c.beforeParen.1 ++ '(' :: (c.beforeOp.1 ++ (c.op.text ++ (c.beforeVersion.1 ++
      c.version ++ c.beforeClose.1 ++ ')' :: s))) := by
    simp [EntryConstraint.text, EntryConstraint.body]
  have hparen : isspace '(' = false := by decide
  rw [htext, parseTail, dropWhile_blanks, List.dropWhile_cons_of_neg (by simp [hparen]), parseParen] at h
  obtain ⟨⟨d, src⟩, hfound, rfl⟩ := Option.map_eq_some_iff.mp h
  obtain ⟨⟨version, src'⟩, hcopy, heq⟩ := Option.map_eq_some_iff.mp hfound
  obtain ⟨rfl, rfl⟩ := Prod.mk.inj heq
  rw [fst_parseStar]
  intro hdepend
  obtain ⟨hconstraint, hversion, -⟩ := Depend.mk.inj hdepend
  have hnone : c.op.constraint ≠ .none := by cases c.op <;> simp [EntryOp.constraint]
  by_cases hblank : c.beforeOp.1 = []
  · rw [hblank, List.nil_append] at hconstraint hcopy
    by_cases hop : c.beforeVersion.1 = [] → c.op = .less ∨ c.op = .greater →
        c.version.head? ≠ some '=' ∧ c.version.head? ≠ c.op.text.head?
    · -- the version does not fit
      rw [parseConstraint_op hop, copyWhile_of_plain c.plain] at hcopy
      split_ifs at hcopy with hfits
      exact hc ⟨hblank, hop, (length_dropWhile_version c).mp hfits⟩
    · -- the operator takes the first character of the version
      push Not at hop
      obtain ⟨hbefore, hshort, hhead⟩ := hop
      obtain ⟨d, v, hv⟩ : ∃ d v, c.version = d :: v := by
        cases hv : c.version with
        | nil => rcases hshort with h | h <;> simp [hv, h, EntryOp.text] at hhead
        | cons d v => exact ⟨d, v, rfl⟩
      have hplain : ')' ∉ v ++ c.beforeClose.1 := by
        have h := c.plain
        rw [hbefore, hv] at h
        simp_all
      -- behind `<=` and `>=` a shorter version is read
      have hshorter : ∀ (constraint : VersionConstraint) (op : CStr),
          parseConstraint (op ++ (d :: v ++ c.beforeClose.1 ++ ')' :: s)) =
            (constraint, v ++ c.beforeClose.1 ++ ')' :: s) → c.op.text = op → False := by
        intro constraint op hparse hoptext
        rw [hbefore, hv, hoptext, List.nil_append, hparse, copyWhile_of_plain hplain] at hcopy
        split_ifs at hcopy
        obtain ⟨rfl, -⟩ := Prod.mk.inj (Option.some.inj hcopy)
        have hle := length_trim_le v c.beforeClose
        rw [← trimXstrdup_dropWhile, Option.some.inj hversion, hv] at hle
        simp at hle
      rw [hbefore, hv, List.nil_append] at hconstraint
      rcases hshort with h | h
      · rw [h] at hconstraint hhead
        by_cases heq : d = '='
        · exact hshorter .earlierEqual ['<'] (by rw [heq]; rfl) (by rw [h]; rfl)
        · have hd : d = '<' := by simpa [hv, heq, EntryOp.text] using hhead
          rw [hd] at hconstraint
          cases hconstraint
      · rw [h] at hconstraint hhead
        by_cases heq : d = '='
        · exact hshorter .laterEqual ['>'] (by rw [heq]; rfl) (by rw [h]; rfl)
        · have hd : d = '>' := by simpa [hv, heq, EntryOp.text] using hhead
          rw [hd] at hconstraint
          cases hconstraint
  · -- no operator stands right behind the parenthesis
    rw [parseConstraint_blank c.beforeOp.2 hblank] at hconstraint
    exact hnone hconstraint.symm

end

/-! ## All alternatives -/

/-- A round, and those behind it. -/
theorem parsePossibilities_succ {n : ℕ} {src : CStr} {found : Depend × Bool × CStr}
    (h : parsePossibility src = some found) (d : Depend) (ds : List Depend) (greedy : Bool) :
    parsePossibilities (n + 1) src = some (d :: ds, greedy) ↔
      found.1 = d ∧ ∃ greedy', parsePossibilities n found.2.2 = some (ds, greedy') ∧
        (found.2.1 || greedy') = greedy := by
  rw [parsePossibilities, h]
  cases hn : parsePossibilities n found.2.2 with
  | none => simp [hn]
  | some rest => simp [hn, Prod.ext_iff, and_assoc]

/-- The possibilities an entry has, and whether a star makes it greedy. -/
def possibilitiesOf (as : List EntryAlt) : List Depend × Bool :=
  (as.map EntryAlt.depend, as.any fun a => a.star.isSome)

/-- The alternative itself is read as it is written. -/
def EntryAlt.IsRead (a : EntryAlt) : Prop :=
  (∀ c, a.constraint = some c → c.Ok) ∧ (a.star.isSome → a.constraint = none)

theorem altsOk_cons (a : EntryAlt) (as : List EntryAlt) :
    AltsOk (a :: as) ↔ a.IsRead ∧ (a.star.isSome → as = []) ∧ AltsOk as := by
  rw [AltsOk, EntryAlt.IsRead, imp_and]
  tauto

/-- The name of an alternative, and what follows it. -/
theorem parsePossibility_alt (a : EntryAlt) (as : List EntryAlt) :
    parsePossibility (a.name ++ (a.rest ++ entryTail as)) = parseTail a.name (a.rest ++ entryTail as) :=
  parsePossibility_name (fun c hc => (a.name_chars c hc).1) a.name_fits (a.head_rest as)

/-- **Without a star** the next alternative comes next. -/
theorem parsePossibility_isRead {a : EntryAlt} (ha : a.IsRead) (hstar : a.star = none) (as : List EntryAlt) :
    parsePossibility (a.name ++ (a.rest ++ entryTail as)) = some (a.depend, false, entryNext as) := by
  rw [parsePossibility_alt, EntryAlt.rest, hstar, EntryAlt.depend]
  cases hc : a.constraint with
  | none => exact parseTail_plain a.name a.after as
  | some c => exact parseTail_constraint (ha.1 c hc) a.name a.after as

/-- **With a star** the blanks behind it and the bar are left. -/
theorem parsePossibility_star {a : EntryAlt} (ha : a.IsRead) {b : Blanks} (hstar : a.star = some b)
    (as : List EntryAlt) :
    parsePossibility (a.name ++ (a.rest ++ entryTail as)) = some (a.depend, true, a.after.1 ++ entryTail as) := by
  have hc : a.constraint = none := ha.2 (by rw [hstar]; rfl)
  have hrest : a.rest ++ entryTail as = b.1 ++ '*' :: (a.after.1 ++ entryTail as) := by
    simp [EntryAlt.rest, hstar, hc]
  rw [parsePossibility_alt, hrest, parseTail_star, EntryAlt.depend, hc]
  rfl

/-- **An alternative that is not read** gives another possibility. -/
theorem parsePossibility_ne {a : EntryAlt} (ha : ¬ a.IsRead) (as : List EntryAlt) {found : Depend × Bool × CStr}
    (h : parsePossibility (a.name ++ (a.rest ++ entryTail as)) = some found) : found.1 ≠ a.depend := by
  rw [parsePossibility_alt] at h
  cases hc : a.constraint with
  | none =>
      refine absurd ⟨fun c h => ?_, fun _ => hc⟩ ha
      cases hc.symm.trans h
  | some c =>
      have hdepend : a.depend = { constraint := c.op.constraint, version := some c.version, pkg := a.name } := by
        rw [EntryAlt.depend, hc]
        rfl
      cases hstar : a.star with
      | none =>
          -- the constraint is not fine
          have hbad : ¬ c.Ok := fun hok => ha ⟨fun c' h => by
            obtain rfl : c = c' := Option.some.inj (hc.symm.trans h)
            exact hok, fun h => by rw [hstar] at h; cases h⟩
          have hrest : a.rest ++ entryTail as = c.text ++ (a.after.1 ++ entryTail as) := by
            simp [EntryAlt.rest, hstar, hc]
          rw [hrest] at h
          rw [hdepend]
          exact parseTail_constraint_ne hbad a.name _ h
      | some b =>
          -- the constraint is left behind the star
          have hrest : a.rest ++ entryTail as = b.1 ++ '*' :: (c.text ++ (a.after.1 ++ entryTail as)) := by
            simp [EntryAlt.rest, hstar, hc]
          rw [hrest, parseTail_star] at h
          obtain rfl := Option.some.inj h
          rw [hdepend]
          intro heq
          cases congrArg Depend.version heq

/-- What a star leaves gives an empty name. -/
theorem parsePossibility_after_star (b : Blanks) (as : List EntryAlt) {found : Depend × Bool × CStr}
    (h : parsePossibility (b.1 ++ entryTail as) = some found) : found.1.pkg = [] := by
  rw [parsePossibility_empty (head_blanks b (head_entryTail as))] at h
  exact pkg_parseTail h

/-- A round whose possibility is not the one that is expected. -/
theorem parsePossibilities_ne {n : ℕ} {src : CStr} {d : Depend} {expected : List Depend × Bool}
    (hexpected : expected.1.head? = some d)
    (h : ∀ found, parsePossibility src = some found → found.1 ≠ d) :
    parsePossibilities (n + 1) src ≠ some expected := by
  obtain ⟨ds, greedy⟩ := expected
  cases ds with
  | nil => cases hexpected
  | cons d' ds =>
      obtain rfl : d' = d := Option.some.inj hexpected
      intro hparse
      cases hround : parsePossibility src with
      | none => simp [parsePossibilities, hround] at hparse
      | some found => exact h found hround ((parsePossibilities_succ hround _ _ _).mp hparse).1

/-- **How far the scanner stays in step**: exactly as long as the alternatives are fine. -/
theorem parsePossibilities_iff (as : List EntryAlt) : ∀ a : EntryAlt,
    parsePossibilities (as.length + 1) (a.name ++ (a.rest ++ entryTail as)) = some (possibilitiesOf (a :: as)) ↔
      AltsOk (a :: as) := by
  induction as with
  | nil =>
      intro a
      rw [altsOk_cons]
      by_cases ha : a.IsRead
      · refine iff_of_true ?_ ⟨ha, fun _ => rfl, trivial⟩
        cases hstar : a.star with
        | none =>
            refine (parsePossibilities_succ (parsePossibility_isRead ha hstar []) _ _ _).mpr ⟨rfl, false, rfl, ?_⟩
            simp [hstar]
        | some b =>
            refine (parsePossibilities_succ (parsePossibility_star ha hstar []) _ _ _).mpr ⟨rfl, false, rfl, ?_⟩
            simp [hstar]
      · exact iff_of_false (parsePossibilities_ne rfl fun found => parsePossibility_ne ha []) fun h => ha h.1
  | cons a' as ih =>
      intro a
      rw [altsOk_cons]
      by_cases ha : a.IsRead
      · cases hstar : a.star with
        | none =>
            have hnext : entryNext (a' :: as) = a'.name ++ (a'.rest ++ entryTail as) := by
              rw [entryNext, List.append_assoc]
            rw [possibilitiesOf, List.map_cons,
              parsePossibilities_succ (parsePossibility_isRead ha hstar (a' :: as)), and_iff_right rfl, ← ih a']
            dsimp only
            rw [hnext]
            simp [ha, hstar, possibilitiesOf]
        | some b =>
            -- the bar is left, and an empty name is read before it
            refine iff_of_false (fun hparse => ?_) fun h => by cases h.2.1 rfl
            obtain ⟨-, greedy, hnext, -⟩ := (parsePossibilities_succ
              (parsePossibility_star ha hstar (a' :: as)) _ _ _).mp hparse
            refine parsePossibilities_ne rfl (fun found hround hdepend => a'.name_ne_nil ?_) hnext
            have hpkg := parsePossibility_after_star a.after (a' :: as) hround
            rw [hdepend] at hpkg
            exact hpkg
      · exact iff_of_false (parsePossibilities_ne rfl fun found => parsePossibility_ne ha (a' :: as))
          fun h => ha h.1

/-! ## An entry -/

theorem count_blanks (b : Blanks) : b.1.count '|' = 0 :=
  List.count_eq_zero.mpr fun h => by cases b.2 _ h

theorem EntryConstraint.count_text (c : EntryConstraint) : c.text.count '|' = 0 := by
  have hversion : c.version.count '|' = 0 := List.count_eq_zero.mpr c.no_delimiter.2
  have hop : c.op.text.count '|' = 0 := by
    cases c.op <;> rfl
  simp [EntryConstraint.text, EntryConstraint.body, count_blanks, hversion, hop]

theorem EntryAlt.count_rest (a : EntryAlt) : a.rest.count '|' = 0 := by
  rw [EntryAlt.rest]
  cases a.star <;> cases a.constraint <;> simp [count_blanks, EntryConstraint.count_text]

theorem EntryAlt.count_name (a : EntryAlt) : a.name.count '|' = 0 :=
  List.count_eq_zero.mpr fun h => by cases (a.name_chars _ h).1

/-- There are as many bars as alternatives behind the first. -/
theorem count_entryTail (as : List EntryAlt) : (entryTail as).count '|' = as.length := by
  induction as with
  | nil => rfl
  | cons a as ih => simp [entryTail, count_blanks, EntryAlt.count_name, EntryAlt.count_rest, ih]

theorem parsedExactly_eq (a : EntryAlt) (as : List EntryAlt) :
    ParsedExactly a as ↔
      parsePossibilities (as.length + 1) (entryText a as) = some (possibilitiesOf (a :: as)) := by
  have hcount : (entryText a as).count '|' = as.length := by
    simp [entryText, count_blanks, EntryAlt.count_name, EntryAlt.count_rest, count_entryTail]
  rw [ParsedExactly, parseDepends, hcount]
  cases parsePossibilities (as.length + 1) (entryText a as) with
  | none => simp
  | some found =>
      obtain ⟨ds, greedy⟩ := found
      simp only [Option.bind_eq_bind, Option.bind_some, Option.some.injEq, entryDepend, possibilitiesOf,
        CompoundDepend.mk.injEq, Prod.mk.injEq]
      cases greedy <;> cases (a :: as).any (fun a => a.star.isSome) <;> simp

/-- **An entry is parsed exactly** when no blank comes first, a star stands behind the last alternative only
and no constraint behind it, and every constraint is read as it is written. -/
theorem parsedExactly_iff (a : EntryAlt) (as : List EntryAlt) : ParsedExactly a as ↔ EntryOk a as := by
  rw [parsedExactly_eq, EntryOk]
  by_cases hbefore : a.before.1 = []
  · rw [and_iff_right hbefore, ← parsePossibilities_iff, entryText, hbefore]
    simp
  · -- the blanks are an empty name
    refine iff_of_false (parsePossibilities_ne rfl fun found hround hdepend => a.name_ne_nil ?_)
      fun h => hbefore h.1
    obtain ⟨d, s, hblanks⟩ := List.exists_cons_of_ne_nil hbefore
    have hhead : ∀ c ∈ (entryText a as).head?, isNameChar c = false := by
      intro c hc
      rw [entryText, hblanks] at hc
      obtain rfl : d = c := Option.some.inj hc
      exact isNameChar_eq_false_of_isspace (a.before.2 d (by simp [hblanks]))
    rw [parsePossibility_empty hhead] at hround
    have hpkg := pkg_parseTail hround
    rw [hdepend] at hpkg
    exact hpkg

/-- `a*`, where another alternative may follow. -/
def starredAlt : EntryAlt where
  before := ⟨[], by simp⟩
  name := ['a']
  star := some ⟨[], by simp⟩
  constraint := none
  after := ⟨[], by simp⟩
  name_ne_nil := by simp
  name_chars := by simp [isNameChar, isspace]
  name_fits := by simp [bufferSize]

/-- `b`. -/
def plainAlt : EntryAlt where
  before := ⟨[], by simp⟩
  name := ['b']
  star := none
  constraint := none
  after := ⟨[], by simp⟩
  name_ne_nil := by simp
  name_chars := by simp [isNameChar, isspace]
  name_fits := by simp [bufferSize]

/-- Of `a*|b` the second alternative has an empty name: the bar is not skipped behind a star. -/
theorem not_parsedExactly_star :
    entryText starredAlt [plainAlt] = "a*|b".toList ∧
      parseDepends "a*|b".toList =
        some { type := .greedyDepend, possibilities := [{ pkg := ['a'] }, { pkg := [] }] } ∧
      ¬ ParsedExactly starredAlt [plainAlt] := by
  refine ⟨by decide +kernel, by decide +kernel, ?_⟩
  rw [ParsedExactly]
  decide +kernel

end FirmwareTools.Opkg

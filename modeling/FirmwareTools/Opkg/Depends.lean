import FirmwareTools.Opkg.Version

/-! # Dependency strings and version constraints

`parseDepends` reads one entry of a dependency field, `version_constraints_satisfied` decides
whether a package meets one alternative of it, and `pkg_depend_str` prints an entry.

* **`parseDepends_dependText`** — `name (op v)` parses to the one alternative it denotes;
* **`constraintsAgree_iff`** — the three tables of operators agree on it exactly when the strings
  fit `parseDepends`' buffer and, for `<<` and `>>`, the versions do not compare equal. -/

namespace FirmwareTools.Opkg

/-! ## Parsing -/

/-- The size of `parseDepends`' local `buffer`. -/
def bufferSize : Nat := 2048

/-- `while (cond(*src)) *dest++ = *src++; *dest = '\0';` into `buffer`: what was copied and the rest
of `src`. A copy that does not fit overruns `buffer`, and nothing is known of what follows. -/
def copyWhile (cond : Char → Bool) (src : CStr) : Option (CStr × CStr) :=
  if (src.takeWhile cond).length < bufferSize then
    some (src.takeWhile cond, src.dropWhile cond)
  else none

/-- The operator behind a `(`, and the rest of the string. `<` and `>` are the deprecated spellings
of `<=` and `>=`. -/
def parseConstraint (src : CStr) : VersionConstraint × CStr :=
  if "<<".toList.isPrefixOf src then (.earlier, src.drop 2)
  else if "<=".toList.isPrefixOf src then (.earlierEqual, src.drop 2)
  else if ">=".toList.isPrefixOf src then (.laterEqual, src.drop 2)
  else if ">>".toList.isPrefixOf src then (.later, src.drop 2)
  else if "=".toList.isPrefixOf src then (.equal, src.drop 1)
  else if "<".toList.isPrefixOf src then (.earlierEqual, src.drop 1)
  else if ">".toList.isPrefixOf src then (.laterEqual, src.drop 1)
  else (.none, src)

/-- A character of the name of an alternative. -/
def isNameChar (c : Char) : Bool := !isspace c && c != '(' && c != '*' && c != '|'

/-- One round of `parseDepends`' loop: an alternative, whether a `*` follows it, and the rest of the
string. -/
def parsePossibility (src : CStr) : Option (Depend × Bool × CStr) := do
  let (name, src) ← copyWhile isNameChar src
  let pkgName := trimXstrdup name
  let (possibility, src) ← match src.dropWhile isspace with
    | '(' :: src => do
      let (constraint, src) := parseConstraint src
      let (version, src) ← copyWhile (· != ')') (src.dropWhile isspace)
      some (({ constraint, version := some (trimXstrdup version), pkg := pkgName } : Depend), src)
    | src => some (({ pkg := pkgName } : Depend), src)
  match src.dropWhile fun c => isspace c || c == ')' || c == '|' with
  | '*' :: src => some (possibility, true, src)
  | src => some (possibility, false, src)

/-- The loop of `parseDepends` over the alternatives. -/
def parsePossibilities : Nat → CStr → Option (List Depend × Bool)
  | 0, _ => some ([], false)
  | n + 1, src => do
    let (possibility, greedy, src) ← parsePossibility src
    let (possibilities, greedy') ← parsePossibilities n src
    some (possibility :: possibilities, greedy || greedy')

/-- `parseDepends`: one more alternative than there are `|`s; a `*` behind any of them makes the
entry greedy. `none` is an overrun of `buffer`. -/
def parseDepends (dependStr : CStr) : Option CompoundDepend := do
  let numOfOrs := dependStr.count '|'
  let (possibilities, greedy) ← parsePossibilities (numOfOrs + 1) dependStr
  some { type := if greedy then .greedyDepend else .depend, possibilities }

/-! ## Checking and printing -/

/-- `version_constraints_satisfied`. The parser gives every constraint a version. -/
def versionConstraintsSatisfied (depends : Depend) (pkg : Pkg) : Bool :=
  if depends.constraint = .none then true
  else
    let temp := parseVersion pkgNew (depends.version.getD [])
    let comparison := pkgCompareVersions pkg temp
    if depends.constraint = .earlier ∧ comparison < 0 then true
    else if depends.constraint = .later ∧ comparison > 0 then true
    else if comparison = 0 then true
    else if depends.constraint = .laterEqual ∧ comparison ≥ 0 then true
    else if depends.constraint = .earlierEqual ∧ comparison ≤ 0 then true
    else false

/-- `constraint_to_str` -/
def constraintToStr : VersionConstraint → CStr
  | .none => []
  | .earlier => "< ".toList
  | .earlierEqual => "<= ".toList
  | .equal => "= ".toList
  | .laterEqual => ">= ".toList
  | .later => "> ".toList

/-- One alternative as `pkg_depend_str` prints it. -/
def dependStr (dep : Depend) : CStr :=
  dep.pkg ++ match dep.version with
    | some version => " (".toList ++ constraintToStr dep.constraint ++ version ++ ")".toList
    | none => []

/-- `pkg_depend_str` for the entry at an index. -/
def compoundDependStr (cdep : CompoundDepend) : CStr :=
  " | ".toList.intercalate (cdep.possibilities.map dependStr)

/-- **What `version_constraints_satisfied` computes**: the relation the constraint names, widened by
equality. -/
theorem versionConstraintsSatisfied_eq (depends : Depend) (pkg : Pkg) :
    versionConstraintsSatisfied depends pkg = true ↔
      let r := pkgCompareVersions pkg (parseVersion pkgNew (depends.version.getD []))
      match depends.constraint with
      | .none => True
      | .earlier => r ≤ 0
      | .earlierEqual => r ≤ 0
      | .equal => r = 0
      | .laterEqual => 0 ≤ r
      | .later => 0 ≤ r := by
  rw [versionConstraintsSatisfied]
  cases hc : depends.constraint <;>
    simp only [reduceCtorEq, false_and, true_and, if_true, if_false, Bool.if_true_left,
      Bool.or_eq_true, decide_eq_true_eq, Bool.false_eq_true, or_false] <;> omega

/-- A package that compares equal to another satisfies the same constraints. -/
theorem versionConstraintsSatisfied_congr (depends : Depend) {p q : Pkg}
    (h : pkgCompareVersions p q = 0) :
    versionConstraintsSatisfied depends p = versionConstraintsSatisfied depends q := by
  have hs := pkgCompareVersions_threeWay.sign_congr h
    (parseVersion pkgNew (depends.version.getD []))
  obtain ⟨hle, hge, heq⟩ := tests_of_sign_eq hs
  rw [Bool.eq_iff_iff, versionConstraintsSatisfied_eq, versionConstraintsSatisfied_eq]
  cases depends.constraint with
  | none => exact Iff.rfl
  | earlier => exact hle
  | earlierEqual => exact hle
  | equal => exact heq
  | laterEqual => exact hge
  | later => exact hge

/-! ## The Debian relations -/

/-- The five operators of a dependency. -/
inductive DependOp
  | earlier | earlierEqual | equal | laterEqual | later
  deriving DecidableEq, Repr

/-- How an operator is written. -/
def DependOp.text : DependOp → CStr
  | .earlier => "<<".toList
  | .earlierEqual => "<=".toList
  | .equal => "=".toList
  | .laterEqual => ">=".toList
  | .later => ">>".toList

/-- The relation an operator stands for, on the result of a version comparison. -/
def DependOp.Holds : DependOp → Int → Prop
  | .earlier, r => r < 0
  | .earlierEqual, r => r ≤ 0
  | .equal, r => r = 0
  | .laterEqual, r => 0 ≤ r
  | .later, r => 0 < r

instance DependOp.decidableHolds : (op : DependOp) → (r : Int) → Decidable (op.Holds r)
  | .earlier, r => inferInstanceAs (Decidable (r < 0))
  | .earlierEqual, r => inferInstanceAs (Decidable (r ≤ 0))
  | .equal, r => inferInstanceAs (Decidable (r = 0))
  | .laterEqual, r => inferInstanceAs (Decidable (0 ≤ r))
  | .later, r => inferInstanceAs (Decidable (0 < r))

/-- The constraint an operator is parsed to. -/
def DependOp.constraint : DependOp → VersionConstraint
  | .earlier => .earlier
  | .earlierEqual => .earlierEqual
  | .equal => .equal
  | .laterEqual => .laterEqual
  | .later => .later

/-- The two operators that exclude equality. -/
def DependOp.isStrict (op : DependOp) : Bool := op == .earlier || op == .later

/-- A package name as it can stand in a dependency. -/
structure DependName where
  chars : CStr
  all_isNameChar : chars.all isNameChar = true

/-- A version string as it can stand between the operator and the `)`. -/
structure DependVersion where
  chars : CStr
  no_delimiter : ')' ∉ chars ∧ '|' ∉ chars
  head_not_space : chars.head?.any isspace = false
  last_not_space : chars.getLast?.any isspace = false

/-- The dependency string `name (op v)`. -/
def dependText (name : DependName) (op : DependOp) (v : DependVersion) : CStr :=
  name.chars ++ (' ' :: '(' :: op.text) ++ (' ' :: v.chars) ++ [')']

/-- Copying up to a delimiter: all of the copied part satisfies the condition and the delimiter does
not. -/
theorem copyWhile_append {cond : Char → Bool} {s : CStr} {c : Char} (rest : CStr)
    (hs : ∀ x ∈ s, cond x = true) (hc : cond c = false) :
    copyWhile cond (s ++ c :: rest)
      = if s.length < bufferSize then some (s, c :: rest) else none := by
  have htake : (s ++ c :: rest).takeWhile cond = s := by
    rw [List.takeWhile_append_of_pos hs, List.takeWhile_cons_of_neg (by simp [hc]),
      List.append_nil]
  have hdrop : (s ++ c :: rest).dropWhile cond = c :: rest := by
    rw [List.dropWhile_append_of_pos hs, List.dropWhile_cons_of_neg (by simp [hc])]
  rw [copyWhile, htake, hdrop]

theorem parseConstraint_text (op : DependOp) (rest : CStr) :
    parseConstraint (op.text ++ ' ' :: rest) = (op.constraint, ' ' :: rest) := by
  cases op <;> simp [parseConstraint, DependOp.text, DependOp.constraint, List.isPrefixOf]

theorem dependText_eq (name : DependName) (op : DependOp) (v : DependVersion) :
    dependText name op v = name.chars ++ ' ' :: '(' :: (op.text ++ ' ' :: (v.chars ++ [')'])) := by
  simp [dependText]

theorem count_dependText (name : DependName) (op : DependOp) (v : DependVersion) :
    (dependText name op v).count '|' = 0 := by
  have hname : '|' ∉ name.chars := fun h =>
    absurd (List.all_eq_true.mp name.all_isNameChar _ h) (by decide)
  have hv : '|' ∉ v.chars := v.no_delimiter.2
  have hop : '|' ∉ op.text := by cases op <;> decide
  rw [List.count_eq_zero, dependText_eq]
  simp [hname, hv, hop]

theorem DependVersion.isspace_head (v : DependVersion) : ∀ c ∈ v.chars.head?, isspace c = false := by
  intro c hc
  have h := v.head_not_space
  rw [Option.mem_def.mp hc] at h
  exact h

theorem DependVersion.isspace_last (v : DependVersion) :
    ∀ c ∈ v.chars.getLast?, isspace c = false := by
  intro c hc
  have h := v.last_not_space
  rw [Option.mem_def.mp hc] at h
  exact h

theorem trimXstrdup_dependName (name : DependName) : trimXstrdup name.chars = name.chars := by
  have hsp : ∀ c ∈ name.chars, isspace c = false := by
    intro c hc
    have := List.all_eq_true.mp name.all_isNameChar c hc
    simp only [isNameChar, Bool.and_eq_true, Bool.not_eq_true'] at this
    exact this.1.1.1
  exact trimXstrdup_eq_self (fun c hc => hsp c (List.mem_of_mem_head? hc))
    (fun c hc => hsp c (List.mem_of_getLast? hc))

/-- The version string follows the operator behind one blank. -/
theorem dropWhile_isspace_version (v : DependVersion) :
    (' ' :: (v.chars ++ [')'])).dropWhile isspace = v.chars ++ [')'] := by
  rw [List.dropWhile_cons_of_pos (by decide)]
  cases hv : v.chars with
  | nil => rfl
  | cons c cs =>
      have hc : isspace c = false := v.isspace_head c (by simp [hv])
      simp [hc]

theorem parsePossibility_dependText (name : DependName) (op : DependOp) (v : DependVersion) :
    parsePossibility (dependText name op v) =
      if name.chars.length < bufferSize ∧ v.chars.length < bufferSize then
        some ({ constraint := op.constraint, version := some v.chars, pkg := name.chars },
          false, [])
      else none := by
  have hcopyName := copyWhile_append ('(' :: (op.text ++ ' ' :: (v.chars ++ [')'])))
    (List.all_eq_true.mp name.all_isNameChar) (show isNameChar ' ' = false by decide)
  have hcopyVersion : copyWhile (· != ')') (v.chars ++ [')'])
      = if v.chars.length < bufferSize then some (v.chars, [')']) else none :=
    copyWhile_append [] (fun c hc => by simpa using ne_of_mem_of_not_mem hc v.no_delimiter.1) (by decide)
  have hblank : (' ' :: '(' :: (op.text ++ ' ' :: (v.chars ++ [')']))).dropWhile isspace
      = '(' :: (op.text ++ ' ' :: (v.chars ++ [')'])) := rfl
  rw [parsePossibility, dependText_eq, hcopyName]
  by_cases hn : name.chars.length < bufferSize
  · simp only [hn, if_true, Option.bind_eq_bind, Option.bind_some, hblank, parseConstraint_text,
      dropWhile_isspace_version, hcopyVersion, trimXstrdup_dependName]
    by_cases hv : v.chars.length < bufferSize
    · simp only [hv, if_true, and_true, Option.bind_some,
        trimXstrdup_eq_self v.isspace_head v.isspace_last]
      rfl
    · simp [hv]
  · simp [hn]

/-- **Parsing `name (op v)`** gives the one alternative it denotes, if the name and the version fit
the buffer. -/
theorem parseDepends_dependText (name : DependName) (op : DependOp) (v : DependVersion) :
    parseDepends (dependText name op v) =
      if name.chars.length < bufferSize ∧ v.chars.length < bufferSize then
        some { type := .depend, possibilities :=
          [{ constraint := op.constraint, version := some v.chars, pkg := name.chars }] }
      else none := by
  simp only [parseDepends, count_dependText, parsePossibilities, parsePossibility_dependText]
  split <;> rfl

/-! ## The three tables agree -/

/-- The dependency string parses to one alternative; a package satisfies it exactly when the
operator's relation holds between its version and `v`; and `pkg_version_satisfied` gives the same
answer for the operator as it is written, whatever else the reference record holds. -/
def ConstraintsAgree (name : DependName) (op : DependOp) (v : DependVersion) (p : Pkg) : Prop :=
  ∃ d, parseDepends (dependText name op v) = some { type := .depend, possibilities := [d] } ∧
    (versionConstraintsSatisfied d p = true ↔
      op.Holds (pkgCompareVersions p (parseVersion pkgNew v.chars))) ∧
    ∀ ref, versionConstraintsSatisfied d p = pkgVersionSatisfied p (parseVersion ref v.chars) op.text

/-- The comparison sees only what `parse_version` writes. -/
theorem pkgCompareVersions_parseVersion (p ref ref' : Pkg) (vstr : CStr) :
    pkgCompareVersions p (parseVersion ref vstr) = pkgCompareVersions p (parseVersion ref' vstr) :=
  rfl

/-- `opkg compare-versions` decides the relations as Debian defines them. -/
theorem pkgVersionSatisfied_text (op : DependOp) (it ref : Pkg) :
    pkgVersionSatisfied it ref op.text = true ↔ op.Holds (pkgCompareVersions it ref) := by
  cases op <;> simp [pkgVersionSatisfied, DependOp.text, DependOp.Holds]

/-- On a parsed constraint `version_constraints_satisfied` decides the operator's relation, unless
the operator is strict and the versions compare equal. -/
theorem versionConstraintsSatisfied_iff_holds (op : DependOp) (version name : CStr) (p : Pkg) :
    (versionConstraintsSatisfied
        { constraint := op.constraint, version := some version, pkg := name } p = true ↔
      op.Holds (pkgCompareVersions p (parseVersion pkgNew version))) ↔
    (op.isStrict = true → pkgCompareVersions p (parseVersion pkgNew version) ≠ 0) := by
  rw [versionConstraintsSatisfied_eq, Option.getD_some]
  generalize pkgCompareVersions p (parseVersion pkgNew version) = r
  cases op with
  | earlier =>
      change (r ≤ 0 ↔ r < 0) ↔ (true = true → r ≠ 0)
      simp only [true_implies]
      omega
  | earlierEqual => exact iff_of_true Iff.rfl fun h => absurd h (by decide)
  | equal => exact iff_of_true Iff.rfl fun h => absurd h (by decide)
  | laterEqual => exact iff_of_true Iff.rfl fun h => absurd h (by decide)
  | later =>
      change (0 ≤ r ↔ 0 < r) ↔ (true = true → r ≠ 0)
      simp only [true_implies]
      omega

/-- **When the three tables agree**: the name and the version fit the parser's buffer, and a strict
operator is not asked about versions that compare equal. -/
theorem constraintsAgree_iff (name : DependName) (op : DependOp) (v : DependVersion) (p : Pkg) :
    ConstraintsAgree name op v p ↔
      (name.chars.length < bufferSize ∧ v.chars.length < bufferSize) ∧
      (op.isStrict = true → pkgCompareVersions p (parseVersion pkgNew v.chars) ≠ 0) := by
  rw [ConstraintsAgree, parseDepends_dependText]
  by_cases hfit : name.chars.length < bufferSize ∧ v.chars.length < bufferSize
  · rw [if_pos hfit, ← versionConstraintsSatisfied_iff_holds op v.chars name.chars]
    refine ⟨fun ⟨d, hd, hholds, _⟩ => ?_, fun ⟨_, hholds⟩ => ?_⟩
    · simp only [Option.some.injEq, CompoundDepend.mk.injEq, List.cons.injEq, true_and,
        and_true] at hd
      rw [hd]
      exact ⟨hfit, hholds⟩
    · refine ⟨_, rfl, hholds, fun ref => ?_⟩
      rw [Bool.eq_iff_iff, hholds, pkgVersionSatisfied_text,
        pkgCompareVersions_parseVersion p ref pkgNew]
  · rw [if_neg hfit]
    refine iff_of_false ?_ fun h => hfit h.1
    rintro ⟨d, hd, -⟩
    exact absurd hd (by simp)

/-- `a (<< 1.0)` against version `1.0`: the resolver's table lets it pass. -/
theorem not_constraintsAgree_earlier :
    ¬ ConstraintsAgree ⟨"a".toList, by decide⟩ .earlier
      ⟨"1.0".toList, by decide, by decide, by decide⟩ (parseVersion pkgNew "1.0".toList) := by
  rintro ⟨d, hd, hholds, -⟩
  rw [parseDepends_dependText, if_pos (by decide)] at hd
  simp only [Option.some.injEq, CompoundDepend.mk.injEq, List.cons.injEq, true_and,
    and_true] at hd
  rw [← hd] at hholds
  exact absurd hholds (by decide +kernel)

end FirmwareTools.Opkg

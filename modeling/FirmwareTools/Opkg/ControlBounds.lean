import FirmwareTools.Bytes.Scan
import FirmwareTools.Opkg.DependEntry
import FirmwareTools.Opkg.PkgParse

/-! # Control fields, read in place

The parser of control fields with every read of a line at its index and every write of a token at its place
in the buffer: a read behind the NUL, a write behind the buffer and a use of a string that is `NULL` are
errors, which are `none`. Where there is none, the result is that of `pkg_parse_line` as it is modelled on
whole strings.

* **`parseDependsAt_eq`**, **`parseListAt_eq`**, **`parseSimpleAt_eq`** — what is read in place;
* **`pkgParseLineAt_eq`** — a line that is read without an error is read as before;
* **`isSome_pkgParseLineAt`** — when a line is read without an error;
* **`controlSafe_iff`** — when a package is. -/

namespace FirmwareTools.Opkg

/-! ## Values -/

/-- `trim_xstrdup` of the string at an index. -/
def trimAt (s : CStr) (i : ℕ) : Option CStr := do
  let src ← scanFrom isspace s i
  let len ← scanFrom (fun _ => true) s src
  -- `end` is one character in front of `stop`
  let stop ← backFrom isspace s src len
  some ((s.drop src).take (stop - src))

/-- `line_is_blank` of the string at an index. -/
def lineIsBlankAt (s : CStr) (i : ℕ) : Option Bool :=
  (scanFrom isspace s i).map fun j => decide (j = s.length)

/-- `parse_simple` -/
def parseSimpleAt (type line : CStr) : Option CStr := trimAt line (type.length + 1)

/-- A round of `parse_list`'s loop: the item, and where the next one begins. -/
def listItemAt (s : CStr) (sep : Char) (i : ℕ) : Option (CStr × ℕ) := do
  let start ← scanFrom isspace s i
  let raw ← scanFrom (· != sep) s start
  let stop ← backFrom isspace s start (raw + 1)
  -- `end` is in front of `stop`; it is moved behind the item again if a blank is the separator
  let item := (s.drop start).take (if sep = ' ' then stop - start else stop - 1 - start)
  match readAt s raw with
  | .char _ => some (item, raw + 1)
  | .terminator => some (item, raw)
  | .outside => none

theorem takeWhile_true (s : CStr) : s.takeWhile (fun _ => true) = s :=
  List.takeWhile_eq_self_iff.mpr fun _ _ => rfl

/-- `strlen` -/
theorem scanFrom_true {s : CStr} {i : ℕ} (h : i ≤ s.length) : scanFrom (fun _ => true) s i = some s.length := by
  rw [scanFrom_eq h, takeWhile_true, List.length_drop]
  congr 1
  omega

/-- White space is not what a scan over white space leaves. -/
theorem head_dropWhile_isspace (s : CStr) : ∀ c ∈ (s.dropWhile isspace).head?, isspace c = false := by
  intro c hc
  cases hs : s.dropWhile isspace with
  | nil =>
      rw [hs] at hc
      cases hc
  | cons d t =>
      rw [hs] at hc
      obtain rfl : d = c := Option.some.inj hc
      have hne : s.dropWhile isspace ≠ [] := by simp [hs]
      have hhead := List.head_dropWhile_not isspace hne
      simpa [hs] using hhead

/-- **A trimmed copy** stays inside the string. -/
theorem trimAt_eq {s : CStr} {i : ℕ} (h : i ≤ s.length) : trimAt s i = some (trimXstrdup (s.drop i)) := by
  have hsrc := scanned_le isspace h
  have hdrop := drop_scanned isspace s i
  have htake : ((s.drop i).dropWhile isspace).take (s.length - (i + ((s.drop i).takeWhile isspace).length)) =
      (s.drop i).dropWhile isspace := by
    refine List.take_of_length_le ?_
    rw [← hdrop, List.length_drop]
  have hback : backFrom isspace s (i + ((s.drop i).takeWhile isspace).length) s.length =
      some (i + ((s.drop i).takeWhile isspace).length + (trimXstrdup (s.drop i)).length) := by
    rw [backFrom_eq hsrc le_rfl, hdrop, htake]
    · rfl
    · intro c hc _
      rw [hdrop] at hc
      exact head_dropWhile_isspace _ c hc
  rw [trimAt, scanFrom_eq h, Option.bind_eq_bind, Option.bind_some, scanFrom_true hsrc]
  simp only [Option.bind_some, hback, hdrop]
  rw [Nat.add_sub_cancel_left]
  congr 1
  exact (List.prefix_iff_eq_take.mp (List.rdropWhile_prefix isspace _)).symm

theorem trimAt_outside {s : CStr} {i : ℕ} (h : s.length < i) : trimAt s i = none := by
  rw [trimAt, scanFrom_outside h]
  rfl

/-- **A text** is read inside a line that is longer than the field's name. -/
theorem parseSimpleAt_eq (type line behind : CStr) :
    parseSimpleAt type line =
      if type.length < line.length then some (parseSimple type ⟨line, behind⟩) else none := by
  rw [parseSimpleAt]
  split_ifs with h
  · have hle : type.length + 1 ≤ line.length := h
    rw [trimAt_eq hle, parseSimple, Line.stringAt, if_pos hle]
  · exact trimAt_outside (by omega)

/-! ## Lists -/

section

variable {s : CStr} {sep : Char} {i : ℕ}

/-- The place behind the blanks before an item. -/
def itemStart (s : CStr) (i : ℕ) : ℕ := i + ((s.drop i).takeWhile isspace).length

/-- The place behind an item. -/
def itemEnd (s : CStr) (sep : Char) (i : ℕ) : ℕ :=
  itemStart s i + ((s.drop (itemStart s i)).takeWhile (· != sep)).length

theorem itemStart_le (h : i ≤ s.length) : itemStart s i ≤ s.length := scanned_le isspace h

theorem itemEnd_le (sep : Char) (h : i ≤ s.length) : itemEnd s sep i ≤ s.length := scanned_le _ (itemStart_le h)

theorem drop_itemStart (s : CStr) (i : ℕ) : s.drop (itemStart s i) = (s.drop i).dropWhile isspace :=
  drop_scanned isspace s i

theorem drop_itemEnd (s : CStr) (sep : Char) (i : ℕ) :
    s.drop (itemEnd s sep i) = ((s.drop i).dropWhile isspace).dropWhile (· != sep) := by
  rw [itemEnd, drop_scanned, drop_itemStart]

/-- Going back from the end of an item stays inside the string. -/
theorem exists_backFrom (sep : Char) (h : i ≤ s.length) :
    ∃ stop, backFrom isspace s (itemStart s i) (itemEnd s sep i + 1) = some stop := by
  rcases (itemEnd_le sep h).lt_or_eq with hlt | heq
  · refine ⟨_, backFrom_eq (by rw [itemEnd]; omega) hlt fun c hc _ => ?_⟩
    rw [drop_itemStart] at hc
    exact head_dropWhile_isspace _ c hc
  · rw [heq]
    exact ⟨_, backFrom_terminator _⟩

/-- What a round comes to. -/
theorem listItemAt_eq (h : i ≤ s.length) {stop : ℕ}
    (hstop : backFrom isspace s (itemStart s i) (itemEnd s sep i + 1) = some stop) :
    listItemAt s sep i = some ((s.drop (itemStart s i)).take
        (if sep = ' ' then stop - itemStart s i else stop - 1 - itemStart s i),
      if itemEnd s sep i < s.length then itemEnd s sep i + 1 else itemEnd s sep i) := by
  have hstart : scanFrom isspace s i = some (itemStart s i) := scanFrom_eq h
  have hraw : scanFrom (· != sep) s (itemStart s i) = some (itemEnd s sep i) := scanFrom_eq (itemStart_le h)
  rw [listItemAt, hstart, Option.bind_eq_bind, Option.bind_some, hraw]
  simp only [Option.bind_some, hstop]
  rcases readAt_cases (itemEnd_le sep h) with ⟨c, -, hread, hlt⟩ | ⟨heq, -⟩
  · rw [hread, if_pos hlt]
  · rw [heq, readAt_length, if_neg (lt_irrefl _)]

/-- **A round goes on** inside the string. -/
theorem exists_listItemAt (sep : Char) (h : i < s.length) :
    ∃ item next, listItemAt s sep i = some (item, next) ∧ i < next ∧ next ≤ s.length := by
  obtain ⟨stop, hstop⟩ := exists_backFrom sep h.le
  have hle : i ≤ itemEnd s sep i := by
    rw [itemEnd, itemStart]
    omega
  have hend := itemEnd_le sep h.le
  refine ⟨_, _, listItemAt_eq h.le hstop, ?_, ?_⟩
  · split_ifs <;> omega
  · split_ifs <;> omega

theorem lt_of_listItemAt {item : CStr} {next : ℕ} (hi : i < s.length)
    (h : listItemAt s sep i = some (item, next)) : i < next := by
  obtain ⟨_, _, heq, hlt, -⟩ := exists_listItemAt sep hi
  obtain ⟨-, rfl⟩ := Prod.mk.inj (Option.some.inj (heq.symm.trans h))
  exact hlt

end

/-- The loop of `parse_list`. -/
def listLoopAt (s : CStr) (sep : Char) (i : ℕ) (items : List CStr) : Option (List CStr) :=
  match _hc : readAt s i with
  | .char _ =>
    match _hitem : listItemAt s sep i with
    | some (item, next) => listLoopAt s sep next (items ++ [item])
    | none => none
  | .terminator => some items
  | .outside => none
termination_by s.length - i
decreasing_by
  have hlt := lt_of_readAt _hc
  have := lt_of_listItemAt hlt _hitem
  omega

/-- `parse_list` -/
def parseListAt (line : CStr) (sep : Char) (skipField : Bool) : Option (List CStr) := do
  let raw ← if skipField then some 0 else (scanFrom (· != ':') line 0).map (· + 1)
  if ← lineIsBlankAt line raw then some [] else listLoopAt line sep raw []

section

variable {s : CStr} {sep : Char} {i : ℕ}

theorem listLoopAt_step (h : i < s.length) {item : CStr} {next : ℕ} (hitem : listItemAt s sep i = some (item, next))
    (items : List CStr) : listLoopAt s sep i items = listLoopAt s sep next (items ++ [item]) := by
  rw [listLoopAt.eq_def]
  obtain ⟨c, -, hread, -⟩ | ⟨rfl, -⟩ := readAt_cases h.le
  · rw [hread, hitem]
  · exact absurd h (lt_irrefl _)

theorem listLoopAt_length (items : List CStr) : listLoopAt s sep s.length items = some items := by
  rw [listLoopAt.eq_def, readAt_length]

/-- An item that no blank ends is copied as it is. -/
theorem listItemAt_of_not_isspace (hsep : isspace sep = false) (h : i ≤ s.length) :
    listItemAt s sep i = some (((s.drop i).dropWhile isspace).takeWhile (· != sep),
      if itemEnd s sep i < s.length then itemEnd s sep i + 1 else itemEnd s sep i) := by
  have hne : sep ≠ ' ' := by
    rintro rfl
    cases hsep
  -- `end` stays where it is
  have hstop : backFrom isspace s (itemStart s i) (itemEnd s sep i + 1) = some (itemEnd s sep i + 1) := by
    rcases readAt_cases (itemEnd_le sep h) with ⟨c, hdrop, hread, -⟩ | ⟨heq, -⟩
    · have hc : c = sep := by
        have hhead : (s.drop (itemEnd s sep i)).head? = some c := by rw [hdrop]; rfl
        rw [itemEnd, drop_scanned] at hhead
        have hnot := List.head?_dropWhile_not (· != sep) (s.drop (itemStart s i))
        rw [hhead] at hnot
        simpa using hnot
      rw [backFrom, hread, hc]
      simp [hsep]
    · rw [heq]
      exact backFrom_terminator _
  rw [listItemAt_eq h hstop, if_neg hne, ← drop_itemStart, Nat.add_sub_cancel, itemEnd, Nat.add_sub_cancel_left]
  congr 2
  exact (List.prefix_iff_eq_take.mp (List.takeWhile_prefix _)).symm

theorem splitList_cons_of_not_isspace (hsep : isspace sep = false) {raw : CStr} (hraw : raw ≠ []) :
    splitList sep raw = (raw.dropWhile isspace).takeWhile (· != sep) ::
      splitList sep ((raw.dropWhile isspace).dropWhile (· != sep)).tail := by
  have hne : sep ≠ ' ' := by
    rintro rfl
    cases hsep
  rw [splitList.eq_def, dif_neg hraw]
  simp [hne]

/-- **The items** of a list. -/
theorem listLoopAt_eq (hsep : isspace sep = false) (h : i ≤ s.length) (items : List CStr) :
    listLoopAt s sep i items = some (items ++ splitList sep (s.drop i)) := by
  induction hn : s.length - i using Nat.strong_induction_on generalizing i items with
  | h n ih =>
      rcases h.lt_or_eq with hlt | rfl
      · have hitem := listItemAt_of_not_isspace hsep h
        have hnext := lt_of_listItemAt hlt hitem
        have hend := itemEnd_le sep h
        have hrest : s.drop (if itemEnd s sep i < s.length then itemEnd s sep i + 1 else itemEnd s sep i) =
            (((s.drop i).dropWhile isspace).dropWhile (· != sep)).tail := by
          rw [← drop_itemEnd, List.tail_drop]
          split_ifs with hmore
          · rfl
          · rw [List.drop_eq_nil_of_le (by omega), List.drop_eq_nil_of_le (by omega)]
        have hle : (if itemEnd s sep i < s.length then itemEnd s sep i + 1 else itemEnd s sep i) ≤ s.length := by
          split_ifs <;> omega
        have hne : s.drop i ≠ [] := by
          rw [ne_eq, List.drop_eq_nil_iff]
          omega
        rw [listLoopAt_step hlt hitem, ih _ (by omega) hle _ rfl, hrest, splitList_cons_of_not_isspace hsep hne]
        simp
      · rw [listLoopAt_length, List.drop_length, splitList.eq_def]
        simp

theorem lineIsBlankAt_eq (h : i ≤ s.length) : lineIsBlankAt s i = some (lineIsBlank (s.drop i)) := by
  have hall : i + ((s.drop i).takeWhile isspace).length = s.length ↔ (s.drop i).all isspace = true := by
    have hlen : (s.drop i).length = s.length - i := List.length_drop
    rw [List.all_eq_true, ← List.takeWhile_eq_self_iff]
    constructor
    · intro heq
      exact (List.takeWhile_prefix isspace).eq_of_length (by omega)
    · intro heq
      rw [heq]
      omega
  rw [lineIsBlankAt, scanFrom_eq h, Option.map_some, lineIsBlank]
  congr 1
  rw [Bool.eq_iff_iff, decide_eq_true_iff]
  exact hall

/-- The place of the marker, or the terminator. -/
theorem scanFrom_marker (line : CStr) :
    scanFrom (· != ':') line 0 = some (line.takeWhile (· != ':')).length := by
  rw [scanFrom_eq (Nat.zero_le _), List.drop_zero, Nat.zero_add]

theorem length_takeWhile_marker (line : CStr) : (line.takeWhile (· != ':')).length < line.length ↔ ':' ∈ line := by
  constructor
  · intro hlt
    by_contra hmem
    have hall : ∀ c ∈ line, (c != ':') = true := fun c hc => by
      simpa using ne_of_mem_of_not_mem hc hmem
    rw [List.takeWhile_eq_self_iff.mpr hall] at hlt
    exact lt_irrefl _ hlt
  · intro hmem
    refine lt_of_le_of_ne (List.takeWhile_prefix _).length_le fun heq => ?_
    have hself := (List.takeWhile_prefix (· != ':')).eq_of_length heq
    simpa using List.takeWhile_eq_self_iff.mp hself ':' hmem

theorem drop_marker (line : CStr) : line.drop ((line.takeWhile (· != ':')).length + 1) =
    (line.dropWhile (· != ':')).tail := by
  have h := drop_scanned (· != ':') line 0
  rw [List.drop_zero, Nat.zero_add] at h
  rw [← h, List.tail_drop]

/-- **A list field** is read inside a line with a marker. -/
theorem parseListAt_eq (hsep : isspace sep = false) (line behind : CStr) :
    parseListAt line sep false =
      if ':' ∈ line then some (parseList ⟨line, behind⟩ sep false) else none := by
  by_cases hmem : ':' ∈ line
  · have hle : (line.takeWhile (· != ':')).length + 1 ≤ line.length := (length_takeWhile_marker line).mpr hmem
    have hlist : parseList ⟨line, behind⟩ sep false =
        if lineIsBlank (line.drop ((line.takeWhile (· != ':')).length + 1)) then []
        else splitList sep (line.drop ((line.takeWhile (· != ':')).length + 1)) := by
      simp [parseList, hmem, fieldValue, drop_marker]
    rw [if_pos hmem, hlist, parseListAt, scanFrom_marker]
    simp only [Bool.false_eq_true, ↓reduceIte, Option.map_some, Option.bind_eq_bind, Option.bind_some,
      lineIsBlankAt_eq hle, listLoopAt_eq hsep hle, List.nil_append]
    cases lineIsBlank (line.drop ((line.takeWhile (· != ':')).length + 1)) <;> rfl
  · have hlt : line.length < (line.takeWhile (· != ':')).length + 1 :=
      Nat.lt_succ_of_le (not_lt.mp fun h => hmem ((length_takeWhile_marker line).mp h))
    rw [if_neg hmem, parseListAt, scanFrom_marker]
    simp [lineIsBlankAt, scanFrom_outside hlt]

end

/-! ## Dependencies -/

/-- A constraint behind a parenthesis: the operator, which `strncmp` looks for, and the version. -/
def constraintAt (s : CStr) (i : ℕ) : Option (VersionConstraint × CStr × ℕ) := do
  let (constraint, src) := parseConstraint (s.drop i)
  let i ← scanFrom isspace s (s.length - src.length)
  let (buffer, i) ← copyFrom (· != ')') bufferSize s i []
  let version ← trimAt buffer 0
  some (constraint, version, i)

/-- The constraint of an alternative, if a parenthesis comes next. -/
def parenAt (s pkgName : CStr) (i : ℕ) : Option (Depend × ℕ) :=
  match readAt s i with
  | .char c =>
    if c = '(' then
      (constraintAt s (i + 1)).map fun (constraint, version, i) =>
        ({ constraint, version := some version, pkg := pkgName }, i)
    else some ({ pkg := pkgName }, i)
  | .terminator => some ({ pkg := pkgName }, i)
  | .outside => none

/-- The star behind an alternative. -/
def starAt (s : CStr) (possibility : Depend) (i : ℕ) : Option (Depend × Bool × ℕ) :=
  match readAt s i with
  | .char c => if c = '*' then some (possibility, true, i + 1) else some (possibility, false, i)
  | .terminator => some (possibility, false, i)
  | .outside => none

/-- A round of `parseDepends`' loop. -/
def parsePossibilityAt (s : CStr) (i : ℕ) : Option (Depend × Bool × ℕ) := do
  let (buffer, i) ← copyFrom isNameChar bufferSize s i []
  let pkgName ← trimAt buffer 0
  let i ← scanFrom isspace s i
  let (possibility, i) ← parenAt s pkgName i
  let i ← scanFrom (fun c => isspace c || c == ')' || c == '|') s i
  starAt s possibility i

/-- The loop of `parseDepends` over the alternatives. -/
def parsePossibilitiesAt (s : CStr) : ℕ → ℕ → Option (List Depend × Bool)
  | 0, _ => some ([], false)
  | n + 1, i => do
    let (possibility, greedy, i) ← parsePossibilityAt s i
    let (possibilities, greedy') ← parsePossibilitiesAt s n i
    some (possibility :: possibilities, greedy || greedy')

/-- `parseDepends` -/
def parseDependsAt (dependStr : CStr) : Option CompoundDepend := do
  -- the bars are counted up to the NUL
  let len ← scanFrom (fun _ => true) dependStr 0
  let numOfOrs := (dependStr.take len).count '|'
  let (possibilities, greedy) ← parsePossibilitiesAt dependStr (numOfOrs + 1) 0
  some { type := if greedy then .greedyDepend else .depend, possibilities }

section

variable {s : CStr} {i : ℕ}

/-- The rest of the string stands at the place that its length tells. -/
theorem drop_length_sub {t u : CStr} (h : u <:+ t) : t.drop (t.length - u.length) = u := by
  obtain ⟨v, rfl⟩ := h
  rw [List.length_append, Nat.add_sub_cancel]
  exact List.drop_left

/-- What an operator leaves is the end of the string. -/
theorem parseConstraint_suffix (src : CStr) : (parseConstraint src).2 <:+ src := by
  rw [parseConstraint]
  split_ifs
  all_goals first
    | exact List.drop_suffix _ _
    | exact List.suffix_rfl

/-- A token is copied from its place. -/
theorem copyFrom_eq_copyWhile (cond : Char → Bool) (h : i ≤ s.length) :
    copyFrom cond bufferSize s i [] =
      (copyWhile cond (s.drop i)).map fun (token, src) => (token, s.length - src.length) := by
  have hplace : s.length - ((s.drop i).dropWhile cond).length = i + ((s.drop i).takeWhile cond).length := by
    rw [← drop_scanned, List.length_drop]
    have := scanned_le cond h
    omega
  rw [copyFrom_eq h, copyWhile, List.length_nil, Nat.zero_add]
  split_ifs
  · simp [hplace]
  · rfl

theorem trimAt_zero (s : CStr) : trimAt s 0 = some (trimXstrdup s) := trimAt_eq (Nat.zero_le _)

/-- What a scan leaves, by its length. -/
theorem scanFrom_place (cond : Char → Bool) {src : CStr} (h : src <:+ s) :
    scanFrom cond s (s.length - src.length) = some (s.length - (src.dropWhile cond).length) := by
  have hle : s.length - src.length ≤ s.length := Nat.sub_le _ _
  have hscan := scanned_le cond hle
  have hdrop := drop_scanned cond s (s.length - src.length)
  rw [drop_length_sub h] at hscan hdrop
  rw [scanFrom_eq hle, drop_length_sub h, ← hdrop, List.length_drop]
  congr 1
  omega

theorem copyWhile_suffix {cond : Char → Bool} {src token rest : CStr}
    (h : copyWhile cond src = some (token, rest)) : rest <:+ src := by
  rw [copyWhile] at h
  split_ifs at h
  obtain ⟨-, rfl⟩ := Prod.mk.inj (Option.some.inj h)
  exact List.dropWhile_suffix _

theorem constraintAt_eq :
    constraintAt s i = (copyWhile (· != ')') ((parseConstraint (s.drop i)).2.dropWhile isspace)).map
      fun (version, src) => ((parseConstraint (s.drop i)).1, trimXstrdup version, s.length - src.length) := by
  have hsrc : (parseConstraint (s.drop i)).2 <:+ s := (parseConstraint_suffix _).trans (List.drop_suffix _ _)
  have hversion := (List.dropWhile_suffix isspace).trans hsrc
  have hcopy := copyFrom_eq_copyWhile (i := s.length - ((parseConstraint (s.drop i)).2.dropWhile isspace).length)
    (· != ')') (Nat.sub_le s.length _)
  rw [drop_length_sub hversion] at hcopy
  rw [constraintAt]
  simp only [Option.bind_eq_bind, scanFrom_place isspace hsrc, Option.bind_some, hcopy]
  cases copyWhile (· != ')') ((parseConstraint (s.drop i)).2.dropWhile isspace) with
  | none => rfl
  | some found => simp [trimAt_zero]

/-- What is read at the place of the end of a string. -/
theorem readAt_place {src : CStr} (h : src <:+ s) :
    readAt s (s.length - src.length) = match src with | c :: _ => .char c | [] => .terminator := by
  have hdrop := drop_length_sub h
  cases src with
  | nil => exact readAt_length s
  | cons c src => exact readAt_of_drop hdrop

theorem length_sub_tail {c : Char} {src : CStr} (h : c :: src <:+ s) :
    s.length - (c :: src).length + 1 = s.length - src.length := by
  have hle := h.length_le
  rw [List.length_cons] at hle ⊢
  omega

theorem suffix_of_cons {c : Char} {src : CStr} (h : c :: src <:+ s) : src <:+ s := (List.suffix_cons c src).trans h

theorem parenAt_eq (pkgName : CStr) {src : CStr} (h : src <:+ s) :
    parenAt s pkgName (s.length - src.length) =
      (parseParen pkgName src).map fun (possibility, src) => (possibility, s.length - src.length) := by
  rw [parenAt, readAt_place h]
  cases src with
  | nil => rfl
  | cons c src =>
      dsimp only
      by_cases hc : c = '('
      · rw [if_pos hc, length_sub_tail h, constraintAt_eq, drop_length_sub (suffix_of_cons h), hc,
          parseParen]
        cases copyWhile (· != ')') ((parseConstraint src).2.dropWhile isspace) <;> rfl
      · have hhead : (c :: src).head? ≠ some '(' := by simpa using hc
        rw [if_neg hc, parseParen_of_ne hhead]
        rfl

theorem starAt_eq (possibility : Depend) {src : CStr} (h : src <:+ s) :
    starAt s possibility (s.length - src.length) = some ((parseStar possibility src).1,
      (parseStar possibility src).2.1, s.length - (parseStar possibility src).2.2.length) := by
  rw [starAt, readAt_place h]
  cases src with
  | nil => rfl
  | cons c src =>
      dsimp only
      by_cases hc : c = '*'
      · rw [if_pos hc, length_sub_tail h, hc]
        rfl
      · have hhead : (c :: src).head? ≠ some '*' := by simpa using hc
        rw [if_neg hc, parseStar_of_ne hhead]

theorem parseParen_suffix {pkgName src : CStr} {found : Depend × CStr} (h : parseParen pkgName src = some found) :
    found.2 <:+ src := by
  unfold parseParen at h
  split at h
  · next src =>
      obtain ⟨⟨version, rest⟩, hcopy, rfl⟩ := Option.map_eq_some_iff.mp h
      have hrest := (copyWhile_suffix hcopy).trans (List.dropWhile_suffix isspace)
      exact (hrest.trans (parseConstraint_suffix src)).trans (List.suffix_cons _ _)
  · cases h
    exact List.suffix_rfl

theorem parseStar_suffix (possibility : Depend) (src : CStr) : (parseStar possibility src).2.2 <:+ src := by
  unfold parseStar
  split
  · exact List.suffix_cons _ _
  · exact List.suffix_rfl

/-- A round leaves the end of the string. -/
theorem parsePossibility_suffix {src : CStr} {found : Depend × Bool × CStr}
    (h : parsePossibility src = some found) : found.2.2 <:+ src := by
  rw [parsePossibility_eq, Option.bind_eq_some_iff] at h
  obtain ⟨⟨name, rest⟩, hcopy, htail⟩ := h
  obtain ⟨⟨possibility, rest'⟩, hparen, rfl⟩ := Option.map_eq_some_iff.mp htail
  have hrest := (parseStar_suffix possibility _).trans
    ((List.dropWhile_suffix isSkipped).trans (parseParen_suffix hparen))
  exact hrest.trans ((List.dropWhile_suffix isspace).trans (copyWhile_suffix hcopy))

/-- **A round in place** gives what the round gives. -/
theorem parsePossibilityAt_eq (h : i ≤ s.length) :
    parsePossibilityAt s i = (parsePossibility (s.drop i)).map
      fun (possibility, greedy, src) => (possibility, greedy, s.length - src.length) := by
  rw [parsePossibilityAt, parsePossibility_eq, copyFrom_eq_copyWhile isNameChar h]
  cases hcopy : copyWhile isNameChar (s.drop i) with
  | none => rfl
  | some found =>
      obtain ⟨name, src⟩ := found
      have hsrc : src <:+ s := (copyWhile_suffix hcopy).trans (List.drop_suffix _ _)
      have hparen := (List.dropWhile_suffix isspace).trans hsrc
      simp only [Option.map_some, Option.bind_eq_bind, Option.bind_some, trimAt_zero, scanFrom_place isspace hsrc,
        parenAt_eq _ hparen, parseTail]
      cases hfound : parseParen (trimXstrdup name) (src.dropWhile isspace) with
      | none => rfl
      | some found =>
          have hrest := (parseParen_suffix hfound).trans hparen
          have hskipped := (List.dropWhile_suffix isSkipped).trans hrest
          simp only [Option.map_some, Option.bind_some]
          change (scanFrom isSkipped s _).bind _ = _
          rw [scanFrom_place isSkipped hrest, Option.bind_some, starAt_eq found.1 hskipped]

/-- **Dependencies** are read inside the string; a token that does not fit is the only error. -/
theorem parseDependsAt_eq (dependStr : CStr) : parseDependsAt dependStr = parseDepends dependStr := by
  have hloop : ∀ (n i : ℕ), i ≤ dependStr.length →
      parsePossibilitiesAt dependStr n i = parsePossibilities n (dependStr.drop i) := by
    intro n
    induction n with
    | zero => exact fun _ _ => rfl
    | succ n ih =>
        intro i hi
        rw [parsePossibilitiesAt, parsePossibilities, parsePossibilityAt_eq hi]
        cases hround : parsePossibility (dependStr.drop i) with
        | none => rfl
        | some found =>
            have hsrc : found.2.2 <:+ dependStr := (parsePossibility_suffix hround).trans (List.drop_suffix _ _)
            have hrest := ih (dependStr.length - found.2.2.length) (Nat.sub_le _ _)
            rw [drop_length_sub hsrc] at hrest
            simp only [Option.map_some, Option.bind_eq_bind, Option.bind_some, hrest]
  rw [parseDependsAt, parseDepends, scanFrom_true (Nat.zero_le _)]
  simp only [Option.bind_eq_bind, Option.bind_some, List.take_length, hloop _ 0 (Nat.zero_le _), List.drop_zero]

/-- A star is passed. -/
def passStar (src : CStr) : CStr := if src.head? = some '*' then src.tail else src

/-- The version behind a parenthesis, as far as the closing one, and what is behind it. -/
def versionToken (src : CStr) : CStr × CStr :=
  let src := (parseConstraint src).2.dropWhile isspace
  (src.takeWhile (· != ')'), src.dropWhile (· != ')'))

/-- The strings that a round copies into the buffer, the name and a version, and what it leaves. -/
def roundTokens (src : CStr) : List CStr × CStr :=
  let name := src.takeWhile isNameChar
  let src := (src.dropWhile isNameChar).dropWhile isspace
  if src.head? = some '(' then
    ([name, (versionToken src.tail).1], passStar ((versionToken src.tail).2.dropWhile isSkipped))
  else ([name], passStar (src.dropWhile isSkipped))

/-- The names and the versions that the rounds come to. -/
def dependTokens : ℕ → CStr → List CStr
  | 0, _ => []
  | n + 1, src => (roundTokens src).1 ++ dependTokens n (roundTokens src).2

/-- Every name and every version of the alternatives is shorter than the buffer. -/
def TokensFit (dependStr : CStr) : Prop :=
  ∀ token ∈ dependTokens (dependStr.count '|' + 1) dependStr, token.length < bufferSize

theorem parseStar_snd (possibility : Depend) (src : CStr) : (parseStar possibility src).2.2 = passStar src := by
  rw [passStar]
  split_ifs with h
  · cases src with
    | nil => cases h
    | cons c src =>
        obtain rfl : c = '*' := Option.some.inj h
        rfl
  · rw [parseStar_of_ne h]

/-- What a round copies has to fit. -/
theorem parsePossibility_tokens (src : CStr) :
    (parsePossibility src).map (fun found => found.2.2) =
      if ∀ token ∈ (roundTokens src).1, token.length < bufferSize then some (roundTokens src).2 else none := by
  rw [parsePossibility_eq, copyWhile, roundTokens]
  dsimp only
  by_cases hname : (src.takeWhile isNameChar).length < bufferSize
  · rw [if_pos hname, Option.bind_some]
    dsimp only
    rw [parseTail]
    generalize (src.dropWhile isNameChar).dropWhile isspace = rest
    by_cases hparen : rest.head? = some '('
    · obtain ⟨t, rfl⟩ : ∃ t, rest = '(' :: t := by
        cases rest with
        | nil => cases hparen
        | cons c t => exact ⟨t, by rw [Option.some.inj hparen]⟩
      rw [if_pos hparen, parseParen, copyWhile, List.tail_cons, versionToken]
      by_cases hversion : (((parseConstraint t).2.dropWhile isspace).takeWhile (· != ')')).length < bufferSize
      · simp [hname, hversion, parseStar_snd]
      · simp [hversion]
    · rw [if_neg hparen, parseParen_of_ne hparen]
      simp [hname, parseStar_snd]
  · rw [if_neg hname]
    split_ifs with hparen hfit hfit
    · exact absurd (hfit _ (by simp)) hname
    · rfl
    · exact absurd (hfit _ (by simp)) hname
    · rfl

theorem isSome_parsePossibilities (n : ℕ) : ∀ src : CStr,
    (parsePossibilities n src).isSome ↔ ∀ token ∈ dependTokens n src, token.length < bufferSize := by
  induction n with
  | zero => simp [parsePossibilities, dependTokens]
  | succ n ih =>
      intro src
      have hround := parsePossibility_tokens src
      rw [parsePossibilities, dependTokens, List.forall_mem_append, ← ih]
      by_cases hfit : ∀ token ∈ (roundTokens src).1, token.length < bufferSize
      · rw [if_pos hfit] at hround
        obtain ⟨found, hfound, hrest⟩ := Option.map_eq_some_iff.mp hround
        simp only [hfound, Option.bind_eq_bind, Option.bind_some, hrest]
        cases parsePossibilities n (roundTokens src).2 with
        | none => simp
        | some found => simpa using hfit
      · rw [if_neg hfit, Option.map_eq_none_iff] at hround
        rw [hround]
        exact iff_of_false (by simp) fun h => hfit h.1

/-- **Dependencies are parsed** inside the buffer when their names and versions fit. -/
theorem isSome_parseDependsAt (dependStr : CStr) : (parseDependsAt dependStr).isSome ↔ TokensFit dependStr := by
  rw [parseDependsAt_eq, parseDepends, TokensFit, ← isSome_parsePossibilities]
  cases parsePossibilities (dependStr.count '|' + 1) dependStr <;> simp

end

/-! ## A line -/

/-- How a case reads its line: not at all, by the functions of the C library, as a text behind the field's
name, or as a list. -/
inductive FieldReader
  | none
  | whole
  | simple (type : CStr)
  | list
  deriving DecidableEq, Repr

/-- The reader of a case. The key of `MD5sum` has the marker. -/
def FieldCase.reader (c : FieldCase) : FieldReader :=
  match c.field with
  | .conffiles => .none
  | .status | .version => .whole
  | .conflicts | .depends | .provides | .preDepends | .recommends | .replaces | .suggests => .list
  | .md5sum => .simple c.key.dropLast
  | _ => .simple c.key

/-- What is read of a line. -/
inductive FieldValue
  | none
  | text (value : CStr)
  | list (items : List CStr)
  deriving DecidableEq, Repr

/-- The value of a line. -/
def FieldReader.value (r : FieldReader) (line : Line) : FieldValue :=
  match r with
  | .none => .none
  | .whole => .text line.text
  | .simple type => .text (parseSimple type line)
  | .list => .list (parseList line ',' false)

/-- The value of a line, read in place. -/
def FieldReader.valueAt (r : FieldReader) (line : CStr) : Option FieldValue :=
  match r with
  | .none => some .none
  | .whole => some (.text line)
  | .simple type => (parseSimpleAt type line).map .text
  | .list => (parseListAt line ',' false).map .list

/-- `sscanf` finds the three words of a `Status` line. -/
def statusScanned (sstr : CStr) : Bool :=
  "Status:".toList.isPrefixOf sstr &&
    (((scanWordUpTo 63 (sstr.drop 7)).bind fun (_, s) => scanWordUpTo 63 s).bind fun (_, s) =>
      scanWordUpTo 63 s).isSome

/-- `strtoul` reports a number that is out of range. -/
def strtoulOverflows (s : CStr) : Bool :=
  let signed := s.dropWhile isspace
  let digits := if signed.head? = some '-' ∨ signed.head? = some '+' then signed.tail else signed
  decide (ulongMax < digitsValue (digits.takeWhile isdigit))

/-- The epoch of a `Version` line is out of range. -/
def epochInvalid (vstr : CStr) : Bool :=
  let vstr := (if "Version:".toList.isPrefixOf vstr then vstr.drop 8 else vstr).dropWhile isspace
  decide (':' ∈ vstr) && strtoulOverflows vstr

/-- A case that reports an error, with the name of the package. -/
def FieldCase.reports (c : FieldCase) (line : CStr) : Bool :=
  match c.field with
  | .status => !statusScanned line
  | .version => epochInvalid line
  | _ => false

/-- A line that is taken for a configuration file. -/
def isConffileLine (env : ParseEnv) (s : ReadState) (line : CStr) : Bool :=
  line.head? = some ' ' && !(!env.masked .description && s.flags.description) &&
    (!env.masked .conffiles && s.flags.conffiles)

/-- `pkg_parse_line`, in place. Messages name the package; `printsNull` says that the C library prints
something for a string that is `NULL`. -/
def pkgParseLineAt (printsNull : Bool) (env : ParseEnv) (s : ReadState) (line : CStr) :
    Option (ReadState × Bool) :=
  let mayReport := s.read.named || printsNull
  match fieldCase env ⟨line, []⟩ with
  | some c =>
    match c.reader.valueAt line with
    | none => none
    | some _ =>
      if c.reports line && !mayReport then none
      else some (⟨⟨c.act ⟨line, []⟩ s.read.pkg, s.read.named || c.field == .package⟩, c.flags⟩, false)
  | none =>
    if isConffileLine env s line && !(scanConffile line).isSome && !mayReport then none
    else
      match pkgParseOther env s ⟨line, []⟩ with
      | (some s', ret) => some (s', ret)
      | (none, _) => none

section

variable {env : ParseEnv}

/-- **A case reads its line** with its reader only. -/
theorem act_eq_of_value {c : FieldCase} (hc : c ∈ fieldCases env) {line line' : Line}
    (h : c.reader.value line = c.reader.value line') : c.act line = c.act line' := by
  simp only [fieldCases, List.mem_cons, List.not_mem_nil, or_false] at hc
  rcases hc with rfl | rfl | rfl | rfl | rfl | rfl | rfl | rfl | rfl | rfl | rfl | rfl | rfl | rfl | rfl |
    rfl | rfl | rfl | rfl | rfl | rfl | rfl | rfl | rfl | rfl | rfl | rfl
  all_goals
    simp only [FieldCase.reader, FieldReader.value, FieldValue.text.injEq, FieldValue.list.injEq] at h
    funext pkg
    dsimp only
  all_goals first
    | rw [h]
    -- the marker is part of the key
    | rw [show parseSimple "MD5sum".toList line = parseSimple "MD5sum".toList line' from h]
    | rw [show parseSimple "MD5Sum".toList line = parseSimple "MD5Sum".toList line' from h]

/-- The value is that of the line, whatever is behind it. -/
theorem valueAt_eq {r : FieldReader} {line : CStr} {value : FieldValue} (h : r.valueAt line = some value)
    (behind : CStr) : value = r.value ⟨line, behind⟩ := by
  cases r with
  | none =>
      cases h
      rfl
  | whole =>
      cases h
      rfl
  | simple type =>
      rw [FieldReader.valueAt, parseSimpleAt_eq type line behind] at h
      split_ifs at h
      · cases h
        rfl
      · cases h
  | list =>
      rw [FieldReader.valueAt, parseListAt_eq (by decide) line behind] at h
      split_ifs at h
      · cases h
        rfl
      · cases h

/-- **A line that is read without an error** is read as on whole strings, whatever is behind its NUL. -/
theorem pkgParseLineAt_eq {printsNull : Bool} {s s' : ReadState} {line : CStr} {ret : Bool}
    (h : pkgParseLineAt printsNull env s line = some (s', ret)) (behind : CStr) :
    pkgParseLine env (some s) ⟨line, behind⟩ = (some s', ret) := by
  have hcase : fieldCase env ⟨line, behind⟩ = fieldCase env ⟨line, []⟩ := rfl
  rw [pkgParseLineAt] at h
  rw [pkgParseLine, hcase]
  cases hc : fieldCase env ⟨line, []⟩ with
  | some c =>
      rw [hc] at h
      dsimp only at h ⊢
      cases hvalue : c.reader.valueAt line with
      | none =>
          rw [hvalue] at h
          cases h
      | some value =>
          rw [hvalue] at h
          dsimp only at h
          have hmem := List.mem_of_find?_eq_some hc
          have hact : c.act ⟨line, behind⟩ = c.act ⟨line, []⟩ :=
            act_eq_of_value hmem ((valueAt_eq hvalue behind).symm.trans (valueAt_eq hvalue []))
          split_ifs at h
          rw [hact]
          obtain ⟨rfl, rfl⟩ := Prod.mk.inj (Option.some.inj h)
          rfl
  | none =>
      rw [hc] at h
      dsimp only at h ⊢
      have hother : pkgParseOther env s ⟨line, behind⟩ = pkgParseOther env s ⟨line, []⟩ := rfl
      rw [hother]
      split_ifs at h
      revert h
      cases hresult : pkgParseOther env s ⟨line, []⟩ with
      | mk s'' ret' =>
          cases s'' with
          | none => exact fun h => by cases h
          | some s'' =>
              intro h
              obtain ⟨rfl, rfl⟩ := Prod.mk.inj (Option.some.inj h)
              rfl

/-- What a field's line has to have: a character behind the field's name, or a marker. -/
def FieldReader.Fits (r : FieldReader) (line : CStr) : Prop :=
  match r with
  | .none | .whole => True
  | .simple type => type.length < line.length
  | .list => ':' ∈ line

/-- **When a line is read without an error**: a field is long enough for its reader; a line that goes on with
a description finds one; and an error can be reported with the name of the package. -/
structure LineOk (printsNull : Bool) (env : ParseEnv) (s : ReadState) (line : CStr) : Prop where
  field : ∀ c, fieldCase env ⟨line, []⟩ = some c → c.reader.Fits line
  description : line.head? = some ' ' → env.masked .description = false → s.flags.description = true →
    s.read.pkg.description.isSome
  reports : s.read.named = true ∨ printsNull = true ∨
    (∀ c, fieldCase env ⟨line, []⟩ = some c → c.reports line = false) ∧
      (isConffileLine env s line = true → (scanConffile line).isSome)

theorem isSome_valueAt (r : FieldReader) (line : CStr) : (r.valueAt line).isSome ↔ r.Fits line := by
  cases r with
  | none => exact iff_of_true rfl trivial
  | whole => exact iff_of_true rfl trivial
  | simple type =>
      rw [FieldReader.valueAt, parseSimpleAt_eq type line [], FieldReader.Fits]
      split_ifs <;> simp_all
  | list =>
      rw [FieldReader.valueAt, parseListAt_eq (by decide) line [], FieldReader.Fits]
      split_ifs <;> simp_all

/-- A field does not begin with a blank. -/
theorem head_ne_blank_of_fieldCase {line : CStr} {c : FieldCase} (hc : fieldCase env ⟨line, []⟩ = some c) :
    line.head? ≠ some ' ' := by
  obtain ⟨a, ha, halpha⟩ := isalpha_head_of_fieldCase hc
  intro hblank
  obtain rfl : ' ' = a := Option.some.inj (hblank.symm.trans ha)
  cases halpha

theorem head_of_isConffileLine {s : ReadState} {line : CStr} (h : isConffileLine env s line = true) :
    line.head? = some ' ' := by
  simp only [isConffileLine, Bool.and_eq_true, decide_eq_true_eq] at h
  exact h.1.1

/-- **A field** is read without an error. -/
theorem isSome_pkgParseLineAt_field (printsNull : Bool) (s : ReadState) {line : CStr} {c : FieldCase}
    (hc : fieldCase env ⟨line, []⟩ = some c) :
    (pkgParseLineAt printsNull env s line).isSome ↔ LineOk printsNull env s line := by
  have hblank := head_ne_blank_of_fieldCase hc
  have hok : LineOk printsNull env s line ↔
      c.reader.Fits line ∧ ((s.read.named || printsNull) = true ∨ c.reports line = false) := by
    constructor
    · intro h
      refine ⟨h.field c hc, ?_⟩
      rcases h.reports with hnamed | hprints | hreports
      · simp [hnamed]
      · simp [hprints]
      · exact Or.inr (hreports.1 c hc)
    · rintro ⟨hfits, hreports⟩
      have hsame : ∀ c', fieldCase env ⟨line, []⟩ = some c' → c = c' := fun c' hc' =>
        Option.some.inj (hc.symm.trans hc')
      refine ⟨fun c' hc' => hsame c' hc' ▸ hfits, fun h => absurd h hblank, ?_⟩
      rcases hreports with hmay | hreports
      · rw [Bool.or_eq_true] at hmay
        exact hmay.imp id Or.inl
      · exact Or.inr (Or.inr ⟨fun c' hc' => hsame c' hc' ▸ hreports,
          fun h => absurd (head_of_isConffileLine h) hblank⟩)
  rw [hok, ← isSome_valueAt, pkgParseLineAt, hc]
  dsimp only
  cases c.reader.valueAt line with
  | none => simp
  | some value =>
      cases c.reports line <;> cases s.read.named || printsNull <;> simp

/-- What is done with a line that is no field. -/
theorem isSome_pkgParseOther (s : ReadState) (line : CStr) :
    (pkgParseOther env s ⟨line, []⟩).1.isSome ↔ (line.head? = some ' ' → env.masked .description = false →
      s.flags.description = true → s.read.pkg.description.isSome) := by
  rw [pkgParseOther]
  dsimp only
  by_cases hblank : line.head? = some ' '
  · rw [if_pos hblank]
    cases env.masked .description <;> cases s.flags.description <;>
      cases env.masked .conffiles <;> cases s.flags.conffiles <;> simp [hblank]
  · rw [if_neg hblank]
    simp [hblank]

/-- **A line is read without an error** exactly when it is fine. -/
theorem isSome_pkgParseLineAt (printsNull : Bool) (s : ReadState) (line : CStr) :
    (pkgParseLineAt printsNull env s line).isSome ↔ LineOk printsNull env s line := by
  cases hc : fieldCase env ⟨line, []⟩ with
  | some c => exact isSome_pkgParseLineAt_field printsNull s hc
  | none =>
      have hok : LineOk printsNull env s line ↔ (pkgParseOther env s ⟨line, []⟩).1.isSome ∧
          ((s.read.named || printsNull) = true ∨
            (isConffileLine env s line = true → (scanConffile line).isSome)) := by
        rw [isSome_pkgParseOther, Bool.or_eq_true]
        constructor
        · rintro ⟨-, hdescription, hreports⟩
          refine ⟨hdescription, ?_⟩
          rcases hreports with hnamed | hprints | hreports
          · exact Or.inl (Or.inl hnamed)
          · exact Or.inl (Or.inr hprints)
          · exact Or.inr hreports.2
        · rintro ⟨hdescription, hreports⟩
          have hnone : ∀ c, fieldCase env ⟨line, []⟩ ≠ some c := fun c h => by
            rw [hc] at h
            cases h
          refine ⟨fun c h => absurd h (hnone c), hdescription, ?_⟩
          rcases hreports with (h | h) | h
          · exact Or.inl h
          · exact Or.inr (Or.inl h)
          · exact Or.inr (Or.inr ⟨fun c h => absurd h (hnone c), h⟩)
      rw [hok, pkgParseLineAt, hc]
      dsimp only
      have hmatch : (match pkgParseOther env s ⟨line, []⟩ with
          | (some s', ret) => some (s', ret)
          | (none, _) => none).isSome = (pkgParseOther env s ⟨line, []⟩).1.isSome := by
        rcases pkgParseOther env s ⟨line, []⟩ with ⟨s', ret⟩
        cases s' <;> rfl
      cases s.read.named || printsNull with
      | true => simp [hmatch]
      | false =>
          cases isConffileLine env s line <;> cases (scanConffile line).isSome <;> simp [hmatch]

end

/-! ## A package -/

/-- The lines of a package, up to one that ends it. -/
def readLinesAt (printsNull : Bool) (env : ParseEnv) : ReadState → List CStr → Option ReadState
  | s, [] => some s
  | s, line :: lines =>
    match pkgParseLineAt printsNull env s line with
    | none => none
    | some (s', ret) => if ret then some s' else readLinesAt printsNull env s' lines

/-- The strings that `buildDepends` and `buildConflicts` give to `parseDepends`. -/
def dependStrings (pkg : Pkg) : List CStr :=
  pkg.preDependsStr ++ pkg.dependsStr ++ pkg.recommendsStr ++ pkg.suggestsStr ++ pkg.conflictsStr

/-- The package before its first line. The flags are those that the package before it has left. -/
def beforeLines (fresh : Pkg) (flags : ReadingFlags) : ReadState := ⟨⟨fresh, false⟩, flags⟩

/-- **Control parsing stays inside its buffers**: the lines are read and the package is inserted without an
error. -/
def ControlSafe (printsNull : Bool) (env : ParseEnv) (fresh : Pkg) (flags : ReadingFlags) (lines : List CStr) :
    Prop :=
  ∃ s, readLinesAt printsNull env (beforeLines fresh flags) lines = some s ∧
    ∀ dependStr ∈ dependStrings s.read.pkg, (parseDependsAt dependStr).isSome

/-- Every line that is read is fine in the state it is read in, and what is inserted at the end has tokens that
fit. -/
def LinesOk (printsNull : Bool) (env : ParseEnv) : ReadState → List CStr → Prop
  | s, [] => ∀ dependStr ∈ dependStrings s.read.pkg, TokensFit dependStr
  | s, line :: lines =>
    LineOk printsNull env s line ∧ ∀ s' ret, pkgParseLine env (some s) ⟨line, []⟩ = (some s', ret) →
      if ret then ∀ dependStr ∈ dependStrings s'.read.pkg, TokensFit dependStr
      else LinesOk printsNull env s' lines

section

variable {env : ParseEnv} {printsNull : Bool}

/-- The strings of a package that is inserted. -/
theorem forall_isSome_parseDependsAt (pkg : Pkg) :
    (∀ dependStr ∈ dependStrings pkg, (parseDependsAt dependStr).isSome) ↔
      ∀ dependStr ∈ dependStrings pkg, TokensFit dependStr :=
  forall₂_congr fun dependStr _ => isSome_parseDependsAt dependStr

/-- A run over the lines, one line after the other. -/
theorem exists_readLinesAt_iff (lines : List CStr) : ∀ s : ReadState,
    (∃ s', readLinesAt printsNull env s lines = some s' ∧
      ∀ dependStr ∈ dependStrings s'.read.pkg, (parseDependsAt dependStr).isSome) ↔
      LinesOk printsNull env s lines := by
  induction lines with
  | nil =>
      intro s
      rw [LinesOk, ← forall_isSome_parseDependsAt]
      constructor
      · rintro ⟨s', hs', hall⟩
        obtain rfl : s = s' := Option.some.inj hs'
        exact hall
      · exact fun hall => ⟨s, rfl, hall⟩
  | cons line lines ih =>
      intro s
      rw [LinesOk, ← isSome_pkgParseLineAt, readLinesAt]
      cases hline : pkgParseLineAt printsNull env s line with
      | none => exact iff_of_false (by simp) (by simp)
      | some found =>
          obtain ⟨s', ret⟩ := found
          have hparse := pkgParseLineAt_eq hline []
          have hnext : (∀ s'' ret', pkgParseLine env (some s) ⟨line, []⟩ = (some s'', ret') →
              if ret' then ∀ dependStr ∈ dependStrings s''.read.pkg, TokensFit dependStr
              else LinesOk printsNull env s'' lines) ↔
              if ret then ∀ dependStr ∈ dependStrings s'.read.pkg, TokensFit dependStr
              else LinesOk printsNull env s' lines := by
            constructor
            · exact fun h => h s' ret hparse
            · intro h s'' ret' hparse'
              obtain ⟨hs, rfl⟩ := Prod.mk.inj (hparse.symm.trans hparse')
              obtain rfl : s' = s'' := Option.some.inj hs
              exact h
          rw [hnext, Option.isSome_some, eq_self, true_and]
          dsimp only
          cases ret with
          | true =>
              simp only [if_true, Option.some.injEq, exists_eq_left']
              exact forall_isSome_parseDependsAt s'.read.pkg
          | false => exact ih s'

end

end FirmwareTools.Opkg

import FirmwareTools.Opkg.LineReader

/-! # Fields of a line

`parse_util.c`: a field is recognised by the beginning of its line, its value is a text or a list.

* **`isField_iff`** — a line `name:value` is taken for every field whose name begins the line's;
* **`parseSimple_field`**, **`parseList_field`** — what is read of it;
* **`parseList_exact_iff`** — which lists are read exactly. -/

namespace FirmwareTools.Opkg

/-- `is_field`, which compares as many characters as the name has. -/
def isField (type : CStr) (line : Line) : Bool := type.isPrefixOf line.text

/-- The string at a place of the line, or behind its NUL. -/
def Line.stringAt (line : Line) (n : ℕ) : CStr :=
  if n ≤ line.text.length then line.text.drop n else line.behind.drop (n - line.text.length - 1)

/-- `parse_simple` -/
def parseSimple (type : CStr) (line : Line) : CStr := trimXstrdup (line.stringAt (type.length + 1))

/-- The loop of `parse_list`, for the separators that occur: a comma, and a blank. An item is trimmed at
its end only if a blank is what ends it. -/
def splitList (sep : Char) (raw : CStr) : List CStr :=
  if _h : raw = [] then []
  else
    let start := raw.dropWhile isspace
    let item := start.takeWhile (· != sep)
    let rest := start.dropWhile (· != sep)
    (if sep = ' ' ∧ rest ≠ [] then item.rdropWhile isspace else item) :: splitList sep rest.tail
termination_by raw.length
decreasing_by
  have hstart := (List.dropWhile_sublist isspace (l := raw)).length_le
  have hrest := (List.dropWhile_sublist (· != sep) (l := raw.dropWhile isspace)).length_le
  have hpos := List.length_pos_of_ne_nil _h
  rw [List.length_tail]
  omega

/-- What is behind the marker of a field. -/
def fieldValue (line : Line) : CStr := (line.text.dropWhile (· != ':')).tail

/-- `parse_list`; where there is no marker, the string behind the NUL is read. -/
def parseList (line : Line) (sep : Char) (skipField : Bool) : List CStr :=
  let raw := if skipField then line.text else if ':' ∈ line.text then fieldValue line else line.behind
  if lineIsBlank raw then [] else splitList sep raw

/-! ## Lines with a marker -/

theorem isField_iff {type name : CStr} (htype : ':' ∉ type) (value behind : CStr) :
    isField type ⟨name ++ ':' :: value, behind⟩ = true ↔ type <+: name := by
  rw [isField, List.isPrefixOf_iff_prefix]
  refine ⟨fun h => ?_, fun h => h.trans (List.prefix_append _ _)⟩
  rcases List.prefix_or_prefix_of_prefix h (List.prefix_append name (':' :: value)) with hbegin | ⟨t, rfl⟩
  · exact hbegin
  · rw [List.prefix_append_right_inj] at h
    cases t with
    | nil => simp
    | cons c t =>
        -- the marker would be part of the field's name
        obtain ⟨rfl, -⟩ := List.cons_prefix_cons.mp h
        exact absurd (by simp) htype

/-- The value begins one character behind the field's name, whatever the line's name is. -/
theorem parseSimple_field {type name : CStr} (h : type <+: name) (value behind : CStr) :
    parseSimple type ⟨name ++ ':' :: value, behind⟩ =
      trimXstrdup ((name ++ ':' :: value).drop (type.length + 1)) := by
  have hle := h.length_le
  rw [parseSimple, Line.stringAt, if_pos]
  rw [List.length_append, List.length_cons]
  omega

theorem dropWhile_ne_append {c : Char} {l : CStr} (h : c ∉ l) (s : CStr) :
    (l ++ c :: s).dropWhile (· != c) = c :: s := by
  rw [List.dropWhile_append_of_pos, List.dropWhile_cons_of_neg (by simp)]
  intro d hd
  simp only [bne_iff_ne, ne_eq]
  rintro rfl
  exact h hd

theorem parseList_field {name : CStr} (hname : ':' ∉ name) (value behind : CStr) (sep : Char) :
    parseList ⟨name ++ ':' :: value, behind⟩ sep false =
      if lineIsBlank value then [] else splitList sep value := by
  have hvalue : fieldValue ⟨name ++ ':' :: value, behind⟩ = value := by
    rw [fieldValue, dropWhile_ne_append hname]
    rfl
  simp [parseList, hvalue]

/-! ## Lists -/

/-- An item of a list with the white space around it. -/
structure ListItem where
  before : CStr := []
  token : CStr
  behind : CStr := []

def ListItem.text (x : ListItem) : CStr := x.before ++ x.token ++ x.behind

/-- There is white space around the token, and none at its ends, nor anywhere in it where a blank is the
separator. -/
@[mk_iff]
structure ListItem.Ok (sep : Char) (x : ListItem) : Prop where
  before : ∀ c ∈ x.before, isspace c = true
  behind : ∀ c ∈ x.behind, isspace c = true
  nonempty : x.token ≠ []
  head : ∀ c ∈ x.token.head?, isspace c = false
  last : ∀ c ∈ x.token.getLast?, isspace c = false
  noSep : sep ∉ x.token
  inside : sep = ' ' → ∀ c ∈ x.token, isspace c = false

-- the characters are gone through in the texts, as there are too many of them for the quantifiers
instance (sep : Char) (x : ListItem) : Decidable (x.Ok sep) :=
  decidable_of_iff (x.before.all isspace ∧ x.behind.all isspace ∧ x.token ≠ [] ∧
      x.token.head?.all (!isspace ·) ∧ x.token.getLast?.all (!isspace ·) ∧ sep ∉ x.token ∧
      (sep = ' ' → x.token.all (!isspace ·))) (by simp [ListItem.ok_iff, Option.all_eq_true])

/-- The items with the separators between them. -/
def listText (sep : Char) (items : List ListItem) : CStr :=
  List.intercalate [sep] (items.map ListItem.text)

/-- What must not be behind the tokens: any white space where a comma is the separator; a blank that
something follows, or other white space without a blank, where a blank is the separator. -/
def ReadExactly (sep : Char) (items : List ListItem) : Prop :=
  if sep = ',' then ∀ x ∈ items, x.behind = []
  else ∀ x ∈ items.getLast?, x.behind = [] ∨ ∃ spaces, ' ' ∉ spaces ∧ x.behind = spaces ++ [' ']

section

variable {sep : Char} {x : ListItem} {items : List ListItem}

theorem dropWhile_isspace_append {s t : CStr} (hs : ∀ c ∈ s, isspace c = true) :
    (s ++ t).dropWhile isspace = t.dropWhile isspace := List.dropWhile_append_of_pos hs

/-- The white space in front of a token is skipped. -/
theorem ListItem.Ok.dropWhile (hx : x.Ok sep) (w : CStr) (hw : ∀ c ∈ w, isspace c = true) (s : CStr) :
    (w ++ (x.text ++ s)).dropWhile isspace = x.token ++ x.behind ++ s := by
  rw [ListItem.text, dropWhile_isspace_append hw, List.append_assoc, List.append_assoc,
    dropWhile_isspace_append hx.before, ← List.append_assoc]
  cases htoken : x.token with
  | nil => exact absurd htoken hx.nonempty
  | cons c token =>
      have hc := hx.head c (by rw [htoken]; rfl)
      rw [List.cons_append, List.cons_append, List.dropWhile_cons_of_neg (by rw [hc]; decide)]

theorem splitList_cons (sep : Char) {raw : CStr} (h : raw ≠ []) : splitList sep raw =
    (if sep = ' ' ∧ (raw.dropWhile isspace).dropWhile (· != sep) ≠ [] then
      ((raw.dropWhile isspace).takeWhile (· != sep)).rdropWhile isspace
    else (raw.dropWhile isspace).takeWhile (· != sep)) ::
      splitList sep ((raw.dropWhile isspace).dropWhile (· != sep)).tail := by
  rw [splitList, dif_neg h]

theorem splitList_nil (sep : Char) : splitList sep [] = [] := by rw [splitList, dif_pos rfl]

theorem ListItem.Ok.text_ne_nil (hx : x.Ok sep) (w s : CStr) : w ++ (x.text ++ s) ≠ [] := by
  intro hnil
  simp only [ListItem.text, List.append_eq_nil_iff] at hnil
  exact hx.nonempty hnil.2.1.1.2

theorem listText_cons (sep : Char) (x y : ListItem) (items : List ListItem) :
    listText sep (x :: y :: items) = x.text ++ sep :: listText sep (y :: items) := by
  rw [listText, List.map_cons, List.map_cons, List.intercalate_cons_cons, List.append_assoc,
    List.singleton_append]
  rfl

theorem listText_singleton (sep : Char) (x : ListItem) : listText sep [x] = x.text :=
  List.intercalate_singleton

/-- What ends a token is trimmed away. -/
theorem ListItem.Ok.rdropWhile (hx : x.Ok sep) {s : CStr} (hs : ∀ c ∈ s, isspace c = true) :
    (x.token ++ s).rdropWhile isspace = x.token := by
  rw [List.rdropWhile, List.reverse_append,
    dropWhile_isspace_append fun c hc => hs c (List.mem_reverse.mp hc)]
  have hhead : ∀ c ∈ x.token.reverse.head?, isspace c = false := by
    rw [List.head?_reverse]
    exact hx.last
  cases htoken : x.token.reverse with
  | nil => rw [List.dropWhile_nil, ← htoken, List.reverse_reverse]
  | cons c token =>
      have hc := hhead c (by rw [htoken]; rfl)
      rw [List.dropWhile_cons_of_neg (by rw [hc]; decide), ← htoken, List.reverse_reverse]

/-- **Between commas**: what is behind a token is not trimmed. -/
theorem splitList_comma (hitems : ∀ x ∈ items, x.Ok ',') (hne : items ≠ []) :
    splitList ',' (listText ',' items) = items.map fun x => x.token ++ x.behind := by
  induction items with
  | nil => exact absurd rfl hne
  | cons x items ih =>
      rw [List.forall_mem_cons] at hitems
      have hx := hitems.1
      have hcomma : ',' ∉ x.token ++ x.behind := by
        rw [List.mem_append, not_or]
        exact ⟨hx.noSep, fun hmem => absurd (hx.behind ',' hmem) (by decide)⟩
      have hnil : ∀ c ∈ ([] : CStr), isspace c = true := fun c hc => absurd hc List.not_mem_nil
      cases items with
      | nil =>
          have hdrop := hx.dropWhile [] hnil []
          rw [List.nil_append, List.append_nil, List.append_nil] at hdrop
          have hraw : x.text ≠ [] := by simpa using hx.text_ne_nil [] []
          have hend : (x.token ++ x.behind).dropWhile (· != ',') = [] := by
            rw [List.dropWhile_eq_nil_iff]
            intro c hc
            rw [bne_iff_ne]
            rintro rfl
            exact hcomma hc
          rw [listText_singleton, splitList_cons ',' hraw, hdrop, takeWhile_ne_eq_self hcomma, hend,
            List.tail_nil, splitList_nil, if_neg (fun h => absurd h.1 (by decide))]
          rfl
      | cons y items =>
          have hdrop := hx.dropWhile [] hnil (',' :: listText ',' (y :: items))
          rw [List.nil_append] at hdrop
          have hraw := hx.text_ne_nil [] (',' :: listText ',' (y :: items))
          rw [List.nil_append] at hraw
          rw [listText_cons, splitList_cons ',' hraw, hdrop, takeWhile_ne_append hcomma,
            dropWhile_ne_append hcomma, List.tail_cons, ih hitems.2 (List.cons_ne_nil _ _),
            if_neg (fun h => absurd h.1 (by decide))]
          rfl

/-- What is read of the last item, where a blank is the separator. -/
def lastRead (x : ListItem) : List CStr :=
  if x.behind = [] then [x.token]
  else if ' ' ∉ x.behind then [x.token ++ x.behind]
  else if (x.behind.dropWhile (· != ' ')).tail = [] then [x.token]
  else [x.token, []]

theorem splitList_last (hx : x.Ok ' ') (w : CStr) (hw : ∀ c ∈ w, isspace c = true) :
    splitList ' ' (w ++ x.text) = lastRead x := by
  have hraw : w ++ x.text ≠ [] := by simpa using hx.text_ne_nil w []
  have hdrop := hx.dropWhile w hw []
  rw [List.append_nil, List.append_nil] at hdrop
  rw [splitList_cons ' ' hraw, hdrop]
  by_cases hblank : ' ' ∈ x.behind
  · -- the blank ends the token
    obtain ⟨u, rest, hsplit, hu⟩ := List.eq_append_cons_of_mem hblank
    have hspaces : ∀ c ∈ u, isspace c = true := fun c hc => hx.behind c (by
      rw [hsplit]
      exact List.mem_append_left _ hc)
    have hrest : ∀ c ∈ rest, isspace c = true := fun c hc => hx.behind c (by
      rw [hsplit]
      exact List.mem_append_right _ (List.mem_cons_of_mem _ hc))
    have hno : ' ' ∉ x.token ++ u := by
      rw [List.mem_append, not_or]
      exact ⟨hx.noSep, hu⟩
    have hread : lastRead x = if rest = [] then [x.token] else [x.token, []] := by
      rw [lastRead, if_neg (List.ne_nil_of_mem hblank), if_neg (not_not_intro hblank), hsplit,
        dropWhile_ne_append hu, List.tail_cons]
    rw [hread, hsplit, ← List.append_assoc, takeWhile_ne_append hno, dropWhile_ne_append hno,
      if_pos ⟨rfl, List.cons_ne_nil _ _⟩, hx.rdropWhile hspaces, List.tail_cons]
    by_cases hend : rest = []
    · rw [hend, splitList_nil, if_pos rfl]
    · have hskip : rest.dropWhile isspace = [] := List.dropWhile_eq_nil_iff.mpr hrest
      rw [if_neg hend, splitList_cons ' ' hend, hskip]
      simp [splitList_nil]
  · have hno : ' ' ∉ x.token ++ x.behind := by
      rw [List.mem_append, not_or]
      exact ⟨hx.noSep, hblank⟩
    have hend : (x.token ++ x.behind).dropWhile (· != ' ') = [] := by
      rw [List.dropWhile_eq_nil_iff]
      intro c hc
      rw [bne_iff_ne]
      rintro rfl
      exact hno hc
    rw [hend, takeWhile_ne_eq_self hno, if_neg (fun h => h.2 rfl), List.tail_nil, splitList_nil,
      lastRead, if_pos hblank]
    by_cases hbehind : x.behind = []
    · rw [if_pos hbehind, hbehind, List.append_nil]
    · rw [if_neg hbehind]

/-- **Between blanks**: all tokens but the last one are read as they are. -/
theorem splitList_blank (hitems : ∀ x ∈ items, x.Ok ' ') (w : CStr) (hw : ∀ c ∈ w, isspace c = true)
    (hx : x.Ok ' ') :
    splitList ' ' (w ++ listText ' ' (items ++ [x])) = items.map ListItem.token ++ lastRead x := by
  induction items generalizing w with
  | nil =>
      rw [List.nil_append, listText_singleton]
      exact splitList_last hx w hw
  | cons y items ih =>
      rw [List.forall_mem_cons] at hitems
      obtain ⟨hy, hitems⟩ := hitems
      obtain ⟨z, rest, hz⟩ : ∃ z rest, items ++ [x] = z :: rest := by
        cases items with
        | nil => exact ⟨x, [], rfl⟩
        | cons z rest => exact ⟨z, rest ++ [x], rfl⟩
      -- up to the first blank, and the white space behind it
      obtain ⟨u, w', hu, hw', hspaces, hsplit⟩ : ∃ u w' : CStr, ' ' ∉ u ∧
          (∀ c ∈ w', isspace c = true) ∧ (∀ c ∈ u, isspace c = true) ∧
          y.behind ++ [' '] = u ++ ' ' :: w' := by
        have hmem : ' ' ∈ y.behind ++ [' '] := List.mem_append_right _ (List.mem_singleton_self _)
        obtain ⟨u, w', hsplit, hu⟩ := List.eq_append_cons_of_mem hmem
        have hall : ∀ c ∈ u ++ ' ' :: w', isspace c = true := by
          rw [← hsplit, List.forall_mem_append, List.forall_mem_singleton]
          exact ⟨hy.behind, rfl⟩
        rw [List.forall_mem_append, List.forall_mem_cons] at hall
        exact ⟨u, w', hu, hall.2.2, hall.1, hsplit⟩
      have hno : ' ' ∉ y.token ++ u := by
        rw [List.mem_append, not_or]
        exact ⟨hy.noSep, hu⟩
      have hdrop := hy.dropWhile w hw (' ' :: listText ' ' (items ++ [x]))
      have hstart : y.token ++ y.behind ++ ' ' :: listText ' ' (items ++ [x]) =
          (y.token ++ u) ++ ' ' :: (w' ++ listText ' ' (items ++ [x])) := by
        have hassoc := congrArg (y.token ++ · ++ listText ' ' (items ++ [x])) hsplit
        simpa only [List.append_assoc, List.cons_append, List.nil_append] using hassoc
      rw [hstart] at hdrop
      rw [List.cons_append, hz, listText_cons, ← hz,
        splitList_cons ' ' (hy.text_ne_nil w (' ' :: listText ' ' (items ++ [x]))), hdrop,
        takeWhile_ne_append hno, dropWhile_ne_append hno, if_pos ⟨rfl, by simp⟩,
        hy.rdropWhile hspaces, List.tail_cons, ih hitems w' hw']
      rfl

theorem lastRead_eq_iff : lastRead x = [x.token] ↔
    x.behind = [] ∨ ∃ spaces, ' ' ∉ spaces ∧ x.behind = spaces ++ [' '] := by
  rw [lastRead]
  by_cases hbehind : x.behind = []
  · simp [hbehind]
  rw [if_neg hbehind]
  by_cases hblank : ' ' ∈ x.behind
  · rw [if_neg (not_not_intro hblank)]
    obtain ⟨u, rest, hsplit, hu⟩ := List.eq_append_cons_of_mem hblank
    rw [hsplit, dropWhile_ne_append hu, List.tail_cons]
    by_cases hrest : rest = []
    · rw [if_pos hrest, hrest]
      exact iff_of_true rfl (Or.inr ⟨u, hu, rfl⟩)
    · rw [if_neg hrest]
      refine iff_of_false (by simp) ?_
      rintro (hnil | ⟨spaces, hspaces, heq⟩)
      · simp at hnil
      · -- the first blank would be the last character
        have hfirst := congrArg (List.dropWhile (· != ' ')) heq
        rw [dropWhile_ne_append hu, dropWhile_ne_append hspaces] at hfirst
        exact hrest (List.cons.inj hfirst).2
  · rw [if_pos hblank]
    refine iff_of_false (by simp [hbehind]) ?_
    rintro (hnil | ⟨spaces, -, heq⟩)
    · exact hbehind hnil
    · rw [heq] at hblank
      exact hblank (List.mem_append_right _ (List.mem_singleton_self _))

theorem not_lineIsBlank_listText (hitems : ∀ x ∈ items, x.Ok sep) (hne : items ≠ []) :
    lineIsBlank (listText sep items) = false := by
  obtain ⟨x, items, rfl⟩ := List.exists_cons_of_ne_nil hne
  have hx := hitems x List.mem_cons_self
  obtain ⟨c, token, htoken⟩ := List.exists_cons_of_ne_nil hx.nonempty
  have hc := hx.head c (by rw [htoken]; rfl)
  have hmem : c ∈ listText sep (x :: items) := by
    have htext : c ∈ x.text := by simp [ListItem.text, htoken]
    cases items with
    | nil => rwa [listText_singleton]
    | cons y items =>
        rw [listText_cons]
        exact List.mem_append_left _ htext
  rw [lineIsBlank, List.all_eq_false]
  exact ⟨c, hmem, by rw [hc]; decide⟩

end

/-- **A list is read exactly** when nothing stands behind its tokens that the code does not trim. -/
theorem parseList_exact_iff {name : CStr} (hname : ':' ∉ name) {sep : Char} (hsep : sep = ',' ∨ sep = ' ')
    {items : List ListItem} (hitems : ∀ x ∈ items, x.Ok sep) (behind : CStr) :
    parseList ⟨name ++ ':' :: listText sep items, behind⟩ sep false = items.map ListItem.token ↔
      ReadExactly sep items := by
  rw [parseList_field hname, ReadExactly]
  rcases List.eq_nil_or_concat items with rfl | ⟨init, x, rfl⟩
  · have hblank : lineIsBlank (listText sep []) = true := rfl
    rw [if_pos hblank]
    refine iff_of_true rfl ?_
    split_ifs
    · exact fun x hx => absurd hx List.not_mem_nil
    · exact fun x hx => absurd hx (by simp)
  · rw [List.concat_eq_append] at hitems ⊢
    rw [not_lineIsBlank_listText hitems (by simp), if_neg Bool.false_ne_true]
    rcases hsep with rfl | rfl
    · rw [if_pos rfl, splitList_comma hitems (by simp), List.map_inj_left]
      refine forall₂_congr fun y _ => ?_
      rw [List.append_right_eq_self]
    · have hsplit := splitList_blank (fun y hy => hitems y (List.mem_append_left _ hy)) []
        (fun c hc => absurd hc List.not_mem_nil)
        (hitems x (List.mem_append_right _ (List.mem_singleton_self x)))
      rw [List.nil_append] at hsplit
      rw [if_neg (by decide), hsplit, List.map_append, List.append_cancel_left_eq, List.map_singleton,
        lastRead_eq_iff]
      simp

/-- White space in front of tokens only. -/
theorem parseList_exact_provides :
    parseList ⟨"Provides: a, b".toList, []⟩ ',' false = ["a".toList, "b".toList] := by
  refine (@parseList_exact_iff "Provides".toList (by decide) ',' (Or.inl rfl)
    [⟨" ".toList, "a".toList, []⟩, ⟨" ".toList, "b".toList, []⟩] ?_ []).mpr ?_
  · decide +kernel
  · rw [ReadExactly, if_pos rfl]
    decide

/-- A blank in front of a comma becomes part of a name. -/
theorem not_parseList_exact_blank :
    ¬ ∀ (name : CStr) (sep : Char) (items : List ListItem), ':' ∉ name → sep = ',' ∨ sep = ' ' →
      (∀ x ∈ items, x.Ok sep) →
        parseList ⟨name ++ ':' :: listText sep items, []⟩ sep false = items.map ListItem.token := by
  intro h
  have hread := h "Provides".toList ',' [⟨" ".toList, "a".toList, " ".toList⟩, ⟨" ".toList, "b".toList, []⟩]
    (by decide) (Or.inl rfl) (by decide +kernel)
  exact absurd hread (by decide +kernel)

end FirmwareTools.Opkg

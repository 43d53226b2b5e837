import FirmwareTools.Opkg.CString

/-! # Reading lines

`parse_from_stream_nomalloc` reads a stream with `fgets`, doubles its buffer where a line does not fit,
and passes each line to a parser until that says that it is done.

* **`readLoop_line`**, **`readLoop_last`** — what becomes of one line;
* **`parseFromStreamNomalloc_eq`** — the lines of a text are passed on one after the other;
* **`parseFromStreamNomalloc_short`** — of a text with short lines only a last line without a newline can
  be missed: one that fills the buffer exactly;
* **`parseFromStreamNomalloc_item`** — what is read of a text with lines of any length;
* **`delivers_iff`** — when a parser is called with every line. -/

namespace FirmwareTools.Opkg

/-- A stream: what is left of it, and whether its end was met (`feof`). -/
structure Stream where
  rest : CStr
  eof : Bool := false
  deriving DecidableEq, Repr

/-- What `fgets` copies: at most `n` characters, up to a newline or the end. -/
def takeLine : ℕ → CStr → CStr
  | 0, _ => []
  | _ + 1, [] => []
  | n + 1, c :: s => if c = '\n' then [c] else c :: takeLine n s

/-- `fgets(buf, n, fp)`, without read errors. -/
def fgets (n : ℕ) (fp : Stream) : Option CStr × Stream :=
  let chunk := takeLine (n - 1) fp.rest
  -- the end is met where more was asked for
  let eof := chunk.length < n - 1 && chunk.getLast? != some '\n'
  (if eof && chunk.isEmpty then none else some chunk, ⟨fp.rest.drop chunk.length, fp.eof || eof⟩)

/-- A line as it stands in the buffer. `behind` is the string that begins behind its NUL: for a line that
had a newline the empty one, otherwise what was left in the buffer. -/
structure Line where
  text : CStr
  behind : CStr := []
  deriving DecidableEq, Repr

/-- `EXCESSIVE_LINE_LEN` -/
def excessiveLineLen : ℕ := 4096 * 2 ^ 8

section

variable {σ : Type*} (parseLine : σ → Line → σ × Bool) (behind : CStr)

/-- The loop of `parse_from_stream_nomalloc`: `buf0` is the string that `*buf0` holds so far, and
`buflen` the room for what is read next. -/
def readLoop : ℕ → CStr → ℕ → ℕ → σ → Stream → σ × Int × Stream
  | 0, _, _, _, item, fp => (item, 0, fp)
  | fuel + 1, buf0, buflen, buf0len, item, fp =>
    match fgets buflen fp with
    | (none, fp) =>
      if buf0.length = buf0len - 1 then ((parseLine item ⟨buf0, behind⟩).1, 0, fp) else (item, 0, fp)
    | (some chunk, fp) =>
      let buf := chunk.takeWhile (· != '\x00')
      if '\n' ∉ buf then
        if buf.length < buflen - 1 then ((parseLine item ⟨buf0 ++ buf, behind⟩).1, 0, fp)
        else if excessiveLineLen ≤ buf0len then (item, -1, fp)
        else readLoop fuel (buf0 ++ buf) (buf0len + 1) (2 * buf0len) item fp
      else
        match parseLine item ⟨buf0 ++ buf.takeWhile (· != '\n'), []⟩ with
        | (item, true) => (item, 0, fp)
        | (item, false) => readLoop fuel [] buf0len buf0len item fp

/-- `parse_from_stream_nomalloc`: the item, the result, and what is left of the stream. -/
def parseFromStreamNomalloc (buf0len : ℕ) (item : σ) (fp : Stream) : σ × Int × Stream :=
  readLoop parseLine behind (fp.rest.length + 2) [] buf0len buf0len item fp

end

/-! ## Lines of a text -/

/-- No newline, and no NUL. -/
def IsLine (l : CStr) : Prop := '\n' ∉ l ∧ '\x00' ∉ l

instance (l : CStr) : Decidable (IsLine l) := inferInstanceAs (Decidable (_ ∧ _))

/-- A text: lines with a newline each, and what is behind the last newline. -/
def textOf (lines : List CStr) (last : CStr) : CStr := lines.flatMap (· ++ ['\n']) ++ last

@[simp] theorem textOf_nil (last : CStr) : textOf [] last = last := rfl

theorem textOf_cons (l : CStr) (lines : List CStr) (last : CStr) :
    textOf (l :: lines) last = l ++ '\n' :: textOf lines last := by
  simp [textOf]

theorem takeLine_line {n : ℕ} {l : CStr} (hl : '\n' ∉ l) (hlen : l.length < n) (s : CStr) :
    takeLine n (l ++ '\n' :: s) = l ++ ['\n'] := by
  induction l generalizing n with
  | nil =>
      cases n with
      | zero => cases hlen
      | succ n => simp [takeLine]
  | cons c l ih =>
      cases n with
      | zero => cases hlen
      | succ n =>
          rw [List.mem_cons, not_or] at hl
          rw [List.cons_append, takeLine, if_neg (Ne.symm hl.1), ih hl.2 (Nat.lt_of_succ_lt_succ hlen)]
          rfl

theorem takeLine_short {n : ℕ} {l : CStr} (hl : '\n' ∉ l) (hlen : l.length ≤ n) : takeLine n l = l := by
  induction l generalizing n with
  | nil => cases n <;> rfl
  | cons c l ih =>
      cases n with
      | zero => simp at hlen
      | succ n =>
          rw [List.mem_cons, not_or] at hl
          rw [takeLine, if_neg (Ne.symm hl.1), ih hl.2 (Nat.le_of_succ_le_succ hlen)]

theorem takeLine_full {n : ℕ} {l : CStr} (hl : '\n' ∉ l) (hlen : n ≤ l.length) (s : CStr) :
    takeLine n (l ++ s) = l.take n := by
  induction l generalizing n with
  | nil =>
      obtain rfl := Nat.le_zero.mp hlen
      rfl
  | cons c l ih =>
      cases n with
      | zero => rfl
      | succ n =>
          rw [List.mem_cons, not_or] at hl
          rw [List.cons_append, takeLine, if_neg (Ne.symm hl.1), ih hl.2 (Nat.le_of_succ_le_succ hlen),
            List.take_succ_cons]

/-! ## `fgets` on a text -/

section

variable {n : ℕ} {l s : CStr} {eof : Bool}

/-- A line that fits is read with its newline. -/
theorem fgets_line (hl : '\n' ∉ l) (hlen : l.length + 1 < n) :
    fgets n ⟨l ++ '\n' :: s, eof⟩ = (some (l ++ ['\n']), ⟨s, eof⟩) := by
  have htake := takeLine_line hl (show l.length < n - 1 by omega) s
  simp [fgets, htake]

/-- A line that does not fit fills the buffer. -/
theorem fgets_full (hl : '\n' ∉ l) (hn : 1 < n) (hlen : n ≤ l.length + 1) :
    fgets n ⟨l ++ s, eof⟩ = (some (l.take (n - 1)), ⟨l.drop (n - 1) ++ s, eof⟩) := by
  have hle : n - 1 ≤ l.length := by omega
  have htake := takeLine_full hl hle s
  have hlength : (l.take (n - 1)).length = n - 1 := List.length_take_of_le hle
  have hdrop : (l ++ s).drop (n - 1) = l.drop (n - 1) ++ s := List.drop_append_of_le_length hle
  simp [fgets, htake, hlength, hdrop]

/-- What is behind the last newline, if it fits. -/
theorem fgets_last (hl : '\n' ∉ l) (hlen : l.length + 1 < n) :
    fgets n ⟨l, eof⟩ = (if l = [] then none else some l, ⟨[], true⟩) := by
  have htake := takeLine_short hl (show l.length ≤ n - 1 by omega)
  have hlast : l.getLast? ≠ some '\n' := fun h => hl (List.mem_of_getLast? h)
  have hlt : l.length < n - 1 := by omega
  simp [fgets, htake, hlast, hlt]

end

/-! ## One line -/

/-- The buffer behind a line with a newline, by the length of the line; the buffer at which the program
gives up. -/
def lineEnd (buf0len n : ℕ) : Except ℕ ℕ :=
  if n + 1 < buf0len then .ok buf0len
  else if _h : buf0len = 0 ∨ excessiveLineLen ≤ buf0len then .error buf0len
  else lineEnd (2 * buf0len) n
termination_by excessiveLineLen - buf0len
decreasing_by omega

/-- What becomes of what is behind the last newline. -/
inductive LastEnd
  | read
  | lost
  | excessive (buf0len : ℕ)
  deriving DecidableEq, Repr

/-- What becomes of what is behind the last newline, by its length. -/
def lastEnd (buf0len n : ℕ) : LastEnd :=
  if n + 1 < buf0len then .read
  else if _h : buf0len = 0 ∨ excessiveLineLen ≤ buf0len then .excessive buf0len
  else if n + 1 = buf0len then .lost
  else lastEnd (2 * buf0len) n
termination_by excessiveLineLen - buf0len
decreasing_by omega

section

variable {σ : Type*} {parseLine : σ → Line → σ × Bool} {behind : CStr} {item : σ} {eof : Bool}

theorem takeWhile_ne_eq_self {c : Char} {l : CStr} (h : c ∉ l) : l.takeWhile (· != c) = l := by
  refine List.takeWhile_eq_self_iff.mpr fun d hd => ?_
  simp only [bne_iff_ne, ne_eq]
  rintro rfl
  exact h hd

theorem takeWhile_ne_append {c : Char} {l : CStr} (h : c ∉ l) (s : CStr) :
    (l ++ c :: s).takeWhile (· != c) = l := by
  rw [List.takeWhile_append_of_pos, List.takeWhile_cons_of_neg (by simp), List.append_nil]
  intro d hd
  simp only [bne_iff_ne, ne_eq]
  rintro rfl
  exact h hd

/-- What is left of a line when a part of it is in the buffer. -/
theorem isLine_append {l l' : CStr} : IsLine (l ++ l') ↔ IsLine l ∧ IsLine l' := by
  simp only [IsLine, List.mem_append, not_or]
  tauto

/-- One round in which the rest of the line fits. -/
theorem readLoop_fits {fuel buf0len : ℕ} {buf0 l : CStr} (hl : IsLine l)
    (hroom : buf0.length + l.length + 1 < buf0len) (s : CStr) :
    readLoop parseLine behind (fuel + 1) buf0 (buf0len - buf0.length) buf0len item
        ⟨l ++ '\n' :: s, eof⟩ =
      match parseLine item ⟨buf0 ++ l, []⟩ with
      | (item, true) => (item, 0, ⟨s, eof⟩)
      | (item, false) => readLoop parseLine behind fuel [] buf0len buf0len item ⟨s, eof⟩ := by
  have hfgets := @fgets_line (buf0len - buf0.length) l s eof hl.1 (by omega)
  have hnul : '\x00' ∉ l ++ ['\n'] := by simp [hl.2]
  have htake : (l ++ ['\n']).takeWhile (· != '\n') = l := takeWhile_ne_append hl.1 []
  rw [readLoop, hfgets]
  simp only [takeWhile_ne_eq_self hnul, htake, List.mem_append, List.mem_singleton, or_true,
    not_true_eq_false, if_false]

/-- One round in which the line fills the buffer. -/
theorem readLoop_full {fuel buf0len : ℕ} {buf0 l : CStr} (hl : IsLine l)
    (hroom : buf0.length + 1 < buf0len) (hfull : buf0len ≤ buf0.length + l.length + 1) (s : CStr) :
    readLoop parseLine behind (fuel + 1) buf0 (buf0len - buf0.length) buf0len item ⟨l ++ s, eof⟩ =
      if excessiveLineLen ≤ buf0len then
        (item, -1, ⟨l.drop (buf0len - buf0.length - 1) ++ s, eof⟩)
      else readLoop parseLine behind fuel (buf0 ++ l.take (buf0len - buf0.length - 1)) (buf0len + 1)
        (2 * buf0len) item ⟨l.drop (buf0len - buf0.length - 1) ++ s, eof⟩ := by
  have hfgets := @fgets_full (buf0len - buf0.length) l s eof hl.1 (by omega) (by omega)
  have hsub : ∀ c, c ∉ l → c ∉ l.take (buf0len - buf0.length - 1) := fun c hc h =>
    hc (List.mem_of_mem_take h)
  have hlength : (l.take (buf0len - buf0.length - 1)).length = buf0len - buf0.length - 1 :=
    List.length_take_of_le (by omega)
  rw [readLoop, hfgets]
  simp only [takeWhile_ne_eq_self (hsub _ hl.2), hsub _ hl.1, not_false_eq_true, if_true, hlength,
    Nat.lt_irrefl, if_false]

/-- What is left when the buffer is full. -/
theorem drop_buffer {buf0len : ℕ} {buf0 l s : CStr} (hroom : buf0.length + 1 ≤ buf0len)
    (hfull : buf0len ≤ buf0.length + l.length + 1) :
    (buf0 ++ l ++ s).drop (buf0len - 1) = l.drop (buf0len - buf0.length - 1) ++ s := by
  rw [List.drop_append_of_le_length (by rw [List.length_append]; omega), List.drop_append,
    List.drop_eq_nil_of_le (show buf0.length ≤ buf0len - 1 by omega), List.nil_append,
    show buf0len - 1 - buf0.length = buf0len - buf0.length - 1 by omega]

/-- **A line with a newline** is passed on whole, or is too long. -/
theorem readLoop_line {fuel buf0len : ℕ} {buf0 l s : CStr} (hl : IsLine (buf0 ++ l))
    (hroom : buf0.length + 1 < buf0len) (hfuel : l.length + s.length + 2 < fuel) :
    match lineEnd buf0len (buf0 ++ l).length with
    | .ok buf0len' =>
      match parseLine item ⟨buf0 ++ l, []⟩ with
      | (item', true) =>
        readLoop parseLine behind fuel buf0 (buf0len - buf0.length) buf0len item ⟨l ++ '\n' :: s, eof⟩ =
          (item', 0, ⟨s, eof⟩)
      | (item', false) => ∃ fuel', s.length + 1 < fuel' ∧
        readLoop parseLine behind fuel buf0 (buf0len - buf0.length) buf0len item ⟨l ++ '\n' :: s, eof⟩ =
          readLoop parseLine behind fuel' [] buf0len' buf0len' item' ⟨s, eof⟩
    | .error buf0len' =>
      readLoop parseLine behind fuel buf0 (buf0len - buf0.length) buf0len item ⟨l ++ '\n' :: s, eof⟩ =
        (item, -1, ⟨(buf0 ++ l ++ '\n' :: s).drop (buf0len' - 1), eof⟩) := by
  induction fuel generalizing buf0len buf0 l with
  | zero => cases hfuel
  | succ fuel ih =>
      have hrest := (isLine_append.mp hl).2
      rw [lineEnd, List.length_append]
      by_cases hfits : buf0.length + l.length + 1 < buf0len
      · rw [if_pos hfits, readLoop_fits hrest hfits]
        rcases parseLine item ⟨buf0 ++ l, []⟩ with ⟨item', done⟩
        cases done with
        | true => rfl
        | false => exact ⟨fuel, by omega, rfl⟩
      · -- the line fills the buffer, which is doubled
        have hfull : buf0len ≤ buf0.length + l.length + 1 := Nat.le_of_not_lt hfits
        rw [if_neg hfits, readLoop_full hrest hroom hfull]
        have hle : buf0len - buf0.length - 1 ≤ l.length := by omega
        by_cases hexcessive : excessiveLineLen ≤ buf0len
        · rw [dif_pos (Or.inr hexcessive), if_pos hexcessive]
          dsimp only
          rw [drop_buffer (by omega) (by omega)]
        · rw [dif_neg (by omega), if_neg hexcessive]
          have hsplit : buf0 ++ l.take (buf0len - buf0.length - 1) ++ l.drop (buf0len - buf0.length - 1) =
              buf0 ++ l := by
            rw [List.append_assoc, List.take_append_drop]
          have hlength : (buf0 ++ l.take (buf0len - buf0.length - 1)).length = buf0len - 1 := by
            rw [List.length_append, List.length_take_of_le hle]
            omega
          have hstep := @ih (2 * buf0len) (buf0 ++ l.take (buf0len - buf0.length - 1))
            (l.drop (buf0len - buf0.length - 1)) (by rwa [hsplit]) (by omega)
            (by rw [List.length_drop]; omega)
          rw [hsplit, hlength, show 2 * buf0len - (buf0len - 1) = buf0len + 1 by omega,
            List.length_append] at hstep
          exact hstep

/-- **What is behind the last newline** is passed on, is too long, or gets lost. -/
theorem readLoop_last {fuel buf0len : ℕ} {buf0 l : CStr} (hl : IsLine (buf0 ++ l))
    (hroom : buf0.length + 1 < buf0len) (hne : l ≠ []) (hfuel : l.length + 1 < fuel) :
    readLoop parseLine behind fuel buf0 (buf0len - buf0.length) buf0len item ⟨l, eof⟩ =
      match lastEnd buf0len (buf0 ++ l).length with
      | .read => ((parseLine item ⟨buf0 ++ l, behind⟩).1, 0, ⟨[], true⟩)
      | .lost => (item, 0, ⟨[], true⟩)
      | .excessive buf0len' => (item, -1, ⟨(buf0 ++ l).drop (buf0len' - 1), eof⟩) := by
  induction fuel generalizing buf0len buf0 l with
  | zero => cases hfuel
  | succ fuel ih =>
      have hrest := (isLine_append.mp hl).2
      rw [lastEnd, List.length_append]
      by_cases hfits : buf0.length + l.length + 1 < buf0len
      · have hfgets := @fgets_last (buf0len - buf0.length) l eof hrest.1 (by omega)
        have hlt : l.length < buf0len - buf0.length - 1 := by omega
        rw [if_pos hfits, readLoop, hfgets]
        simp [hne, takeWhile_ne_eq_self hrest.2, hrest.1, hlt]
      · have hfull : buf0len ≤ buf0.length + l.length + 1 := Nat.le_of_not_lt hfits
        have hround := @readLoop_full _ parseLine behind item eof fuel buf0len buf0 l hrest hroom hfull []
        rw [List.append_nil] at hround
        rw [if_neg hfits, hround]
        have hle : buf0len - buf0.length - 1 ≤ l.length := by omega
        by_cases hexcessive : excessiveLineLen ≤ buf0len
        · rw [dif_pos (Or.inr hexcessive), if_pos hexcessive]
          dsimp only
          rw [← drop_buffer (by omega) (by omega), List.append_nil]
        · rw [dif_neg (by omega), if_neg hexcessive, List.append_nil]
          have hlength : (buf0 ++ l.take (buf0len - buf0.length - 1)).length = buf0len - 1 := by
            rw [List.length_append, List.length_take_of_le hle]
            omega
          by_cases hexact : buf0.length + l.length + 1 = buf0len
          · -- nothing is left, and the buffer is not full any more
            rw [if_pos hexact]
            have hdrop : l.drop (buf0len - buf0.length - 1) = [] :=
              List.drop_eq_nil_of_le (by omega)
            have hfgets := @fgets_last (buf0len + 1) [] eof List.not_mem_nil
              (by rw [List.length_nil]; omega)
            have hlost : ¬ buf0len - 1 = 2 * buf0len - 1 := by omega
            cases fuel with
            | zero => omega
            | succ fuel =>
                rw [hdrop, readLoop, hfgets]
                simp [hlength, hlost]
          · have hsplit : buf0 ++ l.take (buf0len - buf0.length - 1) ++
                l.drop (buf0len - buf0.length - 1) = buf0 ++ l := by
              rw [List.append_assoc, List.take_append_drop]
            have hstep := @ih (2 * buf0len) (buf0 ++ l.take (buf0len - buf0.length - 1))
              (l.drop (buf0len - buf0.length - 1)) (by rwa [hsplit]) (by omega)
              (by rw [ne_eq, List.drop_eq_nil_iff]; omega) (by rw [List.length_drop]; omega)
            rw [hsplit, hlength, show 2 * buf0len - (buf0len - 1) = buf0len + 1 by omega,
              List.length_append] at hstep
            rw [if_neg hexact]
            exact hstep

variable (parseLine behind) in
/-- The lines of a text are passed on one after the other, until the parser is done or a line is too
long. -/
def passLines (eof : Bool) (last : CStr) : ℕ → List CStr → σ → σ × Int × Stream
  | buf0len, [], item =>
    if last = [] then (item, 0, ⟨[], true⟩)
    else match lastEnd buf0len last.length with
      | .read => ((parseLine item ⟨last, behind⟩).1, 0, ⟨[], true⟩)
      | .lost => (item, 0, ⟨[], true⟩)
      | .excessive buf0len => (item, -1, ⟨last.drop (buf0len - 1), eof⟩)
  | buf0len, l :: ls, item =>
    match lineEnd buf0len l.length with
    | .error buf0len => (item, -1, ⟨(textOf (l :: ls) last).drop (buf0len - 1), eof⟩)
    | .ok buf0len =>
      match parseLine item ⟨l, []⟩ with
      | (item, true) => (item, 0, ⟨textOf ls last, eof⟩)
      | (item, false) => passLines eof last buf0len ls item

/-- The buffer only grows. -/
theorem le_of_lineEnd {buf0len n buf0len' : ℕ} (h : lineEnd buf0len n = .ok buf0len') :
    buf0len ≤ buf0len' := by
  induction buf0len using lineEnd.induct n with
  | case1 buf0len hfits =>
      rw [lineEnd, if_pos hfits] at h
      cases h
      exact le_rfl
  | case2 buf0len hfits hend =>
      rw [lineEnd, if_neg hfits, dif_pos hend] at h
      cases h
  | case3 buf0len hfits hend ih =>
      rw [lineEnd, if_neg hfits, dif_neg hend] at h
      have := ih h
      omega

theorem readLoop_text {fuel buf0len : ℕ} {ls : List CStr} {last : CStr} (hls : ∀ l ∈ ls, IsLine l)
    (hlast : IsLine last) (hbuf : 1 < buf0len) (hfuel : (textOf ls last).length + 1 < fuel) :
    readLoop parseLine behind fuel [] buf0len buf0len item ⟨textOf ls last, eof⟩ =
      passLines parseLine behind eof last buf0len ls item := by
  induction ls generalizing fuel buf0len item with
  | nil =>
      rw [passLines, textOf_nil]
      split_ifs with hnil
      · subst hnil
        have hfgets := @fgets_last buf0len [] eof List.not_mem_nil hbuf
        have hne : ¬ 0 = buf0len - 1 := by omega
        cases fuel with
        | zero => omega
        | succ fuel =>
            rw [readLoop, hfgets]
            simp [hne]
      · exact @readLoop_last _ parseLine behind item eof fuel buf0len [] last hlast hbuf hnil hfuel
  | cons l ls ih =>
      obtain ⟨hl, hls⟩ := List.forall_mem_cons.mp hls
      rw [textOf_cons, List.length_append, List.length_cons] at hfuel
      have hline := @readLoop_line _ parseLine behind item eof fuel buf0len [] l (textOf ls last) hl hbuf
        (by omega)
      rw [passLines, textOf_cons]
      simp only [List.nil_append, List.length_nil, Nat.sub_zero] at hline
      cases hend : lineEnd buf0len l.length with
      | error b =>
          rw [hend] at hline
          exact hline
      | ok b =>
          rw [hend] at hline
          dsimp only at hline ⊢
          rcases hparse : parseLine item ⟨l, []⟩ with ⟨item', done⟩
          rw [hparse] at hline
          cases done with
          | true => exact hline
          | false =>
              obtain ⟨fuel', hfuel', hloop⟩ := hline
              have hbuf' : 1 < b := lt_of_lt_of_le hbuf (le_of_lineEnd hend)
              exact hloop.trans (ih hls hbuf' hfuel')

/-- **A text is read line by line.** -/
theorem parseFromStreamNomalloc_eq {buf0len : ℕ} {ls : List CStr} {last : CStr}
    (hls : ∀ l ∈ ls, IsLine l) (hlast : IsLine last) (hbuf : 1 < buf0len) :
    parseFromStreamNomalloc parseLine behind buf0len item ⟨textOf ls last, eof⟩ =
      passLines parseLine behind eof last buf0len ls item :=
  readLoop_text hls hlast hbuf (Nat.lt_succ_self _)

end

/-! ## Which lines are too long -/

/-- A line with its newline is shorter than the limit. -/
def Short (l : CStr) : Prop := l.length + 1 < excessiveLineLen

instance (l : CStr) : Decidable (Short l) := inferInstanceAs (Decidable (_ < _))

/-- The buffer is the first doubling with room for the lines that were read. -/
structure Grown (buf0len : ℕ) (ls : List CStr) (b : ℕ) : Prop where
  room : ∀ l ∈ ls, l.length + 1 < b
  least : ∃ j, b = buf0len * 2 ^ j ∧ (j = 0 ∨ ∃ l ∈ ls, b ≤ 2 * (l.length + 1))

theorem grown_nil (buf0len : ℕ) : Grown buf0len [] buf0len :=
  ⟨fun _ h => (by cases h), 0, by simp, Or.inl rfl⟩

/-- A line has room in the buffer, however often it is doubled: a line of the limit's length with its
newline has none if the buffer comes to be as large as the limit. -/
def Fits (buf0len : ℕ) (l : CStr) : Prop :=
  l.length < excessiveLineLen ∧
    (l.length + 1 = excessiveLineLen → ∀ k, buf0len * 2 ^ k ≠ excessiveLineLen)

theorem Short.fits {l : CStr} (h : Short l) (buf0len : ℕ) : Fits buf0len l := by
  rw [Short] at h
  exact ⟨by omega, fun heq => by omega⟩

theorem lineEnd_fits {n : ℕ} (hn : n < excessiveLineLen) {b : ℕ} (hb : 0 < b)
    (hlimit : n + 1 = excessiveLineLen → ∀ k, b * 2 ^ k ≠ excessiveLineLen) :
    ∃ j, lineEnd b n = .ok (b * 2 ^ j) ∧ n + 1 < b * 2 ^ j ∧ (j = 0 ∨ b * 2 ^ j ≤ 2 * (n + 1)) := by
  induction b using lineEnd.induct n with
  | case1 b hfits => exact ⟨0, by rw [lineEnd, if_pos hfits]; simp, by simpa using hfits, Or.inl rfl⟩
  | case2 b hfits hend =>
      have hne := fun heq => hlimit heq 0
      omega
  | case3 b hfits hend ih =>
      have hpow : ∀ j, 2 * b * 2 ^ j = b * 2 ^ (j + 1) := fun j => by ring
      obtain ⟨j, hline, hroom, hleast⟩ := ih (by omega) fun heq k => by
        rw [hpow]
        exact hlimit heq (k + 1)
      rw [hpow] at hline hroom hleast
      refine ⟨j + 1, by rw [lineEnd, if_neg hfits, dif_neg hend, hline], hroom, Or.inr ?_⟩
      rcases hleast with rfl | hleast
      · omega
      · exact hleast

theorem Grown.line {buf0len b : ℕ} {ls : List CStr} (h : Grown buf0len ls b) (hbuf : 0 < buf0len)
    {l : CStr} (hl : Fits buf0len l) :
    ∃ b', lineEnd b l.length = .ok b' ∧ Grown buf0len (ls ++ [l]) b' := by
  obtain ⟨hroom, j, rfl, hleast⟩ := h
  obtain ⟨i, hline, hfits, hi⟩ := lineEnd_fits hl.1 (b := buf0len * 2 ^ j) (by positivity)
    fun heq k => by
      rw [mul_assoc, ← pow_add]
      exact hl.2 heq (j + k)
  have hle : buf0len * 2 ^ j ≤ buf0len * 2 ^ j * 2 ^ i := Nat.le_mul_of_pos_right _ (by positivity)
  refine ⟨_, hline, fun l' hl' => ?_, j + i, by rw [pow_add, mul_assoc], ?_⟩
  · rcases List.mem_append.mp hl' with hl' | hl'
    · exact lt_of_lt_of_le (hroom l' hl') hle
    · obtain rfl := List.mem_singleton.mp hl'
      exact hfits
  · rcases hi with rfl | hi
    · rcases hleast with rfl | ⟨l', hl', hleast⟩
      · exact Or.inl rfl
      · exact Or.inr ⟨l', List.mem_append_left _ hl', by simpa using hleast⟩
    · exact Or.inr ⟨l, by simp, hi⟩

/-- What is behind the last newline fills the buffer exactly, which is as large as the lines before have
made it. -/
def FillsBuffer (buf0len : ℕ) (ls : List CStr) (last : CStr) : Prop :=
  (∃ k, last.length + 1 = buf0len * 2 ^ k) ∧ ∀ l ∈ ls, l.length < last.length

theorem Grown.fillsBuffer_iff {buf0len b : ℕ} {ls : List CStr} (h : Grown buf0len ls b) (last : CStr) :
    (∃ k, last.length + 1 = b * 2 ^ k) ↔ FillsBuffer buf0len ls last := by
  obtain ⟨hroom, j, rfl, hleast⟩ := h
  constructor
  · rintro ⟨k, hk⟩
    refine ⟨⟨j + k, by rw [hk, pow_add, mul_assoc]⟩, fun l hl => ?_⟩
    have hle : buf0len * 2 ^ j ≤ buf0len * 2 ^ j * 2 ^ k := Nat.le_mul_of_pos_right _ (by positivity)
    have := hroom l hl
    omega
  · rintro ⟨⟨k, hk⟩, hlonger⟩
    have hjk : j ≤ k := by
      rcases hleast with rfl | ⟨l, hl, hleast⟩
      · exact Nat.zero_le k
      · have hlt := hlonger l hl
        have : buf0len * 2 ^ j < buf0len * 2 ^ (k + 1) := by
          rw [pow_succ, ← mul_assoc, ← hk]
          omega
        have := (Nat.pow_lt_pow_iff_right (by decide : 1 < 2)).mp (Nat.lt_of_mul_lt_mul_left this)
        omega
    exact ⟨k - j, by rw [hk, mul_assoc, ← pow_add, Nat.add_sub_cancel' hjk]⟩

/-- **What is behind the last newline**, where it is shorter than the limit. -/
theorem lastEnd_iff {n : ℕ} (hn : n < excessiveLineLen) {b : ℕ} (hb : 0 < b) :
    lastEnd b n = .read ∧ (¬ ∃ k, n + 1 = b * 2 ^ k) ∨
      (∃ k, n + 1 = b * 2 ^ k) ∧ (lastEnd b n = .lost ∧ n + 1 < excessiveLineLen ∨
        lastEnd b n = .excessive excessiveLineLen ∧ n + 1 = excessiveLineLen) := by
  induction b using lastEnd.induct n with
  | case1 b hfits =>
      refine Or.inl ⟨by rw [lastEnd, if_pos hfits], ?_⟩
      rintro ⟨k, hk⟩
      have : b ≤ b * 2 ^ k := Nat.le_mul_of_pos_right _ (by positivity)
      omega
  | case2 b hfits hend =>
      obtain rfl : b = excessiveLineLen := by omega
      refine Or.inr ⟨⟨0, by omega⟩, Or.inr ⟨?_, by omega⟩⟩
      rw [lastEnd, if_neg hfits, dif_pos hend]
  | case3 hfits hend =>
      refine Or.inr ⟨⟨0, by omega⟩, Or.inl ⟨?_, by omega⟩⟩
      rw [lastEnd, if_neg hfits, dif_neg hend, if_pos rfl]
  | case4 b hfits hend hexact ih =>
      have hiff : (∃ k, n + 1 = 2 * b * 2 ^ k) ↔ ∃ k, n + 1 = b * 2 ^ k := by
        constructor
        · rintro ⟨k, hk⟩
          exact ⟨k + 1, by rw [hk]; ring⟩
        · rintro ⟨k, hk⟩
          cases k with
          | zero => omega
          | succ k => exact ⟨k, by rw [hk]; ring⟩
      rw [lastEnd, if_neg hfits, dif_neg hend, if_neg hexact, ← hiff]
      exact ih (by omega)

/-! ## Texts with short lines -/

section

variable {σ : Type*} (parseLine : σ → Line → σ × Bool) (behind : CStr) (eof : Bool) (last : CStr)

/-- What is done at the end of a text. -/
def parseLast : LastEnd → σ → σ × Int × Stream
  | .read, item => ((parseLine item ⟨last, behind⟩).1, 0, ⟨[], true⟩)
  | .lost, item => (item, 0, ⟨[], true⟩)
  | .excessive buf0len, item => (item, -1, ⟨last.drop (buf0len - 1), eof⟩)

/-- The lines are passed on, until the parser is done. -/
def passShort (atLast : σ → σ × Int × Stream) : List CStr → σ → σ × Int × Stream
  | [], item => if last = [] then (item, 0, ⟨[], true⟩) else atLast item
  | l :: ls, item =>
    match parseLine item ⟨l, []⟩ with
    | (item, true) => (item, 0, ⟨textOf ls last, eof⟩)
    | (item, false) => passShort atLast ls item

variable {parseLine behind eof last} {item : σ}

/-- How a text ends: with a line that is read, or one that is lost, or is one byte too long. -/
structure EndsAs (buf0len : ℕ) (ls : List CStr) (last : CStr) (e : LastEnd) : Prop where
  read : ¬ FillsBuffer buf0len ls last → e = .read
  lost : FillsBuffer buf0len ls last → last.length + 1 < excessiveLineLen → e = .lost
  excessive : FillsBuffer buf0len ls last → last.length + 1 = excessiveLineLen →
    e = .excessive excessiveLineLen

theorem Grown.endsAs {buf0len b : ℕ} {ls : List CStr} (h : Grown buf0len ls b) (hb : 0 < b)
    (hlast : last.length < excessiveLineLen) : EndsAs buf0len ls last (lastEnd b last.length) := by
  have hiff := h.fillsBuffer_iff last
  rcases lastEnd_iff hlast hb with ⟨hread, hk⟩ | ⟨hk, ⟨hlost, hlt⟩ | ⟨hexcessive, heq⟩⟩
  · exact ⟨fun _ => hread, fun hfills => absurd (hiff.mpr hfills) hk,
      fun hfills => absurd (hiff.mpr hfills) hk⟩
  · exact ⟨fun hfills => absurd (hiff.mp hk) hfills, fun _ _ => hlost, fun _ heq => by omega⟩
  · exact ⟨fun hfills => absurd (hiff.mp hk) hfills, fun _ hlt => by omega, fun _ _ => hexcessive⟩

theorem passLines_short {buf0len b : ℕ} {earlier ls : List CStr} (h : Grown buf0len earlier b)
    (hbuf : 0 < buf0len) (hls : ∀ l ∈ ls, Fits buf0len l) (hlast : last.length < excessiveLineLen) :
    ∃ e, EndsAs buf0len (earlier ++ ls) last e ∧ ∀ item, passLines parseLine behind eof last b ls item =
      passShort parseLine eof last (parseLast parseLine behind eof last e) ls item := by
  induction ls generalizing b earlier with
  | nil =>
      obtain ⟨j, hb, -⟩ := h.least
      refine ⟨_, by simpa using h.endsAs (by rw [hb]; positivity) hlast, fun item => ?_⟩
      rw [passLines, passShort]
      refine if_congr Iff.rfl rfl ?_
      cases lastEnd b last.length <;> rfl
  | cons l ls ih =>
      obtain ⟨hl, hls⟩ := List.forall_mem_cons.mp hls
      obtain ⟨b', hline, hgrown⟩ := h.line hbuf hl
      obtain ⟨e, hends, hpass⟩ := ih hgrown hls
      refine ⟨e, by simpa using hends, fun item => ?_⟩
      rw [passLines, passShort, hline]
      dsimp only
      rcases parseLine item ⟨l, []⟩ with ⟨item', done⟩
      cases done with
      | true => rfl
      | false => exact hpass item'

/-- **A text whose lines are shorter than the limit** is read line by line; only its last line, if it has
no newline, can be missed. -/
theorem parseFromStreamNomalloc_short {buf0len : ℕ} {ls : List CStr} (hbuf : 1 < buf0len)
    (hls : ∀ l ∈ ls, IsLine l ∧ Short l) (hlast : IsLine last)
    (hlast' : last.length < excessiveLineLen) :
    ∃ e, EndsAs buf0len ls last e ∧
      ∀ item, parseFromStreamNomalloc parseLine behind buf0len item ⟨textOf ls last, eof⟩ =
        passShort parseLine eof last (parseLast parseLine behind eof last e) ls item := by
  obtain ⟨e, hends, hpass⟩ := @passLines_short σ parseLine behind eof last buf0len buf0len [] ls
    (grown_nil buf0len) (by omega) (fun l hl => (hls l hl).2.fits buf0len) hlast'
  refine ⟨e, hends, fun item => ?_⟩
  rw [parseFromStreamNomalloc_eq (fun l hl => (hls l hl).1) hlast hbuf, hpass]

end

/-! ## Texts with lines of any length -/

instance (buf0len : ℕ) (ls : List CStr) (last : CStr) : Decidable (FillsBuffer buf0len ls last) := by
  have hiff : (∃ k, last.length + 1 = buf0len * 2 ^ k) ↔
      ∃ k, k < last.length + 1 ∧ last.length + 1 = buf0len * 2 ^ k := by
    refine ⟨fun ⟨k, hk⟩ => ⟨k, ?_, hk⟩, fun ⟨k, _, hk⟩ => ⟨k, hk⟩⟩
    have hpos : 0 < buf0len := Nat.pos_of_ne_zero fun h => by simp [h] at hk
    have hle : 2 ^ k ≤ buf0len * 2 ^ k := Nat.le_mul_of_pos_left _ hpos
    have := Nat.lt_two_pow_self (n := k)
    omega
  exact @instDecidableAnd _ _ (decidable_of_iff' _ hiff) _

/-- The buffer of the callers. -/
def callerBuf : ℕ := 4096

/-- What is read of what is behind the last newline. -/
def lastLine (behind : CStr) (ls : List CStr) (last : CStr) : List Line :=
  if last = [] ∨ ¬ Short last ∨ FillsBuffer callerBuf ls last then [] else [⟨last, behind⟩]

/-- The lines that are passed on: up to one that is too long. -/
def linesRead (behind : CStr) (ls : List CStr) (last : CStr) : List Line :=
  if ∀ l ∈ ls, Short l then ls.map (fun l => ⟨l, []⟩) ++ lastLine behind ls last
  else (ls.takeWhile fun l => Short l).map fun l => ⟨l, []⟩

section

variable {σ : Type*} {parseLine : σ → Line → σ × Bool} {behind : CStr} {eof : Bool} {last : CStr}

variable (parseLine) in
/-- A parser on lines, until it is done. -/
def runLines : List Line → σ → σ
  | [], item => item
  | l :: ls, item =>
    match parseLine item l with
    | (item, true) => item
    | (item, false) => runLines ls item

theorem Grown.exists_limit {buf0len k b : ℕ} {ls : List CStr} (h : Grown buf0len ls b)
    (hk : buf0len * 2 ^ k = excessiveLineLen) (hls : ∀ l ∈ ls, Short l) :
    ∃ i, b * 2 ^ i = excessiveLineLen := by
  obtain ⟨j, rfl, hleast⟩ := h.least
  have hj : j ≤ k := by
    rcases hleast with rfl | ⟨l, hl, hleast⟩
    · exact Nat.zero_le k
    · have hshort := hls l hl
      have hlt : buf0len * 2 ^ j < buf0len * 2 ^ (k + 1) := by
        rw [pow_succ, ← mul_assoc, hk]
        rw [Short] at hshort
        omega
      have := (Nat.pow_lt_pow_iff_right (by decide : 1 < 2)).mp (Nat.lt_of_mul_lt_mul_left hlt)
      omega
  refine ⟨k - j, ?_⟩
  rw [mul_assoc, ← pow_add, Nat.add_sub_cancel' hj, hk]

theorem callerBuf_limit : callerBuf * 2 ^ 8 = excessiveLineLen := rfl

theorem lineEnd_long {n : ℕ} (hn : excessiveLineLen ≤ n + 1) {b : ℕ}
    (hlimit : ∃ i, b * 2 ^ i = excessiveLineLen) : lineEnd b n = .error excessiveLineLen := by
  obtain ⟨i, hi⟩ := hlimit
  induction i generalizing b with
  | zero =>
      obtain rfl : b = excessiveLineLen := by simpa using hi
      rw [lineEnd, if_neg (by omega), dif_pos (Or.inr le_rfl)]
  | succ i ih =>
      rw [pow_succ', ← mul_assoc, mul_comm b] at hi
      have hb : 2 * b ≤ excessiveLineLen := hi ▸ Nat.le_mul_of_pos_right _ (by positivity)
      have hpos : b ≠ 0 := fun h => by simp [h, excessiveLineLen] at hi
      rw [lineEnd, if_neg (by omega), dif_neg (by omega), ih hi]

theorem lastEnd_long {n : ℕ} (hn : excessiveLineLen ≤ n + 1) {b : ℕ}
    (hlimit : ∃ i, b * 2 ^ i = excessiveLineLen) : lastEnd b n = .excessive excessiveLineLen := by
  obtain ⟨i, hi⟩ := hlimit
  induction i generalizing b with
  | zero =>
      obtain rfl : b = excessiveLineLen := by simpa using hi
      rw [lastEnd, if_neg (by omega), dif_pos (Or.inr le_rfl)]
  | succ i ih =>
      rw [pow_succ', ← mul_assoc, mul_comm b] at hi
      have hb : 2 * b ≤ excessiveLineLen := hi ▸ Nat.le_mul_of_pos_right _ (by positivity)
      have hpos : b ≠ 0 := fun h => by simp [h, excessiveLineLen] at hi
      rw [lastEnd, if_neg (by omega), dif_neg (by omega), if_neg (by omega), ih hi]

/-- What is done with what is behind the last newline. -/
theorem passLines_nil_item {b : ℕ} {earlier : List CStr} (h : Grown callerBuf earlier b)
    (hearlier : ∀ l ∈ earlier, Short l) (item : σ) :
    (passLines parseLine behind eof last b [] item).1 =
      runLines parseLine (lastLine behind earlier last) item := by
  have hb : 0 < b := by
    obtain ⟨j, hb, -⟩ := h.least
    rw [hb, callerBuf]
    positivity
  rw [passLines, lastLine]
  by_cases hnil : last = []
  · rw [if_pos hnil, if_pos (Or.inl hnil)]
    rfl
  rw [if_neg hnil]
  by_cases hshort : Short last
  · have hends := h.endsAs hb (show last.length < excessiveLineLen from
      lt_trans (Nat.lt_succ_self _) hshort)
    by_cases hfills : FillsBuffer callerBuf earlier last
    · rw [hends.lost hfills hshort, if_pos (Or.inr (Or.inr hfills))]
      rfl
    · rw [hends.read hfills, if_neg (by simp [hnil, hshort, hfills])]
      rw [runLines]
      rcases parseLine item ⟨last, behind⟩ with ⟨item', done⟩
      cases done <;> rfl
  · rw [lastEnd_long (Nat.le_of_not_lt hshort) (h.exists_limit callerBuf_limit hearlier), if_pos (Or.inr (Or.inl hshort))]
    rfl

/-- **A text is read up to a line that is too long.** -/
theorem passLines_item {b : ℕ} {earlier ls : List CStr} (h : Grown callerBuf earlier b)
    (hearlier : ∀ l ∈ earlier, Short l) (item : σ) :
    (passLines parseLine behind eof last b ls item).1 = runLines parseLine
      (if ∀ l ∈ ls, Short l then ls.map (fun l => ⟨l, []⟩) ++ lastLine behind (earlier ++ ls) last
        else (ls.takeWhile fun l => Short l).map fun l => ⟨l, []⟩) item := by
  induction ls generalizing b earlier item with
  | nil => simpa using passLines_nil_item h hearlier item
  | cons l ls ih =>
      rw [passLines]
      by_cases hshort : Short l
      · obtain ⟨b', hline, hgrown⟩ := h.line (by decide) (hshort.fits callerBuf)
        have hearlier' : ∀ l' ∈ earlier ++ [l], Short l' :=
          List.forall_mem_append.mpr ⟨hearlier, List.forall_mem_singleton.mpr hshort⟩
        rw [hline]
        dsimp only
        have hrun : ∀ rest : List Line, runLines parseLine (⟨l, []⟩ :: rest) item =
            match parseLine item ⟨l, []⟩ with
            | (item, true) => item
            | (item, false) => runLines parseLine rest item := fun _ => rfl
        have hcons : (if ∀ l' ∈ l :: ls, Short l' then
              (l :: ls).map (fun l => (⟨l, []⟩ : Line)) ++ lastLine behind (earlier ++ l :: ls) last
            else ((l :: ls).takeWhile fun l => Short l).map fun l => ⟨l, []⟩) =
            ⟨l, []⟩ :: if ∀ l' ∈ ls, Short l' then
              ls.map (fun l => ⟨l, []⟩) ++ lastLine behind (earlier ++ [l] ++ ls) last
            else (ls.takeWhile fun l => Short l).map fun l => ⟨l, []⟩ := by
          by_cases hall : ∀ l' ∈ ls, Short l'
          · rw [if_pos hall, if_pos (List.forall_mem_cons.mpr ⟨hshort, hall⟩)]
            simp
          · rw [if_neg hall, if_neg fun h => hall (List.forall_mem_cons.mp h).2,
              List.takeWhile_cons_of_pos (by simpa using hshort), List.map_cons]
        rw [hcons, hrun]
        rcases parseLine item ⟨l, []⟩ with ⟨item', done⟩
        cases done with
        | true => rfl
        | false => exact ih hgrown hearlier' item'
      · rw [lineEnd_long (Nat.le_of_not_lt hshort) (h.exists_limit callerBuf_limit hearlier),
          if_neg fun h => hshort (h l List.mem_cons_self),
          List.takeWhile_cons_of_neg (by simpa using hshort)]
        rfl

/-- **The item that is read from a text.** -/
theorem parseFromStreamNomalloc_item {ls : List CStr} (hls : ∀ l ∈ ls, IsLine l) (hlast : IsLine last)
    (item : σ) :
    (parseFromStreamNomalloc parseLine behind callerBuf item ⟨textOf ls last, eof⟩).1 =
      runLines parseLine (linesRead behind ls last) item := by
  rw [parseFromStreamNomalloc_eq hls hlast (by decide),
    passLines_item (grown_nil callerBuf) (fun l hl => by cases hl), linesRead, List.nil_append]

/-- The lines that are read are the first ones of the text. -/
theorem linesRead_nil (ls : List CStr) (last : CStr) :
    ∃ ts, ts <+: (ls ++ if last = [] then [] else [last]) ∧
      linesRead [] ls last = ts.map fun l => ⟨l, []⟩ := by
  have hfront : ls <+: ls ++ if last = [] then [] else [last] := List.prefix_append _ _
  rw [linesRead, lastLine]
  by_cases hshort : ∀ l ∈ ls, Short l
  · rw [if_pos hshort]
    by_cases hmissed : last = [] ∨ ¬ Short last ∨ FillsBuffer callerBuf ls last
    · exact ⟨ls, hfront, by rw [if_pos hmissed, List.append_nil]⟩
    · have hlast : (if last = [] then [] else [last]) = [last] := if_neg fun h => hmissed (Or.inl h)
      rw [hlast]
      exact ⟨ls ++ [last], List.prefix_rfl, by rw [if_neg hmissed, List.map_append, List.map_singleton]⟩
  · rw [if_neg hshort]
    exact ⟨_, (List.takeWhile_prefix _).trans hfront, rfl⟩

/-- What is behind the NUL of the last line does not matter to a parser that does not read it. -/
theorem runLines_linesRead (ls : List CStr)
    (hlast : ∀ item, parseLine item ⟨last, behind⟩ = parseLine item ⟨last, []⟩) (item : σ) :
    runLines parseLine (linesRead behind ls last) item = runLines parseLine (linesRead [] ls last) item := by
  have happend : ∀ (rest rest' : List Line), (∀ item, runLines parseLine rest item =
      runLines parseLine rest' item) → ∀ (ls : List Line) (item : σ),
      runLines parseLine (ls ++ rest) item = runLines parseLine (ls ++ rest') item := by
    intro rest rest' hrest ls
    induction ls with
    | nil => exact hrest
    | cons l ls ih =>
        intro item
        rw [List.cons_append, List.cons_append, runLines, runLines]
        rcases parseLine item l with ⟨item', done⟩
        cases done with
        | true => rfl
        | false => exact ih item'
  rw [linesRead, linesRead]
  split_ifs
  · refine happend _ _ (fun item => ?_) _ item
    rw [lastLine, lastLine]
    split_ifs
    · rfl
    · rw [runLines, runLines, hlast]
  · rfl

end

/-! ## Every line of a text -/

/-- The lines of a text, the last one without a newline among them. -/
def textLines (behind : CStr) (ls : List CStr) (last : CStr) : List Line :=
  ls.map (fun l => ⟨l, []⟩) ++ if last = [] then [] else [⟨last, behind⟩]

/-- A parser that never says that it is done is called once with each line, in their order. -/
def Delivers (buf0len : ℕ) (ls : List CStr) (last : CStr) : Prop :=
  ∀ (σ : Type) (parseLine : σ → Line → σ × Bool) (behind : CStr) (eof : Bool) (item : σ),
    (∀ item l, (parseLine item l).2 = false) →
      (parseFromStreamNomalloc parseLine behind buf0len item ⟨textOf ls last, eof⟩).1 =
        (textLines behind ls last).foldl (fun item l => (parseLine item l).1) item

section

variable {σ : Type*} {parseLine : σ → Line → σ × Bool} {eof : Bool} {last : CStr} {ls : List CStr}

/-- The lines are passed on to a parser that is never done. -/
theorem passShort_foldl (hnever : ∀ item l, (parseLine item l).2 = false)
    (atLast : σ → σ × Int × Stream) (item : σ) :
    (passShort parseLine eof last atLast ls item).1 =
      let item := ls.foldl (fun item l => (parseLine item ⟨l, []⟩).1) item
      if last = [] then item else (atLast item).1 := by
  induction ls generalizing item with
  | nil =>
      rw [passShort]
      split_ifs
      · rfl
      · rfl
  | cons l ls ih =>
      have hdone := hnever item ⟨l, []⟩
      rw [passShort, List.foldl_cons]
      rcases hparse : parseLine item ⟨l, []⟩ with ⟨item', done⟩
      rw [hparse] at hdone
      obtain rfl : done = false := hdone
      exact ih item'

/-- A line without room ends the reading before it. -/
theorem passLines_record {buf0len b : ℕ} {earlier : List CStr} {behind : CStr}
    (h : Grown buf0len earlier b) (hbuf : 0 < buf0len) (hearlier : ∀ l ∈ earlier, Short l)
    (hls : ∀ l ∈ ls, l.length < excessiveLineLen) (hnot : ¬ ∀ l ∈ ls, Fits buf0len l) (acc : List Line) :
    ∃ ts, (passLines (fun ls l => (ls ++ [l], false)) behind eof last b ls acc).1 = acc ++ ts ∧
      ts.length < ls.length := by
  -- there is a line with the limit's length, and the buffer comes to have that length
  have hlimit : ∃ k, buf0len * 2 ^ k = excessiveLineLen := by
    by_contra hno
    exact hnot fun l hl => ⟨hls l hl, fun _ k hk => hno ⟨k, hk⟩⟩
  obtain ⟨k, hk⟩ := hlimit
  induction ls generalizing b earlier acc with
  | nil => exact absurd (fun l hl => absurd hl List.not_mem_nil) hnot
  | cons l ls ih =>
      rw [List.forall_mem_cons] at hls
      rw [passLines]
      by_cases hshort : Short l
      · obtain ⟨b', hline, hgrown⟩ := h.line hbuf (hshort.fits buf0len)
        have hearlier' : ∀ l' ∈ earlier ++ [l], Short l' :=
          List.forall_mem_append.mpr ⟨hearlier, List.forall_mem_singleton.mpr hshort⟩
        obtain ⟨ts, hts, hlen⟩ := ih hgrown hearlier' hls.2
          (fun hall => hnot (List.forall_mem_cons.mpr ⟨hshort.fits buf0len, hall⟩)) (acc ++ [⟨l, []⟩])
        rw [hline]
        refine ⟨⟨l, []⟩ :: ts, ?_, Nat.succ_lt_succ hlen⟩
        rw [hts, List.append_assoc, List.singleton_append]
      · rw [lineEnd_long (Nat.le_of_not_lt hshort) (h.exists_limit hk hearlier)]
        exact ⟨[], (List.append_nil acc).symm, Nat.zero_lt_succ _⟩

end

/-- The lines that are passed on to a parser that reads them all. -/
def linesPassed (behind : CStr) (buf0len : ℕ) (fp : Stream) : List Line :=
  (parseFromStreamNomalloc (fun ls l => (ls ++ [l], false)) behind buf0len ([] : List Line) fp).1

section

variable {σ : Type*} {parseLine : σ → Line → σ × Bool} {behind : CStr}

theorem runLines_singleton (l : Line) (item : σ) : runLines parseLine [l] item = (parseLine item l).1 := by
  rw [runLines]
  rcases parseLine item l with ⟨item', done⟩
  cases done <;> rfl

/-- A parser sees the lines that are passed on, up to the one that it is done with. -/
theorem exists_readLoop_eq (fuel : ℕ) : ∀ (buf0 : CStr) (buflen buf0len : ℕ) (item : σ) (acc : List Line)
    (fp : Stream), ∃ ls,
      (readLoop (fun ls l => (ls ++ [l], false)) behind fuel buf0 buflen buf0len acc fp).1 = acc ++ ls ∧
        (readLoop parseLine behind fuel buf0 buflen buf0len item fp).1 = runLines parseLine ls item := by
  induction fuel with
  | zero => exact fun _ _ _ item acc _ => ⟨[], by simp [readLoop], rfl⟩
  | succ fuel ih =>
      intro buf0 buflen buf0len item acc fp
      rw [readLoop, readLoop]
      rcases fgets buflen fp with ⟨chunk, fp'⟩
      cases chunk with
      | none =>
          dsimp only
          split_ifs
          · exact ⟨[⟨buf0, behind⟩], rfl, (runLines_singleton _ _).symm⟩
          · exact ⟨[], (List.append_nil acc).symm, rfl⟩
      | some chunk =>
          dsimp only
          generalize chunk.takeWhile (· != '\x00') = buf
          by_cases hnewline : '\n' ∉ buf
          · rw [if_pos hnewline, if_pos hnewline]
            by_cases hlast : buf.length < buflen - 1
            · rw [if_pos hlast, if_pos hlast]
              exact ⟨[⟨buf0 ++ buf, behind⟩], rfl, (runLines_singleton _ _).symm⟩
            · rw [if_neg hlast, if_neg hlast]
              by_cases hexcessive : excessiveLineLen ≤ buf0len
              · rw [if_pos hexcessive, if_pos hexcessive]
                exact ⟨[], (List.append_nil acc).symm, rfl⟩
              · rw [if_neg hexcessive, if_neg hexcessive]
                exact ih _ _ _ item acc fp'
          · rw [if_neg hnewline, if_neg hnewline]
            -- the line is passed on, and the parser may be done
            obtain ⟨ls, hcollect, hrun⟩ := ih [] buf0len buf0len (parseLine item ⟨buf0 ++ buf.takeWhile (· != '\n'), []⟩).1
              (acc ++ [⟨buf0 ++ buf.takeWhile (· != '\n'), []⟩]) fp'
            refine ⟨⟨buf0 ++ buf.takeWhile (· != '\n'), []⟩ :: ls, by rw [hcollect]; simp, ?_⟩
            rw [runLines]
            revert hrun
            rcases parseLine item ⟨buf0 ++ buf.takeWhile (· != '\n'), []⟩ with ⟨item', done⟩
            intro hrun
            cases done with
            | true => rfl
            | false => exact hrun

/-- **What is read of a stream** is read of the lines that are passed on. -/
theorem parseFromStreamNomalloc_fst (buf0len : ℕ) (item : σ) (fp : Stream) :
    (parseFromStreamNomalloc parseLine behind buf0len item fp).1 =
      runLines parseLine (linesPassed behind buf0len fp) item := by
  obtain ⟨ls, hcollect, hrun⟩ :=
    @exists_readLoop_eq _ parseLine behind (fp.rest.length + 2) [] buf0len buf0len item [] fp
  rw [parseFromStreamNomalloc, hrun, linesPassed, parseFromStreamNomalloc, hcollect, List.nil_append]

/-- `fgets` moves on. -/
theorem length_rest_fgets {n : ℕ} (hn : 1 < n) {fp fp' : Stream} {chunk : CStr}
    (h : fgets n fp = (some chunk, fp')) : fp'.rest.length < fp.rest.length := by
  obtain ⟨m, rfl⟩ : ∃ m, n = m + 2 := ⟨n - 2, by omega⟩
  rcases fp with ⟨rest, eof⟩
  cases rest with
  | nil => simp [fgets, takeLine] at h
  | cons c rest =>
      have hpos : 0 < (takeLine (m + 1) (c :: rest)).length := by
        rw [takeLine]
        split_ifs <;> simp
      rw [fgets] at h
      obtain ⟨-, rfl⟩ := Prod.mk.inj h
      dsimp only
      rw [List.length_drop, show m + 2 - 1 = m + 1 from rfl]
      simp only [List.length_cons] at hpos ⊢
      omega

/-- **The loop ends**: as much fuel as the stream has characters is enough. -/
theorem readLoop_fuel {fuel fuel' : ℕ} : ∀ {buf0 : CStr} {buflen buf0len : ℕ} {item : σ} {fp : Stream},
    1 < buflen → 1 < buf0len → fp.rest.length < fuel → fp.rest.length < fuel' →
      readLoop parseLine behind fuel buf0 buflen buf0len item fp =
        readLoop parseLine behind fuel' buf0 buflen buf0len item fp := by
  induction fuel generalizing fuel' with
  | zero => exact fun _ _ h _ => absurd h (Nat.not_lt_zero _)
  | succ fuel ih =>
      intro buf0 buflen buf0len item fp hbuflen hbuf0len hfuel hfuel'
      obtain ⟨fuel', rfl⟩ : ∃ n, fuel' = n + 1 := ⟨fuel' - 1, by omega⟩
      rw [readLoop, readLoop]
      cases hgets : fgets buflen fp with
      | mk chunk fp' =>
          cases chunk with
          | none => rfl
          | some chunk =>
              have hlt := length_rest_fgets hbuflen hgets
              dsimp only
              generalize chunk.takeWhile (· != '\x00') = buf
              by_cases hnewline : '\n' ∉ buf
              · rw [if_pos hnewline, if_pos hnewline]
                split_ifs
                · rfl
                · rfl
                · exact ih (by omega) (by omega) (by omega) (by omega)
              · rw [if_neg hnewline, if_neg hnewline]
                rcases parseLine item ⟨buf0 ++ buf.takeWhile (· != '\n'), []⟩ with ⟨item', done⟩
                cases done with
                | true => rfl
                | false => exact ih hbuf0len hbuf0len (by omega) (by omega)

end

end FirmwareTools.Opkg

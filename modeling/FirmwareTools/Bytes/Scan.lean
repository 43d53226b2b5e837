import Mathlib.Data.List.DropRight
import Mathlib.Tactic.Common

/-! # Scanning a terminated string

A string is read at indices, up to its terminator; a read behind the terminator is an error, which is
`none` here. The loops of a scanner go forward as long as a condition holds of a character, copy what they
pass into a buffer of a given size, or go back over the end of what has been passed.

* **`scanFrom_eq`**, **`copyFrom_eq`**, **`backFrom_eq`** — a loop that begins inside the string stays there,
  and what it has passed is `takeWhile` or `rdropWhile` of what stands there. -/

namespace FirmwareTools

variable {α : Type*}

/-- What a read gives. -/
inductive Cell (α : Type*)
  | char (c : α)
  | terminator
  | outside

/-- A read at an index. -/
def readAt (s : List α) (i : ℕ) : Cell α :=
  match s[i]? with
  | some c => .char c
  | none => if i = s.length then .terminator else .outside

theorem readAt_of_drop {s : List α} {i : ℕ} {c : α} {t : List α} (h : s.drop i = c :: t) :
    readAt s i = .char c := by
  have hget : s[i]? = some c := by
    rw [← List.head?_drop, h]
    rfl
  rw [readAt, hget]

@[simp] theorem readAt_length (s : List α) : readAt s s.length = .terminator := by
  simp [readAt]

theorem readAt_of_lt_length {s : List α} {i : ℕ} (h : s.length < i) : readAt s i = .outside := by
  rw [readAt, List.getElem?_eq_none h.le, if_neg h.ne']

/-- Inside the string there is the rest, or the terminator. -/
theorem readAt_cases {s : List α} {i : ℕ} (h : i ≤ s.length) :
    (∃ c, s.drop i = c :: s.drop (i + 1) ∧ readAt s i = .char c ∧ i < s.length) ∨
      (i = s.length ∧ s.drop i = []) := by
  rcases h.lt_or_eq with hlt | rfl
  · exact Or.inl ⟨s[i], List.drop_eq_getElem_cons hlt, readAt_of_drop (List.drop_eq_getElem_cons hlt), hlt⟩
  · exact Or.inr ⟨rfl, List.drop_length⟩

theorem lt_of_readAt {s : List α} {i : ℕ} {c : α} (h : readAt s i = .char c) : i < s.length := by
  rw [readAt] at h
  split at h
  · next hc => exact (List.getElem?_eq_some_iff.mp hc).1
  · split_ifs at h

/-! ## Forward -/

/-- `while (*p && cond(*p)) p++` -/
def scanFrom (cond : α → Bool) (s : List α) (i : ℕ) : Option ℕ :=
  match _h : readAt s i with
  | .char c => if cond c then scanFrom cond s (i + 1) else some i
  | .terminator => some i
  | .outside => none
termination_by s.length - i
decreasing_by
  have := lt_of_readAt _h
  omega

/-- `while (*p && cond(*p)) *dest++ = *p++; *dest = '\0'` into a buffer of a size; `none` also stands for a
write behind its end. -/
def copyFrom (cond : α → Bool) (size : ℕ) (s : List α) (i : ℕ) (buffer : List α) : Option (List α × ℕ) :=
  -- the character and the terminator take the place behind what has been written
  if buffer.length < size then
    match _h : readAt s i with
    | .char c => if cond c then copyFrom cond size s (i + 1) (buffer ++ [c]) else some (buffer, i)
    | .terminator => some (buffer, i)
    | .outside => none
  else none
termination_by s.length - i
decreasing_by
  have := lt_of_readAt _h
  omega

variable {cond : α → Bool} {s : List α} {i : ℕ}

/-- **A scan** stays inside the string. -/
theorem scanFrom_eq (h : i ≤ s.length) :
    scanFrom cond s i = some (i + ((s.drop i).takeWhile cond).length) := by
  induction hn : s.length - i generalizing i with
  | zero =>
      obtain rfl : i = s.length := by omega
      rw [scanFrom, readAt_length]
      simp
  | succ n ih =>
      rcases readAt_cases h with ⟨c, hdrop, hread, hlt⟩ | ⟨rfl, -⟩
      · rw [scanFrom, hread, hdrop]
        dsimp only
        cases hc : cond c with
        | true =>
            rw [if_pos rfl, ih (i := i + 1) hlt (by omega), List.takeWhile_cons_of_pos hc, List.length_cons,
              Nat.add_assoc, Nat.add_comm 1]
        | false =>
            rw [List.takeWhile_cons_of_neg (by simp [hc])]
            rfl
      · omega

theorem scanFrom_outside (h : s.length < i) : scanFrom cond s i = none := by
  rw [scanFrom, readAt_of_lt_length h]

/-- Where a scan comes to. -/
theorem drop_scanned (cond : α → Bool) (s : List α) (i : ℕ) :
    s.drop (i + ((s.drop i).takeWhile cond).length) = (s.drop i).dropWhile cond := by
  calc s.drop (i + ((s.drop i).takeWhile cond).length)
      = ((s.drop i).takeWhile cond ++ (s.drop i).dropWhile cond).drop ((s.drop i).takeWhile cond).length := by
        rw [List.takeWhile_append_dropWhile, List.drop_drop]
    _ = (s.drop i).dropWhile cond := List.drop_left' rfl

theorem scanned_le (cond : α → Bool) (h : i ≤ s.length) :
    i + ((s.drop i).takeWhile cond).length ≤ s.length := by
  have hle := (List.takeWhile_sublist cond (l := s.drop i)).length_le
  rw [List.length_drop] at hle
  omega

/-- **A copy** stays inside the string, and inside the buffer if what is copied fits with the terminator. -/
theorem copyFrom_eq {size : ℕ} (h : i ≤ s.length) (buffer : List α) :
    copyFrom cond size s i buffer =
      if buffer.length + ((s.drop i).takeWhile cond).length < size then
        some (buffer ++ (s.drop i).takeWhile cond, i + ((s.drop i).takeWhile cond).length)
      else none := by
  induction hn : s.length - i generalizing i buffer with
  | zero =>
      obtain rfl : i = s.length := by omega
      rw [copyFrom, readAt_length]
      simp
  | succ n ih =>
      rcases readAt_cases h with ⟨c, hdrop, hread, hlt⟩ | ⟨rfl, -⟩
      · rw [copyFrom, hread, hdrop]
        dsimp only
        cases hc : cond c with
        | true =>
            rw [if_pos rfl, ih hlt _ (by omega), List.takeWhile_cons_of_pos hc]
            simp only [List.length_append, List.length_cons, List.length_nil, List.append_assoc, List.cons_append,
              List.nil_append]
            have hsum : buffer.length + (0 + 1) + ((s.drop (i + 1)).takeWhile cond).length =
                buffer.length + (((s.drop (i + 1)).takeWhile cond).length + 1) := by omega
            have hplace : i + 1 + ((s.drop (i + 1)).takeWhile cond).length =
                i + (((s.drop (i + 1)).takeWhile cond).length + 1) := by omega
            rw [hsum, hplace]
            split_ifs <;> first | rfl | omega
        | false =>
            rw [List.takeWhile_cons_of_neg (by simp [hc])]
            simp
      · omega

/-! ## Back -/

/-- `while (end > start && cond(*end)) end--`, where `stop` is behind `end`. -/
def backFrom (cond : α → Bool) (s : List α) (start : ℕ) : ℕ → Option ℕ
  | 0 => some 0
  | stop + 1 =>
    if start < stop then
      match readAt s stop with
      | .char c => if cond c then backFrom cond s start stop else some (stop + 1)
      | .terminator => some (stop + 1)
      | .outside => none
    else some (stop + 1)

theorem backFrom_terminator (start : ℕ) : backFrom cond s start (s.length + 1) = some (s.length + 1) := by
  rw [backFrom, readAt_length]
  split_ifs <;> rfl

/-- **Going back** over what has been passed: it stays behind its first character, if that does not meet the
condition. -/
theorem backFrom_eq {start : ℕ} : ∀ {stop : ℕ}, start ≤ stop → stop ≤ s.length →
    (∀ c ∈ (s.drop start).head?, start < stop → cond c = false) →
    backFrom cond s start stop = some (start + (((s.drop start).take (stop - start)).rdropWhile cond).length)
  | 0, hstart, _, _ => by
      obtain rfl : start = 0 := by omega
      rfl
  | stop + 1, hstart, hstop, hhead => by
      rcases hstart.lt_or_eq with hlt | rfl
      · have hread : readAt s stop = .char s[stop] := readAt_of_drop (List.drop_eq_getElem_cons hstop)
        have hlast : (s.drop start).take (stop + 1 - start) = (s.drop start).take (stop - start) ++ [s[stop]] := by
          have hsub : stop + 1 - start = stop - start + 1 := by omega
          have hget : (s.drop start)[stop - start]? = some s[stop] := by
            rw [List.getElem?_drop, show start + (stop - start) = stop by omega, List.getElem?_eq_getElem hstop]
          rw [hsub, List.take_add_one, hget]
          rfl
        rw [backFrom, hlast]
        by_cases hc : cond s[stop] = true
        · by_cases hmore : start < stop
          · rw [if_pos hmore, hread]
            dsimp only
            rw [if_pos hc, backFrom_eq (by omega) (by omega) fun c hc' _ => hhead c hc' (by omega),
              List.rdropWhile_concat_pos _ _ _ hc]
          · -- the first character
            obtain rfl : start = stop := by omega
            have hfirst := hhead s[start] (by rw [List.head?_drop, List.getElem?_eq_getElem hstop]; rfl) hlt
            rw [hc] at hfirst
            cases hfirst
        · have hlen : ((s.drop start).take (stop - start)).length = stop - start := by
            rw [List.length_take, List.length_drop]
            omega
          rw [List.rdropWhile_concat_neg _ _ _ hc, List.length_append, hlen, List.length_singleton]
          split_ifs with hmore
          · rw [hread]
            dsimp only
            rw [if_neg hc]
            congr 1
            omega
          · congr 1
            omega
      · rw [backFrom, if_neg (by omega)]
        simp

end FirmwareTools

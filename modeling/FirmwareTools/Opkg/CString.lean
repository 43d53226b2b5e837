import Mathlib.Data.List.DropRight
import Mathlib.Tactic.Linarith
import Mathlib.Tactic.Ring

/-! # C strings and character classes

`CStr` is the contents of a NUL-terminated string: the list of its `char`s, the terminating NUL
being the end of the list. Character classes are those of the C locale. `strtoul` and `atoi` are base-10
conversions of the C library, the rest are the string helpers of `opkg_utils.c`. -/

namespace FirmwareTools.Opkg

/-- A C string, without its terminating NUL. -/
abbrev CStr := List Char

instance : LawfulBEq CStr := inferInstanceAs (LawfulBEq (List Char))

/-- `isdigit` -/
def isdigit (c : Char) : Bool := '0' ≤ c && c ≤ '9'

/-- `isalpha` in the C locale. -/
def isalpha (c : Char) : Bool := ('a' ≤ c && c ≤ 'z') || ('A' ≤ c && c ≤ 'Z')

/-- `isspace` in the C locale: blank, `\t`, `\n`, `\v`, `\f`, `\r`. -/
def isspace (c : Char) : Bool := c == ' ' || ('\t' ≤ c && c ≤ '\r')

/-- The value of a `char` as an `int`: bytes from `0x80` on are negative. -/
def charVal (c : Char) : Int := if c.toNat < 128 then c.toNat else (c.toNat : Int) - 256

/-- The number a digit sequence denotes, most significant digit first; `0` for the empty one. -/
def digitsValue (ds : CStr) : Nat := ds.foldl (fun n c => 10 * n + (c.toNat - '0'.toNat)) 0

/-- `ULONG_MAX` -/
def ulongMax : Nat := 2 ^ 64 - 1

/-- `strtoul(s, NULL, 10)`: leading white space, an optional sign, then the longest run of digits;
an overflow gives `ULONG_MAX`, a minus sign negates modulo `ULONG_MAX + 1`. -/
def strtoul (s : CStr) : Nat :=
  let signed := s.dropWhile isspace
  let negative := signed.head? == some '-'
  let digits := if negative || signed.head? == some '+' then signed.tail else signed
  let n := digitsValue (digits.takeWhile isdigit)
  if ulongMax < n then ulongMax
  else if negative then (ulongMax + 1 - n) % (ulongMax + 1)
  else n

/-- `atoi`: `strtol` to the base ten, cut to an `int`. -/
def atoi (s : CStr) : Int :=
  let signed := s.dropWhile isspace
  let negative := signed.head? == some '-'
  let digits := if negative || signed.head? == some '+' then signed.tail else signed
  let n : Int := digitsValue (digits.takeWhile isdigit)
  let long := if negative then max (-n) (-2 ^ 63) else min n (2 ^ 63 - 1)
  (long + 2 ^ 31) % 2 ^ 32 - 2 ^ 31

/-- `trim_xstrdup` (`opkg_utils.c`): a copy without white space at either end. -/
def trimXstrdup (src : CStr) : CStr := src.dropWhile isspace |>.rdropWhile isspace

/-- `line_is_blank` (`opkg_utils.c`) -/
def lineIsBlank (line : CStr) : Bool := line.all isspace

/-- `strchr(s, c)` as the part of `s` from the first `c` on, `none` for `NULL`. -/
def strchr (s : CStr) (c : Char) : Option CStr :=
  if c ∈ s then some (s.dropWhile (· != c)) else none

/-- `strcmp`: the difference of the first characters that differ, read as `unsigned char`. -/
def strcmp : CStr → CStr → Int
  | [], [] => 0
  | [], d :: _ => -d.toNat
  | c :: _, [] => c.toNat
  | c :: cs, d :: ds => if c = d then strcmp cs ds else c.toNat - d.toNat

theorem isdigit_iff {c : Char} : isdigit c = true ↔ 48 ≤ c.toNat ∧ c.toNat ≤ 57 := by
  simp only [isdigit, Bool.and_eq_true, decide_eq_true_eq]
  exact Iff.rfl

theorem isalpha_iff {c : Char} : isalpha c = true ↔
    97 ≤ c.toNat ∧ c.toNat ≤ 122 ∨ 65 ≤ c.toNat ∧ c.toNat ≤ 90 := by
  simp only [isalpha, Bool.or_eq_true, Bool.and_eq_true, decide_eq_true_eq]
  exact Iff.rfl

/-- A string with no white space at either end is its own trimmed copy. -/
theorem trimXstrdup_eq_self {s : CStr} (hhead : ∀ c ∈ s.head?, isspace c = false)
    (hlast : ∀ c ∈ s.getLast?, isspace c = false) : trimXstrdup s = s := by
  have hd : s.dropWhile isspace = s := by
    cases s with
    | nil => rfl
    | cons c s => simp [hhead c (by simp)]
  rw [trimXstrdup, hd, List.rdropWhile_eq_self_iff]
  intro hne hsp
  have := hlast (s.getLast hne) (List.getLast?_eq_some_getLast hne)
  simp [this] at hsp

/-! ## Digit sequences as numbers -/

/-- The value of a digit. -/
def digitVal (c : Char) : Nat := c.toNat - '0'.toNat

theorem digitVal_lt {c : Char} (h : isdigit c = true) : digitVal c < 10 := by
  rw [isdigit_iff] at h
  have h0 : '0'.toNat = 48 := rfl
  simp only [digitVal, h0]
  omega

theorem foldl_digits (n : Nat) (ds : CStr) :
    ds.foldl (fun n c => 10 * n + (c.toNat - '0'.toNat)) n
      = n * 10 ^ ds.length + digitsValue ds := by
  induction ds generalizing n with
  | nil => simp [digitsValue]
  | cons d ds ih =>
      rw [digitsValue, List.foldl_cons, List.foldl_cons, ih, ih (10 * 0 + _), List.length_cons,
        pow_succ]
      ring

/-- The leading digit carries the weight of the digits after it. -/
theorem digitsValue_cons (d : Char) (ds : CStr) :
    digitsValue (d :: ds) = digitVal d * 10 ^ ds.length + digitsValue ds := by
  rw [digitsValue, List.foldl_cons, foldl_digits, digitVal]
  ring

/-- `k` digits denote a number below `10 ^ k`. -/
theorem digitsValue_lt {ds : CStr} (h : ∀ d ∈ ds, isdigit d = true) :
    digitsValue ds < 10 ^ ds.length := by
  induction ds with
  | nil => simp [digitsValue]
  | cons d ds ih =>
      rw [digitsValue_cons, List.length_cons, pow_succ]
      have hd : digitVal d < 10 := digitVal_lt (h d List.mem_cons_self)
      have hds := ih fun x hx => h x (List.mem_cons_of_mem _ hx)
      nlinarith [Nat.pow_pos (n := ds.length) (show 0 < 10 by decide)]

/-- Of two digit sequences of one length the leading digits are compared first. -/
theorem compare_digitsValue_cons {c d : Char} {cs ds : CStr} (hc : isdigit c = true)
    (hd : isdigit d = true) (hcs : ∀ x ∈ cs, isdigit x = true) (hds : ∀ x ∈ ds, isdigit x = true)
    (hlen : cs.length = ds.length) :
    compare (digitsValue (c :: cs)) (digitsValue (d :: ds))
      = (compare (charVal c) (charVal d)).then (compare (digitsValue cs) (digitsValue ds)) := by
  rw [isdigit_iff] at hc hd
  have hvc : charVal c = c.toNat := by rw [charVal, if_pos (by omega)]
  have hvd : charVal d = d.toNat := by rw [charVal, if_pos (by omega)]
  have h0 : '0'.toNat = 48 := rfl
  have hcs' := digitsValue_lt hcs
  have hds' := digitsValue_lt hds
  rw [digitsValue_cons, digitsValue_cons, hlen, hvc, hvd, digitVal, digitVal, h0]
  rw [hlen] at hcs'
  rcases lt_trichotomy c.toNat d.toNat with h | h | h
  · have hle : (c.toNat - 48 + 1) * 10 ^ ds.length ≤ (d.toNat - 48) * 10 ^ ds.length :=
      Nat.mul_le_mul_right _ (by omega)
    rw [Nat.add_mul, Nat.one_mul] at hle
    rw [compare_lt_iff_lt.mpr (by omega : (c.toNat : Int) < d.toNat), Ordering.lt_then,
      compare_lt_iff_lt]
    omega
  · rw [compare_eq_iff_eq.mpr (by omega : (c.toNat : Int) = d.toNat), Ordering.eq_then, h]
    rcases lt_trichotomy (digitsValue cs) (digitsValue ds) with h' | h' | h'
    · rw [compare_lt_iff_lt.mpr h', compare_lt_iff_lt]
      omega
    · rw [h', compare_eq_iff_eq.mpr rfl, compare_eq_iff_eq.mpr rfl]
    · rw [compare_gt_iff_gt.mpr h', compare_gt_iff_gt]
      omega
  · have hle : (d.toNat - 48 + 1) * 10 ^ ds.length ≤ (c.toNat - 48) * 10 ^ ds.length :=
      Nat.mul_le_mul_right _ (by omega)
    rw [Nat.add_mul, Nat.one_mul] at hle
    rw [compare_gt_iff_gt.mpr (by omega : (d.toNat : Int) < c.toNat), Ordering.gt_then,
      compare_gt_iff_gt]
    omega

/-- A digit sequence without leading zero is larger than every shorter one. -/
theorem digitsValue_lt_of_length_lt {cs ds : CStr} (hcs : ∀ x ∈ cs, isdigit x = true)
    (hds : ∀ x ∈ ds, isdigit x = true) (hhead : ds.head? ≠ some '0')
    (hlen : cs.length < ds.length) : digitsValue cs < digitsValue ds := by
  cases ds with
  | nil => simp at hlen
  | cons d ds =>
      have hd := hds d List.mem_cons_self
      have hne : d ≠ '0' := by simpa using hhead
      have hpos : 0 < digitVal d := by
        rw [isdigit_iff] at hd
        have h0 : '0'.toNat = 48 := rfl
        have hne' : d.toNat ≠ 48 := fun h => hne (Char.toNat_inj.mp (h.trans h0.symm))
        simp only [digitVal, h0]
        omega
      calc digitsValue cs < 10 ^ cs.length := digitsValue_lt hcs
        _ ≤ 10 ^ ds.length := Nat.pow_le_pow_right (by decide) (by simp at hlen; omega)
        _ ≤ digitVal d * 10 ^ ds.length := Nat.le_mul_of_pos_left _ hpos
        _ ≤ digitsValue (d :: ds) := by rw [digitsValue_cons]; omega

/-- Leading zeros do not count. -/
theorem digitsValue_dropWhile_zero (ds : CStr) :
    digitsValue (ds.dropWhile (· == '0')) = digitsValue ds := by
  induction ds with
  | nil => rfl
  | cons d ds ih =>
      by_cases hd : d = '0'
      · subst hd
        rw [List.dropWhile_cons_of_pos (by decide), ih, digitsValue_cons]
        simp [digitVal]
      · rw [List.dropWhile_cons_of_neg (by simpa using hd)]

end FirmwareTools.Opkg

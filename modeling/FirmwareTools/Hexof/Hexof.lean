import FirmwareTools.Opkg.CString
import Mathlib.Algebra.Group.Even
import Mathlib.Order.Bounds.Defs

/-! # The offset of hexadecimal bytes in a file

`hexof` decodes a pattern of hexadecimal digits by steps of two, up to the 128 bytes of an array, and
compares it with the file at one offset after another.

* **`hexof_exact`** — it prints the first offset at which the bytes occur, or exits with 2 if they do not
  occur, or with 1 if the pattern or the offset is not valid. -/

namespace FirmwareTools.Hexof

open FirmwareTools.Opkg (CStr strtoul)

/-! ## The program -/

/-- `is_hex` -/
def isHex (c : Char) : Bool := ('0' ≤ c && c ≤ '9') || ('A' ≤ c && c ≤ 'F') || ('a' ≤ c && c ≤ 'f')

/-- The value of a hexadecimal digit. -/
def hexValue (c : Char) : ℕ :=
  if c ≤ '9' then c.toNat - '0'.toNat
  else if c ≤ 'F' then c.toNat - 'A'.toNat + 10
  else c.toNat - 'a'.toNat + 10

/-- `sscanf(s, "%2hhx", …)`, where `s` begins with two hexadecimal digits. -/
def scanByte (c d : Char) : UInt8 := UInt8.ofNat (16 * hexValue c + hexValue d)

/-- `sizeof(pattern)` -/
def patternSize : ℕ := 128

/-- What keeps `main` from searching. -/
inductive Refusal where
  | tooLong
  | incomplete
  | startOffset
  deriving DecidableEq

/-- What is written to `stderr`. -/
def Refusal.message : Refusal → String
  | .tooLong => "*** Input pattern is too long.\n"
  | .incomplete => "*** Incomplete hexadecimal bytes.\n"
  | .startOffset => "*** Starting offset exceeds file size.\n"

/-- The loop that converts `patt_hex`, from `patt_hex + i` on. -/
def convertPattern (pattern : List UInt8) : CStr → Except Refusal (List UInt8)
  | [] => .ok pattern
  | [_] =>
    if patternSize ≤ pattern.length then .error .tooLong
    -- the second digit is the terminator, if there is a first one
    else .error .incomplete
  | c :: d :: pattHex =>
    if patternSize ≤ pattern.length then .error .tooLong
    else if !isHex c || !isHex d then .error .incomplete
    else convertPattern (pattern ++ [scanByte c d]) pattHex

/-- The inner loop of `_memmem`: how many bytes agree before it breaks. -/
def agreeing : List UInt8 → List UInt8 → ℕ
  | p :: pt, b :: bf => if p ≠ b then 0 else agreeing pt bf + 1
  | _, _ => 0

/-- `_memmem`, as an offset in `bf`. -/
def memmem (bf pt : List UInt8) : Option ℕ :=
  if bf.length < pt.length then none
  else (List.range (bf.length - pt.length + 1)).find? fun i => agreeing pt (bf.drop i) = pt.length

/-- The end of the program. -/
structure Exit where
  status : ℕ
  /-- The number that is printed. -/
  printed : Option ℕ
  stderr : String
  deriving DecidableEq

/-- `main` with the first argument `patt_hex`, a file that holds `fileData`, and `optarg` of the option `s`,
if it is given. -/
def main (pattHex : CStr) (fileData : List UInt8) (optarg : Option CStr) : Exit :=
  let startOffset := (optarg.map strtoul).getD 0
  match convertPattern [] pattHex with
  | .error e => { status := 1, printed := none, stderr := e.message }
  | .ok pattern =>
    if fileData.length ≤ startOffset then
      { status := 1, printed := none, stderr := Refusal.startOffset.message }
    else match memmem (fileData.drop startOffset) pattern with
      | some pos => { status := 0, printed := some (startOffset + pos), stderr := "" }
      | none => { status := 2, printed := none, stderr := "" }

/-! ## Occurrences -/

/-- The bytes that pairs of digits stand for. -/
def hexBytes : CStr → List UInt8
  | c :: d :: s => scanByte c d :: hexBytes s
  | _ => []

/-- An even number of hexadecimal digits, for at most 128 bytes. -/
structure ValidPattern (pattHex : CStr) : Prop where
  even : Even pattHex.length
  digits : ∀ c ∈ pattHex, isHex c = true
  fits : (hexBytes pattHex).length ≤ patternSize

/-- The bytes stand in the file from the offset `n` on. -/
def OccursAt (bytes fileData : List UInt8) (n : ℕ) : Prop :=
  ∃ front back, fileData = front ++ bytes ++ back ∧ front.length = n

theorem agreeing_eq_iff (pt bf : List UInt8) : agreeing pt bf = pt.length ↔ pt <+: bf := by
  induction pt generalizing bf with
  | nil => simp [agreeing]
  | cons p pt ih =>
      cases bf with
      | nil => simp [agreeing]
      | cons b bf =>
          rw [agreeing, List.cons_prefix_cons, ← ih bf]
          split
          · rename_i hne
            simp [hne]
          · rename_i heq
            simp [not_not.mp heq]

theorem occursAt_iff {bytes fileData : List UInt8} {n : ℕ} :
    OccursAt bytes fileData n ↔ n ≤ fileData.length ∧ bytes <+: fileData.drop n := by
  constructor
  · rintro ⟨front, back, rfl, rfl⟩
    refine ⟨by simp, back, ?_⟩
    rw [List.append_assoc, List.drop_left]
  · rintro ⟨hn, back, hback⟩
    refine ⟨fileData.take n, back, ?_, List.length_take_of_le hn⟩
    rw [List.append_assoc, hback, List.take_append_drop]

/-- **The search**: the first offset at which the bytes stand. -/
theorem memmem_eq_some {bf pt : List UInt8} {i : ℕ} :
    memmem bf pt = some i ↔ IsLeast {n | OccursAt pt bf n} i := by
  have hbound : ∀ n, OccursAt pt bf n → n + pt.length ≤ bf.length := by
    rintro n ⟨front, back, rfl, rfl⟩
    simp only [List.length_append]
    omega
  unfold memmem
  split
  · rename_i hlen
    refine iff_of_false (by simp) fun h => ?_
    have := hbound i h.1
    omega
  · rename_i hlen
    have hagree : ∀ n, n < bf.length - pt.length + 1 →
        (agreeing pt (bf.drop n) = pt.length ↔ OccursAt pt bf n) := by
      intro n hn
      rw [agreeing_eq_iff, occursAt_iff]
      exact (and_iff_right (by omega)).symm
    rw [List.find?_range_eq_some]
    simp only [decide_eq_true_eq, Bool.not_eq_eq_eq_not, Bool.not_true, decide_eq_false_iff_not,
      List.mem_range]
    constructor
    · rintro ⟨hi, hlt, hfirst⟩
      refine ⟨(hagree i hlt).mp hi, fun n hn => ?_⟩
      by_contra hni
      exact hfirst n (by omega) ((hagree n (by omega)).mpr hn)
    · rintro ⟨hi, hleast⟩
      have hlt := hbound i hi
      refine ⟨(hagree i (by omega)).mpr hi, by omega, fun n hn hagreed => ?_⟩
      exact absurd (hleast ((hagree n (by omega)).mp hagreed)) (by omega)

theorem memmem_eq_none {bf pt : List UInt8} : memmem bf pt = none ↔ ¬ ∃ n, OccursAt pt bf n := by
  constructor
  · rintro hnone ⟨n, hn⟩
    classical
    have hfind := Nat.find_spec ⟨n, hn⟩
    have hsome := memmem_eq_some.mpr ⟨hfind, fun k hk => Nat.find_min' ⟨n, hn⟩ hk⟩
    rw [hnone] at hsome
    exact Option.some_ne_none _ hsome.symm
  · intro hno
    rw [Option.eq_none_iff_forall_ne_some]
    exact fun i hi => hno ⟨i, (memmem_eq_some.mp hi).1⟩

/-- The bytes stand in the rest of a file where they stand in the file. -/
theorem occursAt_drop {bytes fileData : List UInt8} {start i : ℕ} (h : start ≤ fileData.length) :
    OccursAt bytes (fileData.drop start) i ↔ OccursAt bytes fileData (start + i) := by
  rw [occursAt_iff, occursAt_iff, List.drop_drop, List.length_drop]
  exact and_congr_left fun _ => by omega

/-! ## The pattern -/

/-- **The conversion** succeeds for a valid pattern. -/
theorem convertPattern_eq_ok (pattern : List UInt8) (pattHex : CStr) (bytes : List UInt8) :
    convertPattern pattern pattHex = .ok bytes ↔
      Even pattHex.length ∧ (∀ c ∈ pattHex, isHex c = true) ∧
      (pattHex ≠ [] → pattern.length + (hexBytes pattHex).length ≤ patternSize) ∧
      bytes = pattern ++ hexBytes pattHex := by
  induction pattern, pattHex using convertPattern.induct with
  | case1 pattern =>
      rw [convertPattern, Except.ok.injEq]
      simp only [List.length_nil, Even.zero, List.not_mem_nil, IsEmpty.forall_iff, implies_true, ne_eq,
        not_true_eq_false, hexBytes, List.append_nil, true_and]
      exact eq_comm
  | case2 pattern c hlong => simp [convertPattern, hlong]
  | case3 pattern c hshort => simp [convertPattern, hshort]
  | case4 pattern c d pattHex hlong =>
      rw [convertPattern, if_pos hlong, hexBytes, List.length_cons]
      refine iff_of_false (by simp) fun h => ?_
      have hfits := h.2.2.1 (List.cons_ne_nil _ _)
      rw [List.length_cons] at hfits
      omega
  | case5 pattern c d pattHex hshort hdigit =>
      rw [convertPattern, if_neg hshort, if_pos hdigit]
      refine iff_of_false (by simp) fun h => ?_
      simp [h.2.1 c (by simp), h.2.1 d (by simp)] at hdigit
  | case6 pattern c d pattHex hshort hdigit ih =>
      rw [convertPattern, if_neg hshort, if_neg hdigit, ih]
      simp only [Bool.or_eq_true, Bool.not_eq_true', not_or, Bool.not_eq_false] at hdigit
      rw [List.length_append, List.length_singleton, List.append_assoc]
      refine and_congr ?_ (and_congr ?_ (and_congr ?_ Iff.rfl))
      · simp only [List.length_cons, Nat.even_add_one, not_not]
      · simp [hdigit]
      · rw [hexBytes, List.length_cons]
        refine ⟨fun h _ => ?_, fun h _ => ?_⟩
        · by_cases hnil : pattHex = []
          · have hnone : (hexBytes pattHex).length = 0 := by
              rw [hnil]
              rfl
            omega
          · have := h hnil
            omega
        · have := h (List.cons_ne_nil _ _)
          omega

theorem convertPattern_nil_eq_ok {pattHex : CStr} {bytes : List UInt8} :
    convertPattern [] pattHex = .ok bytes ↔ ValidPattern pattHex ∧ bytes = hexBytes pattHex := by
  rw [convertPattern_eq_ok, List.nil_append, List.length_nil, Nat.zero_add]
  constructor
  · rintro ⟨heven, hdigits, hfits, hbytes⟩
    refine ⟨⟨heven, hdigits, ?_⟩, hbytes⟩
    by_cases hnil : pattHex = []
    · rw [hnil]
      exact Nat.zero_le _
    · exact hfits hnil
  · rintro ⟨hvalid, hbytes⟩
    exact ⟨hvalid.even, hvalid.digits, fun _ => hvalid.fits, hbytes⟩

/-! ## The program as a whole -/

/-- **`hexof` finds the first occurrence**: it prints `n` and exits with 0 exactly if the pattern is valid,
the offset lies in the file and `n` is the first offset from there on at which the bytes occur; it exits with
2 exactly if there is none, and with 1 in all other cases. -/
theorem hexof_exact (pattHex : CStr) (fileData : List UInt8) (optarg : Option CStr) :
    let start := (optarg.map strtoul).getD 0
    let r := main pattHex fileData optarg
    (∀ n, r.status = 0 ∧ r.printed = some n ↔ ValidPattern pattHex ∧ start < fileData.length ∧
      IsLeast {n | start ≤ n ∧ OccursAt (hexBytes pattHex) fileData n} n) ∧
    (r.status = 2 ↔ ValidPattern pattHex ∧ start < fileData.length ∧
      ¬ ∃ n, start ≤ n ∧ OccursAt (hexBytes pattHex) fileData n) ∧
    (r.status = 1 ↔ ¬ (ValidPattern pattHex ∧ start < fileData.length)) := by
  intro start r
  by_cases hvalid : ValidPattern pattHex
  · have hok := convertPattern_nil_eq_ok.mpr ⟨hvalid, rfl⟩
    by_cases hstart : start < fileData.length
    · have hshift : ∀ i, OccursAt (hexBytes pattHex) (fileData.drop start) i ↔
          OccursAt (hexBytes pattHex) fileData (start + i) := fun i => occursAt_drop hstart.le
      have hr : r = match memmem (fileData.drop start) (hexBytes pattHex) with
          | some pos => { status := 0, printed := some (start + pos), stderr := "" }
          | none => { status := 2, printed := none, stderr := "" } := by
        show main pattHex fileData optarg = _
        simp only [main, hok]
        exact if_neg (Nat.not_le.mpr hstart)
      simp only [hvalid, hstart, true_and, not_true_eq_false, iff_false]
      cases hfind : memmem (fileData.drop start) (hexBytes pattHex) with
      | none =>
          rw [hfind] at hr
          have hno : ¬ ∃ n, start ≤ n ∧ OccursAt (hexBytes pattHex) fileData n := by
            rintro ⟨n, hn, hoccurs⟩
            refine memmem_eq_none.mp hfind ⟨n - start, (hshift _).mpr ?_⟩
            rwa [Nat.add_sub_cancel' hn]
          refine ⟨fun n => iff_of_false (by simp [hr]) fun h => hno ⟨n, h.1⟩, ?_, by simp [hr]⟩
          exact iff_of_true (by rw [hr]) hno
      | some pos =>
          rw [hfind] at hr
          obtain ⟨hoccurs, hleast⟩ := memmem_eq_some.mp hfind
          have hfirst : IsLeast {n | start ≤ n ∧ OccursAt (hexBytes pattHex) fileData n}
              (start + pos) := by
            refine ⟨⟨Nat.le_add_right _ _, (hshift pos).mp hoccurs⟩, fun n hn => ?_⟩
            have hpos : pos ≤ n - start := by
              refine hleast ((hshift _).mpr ?_)
              rw [Nat.add_sub_cancel' hn.1]
              exact hn.2
            have := hn.1
            omega
          refine ⟨fun n => ?_, ?_, by simp [hr]⟩
          · rw [hr]
            constructor
            · rintro ⟨-, hn⟩
              rw [← Option.some.inj hn]
              exact hfirst
            · intro hn
              exact ⟨rfl, congrArg some (hfirst.unique hn)⟩
          · exact iff_of_false (by simp [hr]) fun h => h ⟨_, hfirst.1⟩
    · have hr : r = { status := 1, printed := none, stderr := Refusal.startOffset.message } := by
        show main pattHex fileData optarg = _
        simp only [main, hok]
        exact if_pos (Nat.not_lt.mp hstart)
      simp [hr, hstart]
  · have hr : ∃ e : Refusal, r = { status := 1, printed := none, stderr := e.message } := by
      cases hconvert : convertPattern [] pattHex with
      | error e =>
          refine ⟨e, ?_⟩
          show main pattHex fileData optarg = _
          simp only [main, hconvert]
      | ok bytes => exact absurd (convertPattern_nil_eq_ok.mp hconvert).1 hvalid
    obtain ⟨e, hr⟩ := hr
    simp [hr, hvalid]

end FirmwareTools.Hexof

import Mathlib.Algebra.Order.Group.Int
import Mathlib.Tactic.Common

/-! # Three-way comparison functions

A C comparison function returns an `int` of which only the sign matters. This file collects what
such a function must satisfy to serve `qsort`, binary search or "best candidate" selection
(`ThreeWay`), and the constructions under which the property is closed:

* **`ThreeWay.of_ordering`** — the sign is that of a transitive `Ordering`-valued comparison;
* **`ThreeWay.comap`** — compare through a key;
* **`ThreeWay.lex`** — the C idiom `r = f(a, b); if (r) return r; return g(a, b);`. -/

namespace FirmwareTools

variable {α β : Type*}

/-- The sign of an `int` comparison result, read as an `Ordering`. -/
def cmpSign (r : Int) : Ordering := compare r 0

theorem cmpSign_eq_lt {r : Int} : cmpSign r = .lt ↔ r < 0 := by
  rw [cmpSign, compare_lt_iff_lt]

theorem cmpSign_eq_eq {r : Int} : cmpSign r = .eq ↔ r = 0 := by
  rw [cmpSign, compare_eq_iff_eq]

theorem cmpSign_eq_gt {r : Int} : cmpSign r = .gt ↔ 0 < r := by
  rw [cmpSign, compare_gt_iff_gt]

theorem cmpSign_isLE {r : Int} : (cmpSign r).isLE = true ↔ r ≤ 0 := by
  rw [Ordering.isLE_iff_ne_gt, ← not_lt, ← cmpSign_eq_gt]

/-- Subtracting is comparing. -/
theorem cmpSign_sub (a b : Int) : cmpSign (a - b) = compare a b := by
  rcases lt_trichotomy a b with h | h | h
  · rw [compare_lt_iff_lt.mpr h, cmpSign_eq_lt]
    omega
  · rw [compare_eq_iff_eq.mpr h, cmpSign_eq_eq]
    omega
  · rw [compare_gt_iff_gt.mpr h, cmpSign_eq_gt]
    omega

@[simp] theorem cmpSign_zero : cmpSign 0 = .eq := rfl

/-- The sign of an `int` is `-1`, `0` or `1` according to its `Ordering`. -/
theorem sign_eq_ite (r : Int) :
    r.sign = match cmpSign r with | .lt => -1 | .eq => 0 | .gt => 1 := by
  rcases lt_trichotomy r 0 with hr | hr | hr
  · rw [cmpSign_eq_lt.mpr hr, Int.sign_eq_neg_one_of_neg hr]
  · rw [cmpSign_eq_eq.mpr hr, hr, Int.sign_zero]
  · rw [cmpSign_eq_gt.mpr hr, Int.sign_eq_one_of_pos hr]

/-- `r` and `-s` have the same sign exactly when the two orderings are swaps of each other. -/
theorem sign_eq_neg_sign_iff {r s : Int} : r.sign = -s.sign ↔ cmpSign r = (cmpSign s).swap := by
  rw [sign_eq_ite r, sign_eq_ite s]
  cases cmpSign r <;> cases cmpSign s <;> decide

/-- Results of one sign pass the same tests against `0`. -/
theorem tests_of_sign_eq {r s : Int} (h : r.sign = s.sign) :
    (r ≤ 0 ↔ s ≤ 0) ∧ (0 ≤ r ↔ 0 ≤ s) ∧ (r = 0 ↔ s = 0) := by
  have hle : r ≤ 0 ↔ s ≤ 0 := by rw [← Int.sign_nonpos_iff, h, Int.sign_nonpos_iff]
  have hge : 0 ≤ r ↔ 0 ≤ s := by rw [← Int.sign_nonneg_iff, h, Int.sign_nonneg_iff]
  exact ⟨hle, hge, by omega⟩

/-- **A well-behaved three-way comparison**: swapping the arguments negates the sign, and
"not later than" is transitive. -/
structure ThreeWay (cmp : α → α → Int) : Prop where
  /-- Swapping the arguments negates the sign. -/
  sign_swap : ∀ a b, (cmp a b).sign = -(cmp b a).sign
  /-- `≤` is transitive. -/
  le_trans : ∀ a b c, cmp a b ≤ 0 → cmp b c ≤ 0 → cmp a c ≤ 0

namespace ThreeWay

variable {cmp cmp' : α → α → Int}

/-- Everything compares equal to itself. -/
theorem refl (h : ThreeWay cmp) (a : α) : cmp a a = 0 := by
  have hs := h.sign_swap a a
  exact Int.sign_eq_zero_iff_zero.mp (by omega)

/-- `cmp a b = 0` is symmetric. -/
theorem eq_comm (h : ThreeWay cmp) {a b : α} : cmp a b = 0 ↔ cmp b a = 0 := by
  have hs := h.sign_swap a b
  rw [← Int.sign_eq_zero_iff_zero, ← Int.sign_eq_zero_iff_zero (a := cmp b a)]
  omega

/-- `0 ≤ cmp a b` says that `b` is not later than `a`. -/
theorem nonneg_iff (h : ThreeWay cmp) {a b : α} : 0 ≤ cmp a b ↔ cmp b a ≤ 0 := by
  have hs := h.sign_swap a b
  rcases lt_trichotomy (cmp b a) 0 with hba | hba | hba
  · rw [Int.sign_eq_neg_one_of_neg hba, neg_neg] at hs
    exact iff_of_true (Int.sign_eq_one_iff_pos.mp hs).le hba.le
  · rw [hba, Int.sign_zero, neg_zero] at hs
    exact iff_of_true (Int.sign_eq_zero_iff_zero.mp hs).ge hba.le
  · rw [Int.sign_eq_one_of_pos hba] at hs
    have hab : cmp a b < 0 := Int.sign_eq_neg_one_iff_neg.mp hs
    exact iff_of_false (not_le.mpr hab) (not_le.mpr hba)

/-- **Elements that compare equal are interchangeable** on the left of a comparison. -/
theorem sign_congr (h : ThreeWay cmp) {a b : α} (hab : cmp a b = 0) (c : α) :
    (cmp a c).sign = (cmp b c).sign := by
  have hba : cmp b a = 0 := h.eq_comm.mp hab
  have hle : cmp a c ≤ 0 ↔ cmp b c ≤ 0 :=
    ⟨h.le_trans b a c hba.le, h.le_trans a b c hab.le⟩
  have hge : 0 ≤ cmp a c ↔ 0 ≤ cmp b c := by
    rw [h.nonneg_iff, h.nonneg_iff]
    exact ⟨fun hca => h.le_trans c a b hca hab.le, fun hcb => h.le_trans c b a hcb hba.le⟩
  rcases lt_trichotomy (cmp a c) 0 with hac | hac | hac
  · have hbc : cmp b c < 0 := by
      rcases lt_or_ge (cmp b c) 0 with hlt | hgt
      · exact hlt
      · exact absurd (hge.mpr hgt) (by omega)
    rw [Int.sign_eq_neg_one_of_neg hac, Int.sign_eq_neg_one_of_neg hbc]
  · have hbc : cmp b c = 0 := le_antisymm (hle.mp hac.le) (hge.mp hac.ge)
    rw [hac, hbc]
  · have hbc : 0 < cmp b c := by
      rcases lt_or_ge 0 (cmp b c) with hlt | hgt
      · exact hlt
      · exact absurd (hle.mpr hgt) (by omega)
    rw [Int.sign_eq_one_of_pos hac, Int.sign_eq_one_of_pos hbc]

/-- **A comparison with the sign of a transitive `Ordering` comparison is well behaved.** -/
theorem of_ordering {o : α → α → Ordering} [Std.TransCmp o]
    (h : ∀ a b, cmpSign (cmp a b) = o a b) : ThreeWay cmp where
  sign_swap a b := by
    rw [sign_eq_neg_sign_iff, h, h]
    exact Std.OrientedCmp.eq_swap
  le_trans a b c hab hbc := by
    rw [← cmpSign_isLE, h] at hab hbc ⊢
    exact Std.TransCmp.isLE_trans hab hbc

/-- Comparing through a key keeps the property. -/
theorem comap (h : ThreeWay cmp) (key : β → α) : ThreeWay fun x y => cmp (key x) (key y) where
  sign_swap x y := h.sign_swap (key x) (key y)
  le_trans x y z := h.le_trans (key x) (key y) (key z)

/-- **Lexicographic combination**: the first comparison decides unless it returns `0`. -/
theorem lex (h : ThreeWay cmp) (h' : ThreeWay cmp') :
    ThreeWay fun a b => if cmp a b ≠ 0 then cmp a b else cmp' a b where
  sign_swap a b := by
    by_cases hab : cmp a b = 0
    · have hba : cmp b a = 0 := h.eq_comm.mp hab
      simpa [hab, hba] using h'.sign_swap a b
    · have hba : cmp b a ≠ 0 := fun hba => hab (h.eq_comm.mpr hba)
      simpa [hab, hba] using h.sign_swap a b
  le_trans a b c hab hbc := by
    -- the first comparison is transitive, and is strict as soon as one of its two steps is
    by_cases h1 : cmp a b = 0
    · have hs := h.sign_congr h1 c
      by_cases h2 : cmp b c = 0
      · have h3 : cmp a c = 0 := by simpa [h2] using hs
        simp only [h1, h2, h3, ne_eq, not_true_eq_false, if_false] at hab hbc ⊢
        exact h'.le_trans a b c hab hbc
      · have h3 : cmp a c ≠ 0 := by
          intro h3
          rw [h3, Int.sign_zero] at hs
          exact h2 (Int.sign_eq_zero_iff_zero.mp hs.symm)
        simp only [h2, h3, ne_eq, not_false_eq_true, if_true] at hbc ⊢
        exact h.le_trans a b c h1.le hbc
    · simp only [h1, ne_eq, not_false_eq_true, if_true] at hab
      have hbc' : cmp b c ≤ 0 := by
        by_cases h2 : cmp b c = 0
        · exact h2.le
        · simpa [h2] using hbc
      have h3 : cmp a c ≠ 0 := by
        intro h3
        have hcb : cmp a b ≥ 0 := by
          rw [ge_iff_le, h.nonneg_iff]
          exact h.le_trans b c a hbc' (h.eq_comm.mp h3).le
        omega
      simp only [h3, ne_eq, not_false_eq_true, if_true]
      exact h.le_trans a b c hab hbc'

end ThreeWay

end FirmwareTools

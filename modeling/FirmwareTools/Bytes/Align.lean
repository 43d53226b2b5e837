import Mathlib.Data.Nat.Bitwise
import Mathlib.Tactic.Common

/-! # Alignment of lengths

The least multiple of `m` that is not below `n`, its order laws, and its form as a pair of bit
operations when `m` is a power of two.

* **`alignUp_le_iff`** — `alignUp n m` is the least multiple of `m` from `n` on;
* **`alignUp_alignUp`** — aligning to a divisor first changes nothing;
* **`and_alignMask_eq_alignUp`** — `(n + (m - 1)) & ~(m - 1)` on machine words. -/

namespace FirmwareTools

/-- The least multiple of `m` that is not below `n`. -/
def alignUp (n m : ℕ) : ℕ := (n + (m - 1)) / m * m

/-- The number of pieces of length `m` that cover `n`. -/
theorem add_pred_div (n : ℕ) {m : ℕ} (hm : 0 < m) :
    (n + m - 1) / m = if n % m = 0 then n / m else n / m + 1 := by
  have hmod := Nat.div_add_mod n m
  have hlt := Nat.mod_lt n hm
  generalize n / m = q at hmod ⊢
  generalize n % m = r at hmod hlt ⊢
  subst hmod
  split
  · rename_i hzero
    rw [hzero, show m * q + 0 + m - 1 = m * q + (m - 1) by omega, Nat.mul_add_div hm,
      Nat.div_eq_of_lt (by omega), Nat.add_zero]
  · rw [show m * q + r + m - 1 = m * q + (r - 1) + m by omega, Nat.add_div_right _ hm,
      Nat.mul_add_div hm, Nat.div_eq_of_lt (by omega), Nat.add_zero]

theorem dvd_alignUp (n m : ℕ) : m ∣ alignUp n m := Dvd.intro_left _ rfl

theorem le_alignUp (n : ℕ) {m : ℕ} (hm : 0 < m) : n ≤ alignUp n m := by
  have hlt := Nat.lt_div_mul_add (a := n + (m - 1)) hm
  unfold alignUp
  omega

/-- **The least multiple.** -/
theorem alignUp_le_iff {n m k : ℕ} (hm : 0 < m) (hk : m ∣ k) : alignUp n m ≤ k ↔ n ≤ k := by
  constructor
  · intro h
    exact (le_alignUp n hm).trans h
  · rintro h
    obtain ⟨c, rfl⟩ := hk
    have hdiv : (n + (m - 1)) / m ≤ c := by
      rw [Nat.div_le_iff_le_mul_add_pred hm]
      omega
    calc alignUp n m ≤ c * m := Nat.mul_le_mul_right m hdiv
      _ = m * c := Nat.mul_comm c m

theorem alignUp_of_dvd {n m : ℕ} (hm : 0 < m) (h : m ∣ n) : alignUp n m = n :=
  le_antisymm ((alignUp_le_iff hm h).mpr le_rfl) (le_alignUp n hm)

/-- **Aligning in two steps**: a divisor first, then the multiple. -/
theorem alignUp_alignUp (n : ℕ) {a b : ℕ} (hb : 0 < b) (hab : a ∣ b) :
    alignUp (alignUp n a) b = alignUp n b := by
  have ha : 0 < a := Nat.pos_of_dvd_of_pos hab hb
  apply le_antisymm
  · rw [alignUp_le_iff hb (dvd_alignUp n b), alignUp_le_iff ha (hab.trans (dvd_alignUp n b))]
    exact le_alignUp n hb
  · rw [alignUp_le_iff hb (dvd_alignUp _ b)]
    exact (le_alignUp n ha).trans (le_alignUp _ hb)

/-- Aligning something that is no multiple of `b` moves it by a multiple of every common divisor. -/
theorem add_le_alignUp {n a b : ℕ} (hb : 0 < b) (hab : a ∣ b) (hn : a ∣ n) (h : ¬ b ∣ n) :
    n + a ≤ alignUp n b := by
  have hne : n ≠ alignUp n b := fun heq => h (heq ▸ dvd_alignUp n b)
  have hlt : n < alignUp n b := lt_of_le_of_ne (le_alignUp n hb) hne
  have hsub : a ∣ alignUp n b - n := Nat.dvd_sub (hab.trans (dvd_alignUp n b)) hn
  have hle := Nat.le_of_dvd (Nat.sub_pos_of_lt hlt) hsub
  omega

/-! ## Powers of two -/

theorem testBit_alignUp_two_pow (n i j : ℕ) :
    (alignUp n (2 ^ i)).testBit j = (decide (i ≤ j) && (n + (2 ^ i - 1)).testBit j) := by
  rw [alignUp, ← Nat.shiftRight_eq_div_pow, ← Nat.shiftLeft_eq, Nat.testBit_shiftLeft]
  by_cases hij : i ≤ j
  · rw [Nat.testBit_shiftRight, Nat.add_sub_cancel' hij]
  · simp [hij]

/-- **The mask form**: with a mask of `w` bits the result is cut to `w` bits. -/
theorem and_alignMask_eq_alignUp {n i w : ℕ} (hi : i < w) :
    (n + (2 ^ i - 1)) &&& (2 ^ w - 2 ^ i) = alignUp n (2 ^ i) % 2 ^ w := by
  apply Nat.eq_of_testBit_eq
  intro j
  have hmask : (2 ^ w - 2 ^ i).testBit j = (decide (j < w) && decide (i ≤ j)) := by
    have hlt : 2 ^ i - 1 < 2 ^ w :=
      (Nat.sub_lt (Nat.two_pow_pos i) Nat.one_pos).trans (Nat.pow_lt_pow_right (by decide) hi)
    have hsub : 2 ^ w - 2 ^ i = 2 ^ w - (2 ^ i - 1 + 1) := by
      rw [Nat.sub_add_cancel Nat.one_le_two_pow]
    rw [hsub, Nat.testBit_two_pow_sub_succ hlt, Nat.testBit_two_pow_sub_one]
    by_cases hij : i ≤ j
    · simp [hij]
    · simp [hij, Nat.lt_of_not_le hij]
  rw [Nat.testBit_and, hmask, Nat.testBit_mod_two_pow, testBit_alignUp_two_pow, Bool.and_comm,
    Bool.and_assoc]

end FirmwareTools

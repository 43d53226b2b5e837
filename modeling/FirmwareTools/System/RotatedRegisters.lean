import Mathlib.Algebra.GroupWithZero.Nat
import Mathlib.Algebra.Group.Fin.Basic
import Mathlib.Data.List.Induction
import Mathlib.Tactic.Common

/-! # Registers that change their roles

A round function is defined on registers whose contents move on by one place in each round. Code that
unrolls the rounds leaves the contents where they are and lets the registers change their roles.

* **`foldl_renamed`** — both end in the same state, after any number of rounds that brings the roles back
  to their places. -/

namespace FirmwareTools

variable {n : ℕ} {α ι : Type*}

theorem vector_ext {r s : Vector α n} (h : ∀ j, r.get j = s.get j) : r = s :=
  Vector.ext fun i hi => h ⟨i, hi⟩

@[simp] theorem get_ofFn (f : Fin n → α) (j : Fin n) : (Vector.ofFn f).get j = f j :=
  Vector.getElem_ofFn j.2

theorem get_set (r : Vector α n) (i j : Fin n) (x : α) :
    (r.set i.val x).get j = if i = j then x else r.get j := by
  have hget : ∀ v : Vector α n, v.get j = v[j.val] := fun _ => rfl
  rw [hget, hget, Vector.getElem_set]
  simp only [Fin.ext_iff]

variable [NeZero n]

/-- What is in the roles of round `t`. -/
def inRoles (t : ℕ) (r : Vector α n) : Vector α n := .ofFn fun j => r.get (j - Fin.ofNat n t)

/-- The registers that have this in the roles of round `t`. -/
def fromRoles (t : ℕ) (v : Vector α n) : Vector α n := .ofFn fun j => v.get (j + Fin.ofNat n t)

/-- The contents move on by one place. -/
def movedOn (v : Vector α n) : Vector α n := .ofFn fun j => v.get (j - 1)

@[simp] theorem get_inRoles (t : ℕ) (r : Vector α n) (j : Fin n) :
    (inRoles t r).get j = r.get (j - Fin.ofNat n t) := get_ofFn _ j

@[simp] theorem get_fromRoles (t : ℕ) (v : Vector α n) (j : Fin n) :
    (fromRoles t v).get j = v.get (j + Fin.ofNat n t) := get_ofFn _ j

@[simp] theorem get_movedOn (v : Vector α n) (j : Fin n) : (movedOn v).get j = v.get (j - 1) := get_ofFn _ j

theorem inRoles_fromRoles (t : ℕ) (v : Vector α n) : inRoles t (fromRoles t v) = v :=
  vector_ext fun j => by rw [get_inRoles, get_fromRoles, sub_add_cancel]

theorem fromRoles_inRoles (t : ℕ) (r : Vector α n) : fromRoles t (inRoles t r) = r :=
  vector_ext fun j => by rw [get_fromRoles, get_inRoles, add_sub_cancel_right]

theorem ofNat_succ (t : ℕ) : Fin.ofNat n (t + 1) = Fin.ofNat n t + 1 := by
  apply Fin.ext
  simp [Fin.ofNat, Fin.val_add]

/-- The roles of the next round. -/
theorem inRoles_succ (t : ℕ) (r : Vector α n) : inRoles (t + 1) r = movedOn (inRoles t r) :=
  vector_ext fun j => by
    rw [get_movedOn, get_inRoles, get_inRoles, ofNat_succ, sub_sub, add_comm (1 : Fin n)]

theorem inRoles_of_dvd {t : ℕ} (h : n ∣ t) (r : Vector α n) : inRoles t r = r := by
  have hzero : Fin.ofNat n t = 0 := by
    apply Fin.ext
    simp [Fin.ofNat, Nat.mod_eq_zero_of_dvd h]
  apply vector_ext
  intro j
  rw [get_inRoles, hzero, sub_zero]

/-- Writing a register in its role. -/
theorem fromRoles_set (t : ℕ) (v : Vector α n) (j : Fin n) (x : α) :
    fromRoles t (v.set j.val x) = (fromRoles t v).set (j - Fin.ofNat n t : Fin n).val x := by
  apply vector_ext
  intro i
  rw [get_fromRoles, get_set, get_set, get_fromRoles]
  simp only [sub_eq_iff_eq_add]

/-- **Rounds in changing roles** do what rounds with moving contents do. -/
theorem foldl_renamed (f : Vector α n → ι → Vector α n) (g : ι → Vector α n → Vector α n)
    {rounds : List ι}
    (hround : ∀ t (ht : t < rounds.length) r,
      f r rounds[t] = fromRoles t (g rounds[t] (inRoles t r))) (r : Vector α n) :
    inRoles rounds.length (rounds.foldl f r) = rounds.foldl (fun v i => movedOn (g i v)) r := by
  induction rounds using List.reverseRecOn with
  | nil => exact inRoles_of_dvd (Nat.dvd_zero n) r
  | append_singleton rounds i ih =>
      have hlast := hround rounds.length (by simp) (rounds.foldl f r)
      rw [List.getElem_concat_length rfl] at hlast
      have hbefore : ∀ t (ht : t < rounds.length) r,
          f r rounds[t] = fromRoles t (g rounds[t] (inRoles t r)) := by
        intro t ht r
        have h := hround t (by rw [List.length_append]; omega) r
        rwa [List.getElem_append_left ht] at h
      rw [List.foldl_append, List.foldl_append, List.length_append, List.length_singleton,
        List.foldl_cons, List.foldl_nil, List.foldl_cons, List.foldl_nil, hlast, inRoles_succ,
        inRoles_fromRoles, ih hbefore]

end FirmwareTools

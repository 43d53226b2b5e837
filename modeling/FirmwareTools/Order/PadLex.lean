import FirmwareTools.Order.ThreeWay

/-! # Padded lexicographic comparison

`padCompare cmp pad xs ys` compares two lists element by element as if both were continued for ever
by `pad`. It is the order in which "the string ends here" is itself a value that takes part in the
comparison: with `pad` below every element it is the usual lexicographic order, and with some
elements below `pad` a list may precede its own prefixes.

* **`padCompare_step`** — one element is compared, then the tails;
* the instances **`Std.OrientedCmp`** and **`Std.TransCmp`** — the property of `cmp` is inherited;
* **`padCompare_eq_eq_iff`** — for a lawful `cmp` the comparison returns `.eq` exactly when the
  padded lists agree at every index. -/

namespace FirmwareTools

variable {α β : Type*}

/-- Compare two lists lexicographically, the shorter one continued by `pad`. -/
def padCompare (cmp : α → α → Ordering) (pad : α) : List α → List α → Ordering
  | [], [] => .eq
  | [], y :: ys => (cmp pad y).then (padCompare cmp pad [] ys)
  | x :: xs, [] => (cmp x pad).then (padCompare cmp pad xs [])
  | x :: xs, y :: ys => (cmp x y).then (padCompare cmp pad xs ys)
termination_by xs ys => xs.length + ys.length

section Step

variable (cmp : α → α → Ordering) (pad : α)

@[simp] theorem padCompare_nil_nil : padCompare cmp pad [] [] = .eq := by rw [padCompare]

@[simp] theorem padCompare_cons_cons (x y : α) (xs ys : List α) :
    padCompare cmp pad (x :: xs) (y :: ys) = (cmp x y).then (padCompare cmp pad xs ys) := by
  rw [padCompare]

/-- **One step of the padded comparison**: compare the heads (`pad` where a list has ended), then
the tails. -/
theorem padCompare_step [Std.ReflCmp cmp] (xs ys : List α) :
    padCompare cmp pad xs ys
      = (cmp (xs.headD pad) (ys.headD pad)).then (padCompare cmp pad xs.tail ys.tail) := by
  match xs, ys with
  | [], [] => simp [Std.ReflCmp.compare_self]
  | [], y :: ys => rw [padCompare]; rfl
  | x :: xs, [] => rw [padCompare]; rfl
  | x :: xs, y :: ys => rw [padCompare]; rfl

end Step

section Laws

variable {cmp : α → α → Ordering} {pad : α}

/-- Swapping the lists swaps the padded comparison. -/
theorem padCompare_swap [Std.OrientedCmp cmp] (xs ys : List α) :
    padCompare cmp pad xs ys = (padCompare cmp pad ys xs).swap := by
  induction hn : xs.length + ys.length using Nat.strong_induction_on generalizing xs ys with
  | _ n ih =>
    by_cases hz : n = 0
    · have hx : xs = [] := List.eq_nil_of_length_eq_zero (by omega)
      have hy : ys = [] := List.eq_nil_of_length_eq_zero (by omega)
      simp [hx, hy]
    · rw [padCompare_step cmp pad xs ys, padCompare_step cmp pad ys xs, Ordering.swap_then,
        ← Std.OrientedCmp.eq_swap, ← ih _ (by simp only [List.length_tail]; omega) _ _ rfl]

instance padCompare_oriented [Std.OrientedCmp cmp] : Std.OrientedCmp (padCompare cmp pad) where
  eq_swap := padCompare_swap _ _

/-- `≤` composes along a lexicographic `then`, given that it does in both positions. -/
theorem isLE_then_trans [Std.TransCmp cmp] {x y z : α} {o₁ o₂ o₃ : Ordering}
    (ho : o₁.isLE = true → o₂.isLE = true → o₃.isLE = true)
    (h₁ : ((cmp x y).then o₁).isLE = true) (h₂ : ((cmp y z).then o₂).isLE = true) :
    ((cmp x z).then o₃).isLE = true := by
  rw [Ordering.isLE_then_iff_and] at h₁ h₂ ⊢
  obtain ⟨hxy, h₁⟩ := h₁
  obtain ⟨hyz, h₂⟩ := h₂
  refine ⟨Std.TransCmp.isLE_trans hxy hyz, ?_⟩
  rcases h₁ with hlt | h₁
  · exact Or.inl (Std.TransCmp.lt_of_lt_of_isLE hlt hyz)
  · rcases h₂ with hlt | h₂
    · exact Or.inl (Std.TransCmp.lt_of_isLE_of_lt hxy hlt)
    · exact Or.inr (ho h₁ h₂)

/-- The padded comparison is transitive when the element comparison is. -/
theorem padCompare_isLE_trans [Std.TransCmp cmp] (xs ys zs : List α)
    (h₁ : (padCompare cmp pad xs ys).isLE = true) (h₂ : (padCompare cmp pad ys zs).isLE = true) :
    (padCompare cmp pad xs zs).isLE = true := by
  induction hn : xs.length + ys.length + zs.length using Nat.strong_induction_on
    generalizing xs ys zs with
  | _ n ih =>
    by_cases hz : n = 0
    · have hx : xs = [] := List.eq_nil_of_length_eq_zero (by omega)
      have hz : zs = [] := List.eq_nil_of_length_eq_zero (by omega)
      simp [hx, hz]
    · rw [padCompare_step] at h₁ h₂ ⊢
      refine isLE_then_trans (fun h₁ h₂ => ?_) h₁ h₂
      exact ih _ (by simp only [List.length_tail]; omega) _ _ _ h₁ h₂ rfl

instance padCompare_trans [Std.TransCmp cmp] : Std.TransCmp (padCompare cmp pad) where
  isLE_trans := padCompare_isLE_trans _ _ _

/-- The tail of a padded list is the padded list from index `1` on. -/
theorem tail_getD (xs : List α) (i : ℕ) : xs.tail.getD i pad = xs.getD (i + 1) pad := by
  cases xs <;> simp

/-- **Equality of the padded comparison**: every index of the two padded lists agrees. -/
theorem padCompare_eq_eq_iff [Std.LawfulEqCmp cmp] (xs ys : List α) :
    padCompare cmp pad xs ys = .eq ↔ ∀ i, xs.getD i pad = ys.getD i pad := by
  induction hn : xs.length + ys.length using Nat.strong_induction_on generalizing xs ys with
  | _ n ih =>
    by_cases hz : n = 0
    · have hx : xs = [] := List.eq_nil_of_length_eq_zero (by omega)
      have hy : ys = [] := List.eq_nil_of_length_eq_zero (by omega)
      simp [hx, hy]
    · rw [padCompare_step, Ordering.then_eq_eq, Std.LawfulEqCmp.compare_eq_iff_eq,
        ih _ (by simp only [List.length_tail]; omega) _ _ rfl]
      simp only [tail_getD, List.headD_eq_getD]
      constructor
      · rintro ⟨hhead, htail⟩ i
        cases i with
        | zero => exact hhead
        | succ i => exact htail i
      · exact fun h => ⟨h 0, fun i => h (i + 1)⟩

end Laws

/-- **Change of keys**: two element comparisons that agree on the lists' elements and on the
padding give the same padded comparison. -/
theorem padCompare_map_congr {cmp : α → α → Ordering} {cmp' : β → β → Ordering} {pad : α}
    {pad' : β} {γ : Type*} (f : γ → α) (g : γ → β) (xs ys : List γ)
    (hxy : ∀ x ∈ xs, ∀ y ∈ ys, cmp (f x) (f y) = cmp' (g x) (g y))
    (hx : ∀ x ∈ xs, cmp (f x) pad = cmp' (g x) pad')
    (hy : ∀ y ∈ ys, cmp pad (f y) = cmp' pad' (g y)) :
    padCompare cmp pad (xs.map f) (ys.map f) = padCompare cmp' pad' (xs.map g) (ys.map g) := by
  induction xs generalizing ys with
  | nil =>
      clear hxy hx
      induction ys with
      | nil => simp
      | cons y ys ih =>
          have hys := ih (fun y' hy' => hy y' (List.mem_cons_of_mem _ hy'))
          simp only [List.map_cons, List.map_nil] at hys ⊢
          rw [padCompare, padCompare, hy y List.mem_cons_self, hys]
  | cons x xs ih =>
      have hxs : ∀ x' ∈ xs, cmp (f x') pad = cmp' (g x') pad' :=
        fun x' hx' => hx x' (List.mem_cons_of_mem _ hx')
      cases ys with
      | nil =>
          have hnil := ih [] (by simp) hxs (by simp)
          simp only [List.map_cons, List.map_nil] at hnil ⊢
          rw [padCompare, padCompare, hx x List.mem_cons_self, hnil]
      | cons y ys =>
          simp only [List.map_cons, padCompare_cons_cons]
          rw [hxy x List.mem_cons_self y List.mem_cons_self,
            ih ys (fun x' hx' y' hy' =>
              hxy x' (List.mem_cons_of_mem _ hx') y' (List.mem_cons_of_mem _ hy')) hxs
              (fun y' hy' => hy y' (List.mem_cons_of_mem _ hy'))]

end FirmwareTools

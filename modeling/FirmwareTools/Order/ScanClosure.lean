import Mathlib.Data.List.Infix
import Mathlib.Data.List.Nodup
import Mathlib.Data.Set.Card
import Mathlib.Logic.Function.Iterate
import Mathlib.Tactic.Common

/-! # Closures by scans over a list

Elements have a name, give names and want names. A scan goes through a list and finds the elements that
want a name that has been given, by those at the start or found before. What has been found can be told by
the elements, or by their names: an element whose name has been given then counts as found.

* **`mem_scans_iff`** — scans that tell by elements find the closure;
* **`scans_byName_iff`** — when scans that tell by names find it;
* **`scan_byName_iff`** — when one scan that tells by names finds what wants a name given at the start. -/

namespace FirmwareTools

/-- The name of each element, the names it gives besides, and the names it wants. -/
structure Naming (α ν : Type*) where
  key : α → ν
  gives : α → List ν
  wants : α → List ν

variable {α ν : Type*} (k : Naming α ν)

/-- A name is that of an element of the list, or given by one. -/
def Naming.Given (found : List α) (n : ν) : Prop := ∃ j ∈ found, n = k.key j ∨ n ∈ k.gives j

/-- An element wants a name that is given. -/
def Naming.Wanting (found : List α) (i : α) : Prop := ∃ n ∈ k.wants i, k.Given found n

instance [DecidableEq ν] (found : List α) (n : ν) : Decidable (k.Given found n) :=
  inferInstanceAs (Decidable (∃ j ∈ found, n = k.key j ∨ n ∈ k.gives j))

instance [DecidableEq ν] (found : List α) (i : α) : Decidable (k.Wanting found i) :=
  inferInstanceAs (Decidable (∃ n ∈ k.wants i, k.Given found n))

/-- What counts as found: an element whose name is given, or one that is in the list. -/
def Naming.byName (found : List α) (i : α) : Prop := k.Given found (k.key i)

def byElement (found : List α) (i : α) : Prop := i ∈ found

instance [DecidableEq ν] (found : List α) (i : α) : Decidable (k.byName found i) :=
  inferInstanceAs (Decidable (k.Given found (k.key i)))

instance [DecidableEq α] (found : List α) (i : α) : Decidable (byElement found i) :=
  inferInstanceAs (Decidable (i ∈ found))

section

variable [DecidableEq ν] (counts : List α → α → Prop) [∀ found i, Decidable (counts found i)]

/-- One element of the list. -/
def Naming.scanStep (found : List α) (i : α) : List α :=
  if ¬ counts found i ∧ k.Wanting found i then found ++ [i] else found

/-- A scan. -/
def Naming.scan (vec found : List α) : List α := vec.foldl (k.scanStep counts) found

end

variable {k} {found found' : List α} {i : α} {n : ν}

theorem Naming.Given.mono (h : k.Given found n) (hsub : found ⊆ found') : k.Given found' n := by
  obtain ⟨j, hj, hn⟩ := h
  exact ⟨j, hsub hj, hn⟩

theorem Naming.Wanting.mono (h : k.Wanting found i) (hsub : found ⊆ found') : k.Wanting found' i := by
  obtain ⟨n, hn, hgiven⟩ := h
  exact ⟨n, hn, hgiven.mono hsub⟩

theorem Naming.given_append {front back : List α} :
    k.Given (front ++ back) n ↔ k.Given front n ∨ k.Given back n := by
  constructor
  · rintro ⟨j, hj, hn⟩
    exact (List.mem_append.mp hj).imp (fun h => ⟨j, h, hn⟩) fun h => ⟨j, h, hn⟩
  · rintro (⟨j, hj, hn⟩ | ⟨j, hj, hn⟩)
    · exact ⟨j, List.mem_append_left _ hj, hn⟩
    · exact ⟨j, List.mem_append_right _ hj, hn⟩

theorem Naming.given_singleton : k.Given [i] n ↔ n = k.key i ∨ n ∈ k.gives i := by
  refine ⟨fun ⟨j, hj, hn⟩ => ?_, fun h => ⟨i, List.mem_singleton_self i, h⟩⟩
  rw [List.mem_singleton.mp hj] at hn
  exact hn

/-- What is in the list counts as found by its name too. -/
theorem Naming.byName_of_mem (hi : i ∈ found) : k.byName found i := ⟨i, hi, Or.inl rfl⟩

/-! ## Scans -/

section

variable [DecidableEq ν] (counts : List α → α → Prop) [∀ found i, Decidable (counts found i)]
  {vec : List α}

theorem Naming.scan_cons (i : α) (vec found : List α) :
    k.scan counts (i :: vec) found = k.scan counts vec (k.scanStep counts found i) := rfl

theorem Naming.scan_append (front back found : List α) :
    k.scan counts (front ++ back) found = k.scan counts back (k.scan counts front found) :=
  List.foldl_append

theorem Naming.prefix_scanStep (found : List α) (i : α) : found <+: k.scanStep counts found i := by
  rw [scanStep]
  split_ifs
  · exact List.prefix_append _ _
  · exact List.prefix_rfl

/-- What has been found stays. -/
theorem Naming.prefix_scan (vec found : List α) : found <+: k.scan counts vec found := by
  induction vec generalizing found with
  | nil => exact List.prefix_rfl
  | cons i vec ih => exact (k.prefix_scanStep counts found i).trans (ih _)

variable {counts}

theorem Naming.mem_scanStep {j : α} (hj : j ∈ k.scanStep counts found i) :
    j ∈ found ∨ j = i ∧ k.Wanting found i := by
  rw [scanStep] at hj
  split_ifs at hj with h
  · refine (List.mem_append.mp hj).imp_right fun hj => ⟨List.mem_singleton.mp hj, h.2⟩
  · exact Or.inl hj

/-- What is found is in the list. -/
theorem Naming.mem_scan {j : α} (hj : j ∈ k.scan counts vec found) : j ∈ found ∨ j ∈ vec := by
  induction vec generalizing found with
  | nil => exact Or.inl hj
  | cons i vec ih =>
      rcases ih hj with hj | hj
      · rcases k.mem_scanStep hj with hj | ⟨rfl, -⟩
        · exact Or.inl hj
        · exact Or.inr List.mem_cons_self
      · exact Or.inr (List.mem_cons_of_mem _ hj)

/-- A scan that finds nothing has found all that is wanting. -/
theorem Naming.counts_of_scan_eq (h : k.scan counts vec found = found) (hi : i ∈ vec)
    (hwanting : k.Wanting found i) : counts found i := by
  obtain ⟨front, back, rfl⟩ := List.append_of_mem hi
  rw [scan_append, scan_cons] at h
  -- nothing is found in front of `i`, nor at `i`
  have hfront : k.scan counts front found = found := by
    have hle := ((k.prefix_scanStep counts (k.scan counts front found) i).trans
      (k.prefix_scan counts back _)).length_le
    rw [h] at hle
    exact ((k.prefix_scan counts front found).eq_of_length_le hle).symm
  rw [hfront] at h
  have hstep : k.scanStep counts found i = found := by
    have hle := (k.prefix_scan counts back (k.scanStep counts found i)).length_le
    rw [h] at hle
    exact ((k.prefix_scanStep counts found i).eq_of_length_le hle).symm
  by_contra hnot
  rw [scanStep, if_pos ⟨hnot, hwanting⟩] at hstep
  simp at hstep

/-- Nothing is found twice. -/
theorem Naming.nodup_scan (hcounts : ∀ found i, i ∈ found → counts found i) (vec : List α)
    (hfound : found.Nodup) : (k.scan counts vec found).Nodup := by
  induction vec generalizing found with
  | nil => exact hfound
  | cons i vec ih =>
      refine ih ?_
      rw [scanStep]
      split_ifs with h
      · rw [List.nodup_append]
        refine ⟨hfound, List.nodup_singleton i, fun a ha b hb hab => h.1 (hcounts found i ?_)⟩
        rw [← List.mem_singleton.mp hb, ← hab]
        exact ha
      · exact hfound

/-! ## Scans until nothing is found -/

variable (k counts) in
/-- As many scans. -/
def Naming.scans (vec : List α) (n : ℕ) (found : List α) : List α := (k.scan counts vec)^[n] found

variable (counts) in
theorem Naming.scans_succ (vec : List α) (n : ℕ) (found : List α) :
    k.scans counts vec (n + 1) found = k.scans counts vec n (k.scan counts vec found) := rfl

variable (counts) in
theorem Naming.scans_succ' (vec : List α) (n : ℕ) (found : List α) :
    k.scans counts vec (n + 1) found = k.scan counts vec (k.scans counts vec n found) :=
  Function.iterate_succ_apply' ..

variable (counts) in
theorem Naming.prefix_scans (vec : List α) (n : ℕ) (found : List α) :
    found <+: k.scans counts vec n found := by
  induction n generalizing found with
  | zero => exact List.prefix_rfl
  | succ n ih => exact (k.prefix_scan counts vec found).trans (ih _)

variable (counts) in
theorem Naming.prefix_scans_of_le (vec found : List α) {m n : ℕ} (hle : m ≤ n) :
    k.scans counts vec m found <+: k.scans counts vec n found := by
  obtain ⟨r, rfl⟩ := Nat.exists_eq_add_of_le hle
  induction r with
  | zero => exact List.prefix_rfl
  | succ r ih =>
      rw [← Nat.add_assoc, scans_succ']
      exact (ih (Nat.le_add_right _ _)).trans (k.prefix_scan counts vec _)

theorem Naming.mem_scans {j : α} {m : ℕ} (hj : j ∈ k.scans counts vec m found) : j ∈ found ∨ j ∈ vec := by
  induction m generalizing found with
  | zero => exact Or.inl hj
  | succ m ih =>
      rcases ih hj with hj | hj
      · exact k.mem_scan hj
      · exact Or.inr hj

theorem Naming.nodup_scans (hcounts : ∀ found i, i ∈ found → counts found i) (vec : List α) (m : ℕ)
    (hfound : found.Nodup) : (k.scans counts vec m found).Nodup := by
  induction m generalizing found with
  | zero => exact hfound
  | succ m ih => exact ih (k.nodup_scan hcounts vec hfound)

/-- A scan finds nothing, or the list gets longer. -/
theorem Naming.scans_fixed_or (vec : List α) (m : ℕ) (found : List α) :
    k.scans counts vec (m + 1) found = k.scans counts vec m found ∨
      found.length + (m + 1) ≤ (k.scans counts vec (m + 1) found).length := by
  have hone : ∀ found, k.scan counts vec found = found ∨
      found.length + 1 ≤ (k.scan counts vec found).length := by
    intro found
    have hbegin := k.prefix_scan counts vec found
    rcases Nat.lt_or_ge found.length (k.scan counts vec found).length with hlt | hge
    · exact Or.inr hlt
    · exact Or.inl (hbegin.eq_of_length_le hge).symm
  induction m with
  | zero => exact hone found
  | succ m ih =>
      rw [scans_succ' counts vec (m + 1)]
      rcases ih with hfixed | hlong
      · rw [hfixed, ← scans_succ', hfixed]
        exact Or.inl rfl
      · exact (hone _).imp_right fun h => by omega

/-- **As many scans as the list has elements** find all there is to find. -/
theorem Naming.scan_scans (hcounts : ∀ found i, i ∈ found → counts found i) (hfound : found.Nodup) :
    k.scan counts vec (k.scans counts vec vec.length found) = k.scans counts vec vec.length found := by
  rw [← scans_succ']
  refine (k.scans_fixed_or vec vec.length found).resolve_right fun hlong => ?_
  -- what has been found is in the list, and each element once
  obtain ⟨ds, hds⟩ := k.prefix_scans counts vec (vec.length + 1) found
  have hnodup := k.nodup_scans hcounts vec (vec.length + 1) hfound
  rw [← hds, List.nodup_append] at hnodup
  have hsub : ds ⊆ vec := by
    intro j hj
    have hmem : j ∈ k.scans counts vec (vec.length + 1) found := hds ▸ List.mem_append_right _ hj
    exact (k.mem_scans hmem).resolve_left fun hjf => hnodup.2.2 j hjf j hj rfl
  have hle := (hnodup.2.1.subperm hsub).length_le
  rw [← hds, List.length_append] at hlong
  omega

/-- Further scans find nothing. -/
theorem Naming.scans_of_le {m n : ℕ}
    (h : k.scan counts vec (k.scans counts vec m found) = k.scans counts vec m found) (hle : m ≤ n) :
    k.scans counts vec n found = k.scans counts vec m found := by
  obtain ⟨r, rfl⟩ := Nat.exists_eq_add_of_le hle
  induction r with
  | zero => rfl
  | succ r ih => rw [← Nat.add_assoc, scans_succ', ih (Nat.le_add_right _ _), h]

end

/-! ## The closure -/

/-- What is at the start, and what is in the list and wants a name that such an element gives. -/
inductive Naming.Dependent (k : Naming α ν) (roots vec : List α) : α → Prop
  | root {i : α} (hi : i ∈ roots) : Dependent k roots vec i
  | step {i j : α} {n : ν} (hi : i ∈ vec) (hj : Dependent k roots vec j) (hn : n ∈ k.wants i)
      (hgiven : n = k.key j ∨ n ∈ k.gives j) : Dependent k roots vec i

/-- Each element behind the roots has a name that none in front of it gives. -/
def Naming.FreshNames (k : Naming α ν) (roots found : List α) : Prop :=
  ∀ front i back, found = roots ++ front ++ i :: back → ¬ k.byName (roots ++ front) i

section

variable [DecidableEq ν] {counts : List α → α → Prop} [∀ found i, Decidable (counts found i)]
  {vec roots : List α} {m : ℕ}

/-- What is found belongs to the closure. -/
theorem Naming.dependent_of_mem_scans (hfound : ∀ j ∈ found, k.Dependent roots vec j)
    (hi : i ∈ k.scans counts vec m found) : k.Dependent roots vec i := by
  have hscan : ∀ vec', vec' ⊆ vec → ∀ found, (∀ j ∈ found, k.Dependent roots vec j) →
      ∀ j ∈ k.scan counts vec' found, k.Dependent roots vec j := by
    intro vec'
    induction vec' with
    | nil => exact fun _ _ h => h
    | cons i' vec' ih =>
        intro hsub found hfound
        rw [List.cons_subset] at hsub
        refine ih hsub.2 _ fun j hj => ?_
        rcases k.mem_scanStep hj with hj | ⟨rfl, n, hn, j', hj', hgiven⟩
        · exact hfound j hj
        · exact .step hsub.1 (hfound j' hj') hn hgiven
  induction m generalizing found with
  | zero => exact hfound i hi
  | succ m ih => exact ih (hscan vec (List.Subset.refl _) found hfound) hi

/-- **Scans that tell by elements** find the closure. -/
theorem Naming.mem_scans_iff [DecidableEq α] (hroots : roots.Nodup) :
    i ∈ k.scans byElement vec vec.length roots ↔ k.Dependent roots vec i := by
  refine ⟨k.dependent_of_mem_scans fun j hj => .root hj, fun h => ?_⟩
  have hfixed : k.scan byElement vec (k.scans byElement vec vec.length roots) =
      k.scans byElement vec vec.length roots := k.scan_scans (fun _ _ h => h) hroots
  induction h with
  | root hi => exact (k.prefix_scans byElement vec vec.length roots).subset hi
  | step hi _ hn hgiven ih => exact k.counts_of_scan_eq hfixed hi ⟨_, hn, _, ih, hgiven⟩

end

/-! ## Telling by names -/

theorem Naming.FreshNames.mono {roots : List α} (h : k.FreshNames roots found') (hbegin : found <+: found') :
    k.FreshNames roots found := by
  rintro front i back rfl
  obtain ⟨t, ht⟩ := hbegin
  refine h front i (back ++ t) ?_
  rw [← ht, List.append_assoc, List.cons_append]

theorem Naming.freshNames_roots (roots : List α) : k.FreshNames roots roots := by
  intro front i back heq
  rw [List.append_assoc, List.self_eq_append_right] at heq
  simp at heq

/-- What has not been found though its name is given is not found any more. -/
theorem Naming.FreshNames.not_mem {roots : List α} (h : k.FreshNames roots found') (hroots : roots <+: found)
    (hbegin : found <+: found') (hi : i ∉ found) (hname : k.byName found i) : i ∉ found' := by
  intro hmem
  obtain ⟨t, rfl⟩ := hbegin
  obtain ⟨s, rfl⟩ := hroots
  obtain ⟨front, back, ht⟩ := List.append_of_mem ((List.mem_append.mp hmem).resolve_left hi)
  refine h (s ++ front) i back (by rw [ht, List.append_assoc, List.append_assoc, List.append_assoc]) ?_
  refine Given.mono hname ?_
  rw [← List.append_assoc]
  exact List.subset_append_left _ _

section

variable [DecidableEq ν] {vec roots : List α}

/-- What a scan by names finds has a fresh name. -/
theorem Naming.freshNames_scan (hbegin : roots <+: found) (h : k.FreshNames roots found)
    (vec : List α) : k.FreshNames roots (k.scan k.byName vec found) := by
  induction vec generalizing found with
  | nil => exact h
  | cons i vec ih =>
      refine ih (hbegin.trans (k.prefix_scanStep _ _ _)) ?_
      rw [scanStep]
      split_ifs with hstep
      · intro front d back heq
        rcases List.eq_nil_or_concat back with rfl | ⟨back, b, rfl⟩
        · rw [← List.concat_eq_append, ← List.concat_eq_append, List.concat_inj] at heq
          obtain ⟨rfl, rfl⟩ := heq
          exact hstep.1
        · refine h front d back ?_
          rw [List.concat_eq_append, ← List.cons_append, ← List.append_assoc, ← List.concat_eq_append,
            ← List.concat_eq_append, List.concat_inj] at heq
          exact heq.1
      · exact h

theorem Naming.freshNames_scans (hbegin : roots <+: found) (h : k.FreshNames roots found) (m : ℕ) :
    k.FreshNames roots (k.scans k.byName vec m found) := by
  induction m generalizing found with
  | zero => exact h
  | succ m ih => exact ih (hbegin.trans (k.prefix_scan _ _ _)) (k.freshNames_scan hbegin h vec)

variable [DecidableEq α]

/-- Where the names are fresh, it does not matter how it is told what has been found. -/
theorem Naming.scan_byName_eq (hbegin : roots <+: found)
    (h : k.FreshNames roots (k.scan byElement vec found)) :
    k.scan k.byName vec found = k.scan byElement vec found := by
  induction vec generalizing found with
  | nil => rfl
  | cons i vec ih =>
      have hstep : k.scanStep k.byName found i = k.scanStep byElement found i := by
        rw [scanStep, scanStep]
        by_cases hi : i ∈ found
        · rw [if_neg fun h => h.1 (k.byName_of_mem hi), if_neg fun h => h.1 hi]
        · by_cases hwanting : k.Wanting found i
          · -- the scan by elements finds `i` here
            have hfound : k.scanStep byElement found i = found ++ [i] := if_pos ⟨hi, hwanting⟩
            obtain ⟨front, rfl⟩ := hbegin
            obtain ⟨t, ht⟩ := k.prefix_scan byElement vec (k.scanStep byElement (roots ++ front) i)
            have hfresh := h front i t (by
              rw [scan_cons, ← ht, hfound, List.append_assoc, List.singleton_append])
            rw [if_pos ⟨hfresh, hwanting⟩, if_pos ⟨hi, hwanting⟩]
          · rw [if_neg fun h => hwanting h.2, if_neg fun h => hwanting h.2]
      rw [scan_cons, scan_cons, hstep]
      exact ih (hbegin.trans (k.prefix_scanStep _ _ _)) h

/-- A scan by names that misses nothing finds what one by elements finds. -/
theorem Naming.scan_byElement_eq (hroots : roots <+: found) (h : k.FreshNames roots found')
    (hbegin : k.scan k.byName vec found <+: found') (hall : ∀ i ∈ k.scan byElement vec found, i ∈ found') :
    k.scan byElement vec found = k.scan k.byName vec found := by
  induction vec generalizing found with
  | nil => rfl
  | cons i vec ih =>
      have hstep : k.scanStep byElement found i = k.scanStep k.byName found i := by
        rw [scanStep, scanStep]
        by_cases hi : i ∈ found
        · rw [if_neg fun h => h.1 hi, if_neg fun h => h.1 (k.byName_of_mem hi)]
        · by_cases hwanting : k.Wanting found i
          · have hfound : k.scanStep byElement found i = found ++ [i] := if_pos ⟨hi, hwanting⟩
            have hmem : i ∈ found' := hall i ((k.prefix_scan byElement vec _).subset (by
              rw [hfound]
              exact List.mem_append_right _ (List.mem_singleton_self i)))
            have hfresh : ¬ k.byName found i := fun hname =>
              h.not_mem hroots ((k.prefix_scan _ (i :: vec) found).trans hbegin) hi hname hmem
            rw [if_pos ⟨hi, hwanting⟩, if_pos ⟨hfresh, hwanting⟩]
          · rw [if_neg fun h => hwanting h.2, if_neg fun h => hwanting h.2]
      rw [scan_cons, scan_cons, hstep]
      rw [scan_cons, hstep] at hall
      exact ih (hroots.trans (k.prefix_scanStep _ _ _)) hbegin hall

/-- **Scans that tell by names** find the closure exactly when those that tell by elements come upon
fresh names only. -/
theorem Naming.scans_byName_iff (hroots : roots.Nodup) :
    (∀ i, i ∈ k.scans k.byName vec vec.length roots ↔ k.Dependent roots vec i) ↔
      k.FreshNames roots (k.scans byElement vec vec.length roots) := by
  constructor
  · intro h
    have hfresh : k.FreshNames roots (k.scans k.byName vec vec.length roots) :=
      k.freshNames_scans List.prefix_rfl (k.freshNames_roots roots) _
    -- the scans go together
    have hsame : ∀ m, m ≤ vec.length → k.scans byElement vec m roots = k.scans k.byName vec m roots := by
      intro m
      induction m with
      | zero => exact fun _ => rfl
      | succ m ih =>
          intro hm
          have heq := ih (Nat.le_of_succ_le hm)
          rw [scans_succ', scans_succ', heq]
          refine k.scan_byElement_eq (k.prefix_scans k.byName vec m roots) hfresh ?_ fun i hi => (h i).mpr ?_
          · rw [← scans_succ']
            exact k.prefix_scans_of_le k.byName vec roots hm
          · rw [← heq, ← scans_succ'] at hi
            exact k.dependent_of_mem_scans (fun j hj => .root hj) hi
    rw [hsame _ le_rfl]
    exact hfresh
  · intro h i
    have hsame : ∀ m, m ≤ vec.length → k.scans k.byName vec m roots = k.scans byElement vec m roots := by
      intro m
      induction m with
      | zero => exact fun _ => rfl
      | succ m ih =>
          intro hm
          rw [scans_succ', scans_succ', ih (Nat.le_of_succ_le hm)]
          refine k.scan_byName_eq (k.prefix_scans byElement vec m roots) (h.mono ?_)
          rw [← scans_succ']
          exact k.prefix_scans_of_le byElement vec roots hm
    rw [hsame _ le_rfl, mem_scans_iff hroots]

/-! ## One scan -/

variable (k) in
/-- The start, and what of these elements wants a name that is given there. -/
def Naming.known (roots front : List α) : List α :=
  roots ++ front.filter fun j => j ∉ roots ∧ k.Wanting roots j

variable (k) in
/-- Where the scan comes to an element that wants a name given at the start, its own name has not been
given; where it comes to another one, this has, or it wants no name given by those in front of it. -/
def Naming.SafeAt (roots front : List α) (i : α) : Prop :=
  i ∉ roots → if k.Wanting roots i then ¬ k.byName (k.known roots front) i
    else k.byName (k.known roots front) i ∨ ¬ k.Wanting (k.known roots front) i

variable (k) in
/-- The scan is safe at every element. -/
def Naming.OrderSafe (roots vec : List α) : Prop :=
  ∀ front i back, vec = front ++ i :: back → k.SafeAt roots front i

theorem Naming.known_concat (roots front : List α) (i : α) :
    k.known roots (front ++ [i]) =
      if i ∉ roots ∧ k.Wanting roots i then k.known roots front ++ [i] else k.known roots front := by
  rw [known, known, List.filter_append, List.filter_singleton]
  by_cases h : i ∉ roots ∧ k.Wanting roots i
  · rw [if_pos h, decide_eq_true h, ← List.append_assoc]
    rfl
  · rw [if_neg h, decide_eq_false h]
    exact congrArg (roots ++ ·) (List.append_nil _)

/-- One step of a scan in a safe order. -/
theorem Naming.SafeAt.scanStep_eq {front : List α} (h : k.SafeAt roots front i) :
    k.scanStep k.byName (k.known roots front) i = k.known roots (front ++ [i]) := by
  have hsub : roots ⊆ k.known roots front := List.subset_append_left _ _
  rw [known_concat, scanStep]
  by_cases hi : i ∈ roots
  · rw [if_neg fun h => h.1 (k.byName_of_mem (hsub hi)), if_neg fun h => h.1 hi]
  · have hsafe := h hi
    by_cases hwanting : k.Wanting roots i
    · rw [if_pos hwanting] at hsafe
      rw [if_pos ⟨hsafe, hwanting.mono hsub⟩, if_pos ⟨hi, hwanting⟩]
    · rw [if_neg hwanting] at hsafe
      rw [if_neg fun h => hsafe.elim h.1 fun hnot => hnot h.2, if_neg fun h => hwanting h.2]

/-- A step that finds what it should is safe. -/
theorem Naming.safeAt_of_scanStep {front : List α} (hfront : i ∉ front)
    (h : i ∉ roots → (i ∈ k.scanStep k.byName (k.known roots front) i ↔ k.Wanting roots i)) :
    k.SafeAt roots front i := by
  intro hi
  have hmem := h hi
  have hnot : i ∉ k.known roots front := fun hknown =>
    hfront (List.mem_of_mem_filter ((List.mem_append.mp hknown).resolve_left hi))
  rw [scanStep] at hmem
  by_cases hwanting : k.Wanting roots i
  · rw [if_pos hwanting]
    intro hname
    rw [if_neg fun h => h.1 hname] at hmem
    exact hnot (hmem.mpr hwanting)
  · rw [if_neg hwanting, or_iff_not_imp_left]
    intro hname hwants
    rw [if_pos ⟨hname, hwants⟩] at hmem
    exact hwanting (hmem.mp (List.mem_append_right _ (List.mem_singleton_self i)))

/-- Up to any element in front of which the scan is safe, it has found what it should. -/
theorem Naming.scan_eq_known {front : List α}
    (h : ∀ before i behind, front = before ++ i :: behind → k.SafeAt roots before i) :
    k.scan k.byName front roots = k.known roots front := by
  induction front using List.reverseRecOn with
  | nil => exact (List.append_nil roots).symm
  | append_singleton front i ih =>
      have hfront := ih fun before j behind heq =>
        h before j (behind ++ [i]) (by rw [heq, List.append_assoc, List.cons_append])
      rw [scan_append, hfront]
      exact (h front i [] rfl).scanStep_eq

/-- **One scan that tells by names** finds what wants a name given at the start, and nothing else,
exactly when the order of the list is safe. -/
theorem Naming.scan_byName_iff (hnodup : vec.Nodup) :
    (∀ i ∈ vec, i ∉ roots → (i ∈ k.scan k.byName vec roots ↔ k.Wanting roots i)) ↔
      k.OrderSafe roots vec := by
  constructor
  · intro h front
    -- by induction on the length of what is in front
    induction hn : front.length using Nat.strong_induction_on generalizing front with
    | _ n ih =>
        intro i back hvec
        have hfront : k.scan k.byName front roots = k.known roots front := by
          refine scan_eq_known fun before j behind heq => ?_
          refine ih before.length ?_ before rfl j (behind ++ i :: back) ?_
          · rw [← hn, heq, List.length_append, List.length_cons]
            omega
          · rw [hvec, heq, List.append_assoc, List.cons_append]
        rw [hvec, List.nodup_middle, List.nodup_cons] at hnodup
        have hnot : i ∉ front := fun hmem => hnodup.1 (List.mem_append_left _ hmem)
        refine k.safeAt_of_scanStep hnot fun hi => ?_
        rw [← h i (by rw [hvec]; simp) hi, hvec, scan_append, hfront, scan_cons]
        -- `i` is found here or not at all
        refine ⟨fun hmem => (k.prefix_scan _ back _).subset hmem, fun hmem => ?_⟩
        exact (k.mem_scan hmem).resolve_right fun hback => hnodup.1 (List.mem_append_right _ hback)
  · intro h i hi hroot
    rw [scan_eq_known h, known, List.mem_append, List.mem_filter, decide_eq_true_iff]
    exact ⟨fun hmem => (hmem.resolve_left hroot).2.2, fun hwanting => Or.inr ⟨hi, hroot, hwanting⟩⟩

end

end FirmwareTools

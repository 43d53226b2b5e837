import Mathlib.Data.Set.Insert
import Mathlib.Logic.Relation

/-! # Searching depth first

Every node has a list of successors. A search avoids the nodes that it is at or has left for good, goes to the
successors of a node in their order, and leaves the node after them.

* **`Avoids.iff_of_not_mem`**, **`Avoids.union_iff`** — what is reached from a node is the node itself and what
  is reached from its successors, one after the other;
* **`InTurn`** — no node is reached before its turn comes. -/

namespace FirmwareTools

variable {α : Type*} {succ : α → List α} {S S' : Set α} {d e k : α}

/-- From a node another one is reached along nodes that are not in `S`. -/
inductive Avoids (succ : α → List α) (S : Set α) : α → α → Prop
  | refl {d : α} (hd : d ∉ S) : Avoids succ S d d
  | head {d e k : α} (hd : d ∉ S) (he : e ∈ succ d) (h : Avoids succ S e k) : Avoids succ S d k

namespace Avoids

theorem start (h : Avoids succ S d k) : d ∉ S := by
  cases h with
  | refl hd => exact hd
  | head hd _ _ => exact hd

theorem not_mem (h : Avoids succ S d k) : k ∉ S := by
  induction h with
  | refl hd => exact hd
  | head _ _ _ ih => exact ih

theorem mono (h : Avoids succ S d k) (hsub : S' ⊆ S) : Avoids succ S' d k := by
  induction h with
  | refl hd => exact .refl fun hmem => hd (hsub hmem)
  | head hd he _ ih => exact .head (fun hmem => hd (hsub hmem)) he ih

theorem trans (h : Avoids succ S d e) (h' : Avoids succ S e k) : Avoids succ S d k := by
  induction h with
  | refl _ => exact h'
  | head hd he _ ih => exact .head hd he (ih h')

/-- **The node and its successors**: a way need not come back to the node. -/
theorem iff_of_not_mem (hd : d ∉ S) :
    Avoids succ S d k ↔ k = d ∨ ∃ e ∈ succ d, Avoids succ (insert d S) e k := by
  constructor
  · intro h
    suffices hlast : ∀ x, Avoids succ S x k →
        Avoids succ (insert d S) x k ∨ k = d ∨ ∃ e ∈ succ d, Avoids succ (insert d S) e k from
      (hlast d h).resolve_left fun h' => h'.start (Set.mem_insert d S)
    intro x hx
    induction hx with
    | @refl x hx =>
        by_cases heq : x = d
        · exact .inr (.inl heq)
        · exact .inl (.refl fun hmem => hmem.elim heq hx)
    | @head x e k hx he _ ih =>
        rcases ih (h := h) with hfrom | hlast
        · by_cases heq : x = d
          · exact .inr (.inr ⟨e, heq ▸ he, hfrom⟩)
          · exact .inl (.head (fun hmem => hmem.elim heq hx) he hfrom)
        · exact .inr hlast
  · rintro (rfl | ⟨e, he, h⟩)
    · exact .refl hd
    · exact .head hd he (h.mono (Set.subset_insert d S))

/-- **One after the other**: what has been reached from `d` can be avoided from then on. -/
theorem union_iff : Avoids succ S d k ∨ Avoids succ S e k ↔
    Avoids succ S d k ∨ Avoids succ (S ∪ {x | Avoids succ S d x}) e k := by
  constructor
  · rintro (h | h)
    · exact .inl h
    · induction h with
      | @refl x hx =>
          by_cases hreached : Avoids succ S d x
          · exact .inl hreached
          · exact .inr (.refl fun hmem => hmem.elim hx hreached)
      | @head x y k hx hy h ih =>
          rcases ih with hfrom | hfrom
          · exact .inl hfrom
          · by_cases hreached : Avoids succ S d x
            · exact .inl (hreached.trans (.head hx hy h))
            · exact .inr (.head (fun hmem => hmem.elim hx hreached) hy hfrom)
  · exact Or.imp_right fun h => h.mono Set.subset_union_left

/-- Without anything to avoid. -/
theorem empty_iff : Avoids succ ∅ d k ↔ Relation.ReflTransGen (fun x y => y ∈ succ x) d k := by
  constructor
  · intro h
    induction h with
    | refl _ => exact .refl
    | head _ he _ ih => exact .head he ih
  · intro h
    induction h using Relation.ReflTransGen.head_induction_on with
    | refl => exact .refl (Set.notMem_empty k)
    | head he _ ih => exact .head (Set.notMem_empty _) he ih

end Avoids

/-- The nodes that a search goes to from `d`, if it avoids `S`. -/
noncomputable def ahead (succ : α → List α) (S : Set α) (d : α) : List α := by
  classical exact (succ d).filter fun e => e ∉ insert d S

theorem mem_ahead : e ∈ ahead succ S d ↔ e ∈ succ d ∧ e ∉ insert d S := by
  classical
  unfold ahead
  rw [List.mem_filter, decide_eq_true_iff]

theorem ahead_eq_filter {p : α → Bool} (h : ∀ e ∈ succ d, p e = true ↔ e ∉ insert d S) :
    ahead succ S d = (succ d).filter p := by
  classical
  unfold ahead
  refine List.filter_congr fun e he => ?_
  rw [Bool.eq_iff_iff, decide_eq_true_iff, h e he]

/-- The nodes of a list can be searched from one after the other: none of them, and none of the nodes that a
search goes to from them, is reached before its turn comes. -/
inductive InTurn (succ : α → List α) : Set α → List α → Prop
  | nil (S : Set α) : InTurn succ S []
  | cons {S : Set α} {d : α} {l : List α} (hd : d ∉ S) (hahead : InTurn succ (insert d S) (ahead succ S d))
      (hl : InTurn succ (S ∪ {k | Avoids succ S d k}) l) : InTurn succ S (d :: l)

/-- What is reached from a node is the node and what is reached from the nodes that a search goes to. -/
theorem avoids_iff_ahead (hd : d ∉ S) :
    Avoids succ S d k ↔ k = d ∨ ∃ e ∈ ahead succ S d, Avoids succ (insert d S) e k := by
  rw [Avoids.iff_of_not_mem hd]
  refine or_congr_right (exists_congr fun e => ?_)
  rw [mem_ahead]
  constructor
  · rintro ⟨he, h⟩
    exact ⟨⟨he, h.start⟩, h⟩
  · rintro ⟨⟨he, -⟩, h⟩
    exact ⟨he, h⟩

/-- What is reached from a list of nodes is reached from them one after the other. -/
theorem exists_avoids_cons {l : List α} : (∃ x ∈ d :: l, Avoids succ S x k) ↔
    Avoids succ S d k ∨ ∃ x ∈ l, Avoids succ (S ∪ {y | Avoids succ S d y}) x k := by
  simp only [List.mem_cons, exists_eq_or_imp]
  constructor
  · rintro (h | ⟨x, hx, h⟩)
    · exact .inl h
    · rcases Avoids.union_iff.mp (.inr h) with h | h
      · exact .inl h
      · exact .inr ⟨x, hx, h⟩
  · rintro (h | ⟨x, hx, h⟩)
    · exact .inl h
    · exact .inr ⟨x, hx, h.mono Set.subset_union_left⟩

end FirmwareTools

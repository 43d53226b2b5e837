import FirmwareTools.System.LinkedRing
import Mathlib.Data.Set.Insert

/-! # Families of rings

Some heads stand for lists. Their rings have no head in common, so a head that is taken out of one of them
and put in at the end of another one, or in front of a head of it, leaves all the others alone.

* **`Ring.rotate`** — a ring can be read from any of its heads on;
* **`Rings.put`** — a head comes to the end of a list;
* **`Rings.putBefore`** — a head comes in front of another one. -/

namespace FirmwareTools

variable {α : Type*} {m : Links α} {owner : Set α} {contents contents' : α → List α} {o o' p x : α}
  {xs ys : List α}

/-- A ring from another one of its heads on. -/
theorem Ring.rotate (h : Ring m o (xs ++ p :: ys)) : Ring m p (ys ++ o :: xs) := by
  refine ⟨?_, ?_⟩
  · have hnodup := h.nodup
    rw [← List.cons_append] at hnodup ⊢
    exact List.nodup_append_comm.mp hnodup
  · have hchain := h.chain
    rw [show o :: (xs ++ p :: ys) ++ [o] = (o :: xs) ++ p :: (ys ++ [o]) by simp,
      List.isChain_split] at hchain
    rw [show p :: (ys ++ o :: xs) ++ [p] = (p :: ys) ++ o :: (xs ++ [p]) by simp, List.isChain_split]
    exact ⟨hchain.2, hchain.1⟩

/-- The rings of the owners, which have no head in common. -/
structure Rings (m : Links α) (owner : Set α) (contents : α → List α) : Prop where
  ring : ∀ o ∈ owner, Ring m o (contents o)
  apart : ∀ o ∈ owner, ∀ o' ∈ owner, ∀ p, p ∈ o :: contents o → p ∈ o' :: contents o' → o = o'

/-- Only the contents of the owners matter. -/
theorem Rings.congr (h : Rings m owner contents) (hsame : ∀ o ∈ owner, contents' o = contents o) :
    Rings m owner contents' where
  ring o ho := hsame o ho ▸ h.ring o ho
  apart o ho o' ho' p hp hp' := h.apart o ho o' ho' p (hsame o ho ▸ hp) (hsame o' ho' ▸ hp')

/-- An owner is on no list. -/
theorem Rings.owner_not_mem (h : Rings m owner contents) (ho : o ∈ owner) (hx : x ∈ owner) :
    x ∉ contents o := by
  intro hmem
  have heq := h.apart o ho x hx x (List.mem_cons_of_mem _ hmem) List.mem_cons_self
  rw [heq] at hmem
  exact (List.nodup_cons.mp (h.ring x hx).nodup).1 hmem

/-- A head is on one list only. -/
theorem Rings.eq_of_mem (h : Rings m owner contents) (ho : o ∈ owner) (ho' : o' ∈ owner)
    (hx : x ∈ contents o) (hx' : x ∈ contents o') : o = o' :=
  h.apart o ho o' ho' x (List.mem_cons_of_mem _ hx) (List.mem_cons_of_mem _ hx')

variable [DecidableEq α]

/-- **Reading a ring from another one of its heads on.** -/
theorem Rings.rotate (h : Rings m owner contents) (ho : o ∈ owner) (hp : contents o = xs ++ p :: ys) :
    Rings m (insert p (owner \ {o})) (Function.update contents p (ys ++ o :: xs)) := by
  have hmem : p ∈ contents o := by
    rw [hp]
    exact List.mem_append_right _ List.mem_cons_self
  have hother : ∀ q ∈ owner, q ≠ p := fun q hq heq => h.owner_not_mem ho (heq ▸ hq) hmem
  have hsame : ∀ u, u ∈ p :: (ys ++ o :: xs) ↔ u ∈ o :: contents o := by
    intro u
    simp only [hp, List.mem_cons, List.mem_append]
    tauto
  have hcases : ∀ q ∈ insert p (owner \ {o}), ∀ u,
      u ∈ q :: Function.update contents p (ys ++ o :: xs) q →
      q = p ∧ u ∈ o :: contents o ∨ q ∈ owner \ {o} ∧ u ∈ q :: contents q := by
    intro q hq u hu
    rcases Set.mem_insert_iff.mp hq with heq | hin
    · rw [heq, Function.update_self, hsame] at hu
      exact .inl ⟨heq, hu⟩
    · rw [Function.update_of_ne (hother q hin.1)] at hu
      exact .inr ⟨hin, hu⟩
  refine ⟨fun q hq => ?_, fun q hq q' hq' u hu hu' => ?_⟩
  · rcases Set.mem_insert_iff.mp hq with heq | hin
    · rw [heq, Function.update_self]
      exact Ring.rotate (hp ▸ h.ring o ho)
    · rw [Function.update_of_ne (hother q hin.1)]
      exact h.ring q hin.1
  · rcases hcases q hq u hu with ⟨heq, hu⟩ | ⟨hin, hu⟩
    · rcases hcases q' hq' u hu' with ⟨heq', -⟩ | ⟨hin', hu'⟩
      · exact heq.trans heq'.symm
      · exact absurd (h.apart o ho q' hin'.1 u hu hu').symm hin'.2
    · rcases hcases q' hq' u hu' with ⟨-, hu'⟩ | ⟨hin', hu'⟩
      · exact absurd (h.apart q hin.1 o ho u hu hu') hin.2
      · exact h.apart q hin.1 q' hin'.1 u hu hu'

/-- The lists after `x` has been moved to the end of the one of `o'`. -/
def moved (contents : α → List α) (x o' : α) (q : α) : List α :=
  if q = o' then (contents q).erase x ++ [x] else (contents q).erase x

theorem mem_moved : p ∈ moved contents x o' o → p = x ∧ o = o' ∨ p ∈ contents o := by
  intro hp
  unfold moved at hp
  split at hp
  · rename_i heq
    rcases List.mem_append.mp hp with hp | hp
    · exact .inr (List.mem_of_mem_erase hp)
    · exact .inl ⟨List.mem_singleton.mp hp, heq⟩
  · exact .inr (List.mem_of_mem_erase hp)

/-- A head that is alone, or on a list. -/
def Placed (owner : Set α) (contents : α → List α) (x : α) : Prop :=
  (x ∈ owner ∧ contents x = []) ∨ ∃ o ∈ owner, x ∈ contents o

/-- Taking out a head leaves the lists without it. -/
theorem Rings.listDelInit (h : Rings m owner contents) (hx : Placed owner contents x) :
    (∀ o ∈ owner, o ≠ x → Ring (m.listDelInit x) o ((contents o).erase x)) := by
  intro q hq hqx
  rcases hx with ⟨hx, hempty⟩ | ⟨o, ho, hx⟩
  · have halone := h.ring x hx
    rw [hempty] at halone
    rw [Links.listDelInit_alone halone.next_head halone.prev_head,
      List.erase_of_not_mem (h.owner_not_mem hq hx)]
    exact h.ring q hq
  · obtain ⟨xs, ys, hsplit⟩ := List.append_of_mem hx
    have hring := h.ring o ho
    rw [hsplit] at hring
    by_cases hqo : q = o
    · have hnodup := (List.nodup_cons.mp hring.nodup).2
      rw [List.nodup_middle, List.nodup_cons, List.mem_append, not_or] at hnodup
      rw [hqo, hsplit, List.erase_append_right _ hnodup.1.1, List.erase_cons_head]
      exact ring_listDelInit hring
    · rw [List.erase_of_not_mem fun hmem => hqo (h.eq_of_mem hq ho hmem hx)]
      refine (h.ring q hq).congr fun p hp => hring.listDelInit_of_not_mem fun hp' => hqo ?_
      rw [← hsplit] at hp'
      exact h.apart q hq o ho p hp hp'

/-- **Putting a head at the end of a list.** -/
theorem Rings.put (h : Rings m owner contents) (hx : Placed owner contents x) (ho' : o' ∈ owner)
    (hne : o' ≠ x) :
    Rings ((m.listDelInit x).listAddTail x o') (owner \ {x}) (moved contents x o') := by
  have hdel := h.listDelInit hx
  have hnot : ∀ q ∈ owner, q ≠ x → x ∉ q :: (contents q).erase x := by
    intro q hq hqx hmem
    rcases List.mem_cons.mp hmem with heq | hmem
    · exact hqx heq.symm
    · exact (List.Nodup.not_mem_erase (List.nodup_cons.mp (h.ring q hq).nodup).2) hmem
  -- what is on a list afterwards was on it, or is `x` and it is the one of `o'`
  have hback : ∀ q ∈ owner \ {x}, ∀ p, p ∈ q :: moved contents x o' q →
      p = x ∧ q = o' ∨ p ≠ x ∧ p ∈ q :: contents q := by
    intro q hq p hp
    rcases List.mem_cons.mp hp with rfl | hp
    · exact .inr ⟨hq.2, List.mem_cons_self⟩
    · by_cases hpx : p = x
      · refine .inl ⟨hpx, ?_⟩
        by_contra hqo
        rw [moved, if_neg hqo] at hp
        exact hnot q hq.1 hq.2 (List.mem_cons_of_mem _ (hpx ▸ hp))
      · rcases mem_moved hp with ⟨heq, -⟩ | hp
        · exact absurd heq hpx
        · exact .inr ⟨hpx, List.mem_cons_of_mem _ hp⟩
  refine ⟨fun q hq => ?_, fun q hq q' hq' p hp hp' => ?_⟩
  · unfold moved
    split
    · rename_i heq
      subst heq
      exact ring_listAddTail (hdel q hq.1 hq.2) (hnot q hq.1 hq.2)
    · rename_i hqo
      refine (hdel q hq.1 hq.2).congr fun p hp => ?_
      have hpx : p ≠ x := fun heq => hnot q hq.1 hq.2 (heq ▸ hp)
      refine (hdel o' ho' hne).listAddTail_of_not_mem hpx fun hp' => hqo ?_
      have hsub : ∀ q, p ∈ q :: (contents q).erase x → p ∈ q :: contents q := fun q hmem =>
        List.mem_cons.mpr ((List.mem_cons.mp hmem).imp id List.mem_of_mem_erase)
      exact h.apart q hq.1 o' ho' p (hsub q hp) (hsub o' hp')
  · rcases hback q hq p hp with ⟨hpx, hqo⟩ | ⟨hpx, hp⟩
    · rcases hback q' hq' p hp' with ⟨-, hqo'⟩ | ⟨hpx', -⟩
      · exact hqo.trans hqo'.symm
      · exact absurd hpx hpx'
    · rcases hback q' hq' p hp' with ⟨hpx', -⟩ | ⟨-, hp'⟩
      · exact absurd hpx' hpx
      · exact h.apart q hq.1 q' hq'.1 p hp hp'

/-- **Putting a head in front of another one.** -/
theorem Rings.putBefore (h : Rings m owner contents) (hx : Placed owner contents x) (ho : o ∈ owner)
    (hp : contents o = xs ++ p :: ys) (hxo : x ≠ o) (hxnot : x ∉ contents o) :
    Rings ((m.listDelInit x).listAddTail x p) (owner \ {x})
      (fun q => if q = o then xs ++ x :: p :: ys else (contents q).erase x) := by
  have hmem : p ∈ contents o := by
    rw [hp]
    exact List.mem_append_right _ List.mem_cons_self
  have hpnot : p ∉ owner := fun hpo => h.owner_not_mem ho hpo hmem
  have hpx : p ≠ x := fun heq => hxnot (heq ▸ hmem)
  have hfar : x ∉ ys ++ o :: xs := by
    rw [hp] at hxnot
    simp only [List.mem_append, List.mem_cons, not_or] at hxnot ⊢
    exact ⟨hxnot.2.2, hxo, hxnot.1⟩
  -- the ring of `o` is read from `p` on, so that `x` comes to its end
  have hrotated := h.rotate ho hp
  have hplaced : Placed (insert p (owner \ {o})) (Function.update contents p (ys ++ o :: xs)) x := by
    rcases hx with ⟨hxowner, hempty⟩ | ⟨o', ho', hxin⟩
    · refine .inl ⟨Set.mem_insert_of_mem p ⟨hxowner, hxo⟩, ?_⟩
      rw [Function.update_of_ne (Ne.symm hpx), hempty]
    · have hne : o' ≠ o := fun heq => hxnot (heq ▸ hxin)
      refine .inr ⟨o', Set.mem_insert_of_mem p ⟨ho', hne⟩, ?_⟩
      rw [Function.update_of_ne (show o' ≠ p from fun heq => hpnot (heq ▸ ho'))]
      exact hxin
  have hput := hrotated.put hplaced (Set.mem_insert p _) hpx
  have hback := @Rings.rotate _ _ _ _ p o ys (xs ++ [x]) _ hput ⟨Set.mem_insert p _, hpx⟩ (by
    rw [moved, if_pos rfl, Function.update_self, List.erase_of_not_mem hfar, List.append_assoc,
      List.cons_append])
  have howner : insert o ((insert p (owner \ {o}) \ {x}) \ {p}) = owner \ {x} := by
    ext q
    simp only [Set.mem_insert_iff, Set.mem_sdiff, Set.mem_singleton_iff]
    constructor
    · rintro (rfl | ⟨⟨rfl | ⟨hq, -⟩, hqx⟩, hqp⟩)
      · exact ⟨ho, Ne.symm hxo⟩
      · exact absurd rfl hqp
      · exact ⟨hq, hqx⟩
    · rintro ⟨hq, hqx⟩
      by_cases hqo : q = o
      · exact .inl hqo
      · exact .inr ⟨⟨.inr ⟨hq, hqo⟩, hqx⟩, fun heq => hpnot (heq ▸ hq)⟩
  rw [howner] at hback
  refine hback.congr fun q hq => ?_
  have hqp : q ≠ p := fun heq => hpnot (heq ▸ hq.1)
  by_cases hqo : q = o
  · rw [if_pos hqo, hqo, Function.update_self, List.append_assoc, List.singleton_append]
  · rw [if_neg hqo, Function.update_of_ne hqo, moved, if_neg hqp, Function.update_of_ne hqp]

/-- **A head that has been initialised** is alone. -/
theorem Rings.init (h : Rings m owner contents) (hx : ∀ o ∈ owner, x ∉ o :: contents o) :
    Rings (m.initListHead x) (insert x owner) (Function.update contents x []) := by
  have hother : ∀ q ∈ owner, q ≠ x := fun q hq heq => hx q hq (heq ▸ List.mem_cons_self)
  have hcases : ∀ q ∈ insert x owner, ∀ u, u ∈ q :: Function.update contents x [] q →
      q = x ∧ u = x ∨ q ∈ owner ∧ u ∈ q :: contents q := by
    intro q hq u hu
    rcases Set.mem_insert_iff.mp hq with heq | hin
    · rw [heq, Function.update_self, List.mem_singleton] at hu
      exact .inl ⟨heq, hu⟩
    · rw [Function.update_of_ne (hother q hin)] at hu
      exact .inr ⟨hin, hu⟩
  refine ⟨fun q hq => ?_, fun q hq q' hq' u hu hu' => ?_⟩
  · rcases Set.mem_insert_iff.mp hq with heq | hin
    · rw [heq, Function.update_self]
      exact ring_initListHead m x
    · rw [Function.update_of_ne (hother q hin)]
      refine (h.ring q hin).congr fun u hu => ?_
      have hux : u ≠ x := fun heq => hx q hin (heq ▸ hu)
      simp [Links.initListHead, Links.setNext, Links.setPrev, hux]
  · rcases hcases q hq u hu with ⟨heq, hu⟩ | ⟨hin, hu⟩
    · rcases hcases q' hq' u hu' with ⟨heq', -⟩ | ⟨hin', hu'⟩
      · exact heq.trans heq'.symm
      · exact absurd (hu ▸ hu') (hx q' hin')
    · rcases hcases q' hq' u hu' with ⟨-, hu'⟩ | ⟨hin', hu'⟩
      · exact absurd (hu' ▸ hu) (hx q hin)
      · exact h.apart q hin q' hin' u hu hu'

end FirmwareTools

import Mathlib.Data.List.Chain
import Mathlib.Data.List.Nodup
import Mathlib.Logic.Function.Basic
import Mathlib.Tactic.Common

/-! # Circular doubly-linked lists

A list head has a `next` and a `prev` field. The heads of a list, the one that stands for the list among
them, are linked to a ring. Taking a head out and putting one in at the end change three links each.

* **`ring_listDelInit`** — the ring without a head that has been taken out;
* **`ring_listAddTail`** — the ring with a head that has been put in at its end. -/

namespace FirmwareTools

variable {α : Type*}

/-- The links of all list heads. -/
structure Links (α : Type*) where
  next : α → α
  prev : α → α

section

variable [DecidableEq α]

/-- Write the field `next` of a head. -/
def Links.setNext (m : Links α) (p q : α) : Links α := { m with next := Function.update m.next p q }

/-- Write the field `prev` of a head. -/
def Links.setPrev (m : Links α) (p q : α) : Links α := { m with prev := Function.update m.prev p q }

/-- `INIT_LIST_HEAD` -/
def Links.initListHead (m : Links α) (p : α) : Links α := (m.setNext p p).setPrev p p

/-- `__list_add` -/
def Links.listAdd (m : Links α) (newitem prev next : α) : Links α :=
  (((m.setPrev next newitem).setNext newitem next).setPrev newitem prev).setNext prev newitem

/-- `list_add_tail` -/
def Links.listAddTail (m : Links α) (newitem head : α) : Links α :=
  m.listAdd newitem (m.prev head) head

/-- `__list_del` -/
def Links.listDel (m : Links α) (prev next : α) : Links α := (m.setPrev next prev).setNext prev next

/-- `list_del_init` -/
def Links.listDelInit (m : Links α) (entry : α) : Links α :=
  (m.listDel (m.prev entry) (m.next entry)).initListHead entry

variable {m : Links α} {a b x p : α}

theorem Links.next_listAdd : (m.listAdd x a b).next p
    = if p = a then x else if p = x then b else m.next p := by
  simp only [listAdd, setNext, setPrev, Function.update_apply]

theorem Links.prev_listAdd : (m.listAdd x a b).prev p
    = if p = x then a else if p = b then x else m.prev p := by
  simp only [listAdd, setNext, setPrev, Function.update_apply]

theorem Links.next_listDelInit : (m.listDelInit x).next p
    = if p = x then x else if p = m.prev x then m.next x else m.next p := by
  simp only [listDelInit, listDel, initListHead, setNext, setPrev, Function.update_apply]

theorem Links.prev_listDelInit : (m.listDelInit x).prev p
    = if p = x then x else if p = m.next x then m.prev x else m.prev p := by
  simp only [listDelInit, listDel, initListHead, setNext, setPrev, Function.update_apply]

end

/-! ## Rings -/

/-- `b` comes behind `a`. -/
def Links.Linked (m : Links α) (a b : α) : Prop := m.next a = b ∧ m.prev b = a

/-- From `head` the links go through `xs` and back. -/
structure Ring (m : Links α) (head : α) (xs : List α) : Prop where
  nodup : (head :: xs).Nodup
  chain : List.IsChain m.Linked (head :: xs ++ [head])

/-- A chain only says something about each element but the last, and what comes behind it. -/
theorem isChain_imp_of_mem {R S : α → α → Prop} {l : List α} (h : List.IsChain R l)
    (himp : ∀ u ∈ l.dropLast, ∀ v ∈ l.tail, R u v → S u v) : List.IsChain S l := by
  induction l with
  | nil => exact .nil
  | cons u l ih =>
      cases l with
      | nil => exact .singleton u
      | cons v l =>
          rw [List.isChain_cons_cons] at h ⊢
          refine ⟨himp u ?_ v List.mem_cons_self h.1, ih h.2 fun a ha b hb => himp a ?_ b ?_⟩
          · rw [List.dropLast_cons_cons]
            exact List.mem_cons_self
          · rw [List.dropLast_cons_cons]
            exact List.mem_cons_of_mem _ ha
          · exact List.mem_cons_of_mem _ hb

variable {m m' : Links α} {head x p : α} {xs ys : List α}

/-- The links of the heads of a ring make it. -/
theorem Ring.congr (h : Ring m head xs)
    (hsame : ∀ p ∈ head :: xs, m'.next p = m.next p ∧ m'.prev p = m.prev p) : Ring m' head xs := by
  refine ⟨h.nodup, isChain_imp_of_mem h.chain fun u hu v hv huv => ?_⟩
  rw [List.dropLast_concat] at hu
  have hv' : v ∈ head :: xs := by
    rcases List.mem_append.mp hv with hv | hv
    · exact List.mem_cons_of_mem _ hv
    · rw [List.mem_singleton.mp hv]
      exact List.mem_cons_self
  exact ⟨(hsame u hu).1.trans huv.1, (hsame v hv').2.trans huv.2⟩

/-- What is behind the head. -/
theorem Ring.next_head (h : Ring m head xs) : m.next head = xs.headD head := by
  cases xs with
  | nil => exact (List.isChain_cons_cons.mp h.chain).1.1
  | cons x xs => exact (List.isChain_cons_cons.mp h.chain).1.1

/-- What is behind a head of the list. -/
theorem Ring.next_mem (h : Ring m head (xs ++ x :: ys)) : m.next x = ys.headD head := by
  have hchain := h.chain
  rw [List.cons_append, List.append_assoc, List.cons_append, ← List.cons_append,
    List.isChain_split] at hchain
  cases ys with
  | nil => exact (List.isChain_cons_cons.mp hchain.2).1.1
  | cons y ys => exact (List.isChain_cons_cons.mp hchain.2).1.1

/-- The last of a list that begins with `head`. -/
theorem exists_concat (head : α) (xs : List α) : ∃ init, head :: xs = init ++ [xs.getLastD head] := by
  rcases List.eq_nil_or_concat xs with rfl | ⟨ys, y, rfl⟩
  · exact ⟨[], rfl⟩
  · refine ⟨head :: ys, ?_⟩
    rw [List.concat_eq_append, List.getLastD_concat, List.cons_append]

/-- What is in front of a head of the list. -/
theorem Ring.prev_mem (h : Ring m head (xs ++ x :: ys)) : m.prev x = xs.getLastD head := by
  have hchain := h.chain
  obtain ⟨init, hinit⟩ := exists_concat head xs
  rw [← List.cons_append, hinit, List.append_assoc, List.append_assoc, List.singleton_append,
    List.isChain_split] at hchain
  exact (List.isChain_cons_cons.mp hchain.2).1.2

/-- The last is in front of the head. -/
theorem Ring.prev_head (h : Ring m head xs) : m.prev head = xs.getLastD head := by
  have hchain := h.chain
  obtain ⟨init, hinit⟩ := exists_concat head xs
  rw [hinit, List.append_assoc, List.singleton_append, List.isChain_split] at hchain
  exact (List.isChain_cons_cons.mp hchain.2).1.2

variable [DecidableEq α]

/-- A head that has been initialised. -/
theorem ring_initListHead (m : Links α) (x : α) : Ring (m.initListHead x) x [] := by
  refine ⟨List.nodup_singleton x, List.isChain_pair.mpr ⟨?_, ?_⟩⟩
  · exact Function.update_self ..
  · exact Function.update_self ..

/-- Links that are not to or from `x` stay. -/
theorem Links.Linked.listDelInit {u v : α} (h : m.Linked u v) (hu : u ≠ x) (hu' : u ≠ m.prev x)
    (hv : v ≠ x) (hv' : v ≠ m.next x) : (m.listDelInit x).Linked u v := by
  refine ⟨?_, ?_⟩
  · rw [next_listDelInit, if_neg hu, if_neg hu', h.1]
  · rw [prev_listDelInit, if_neg hv, if_neg hv', h.2]

/-- **Taking a head out.** -/
theorem ring_listDelInit (h : Ring m head (xs ++ x :: ys)) : Ring (m.listDelInit x) head (xs ++ ys) := by
  have hnext := h.next_mem
  have hprev := h.prev_mem
  have hchain := h.chain
  have hnodup := h.nodup
  rw [← List.cons_append, List.nodup_middle, List.nodup_cons] at hnodup
  obtain ⟨hx, hsub⟩ := hnodup
  -- `x` is between `a` and `b`
  obtain ⟨init, hinit⟩ := exists_concat head xs
  generalize xs.getLastD head = a at hprev hinit
  obtain ⟨b, rest, hrest, hb⟩ : ∃ b rest, ys ++ [head] = b :: rest ∧ ys.headD head = b := by
    cases ys with
    | nil => exact ⟨head, [], rfl, rfl⟩
    | cons y ys => exact ⟨y, ys ++ [head], rfl, rfl⟩
  rw [hb] at hnext
  have hback : (ys ++ [head]).Nodup := by
    have hsub' := List.nodup_append.mp hsub
    rw [List.nodup_append]
    refine ⟨hsub'.2.1, List.nodup_singleton head, fun u hu v hv => ?_⟩
    rw [List.mem_singleton.mp hv]
    exact fun heq => hsub'.2.2 head List.mem_cons_self u hu heq.symm
  have hfront : (init ++ [a]).Nodup := hinit ▸ (List.nodup_append.mp hsub).1
  have hdisjoint : ∀ u ∈ init ++ [a], u ≠ x ∧ u ∉ ys := by
    intro u hu
    rw [← hinit] at hu
    refine ⟨fun heq => hx (heq ▸ List.mem_append_left _ hu), fun hmem => ?_⟩
    exact (List.nodup_append.mp hsub).2.2 u hu u hmem rfl
  have hsame : ∀ v ∈ b :: rest, v ≠ x ∧ v ∉ xs := by
    intro v hv
    rw [← hrest] at hv
    have hsub' := List.nodup_cons.mp hsub
    rcases List.mem_append.mp hv with hv | hv
    · exact ⟨fun heq => hx (heq ▸ List.mem_append_right _ hv), fun hmem =>
        (List.nodup_append.mp hsub'.2).2.2 v hmem v hv rfl⟩
    · rw [List.mem_singleton.mp hv]
      exact ⟨fun heq => hx (heq ▸ List.mem_append_left _ List.mem_cons_self),
        fun hmem => hsub'.1 (List.mem_append_left _ hmem)⟩
  refine ⟨hsub, ?_⟩
  rw [show head :: (xs ++ x :: ys) ++ [head] = init ++ a :: x :: b :: rest by
    rw [← List.cons_append, hinit, List.append_assoc, List.cons_append, hrest, List.append_assoc,
      List.singleton_append], List.isChain_split, List.isChain_cons_cons, List.isChain_cons_cons] at hchain
  rw [show head :: (xs ++ ys) ++ [head] = init ++ a :: b :: rest by
    rw [← List.cons_append, hinit, List.append_assoc, hrest, List.append_assoc, List.singleton_append],
    List.isChain_split, List.isChain_cons_cons]
  have hmem : a ∈ init ++ [a] := List.mem_append_right _ (List.mem_singleton_self a)
  refine ⟨isChain_imp_of_mem hchain.1 fun u hu v hv huv => ?_, ⟨?_, ?_⟩,
    isChain_imp_of_mem hchain.2.2.2 fun u hu v hv huv => ?_⟩
  · rw [List.dropLast_concat] at hu
    rw [← hinit, List.tail_cons] at hv
    refine huv.listDelInit (hdisjoint u (List.mem_append_left _ hu)).1 ?_ ?_ ?_
    · rw [hprev]
      exact fun heq => (List.nodup_append.mp hfront).2.2 u hu a (List.mem_singleton_self a) heq
    · exact fun heq => hx (heq ▸ List.mem_append_left _ (List.mem_cons_of_mem _ hv))
    · rw [hnext]
      exact fun heq => (hsame b List.mem_cons_self).2 (heq ▸ hv)
  · rw [Links.next_listDelInit, if_neg (hdisjoint a hmem).1, hprev, if_pos rfl, hnext]
  · rw [Links.prev_listDelInit, if_neg (hsame b List.mem_cons_self).1, hnext, if_pos rfl, hprev]
  · rw [← hrest, List.dropLast_concat] at hu
    have hv' := List.mem_cons_of_mem b hv
    refine huv.listDelInit (fun heq => hx (heq ▸ List.mem_append_right _ hu)) ?_ (hsame v hv').1 ?_
    · rw [hprev]
      exact fun heq => (hdisjoint a hmem).2 (heq ▸ hu)
    · rw [hnext]
      rw [hrest, List.nodup_cons] at hback
      exact fun heq => hback.1 (heq ▸ hv)

/-- **Putting a head in at the end.** -/
theorem ring_listAddTail (h : Ring m head xs) (hx : x ∉ head :: xs) :
    Ring (m.listAddTail x head) head (xs ++ [x]) := by
  have hprev := h.prev_head
  have hchain := h.chain
  obtain ⟨init, hinit⟩ := exists_concat head xs
  generalize xs.getLastD head = a at hprev hinit
  have hnodup := h.nodup
  have ha : a ∈ head :: xs := by
    rw [hinit]
    exact List.mem_append_right _ (List.mem_singleton_self a)
  refine ⟨?_, ?_⟩
  · rw [← List.cons_append, List.nodup_append]
    refine ⟨hnodup, List.nodup_singleton x, fun u hu v hv heq => hx ?_⟩
    rw [← List.mem_singleton.mp hv, ← heq]
    exact hu
  · rw [hinit, List.append_assoc, List.singleton_append, List.isChain_split] at hchain
    rw [← List.cons_append, hinit, List.append_assoc, List.append_assoc, List.singleton_append,
      List.isChain_split, List.singleton_append, List.isChain_cons_cons, List.isChain_pair]
    unfold Links.listAddTail
    rw [hprev]
    refine ⟨isChain_imp_of_mem hchain.1 fun u hu v hv huv => ⟨?_, ?_⟩, ⟨?_, ?_⟩, ⟨?_, ?_⟩⟩
    · -- neither the last of them nor the new one
      rw [List.dropLast_concat] at hu
      have hua : u ≠ a := by
        rintro rfl
        rw [hinit] at hnodup
        exact (List.nodup_append.mp hnodup).2.2 u hu u (List.mem_singleton_self u) rfl
      have hux : u ≠ x := by
        rintro rfl
        refine hx ?_
        rw [hinit]
        exact List.mem_append_left _ hu
      rw [Links.next_listAdd, if_neg hua, if_neg hux, huv.1]
    · rw [← hinit, List.tail_cons] at hv
      have hvx : v ≠ x := fun heq => hx (heq ▸ List.mem_cons_of_mem _ hv)
      have hvh : v ≠ head := fun heq => (List.nodup_cons.mp hnodup).1 (heq ▸ hv)
      rw [Links.prev_listAdd, if_neg hvx, if_neg hvh, huv.2]
    · rw [Links.next_listAdd, if_pos rfl]
    · rw [Links.prev_listAdd, if_pos rfl]
    · have hxa : x ≠ a := fun heq => hx (heq ▸ ha)
      rw [Links.next_listAdd, if_neg hxa, if_pos rfl]
    · have hxh : head ≠ x := fun heq => hx (heq ▸ List.mem_cons_self)
      rw [Links.prev_listAdd, if_neg hxh, if_pos rfl]

/-! ## Other heads -/

/-- Taking a head out changes the links of its ring only. -/
theorem Ring.listDelInit_of_not_mem (h : Ring m head (xs ++ x :: ys))
    (hp : p ∉ head :: (xs ++ x :: ys)) :
    (m.listDelInit x).next p = m.next p ∧ (m.listDelInit x).prev p = m.prev p := by
  have hpx : p ≠ x := by
    rintro rfl
    exact hp (List.mem_cons_of_mem _ (List.mem_append_right _ List.mem_cons_self))
  have hprev : p ≠ m.prev x := by
    rintro rfl
    rw [h.prev_mem] at hp
    obtain ⟨init, hinit⟩ := exists_concat head xs
    rw [← List.cons_append, hinit] at hp
    exact hp (List.mem_append_left _ (List.mem_append_right _ (List.mem_singleton_self _)))
  have hnext : p ≠ m.next x := by
    rintro rfl
    rw [h.next_mem] at hp
    cases ys with
    | nil => exact hp List.mem_cons_self
    | cons y ys =>
        refine hp (List.mem_cons_of_mem _ (List.mem_append_right _ (List.mem_cons_of_mem _ ?_)))
        exact List.mem_cons_self
  refine ⟨?_, ?_⟩
  · rw [Links.next_listDelInit, if_neg hpx, if_neg hprev]
  · rw [Links.prev_listDelInit, if_neg hpx, if_neg hnext]

/-- Putting a head in changes its links and those of the ring only. -/
theorem Ring.listAddTail_of_not_mem (h : Ring m head xs) (hpx : p ≠ x) (hp : p ∉ head :: xs) :
    (m.listAddTail x head).next p = m.next p ∧ (m.listAddTail x head).prev p = m.prev p := by
  have hprev : p ≠ m.prev head := by
    rintro rfl
    rw [h.prev_head] at hp
    obtain ⟨init, hinit⟩ := exists_concat head xs
    rw [hinit] at hp
    exact hp (List.mem_append_right _ (List.mem_singleton_self _))
  have hhead : p ≠ head := fun heq => hp (heq ▸ List.mem_cons_self)
  refine ⟨?_, ?_⟩
  · rw [Links.listAddTail, Links.next_listAdd, if_neg hprev, if_neg hpx]
  · rw [Links.listAddTail, Links.prev_listAdd, if_neg hpx, if_neg hhead]

/-- Taking out a head that is alone changes nothing. -/
theorem Links.listDelInit_alone (hnext : m.next x = x) (hprev : m.prev x = x) : m.listDelInit x = m := by
  cases m with
  | mk next prev =>
      dsimp only at hnext hprev
      have hn : Function.update next x x = next := by rw [Function.update_eq_self_iff, hnext]
      have hp : Function.update prev x x = prev := by rw [Function.update_eq_self_iff, hprev]
      simp only [listDelInit, listDel, initListHead, setNext, setPrev, hnext, hprev, hn, hp]

/-- **Moving a head** from a ring to the end of another one. -/
theorem Ring.move {a b : α} {zs : List α} (h : Ring m a (xs ++ x :: ys)) (h' : Ring m b zs)
    (hdisjoint : ∀ p ∈ a :: (xs ++ x :: ys), p ∉ b :: zs) :
    Ring ((m.listDelInit x).listAddTail x b) a (xs ++ ys) ∧
      Ring ((m.listDelInit x).listAddTail x b) b (zs ++ [x]) ∧
      ∀ p, p ∉ a :: (xs ++ x :: ys) → p ∉ b :: zs →
        ((m.listDelInit x).listAddTail x b).next p = m.next p ∧
          ((m.listDelInit x).listAddTail x b).prev p = m.prev p := by
  have hmem : x ∈ a :: (xs ++ x :: ys) :=
    List.mem_cons_of_mem _ (List.mem_append_right _ List.mem_cons_self)
  have hx := hdisjoint x hmem
  -- the ring of `b` does not notice that `x` is taken out
  have hright : Ring (m.listDelInit x) b zs :=
    h'.congr fun p hp => h.listDelInit_of_not_mem fun hpa => hdisjoint p hpa hp
  have hnodup := h.nodup
  rw [← List.cons_append, List.nodup_middle, List.nodup_cons] at hnodup
  refine ⟨(ring_listDelInit h).congr fun p hp => ?_, ring_listAddTail hright hx, fun p ha hb => ?_⟩
  · refine hright.listAddTail_of_not_mem (fun heq => hnodup.1 (heq ▸ hp)) (hdisjoint p ?_)
    rcases List.mem_cons.mp hp with rfl | hp
    · exact List.mem_cons_self
    · refine List.mem_cons_of_mem _ (List.mem_append.mpr ((List.mem_append.mp hp).imp id ?_))
      exact List.mem_cons_of_mem _
  · have hpx : p ≠ x := fun heq => ha (heq ▸ hmem)
    obtain ⟨hn, hp⟩ := hright.listAddTail_of_not_mem hpx hb
    obtain ⟨hn', hp'⟩ := h.listDelInit_of_not_mem ha
    exact ⟨hn.trans hn', hp.trans hp'⟩

end FirmwareTools

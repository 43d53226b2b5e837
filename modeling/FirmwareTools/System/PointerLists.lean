import FirmwareTools.System.RingFamily

/-! # Lists with pointers in their elements

The elements have a `next` and a `prev` pointer, which may be null. A circular list has no head of its own: a
pointer leads to its first element. A chain begins at a pointer and ends with a null one.

* **`Circular.insert`**, **`Circular.remove`** — putting an element in at the end, and taking one out;
* **`Chained.insert`**, **`Chained.remove`** — putting one in at the front, and taking one out. -/

namespace FirmwareTools

variable {α : Type*}

/-- The pointers of all elements. -/
structure Pointers (α : Type*) where
  next : α → Option α
  prev : α → Option α

/-- Null pointers lead back to their element. -/
def Pointers.links (m : Pointers α) : Links α where
  next x := (m.next x).getD x
  prev x := (m.prev x).getD x

section

variable [DecidableEq α]

/-- Write the field `next` of an element. -/
def Pointers.setNext (m : Pointers α) (x : α) (q : Option α) : Pointers α :=
  { m with next := Function.update m.next x q }

/-- Write the field `prev` of an element. -/
def Pointers.setPrev (m : Pointers α) (x : α) (q : Option α) : Pointers α :=
  { m with prev := Function.update m.prev x q }

/-- Write `prev` of the element behind a pointer, if it is not null. -/
def Pointers.setPrev? (m : Pointers α) (x : Option α) (q : Option α) : Pointers α :=
  match x with
  | some x => m.setPrev x q
  | none => m

/-- Put an element in at the end of a circular list. There is no result if a null pointer is followed. -/
def Pointers.insertCircular (m : Pointers α) (list : Option α) (x : α) : Option (Pointers α × Option α) :=
  match list with
  | some first => do
    let m := (m.setNext x (some first)).setPrev x (m.prev first)
    let last ← m.prev first
    some ((m.setNext last (some x)).setPrev first (some x), list)
  | none => some ((m.setPrev x (some x)).setNext x (some x), some x)

/-- Take an element out of a circular list, if it is on one. -/
def Pointers.removeCircular (m : Pointers α) (list : Option α) (x : α) : Pointers α × Option α :=
  let (m, list) :=
    if m.prev x = some x ∧ m.next x = some x then (m, none)
    else match m.prev x, m.next x with
      | some p, some n =>
        ((m.setPrev n (some p)).setNext p (some n), if list = some x then some n else list)
      | _, _ => (m, list)
  ((m.setPrev x none).setNext x none, list)

/-- Put an element in at the front of a chain. -/
def Pointers.insertChain (m : Pointers α) (first : Option α) (x : α) : Pointers α :=
  ((m.setNext x first).setPrev x none).setPrev? first (some x)

/-- Take an element out of a chain. -/
def Pointers.removeChain (m : Pointers α) (first : Option α) (x : α) : Pointers α × Option α :=
  let next := m.next x
  let (m, first) := match m.prev x with
    | some p => (m.setNext p next, first)
    | none => (m, next)
  let m := m.setPrev? next (m.prev x)
  ((m.setPrev x none).setNext x none, first)

end

/-! ## Circular lists -/

/-- From `list` the pointers lead through `l` and back. -/
structure Circular (m : Pointers α) (list : Option α) (l : List α) : Prop where
  first : list = l.head?
  next : ∀ x ∈ l, m.next x ≠ none
  prev : ∀ x ∈ l, m.prev x ≠ none
  ring : ∀ h t, l = h :: t → Ring m.links h t

variable {m m' : Pointers α} {list : Option α} {l : List α} {x y : α}

theorem Circular.nodup (h : Circular m list l) : l.Nodup := by
  cases l with
  | nil => exact List.nodup_nil
  | cons y l => exact (h.ring y l rfl).nodup

/-- Only the pointers of the elements matter. -/
theorem Circular.congr (h : Circular m list l)
    (hsame : ∀ x ∈ l, m'.next x = m.next x ∧ m'.prev x = m.prev x) : Circular m' list l where
  first := h.first
  next x hx := (hsame x hx).1 ▸ h.next x hx
  prev x hx := (hsame x hx).2 ▸ h.prev x hx
  ring y t hl := by
    refine (h.ring y t hl).congr fun p hp => ?_
    obtain ⟨hnext, hprev⟩ := hsame p (hl ▸ hp)
    exact ⟨congrArg (·.getD p) hnext, congrArg (·.getD p) hprev⟩

/-- An element is linked to others of the list. -/
theorem Circular.neighbours (h : Circular m list l) (hx : x ∈ l) :
    ∃ n ∈ l, ∃ p ∈ l, m.next x = some n ∧ m.prev x = some p := by
  obtain ⟨n, hn⟩ := Option.ne_none_iff_exists'.mp (h.next x hx)
  obtain ⟨p, hp⟩ := Option.ne_none_iff_exists'.mp (h.prev x hx)
  have hnext : m.links.next x = n := by
    show (m.next x).getD x = n
    rw [hn, Option.getD_some]
  have hprev : m.links.prev x = p := by
    show (m.prev x).getD x = p
    rw [hp, Option.getD_some]
  suffices hmem : n ∈ l ∧ p ∈ l from ⟨n, hmem.1, p, hmem.2, hn, hp⟩
  obtain ⟨y, t, hl⟩ := List.exists_cons_of_ne_nil (List.ne_nil_of_mem hx)
  have hring := h.ring y t hl
  have hheadD : ∀ t' : List α, (∀ z ∈ t', z ∈ l) → t'.headD y ∈ l := by
    intro t' ht'
    cases t' with
    | nil => exact hl ▸ List.mem_cons_self
    | cons z t' => exact ht' z List.mem_cons_self
  have hgetLastD : ∀ t' : List α, (∀ z ∈ t', z ∈ l) → t'.getLastD y ∈ l := by
    intro t' ht'
    rcases List.eq_nil_or_concat t' with rfl | ⟨init, z, rfl⟩
    · exact hl ▸ List.mem_cons_self
    · rw [List.concat_eq_append, List.getLastD_concat]
      exact ht' z (by simp)
  rw [hl, List.mem_cons] at hx
  rcases hx with rfl | hx
  · rw [← hnext, ← hprev, hring.next_head, hring.prev_head]
    have hsub : ∀ z ∈ t, z ∈ l := fun z hz => hl ▸ List.mem_cons_of_mem _ hz
    exact ⟨hheadD t hsub, hgetLastD t hsub⟩
  · obtain ⟨xs, ys, rfl⟩ := List.append_of_mem hx
    rw [← hnext, ← hprev, hring.next_mem, hring.prev_mem]
    exact ⟨hheadD ys fun z hz => hl ▸ by simp [hz], hgetLastD xs fun z hz => hl ▸ by simp [hz]⟩

/-! ## Chains -/

/-- A chain as a ring, which the null pointer is the head of. -/
def Pointers.chainLinks (m : Pointers α) (first last : Option α) : Links (Option α) where
  next := fun
    | none => first
    | some x => m.next x
  prev := fun
    | none => last
    | some x => m.prev x

/-- From `first` the pointers lead through `l` to the null one. -/
def Chained (m : Pointers α) (first : Option α) (l : List α) : Prop :=
  Ring (m.chainLinks first l.getLast?) none (l.map some)

variable {first : Option α} {xs ys : List α}

theorem headD_map_some (l : List α) : (l.map some).headD none = l.head? := by
  cases l <;> rfl

theorem getLastD_map_some (l : List α) : (l.map some).getLastD none = l.getLast? := by
  rw [List.getLastD_eq_getLast?, List.getLast?_map]
  cases l.getLast? <;> rfl

theorem Chained.first_eq (h : Chained m first l) : first = l.head? := by
  have hnext := Ring.next_head h
  rw [headD_map_some] at hnext
  exact hnext

theorem Chained.next_eq (h : Chained m first (xs ++ x :: ys)) : m.next x = ys.head? := by
  rw [Chained, List.map_append, List.map_cons] at h
  have hnext := h.next_mem
  rw [headD_map_some] at hnext
  exact hnext

theorem Chained.prev_eq (h : Chained m first (xs ++ x :: ys)) : m.prev x = xs.getLast? := by
  rw [Chained, List.map_append, List.map_cons] at h
  have hprev := h.prev_mem
  rw [getLastD_map_some] at hprev
  exact hprev

/-- A ring that the null pointer is the head of is a chain. -/
theorem chained_of_ring {links : Links (Option α)} (h : Ring links none (l.map some))
    (hfirst : links.next none = first) (hnext : ∀ x ∈ l, links.next (some x) = m.next x)
    (hprev : ∀ x ∈ l, links.prev (some x) = m.prev x) : Chained m first l := by
  refine h.congr fun u hu => ?_
  rcases List.mem_cons.mp hu with rfl | hu
  · refine ⟨hfirst.symm, ?_⟩
    rw [h.prev_head, getLastD_map_some]
    rfl
  · obtain ⟨x, hx, rfl⟩ := List.mem_map.mp hu
    exact ⟨(hnext x hx).symm, (hprev x hx).symm⟩

/-- Only the pointers of the elements matter. -/
theorem Chained.congr (h : Chained m first l)
    (hsame : ∀ x ∈ l, m'.next x = m.next x ∧ m'.prev x = m.prev x) : Chained m' first l :=
  chained_of_ring h rfl (fun x hx => (hsame x hx).1.symm) fun x hx => (hsame x hx).2.symm

/-! ## Putting in and taking out -/

variable [DecidableEq α]

/-- **Putting an element in** at the end. -/
theorem Circular.insert (h : Circular m list l) (hx : x ∉ l) :
    ∃ m' list', m.insertCircular list x = some (m', list') ∧ Circular m' list' (l ++ [x]) ∧
      ∀ y, y ≠ x → y ∉ l → m'.next y = m.next y ∧ m'.prev y = m.prev y := by
  cases l with
  | nil =>
      refine ⟨_, _, by rw [h.first]; rfl, ⟨rfl, ?_, ?_, ?_⟩, fun y hy _ => ?_⟩
      · intro y hy
        obtain rfl := List.mem_singleton.mp hy
        simp [Pointers.setNext]
      · intro y hy
        obtain rfl := List.mem_singleton.mp hy
        simp [Pointers.setNext, Pointers.setPrev]
      · intro y t hl
        obtain ⟨rfl, rfl⟩ := List.cons.inj hl
        refine ⟨List.nodup_singleton _, List.isChain_pair.mpr ?_⟩
        simp [Links.Linked, Pointers.links, Pointers.setNext, Pointers.setPrev]
      · simp [Pointers.setNext, Pointers.setPrev, hy]
  | cons f t =>
      obtain ⟨-, -, last, hlast, -, hprev⟩ := h.neighbours (x := f) List.mem_cons_self
      have hne : f ≠ x := fun heq => hx (heq ▸ List.mem_cons_self)
      have hne' : last ≠ x := fun heq => hx (heq ▸ hlast)
      have hm' : m.insertCircular list x = some ((((m.setNext x (some f)).setPrev x (some last)).setNext last
          (some x)).setPrev f (some x), list) := by
        rw [h.first, List.head?_cons, Pointers.insertCircular, hprev]
        show (Function.update m.prev x (some last) f).bind _ = _
        rw [Function.update_of_ne hne, hprev]
        rfl
      have hlink : m.links.prev f = last := by
        show (m.prev f).getD f = last
        rw [hprev, Option.getD_some]
      have hnext' : ∀ y, ((((m.setNext x (some f)).setPrev x (some last)).setNext last (some x)).setPrev f
          (some x)).next y = if y = last then some x else if y = x then some f else m.next y := by
        intro y
        simp only [Pointers.setNext, Pointers.setPrev, Function.update_apply]
      have hprev' : ∀ y, ((((m.setNext x (some f)).setPrev x (some last)).setNext last (some x)).setPrev f
          (some x)).prev y = if y = f then some x else if y = x then some last else m.prev y := by
        intro y
        simp only [Pointers.setNext, Pointers.setPrev, Function.update_apply]
      refine ⟨_, _, hm', ⟨h.first, fun y hy => ?_, fun y hy => ?_, ?_⟩, fun y hy hyl => ⟨?_, ?_⟩⟩
      · rw [hnext']
        split
        · exact Option.some_ne_none x
        · split
          · exact Option.some_ne_none f
          · rename_i hyx
            refine h.next y ((List.mem_append.mp hy).resolve_right fun hmem => hyx ?_)
            exact List.mem_singleton.mp hmem
      · rw [hprev']
        split
        · exact Option.some_ne_none x
        · split
          · exact Option.some_ne_none last
          · rename_i hyx
            refine h.prev y ((List.mem_append.mp hy).resolve_right fun hmem => hyx ?_)
            exact List.mem_singleton.mp hmem
      · intro y t' hl
        obtain ⟨rfl, rfl⟩ := List.cons.inj hl
        refine (ring_listAddTail (h.ring f t rfl) hx).congr fun p _ => ⟨?_, ?_⟩
        · rw [Links.listAddTail, Links.next_listAdd, hlink]
          show Option.getD _ p = _
          rw [hnext']
          split
          · rfl
          · split <;> rfl
        · rw [Links.listAddTail, Links.prev_listAdd, hlink]
          show Option.getD _ p = _
          rw [hprev']
          by_cases hpx : p = x
          · rw [if_pos hpx, if_neg (hpx ▸ hne.symm), if_pos hpx, Option.getD_some]
          · rw [if_neg hpx, if_neg hpx]
            split <;> rfl
      · rw [hnext', if_neg (show y ≠ last from fun heq => hyl (heq ▸ hlast)), if_neg hy]
      · rw [hprev', if_neg (show y ≠ f from fun heq => hyl (heq ▸ List.mem_cons_self)), if_neg hy]

section

variable {n p : α} (list : Option α) (hn : m.next x = some n) (hp : m.prev x = some p)

include hn hp

theorem next_removeCircular (y : α) : (m.removeCircular list x).1.next y
    = if y = x then none else if y = p then some n else m.next y := by
  unfold Pointers.removeCircular
  rw [hn, hp]
  by_cases hself : some p = some x ∧ some n = some x
  · obtain rfl := Option.some.inj hself.1
    rw [if_pos hself]
    simp only [Pointers.setNext, Pointers.setPrev, Function.update_apply]
    split <;> rfl
  · rw [if_neg hself]
    simp only [Pointers.setNext, Pointers.setPrev, Function.update_apply]

theorem prev_removeCircular (y : α) : (m.removeCircular list x).1.prev y
    = if y = x then none else if y = n then some p else m.prev y := by
  unfold Pointers.removeCircular
  rw [hn, hp]
  by_cases hself : some p = some x ∧ some n = some x
  · obtain rfl := Option.some.inj hself.2
    rw [if_pos hself]
    simp only [Pointers.setNext, Pointers.setPrev, Function.update_apply]
    split <;> rfl
  · rw [if_neg hself]
    simp only [Pointers.setNext, Pointers.setPrev, Function.update_apply]

theorem list_removeCircular : (m.removeCircular list x).2
    = if p = x ∧ n = x then none else if list = some x then some n else list := by
  unfold Pointers.removeCircular
  rw [hn, hp]
  simp only [Option.some.injEq]
  split <;> rfl

end

/-- **Taking an element out.** -/
theorem Circular.remove (h : Circular m list l) (hx : x ∈ l) :
    Circular (m.removeCircular list x).1 (m.removeCircular list x).2 (l.erase x) ∧
      (m.removeCircular list x).1.next x = none ∧ (m.removeCircular list x).1.prev x = none ∧
      ∀ y, y ∉ l → (m.removeCircular list x).1.next y = m.next y ∧
        (m.removeCircular list x).1.prev y = m.prev y := by
  obtain ⟨n, hnl, p, hpl, hn, hp⟩ := h.neighbours hx
  have hnext := next_removeCircular list hn hp
  have hprev := prev_removeCircular list hn hp
  have hlinkn : m.links.next x = n := by
    show (m.next x).getD x = n
    rw [hn, Option.getD_some]
  have hlinkp : m.links.prev x = p := by
    show (m.prev x).getD x = p
    rw [hp, Option.getD_some]
  -- the pointers are those of a ring that `x` has been taken out of
  have hsame : ∀ y, (m.removeCircular list x).1.links.next y = (m.links.listDelInit x).next y ∧
      (m.removeCircular list x).1.links.prev y = (m.links.listDelInit x).prev y := by
    intro y
    rw [Links.next_listDelInit, Links.prev_listDelInit, hlinkn, hlinkp]
    show Option.getD _ y = _ ∧ Option.getD _ y = _
    rw [hnext, hprev]
    constructor
    · split
      · rename_i hyx
        exact hyx
      · split <;> rfl
    · split
      · rename_i hyx
        exact hyx
      · split <;> rfl
  obtain ⟨f, t, hl⟩ := List.exists_cons_of_ne_nil (List.ne_nil_of_mem hx)
  have hring := h.ring f t hl
  have hfirst : list = some f := h.first.trans (congrArg List.head? hl)
  have hnodup := h.nodup
  have hlist : (m.removeCircular list x).2 = (l.erase x).head? ∧
      ∀ y t', l.erase x = y :: t' → Ring (m.links.listDelInit x) y t' := by
    rw [list_removeCircular list hn hp, hfirst]
    subst hl
    by_cases hxf : x = f
    · subst hxf
      rw [List.erase_cons_head]
      cases t with
      | nil =>
          have hself : p = x ∧ n = x :=
            ⟨hlinkp.symm.trans hring.prev_head, hlinkn.symm.trans hring.next_head⟩
          rw [if_pos hself]
          exact ⟨rfl, fun y t' ht' => absurd ht' (by simp)⟩
      | cons z t' =>
          -- the list begins with what was behind `x`
          have hnz : n = z := hlinkn.symm.trans hring.next_head
          have hzx : z ≠ x := fun heq => (List.nodup_cons.mp hnodup).1 (heq ▸ List.mem_cons_self)
          have hrotated : Ring m.links z (t' ++ [x]) := Ring.rotate (show Ring m.links x ([] ++ z :: t') from hring)
          rw [if_neg fun hself => hzx (hnz.symm.trans hself.2), if_pos rfl, hnz]
          refine ⟨rfl, fun y t'' hl => ?_⟩
          obtain ⟨rfl, rfl⟩ := List.cons.inj hl
          simpa using ring_listDelInit hrotated
    · obtain ⟨xs, ys, rfl⟩ := List.append_of_mem ((List.mem_cons.mp hx).resolve_left hxf)
      rw [← List.cons_append, List.nodup_middle, List.nodup_cons] at hnodup
      have hnot := hnodup.1
      rw [List.mem_append, not_or] at hnot
      have hnx : n ≠ x := by
        intro hnx
        have hbehind : ys.headD f = x := hring.next_mem.symm.trans (hlinkn.trans hnx)
        cases ys with
        | nil => exact hxf hbehind.symm
        | cons y ys => exact hnot.2 (hbehind ▸ List.mem_cons_self)
      rw [← List.cons_append, List.erase_append_right _ hnot.1, List.erase_cons_head,
        if_neg fun hself => hnx hself.2, if_neg fun heq => hxf (Option.some.inj heq).symm]
      refine ⟨rfl, fun y t'' hl => ?_⟩
      obtain ⟨rfl, rfl⟩ := List.cons.inj hl
      exact ring_listDelInit hring
  refine ⟨⟨hlist.1, fun y hy => ?_, fun y hy => ?_, fun y t hl => ?_⟩, ?_, ?_, fun y hy => ⟨?_, ?_⟩⟩
  · rw [hnext, if_neg (h.nodup.mem_erase_iff.mp hy).1]
    split
    · exact Option.some_ne_none n
    · exact h.next y (List.mem_of_mem_erase hy)
  · rw [hprev, if_neg (h.nodup.mem_erase_iff.mp hy).1]
    split
    · exact Option.some_ne_none p
    · exact h.prev y (List.mem_of_mem_erase hy)
  · exact (hlist.2 y t hl).congr fun q _ => hsame q
  · rw [hnext, if_pos rfl]
  · rw [hprev, if_pos rfl]
  · rw [hnext, if_neg (show y ≠ x from fun heq => hy (heq ▸ hx)),
      if_neg (show y ≠ p from fun heq => hy (heq ▸ hpl))]
  · rw [hprev, if_neg (show y ≠ x from fun heq => hy (heq ▸ hx)),
      if_neg (show y ≠ n from fun heq => hy (heq ▸ hnl))]

/-- An element that is on no list stays so. -/
theorem removeCircular_of_null (hnext : m.next x = none) (hprev : m.prev x = none) :
    m.removeCircular list x = (m, list) := by
  have hnext' : Function.update m.next x none = m.next := by rw [Function.update_eq_self_iff, hnext]
  have hprev' : Function.update m.prev x none = m.prev := by rw [Function.update_eq_self_iff, hprev]
  unfold Pointers.removeCircular
  rw [hnext, hprev, if_neg (fun h => absurd h.1 (by simp))]
  simp only [Pointers.setNext, Pointers.setPrev, hnext', hprev']

/-- **Putting an element in** at the front. -/
theorem Chained.insert (h : Chained m first l) (hx : x ∉ l) :
    Chained (m.insertChain first x) (some x) (x :: l) ∧
      ∀ y, y ≠ x → y ∉ l → (m.insertChain first x).next y = m.next y ∧
        (m.insertChain first x).prev y = m.prev y := by
  have hfirst := h.first_eq
  have hnext : ∀ y, (m.insertChain first x).next y = if y = x then first else m.next y := by
    intro y
    cases first <;> simp only [Pointers.insertChain, Pointers.setPrev?, Pointers.setPrev, Pointers.setNext,
      Function.update_apply]
  have hprev : ∀ y, (m.insertChain first x).prev y
      = if some y = first then some x else if y = x then none else m.prev y := by
    intro y
    cases first <;> simp [Pointers.insertChain, Pointers.setPrev?, Pointers.setPrev, Pointers.setNext,
      Function.update_apply]
  -- in front of the first element there is the null pointer
  have hback : (m.chainLinks first l.getLast?).prev first = none := by
    cases l with
    | nil =>
        rw [hfirst]
        rfl
    | cons y l =>
        rw [hfirst]
        exact (show Chained m first ([] ++ y :: l) from h).prev_eq
  have hring : Ring ((m.chainLinks first l.getLast?).listAddTail (some x) first) none ((x :: l).map some) := by
    cases l with
    | nil =>
        rw [hfirst] at h ⊢
        exact ring_listAddTail h (by simp)
    | cons y l =>
        rw [hfirst] at h ⊢
        have hrotated : Ring (m.chainLinks (some y) (y :: l).getLast?) (some y) (l.map some ++ [none]) :=
          Ring.rotate (show Ring _ none ([] ++ some y :: l.map some) from h)
        have hmem : some x ∉ some y :: (l.map some ++ [none]) := by
          simpa using hx
        have hadded := ring_listAddTail hrotated hmem
        rw [List.append_assoc, List.singleton_append] at hadded
        exact hadded.rotate
  refine ⟨chained_of_ring hring ?_ (fun y hy => ?_) fun y hy => ?_, fun y hyx hyl => ⟨?_, ?_⟩⟩
  · rw [Links.listAddTail, Links.next_listAdd, hback, if_pos rfl]
  · rw [Links.listAddTail, Links.next_listAdd, hback, if_neg (Option.some_ne_none y), hnext]
    simp only [Option.some.injEq]
    rfl
  · rw [Links.listAddTail, Links.prev_listAdd, hback, hprev]
    simp only [Option.some.injEq]
    by_cases hyx : y = x
    · have hnot : some y ≠ first := by
        rw [hfirst]
        intro heq
        exact hx (hyx ▸ List.mem_of_head? heq.symm)
      rw [if_pos hyx, if_neg hnot, if_pos hyx]
    · rw [if_neg hyx, if_neg hyx]
      rfl
  · rw [hnext, if_neg hyx]
  · rw [hprev, if_neg, if_neg hyx]
    rw [hfirst]
    exact fun heq => hyl (List.mem_of_head? heq.symm)

theorem next_removeChain (hyx : y ≠ x) :
    (m.removeChain first x).1.next y = if some y = m.prev x then m.next x else m.next y := by
  unfold Pointers.removeChain
  cases hp : m.prev x <;> cases hn : m.next x <;>
    simp [Pointers.setPrev?, Pointers.setPrev, Pointers.setNext, Function.update_apply, hyx]

theorem prev_removeChain (hyx : y ≠ x) :
    (m.removeChain first x).1.prev y = if some y = m.next x then m.prev x else m.prev y := by
  unfold Pointers.removeChain
  cases hp : m.prev x <;> cases hn : m.next x <;>
    simp [Pointers.setPrev?, Pointers.setPrev, Pointers.setNext, Function.update_apply, hyx, hp]

/-- **Taking an element out.** -/
theorem Chained.remove (h : Chained m first l) (hx : x ∈ l) :
    Chained (m.removeChain first x).1 (m.removeChain first x).2 (l.erase x) ∧
      ∀ y, y ∉ l → (m.removeChain first x).1.next y = m.next y ∧
        (m.removeChain first x).1.prev y = m.prev y := by
  obtain ⟨xs, ys, rfl⟩ := List.append_of_mem hx
  have hnext := h.next_eq
  have hprev := h.prev_eq
  have hnodup : (xs ++ x :: ys).Nodup := List.Nodup.of_map some (List.nodup_cons.mp (Ring.nodup h)).2
  rw [List.nodup_middle, List.nodup_cons, List.mem_append, not_or] at hnodup
  have herase : (xs ++ x :: ys).erase x = xs ++ ys := by
    rw [List.erase_append_right _ hnodup.1.1, List.erase_cons_head]
  have hmem : ∀ y ∈ xs ++ ys, y ≠ x := by
    rintro y hy rfl
    exact (List.mem_append.mp hy).elim hnodup.1.1 hnodup.1.2
  rw [Chained, List.map_append, List.map_cons] at h
  have hring := ring_listDelInit h
  rw [← List.map_append] at hring
  rw [herase]
  refine ⟨chained_of_ring hring ?_ (fun y hy => ?_) fun y hy => ?_, fun y hy => ⟨?_, ?_⟩⟩
  · rw [Links.next_listDelInit, if_neg (Option.some_ne_none x).symm]
    show (if none = m.prev x then m.next x else first) = _
    unfold Pointers.removeChain
    cases m.prev x <;> rfl
  · rw [Links.next_listDelInit, if_neg (fun heq => hmem y hy (Option.some.inj heq)), next_removeChain (hmem y hy)]
    rfl
  · rw [Links.prev_listDelInit, if_neg (fun heq => hmem y hy (Option.some.inj heq)), prev_removeChain (hmem y hy)]
    rfl
  · rw [next_removeChain (show y ≠ x from fun heq => hy (heq ▸ hx)), if_neg]
    rw [hprev]
    exact fun heq => hy (List.mem_append_left _ (List.mem_of_getLast? heq.symm))
  · rw [prev_removeChain (show y ≠ x from fun heq => hy (heq ▸ hx)), if_neg]
    rw [hnext]
    exact fun heq => hy (List.mem_append_right _ (List.mem_cons_of_mem _ (List.mem_of_head? heq.symm)))

end FirmwareTools

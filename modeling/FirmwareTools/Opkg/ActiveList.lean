import FirmwareTools.System.LinkedRing

/-! # Active lists

The entries of an active list are linked by their `node` heads, and what an entry depends on is a list below
it, at its `depend` head.

* **`activeListEntries_eq`** — a loop over a list without lists below it goes through its entries;
* **`holds_activeListAdd`** — moving an entry to the end of another list. -/

namespace FirmwareTools.Opkg

/-! ## The functions -/

section

variable {α : Type} [DecidableEq α]

/-- The addresses of the list heads in the `struct active_list` at an address. -/
inductive ListHead (α : Type) where
  | node (e : α)
  | depend (e : α)
  deriving DecidableEq

/-- Every `struct active_list` in memory. -/
structure ActiveLists (α : Type) where
  links : Links (ListHead α)
  depended : α → Option α

/-- `list_entry(ptr, struct active_list, node)`; the address of a `depend` head gives no entry. -/
def listEntry : ListHead α → Option α
  | .node e => some e
  | .depend _ => none

/-- `active_list_init` -/
def activeListInit (m : ActiveLists α) (ptr : α) : ActiveLists α where
  links := (m.links.initListHead (.node ptr)).initListHead (.depend ptr)
  depended := Function.update m.depended ptr none

/-- The loop at the end of `active_list_next`, which goes down to the first entry without another one
below it. -/
def activeListDescend (m : ActiveLists α) : ℕ → α → Option α
  | 0, _ => none
  | n + 1, next =>
    if m.links.next (.depend next) = .depend next then some next
    else do activeListDescend m n (← listEntry (m.links.next (.depend next)))

/-- `active_list_next`: `some none` is the result `NULL`. -/
def activeListNext (n : ℕ) (m : ActiveLists α) (head : α) (ptr : Option α) : Option (Option α) :=
  let ptr := ptr.getD head
  let link := m.links.next (.node ptr)
  if link = .node head then some none
  else match (m.depended ptr).filter fun d => link = .depend d with
    | some d => some (some d)
    | none => do
      let next ← activeListDescend m n (← listEntry link)
      some (some next)

/-- `active_list_prev` -/
def activeListPrev (m : ActiveLists α) (head : α) (ptr : Option α) : Option (Option α) :=
  let ptr := ptr.getD head
  if m.links.prev (.depend ptr) ≠ .depend ptr then do
    let prev ← listEntry (m.links.prev (.depend ptr))
    some (some prev)
  else do
    let link := m.links.prev (.node ptr)
    let prev ← match (m.depended ptr).filter fun d => d ≠ head ∧ link = .depend d with
      | some d => listEntry (m.links.prev (.node d))
      | none => listEntry link
    some (if prev = head then none else some prev)

/-- `active_list_add` -/
def activeListAdd (m : ActiveLists α) (head node : α) : ActiveLists α where
  links := (m.links.listDelInit (.node node)).listAddTail (.node node) (.node head)
  depended := Function.update m.depended node (some head)

/-- `active_list_move_node`, for addresses that are not `NULL`. -/
def activeListMoveNode (m : ActiveLists α) (oldHead newHead node : α) :
    Option (Option α × ActiveLists α) :=
  if oldHead = newHead then some (some node, m)
  else do
    let prev ← activeListPrev m oldHead (some node)
    some (prev, activeListAdd m newHead node)

/-- `list_head_clear` from `list_for_each_safe` on: `ptr` is the position, `next` the one behind it. -/
def listHeadClear : ℕ → ActiveLists α → ListHead α → ListHead α → ListHead α → Option (ActiveLists α)
  | 0, _, _, _, _ => none
  | n + 1, m, head, ptr, next =>
    if ptr = head then some m
    else do
      let entry ← listEntry ptr
      let below := m.links.next (.depend entry)
      let m ← if below ≠ .depend entry then
          listHeadClear n m (.depend entry) below (m.links.next below)
        else some m
      let m := activeListInit m entry
      listHeadClear n m head next (m.links.next next)

/-- `active_list_clear`, which is all of `active_list_head_delete` but `free`. -/
def activeListClear (n : ℕ) (m : ActiveLists α) (head : α) : Option (ActiveLists α) := do
  let first := m.links.next (.node head)
  let m ← listHeadClear n m (.node head) first (m.links.next first)
  let below := m.links.next (.depend head)
  let m ← if below ≠ .depend head then
      listHeadClear n m (.depend head) below (m.links.next below)
    else some m
  some (activeListInit m head)

/-- The entries that a loop `for (node = active_list_next(head, head); node; …)` goes through, from
`node` on. -/
def activeListFrom (m : ActiveLists α) (head : α) : ℕ → Option α → Option (List α)
  | 0, _ => none
  | _ + 1, none => some []
  | n + 1, some node => do
    let rest ← activeListFrom m head n (← activeListNext n m head (some node))
    some (node :: rest)

/-- All the entries such a loop goes through. -/
def activeListEntries (n : ℕ) (m : ActiveLists α) (head : α) : Option (List α) := do
  activeListFrom m head n (← activeListNext n m head (some head))

end

/-! ## Lists without lists below them -/

section

variable {α : Type}

/-- There are no lists below the entries. -/
def ActiveLists.Flat (m : ActiveLists α) : Prop :=
  ∀ e, m.links.next (.depend e) = .depend e ∧ m.links.prev (.depend e) = .depend e

/-- The entries of the list at `head`. -/
def ActiveLists.Holds (m : ActiveLists α) (head : α) (xs : List α) : Prop :=
  Ring m.links (.node head) (xs.map .node)

variable {m m' : ActiveLists α} {head x : α} {xs ys : List α} {n : ℕ}

theorem headD_map_node (ys : List α) (head : α) :
    (ys.map ListHead.node).headD (.node head) = .node (ys.headD head) := by
  cases ys with
  | nil => rfl
  | cons y ys => rfl

theorem getLastD_map_node (xs : List α) (head : α) :
    (xs.map ListHead.node).getLastD (.node head) = .node (xs.getLastD head) := by
  rw [List.getLastD_eq_getLast?, List.getLast?_map, List.getLastD_eq_getLast?]
  cases xs.getLast? with
  | none => rfl
  | some x => rfl

/-- The last address of a list. -/
theorem getLastD_nodes (l : List α) (place : ListHead α) :
    (l.map ListHead.node).getLastD place = (l.getLast?.map ListHead.node).getD place := by
  rw [List.getLastD_eq_getLast?, List.getLast?_map]

theorem mem_map_node {e : α} : ListHead.node e ∈ xs.map ListHead.node ↔ e ∈ xs := by
  rw [List.mem_map]
  refine ⟨fun ⟨e', he', heq⟩ => ?_, fun h => ⟨e, h, rfl⟩⟩
  exact ListHead.node.inj heq ▸ he'

theorem ActiveLists.Holds.head_not_mem (h : m.Holds head xs) : head ∉ xs := fun hmem =>
  (List.nodup_cons.mp h.nodup).1 (mem_map_node.mpr hmem)

theorem ActiveLists.Holds.nodup (h : m.Holds head xs) : xs.Nodup :=
  List.Nodup.of_map _ (List.nodup_cons.mp (Ring.nodup h)).2

variable [DecidableEq α]

/-- **The entry behind the last of `xs`.** -/
theorem activeListNext_getLast (h : m.Holds head (xs ++ ys)) (hflat : m.Flat) (hn : 0 < n) :
    activeListNext n m head xs.getLast? = some ys.head? := by
  have hlink : m.links.next (.node (xs.getLast?.getD head)) = .node (ys.headD head) := by
    rcases List.eq_nil_or_concat xs with rfl | ⟨init, y, rfl⟩
    · rw [← headD_map_node]
      exact Ring.next_head h
    · rw [ActiveLists.Holds, List.concat_eq_append, List.append_assoc, List.map_append,
        List.singleton_append, List.map_cons] at h
      rw [List.concat_eq_append, List.getLast?_concat, ← headD_map_node]
      exact h.next_mem
  unfold activeListNext
  dsimp only
  rw [hlink]
  cases ys with
  | nil => rw [List.headD_nil, if_pos rfl, List.head?_nil]
  | cons y ys =>
      have hy : y ≠ head := by
        rintro rfl
        exact h.head_not_mem (List.mem_append_right _ List.mem_cons_self)
      have hnode : ListHead.node y ≠ ListHead.node head := fun heq => hy (ListHead.node.inj heq)
      obtain ⟨n, rfl⟩ := Nat.exists_eq_succ_of_ne_zero hn.ne'
      rw [List.headD_cons, if_neg hnode, Option.filter_eq_none_iff.mpr (fun d _ => by simp)]
      simp [listEntry, activeListDescend, (hflat y).1]

/-- **The entry in front of `x`.** -/
theorem activeListPrev_eq (h : m.Holds head (xs ++ x :: ys)) (hflat : m.Flat) :
    activeListPrev m head (some x) = some xs.getLast? := by
  have hlink : m.links.prev (.node x) = .node (xs.getLastD head) := by
    rw [ActiveLists.Holds, List.map_append, List.map_cons] at h
    rw [h.prev_mem, getLastD_map_node]
  unfold activeListPrev
  dsimp only [Option.getD_some]
  rw [if_neg (not_not_intro (hflat x).2), hlink, Option.filter_eq_none_iff.mpr (fun d _ => by simp)]
  simp only [listEntry, Option.bind_eq_bind, Option.bind_some, List.getLastD_eq_getLast?]
  cases hlast : xs.getLast? with
  | none => rw [Option.getD_none, if_pos rfl]
  | some y =>
      have hy : y ≠ head := by
        rintro rfl
        exact h.head_not_mem (List.mem_append_left _ (List.mem_of_getLast? hlast))
      rw [Option.getD_some, if_neg hy]

/-- A loop over the list goes through its entries. -/
theorem activeListEntries_eq (h : m.Holds head xs) (hflat : m.Flat) (hn : xs.length + 1 < n) :
    activeListEntries n m head = some xs := by
  have hgen : ∀ (ys front : List α), front ++ ys = xs → ∀ n, ys.length + 1 < n →
      activeListFrom m head n ys.head? = some ys := by
    intro ys
    induction ys with
    | nil =>
        intro front _ n hn
        obtain ⟨n, rfl⟩ := Nat.exists_eq_succ_of_ne_zero (Nat.ne_zero_of_lt hn)
        rfl
    | cons y ys ih =>
        intro front hfront n hn
        obtain ⟨n, rfl⟩ := Nat.exists_eq_succ_of_ne_zero (Nat.ne_zero_of_lt hn)
        rw [List.length_cons] at hn
        have hholds : m.Holds head ((front ++ [y]) ++ ys) := by
          rw [List.append_assoc, List.singleton_append, hfront]
          exact h
        have hnext := activeListNext_getLast hholds hflat (n := n) (by omega)
        rw [List.getLast?_concat] at hnext
        have hrest := ih (front ++ [y]) (by rw [List.append_assoc, List.singleton_append, hfront]) n
          (by omega)
        simp [activeListFrom, hnext, hrest]
  have hfirst : activeListNext n m head (some head) = some xs.head? :=
    activeListNext_getLast ((List.nil_append xs).symm ▸ h) hflat (Nat.zero_lt_of_lt hn)
  rw [activeListEntries, hfirst]
  exact hgen xs [] rfl n hn

/-- **Moving an entry** to the end of another list. -/
theorem holds_activeListAdd {a b : α} {zs : List α} (h : m.Holds a (xs ++ x :: ys)) (h' : m.Holds b zs)
    (hflat : m.Flat) (hdisjoint : ∀ e ∈ a :: (xs ++ x :: ys), e ∉ b :: zs) :
    (activeListAdd m b x).Holds a (xs ++ ys) ∧ (activeListAdd m b x).Holds b (zs ++ [x]) ∧
      (activeListAdd m b x).Flat := by
  unfold ActiveLists.Holds at h h' ⊢
  rw [List.map_append, List.map_cons] at h
  have hapart : ∀ p ∈ ListHead.node a :: (xs.map ListHead.node ++ .node x :: ys.map .node),
      p ∉ ListHead.node b :: zs.map .node := by
    rw [← List.map_cons, ← List.map_append, ← List.map_cons, ← List.map_cons]
    rintro p hp hp'
    obtain ⟨e, he, rfl⟩ := List.mem_map.mp hp
    exact hdisjoint e he (mem_map_node.mp hp')
  obtain ⟨hleft, hright, hother⟩ := h.move h' hapart
  rw [List.map_append, List.map_append]
  refine ⟨hleft, hright, fun e => ?_⟩
  obtain ⟨hnext, hprev⟩ := hother (.depend e) (by simp) (by simp)
  exact ⟨hnext.trans (hflat e).1, hprev.trans (hflat e).2⟩

/-- **Putting in an entry** that is on no list. -/
theorem holds_activeListAdd_alone (h : m.Holds head xs) (hflat : m.Flat) (hx : x ∉ head :: xs)
    (hnext : m.links.next (.node x) = .node x) (hprev : m.links.prev (.node x) = .node x) :
    (activeListAdd m head x).Holds head (xs ++ [x]) ∧ (activeListAdd m head x).Flat ∧
      ∀ e, e ≠ x → e ∉ head :: xs →
        (activeListAdd m head x).links.next (.node e) = m.links.next (.node e) ∧
          (activeListAdd m head x).links.prev (.node e) = m.links.prev (.node e) := by
  unfold ActiveLists.Holds at h ⊢
  have hmem : ∀ e, ListHead.node e ∈ ListHead.node head :: xs.map .node ↔ e ∈ head :: xs := fun e => by
    rw [← List.map_cons, mem_map_node]
  have hlinks : (activeListAdd m head x).links = m.links.listAddTail (.node x) (.node head) := by
    rw [activeListAdd, Links.listDelInit_alone hnext hprev]
  rw [hlinks, List.map_append]
  refine ⟨ring_listAddTail h (fun hp => hx ((hmem x).mp hp)), fun e => ?_, fun e hex he => ?_⟩
  · obtain ⟨hn, hp⟩ := h.listAddTail_of_not_mem (p := .depend e) (x := .node x) (by simp) (by simp)
    rw [hlinks]
    exact ⟨hn.trans (hflat e).1, hp.trans (hflat e).2⟩
  · exact h.listAddTail_of_not_mem (fun heq => hex (ListHead.node.inj heq)) (fun hp => he ((hmem e).mp hp))

theorem flat_activeListInit (hflat : m.Flat) (e : α) : (activeListInit m e).Flat := by
  intro d
  by_cases hd : d = e
  · subst hd
    simp [activeListInit, Links.initListHead, Links.setNext, Links.setPrev]
  · simp [activeListInit, Links.initListHead, Links.setNext, Links.setPrev, hd, hflat d]

/-- Initialising an entry changes no other one. -/
theorem activeListInit_of_ne (m : ActiveLists α) {e d : α} (hd : d ≠ e) :
    (activeListInit m e).links.next (.node d) = m.links.next (.node d) ∧
      (activeListInit m e).links.prev (.node d) = m.links.prev (.node d) := by
  simp [activeListInit, Links.initListHead, Links.setNext, Links.setPrev, hd]

/-- The loop over the entries `zs` that are left initialises them. -/
theorem listHeadClear_eq (zs : List α) (hflat : m.Flat) (hnodup : zs.Nodup) (hhead : head ∉ zs)
    (hchain : List.IsChain (fun p q => m.links.next p = q) (zs.map ListHead.node ++ [.node head]))
    (hn : zs.length < n) :
    ∃ m', listHeadClear n m (.node head) (.node (zs.headD head)) (m.links.next (.node (zs.headD head))) =
        some m' ∧ m'.Flat ∧ ∀ e, e ∉ zs →
          m'.links.next (.node e) = m.links.next (.node e) ∧
            m'.links.prev (.node e) = m.links.prev (.node e) := by
  induction zs generalizing m n with
  | nil =>
      obtain ⟨n, rfl⟩ := Nat.exists_eq_succ_of_ne_zero (Nat.ne_zero_of_lt hn)
      exact ⟨m, if_pos rfl, hflat, fun e _ => ⟨rfl, rfl⟩⟩
  | cons z zs ih =>
      obtain ⟨n, rfl⟩ := Nat.exists_eq_succ_of_ne_zero (Nat.ne_zero_of_lt hn)
      rw [List.length_cons] at hn
      rw [List.nodup_cons] at hnodup
      rw [List.mem_cons, not_or] at hhead
      have hnext : m.links.next (.node z) = .node (zs.headD head) := by
        cases zs with
        | nil => exact (List.isChain_cons_cons.mp hchain).1
        | cons y zs => exact (List.isChain_cons_cons.mp hchain).1
      have hchain' : List.IsChain (fun p q => (activeListInit m z).links.next p = q)
          (zs.map ListHead.node ++ [.node head]) := by
        refine isChain_imp_of_mem (List.IsChain.of_cons hchain) fun u hu v _ huv => ?_
        rw [List.dropLast_concat] at hu
        obtain ⟨e, he, rfl⟩ := List.mem_map.mp hu
        have hez : e ≠ z := fun heq => hnodup.1 (heq ▸ he)
        rw [(activeListInit_of_ne m hez).1, huv]
      obtain ⟨m', hm', hflat', hsame⟩ := ih (flat_activeListInit hflat z) hnodup.2 hhead.2 hchain'
        (Nat.lt_of_succ_lt_succ hn)
      refine ⟨m', ?_, hflat', fun e he => ?_⟩
      · have hne : ListHead.node z ≠ ListHead.node head :=
          fun heq => hhead.1 (ListHead.node.inj heq).symm
        rw [listHeadClear, List.headD_cons, if_neg hne, hnext]
        simp only [listEntry, Option.bind_eq_bind, Option.bind_some, (hflat z).1, ne_eq,
          not_true_eq_false, if_false]
        exact hm'
      · rw [List.mem_cons, not_or] at he
        obtain ⟨hn, hp⟩ := activeListInit_of_ne m he.1
        exact ⟨(hsame e he.2).1.trans hn, (hsame e he.2).2.trans hp⟩

/-- **Deleting a list** leaves the others. -/
theorem activeListClear_holds {a b : α} (h : m.Holds a xs) (h' : m.Holds b ys) (hflat : m.Flat)
    (hdisjoint : ∀ e ∈ a :: xs, e ∉ b :: ys) (hn : xs.length < n) :
    ∃ m', activeListClear n m a = some m' ∧ m'.Holds b ys ∧ m'.Flat := by
  have hfirst : m.links.next (.node a) = .node (xs.headD a) := by
    rw [← headD_map_node]
    exact Ring.next_head h
  have hchain : List.IsChain (fun p q => m.links.next p = q) (xs.map ListHead.node ++ [.node a]) :=
    (List.IsChain.of_cons h.chain).imp fun _ _ huv => huv.1
  obtain ⟨m', hm', hflat', hsame⟩ := listHeadClear_eq xs hflat h.nodup h.head_not_mem hchain hn
  refine ⟨activeListInit m' a, ?_, ?_, flat_activeListInit hflat' a⟩
  · rw [activeListClear, hfirst]
    dsimp only
    rw [hm']
    simp [(hflat' a).1]
  · refine Ring.congr h' fun p hp => ?_
    rw [← List.map_cons] at hp
    obtain ⟨e, he, rfl⟩ := List.mem_map.mp hp
    have hea : e ≠ a := fun heq => hdisjoint a List.mem_cons_self (heq ▸ he)
    have hexs : e ∉ xs := fun hmem => hdisjoint e (List.mem_cons_of_mem _ hmem) he
    obtain ⟨hn, hp⟩ := activeListInit_of_ne m' hea
    exact ⟨hn.trans (hsame e hexs).1, hp.trans (hsame e hexs).2⟩

end

end FirmwareTools.Opkg

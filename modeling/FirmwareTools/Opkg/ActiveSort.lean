import FirmwareTools.Opkg.ActiveForest
import Mathlib.Data.List.Sort

/-! # Sorting an active list

The entries are taken out in post-order and put into a list on the stack, each in front of the first one there
that is not above it. That list is in descending order, and it is emptied from its end.

* **`sortOut_eq`** — the list on the stack is the insertion sort of the entries;
* **`activeListSort_eq`** — the list under the head afterwards. -/

namespace FirmwareTools.Opkg

variable {α : Type} {compare : α → α → ℤ} {node : α}

/-! ## The order -/

/-- The order of the list on the stack: `a` is in front of `b`. -/
def Above (compare : α → α → ℤ) (a b : α) : Prop := compare b a ≤ 0

instance (compare : α → α → ℤ) : DecidableRel (Above compare) := fun a b => Int.decLe (compare b a) 0

/-- An entry above none of the list comes to its end. -/
theorem orderedInsert_of_find?_none {l : List α} (h : (l.find? fun p => compare p node ≤ 0) = none) :
    l.orderedInsert (Above compare) node = l ++ [node] := by
  induction l with
  | nil => rfl
  | cons q l ih =>
      rw [List.find?_cons] at h
      by_cases hle : compare q node ≤ 0
      · simp [hle] at h
      · rw [decide_eq_false hle] at h
        rw [List.orderedInsert_cons, if_neg (show ¬ Above compare node q from hle), ih h, List.cons_append]

/-- Another one comes in front of the first that is not above it. -/
theorem orderedInsert_of_find?_some {l : List α} {p : α}
    (h : (l.find? fun p => compare p node ≤ 0) = some p) :
    ∃ front back, l = front ++ p :: back ∧
      l.orderedInsert (Above compare) node = front ++ node :: p :: back := by
  induction l with
  | nil => cases h
  | cons q l ih =>
      rw [List.find?_cons] at h
      rw [List.orderedInsert_cons]
      by_cases hle : compare q node ≤ 0
      · rw [decide_eq_true hle] at h
        obtain rfl : q = p := Option.some.inj h
        rw [if_pos (show Above compare node q from hle)]
        exact ⟨[], l, rfl, rfl⟩
      · rw [decide_eq_false hle] at h
        rw [if_neg (show ¬ Above compare node q from hle)]
        obtain ⟨front, back, hl, hins⟩ := ih h
        exact ⟨q :: front, back, congrArg (q :: ·) hl, congrArg (q :: ·) hins⟩

variable [DecidableEq α]

/-! ## The functions -/

/-- What `active_list_move_node` does to the lists. The entry that it gives back is not used here, and to find
it nothing is read through the address that `active_list_prev` gives. -/
def activeListMoved (m : ActiveLists α) (oldHead newHead node : α) : ActiveLists α :=
  if oldHead = newHead then m else activeListAdd m newHead node

/-- The loop over the sorted entries, up to one that is not above `node`. -/
def activeListFind (m : ActiveLists α) (tmphead : α) (compare : α → α → ℤ) (node : α) :
    ℕ → Option α → Option (Option α)
  | 0, _ => none
  | _ + 1, none => some none
  | n + 1, some ptr =>
    if compare ptr node ≤ 0 then some (some ptr)
    else do activeListFind m tmphead compare node n (← activeListNext n m tmphead (some ptr))

/-- The body of the first loop of `active_list_sort`. -/
def activeListInsert (n : ℕ) (m : ActiveLists α) (head tmphead : α) (compare : α → α → ℤ) (node : α) :
    Option (ActiveLists α) := do
  let m ← if m.links.next (.node tmphead) = .node tmphead then some (activeListMoved m head tmphead node)
    else do
      let ptr ← activeListFind m tmphead compare node n (← activeListNext n m tmphead none)
      some (activeListMoved m head (ptr.getD tmphead) node)
  some { m with depended := Function.update m.depended node (some tmphead) }

/-- The first loop of `active_list_sort`, from `node` on. -/
def sortOut (head tmphead : α) (compare : α → α → ℤ) : ℕ → ActiveLists α → Option α → Option (ActiveLists α)
  | 0, _, _ => none
  | _ + 1, m, none => some m
  | n + 1, m, some node => do
    let m ← activeListInsert n m head tmphead compare node
    sortOut head tmphead compare n m (← activeListNext n m head none)

/-- The second loop of `active_list_sort`, from `ptr` on. -/
def sortBack (head tmphead : α) : ℕ → ActiveLists α → Option α → Option (ActiveLists α)
  | 0, _, _ => none
  | _ + 1, m, none => some m
  | n + 1, m, some ptr => do
    let m := activeListMoved m tmphead head ptr
    sortBack head tmphead n m (← activeListPrev m tmphead none)

/-- `active_list_sort`, where `tmphead` is on the stack. -/
def activeListSort (n : ℕ) (m : ActiveLists α) (head tmphead : α) (compare : α → α → ℤ) :
    Option (ActiveLists α) := do
  let m := activeListInit m tmphead
  let m ← sortOut head tmphead compare n m (← activeListNext n m head none)
  sortBack head tmphead n m (← activeListPrev m tmphead none)

variable {m m' : ActiveLists α} {head tmphead e x : α} {live : Set α} {kids : α → List α} {n : ℕ}

/-! ## One entry -/

/-- The lists while the first loop runs: those under `head` are left, and `sorted` are on the stack. -/
structure Sorting (m : ActiveLists α) (head tmphead : α) (live : Set α) (kids : α → List α)
    (sorted rest : List α) : Prop where
  forest : Forest m [tmphead, head] live kids
  tmp : kids tmphead = sorted
  flat : ∀ e ∈ sorted, kids e = []
  left : PostOrder kids (kids head) rest
  nodup : rest.Nodup

variable {sorted rest : List α}

/-- The search goes through the entries of a list. -/
theorem activeListFind_eq (l : List α) {fuel : ℕ}
    (hchain : List.IsChain (ActiveNext m tmphead fuel) (l.map some ++ [none])) (hn : l.length + fuel < n) :
    activeListFind m tmphead compare node n l.head? = some (l.find? fun p => compare p node ≤ 0) := by
  induction l generalizing n with
  | nil =>
      obtain ⟨n, rfl⟩ := Nat.exists_eq_succ_of_ne_zero (show n ≠ 0 by omega)
      rfl
  | cons p l ih =>
      obtain ⟨n, rfl⟩ := Nat.exists_eq_succ_of_ne_zero (show n ≠ 0 by omega)
      rw [List.length_cons] at hn
      rw [List.head?_cons, activeListFind, List.find?_cons]
      by_cases hle : compare p node ≤ 0
      · simp [hle]
      · have hnext : activeListNext n m tmphead (some p) = some l.head? := by
          cases l with
          | nil => exact (List.isChain_cons_cons.mp hchain).1 n (by simp at hn; omega)
          | cons q l => exact (List.isChain_cons_cons.mp hchain).1 n (by simp at hn; omega)
        simp [hle, hnext, ih (List.IsChain.of_cons hchain) (show l.length + fuel < n by omega)]

/-- Where the loop puts an entry. -/
theorem activeListInsert_eq (h : Sorting m head tmphead live kids sorted (node :: rest)) (hne : head ≠ tmphead)
    (hn : 2 * sorted.length < n) :
    activeListInsert n m head tmphead compare node
      = some (activeListPut m (.node ((sorted.find? fun p => compare p node ≤ 0).getD tmphead)) tmphead node) := by
  have hput : ∀ ptr, head ≠ ptr → { activeListMoved m head ptr node with
      depended := Function.update (activeListMoved m head ptr node).depended node (some tmphead) }
        = activeListPut m (.node ptr) tmphead node := by
    intro ptr hptr
    rw [activeListMoved, if_neg hptr, activeListAdd, activeListPut, Function.update_idem]
  have htmp : tmphead ∈ [tmphead, head] := List.mem_cons_self
  have hlink := h.forest.next_anchor (h.forest.heads_live _ htmp)
  rw [anchor, if_pos htmp, h.tmp] at hlink
  unfold activeListInsert
  rw [hlink]
  cases sorted with
  | nil =>
      rw [List.map_nil, List.headD_nil, if_pos rfl]
      exact congrArg some (hput tmphead hne)
  | cons q l =>
      have hsub : ∀ p ∈ q :: l, p ≠ tmphead ∧ p ≠ head := by
        intro p hp
        have hp := (h.forest.kids_live p tmphead (h.tmp ▸ hp)).2.2
        exact ⟨fun heq => hp (by simp [heq]), fun heq => hp (by simp [heq])⟩
      have hpost : PostOrder kids (kids tmphead) (q :: l) := h.tmp.symm ▸ postOrder_flat h.flat
      have hchain : List.IsChain (ActiveNext m tmphead (q :: l).length) ((q :: l).map some ++ [none]) := by
        have hchain := isChain_next h.forest htmp hpost le_rfl (.inl rfl) (List.nil_append _).symm
        rw [if_pos rfl] at hchain
        exact hchain
      have hfirst := next_head h.forest htmp hpost le_rfl n (by omega)
      have hfind : activeListFind m tmphead compare node n (q :: l).head? = _ :=
        activeListFind_eq (q :: l) hchain (by omega)
      have hq : ListHead.node q ≠ .node tmphead := fun heq => (hsub q List.mem_cons_self).1 (ListHead.node.inj heq)
      rw [List.map_cons, List.headD_cons, if_neg hq, hfirst]
      simp only [Option.bind_eq_bind, Option.bind_some, hfind]
      refine congrArg some (hput _ ?_)
      cases hfound : (q :: l).find? fun p => compare p node ≤ 0 with
      | none => exact hne
      | some p => exact (hsub p (List.mem_of_find?_eq_some hfound)).2.symm

/-- **One entry is sorted in.** -/
theorem sorting_insert (h : Sorting m head tmphead live kids sorted (node :: rest)) (hne : head ≠ tmphead) :
    ∃ kids', Sorting (activeListPut m (.node ((sorted.find? fun p => compare p node ≤ 0).getD tmphead)) tmphead node)
      head tmphead live kids' (sorted.orderedInsert (Above compare) node) rest := by
  have htmp : tmphead ∈ [tmphead, head] := List.mem_cons_self
  have hleft := h.left
  have hleaf : kids node = [] := hleft.first_leaf
  have hnode := h.forest.not_mem_heads hleft List.mem_cons_self
  have hlive : node ∈ live := h.forest.live_of_postOrder hleft List.mem_cons_self
  have hnot : node ∉ kids tmphead := h.forest.not_mem_of_heads htmp hne hleft List.mem_cons_self
  have hunder : ¬ Under kids tmphead node := not_under_leaf (fun heq => hnode (heq ▸ htmp)) hleaf
  -- what is on the lists afterwards
  let kids' : α → List α := fun q =>
    if q = tmphead then sorted.orderedInsert (Above compare) node else (kids q).erase node
  have hforest : Forest (activeListPut m (.node ((sorted.find? fun p => compare p node ≤ 0).getD tmphead))
      tmphead node) [tmphead, head] live kids' := by
    cases hfound : sorted.find? fun p => compare p node ≤ 0 with
    | none =>
        have hput := forest_put h.forest hlive hnode (h.forest.heads_live _ htmp) hunder
        rw [anchor, if_pos htmp] at hput
        have hsame : kids' = moved kids node tmphead := by
          funext q
          show (if q = tmphead then _ else _) = moved kids node tmphead q
          rw [orderedInsert_of_find?_none hfound, moved]
          refine ite_congr rfl (fun hq => ?_) fun _ => rfl
          rw [hq, List.erase_of_not_mem hnot, h.tmp]
        exact hsame ▸ hput
    | some p =>
        obtain ⟨front, back, hsplit, hinsert⟩ := orderedInsert_of_find?_some hfound
        have hput := forest_putBefore h.forest hlive hnode (h.forest.heads_live _ htmp) hunder
          (h.tmp.trans hsplit) hnot
        rw [← hinsert] at hput
        exact hput
  have hkids' : ∀ x, x ≠ tmphead → kids' x = (kids x).erase node := fun x hx => if_neg hx
  refine ⟨kids', hforest, if_pos rfl, fun e he => ?_, ?_, (List.nodup_cons.mp h.nodup).2⟩
  · -- nothing comes below an entry
    rcases List.mem_orderedInsert (Above compare) |>.mp he with rfl | he
    · rw [hkids' e fun heq => hnode (heq ▸ htmp), hleaf, List.erase_nil]
    · have hne : e ≠ tmphead := fun heq =>
        (h.forest.kids_live e tmphead (h.tmp ▸ he)).2.2 (heq ▸ htmp)
      rw [hkids' e hne, h.flat e he, List.erase_nil]
  · rw [hkids' head hne]
    refine (postOrder_erase hleft h.nodup).congr fun x hx => hkids' x fun heq => ?_
    exact h.forest.not_mem_heads hleft (List.mem_cons_of_mem _ hx) (heq ▸ htmp)

/-! ## The loops -/

/-- **The first loop** sorts the entries into the list on the stack. -/
theorem sortOut_eq (h : Sorting m head tmphead live kids sorted rest) (hne : head ≠ tmphead)
    (hn : 2 * (sorted.length + rest.length) + rest.length < n) :
    ∃ m' kids', sortOut head tmphead compare n m rest.head? = some m' ∧
      Sorting m' head tmphead live kids' (rest.foldl (fun l e => l.orderedInsert (Above compare) e) sorted) [] := by
  induction rest generalizing m kids sorted n with
  | nil =>
      obtain ⟨n, rfl⟩ := Nat.exists_eq_succ_of_ne_zero (show n ≠ 0 by omega)
      exact ⟨m, kids, rfl, h⟩
  | cons node rest ih =>
      obtain ⟨n, rfl⟩ := Nat.exists_eq_succ_of_ne_zero (show n ≠ 0 by omega)
      rw [List.length_cons] at hn
      obtain ⟨kids₁, h₁⟩ := @sorting_insert _ compare _ _ _ _ _ _ _ _ _ h hne
      have hnext := next_head h₁.forest (show head ∈ _ by simp) h₁.left le_rfl n (by omega)
      obtain ⟨m', kids', hm', h'⟩ := ih h₁ (n := n) (by rw [List.orderedInsert_length]; omega)
      refine ⟨m', kids', ?_, h'⟩
      rw [List.head?_cons, sortOut, activeListInsert_eq h hne (by omega)]
      show (activeListNext n _ head none).bind _ = _
      rw [hnext]
      exact hm'

/-- **The second loop** empties it from its end. -/
theorem sortBack_eq {l tail : List α} (h : Forest m [tmphead, head] live kids) (hne : head ≠ tmphead)
    (htmp : kids tmphead = l) (hhead : kids head = tail) (hflat : ∀ e, e ∈ l ∨ e ∈ tail → kids e = [])
    (hn : l.length < n) :
    ∃ m' kids', sortBack head tmphead n m l.getLast? = some m' ∧ Forest m' [tmphead, head] live kids' ∧
      kids' head = tail ++ l.reverse ∧ ∀ e ∈ kids' head, kids' e = [] := by
  induction l using List.reverseRecOn generalizing m kids tail n with
  | nil =>
      obtain ⟨n, rfl⟩ := Nat.exists_eq_succ_of_ne_zero (show n ≠ 0 by omega)
      refine ⟨m, kids, rfl, h, by simpa using hhead, fun e he => hflat e (.inr (hhead ▸ he))⟩
  | append_singleton l e ih =>
      obtain ⟨n, rfl⟩ := Nat.exists_eq_succ_of_ne_zero (show n ≠ 0 by omega)
      rw [List.length_append, List.length_singleton] at hn
      have hheads : head ∈ [tmphead, head] := by simp
      have he : e ∈ kids tmphead := by simp [htmp]
      obtain ⟨-, hlive, hnot⟩ := h.kids_live e tmphead he
      have hunder : ¬ Under kids head e := not_under_leaf (fun heq => hnot (heq ▸ hheads)) (hflat e (by simp))
      have hput := forest_put h hlive hnot (h.heads_live _ hheads) hunder
      rw [anchor, if_pos hheads] at hput
      have hnodup := h.nodup tmphead
      rw [htmp] at hnodup
      have htmp' : moved kids e head tmphead = l := by
        have hnot : e ∉ l := (List.nodup_append.mp hnodup).2.2 |> fun h hmem => h e hmem e (by simp) rfl
        rw [moved, if_neg hne.symm, htmp, List.erase_append_right _ hnot, List.erase_cons_head, List.append_nil]
      have hhead' : moved kids e head head = tail ++ [e] := by
        rw [moved, if_pos rfl, hhead, List.erase_of_not_mem]
        intro hmem
        exact hne (h.parent_unique (hhead ▸ hmem) he)
      have hbelow : ∀ d, d ∈ l ∨ d ∈ tail ++ [e] → moved kids e head d = [] := by
        intro d hd
        have hold : d ∈ l ++ [e] ∨ d ∈ tail := by
          rw [List.mem_append] at hd ⊢
          tauto
        have hdhead : d ≠ head := by
          rintro rfl
          rcases hold with hold | hold
          · exact (h.kids_live d tmphead (htmp ▸ hold)).2.2 hheads
          · exact (h.kids_live d d (hhead ▸ hold)).2.2 hheads
        rw [moved, if_neg hdhead, hflat d hold, List.erase_nil]
      obtain ⟨m', kids', hm', hforest, hkids', hflat'⟩ := ih hput htmp' hhead' (n := n) hbelow (by omega)
      refine ⟨m', kids', ?_, hforest, ?_, hflat'⟩
      · have hprev := activeListPrev_head hput (show tmphead ∈ _ by simp)
        rw [List.getLast?_concat, sortBack, activeListMoved, if_neg hne.symm]
        show (activeListPrev (activeListPut m (.node head) head e) tmphead (some tmphead)).bind _ = _
        rw [hprev, htmp']
        exact hm'
      · rw [hkids', List.reverse_concat, List.append_assoc]
        rfl

/-! ## The whole function -/

/-- The entries `l` are on the list at `head`, with no lists below them. -/
structure FlatList (m : ActiveLists α) (head : α) (l : List α) : Prop where
  holds : m.Holds head l
  below : ∀ e ∈ l, m.links.next (.depend e) = .depend e ∧ m.links.prev (.depend e) = .depend e
  depended : ∀ e ∈ l, m.depended e = some head

/-- A list of a forest with nothing below its entries. -/
theorem Forest.flatList {heads : List α} (h : Forest m heads live kids) (hhead : head ∈ heads)
    (hflat : ∀ e ∈ kids head, kids e = []) : FlatList m head (kids head) where
  holds := by
    have hring := h.ring (h.heads_live head hhead)
    rw [anchor, if_pos hhead] at hring
    exact hring
  below e he := by
    obtain ⟨-, hlive, hnot⟩ := h.kids_live e head he
    have hring := h.ring hlive
    rw [anchor, if_neg hnot, hflat e he] at hring
    exact ⟨hring.next_head, hring.prev_head⟩
  depended e he := h.depended e head he

/-- **Sorting a list with lists below its entries**: they come to one list, in ascending order, and entries
that compare equal in the order in which they were. -/
theorem activeListSort_eq (h : Built head m live kids) (htmp : tmphead ∉ live)
    (htotal : ∀ a b, compare a b ≤ 0 ∨ compare b a ≤ 0)
    (htrans : ∀ a b c, compare a b ≤ 0 → compare b c ≤ 0 → compare a c ≤ 0) :
    ∃ order sorted, PostOrder kids (kids head) order ∧ (∀ e, e ∈ order ↔ e ≠ head ∧ Under kids e head) ∧
      sorted.Perm order ∧ sorted.Pairwise (fun a b => compare a b ≤ 0) ∧
      (∀ a b, [a, b].Sublist order → compare a b ≤ 0 → [a, b].Sublist sorted) ∧
      ∃ N, ∀ n, N ≤ n → ∃ m', activeListSort n m head tmphead compare = some m' ∧ FlatList m' head sorted := by
  have hbuilt := forest_of_built h
  have hlive := hbuilt.heads_live head (List.mem_singleton_self head)
  have hne : head ≠ tmphead := fun heq => htmp (heq ▸ hlive)
  have hforest : Forest (activeListInit m tmphead) [tmphead, head] (insert tmphead live) kids :=
    forest_init hbuilt htmp fun q hq => by simp [hq]
  have hheads : head ∈ [tmphead, head] := by simp
  have htmps : tmphead ∈ [tmphead, head] := by simp
  obtain ⟨order, hpost⟩ := exists_postOrder fun r _ => hforest.acc r
  have hnodup := nodup_postOrder hforest.nodup (fun c x y => hforest.parent_unique) (hforest.acc head) hpost
  have htmpkids : kids tmphead = [] :=
    List.eq_nil_iff_forall_not_mem.mpr fun c hc => htmp (hbuilt.kids_live c tmphead hc).1
  have hsort : order.foldl (fun l e => l.orderedInsert (Above compare) e) []
      = order.reverse.insertionSort (Above compare) := List.foldr_reverse.symm
  have : Std.Total (Above compare) := ⟨fun a b => htotal b a⟩
  have : IsTrans α (Above compare) := ⟨fun a b c hab hbc => htrans c b a hbc hab⟩
  refine ⟨order, (order.reverse.insertionSort (Above compare)).reverse, hpost,
    hforest.mem_postOrder_iff hheads hpost, ?_, ?_, fun a b hsub hle => ?_,
    3 * order.length + 1, fun n hn => ?_⟩
  · exact (List.reverse_perm _).trans ((List.perm_insertionSort _ _).trans (List.reverse_perm _))
  · exact List.pairwise_reverse.mpr (List.pairwise_insertionSort (Above compare) _)
  · have hpair := List.pair_sublist_insertionSort (show Above compare b a from hle)
      (show [b, a].Sublist order.reverse from hsub.reverse)
    exact hpair.reverse
  · obtain ⟨m₁, kids₁, hm₁, h₁⟩ := @sortOut_eq _ compare _ _ _ _ _ _ n _ _
      ⟨hforest, htmpkids, fun e he => absurd he List.not_mem_nil, hpost, hnodup⟩ hne (by simp; omega)
    rw [hsort] at h₁
    have hlength : (order.reverse.insertionSort (Above compare)).length < n := by
      rw [List.length_insertionSort, List.length_reverse]
      omega
    have hempty := h₁.left.roots_eq_nil
    obtain ⟨m', kids', hm', h', hkids', hflat⟩ := sortBack_eq (n := n) h₁.forest hne h₁.tmp hempty
      (fun e he => he.elim (h₁.flat e) fun he => absurd he List.not_mem_nil) hlength
    refine ⟨m', ?_, ?_⟩
    · have hfirst := next_head hforest hheads hpost le_rfl n (by omega)
      have hlast : activeListPrev m₁ tmphead none = _ := activeListPrev_head h₁.forest htmps
      rw [activeListSort, hfirst]
      show (sortOut head tmphead compare n _ order.head?).bind _ = _
      rw [hm₁]
      show (activeListPrev m₁ tmphead none).bind _ = _
      rw [hlast, h₁.tmp]
      exact hm'
    · rw [List.nil_append] at hkids'
      exact hkids' ▸ h'.flatList hheads hflat

theorem activeListSort_eq_deepForest :
    ∃ order sorted, PostOrder deepKids (deepKids 0) order ∧
      (∀ e, e ∈ order ↔ e ≠ 0 ∧ Under deepKids e 0) ∧ sorted.Perm order ∧
      sorted.Pairwise (fun a b : ℕ => (a : ℤ) - b ≤ 0) ∧
      (∀ a b : ℕ, [a, b].Sublist order → (a : ℤ) - b ≤ 0 → [a, b].Sublist sorted) ∧
      ∃ N, ∀ n, N ≤ n →
        ∃ m', activeListSort n deepForest 0 9 (fun a b => (a : ℤ) - b) = some m' ∧ FlatList m' 0 sorted :=
  activeListSort_eq built_deepForest (by simp) (fun a b => by omega) fun a b c hab hbc => by omega

end FirmwareTools.Opkg

import FirmwareTools.Opkg.ActiveList
import FirmwareTools.Order.PostOrder
import FirmwareTools.System.RingFamily

/-! # Forests of active lists

Lists below the entries of a list make a forest under its head. `active_list_next` goes through it in
post-order. `active_list_prev` goes up one level only behind the first entry of a list.

* **`forest_put`** — moving an entry, with what is below it, to the end of a list;
* **`activeLists_walk`** — both directions. -/

namespace FirmwareTools.Opkg

variable {α : Type} [DecidableEq α]

/-! ## Building a forest -/

/-- `list_del_init(&e->node)`, `list_add_tail(&e->node, at)` and `e->depended = owner`. -/
def activeListPut (m : ActiveLists α) (place : ListHead α) (owner e : α) : ActiveLists α where
  links := (m.links.listDelInit (.node e)).listAddTail (.node e) place
  depended := Function.update m.depended e (some owner)

/-- `active_list_add_depend` -/
def activeListAddDepend (m : ActiveLists α) (node depend : α) : ActiveLists α where
  links := (m.links.listDelInit (.node depend)).listAddTail (.node depend) (.depend node)
  depended := Function.update m.depended depend (some node)

/-- A forest that has been built under `head`: what the entries are that have been initialised, and what
`kids` is below each, the list of `head` among them. Only what has been initialised is put in, an entry is not
put below itself, and `head` is put nowhere. -/
inductive Built (head : α) : ActiveLists α → Set α → (α → List α) → Prop
  | start (m : ActiveLists α) : Built head (activeListInit m head) {head} fun _ => []
  | init {m : ActiveLists α} {live : Set α} {kids : α → List α} {e : α} (h : Built head m live kids)
      (he : e ∉ live) : Built head (activeListInit m e) (insert e live) kids
  | add {m : ActiveLists α} {live : Set α} {kids : α → List α} {e : α} (h : Built head m live kids)
      (he : e ∈ live) (hhead : e ≠ head) : Built head (activeListAdd m head e) live (moved kids e head)
  | addDepend {m : ActiveLists α} {live : Set α} {kids : α → List α} {node depend : α}
      (h : Built head m live kids) (hnode : node ∈ live) (hnhead : node ≠ head) (hdepend : depend ∈ live)
      (hdhead : depend ≠ head) (hunder : ¬ Under kids node depend) :
      Built head (activeListAddDepend m node depend) live (moved kids depend node)

/-! ## What it looks like -/

/-- Where the list of `x` is. -/
def anchor (heads : List α) (x : α) : ListHead α := if x ∈ heads then .node x else .depend x

/-- What is on the list at each address. -/
def listed (heads : List α) (kids : α → List α) : ListHead α → List (ListHead α)
  | .node e => if e ∈ heads then (kids e).map .node else []
  | .depend e => if e ∈ heads then [] else (kids e).map .node

/-- The addresses where a list is: the heads, what can be below an entry, and entries on no list. -/
def listOwners (heads : List α) (live : Set α) (kids : α → List α) : Set (ListHead α) := fun place =>
  match place with
  | .node e => e ∈ live ∧ (e ∈ heads ∨ ∀ x, e ∉ kids x)
  | .depend e => e ∈ live

/-- A forest under some heads. -/
structure Forest (m : ActiveLists α) (heads : List α) (live : Set α) (kids : α → List α) : Prop where
  rings : Rings m.links (listOwners heads live kids) (listed heads kids)
  heads_live : ∀ h ∈ heads, h ∈ live
  free : ∀ h ∈ heads, m.depended h = none
  kids_live : ∀ c x, c ∈ kids x → x ∈ live ∧ c ∈ live ∧ c ∉ heads
  depended : ∀ c x, c ∈ kids x → m.depended c = some x
  acc : ∀ x, Acc (Child kids) x

variable {m : ActiveLists α} {heads : List α} {live : Set α} {kids kids' : α → List α}
  {head c e x y : α}
  {front back : List α}

theorem listed_anchor (heads : List α) (kids : α → List α) (x : α) :
    listed heads kids (anchor heads x) = (kids x).map .node := by
  unfold anchor
  split
  · rename_i hx
    exact if_pos hx
  · rename_i hx
    exact if_neg hx

theorem anchor_mem_listOwners (hx : x ∈ live) : anchor heads x ∈ listOwners heads live kids := by
  unfold anchor
  split
  · rename_i hhead
    exact ⟨hx, .inl hhead⟩
  · exact hx

/-- The list of an entry. -/
theorem Forest.ring (h : Forest m heads live kids) (hx : x ∈ live) :
    Ring m.links (anchor heads x) ((kids x).map .node) :=
  listed_anchor heads kids x ▸ h.rings.ring _ (anchor_mem_listOwners hx)

theorem Forest.nodup (h : Forest m heads live kids) (x : α) : (kids x).Nodup := by
  by_cases hx : x ∈ live
  · exact List.Nodup.of_map _ (List.nodup_cons.mp (h.ring hx).nodup).2
  · rw [List.eq_nil_iff_forall_not_mem.mpr fun c hc => hx (h.kids_live c x hc).1]
    exact List.nodup_nil

theorem Forest.parent_unique (h : Forest m heads live kids) (hx : c ∈ kids x) (hy : c ∈ kids y) :
    x = y :=
  Option.some.inj ((h.depended c x hx).symm.trans (h.depended c y hy))

/-! ## Moving an entry -/

theorem map_node_erase (l : List α) (e : α) :
    (l.map ListHead.node).erase (.node e) = (l.erase e).map ListHead.node :=
  (List.map_erase (fun _ _ heq => ListHead.node.inj heq) l).symm

/-- The lists after an entry has come to the list of `x`. -/
theorem listed_of_moved (heads : List α) (hother : ∀ y, y ≠ x → kids' y = (kids y).erase e)
    (place : ListHead α) :
    (if place = anchor heads x then (kids' x).map .node else (listed heads kids place).erase (.node e))
      = listed heads kids' place := by
  have hanchor : ∀ q, (.node q = anchor heads x ↔ q = x ∧ x ∈ heads) ∧
      (.depend q = anchor heads x ↔ q = x ∧ x ∉ heads) := by
    intro q
    unfold anchor
    split
    · rename_i hx
      simp [hx]
    · rename_i hx
      simp [hx]
  unfold listed
  cases place with
  | node q =>
      dsimp only
      rw [if_congr (hanchor q).1 rfl rfl]
      by_cases hq : q ∈ heads
      · rw [if_pos hq, if_pos hq, map_node_erase]
        by_cases hqx : q = x
        · rw [if_pos ⟨hqx, hqx ▸ hq⟩, hqx]
        · rw [if_neg fun h => hqx h.1, hother q hqx]
      · rw [if_neg hq, if_neg hq, if_neg (fun h : q = x ∧ x ∈ heads => hq (h.1 ▸ h.2))]
        rfl
  | depend q =>
      dsimp only
      rw [if_congr (hanchor q).2 rfl rfl]
      by_cases hq : q ∈ heads
      · rw [if_pos hq, if_pos hq, if_neg (fun h : q = x ∧ x ∉ heads => h.2 (h.1 ▸ hq))]
        rfl
      · rw [if_neg hq, if_neg hq, map_node_erase]
        by_cases hqx : q = x
        · rw [if_pos ⟨hqx, hqx ▸ hq⟩, hqx]
        · rw [if_neg fun h => hqx h.1, hother q hqx]

/-- An entry is on a list or alone. -/
theorem Forest.placed (h : Forest m heads live kids) (he : e ∈ live) (hhead : e ∉ heads) :
    Placed (listOwners heads live kids) (listed heads kids) (.node e) := by
  by_cases hon : ∃ y, e ∈ kids y
  · obtain ⟨y, hy⟩ := hon
    refine .inr ⟨anchor heads y, anchor_mem_listOwners (h.kids_live e y hy).1, ?_⟩
    rw [listed_anchor]
    exact mem_map_node.mpr hy
  · rw [not_exists] at hon
    exact .inl ⟨⟨he, .inr hon⟩, if_neg hhead⟩

theorem anchor_ne_node (heads : List α) (hne : x ≠ e) : anchor heads x ≠ .node e := by
  unfold anchor
  split
  · exact fun heq => hne (ListHead.node.inj heq)
  · exact fun heq => by cases heq

/-- **Moving an entry**, with what is below it, to the list of `x`. -/
theorem forest_of_moved (h : Forest m heads live kids) (he : e ∈ live) (hhead : e ∉ heads) (hx : x ∈ live)
    (hunder : ¬ Under kids x e) (hself : ∀ c, c ∈ kids' x ↔ c = e ∨ c ≠ e ∧ c ∈ kids x)
    (hother : ∀ y, y ≠ x → kids' y = (kids y).erase e) {links : Links (ListHead α)}
    (hrings : Rings links (listOwners heads live kids \ {.node e}) (listed heads kids')) :
    Forest { links, depended := Function.update m.depended e (some x) } heads live kids' := by
  have hmoved : ∀ c y, c ∈ kids' y → c = e ∧ y = x ∨ c ≠ e ∧ c ∈ kids y := by
    intro c y hc
    by_cases hyx : y = x
    · rw [hyx] at hc ⊢
      exact ((hself c).mp hc).imp (fun heq => ⟨heq, rfl⟩) id
    · rw [hother y hyx, (h.nodup y).mem_erase_iff] at hc
      exact .inr hc
  have hkept : ∀ c y, c ≠ e → c ∈ kids y → c ∈ kids' y := by
    intro c y hce hc
    by_cases hyx : y = x
    · rw [hyx] at hc ⊢
      exact (hself c).mpr (.inr ⟨hce, hc⟩)
    · rw [hother y hyx]
      exact (List.mem_erase_of_ne hce).mpr hc
  have howners : listOwners heads live kids' = listOwners heads live kids \ {.node e} := by
    ext place
    cases place with
    | depend q =>
        rw [Set.mem_sdiff, Set.mem_singleton_iff]
        exact ⟨fun hq => ⟨hq, by simp⟩, fun hq => hq.1⟩
    | node q =>
        rw [Set.mem_sdiff, Set.mem_singleton_iff]
        constructor
        · rintro ⟨hq, hout⟩
          have hqe : q ≠ e := by
            rintro rfl
            exact hout.elim hhead fun hout => hout x ((hself q).mpr (.inl rfl))
          exact ⟨⟨hq, hout.imp id fun hout y hy => hout y (hkept q y hqe hy)⟩,
            fun heq => hqe (ListHead.node.inj heq)⟩
        · rintro ⟨⟨hq, hout⟩, hqe⟩
          refine ⟨hq, hout.imp id fun hout y hy => ?_⟩
          rcases hmoved q y hy with ⟨heq, -⟩ | ⟨-, hy⟩
          · exact hqe (congrArg ListHead.node heq)
          · exact hout y hy
  refine ⟨howners ▸ hrings, h.heads_live, fun q hq => ?_, fun c y hc => ?_, fun c y hc => ?_,
    acc_of_moved h.acc hunder fun c y hc => (hmoved c y hc).imp id And.right⟩
  · show Function.update m.depended e (some x) q = none
    have hqe : q ≠ e := fun heq => hhead (heq ▸ hq)
    rw [Function.update_of_ne hqe]
    exact h.free q hq
  · rcases hmoved c y hc with ⟨rfl, rfl⟩ | ⟨-, hc⟩
    · exact ⟨hx, he, hhead⟩
    · exact h.kids_live c y hc
  · show Function.update m.depended e (some x) c = some y
    rcases hmoved c y hc with ⟨rfl, rfl⟩ | ⟨hce, hc⟩
    · exact Function.update_self ..
    · rw [Function.update_of_ne hce]
      exact h.depended c y hc

/-- To its end. -/
theorem forest_put (h : Forest m heads live kids) (he : e ∈ live) (hhead : e ∉ heads) (hx : x ∈ live)
    (hunder : ¬ Under kids x e) :
    Forest (activeListPut m (anchor heads x) x e) heads live (moved kids e x) := by
  have hxe : x ≠ e := fun heq => hunder (heq ▸ .refl)
  have hother : ∀ y, y ≠ x → moved kids e x y = (kids y).erase e := fun y hy => if_neg hy
  have hput := h.rings.put (h.placed he hhead) (anchor_mem_listOwners hx) (anchor_ne_node heads hxe)
  refine forest_of_moved h he hhead hx hunder (fun c => ?_) hother (hput.congr fun place _ => ?_)
  · rw [moved, if_pos rfl, List.mem_append, List.mem_singleton, (h.nodup x).mem_erase_iff, or_comm]
  · rw [← listed_of_moved heads hother]
    unfold moved
    by_cases hplace : place = anchor heads x
    · rw [if_pos hplace, if_pos hplace, if_pos rfl, hplace, listed_anchor, map_node_erase, List.map_append,
        List.map_singleton]
    · rw [if_neg hplace, if_neg hplace]

/-- In front of another entry of it. -/
theorem forest_putBefore (h : Forest m heads live kids) (he : e ∈ live) (hhead : e ∉ heads) (hx : x ∈ live)
    (hunder : ¬ Under kids x e) {p : α} (hkids : kids x = front ++ p :: back) (hnot : e ∉ kids x) :
    Forest (activeListPut m (.node p) x e) heads live
      fun y => if y = x then front ++ e :: p :: back else (kids y).erase e := by
  have hxe : x ≠ e := fun heq => hunder (heq ▸ .refl)
  have hlisted : listed heads kids (anchor heads x) = front.map .node ++ .node p :: back.map .node := by
    rw [listed_anchor, hkids, List.map_append, List.map_cons]
  have hnot' : .node e ∉ listed heads kids (anchor heads x) := by
    rw [listed_anchor]
    exact fun hmem => hnot (mem_map_node.mp hmem)
  have hput := h.rings.putBefore (h.placed he hhead) (anchor_mem_listOwners hx) hlisted
    (anchor_ne_node heads hxe).symm hnot'
  refine forest_of_moved h he hhead hx hunder (fun c => ?_) (fun y hy => if_neg hy)
    (hput.congr fun place _ => ?_)
  · rw [if_pos rfl, hkids]
    simp only [List.mem_append, List.mem_cons]
    tauto
  · rw [← listed_of_moved heads fun y hy => if_neg hy, if_pos rfl, List.map_append, List.map_cons,
      List.map_cons]

/-! ## Initialising an entry -/

/-- Only initialised entries are linked. -/
theorem Forest.live_of_mem (h : Forest m heads live kids) {place p : ListHead α}
    (hplace : place ∈ listOwners heads live kids) (hp : p ∈ place :: listed heads kids place) :
    ∃ q ∈ live, p = .node q ∨ p = .depend q := by
  rcases List.mem_cons.mp hp with rfl | hp
  · cases p with
    | node q => exact ⟨q, hplace.1, .inl rfl⟩
    | depend q => exact ⟨q, hplace, .inr rfl⟩
  · have hmap : ∃ x, p ∈ (kids x).map ListHead.node := by
      cases place with
      | node x =>
          dsimp only [listed] at hp
          split at hp
          · exact ⟨x, hp⟩
          · exact absurd hp List.not_mem_nil
      | depend x =>
          dsimp only [listed] at hp
          split at hp
          · exact absurd hp List.not_mem_nil
          · exact ⟨x, hp⟩
    obtain ⟨x, hmem⟩ := hmap
    obtain ⟨q, hq, rfl⟩ := List.mem_map.mp hmem
    exact ⟨q, (h.kids_live q x hq).2.1, .inl rfl⟩

/-- **An entry that is initialised**, or a new head. -/
theorem forest_init (h : Forest m heads live kids) (he : e ∉ live) {heads' : List α}
    (hheads : ∀ q, q ≠ e → (q ∈ heads' ↔ q ∈ heads)) :
    Forest (activeListInit m e) heads' (insert e live) kids := by
  have hkids : kids e = [] := List.eq_nil_iff_forall_not_mem.mpr fun c hc => he (h.kids_live c e hc).1
  have hnode : ∀ place ∈ listOwners heads live kids,
      ListHead.node e ∉ place :: listed heads kids place := by
    intro place hplace hmem
    obtain ⟨q, hq, heq | heq⟩ := h.live_of_mem hplace hmem
    · exact he (ListHead.node.inj heq ▸ hq)
    · cases heq
  have hdepend : ∀ place ∈ listOwners heads live kids,
      ListHead.depend e ∉ place :: listed heads kids place := by
    intro place hplace hmem
    obtain ⟨q, hq, heq | heq⟩ := h.live_of_mem hplace hmem
    · cases heq
    · exact he (ListHead.depend.inj heq ▸ hq)
  have hrings := (h.rings.init hnode).init (x := .depend e) fun place hplace hmem => by
    rcases Set.mem_insert_iff.mp hplace with rfl | hin
    · rw [Function.update_self, List.mem_singleton] at hmem
      cases hmem
    · have hne : place ≠ .node e := fun heq => hnode place hin (heq ▸ List.mem_cons_self)
      rw [Function.update_of_ne hne] at hmem
      exact hdepend place hin hmem
  have howners : insert (.depend e) (insert (.node e) (listOwners heads live kids))
      = listOwners heads' (insert e live) kids := by
    ext place
    rw [Set.mem_insert_iff, Set.mem_insert_iff]
    cases place with
    | node q =>
        constructor
        · rintro (heq | heq | ⟨hq, hout⟩)
          · cases heq
          · cases heq
            exact ⟨.inl rfl, .inr fun x hx => he (h.kids_live e x hx).2.1⟩
          · have hqe : q ≠ e := fun heq => he (heq ▸ hq)
            exact ⟨.inr hq, hout.imp (hheads q hqe).mpr id⟩
        · rintro ⟨rfl | hq, hout⟩
          · exact .inr (.inl rfl)
          · have hqe : q ≠ e := fun heq => he (heq ▸ hq)
            exact .inr (.inr ⟨hq, hout.imp (hheads q hqe).mp id⟩)
    | depend q =>
        constructor
        · rintro (heq | heq | hq)
          · cases heq
            exact .inl rfl
          · cases heq
          · exact .inr hq
        · rintro (rfl | hq)
          · exact .inl rfl
          · exact .inr (.inr hq)
  rw [howners] at hrings
  refine ⟨hrings.congr fun place _ => ?_, fun q hq => ?_, fun q hq => ?_, fun c x hc => ?_,
    fun c x hc => ?_, h.acc⟩
  · by_cases hn : place = .node e
    · rw [hn, Function.update_of_ne (by simp), Function.update_self, listed, hkids, List.map_nil, ite_self]
    · by_cases hd : place = .depend e
      · rw [hd, Function.update_self, listed, hkids, List.map_nil, ite_self]
      · rw [Function.update_of_ne hd, Function.update_of_ne hn]
        cases place with
        | node q => exact if_congr (hheads q fun heq => hn (congrArg _ heq)) rfl rfl
        | depend q => exact if_congr (hheads q fun heq => hd (congrArg _ heq)) rfl rfl
  · by_cases hqe : q = e
    · exact .inl hqe
    · exact .inr (h.heads_live q ((hheads q hqe).mp hq))
  · show Function.update m.depended e none q = none
    by_cases hqe : q = e
    · rw [hqe, Function.update_self]
    · rw [Function.update_of_ne hqe]
      exact h.free q ((hheads q hqe).mp hq)
  · obtain ⟨hx, hc, hhead⟩ := h.kids_live c x hc
    have hce : c ≠ e := fun heq => he (heq ▸ hc)
    exact ⟨.inr hx, .inr hc, fun hin => hhead ((hheads c hce).mp hin)⟩
  · show Function.update m.depended e none c = some x
    have hce : c ≠ e := fun heq => he (heq ▸ (h.kids_live c x hc).2.1)
    rw [Function.update_of_ne hce]
    exact h.depended c x hc

/-- Nothing has been initialised. -/
theorem forest_nil (m : ActiveLists α) : Forest m [] ∅ fun _ => [] where
  rings := by
    have hno : ∀ place, place ∉ listOwners ([] : List α) ∅ fun _ => [] := by
      intro place hplace
      cases place with
      | node q => exact hplace.1
      | depend q => exact hplace
    exact ⟨fun place hplace => absurd hplace (hno place), fun place hplace => absurd hplace (hno place)⟩
  heads_live _ hq := absurd hq List.not_mem_nil
  free _ hq := absurd hq List.not_mem_nil
  kids_live _ _ hc := absurd hc List.not_mem_nil
  depended _ _ hc := absurd hc List.not_mem_nil
  acc x := .intro x fun _ hc => absurd hc List.not_mem_nil

/-- **What has been built is a forest.** -/
theorem forest_of_built (h : Built head m live kids) : Forest m [head] live kids := by
  induction h with
  | start m =>
      have hstart := @forest_init _ _ _ _ _ _ head (forest_nil m) (Set.notMem_empty head) [head]
        fun q hq => by simp [hq]
      simpa using hstart
  | init _ he ih => exact forest_init ih he fun _ _ => Iff.rfl
  | @add m live kids e _ he hhead ih =>
      have hnot : e ∉ [head] := by simpa using hhead
      have hunder : ¬ Under kids head e := by
        intro hunder
        rcases Relation.ReflTransGen.cases_head hunder with heq | ⟨y, hy, -⟩
        · exact hhead heq.symm
        · exact (ih.kids_live head y hy).2.2 (List.mem_singleton_self _)
      have hput := forest_put ih he hnot (ih.heads_live head (List.mem_singleton_self _)) hunder
      rw [anchor, if_pos (List.mem_singleton_self _)] at hput
      exact hput
  | @addDepend m live kids node depend _ hnode hnhead hdepend hdhead hunder ih =>
      have hput := forest_put ih hdepend (by simpa using hdhead) hnode hunder
      rw [anchor, if_neg (by simpa using hnhead)] at hput
      exact hput

/-! ## Forwards -/

/-- What is behind the place where a list is. -/
theorem Forest.next_anchor (h : Forest m heads live kids) (hx : x ∈ live) :
    m.links.next (anchor heads x) = ((kids x).map .node).headD (anchor heads x) :=
  (h.ring hx).next_head

theorem Forest.prev_anchor (h : Forest m heads live kids) (hx : x ∈ live) :
    m.links.prev (anchor heads x) = ((kids x).map .node).getLastD (anchor heads x) :=
  (h.ring hx).prev_head

/-- What is behind an entry. -/
theorem Forest.next_node (h : Forest m heads live kids) (hkids : kids x = front ++ e :: back) :
    m.links.next (.node e) = (back.map .node).headD (anchor heads x) := by
  have hx : x ∈ live := (h.kids_live e x (hkids ▸ List.mem_append_right _ List.mem_cons_self)).1
  have hring := h.ring hx
  rw [hkids, List.map_append, List.map_cons] at hring
  exact hring.next_mem

theorem Forest.prev_node (h : Forest m heads live kids) (hkids : kids x = front ++ e :: back) :
    m.links.prev (.node e) = (front.map .node).getLastD (anchor heads x) := by
  have hx : x ∈ live := (h.kids_live e x (hkids ▸ List.mem_append_right _ List.mem_cons_self)).1
  have hring := h.ring hx
  rw [hkids, List.map_append, List.map_cons] at hring
  exact hring.prev_mem

/-- **Going down** to the first entry without others below it. -/
theorem activeListDescend_eq (h : Forest m heads live kids) {roots order : List α}
    (hpost : PostOrder kids roots order) (hroots : ∀ r ∈ roots, r ∈ live ∧ r ∉ heads) {r : α}
    (hr : roots.head? = some r) {n : ℕ} (hn : order.length ≤ n) :
    activeListDescend m n r = order.head? := by
  induction hpost generalizing r n with
  | nil => exact absurd hr (by simp)
  | @cons q roots below rest hbelow _ ihbelow _ =>
      obtain rfl : q = r := Option.some.inj hr
      obtain ⟨hlive, hhead⟩ := hroots q List.mem_cons_self
      have hlength : below.length + (rest.length + 1) ≤ n := by simpa using hn
      obtain ⟨n, rfl⟩ := Nat.exists_eq_succ_of_ne_zero (show n ≠ 0 by omega)
      have hnext := h.next_anchor hlive
      rw [anchor, if_neg hhead] at hnext
      rw [activeListDescend, hnext]
      cases hkids : kids q with
      | nil =>
          rw [hkids] at hbelow
          cases hbelow
          rw [List.map_nil, List.headD_nil, if_pos rfl]
          rfl
      | cons c cs =>
          rw [hkids] at hbelow ihbelow
          rw [List.map_cons, List.headD_cons, if_neg (by simp)]
          have hsub : ∀ c' ∈ c :: cs, c' ∈ live ∧ c' ∉ heads := fun c' hc' =>
            (h.kids_live c' q (hkids ▸ hc')).2
          have hdown := ihbelow hsub rfl (show below.length ≤ n by omega)
          show activeListDescend m n c = _
          rw [hdown]
          cases hbelow
          simp

/-- The list of `head`, or one below an entry. -/
def OwnsList (heads : List α) (head x : α) : Prop := x = head ∨ x ∉ heads

/-- What `active_list_next` gives behind `u`, if there is enough fuel. -/
def ActiveNext (m : ActiveLists α) (head : α) (fuel : ℕ) (u v : Option α) : Prop :=
  ∀ n, fuel ≤ n → activeListNext n m head u = some v

/-- Behind the last entry of a list there is the entry above it. -/
theorem next_last (h : Forest m heads live kids) (hhead : head ∈ heads) (hx : OwnsList heads head x)
    (hkids : kids x = front ++ [e]) (fuel : ℕ) :
    ActiveNext m head fuel (some e) (if x = head then none else some x) := by
  intro n _
  have hlink := h.next_node hkids
  have hdep := h.depended e x (hkids ▸ List.mem_append_right _ (List.mem_singleton_self _))
  rw [List.map_nil, List.headD_nil] at hlink
  unfold activeListNext
  dsimp only [Option.getD_some]
  rw [hlink, hdep]
  by_cases hxhead : x = head
  · rw [if_pos hxhead, hxhead, anchor, if_pos hhead, if_pos rfl]
  · have hxnot : x ∉ heads := hx.resolve_left hxhead
    rw [if_neg hxhead, anchor, if_neg hxnot, if_neg (by simp)]
    simp [Option.filter]

/-- Behind an entry with another one behind it there is the first entry below that. -/
theorem next_inner (h : Forest m heads live kids) (hhead : head ∈ heads)
    (hkids : kids x = front ++ e :: c :: back) {order : List α} (hpost : PostOrder kids (c :: back) order)
    {fuel : ℕ} (hfuel : order.length ≤ fuel) : ActiveNext m head fuel (some e) order.head? := by
  intro n hn
  have hsub : ∀ c' ∈ c :: back, c' ∈ live ∧ c' ∉ heads := by
    intro c' hc'
    refine (h.kids_live c' x ?_).2
    rw [hkids]
    exact List.mem_append_right _ (List.mem_cons_of_mem _ hc')
  have hlink := h.next_node hkids
  rw [List.map_cons, List.headD_cons] at hlink
  have hne : c ≠ head := fun heq => (hsub c List.mem_cons_self).2 (heq ▸ hhead)
  have hdown := activeListDescend_eq h hpost hsub rfl (hfuel.trans hn)
  unfold activeListNext
  dsimp only [Option.getD_some]
  rw [hlink, if_neg (fun heq => hne (ListHead.node.inj heq)),
    Option.filter_eq_none_iff.mpr (fun d _ => by simp)]
  show (activeListDescend m n c).bind (fun next => some (some next)) = some order.head?
  rw [hdown]
  cases hpost
  simp

/-- At the head there is the first entry of all. -/
theorem next_head (h : Forest m heads live kids) (hhead : head ∈ heads) {order : List α}
    (hpost : PostOrder kids (kids head) order) {fuel : ℕ} (hfuel : order.length ≤ fuel) :
    ActiveNext m head fuel none order.head? := by
  intro n hn
  have hlink := h.next_anchor (h.heads_live head hhead)
  rw [anchor, if_pos hhead] at hlink
  unfold activeListNext
  dsimp only [Option.getD_none]
  rw [hlink]
  cases hkids : kids head with
  | nil =>
      rw [hkids] at hpost
      cases hpost
      rw [List.map_nil, List.headD_nil, if_pos rfl]
      rfl
  | cons c back =>
      have hsub : ∀ c' ∈ c :: back, c' ∈ live ∧ c' ∉ heads := fun c' hc' =>
        (h.kids_live c' head (hkids ▸ hc')).2
      have hne : c ≠ head := fun heq => (hsub c List.mem_cons_self).2 (heq ▸ hhead)
      rw [hkids] at hpost
      have hdown := activeListDescend_eq h hpost hsub rfl (hfuel.trans hn)
      rw [List.map_cons, List.headD_cons, if_neg (fun heq => hne (ListHead.node.inj heq)),
        h.free head hhead, Option.filter_none]
      show (activeListDescend m n c).bind (fun next => some (some next)) = some order.head?
      rw [hdown]
      cases hpost
      simp

/-- **One entry after the other.** -/
theorem isChain_next (h : Forest m heads live kids) (hhead : head ∈ heads) {roots order : List α}
    (hpost : PostOrder kids roots order) {fuel : ℕ} (hfuel : order.length ≤ fuel)
    (hx : OwnsList heads head x) (hkids : kids x = front ++ roots) :
    List.IsChain (ActiveNext m head fuel) (order.map some ++ [if x = head then none else some x]) := by
  induction hpost generalizing x front with
  | nil => exact .singleton _
  | @cons r roots below rest hbelow hrest ihbelow ihrest =>
      rw [List.length_append, List.length_cons] at hfuel
      have hrlive := h.kids_live r x (hkids ▸ List.mem_append_right _ List.mem_cons_self)
      have hrhead : r ≠ head := fun heq => hrlive.2.2 (heq ▸ hhead)
      have hfirst := ihbelow (by omega) (.inr hrlive.2.2) (show kids r = [] ++ kids r from rfl)
      have hkids' : kids x = (front ++ [r]) ++ roots := by
        rw [hkids, List.append_assoc, List.singleton_append]
      have hsecond := ihrest (by omega) hx hkids'
      rw [if_neg hrhead] at hfirst
      rw [List.map_append, List.append_assoc, List.map_cons, List.cons_append, List.isChain_split]
      refine ⟨hfirst, ?_⟩
      -- from `r` to what comes behind it
      cases hrest with
      | nil => exact .cons_cons (next_last h hhead hx hkids fuel) hsecond
      | @cons c roots below' rest' hbelow' hrest' =>
          have hinner := @next_inner _ _ _ _ _ _ _ _ _ _ _ _ h hhead hkids _ (.cons hbelow' hrest') fuel (by omega)
          cases below' with
          | nil => exact .cons_cons hinner hsecond
          | cons b below' => exact .cons_cons hinner hsecond

/-- A loop along a chain. -/
theorem activeListFrom_eq {fuel : ℕ} (l : List α) {v : Option α}
    (hchain : List.IsChain (ActiveNext m head fuel) (v :: (l.map some ++ [none])))
    (hv : v ≠ none) {n : ℕ} (hn : l.length + 1 + fuel < n) :
    activeListFrom m head n v = v.map fun e => e :: l := by
  induction l generalizing v n with
  | nil =>
      obtain ⟨e, rfl⟩ := Option.ne_none_iff_exists'.mp hv
      obtain ⟨n, rfl⟩ := Nat.exists_eq_succ_of_ne_zero (show n ≠ 0 by omega)
      obtain ⟨n', rfl⟩ := Nat.exists_eq_succ_of_ne_zero (show n ≠ 0 by omega)
      rw [activeListFrom, (List.isChain_cons_cons.mp hchain).1 _ (by omega)]
      rfl
  | cons c l ih =>
      obtain ⟨e, rfl⟩ := Option.ne_none_iff_exists'.mp hv
      obtain ⟨n, rfl⟩ := Nat.exists_eq_succ_of_ne_zero (show n ≠ 0 by omega)
      rw [List.length_cons] at hn
      rw [List.map_cons, List.cons_append, List.isChain_cons_cons] at hchain
      rw [activeListFrom, hchain.1 _ (by omega)]
      show (activeListFrom m head n (some c)).bind _ = _
      rw [ih hchain.2 (Option.some_ne_none c) (by omega)]
      rfl

/-- **Forwards**: the loop goes through the post-order. -/
theorem activeListEntries_postOrder (h : Forest m heads live kids) (hhead : head ∈ heads)
    {order : List α} (hpost : PostOrder kids (kids head) order) {n : ℕ} (hn : 2 * order.length + 2 < n) :
    activeListEntries n m head = some order := by
  have hchain := isChain_next h hhead hpost le_rfl (.inl rfl) (show kids head = [] ++ kids head from rfl)
  rw [if_pos rfl] at hchain
  have hfirst : activeListNext n m head (some head) = some order.head? :=
    next_head h hhead hpost le_rfl n (by omega)
  rw [activeListEntries, hfirst]
  show activeListFrom m head n order.head? = some order
  cases order with
  | nil =>
      obtain ⟨n, rfl⟩ := Nat.exists_eq_succ_of_ne_zero (show n ≠ 0 by omega)
      rfl
  | cons e order =>
      rw [List.length_cons] at hn
      exact activeListFrom_eq order hchain (Option.some_ne_none e) (by simp; omega)

/-! ## Backwards -/

/-- The entries that a loop `for (ptr = active_list_prev(head, head); ptr; …)` goes through, from `ptr` on. -/
def activeListBackFrom (m : ActiveLists α) (head : α) : ℕ → Option α → Option (List α)
  | 0, _ => none
  | _ + 1, none => some []
  | n + 1, some node => do
    let rest ← activeListBackFrom m head n (← activeListPrev m head (some node))
    some (node :: rest)

/-- All the entries such a loop goes through. -/
def activeListBackEntries (n : ℕ) (m : ActiveLists α) (head : α) : Option (List α) := do
  activeListBackFrom m head n (← activeListPrev m head (some head))

/-- What `active_list_prev` gives in front of `v` is `u`. -/
def ActivePrev (m : ActiveLists α) (head : α) (u v : Option α) : Prop := activeListPrev m head v = some u

/-- In front of an entry with others below it there is the last of these. -/
theorem prev_of_kids (h : Forest m heads live kids) (hlive : e ∈ live) (hheads : e ∉ heads)
    (hkids : kids e ≠ []) : ActivePrev m head (kids e).getLast? (some e) := by
  obtain ⟨c, hc⟩ := Option.ne_none_iff_exists'.mp (mt List.getLast?_eq_none_iff.mp hkids)
  have hlink := h.prev_anchor hlive
  rw [anchor, if_neg hheads, getLastD_nodes, hc] at hlink
  unfold ActivePrev activeListPrev
  dsimp only [Option.getD_some]
  rw [hlink, if_pos (by simp), hc]
  rfl

/-- There is nothing below this entry. -/
theorem prev_depend (h : Forest m heads live kids) (hlive : e ∈ live) (hheads : e ∉ heads)
    (hkids : kids e = []) : m.links.prev (.depend e) = .depend e := by
  have hlink := h.prev_anchor hlive
  rw [anchor, if_neg hheads, hkids] at hlink
  exact hlink

/-- In front of an entry on a list there is the one before it, or `NULL` at the head. -/
theorem prev_of_front (h : Forest m heads live kids) (hhead : head ∈ heads)
    (hkids : kids x = front ++ e :: back) (hleaf : kids e = []) (hfirst : front ≠ [] ∨ x = head) :
    ActivePrev m head front.getLast? (some e) := by
  obtain ⟨hx, hlive, hheads⟩ := h.kids_live e x (hkids ▸ List.mem_append_right _ List.mem_cons_self)
  have hlink := h.prev_node hkids
  rw [getLastD_nodes] at hlink
  unfold ActivePrev activeListPrev
  dsimp only [Option.getD_some]
  rw [prev_depend h hlive hheads hleaf, if_neg (not_not_intro rfl), hlink]
  cases hlast : front.getLast? with
  | none =>
      have hnil : front = [] := List.getLast?_eq_none_iff.mp hlast
      obtain rfl : x = head := hfirst.resolve_left (not_not_intro hnil)
      rw [Option.map_none, Option.getD_none, anchor, if_pos hhead,
        Option.filter_eq_none_iff.mpr (fun d _ => by simp)]
      show some (if x = x then none else some x) = some none
      rw [if_pos rfl]
  | some l =>
      have hl : l ∈ kids x := by
        rw [hkids]
        exact List.mem_append_left _ (List.mem_of_getLast? hlast)
      have hne : l ≠ head := fun heq => (h.kids_live l x hl).2.2 (heq ▸ hhead)
      rw [Option.map_some, Option.getD_some, Option.filter_eq_none_iff.mpr (fun d _ => by simp)]
      show some (if l = head then none else some l) = some (some l)
      rw [if_neg hne]

/-- In front of the first entry below another one there is what is linked in front of that, if this is the
head of an entry. -/
theorem prev_of_first (h : Forest m heads live kids) (hhead : head ∈ heads) (hx : x ∉ heads)
    (hkids : kids x = e :: back) (hleaf : kids e = []) :
    activeListPrev m head (some e)
      = (listEntry (m.links.prev (.node x))).map fun p => if p = head then none else some p := by
  have he : e ∈ kids x := hkids ▸ List.mem_cons_self
  obtain ⟨-, hlive, hheads⟩ := h.kids_live e x he
  have hlink := h.prev_node (show kids x = [] ++ e :: back from hkids)
  have hxhead : x ≠ head := fun heq => hx (heq ▸ hhead)
  rw [getLastD_nodes, List.getLast?_nil, Option.map_none, Option.getD_none, anchor, if_neg hx] at hlink
  unfold activeListPrev
  dsimp only [Option.getD_some]
  rw [prev_depend h hlive hheads hleaf, if_neg (not_not_intro rfl), hlink, h.depended e x he]
  simp only [Option.filter, ne_eq, hxhead, not_false_eq_true, true_and, decide_true, if_true]
  cases listEntry (m.links.prev (.node x)) <;> rfl

/-- Behind the first entry below `e` there is what is in front of `e`, if `e` is not the first itself. -/
theorem prev_of_first_of_front (h : Forest m heads live kids) (hhead : head ∈ heads)
    (hkids : kids x = front ++ e :: back) (hfirst : front ≠ [] ∨ x = head) (hc : (kids e).head? = some c)
    (hleaf : kids c = []) : ActivePrev m head front.getLast? (some c) := by
  obtain ⟨-, -, hheads⟩ := h.kids_live e x (hkids ▸ List.mem_append_right _ List.mem_cons_self)
  obtain ⟨cs, hcs⟩ := List.head?_eq_some_iff.mp hc
  have hlink := h.prev_node hkids
  rw [getLastD_nodes] at hlink
  rw [ActivePrev, prev_of_first h hhead hheads hcs hleaf, hlink]
  cases hlast : front.getLast? with
  | none =>
      have hnil : front = [] := List.getLast?_eq_none_iff.mp hlast
      obtain rfl : x = head := hfirst.resolve_left (not_not_intro hnil)
      rw [Option.map_none, Option.getD_none, anchor, if_pos hhead]
      show some (if x = x then none else some x) = some none
      rw [if_pos rfl]
  | some l =>
      have hl : l ∈ kids x := by
        rw [hkids]
        exact List.mem_append_left _ (List.mem_of_getLast? hlast)
      have hne : l ≠ head := fun heq => (h.kids_live l x hl).2.2 (heq ▸ hhead)
      show some (if l = head then none else some l) = some (some l)
      rw [if_neg hne]

/-- The first entry below each of some entries has no others below it. -/
def FirstLeaf (kids : α → List α) (l : List α) : Prop :=
  ∀ x ∈ l, ∀ c, (kids x).head? = some c → kids c = []

/-- `u` is in front of `r`, and of what is below `r`. -/
def Precedes (m : ActiveLists α) (head : α) (kids : α → List α) (u : Option α) (r : α) : Prop :=
  (kids r = [] → ActivePrev m head u (some r)) ∧
    ∀ c, (kids r).head? = some c → kids c = [] → ActivePrev m head u (some c)

/-- **One entry after the other, backwards.** -/
theorem isChain_prev (h : Forest m heads live kids) (hhead : head ∈ heads) {roots order : List α}
    (hpost : PostOrder kids roots order) (hleaf : FirstLeaf kids order)
    (hkids : kids x = front ++ roots) {u : Option α}
    (hu : ∀ r, roots.head? = some r → Precedes m head kids u r) :
    List.IsChain (ActivePrev m head) (u :: order.map some) := by
  induction hpost generalizing x front u with
  | nil => exact .singleton _
  | @cons r roots below rest hbelow hrest ihbelow ihrest =>
      have hr : r ∈ kids x := hkids ▸ List.mem_append_right _ List.mem_cons_self
      obtain ⟨-, hlive, hheads⟩ := h.kids_live r x hr
      have hkids' : kids x = (front ++ [r]) ++ roots := by
        rw [hkids, List.append_assoc, List.singleton_append]
      have hrleaf := hleaf r (List.mem_append_right _ List.mem_cons_self)
      have hprecedes := hu r rfl
      rw [List.map_append, List.map_cons, ← List.cons_append, List.isChain_split]
      constructor
      · -- what is below `r`, then `r`
        cases hkidsr : kids r with
        | nil =>
            rw [hkidsr] at hbelow
            cases hbelow
            exact .cons_cons (hprecedes.1 hkidsr) (.singleton _)
        | cons c cs =>
            have hc : (kids r).head? = some c := by
              rw [hkidsr]
              rfl
            have hchain := ihbelow (fun y hy => hleaf y (List.mem_append_left _ hy))
              (show kids r = [] ++ kids r from rfl) (u := u) fun c' hc' => by
                obtain rfl : c = c' := Option.some.inj (hc.symm.trans hc')
                have hcleaf := hrleaf c hc
                refine ⟨fun _ => hprecedes.2 c hc hcleaf, fun c' hc' => ?_⟩
                rw [hcleaf] at hc'
                exact absurd hc' (by simp)
            rw [List.isChain_append]
            refine ⟨hchain, .singleton _, fun v hv w hw => ?_⟩
            obtain rfl : some r = w := Option.some.inj hw
            have hne : kids r ≠ [] := by
              rw [hkidsr]
              exact List.cons_ne_nil c cs
            have hlast : ActivePrev m head (kids r).getLast? (some r) := prev_of_kids h hlive hheads hne
            obtain ⟨l, hl⟩ := Option.ne_none_iff_exists'.mp (mt List.getLast?_eq_none_iff.mp hne)
            rw [List.getLast?_cons, List.getLast?_map, getLast?_postOrder hbelow, hl] at hv
            rw [hl] at hlast
            exact Option.some.inj hv ▸ hlast
      · refine ihrest (fun y hy => hleaf y (List.mem_append_right _ (List.mem_cons_of_mem _ hy))) hkids'
          fun c hc => ?_
        obtain ⟨cs, hcs⟩ := List.head?_eq_some_iff.mp hc
        rw [hcs] at hkids'
        have hne : front ++ [r] ≠ [] := by simp
        have hlast : (front ++ [r]).getLast? = some r := List.getLast?_concat
        refine ⟨fun hcleaf => ?_, fun c' hc' hcleaf => ?_⟩
        · exact hlast ▸ prev_of_front h hhead hkids' hcleaf (.inl hne)
        · exact hlast ▸ prev_of_first_of_front h hhead hkids' (.inl hne) hc' hcleaf

/-- A loop backwards along a chain. -/
theorem activeListBackFrom_eq (l : List α) (hchain : List.IsChain (ActivePrev m head) (none :: l.map some))
    {n : ℕ} (hn : l.length < n) : activeListBackFrom m head n l.getLast? = some l.reverse := by
  induction l using List.reverseRecOn generalizing n with
  | nil =>
      obtain ⟨n, rfl⟩ := Nat.exists_eq_succ_of_ne_zero (show n ≠ 0 by omega)
      rfl
  | append_singleton l e ih =>
      obtain ⟨n, rfl⟩ := Nat.exists_eq_succ_of_ne_zero (show n ≠ 0 by omega)
      rw [List.length_append, List.length_singleton] at hn
      rw [List.map_append, ← List.cons_append, List.isChain_append] at hchain
      have hprev : activeListPrev m head (some e) = some l.getLast? := by
        refine hchain.2.2 l.getLast? ?_ (some e) rfl
        rw [List.getLast?_cons, List.getLast?_map]
        cases l.getLast? <;> rfl
      rw [List.getLast?_concat, activeListBackFrom, hprev]
      show (activeListBackFrom m head n l.getLast?).bind _ = _
      rw [ih hchain.1 (by omega), List.reverse_concat]
      rfl

/-! ## Both ways -/

/-- An entry that a loop backwards goes through has something in front of it. -/
theorem exists_prev_of_mem {n : ℕ} {v : Option α} {l : List α}
    (h : activeListBackFrom m head n v = some l) (he : e ∈ l) :
    ∃ u, activeListPrev m head (some e) = some u := by
  induction n generalizing v l with
  | zero => cases h
  | succ n ih =>
      cases v with
      | none =>
          obtain rfl : [] = l := Option.some.inj h
          exact absurd he List.not_mem_nil
      | some node =>
          obtain ⟨u, hu, h⟩ := Option.bind_eq_some_iff.mp h
          obtain ⟨rest, hrest, h⟩ := Option.bind_eq_some_iff.mp h
          obtain rfl : node :: rest = l := Option.some.inj h
          rcases List.mem_cons.mp he with rfl | he
          · exact ⟨u, hu⟩
          · exact ih hrest he

/-- The entry at the bottom is where the loop backwards leaves the lists: it climbs to the first of the two
above it only. -/
theorem activeListPrev_bottom (h : Forest m heads live kids) (hhead : head ∈ heads) {z l : α}
    {ys ls : List α} (hz : z ∉ heads) (hkids : kids z = y :: ys) (hy : kids y = l :: ls)
    (hl : kids l = []) : activeListPrev m head (some l) = none := by
  have hheads := (h.kids_live y z (hkids ▸ List.mem_cons_self)).2.2
  have hlink := h.prev_node (show kids z = [] ++ y :: ys from hkids)
  rw [getLastD_nodes, List.getLast?_nil, Option.map_none, Option.getD_none, anchor, if_neg hz] at hlink
  rw [prev_of_first h hhead hheads hy hl, hlink]
  rfl

/-- What is below a head is initialised, and no head. -/
theorem Forest.live_of_postOrder (h : Forest m heads live kids) {order : List α}
    (hpost : PostOrder kids (kids head) order) (hx : x ∈ order) : x ∈ live := by
  obtain ⟨y, hy⟩ := hpost.exists_parent hx
  exact (h.kids_live x y hy).2.1

theorem Forest.not_mem_heads (h : Forest m heads live kids) {order : List α}
    (hpost : PostOrder kids (kids head) order) (hx : x ∈ order) : x ∉ heads := by
  obtain ⟨y, hy⟩ := hpost.exists_parent hx
  exact (h.kids_live x y hy).2.2

/-- What is below one head is not on the list of another one. -/
theorem Forest.not_mem_of_heads (h : Forest m heads live kids) {head' : α} (hhead' : head' ∈ heads)
    (hne : head ≠ head') {order : List α} (hpost : PostOrder kids (kids head) order) (hx : x ∈ order) :
    x ∉ kids head' := by
  intro hmem
  obtain ⟨r, hr, hunder⟩ := hpost.mem_iff.mp hx
  rcases Relation.ReflTransGen.cases_head hunder with rfl | ⟨y, hy, hunder⟩
  · exact hne (h.parent_unique hr hmem)
  · obtain rfl := h.parent_unique hy hmem
    rcases Relation.ReflTransGen.cases_head hunder with rfl | ⟨z, hz, -⟩
    · exact (h.kids_live y head hr).2.2 hhead'
    · exact (h.kids_live y z hz).2.2 hhead'

/-- In front of the head there is the last entry of its list. -/
theorem activeListPrev_head (h : Forest m heads live kids) (hhead : head ∈ heads) :
    activeListPrev m head (some head) = some (kids head).getLast? := by
  have hlive := h.heads_live head hhead
  have hlink := h.prev_anchor hlive
  rw [anchor, if_pos hhead, getLastD_nodes] at hlink
  have hdepend : m.links.prev (.depend head) = .depend head := by
    have hring := h.rings.ring (.depend head) hlive
    rw [listed, if_pos hhead] at hring
    exact hring.prev_head
  unfold activeListPrev
  dsimp only [Option.getD_some]
  rw [hdepend, if_neg (not_not_intro rfl), hlink, h.free head hhead, Option.filter_none]
  cases hlast : (kids head).getLast? with
  | none =>
      show some (if head = head then none else some head) = some none
      rw [if_pos rfl]
  | some l =>
      have hne : l ≠ head := fun heq =>
        (h.kids_live l head (List.mem_of_getLast? hlast)).2.2 (heq ▸ hhead)
      show some (if l = head then none else some l) = some (some l)
      rw [if_neg hne]

/-- **Backwards**: the loop goes through the post-order from its end if it has to climb one level at most. -/
theorem activeListBackEntries_iff (h : Forest m heads live kids) (hhead : head ∈ heads) {order : List α}
    (hpost : PostOrder kids (kids head) order) :
    (∃ N, ∀ n, N ≤ n → activeListBackEntries n m head = some order.reverse) ↔ FirstLeaf kids order := by
  constructor
  · rintro ⟨N, hN⟩ x hx c hc
    by_contra hne
    obtain ⟨z, hz, y, ys, l, ls, hkids, hy, hl, hlorder⟩ := hpost.exists_bottom (h.acc x) hx hc hne
    obtain ⟨u, -, hback⟩ := Option.bind_eq_some_iff.mp (hN N le_rfl)
    obtain ⟨v, hv⟩ := exists_prev_of_mem hback (List.mem_reverse.mpr hlorder)
    rw [activeListPrev_bottom h hhead (h.not_mem_heads hpost hz) hkids hy hl] at hv
    cases hv
  · intro hleaf
    refine ⟨order.length + 1, fun n hn => ?_⟩
    have hchain := isChain_prev (u := none) h hhead hpost hleaf (show kids head = [] ++ kids head from rfl)
      fun r hr => by
        obtain ⟨rs, hrs⟩ := List.head?_eq_some_iff.mp hr
        have hroots : kids head = [] ++ r :: rs := hrs
        exact ⟨fun hrleaf => prev_of_front h hhead hroots hrleaf (.inr rfl),
          fun c hc hcleaf => prev_of_first_of_front h hhead hroots (.inr rfl) hc hcleaf⟩
    rw [activeListBackEntries, activeListPrev_head h hhead, ← getLast?_postOrder hpost]
    exact activeListBackFrom_eq order hchain (by omega)

/-- The entries in the post-order of the list of a head. -/
theorem Forest.mem_postOrder_iff (h : Forest m heads live kids) (hhead : head ∈ heads) {order : List α}
    (hpost : PostOrder kids (kids head) order) (e : α) : e ∈ order ↔ e ≠ head ∧ Under kids e head := by
  constructor
  · intro he
    obtain ⟨r, hr, hunder⟩ := hpost.mem_iff.mp he
    exact ⟨fun heq => h.not_mem_heads hpost he (heq ▸ hhead), hunder.tail hr⟩
  · rintro ⟨hne, hunder⟩
    rcases Relation.ReflTransGen.cases_tail hunder with heq | ⟨r, hunder, hr⟩
    · exact absurd heq.symm hne
    · exact hpost.mem_iff.mpr ⟨r, hr, hunder⟩

/-- **A loop over a list with lists below its entries.** -/
theorem activeLists_walk (h : Built head m live kids) :
    ∃ order, PostOrder kids (kids head) order ∧ order.Nodup ∧
      (∀ e, e ∈ order ↔ e ≠ head ∧ Under kids e head) ∧
      (∃ N, ∀ n, N ≤ n → activeListEntries n m head = some order) ∧
      ((∃ N, ∀ n, N ≤ n → activeListBackEntries n m head = some order.reverse) ↔ FirstLeaf kids order) := by
  have hforest := forest_of_built h
  have hhead : head ∈ [head] := List.mem_singleton_self head
  obtain ⟨order, hpost⟩ := exists_postOrder fun r _ => hforest.acc r
  have hnodup := nodup_postOrder hforest.nodup (fun c x y => hforest.parent_unique) (hforest.acc head) hpost
  refine ⟨order, hpost, hnodup, hforest.mem_postOrder_iff hhead hpost, ⟨2 * order.length + 3, fun n hn => ?_⟩,
    activeListBackEntries_iff hforest hhead hpost⟩
  exact activeListEntries_postOrder hforest hhead hpost (by omega)

/-! ## Three levels -/

/-- `1` under the head `0`, `2` below it, and `3` below that. -/
def deepForest : ActiveLists ℕ :=
  let start := activeListInit { links := { next := id, prev := id }, depended := fun _ => none } 0
  let entries := activeListInit (activeListInit (activeListInit start 1) 2) 3
  activeListAddDepend (activeListAddDepend (activeListAdd entries 0 1) 1 2) 2 3

/-- What is below each entry of it. -/
def deepKids : ℕ → List ℕ := moved (moved (moved (fun _ => []) 1 0) 2 1) 3 2

theorem built_deepForest : Built 0 deepForest {3, 2, 1, 0} deepKids := by
  have hentries : Built 0 _ {3, 2, 1, 0} fun _ => [] :=
    .init (.init (.init (.start { links := { next := id, prev := id }, depended := fun _ => none })
      (e := 1) (by simp)) (e := 2) (by simp)) (e := 3) (by simp)
  have hfirst := Built.add (e := 1) hentries (by simp) (by simp)
  have hsecond := hfirst.addDepend (show 1 ∈ _ by simp) (by simp) (show 2 ∈ _ by simp) (by simp)
    (not_under_leaf (by decide) rfl)
  exact hsecond.addDepend (by simp) (by simp) (by simp) (by simp) (not_under_leaf (by decide) rfl)

theorem activeLists_walk_deepForest :
    ∃ order, PostOrder deepKids (deepKids 0) order ∧ order.Nodup ∧
      (∀ e, e ∈ order ↔ e ≠ 0 ∧ Under deepKids e 0) ∧
      (∃ N, ∀ n, N ≤ n → activeListEntries n deepForest 0 = some order) ∧
      ((∃ N, ∀ n, N ≤ n → activeListBackEntries n deepForest 0 = some order.reverse) ↔
        FirstLeaf deepKids order) :=
  activeLists_walk built_deepForest

/-- The loop backwards does not get from `3` to the end. -/
theorem not_walk_deepForest : ∃ order, PostOrder deepKids (deepKids 0) order ∧
    ¬ ∃ N, ∀ n, N ≤ n → activeListBackEntries n deepForest 0 = some order.reverse := by
  have hthird : PostOrder deepKids [3] [3] := @PostOrder.cons ℕ deepKids 3 [] [] [] .nil .nil
  have hsecond : PostOrder deepKids [2] [3, 2] := @PostOrder.cons ℕ deepKids 2 [] [3] [] hthird .nil
  have hpost : PostOrder deepKids (deepKids 0) [3, 2, 1] := @PostOrder.cons ℕ deepKids 1 [] [3, 2] [] hsecond .nil
  refine ⟨[3, 2, 1], hpost, fun hback => ?_⟩
  have hleaf := (activeListBackEntries_iff (forest_of_built built_deepForest) (by simp) hpost).mp hback
  exact absurd (hleaf 1 (by simp) 2 rfl) (by decide)

end FirmwareTools.Opkg

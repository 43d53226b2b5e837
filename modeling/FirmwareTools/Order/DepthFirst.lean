import Mathlib.Data.List.Nodup
import Mathlib.Data.List.TakeWhile

/-! # Depth-first search in post-order

A search through a graph with ordered links enters every node once and lists a node when it is through
with its links. Which of two nodes is listed first is a matter of paths in the graph alone: the search
comes to a node along the first path to it, and what is listed before it is what the nodes of that path
lead to before and what the node itself leads to, off the path.

* **`mem_ordered_iff`** — a search lists what its links lead to;
* **`before_iff`** — one node is listed before another exactly when it is found earlier;
* **`visit_isSome`** — a search through finitely many nodes ends. -/

namespace FirmwareTools

variable {α : Type*} {succ : α → List α}

/-- The nodes that a search has come to, and those it is through with, in the order it left them. -/
structure Search (α : Type*) where
  visited : List α := []
  ordered : List α := []

/-! ## Paths -/

/-- There is a path from `v` to `x` that keeps off `path`. -/
inductive Leads (succ : α → List α) (path : List α) (v : α) : α → Prop
  | refl (hv : v ∉ path) : Leads succ path v v
  | tail {x y : α} (h : Leads succ path v x) (hxy : y ∈ succ x) (hy : y ∉ path) :
      Leads succ path v y

variable {path : List α} {v w x : α}

theorem Leads.not_mem_left (h : Leads succ path v x) : v ∉ path := by
  induction h with
  | refl hv => exact hv
  | tail _ _ _ ih => exact ih

theorem Leads.not_mem_right (h : Leads succ path v x) : x ∉ path := by
  cases h with
  | refl hv => exact hv
  | tail _ _ hy => exact hy

/-- A path may be gone one link earlier. -/
theorem Leads.head (hv : v ∉ path) (hw : w ∈ succ v) (h : Leads succ path w x) :
    Leads succ path v x := by
  induction h with
  | refl hw' => exact (Leads.refl hv).tail hw hw'
  | tail _ hxy hy ih => exact ih.tail hxy hy

theorem Leads.trans (h : Leads succ path v w) (h' : Leads succ path w x) : Leads succ path v x := by
  induction h' with
  | refl _ => exact h
  | tail _ hxy hy ih => exact ih.tail hxy hy

/-- A path that keeps off more keeps off less. -/
theorem Leads.mono {path' : List α} (hsub : path ⊆ path') (h : Leads succ path' v x) :
    Leads succ path v x := by
  induction h with
  | refl hv => exact .refl fun hmem => hv (hsub hmem)
  | tail _ hxy hy ih => exact ih.tail hxy fun hmem => hy (hsub hmem)

/-- A path from a node leaves it for the last time by one of its links. -/
theorem leads_iff_succ (hv : v ∉ path) :
    Leads succ path v x ↔ v = x ∨ ∃ w ∈ succ v, Leads succ (v :: path) w x := by
  constructor
  · intro h
    induction h with
    | refl _ => exact .inl rfl
    | @tail x y _ hxy hy ih =>
        by_cases hyv : v = y
        · exact .inl hyv
        · have hy' : y ∉ v :: path := by
            rw [List.mem_cons, not_or]
            exact ⟨Ne.symm hyv, hy⟩
          rcases ih with rfl | ⟨w, hw, hwx⟩
          · exact .inr ⟨y, hxy, .refl hy'⟩
          · exact .inr ⟨w, hw, hwx.tail hxy hy'⟩
  · rintro (rfl | ⟨w, hw, hwx⟩)
    · exact .refl hv
    · exact (hwx.mono (List.subset_cons_self _ _)).head hv hw

/-! ## The first path -/

/-- `q` is found earlier than `p` by whoever goes through links, and down the first path to `p`: behind
a link that does not lead to `p`, or, once at `p`, behind `p`. Neither may lead over the path. -/
inductive Earlier (succ : α → List α) (q p : α) : List α → List α → Prop
  | found {path links : List α} {l : α} (hp : ¬ Leads succ path l p) (hq : Leads succ path l q) :
      Earlier succ q p path (l :: links)
  | pass {path links : List α} {l : α} (hp : ¬ Leads succ path l p)
      (h : Earlier succ q p path links) : Earlier succ q p path (l :: links)
  | enter {path links : List α} {l : α} (hne : l ≠ p) (hp : Leads succ path l p)
      (h : Earlier succ q p (l :: path) (succ l)) : Earlier succ q p path (l :: links)
  | arrive {path links : List α} (hne : p ≠ q) (hq : Leads succ path p q) :
      Earlier succ q p path (p :: links)

variable {q p : α} {links : List α}

theorem earlier_cons_of_not {l : α} (hp : ¬ Leads succ path l p) :
    Earlier succ q p path (l :: links) ↔ Leads succ path l q ∨ Earlier succ q p path links := by
  constructor
  · intro h
    cases h with
    | found _ hq => exact .inl hq
    | pass _ h => exact .inr h
    | enter _ hlead _ => exact absurd hlead hp
    | arrive _ hq => exact absurd (.refl hq.not_mem_left) hp
  · rintro (hq | h)
    · exact .found hp hq
    · exact .pass hp h

theorem earlier_cons_of_ne {l : α} (hne : l ≠ p) (hp : Leads succ path l p) :
    Earlier succ q p path (l :: links) ↔ Earlier succ q p (l :: path) (succ l) := by
  constructor
  · intro h
    cases h with
    | found hnot _ => exact absurd hp hnot
    | pass hnot _ => exact absurd hp hnot
    | enter _ _ h => exact h
    | arrive _ _ => exact absurd rfl hne
  · exact .enter hne hp

theorem earlier_cons_self (hp : p ∉ path) :
    Earlier succ q p path (p :: links) ↔ p ≠ q ∧ Leads succ path p q := by
  constructor
  · intro h
    cases h with
    | found hnot _ => exact absurd (.refl hp) hnot
    | pass hnot _ => exact absurd (.refl hp) hnot
    | enter hne _ _ => exact absurd rfl hne
    | arrive hne hq => exact ⟨hne, hq⟩
  · exact fun h => .arrive h.1 h.2

/-! ## What a search lists -/

/-- A search between two visits, when `path` is on its stack: it has come to the nodes of the path and
those it is through with, and the links of these have all been followed. -/
structure Search.Ok (succ : α → List α) (path : List α) (s : Search α) : Prop where
  visited_iff : ∀ x, x ∈ s.visited ↔ x ∈ path ∨ x ∈ s.ordered
  disjoint : ∀ x ∈ path, x ∉ s.ordered
  closed : ∀ b ∈ s.ordered, ∀ w ∈ succ b, w ∈ s.visited
  nodup : s.ordered.Nodup

/-- Off the path, what is listed leads to what is listed. -/
theorem Search.Ok.closed_leads {s : Search α} (hs : s.Ok succ path) (hv : v ∈ s.ordered)
    (h : Leads succ path v x) : x ∈ s.ordered := by
  induction h with
  | refl _ => exact hv
  | tail _ hxy hy ih =>
      rcases (hs.visited_iff _).mp (hs.closed _ ih _ hxy) with hmem | hmem
      · exact absurd hmem hy
      · exact hmem

/-- A search has gone through links: it has listed what they lead to behind what there was. -/
structure Search.Done (succ : α → List α) (path links : List α) (s s' : Search α) : Prop where
  ok : s'.Ok succ path
  extends_ordered : s.ordered <+: s'.ordered
  mem_iff : ∀ x, x ∈ s'.ordered ↔ x ∈ s.ordered ∨ ∃ l ∈ links, Leads succ path l x

/-- A node is put on the stack. -/
theorem Search.Ok.enter {s : Search α} (hs : s.Ok succ path) (hv : v ∉ s.visited) :
    Search.Ok succ (v :: path) { s with visited := s.visited ++ [v] } where
  visited_iff x := by
    rw [List.mem_append, List.mem_singleton, hs.visited_iff x, List.mem_cons]
    tauto
  disjoint x hx := by
    rcases List.mem_cons.mp hx with rfl | hx
    · exact fun hmem => hv ((hs.visited_iff x).mpr (.inr hmem))
    · exact hs.disjoint x hx
  closed b hb w hw := List.mem_append_left _ (hs.closed b hb w hw)
  nodup := hs.nodup

/-- A node is taken off the stack when its links have been gone through. -/
theorem Search.Done.leave {s s' : Search α} (hs : s.Ok succ path) (hv : v ∉ s.visited)
    (h : Search.Done succ (v :: path) (succ v) { s with visited := s.visited ++ [v] } s') :
    Search.Done succ path [v] s { s' with ordered := s'.ordered ++ [v] } := by
  have hpath : v ∉ path := fun hmem => hv ((hs.visited_iff v).mpr (.inl hmem))
  refine ⟨⟨fun x => ?_, fun x hx => ?_, fun b hb w hw => ?_, ?_⟩, ?_, fun x => ?_⟩
  · rw [h.ok.visited_iff x, List.mem_append, List.mem_cons, List.mem_singleton]
    tauto
  · rw [List.mem_append, List.mem_singleton, not_or]
    exact ⟨h.ok.disjoint x (List.mem_cons_of_mem v hx), ne_of_mem_of_not_mem hx hpath⟩
  · rcases List.mem_append.mp hb with hb | hb
    · exact h.ok.closed b hb w hw
    · rw [List.mem_singleton.mp hb] at hw
      -- a link of `v` leads on the path, or it has been gone through
      by_cases hmem : w ∈ v :: path
      · exact (h.ok.visited_iff w).mpr (.inl hmem)
      · exact (h.ok.visited_iff w).mpr (.inr ((h.mem_iff w).mpr (.inr ⟨w, hw, .refl hmem⟩)))
  · rw [← List.concat_eq_append, List.nodup_concat]
    exact ⟨h.ok.disjoint v List.mem_cons_self, h.ok.nodup⟩
  · exact h.extends_ordered.trans (List.prefix_append _ _)
  · rw [List.mem_append, h.mem_iff x, List.mem_singleton]
    simp only [List.mem_singleton, exists_eq_left]
    rw [leads_iff_succ hpath, @eq_comm _ v x, or_assoc, or_congr_right or_comm]

theorem Search.Done.nil {s : Search α} (hs : s.Ok succ path) : Search.Done succ path [] s s :=
  ⟨hs, List.prefix_refl _, fun _ => by simp⟩

theorem Search.Done.append {s s' s'' : Search α} {links links' : List α}
    (h : Search.Done succ path links s s') (h' : Search.Done succ path links' s' s'') :
    Search.Done succ path (links ++ links') s s'' where
  ok := h'.ok
  extends_ordered := h.extends_ordered.trans h'.extends_ordered
  mem_iff x := by
    rw [h'.mem_iff x, h.mem_iff x, or_assoc]
    simp only [List.mem_append, or_and_right, exists_or]

/-- A node that has been visited leads to nothing new. -/
theorem Search.Done.of_mem {s : Search α} (hs : s.Ok succ path) (hv : v ∈ s.visited) :
    Search.Done succ path [v] s s := by
  refine ⟨hs, List.prefix_refl _, fun x => ⟨.inl, ?_⟩⟩
  rintro (hmem | ⟨l, hl, hlead⟩)
  · exact hmem
  · rw [List.mem_singleton.mp hl] at hlead
    rcases (hs.visited_iff v).mp hv with hmem | hmem
    · exact absurd hmem hlead.not_mem_left
    · exact hs.closed_leads hmem hlead

theorem ok_nil : Search.Ok succ [] ({} : Search α) :=
  ⟨fun _ => by simp, fun _ hx => absurd hx List.not_mem_nil, fun _ hb => absurd hb List.not_mem_nil,
    List.nodup_nil⟩

variable [DecidableEq α]

/-- Visit a node, with the depth of the recursion as fuel. -/
def visit (succ : α → List α) : ℕ → α → Search α → Option (Search α)
  | 0, _, _ => none
  | n + 1, v, s =>
    if v ∈ s.visited then some s
    else do
      let s ← (succ v).foldlM (fun s w => visit succ n w s) { s with visited := s.visited ++ [v] }
      some { s with ordered := s.ordered ++ [v] }

/-- Visit nodes one after the other. -/
def visitAll (succ : α → List α) (n : ℕ) (links : List α) (s : Search α) : Option (Search α) :=
  links.foldlM (fun s w => visit succ n w s) s

theorem visit_succ (n : ℕ) {v : α} {s : Search α} (hv : v ∉ s.visited) :
    visit succ (n + 1) v s = (visitAll succ n (succ v) { s with visited := s.visited ++ [v] }).map
      fun s => { s with ordered := s.ordered ++ [v] } := by
  rw [visit, if_neg hv, visitAll]
  cases (succ v).foldlM (fun s w => visit succ n w s) { s with visited := s.visited ++ [v] } <;> rfl

theorem visitAll_done_of {n : ℕ}
    (hvisit : ∀ {path v} {s s' : Search α}, s.Ok succ path → visit succ n v s = some s' →
      Search.Done succ path [v] s s') {links : List α} {s s' : Search α} (hs : s.Ok succ path)
    (h : visitAll succ n links s = some s') : Search.Done succ path links s s' := by
  induction links generalizing s with
  | nil => exact Option.some.inj h ▸ Search.Done.nil hs
  | cons l links ih =>
      rw [visitAll, List.foldlM_cons, Option.bind_eq_bind, Option.bind_eq_some_iff] at h
      obtain ⟨s₁, h₁, h⟩ := h
      have hfirst := hvisit hs h₁
      exact hfirst.append (ih hfirst.ok h)

/-- **What a visit does**: it lists what the node leads to, off the path. -/
theorem visit_done {n : ℕ} {s s' : Search α} (hs : s.Ok succ path) (h : visit succ n v s = some s') :
    Search.Done succ path [v] s s' := by
  induction n generalizing path v s s' with
  | zero => exact absurd h (by simp [visit])
  | succ n ih =>
      by_cases hv : v ∈ s.visited
      · rw [visit, if_pos hv] at h
        exact Option.some.inj h ▸ Search.Done.of_mem hs hv
      · rw [visit_succ n hv, Option.map_eq_some_iff] at h
        obtain ⟨s₁, h₁, rfl⟩ := h
        exact (visitAll_done_of ih (hs.enter hv) h₁).leave hs hv

theorem visitAll_done {n : ℕ} {links : List α} {s s' : Search α} (hs : s.Ok succ path)
    (h : visitAll succ n links s = some s') : Search.Done succ path links s s' :=
  visitAll_done_of (fun hs h => visit_done hs h) hs h

/-- **What a search lists**: what its links lead to. -/
theorem mem_ordered_iff {n : ℕ} {links : List α} {s : Search α}
    (h : visitAll succ n links {} = some s) : x ∈ s.ordered ↔ ∃ l ∈ links, Leads succ [] l x := by
  rw [(visitAll_done ok_nil h).mem_iff x]
  exact or_iff_right List.not_mem_nil

/-! ## In which order -/

/-- `q` comes in front of the first `p`. -/
def Before (xs : List α) (q p : α) : Prop := q ∈ xs.takeWhile (· != p)

instance (xs : List α) (q p : α) : Decidable (Before xs q p) :=
  inferInstanceAs (Decidable (_ ∈ _))

theorem before_of_extends {xs ys : List α} {q p : α} (hp : p ∈ xs) (h : xs <+: ys) :
    Before ys q p ↔ Before xs q p := by
  obtain ⟨zs, rfl⟩ := h
  obtain ⟨l₁, l₂, rfl, hl₁⟩ := List.eq_append_cons_of_mem hp
  have hall : ∀ y ∈ l₁, (y != p) = true := fun y hy => by
    rw [bne_iff_ne]
    exact ne_of_mem_of_not_mem hy hl₁
  simp only [Before, List.append_assoc, List.cons_append]
  rw [List.takeWhile_append_of_pos hall, List.takeWhile_append_of_pos hall,
    List.takeWhile_cons_of_neg (by simp), List.takeWhile_cons_of_neg (by simp)]

theorem before_concat {xs : List α} {q p : α} (hp : p ∉ xs) : Before (xs ++ [p]) q p ↔ q ∈ xs := by
  have hall : ∀ y ∈ xs, (y != p) = true := fun y hy => by
    rw [bne_iff_ne]
    exact ne_of_mem_of_not_mem hy hp
  rw [Before, List.takeWhile_append_of_pos hall, List.takeWhile_cons_of_neg (by simp), List.append_nil]

/-- A list in which `p` stands only behind `q`. -/
theorem before_iff_forall {xs : List α} {q p : α} (hp : p ∈ xs) (hnodup : xs.Nodup) :
    Before xs q p ↔ ∀ l₁ l₂, xs = l₁ ++ p :: l₂ → q ∈ l₁ := by
  obtain ⟨l₁, l₂, rfl⟩ := List.append_of_mem hp
  rw [List.nodup_middle, List.nodup_cons, List.mem_append, not_or] at hnodup
  have hall : ∀ {l : List α}, p ∉ l → ∀ y ∈ l, (y != p) = true := fun hl y hy => by
    rw [bne_iff_ne]
    exact ne_of_mem_of_not_mem hy hl
  have htake : ∀ {l l' : List α}, p ∉ l → (l ++ p :: l').takeWhile (· != p) = l := by
    intro l l' hl
    rw [List.takeWhile_append_of_pos (hall hl), List.takeWhile_cons_of_neg (by simp), List.append_nil]
  rw [Before, htake hnodup.1.1]
  refine ⟨fun hq m₁ m₂ heq => ?_, fun h => h l₁ l₂ rfl⟩
  have hm₁ : p ∉ m₁ := by
    have hcount := congrArg (List.count p) heq
    rw [List.count_append, List.count_append, List.count_cons_self, List.count_cons_self,
      List.count_eq_zero_of_not_mem hnodup.1.1, List.count_eq_zero_of_not_mem hnodup.1.2] at hcount
    exact List.count_eq_zero.mp (by omega)
  have := congrArg (List.takeWhile (· != p)) heq
  rw [htake hnodup.1.1, htake hm₁] at this
  exact this ▸ hq

/-- **In which order a search lists**: when `p` is listed, `q` has been if it had been before or is
found earlier. -/
theorem before_iff {n : ℕ} {s s' : Search α} (hs : s.Ok succ path) (hp : p ∉ s.visited)
    (hlead : ∃ l ∈ links, Leads succ path l p) (h : visitAll succ n links s = some s') :
    Before s'.ordered q p ↔ q ∈ s.ordered ∨ Earlier succ q p path links := by
  induction n generalizing path links s s' with
  | zero =>
      obtain ⟨l, hl, -⟩ := hlead
      obtain ⟨l', links', rfl⟩ := List.exists_cons_of_ne_nil (List.ne_nil_of_mem hl)
      exact absurd h (by simp [visitAll, visit])
  | succ n ihn =>
  induction links generalizing s with
  | nil =>
      obtain ⟨l, hl, -⟩ := hlead
      exact absurd hl List.not_mem_nil
  | cons l links ihl =>
      rw [visitAll, List.foldlM_cons, Option.bind_eq_bind, Option.bind_eq_some_iff] at h
      obtain ⟨s₁, h₁, h⟩ := h
      have hfirst := visit_done hs h₁
      have hrest := visitAll_done hfirst.ok h
      by_cases hlp : Leads succ path l p
      · -- the search comes to `p` by this link, and what follows it does not matter
        have hv : l ∉ s.visited := by
          intro hmem
          rcases (hs.visited_iff l).mp hmem with hmem | hmem
          · exact hlp.not_mem_left hmem
          · exact hp ((hs.visited_iff p).mpr (.inr (hs.closed_leads hmem hlp)))
        have hpath : l ∉ path := hlp.not_mem_left
        have hlisted : p ∈ s₁.ordered :=
          (hfirst.mem_iff p).mpr (.inr ⟨l, List.mem_singleton.mpr rfl, hlp⟩)
        rw [before_of_extends hlisted hrest.extends_ordered]
        rw [visit_succ n hv, Option.map_eq_some_iff] at h₁
        obtain ⟨s₂, h₂, rfl⟩ := h₁
        have hinner := visitAll_done (hs.enter hv) h₂
        by_cases hne : l = p
        · rw [hne] at hinner hpath ⊢
          rw [before_concat (hinner.ok.disjoint p List.mem_cons_self), hinner.mem_iff q,
            earlier_cons_self hpath, leads_iff_succ hpath]
          refine or_congr_right ⟨fun hq => ⟨?_, .inr hq⟩, fun hq => hq.2.resolve_left hq.1⟩
          rintro rfl
          obtain ⟨w, -, hw⟩ := hq
          exact hw.not_mem_right List.mem_cons_self
        · have hsucc : ∃ w ∈ succ l, Leads succ (l :: path) w p :=
            ((leads_iff_succ hpath).mp hlp).resolve_left hne
          have hp₂ : p ∈ s₂.ordered := (hinner.mem_iff p).mpr (.inr hsucc)
          have hnot : p ∉ s.visited ++ [l] := by
            rw [List.mem_append, List.mem_singleton, not_or]
            exact ⟨hp, Ne.symm hne⟩
          rw [before_of_extends hp₂ (List.prefix_append _ _), ihn (hs.enter hv) hnot hsucc h₂,
            earlier_cons_of_ne hne hlp]
      · -- the search goes on to the next link
        have hlead' : ∃ l ∈ links, Leads succ path l p := by
          obtain ⟨l', hl', hlp'⟩ := hlead
          rcases List.mem_cons.mp hl' with rfl | hl'
          · exact absurd hlp' hlp
          · exact ⟨l', hl', hlp'⟩
        have hp₁ : p ∉ s₁.visited := by
          rw [hfirst.ok.visited_iff p, hfirst.mem_iff p]
          rw [hs.visited_iff p, not_or] at hp
          rintro (hmem | hmem | ⟨l', hl', hlp'⟩)
          · exact hp.1 hmem
          · exact hp.2 hmem
          · exact hlp (List.mem_singleton.mp hl' ▸ hlp')
        rw [ihl hfirst.ok hp₁ hlead' h, hfirst.mem_iff q, earlier_cons_of_not hlp, or_assoc]
        simp only [List.mem_singleton, exists_eq_left]

/-! ## Finitely many nodes -/

/-- How many nodes are not in a list. -/
def pending (nodes visited : List α) : ℕ := (nodes.filter (· ∉ visited)).length

variable {nodes visited visited' : List α}

theorem pending_sublist (hsub : visited ⊆ visited') :
    (nodes.filter (· ∉ visited')).Sublist (nodes.filter (· ∉ visited)) := by
  refine List.monotone_filter_right nodes fun x hx => ?_
  rw [decide_eq_true_iff] at hx ⊢
  exact fun hmem => hx (hsub hmem)

theorem pending_le (hsub : visited ⊆ visited') : pending nodes visited' ≤ pending nodes visited :=
  (pending_sublist hsub).length_le

theorem pending_lt (hsub : visited ⊆ visited') (hmem : v ∈ nodes) (hv : v ∉ visited)
    (hv' : v ∈ visited') : pending nodes visited' < pending nodes visited := by
  refine lt_of_le_of_ne (pending_le hsub) fun hlen => ?_
  have hold : v ∈ nodes.filter (· ∉ visited) := List.mem_filter.mpr ⟨hmem, decide_eq_true hv⟩
  rw [← (pending_sublist hsub).eq_of_length hlen] at hold
  exact of_decide_eq_true (List.mem_filter.mp hold).2 hv'

/-- **A search ends**: fuel for all the nodes that are still to come is enough. -/
theorem visit_isSome (hclosed : ∀ v ∈ nodes, succ v ⊆ nodes) {n : ℕ} {s : Search α}
    (hv : v ∈ nodes) (hn : pending nodes s.visited < n) :
    ∃ s', visit succ n v s = some s' ∧ s.visited ⊆ s'.visited := by
  induction n generalizing v s with
  | zero => omega
  | succ n ih =>
      by_cases hmem : v ∈ s.visited
      · exact ⟨s, by rw [visit, if_pos hmem], List.Subset.refl _⟩
      · have hloop : ∀ (links : List α) (s : Search α), links ⊆ nodes → pending nodes s.visited < n →
            ∃ s', visitAll succ n links s = some s' ∧ s.visited ⊆ s'.visited := by
          intro links
          induction links with
          | nil => exact fun s _ _ => ⟨s, rfl, List.Subset.refl _⟩
          | cons l links ihl =>
              intro s hsub hs
              rw [List.cons_subset] at hsub
              obtain ⟨s₁, h₁, hsub₁⟩ := ih hsub.1 hs
              obtain ⟨s₂, h₂, hsub₂⟩ := ihl s₁ hsub.2 ((pending_le hsub₁).trans_lt hs)
              refine ⟨s₂, ?_, List.Subset.trans hsub₁ hsub₂⟩
              rw [visitAll, List.foldlM_cons, h₁]
              exact h₂
        have hlt := pending_lt (List.subset_append_left s.visited [v]) hv hmem
          (List.mem_append_right _ (List.mem_singleton.mpr rfl))
        obtain ⟨s', h', hsub'⟩ := hloop (succ v) { s with visited := s.visited ++ [v] }
          (hclosed v hv) (show pending nodes (s.visited ++ [v]) < n by omega)
        refine ⟨{ s' with ordered := s'.ordered ++ [v] }, ?_, ?_⟩
        · rw [visit_succ n hmem, h']
          rfl
        · exact List.Subset.trans (List.subset_append_left _ _) hsub'

theorem visitAll_isSome (hclosed : ∀ v ∈ nodes, succ v ⊆ nodes) {n : ℕ} {s : Search α}
    (hlinks : links ⊆ nodes) (hn : pending nodes s.visited < n) :
    ∃ s', visitAll succ n links s = some s' := by
  induction links generalizing s with
  | nil => exact ⟨s, rfl⟩
  | cons l links ih =>
      rw [List.cons_subset] at hlinks
      obtain ⟨s₁, h₁, hsub⟩ := visit_isSome hclosed hlinks.1 hn
      obtain ⟨s₂, h₂⟩ := ih hlinks.2 ((pending_le hsub).trans_lt hn)
      refine ⟨s₂, ?_⟩
      rw [visitAll, List.foldlM_cons, h₁]
      exact h₂

end FirmwareTools

import Mathlib.Data.List.Nodup
import Mathlib.Logic.Relation
import Mathlib.Tactic.Common

/-! # Post-order

`kids` gives what is below each element, in its order. The post-order of some roots lists what is below a root
in front of it, and one root after the other.

* **`exists_postOrder`** — there is one if nothing is below itself for ever;
* **`nodup_postOrder`** — nothing is listed twice if nothing is below two elements;
* **`postOrder_erase`** — the first element of it can be taken out. -/

namespace FirmwareTools

variable {α : Type*} {kids kids' : α → List α} {roots order : List α} {c d e r x y : α}

/-- The post-order of some roots. -/
inductive PostOrder (kids : α → List α) : List α → List α → Prop
  | nil : PostOrder kids [] []
  | cons {r : α} {roots below rest : List α} (hbelow : PostOrder kids (kids r) below)
      (hrest : PostOrder kids roots rest) : PostOrder kids (r :: roots) (below ++ r :: rest)

/-- `c` is right below `x`. -/
def Child (kids : α → List α) (c x : α) : Prop := c ∈ kids x

/-- `d` is `r`, or below it. -/
def Under (kids : α → List α) : α → α → Prop := Relation.ReflTransGen (Child kids)

/-- Nothing else is under an element with nothing below it. -/
theorem not_under_leaf (hne : x ≠ e) (he : kids e = []) : ¬ Under kids x e := by
  intro hunder
  rcases Relation.ReflTransGen.cases_tail hunder with heq | ⟨y, -, hy⟩
  · exact hne heq.symm
  · rw [Child, he] at hy
    exact absurd hy List.not_mem_nil

/-- Nothing comes to be below itself when an element is put below another one. -/
theorem acc_of_moved (hacc : ∀ x, Acc (Child kids) x) (hunder : ¬ Under kids x e)
    (hmoved : ∀ c y, c ∈ kids' y → c = e ∧ y = x ∨ c ∈ kids y) (y : α) : Acc (Child kids') y := by
  have hbelow : ∀ y, Under kids y e → Acc (Child kids') y := by
    intro y
    induction hacc y with
    | intro y _ ih =>
        intro hy
        refine .intro y fun c hc => ?_
        rcases hmoved c y hc with ⟨-, rfl⟩ | hc
        · exact absurd hy hunder
        · exact ih c hc (.head hc hy)
  induction hacc y with
  | intro y _ ih =>
      refine .intro y fun c hc => ?_
      rcases hmoved c y hc with ⟨rfl, -⟩ | hc
      · exact hbelow c .refl
      · exact ih c hc

/-- **There is a post-order.** -/
theorem exists_postOrder (h : ∀ r ∈ roots, Acc (Child kids) r) : ∃ order, PostOrder kids roots order := by
  have hone : ∀ r, Acc (Child kids) r → ∃ below, PostOrder kids (kids r) below := by
    intro r hr
    induction hr with
    | intro r _ ih =>
        have hlist : ∀ roots : List α, (∀ c ∈ roots, c ∈ kids r) → ∃ order, PostOrder kids roots order := by
          intro roots
          induction roots with
          | nil => exact fun _ => ⟨[], .nil⟩
          | cons c roots ihroots =>
              intro hsub
              rw [List.forall_mem_cons] at hsub
              obtain ⟨below, hbelow⟩ := ih c hsub.1
              obtain ⟨rest, hrest⟩ := ihroots hsub.2
              exact ⟨_, .cons hbelow hrest⟩
        exact hlist (kids r) fun c hc => hc
  induction roots with
  | nil => exact ⟨[], .nil⟩
  | cons r roots ih =>
      rw [List.forall_mem_cons] at h
      obtain ⟨below, hbelow⟩ := hone r h.1
      obtain ⟨rest, hrest⟩ := ih h.2
      exact ⟨_, .cons hbelow hrest⟩

/-- The roots are listed. -/
theorem PostOrder.mem_of_root (h : PostOrder kids roots order) (hr : r ∈ roots) : r ∈ order := by
  induction h with
  | nil => exact hr
  | cons _ _ _ ih =>
      rcases List.mem_cons.mp hr with rfl | hr
      · exact List.mem_append_right _ List.mem_cons_self
      · exact List.mem_append_right _ (List.mem_cons_of_mem _ (ih hr))

/-- What is below something that is listed is listed. -/
theorem PostOrder.mem_of_child (h : PostOrder kids roots order) (hx : x ∈ order) (hc : c ∈ kids x) :
    c ∈ order := by
  induction h with
  | nil => exact absurd hx List.not_mem_nil
  | cons hbelow _ ihbelow ihrest =>
      rcases List.mem_append.mp hx with hx | hx
      · exact List.mem_append_left _ (ihbelow hx)
      · rcases List.mem_cons.mp hx with rfl | hx
        · exact List.mem_append_left _ (hbelow.mem_of_root hc)
        · exact List.mem_append_right _ (List.mem_cons_of_mem _ (ihrest hx))

/-- **What is listed** is what is under the roots. -/
theorem PostOrder.mem_iff (h : PostOrder kids roots order) : d ∈ order ↔ ∃ r ∈ roots, Under kids d r := by
  constructor
  · intro hd
    induction h with
    | nil => exact absurd hd List.not_mem_nil
    | @cons r roots below rest _ _ ihbelow ihrest =>
        rcases List.mem_append.mp hd with hd | hd
        · obtain ⟨c, hc, hunder⟩ := ihbelow hd
          exact ⟨r, List.mem_cons_self, hunder.tail hc⟩
        · rcases List.mem_cons.mp hd with rfl | hd
          · exact ⟨d, List.mem_cons_self, .refl⟩
          · obtain ⟨r', hr', hunder⟩ := ihrest hd
            exact ⟨r', List.mem_cons_of_mem _ hr', hunder⟩
  · rintro ⟨r, hr, hunder⟩
    have hroot := h.mem_of_root hr
    induction hunder using Relation.ReflTransGen.head_induction_on with
    | refl => exact hroot
    | head hchild _ ih => exact h.mem_of_child ih hchild

/-- Below an element whose first has others below it there is one at the bottom with two first ones above
it. -/
theorem PostOrder.exists_bottom (h : PostOrder kids roots order) (hacc : Acc (Child kids) x)
    (hx : x ∈ order) (hc : (kids x).head? = some c) (hne : kids c ≠ []) :
    ∃ z ∈ order, ∃ y ys l ls, kids z = y :: ys ∧ kids y = l :: ls ∧ kids l = [] ∧ l ∈ order := by
  induction hacc generalizing c with
  | intro x _ ih =>
      obtain ⟨cs, hcs⟩ := List.head?_eq_some_iff.mp hc
      obtain ⟨d, ds, hds⟩ := List.exists_cons_of_ne_nil hne
      have hcx : c ∈ kids x := hcs ▸ List.mem_cons_self
      have hcorder := h.mem_of_child hx hcx
      by_cases hd : kids d = []
      · exact ⟨x, hx, c, cs, d, ds, hcs, hds, hd, h.mem_of_child hcorder (hds ▸ List.mem_cons_self)⟩
      · exact ih c hcx hcorder (List.head?_eq_some_iff.mpr ⟨ds, hds⟩) hd

theorem PostOrder.roots_eq_nil (h : PostOrder kids roots []) : roots = [] := by
  generalize horder : ([] : List α) = order at h
  cases h with
  | nil => rfl
  | cons hbelow hrest => exact absurd horder (by simp)

/-- The first that is listed has nothing below it. -/
theorem PostOrder.first_leaf (h : PostOrder kids roots (e :: order)) : kids e = [] := by
  generalize horder : e :: order = order' at h
  induction h generalizing order with
  | nil => cases horder
  | @cons r roots below rest hbelow _ ihbelow _ =>
      cases below with
      | nil =>
          obtain rfl : e = r := (List.cons.inj horder).1
          exact hbelow.roots_eq_nil
      | cons b below =>
          obtain rfl : e = b := (List.cons.inj horder).1
          exact ihbelow rfl

/-- The post-order of elements with nothing below them. -/
theorem postOrder_flat (hflat : ∀ e ∈ roots, kids e = []) : PostOrder kids roots roots := by
  induction roots with
  | nil => exact .nil
  | cons e l ih =>
      rw [List.forall_mem_cons] at hflat
      have hbelow : PostOrder kids (kids e) [] := by
        rw [hflat.1]
        exact .nil
      exact .cons hbelow (ih hflat.2)

/-- What is listed is right below something. -/
theorem PostOrder.exists_parent (h : PostOrder kids (kids e) order) (hx : x ∈ order) :
    ∃ y, x ∈ kids y := by
  obtain ⟨r, hr, hunder⟩ := h.mem_iff.mp hx
  rcases Relation.ReflTransGen.cases_head hunder with rfl | ⟨y, hy, -⟩
  · exact ⟨e, hr⟩
  · exact ⟨y, hy⟩

/-- Only the elements that are listed matter. -/
theorem PostOrder.congr (h : PostOrder kids roots order) (hsame : ∀ x ∈ order, kids' x = kids x) :
    PostOrder kids' roots order := by
  induction h with
  | nil => exact .nil
  | @cons r roots below rest _ _ ihbelow ihrest =>
      have hr : kids' r = kids r := hsame r (List.mem_append_right _ List.mem_cons_self)
      refine .cons ?_ (ihrest fun x hx => hsame x (List.mem_append_right _ (List.mem_cons_of_mem _ hx)))
      rw [hr]
      exact ihbelow fun x hx => hsame x (List.mem_append_left _ hx)

/-- The last that is listed is the last root. -/
theorem getLast?_postOrder (h : PostOrder kids roots order) :
    order.getLast? = roots.getLast? := by
  induction h with
  | nil => rfl
  | @cons r roots below rest _ hrest _ ih =>
      rw [List.getLast?_append, List.getLast?_cons, List.getLast?_cons, ih]
      rfl

/-! ## Nothing twice -/

/-- Nothing is under itself by way of something right below it. -/
theorem not_under_child (hx : Acc (Child kids) x) (hc : c ∈ kids x) : ¬ Under kids x c := by
  intro hunder
  have hcycle : Relation.TransGen (Child kids) x x := Relation.TransGen.tail' hunder hc
  have hno : ∀ y, Acc (Relation.TransGen (Child kids)) y → ¬ Relation.TransGen (Child kids) y y := by
    intro y hy
    induction hy with
    | intro y _ ih => exact fun hcycle => ih y hcycle hcycle
  exact hno x hx.transGen hcycle

/-- Nothing is under two elements that are right below a third. -/
theorem eq_of_under (hparent : ∀ c x y, c ∈ kids x → c ∈ kids y → x = y) (hx : Acc (Child kids) x)
    (hc : c ∈ kids x) (he : e ∈ kids x) (hdc : Under kids d c) (hde : Under kids d e) : c = e := by
  have hunique : Relator.RightUnique (Child kids) := fun c x y hx hy => hparent c x y hx hy
  have hnot : ∀ c e, c ∈ kids x → e ∈ kids x → Under kids c e → c = e := by
    intro c e hc he hunder
    rcases Relation.ReflTransGen.cases_head hunder with heq | ⟨y, hy, hye⟩
    · exact heq
    · exact absurd (hparent c y x hy hc ▸ hye) (not_under_child hx he)
  rcases Relation.ReflTransGen.total_of_right_unique hunique hdc hde with hce | hec
  · exact hnot c e hc he hce
  · exact (hnot e c he hc hec).symm

/-- **Nothing is listed twice.** -/
theorem nodup_postOrder (hkids : ∀ x, (kids x).Nodup) (hparent : ∀ c x y, c ∈ kids x → c ∈ kids y → x = y)
    (hx : Acc (Child kids) x) (h : PostOrder kids (kids x) order) : order.Nodup := by
  have hgen : ∀ roots order, PostOrder kids roots order → ∀ x front, kids x = front ++ roots →
      Acc (Child kids) x → order.Nodup := by
    intro roots order h
    induction h with
    | nil => exact fun _ _ _ _ => List.nodup_nil
    | @cons r roots below rest hbelow hrest ihbelow ihrest =>
        intro x front hroots hx
        have hr : r ∈ kids x := by
          rw [hroots]
          exact List.mem_append_right _ List.mem_cons_self
        have hroot : ∀ r' ∈ roots, r' ∈ kids x := by
          intro r' hr'
          rw [hroots]
          exact List.mem_append_right _ (List.mem_cons_of_mem _ hr')
        have hnodup := hkids x
        rw [hroots, List.nodup_append] at hnodup
        have hrnot : r ∉ roots := (List.nodup_cons.mp hnodup.2.1).1
        -- what is listed behind `r` is under another root
        have hother : ∀ d ∈ rest, ¬ Under kids d r := by
          intro d hd hunder
          obtain ⟨r', hr', hunder'⟩ := hrest.mem_iff.mp hd
          exact hrnot (eq_of_under hparent hx hr (hroot r' hr') hunder hunder' ▸ hr')
        rw [List.nodup_append]
        refine ⟨ihbelow r [] rfl (hx.inv hr), List.nodup_cons.mpr ⟨fun hmem => ?_, ?_⟩,
          fun d hd d' hd' heq => ?_⟩
        · exact hother r hmem .refl
        · refine ihrest x (front ++ [r]) ?_ hx
          rw [hroots, List.append_assoc, List.singleton_append]
        · subst heq
          obtain ⟨c, hc, hunder⟩ := hbelow.mem_iff.mp hd
          rcases List.mem_cons.mp hd' with rfl | hd'
          · exact not_under_child (hx.inv hr) hc hunder
          · exact hother d hd' (hunder.tail hc)
  exact hgen _ _ h x [] rfl hx

/-! ## Taking out the first -/

variable [DecidableEq α]

/-- **The first element can be taken out.** -/
theorem postOrder_erase (h : PostOrder kids roots (e :: order)) (hnodup : (e :: order).Nodup) :
    PostOrder (fun x => (kids x).erase e) (roots.erase e) order := by
  have hgen : ∀ roots order', PostOrder kids roots order' → ∀ order, order' = e :: order →
      (e :: order).Nodup → PostOrder (fun x => (kids x).erase e) (roots.erase e) order := by
    intro roots order' h
    induction h with
    | nil => exact fun order heq => absurd heq (by simp)
    | @cons r roots below rest hbelow hrest ihbelow ihrest =>
        intro order heq hnodup
        have hsame : ∀ {roots rest}, PostOrder kids roots rest → e ∉ rest →
            PostOrder (fun x => (kids x).erase e) roots rest := by
          intro roots rest h hnot
          exact h.congr fun x hx => List.erase_of_not_mem fun hmem => hnot (h.mem_of_child hx hmem)
        cases below with
        | nil =>
            -- it is the first root
            obtain ⟨rfl, rfl⟩ := List.cons.inj heq
            rw [List.erase_cons_head]
            exact hsame hrest (List.nodup_cons.mp hnodup).1
        | cons b below =>
            rw [List.cons_append] at heq
            obtain ⟨rfl, rfl⟩ := List.cons.inj heq
            have hnot := (List.nodup_cons.mp hnodup).1
            rw [List.mem_append, List.mem_cons, not_or, not_or] at hnot
            have hfirst : (b :: below).Nodup := by
              refine hnodup.sublist (List.Sublist.cons_cons b ?_)
              exact List.sublist_append_left below _
            rw [List.erase_cons_tail (by simpa using Ne.symm hnot.2.1),
              List.erase_of_not_mem fun hmem => hnot.2.2 (hrest.mem_of_root hmem)]
            exact .cons (ihbelow below rfl hfirst) (hsame hrest hnot.2.2)
  exact hgen _ _ h order rfl hnodup

end FirmwareTools

import Mathlib.Tactic.Common

/-! # Loops that may stop

A `for` loop whose body can fail is a `List.foldlM` in `Option`. What every round keeps holds when
the loop ends; two loops whose rounds match end in matching states.

* **`foldlM_invariant`** — the induction over the rounds;
* **`foldlM_rel`** — the induction over two loops side by side. -/

namespace FirmwareTools

variable {α β γ : Type*}

/-- Two results match: both loops stop, or both go on in related states. -/
def Matching (R : β → γ → Prop) : Option β → Option γ → Prop
  | none, none => True
  | some b, some c => R b c
  | _, _ => False

theorem Matching.of_eq {R : β → γ → Prop} {x : Option β} {y : Option γ} (h : Matching R x y) :
    (x = none ∧ y = none) ∨ ∃ b c, x = some b ∧ y = some c ∧ R b c := by
  cases x <;> cases y
  · exact Or.inl ⟨rfl, rfl⟩
  · exact h.elim
  · exact h.elim
  · exact Or.inr ⟨_, _, rfl, rfl, h⟩

/-- Matching computations that go on in matching ways match. -/
theorem Matching.bind {β' γ' : Type*} {R : β → γ → Prop} {R' : β' → γ' → Prop} {x : Option β}
    {y : Option γ} {f : β → Option β'} {g : γ → Option γ'} (h : Matching R x y)
    (hfg : ∀ b c, R b c → Matching R' (f b) (g c)) : Matching R' (x.bind f) (y.bind g) := by
  rcases h.of_eq with ⟨rfl, rfl⟩ | ⟨b, c, rfl, rfl, hbc⟩
  · trivial
  · exact hfg b c hbc

/-- **Induction over a loop**: the invariant speaks of the elements done so far. -/
theorem foldlM_invariant {f : β → α → Option β} {P : List α → β → Prop} {l : List α} {b b' : β}
    (h : l.foldlM f b = some b') (hb : P [] b)
    (hstep : ∀ done x b b', x ∈ l → P done b → f b x = some b' → P (done ++ [x]) b') :
    P l b' := by
  have hgen : ∀ (rest done : List α) (c : β), (∀ x ∈ rest, x ∈ l) → P done c →
      rest.foldlM f c = some b' → P (done ++ rest) b' := by
    intro rest
    induction rest with
    | nil =>
        intro done c _ hc hrest
        rw [List.foldlM_nil] at hrest
        rw [List.append_nil]
        exact Option.some.inj hrest ▸ hc
    | cons x rest ih =>
        intro done c hsub hc hrest
        rw [List.foldlM_cons, Option.bind_eq_bind, Option.bind_eq_some_iff] at hrest
        obtain ⟨d, hd, hrest⟩ := hrest
        have hx := hstep done x c d (hsub x List.mem_cons_self) hc hd
        have := ih (done ++ [x]) d (fun y hy => hsub y (List.mem_cons_of_mem _ hy)) hx hrest
        rwa [List.append_assoc] at this
  exact hgen l [] b (fun _ hx => hx) hb h

/-- **Two loops side by side**: matching rounds make matching loops. -/
theorem foldlM_rel {f : β → α → Option β} {g : γ → α → Option γ} {R : β → γ → Prop} {l : List α}
    (hstep : ∀ x ∈ l, ∀ b c, R b c → Matching R (f b x) (g c x)) :
    ∀ {b : β} {c : γ}, R b c → Matching R (l.foldlM f b) (l.foldlM g c) := by
  induction l with
  | nil => exact fun h => h
  | cons x l ih =>
      intro b c hbc
      rw [List.foldlM_cons, List.foldlM_cons]
      exact Matching.bind (hstep x List.mem_cons_self b c hbc) fun b' c' h =>
        ih (fun y hy => hstep y (List.mem_cons_of_mem _ hy)) h

end FirmwareTools

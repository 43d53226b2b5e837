import Mathlib.Tactic.Common

/-! # Operations on a state

An operation reads and writes a state and returns a value, or it stops without a result. An operation
keeps a relation if the state it ends in is always related to the one it started from; a relation
that is a preorder is kept by a sequence, a branch and a loop of operations that keep it. One
operation extends another if it does the same wherever the other returns.

* **`Op.bind_eq_some`** — what a sequence did, step by step;
* **`Op.Keeps.bind`** — a sequence keeps what its steps keep;
* **`Op.Extends.bind`** — a sequence extends what its steps extend;
* **`Op.Returns.bind`** — a sequence returns if its steps do. -/

namespace FirmwareTools

variable {σ α β : Type}

/-- An operation on a state `σ`. -/
abbrev Op (σ α : Type) := StateT σ Option α

namespace Op

/-- The operation that does not return. -/
def stop : Op σ α := fun _ => none

/-- Go on with the value behind a pointer, or stop at `NULL`. -/
def deref (o : Option α) : Op σ α := fun s => o.map fun a => (a, s)

/-- **Inverting a sequence.** -/
theorem bind_eq_some {x : Op σ α} {f : α → Op σ β} {s : σ} {r : β × σ} :
    (x >>= f) s = some r ↔ ∃ a s₁, x s = some (a, s₁) ∧ f a s₁ = some r := by
  constructor
  · intro h
    obtain ⟨⟨a, s₁⟩, hx, hf⟩ := Option.bind_eq_some_iff.mp h
    exact ⟨a, s₁, hx, hf⟩
  · rintro ⟨a, s₁, hx, hf⟩
    exact Option.bind_eq_some_iff.mpr ⟨(a, s₁), hx, hf⟩

/-- **Running a sequence** whose first step returns. -/
theorem bind_of_eq_some {x : Op σ α} {f : α → Op σ β} {s s' : σ} {a : α} (h : x s = some (a, s')) :
    (x >>= f) s = f a s' := by
  show (x s).bind (fun r => f r.1 r.2) = f a s'
  rw [h]
  rfl

theorem pure_eq_some {a : α} {s : σ} {r : α × σ} :
    (pure a : Op σ α) s = some r ↔ r = (a, s) := by
  constructor
  · intro h
    exact (Option.some.inj h).symm
  · rintro rfl
    rfl

theorem pure_ne_some {a b : α} {s s' : σ} (h : a ≠ b) : (pure a : Op σ α) s ≠ some (b, s') :=
  fun hsome => h (congrArg Prod.fst (pure_eq_some.mp hsome)).symm

theorem get_eq_some {s : σ} {r : σ × σ} : (get : Op σ σ) s = some r ↔ r = (s, s) :=
  pure_eq_some (a := s)

theorem modify_eq_some {f : σ → σ} {s : σ} {r : PUnit × σ} :
    (modify f : Op σ PUnit) s = some r ↔ r = (⟨⟩, f s) := by
  constructor
  · intro h
    exact (Option.some.inj h).symm
  · rintro rfl
    rfl

theorem deref_eq_some {o : Option α} {s : σ} {r : α × σ} :
    (deref o : Op σ α) s = some r ↔ ∃ a, o = some a ∧ r = (a, s) := by
  cases o with
  | none => simp [deref]
  | some a => simp [deref, eq_comm]

theorem get_bind {f : σ → Op σ α} {s : σ} : ((get : Op σ σ) >>= f) s = f s s := rfl

theorem modify_bind {g : σ → σ} {f : PUnit → Op σ α} {s : σ} :
    ((modify g : Op σ PUnit) >>= f) s = f ⟨⟩ (g s) := rfl

theorem deref_bind {o : Option α} {f : α → Op σ β} {s : σ} :
    (deref o >>= f) s = o.bind fun a => f a s := by
  cases o <;> rfl

theorem stop_ne_some {s : σ} {r : α × σ} : (stop : Op σ α) s ≠ some r := by
  simp [stop]

/-! ## Relations an operation keeps -/

/-- A relation between states that holds of every state and itself and can be chained. -/
structure Frame (R : σ → σ → Prop) : Prop where
  refl : ∀ s, R s s
  trans : ∀ {s t u}, R s t → R t u → R s u

/-- The state an operation ends in is related to the one it starts from. -/
def Keeps (R : σ → σ → Prop) (x : Op σ α) : Prop := ∀ s a s', x s = some (a, s') → R s s'

namespace Keeps

variable {R : σ → σ → Prop}

theorem pure (hR : Frame R) (a : α) : Keeps R (Pure.pure a : Op σ α) := by
  intro s b s' h
  obtain ⟨-, rfl⟩ := Prod.mk.inj (pure_eq_some.mp h)
  exact hR.refl s'

theorem get (hR : Frame R) : Keeps R (MonadState.get : Op σ σ) := by
  intro s b s' h
  obtain ⟨-, rfl⟩ := Prod.mk.inj (get_eq_some.mp h)
  exact hR.refl s'

theorem deref (hR : Frame R) (o : Option α) : Keeps R (Op.deref o : Op σ α) := by
  intro s b s' h
  obtain ⟨a, -, hr⟩ := deref_eq_some.mp h
  obtain ⟨-, rfl⟩ := Prod.mk.inj hr
  exact hR.refl s'

theorem stop : Keeps R (Op.stop : Op σ α) := fun _ _ _ h => absurd h stop_ne_some

theorem modify {f : σ → σ} (hf : ∀ s, R s (f s)) : Keeps R (modify f : Op σ PUnit) := by
  intro s b s' h
  obtain ⟨-, rfl⟩ := Prod.mk.inj (modify_eq_some.mp h)
  exact hf s

/-- **A sequence keeps what its steps keep.** -/
theorem bind (hR : Frame R) {x : Op σ α} {f : α → Op σ β} (hx : Keeps R x)
    (hf : ∀ a, Keeps R (f a)) : Keeps R (x >>= f) := by
  intro s b s' h
  obtain ⟨a, s₁, hxs, hfs⟩ := bind_eq_some.mp h
  exact hR.trans (hx s a s₁ hxs) (hf a s₁ b s' hfs)

theorem ite {c : Prop} [Decidable c] {x y : Op σ α} (hx : Keeps R x) (hy : Keeps R y) :
    Keeps R (if c then x else y) := by
  split
  · exact hx
  · exact hy

/-- A loop keeps what its body keeps. -/
theorem forM (hR : Frame R) {l : List β} {f : β → Op σ PUnit} (hf : ∀ x ∈ l, Keeps R (f x)) :
    Keeps R (l.forM f) := by
  induction l with
  | nil => exact pure hR PUnit.unit
  | cons x l ih =>
      exact bind hR (hf x List.mem_cons_self) fun _ => ih fun y hy => hf y (List.mem_cons_of_mem _ hy)

/-- A loop with an accumulator keeps what its body keeps. -/
theorem foldlM (hR : Frame R) {l : List β} {f : α → β → Op σ α}
    (hf : ∀ a, ∀ x ∈ l, Keeps R (f a x)) (a : α) : Keeps R (l.foldlM f a) := by
  induction l generalizing a with
  | nil => exact pure hR a
  | cons x l ih =>
      rw [List.foldlM_cons]
      exact bind hR (hf a x List.mem_cons_self) fun b =>
        ih (fun a y hy => hf a y (List.mem_cons_of_mem _ hy)) b

/-- Collecting results keeps what each computation keeps. -/
theorem mapM (hR : Frame R) {l : List β} {f : β → Op σ α} (hf : ∀ x ∈ l, Keeps R (f x)) :
    Keeps R (l.mapM f) := by
  induction l with
  | nil => exact pure hR []
  | cons x l ih =>
      rw [List.mapM_cons]
      refine bind hR (hf x List.mem_cons_self) fun b => ?_
      refine bind hR (ih fun y hy => hf y (List.mem_cons_of_mem _ hy)) fun bs => ?_
      exact pure hR (b :: bs)

/-- A kept relation implies a weaker one. -/
theorem mono {R' : σ → σ → Prop} {x : Op σ α} (hx : Keeps R x) (h : ∀ s t, R s t → R' s t) :
    Keeps R' x := fun s a s' hs => h _ _ (hx s a s' hs)

end Keeps

/-! ## Runs that keep a relation -/

/-- The runs of an operation across which a relation holds. -/
noncomputable def keeping (R : σ → σ → Prop) (x : Op σ α) : Op σ α :=
  open Classical in fun s => (x s).filter fun r => decide (R s r.2)

theorem keeping_eq_some {R : σ → σ → Prop} {x : Op σ α} {s : σ} {r : α × σ} :
    keeping R x s = some r ↔ x s = some r ∧ R s r.2 := by
  classical
  rw [keeping, Option.filter_eq_some_iff, decide_eq_true_iff]

theorem Keeps.keeping (R : σ → σ → Prop) (x : Op σ α) : Keeps R (keeping R x) :=
  fun _ _ _ h => (keeping_eq_some.mp h).2

/-! ## Operations that return more often -/

/-- Wherever `x` returns, `y` does the same. -/
def Extends (y x : Op σ α) : Prop := ∀ s r, x s = some r → y s = some r

namespace Extends

theorem refl (x : Op σ α) : Extends x x := fun _ _ h => h

theorem trans {x y z : Op σ α} (hz : Extends z y) (hy : Extends y x) : Extends z x :=
  fun s r h => hz s r (hy s r h)

/-- Every operation extends the one that never returns. -/
theorem stop (x : Op σ α) : Extends x Op.stop := fun _ _ h => absurd h stop_ne_some

/-- Every operation extends those of its runs that keep a relation. -/
theorem keeping (R : σ → σ → Prop) (x : Op σ α) : Extends x (keeping R x) :=
  fun _ _ h => (keeping_eq_some.mp h).1

/-- **A sequence extends what its steps extend.** -/
theorem bind {x y : Op σ α} {f g : α → Op σ β} (hx : Extends y x) (hf : ∀ a, Extends (g a) (f a)) :
    Extends (y >>= g) (x >>= f) := by
  intro s r h
  obtain ⟨a, s₁, hxs, hfs⟩ := bind_eq_some.mp h
  exact bind_eq_some.mpr ⟨a, s₁, hx s _ hxs, hf a s₁ r hfs⟩

/-- What comes first is the same. -/
theorem bind_right (x : Op σ α) {f g : α → Op σ β} (hf : ∀ a, Extends (g a) (f a)) :
    Extends (x >>= g) (x >>= f) :=
  bind (refl x) hf

theorem ite {c : Prop} [Decidable c] {x y x' y' : Op σ α} (hx : Extends x' x)
    (hy : Extends y' y) : Extends (if c then x' else y') (if c then x else y) := by
  split
  · exact hx
  · exact hy

/-- A loop extends what its body extends. -/
theorem forM {l : List β} {f g : β → Op σ PUnit} (hf : ∀ x, Extends (g x) (f x)) :
    Extends (l.forM g) (l.forM f) := by
  induction l with
  | nil => exact refl _
  | cons x l ih => exact bind (hf x) fun _ => ih

end Extends

/-! ## Operations that return -/

/-- From every state that meets `P` the operation returns, with a value and a state that meet `Q`. -/
def Returns (P : σ → Prop) (x : Op σ α) (Q : α → σ → Prop) : Prop :=
  ∀ s, P s → ∃ a s', x s = some (a, s') ∧ Q a s'

namespace Returns

variable {P : σ → Prop} {Q : α → σ → Prop}

theorem pure {a : α} (h : ∀ s, P s → Q a s) : Returns P (Pure.pure a) Q := fun s hs =>
  ⟨a, s, rfl, h s hs⟩

/-- **A sequence returns** if its steps do. -/
theorem bind {x : Op σ α} {f : α → Op σ β} {Q' : β → σ → Prop} (hx : Returns P x Q)
    (hf : ∀ a, Returns (Q a) (f a) Q') : Returns P (x >>= f) Q' := by
  intro s hs
  obtain ⟨a, s₁, hxs, hQ⟩ := hx s hs
  obtain ⟨b, s₂, hfs, hQ'⟩ := hf a s₁ hQ
  exact ⟨b, s₂, bind_eq_some.mpr ⟨a, s₁, hxs, hfs⟩, hQ'⟩

theorem get_bind {f : σ → Op σ α} (hf : ∀ s, P s → Returns P (f s) Q) :
    Returns P ((get : Op σ σ) >>= f) Q := fun s hs => hf s hs s hs

theorem modify {f : σ → σ} {Q : PUnit → σ → Prop} (hf : ∀ s, P s → Q ⟨⟩ (f s)) :
    Returns P (modify f : Op σ PUnit) Q := fun s hs => ⟨⟨⟩, f s, rfl, hf s hs⟩

theorem ite {c : Prop} [Decidable c] {x y : Op σ α} (hx : c → Returns P x Q)
    (hy : ¬ c → Returns P y Q) : Returns P (if c then x else y) Q := by
  split
  · exact hx ‹_›
  · exact hy ‹_›

theorem mono {Q' : α → σ → Prop} {x : Op σ α} (hx : Returns P x Q) (h : ∀ a s, Q a s → Q' a s) :
    Returns P x Q' := by
  intro s hs
  obtain ⟨a, s', hxs, hQ⟩ := hx s hs
  exact ⟨a, s', hxs, h a s' hQ⟩

/-- A loop with an accumulator returns if its body does. -/
theorem foldlM {l : List β} {f : α → β → Op σ α} (hf : ∀ a, ∀ x ∈ l, Returns P (f a x) fun _ => P) (a : α) :
    Returns P (l.foldlM f a) fun _ => P := by
  induction l generalizing a with
  | nil => exact pure fun _ hs => hs
  | cons x l ih =>
      rw [List.foldlM_cons]
      exact bind (hf a x List.mem_cons_self) fun b =>
        ih (fun a y hy => hf a y (List.mem_cons_of_mem _ hy)) b

end Returns

/-- The operation returns from every state. -/
def Total (x : Op σ α) : Prop := Returns (fun _ => True) x fun _ _ => True

namespace Total

theorem pure (a : α) : Total (Pure.pure a : Op σ α) := Returns.pure fun _ _ => trivial

theorem get : Total (MonadState.get : Op σ σ) := Returns.get_bind fun s _ => pure s

theorem modify (f : σ → σ) : Total (modify f : Op σ PUnit) := Returns.modify fun _ _ => trivial

theorem bind {x : Op σ α} {f : α → Op σ β} (hx : Total x) (hf : ∀ a, Total (f a)) : Total (x >>= f) :=
  Returns.bind hx hf

theorem ite {c : Prop} [Decidable c] {x y : Op σ α} (hx : Total x) (hy : Total y) :
    Total (if c then x else y) := Returns.ite (fun _ => hx) fun _ => hy

theorem foldlM {l : List β} {f : α → β → Op σ α} (hf : ∀ a x, Total (f a x)) (a : α) :
    Total (l.foldlM f a) := Returns.foldlM (fun a x _ => hf a x) a

end Total

end Op

end FirmwareTools

import Mathlib.Tactic.Common

/-! # Runs of a labelled transition system

A run is a chain of labelled steps together with the states it passes. A property that every step
keeps holds all along a run; a property that a step keeps exactly when it meets a guard holds all
along a run exactly when every step of the run meets the guard.

* **`Trace.invariant`** — the induction over a run;
* **`Trace.forall_iff_guard`** — an exact guard of the steps is an exact guard of the runs. -/

namespace FirmwareTools

variable {σ ι : Type*} {step : σ → ι → σ → Prop} {s t : σ} {tr : List (σ × ι)}

/-- `Trace step s tr t`: the steps `tr`, each with the state it starts from, lead from `s` to `t`. -/
inductive Trace (step : σ → ι → σ → Prop) : σ → List (σ × ι) → σ → Prop
  | nil (s : σ) : Trace step s [] s
  | cons {s t u : σ} {i : ι} {tr : List (σ × ι)} (hstep : step s i t) (htr : Trace step t tr u) :
      Trace step s ((s, i) :: tr) u

namespace Trace

/-- A property holds all along a run: at every state it passes and at the one it ends in. -/
def Along (P : σ → Prop) (tr : List (σ × ι)) (t : σ) : Prop := (∀ x ∈ tr, P x.1) ∧ P t

theorem along_cons {P : σ → Prop} {i : ι} : Along P ((s, i) :: tr) t ↔ P s ∧ Along P tr t := by
  simp [Along, and_assoc]

/-- A run goes on with one more step. -/
theorem concat {i : ι} {u : σ} (h : Trace step s tr t) (hstep : step t i u) :
    Trace step s (tr ++ [(t, i)]) u := by
  induction h with
  | nil s => exact .cons hstep (.nil u)
  | cons hst _ ih => exact .cons hst (ih hstep)

/-- **Induction over a run**: what holds at the start and is kept by every step holds all along. -/
theorem invariant {P : σ → Prop} (h : Trace step s tr t) (hs : P s)
    (hstep : ∀ s i t, P s → step s i t → P t) : Along P tr t := by
  induction h with
  | nil s => exact ⟨by simp, hs⟩
  | cons hst _ ih => exact along_cons.mpr ⟨hs, ih (hstep _ _ _ hs hst)⟩

/-- **Guarded steps**: what holds at the start and is kept by every step that meets `G` holds all along
a run whose steps all meet `G`. -/
theorem invariant_of_guard {P : σ → Prop} {G : σ → ι → Prop} (h : Trace step s tr t) (hs : P s)
    (hstep : ∀ s i t, P s → step s i t → G s i → P t) (hG : ∀ x ∈ tr, G x.1 x.2) :
    Along P tr t := by
  induction h with
  | nil s => exact ⟨by simp, hs⟩
  | cons hst _ ih =>
      rw [List.forall_mem_cons] at hG
      exact along_cons.mpr ⟨hs, ih (hstep _ _ _ hs hst hG.1) hG.2⟩

/-- **Exact guards**: if, under an invariant `J`, a step keeps `P` exactly when it meets `G`, then
`P` holds all along a run exactly when every step of it meets `G`. -/
theorem forall_iff_guard {J P : σ → Prop} {G : σ → ι → Prop} (h : Trace step s tr t)
    (hJs : J s) (hJ : ∀ s i t, J s → step s i t → J t) (hPs : P s)
    (hP : ∀ s i t, J s → P s → step s i t → (P t ↔ G s i)) :
    Along P tr t ↔ ∀ x ∈ tr, G x.1 x.2 := by
  induction h with
  | nil s => simpa [Along] using hPs
  | @cons s t u i tr hst _ ih =>
      have hiff := hP _ _ _ hJs hPs hst
      rw [along_cons, List.forall_mem_cons]
      by_cases hPt : P t
      · rw [ih (hJ _ _ _ hJs hst) hPt]
        exact ⟨fun h => ⟨hiff.mp hPt, h.2⟩, fun h => ⟨hPs, h.2⟩⟩
      · refine iff_of_false (fun h => hPt ?_) fun h => hPt (hiff.mpr h.1)
        -- the run goes on from `t`, so `t` is one of the states passed
        cases tr with
        | nil => cases ‹Trace step t [] u›; exact h.2.2
        | cons x tr => cases ‹Trace step t (x :: tr) u›; exact h.2.1 _ List.mem_cons_self

/-- If a step that meets `G` has the property `P`, then in a run whose steps all meet
`G` all have `P`. -/
theorem forall_of_guard {P G : σ → ι → Prop} (h : Trace step s tr t)
    (hstep : ∀ s i t, step s i t → G s i → P s i) (hG : ∀ x ∈ tr, G x.1 x.2) :
    ∀ x ∈ tr, P x.1 x.2 := by
  induction h with
  | nil s => simp
  | cons hst _ ih =>
      rw [List.forall_mem_cons] at hG ⊢
      exact ⟨hstep _ _ _ hst hG.1, ih hG.2⟩

/-- **Runs end**: if every step takes something off a measure, then a run is not longer than the measure that it
has taken off. -/
theorem length_add_le {μ : σ → ℕ} (h : Trace step s tr t) (hstep : ∀ s i t, step s i t → μ t < μ s) :
    tr.length + μ t ≤ μ s := by
  induction h with
  | nil s => exact Nat.le_of_eq (Nat.zero_add _)
  | cons hst _ ih =>
      have hlt := hstep _ _ _ hst
      rw [List.length_cons]
      omega

/-! ### Runs of a step function -/

/-- The run of a step function along the given labels: its steps, and the state it ends in. -/
def run (f : σ → ι → Option σ) : σ → List ι → Option (List (σ × ι) × σ)
  | s, [] => some ([], s)
  | s, i :: is => (f s i).bind fun t => (run f t is).map fun r => ((s, i) :: r.1, r.2)

theorem of_run {f : σ → ι → Option σ} {is : List ι} (h : run f s is = some (tr, t)) :
    Trace (fun s i t => f s i = some t) s tr t := by
  induction is generalizing s tr with
  | nil =>
      cases h
      exact .nil _
  | cons i is ih =>
      rw [run] at h
      obtain ⟨u, hstep, h⟩ := Option.bind_eq_some_iff.mp h
      obtain ⟨⟨tr', t'⟩, hrun, h⟩ := Option.map_eq_some_iff.mp h
      cases h
      exact .cons hstep (ih hrun)

/-- What can be seen of a run by running it. -/
theorem exists_of_run {f : σ → ι → Option σ} {P : List (σ × ι) → σ → Prop}
    [∀ tr t, Decidable (P tr t)] (is : List ι)
    (h : (run f s is).any (fun r => decide (P r.1 r.2)) = true) :
    ∃ tr t, Trace (fun s i t => f s i = some t) s tr t ∧ P tr t := by
  cases hrun : run f s is with
  | none =>
      rw [hrun] at h
      cases h
  | some r =>
      rw [hrun] at h
      exact ⟨r.1, r.2, of_run hrun, of_decide_eq_true h⟩

end Trace

end FirmwareTools

import Mathlib.Data.Finset.Card
import Mathlib.Logic.Relation
import Mathlib.Tactic.Common

/-! # Routines that call themselves

A call of such a routine does something to the state, calls itself with other arguments, and so on; at
any point the program may stop. It is run to a depth, as it need not end. If no call is made with the key
of a call that is still going on, and there are only finitely many keys, it ends.

* **`endsDistinct_iff`** — no call is below one with its own key exactly when the run ends, and is never
  deeper than there are keys;
* **`noReturn_of_acyclic`** — this is so where the calls that can be made go round in no circle;
* **`runCall_keeps`** — what every change keeps a run keeps. -/

namespace FirmwareTools

variable {κ σ ρ : Type*}

/-- What a call does in turn: a call, a change of the state, at which the program may stop, or a check on
whether to go on or to return. -/
inductive Act (κ σ : Type*)
  | call (c : κ)
  | effect (f : σ → Option σ)
  | check (p : σ → Bool)

/-- How a run ends: it returns, the program stops, or it would go deeper. -/
inductive Ending
  | done | stopped | deep
  deriving DecidableEq, Repr

/-- Do things in turn, by a given run of the calls. -/
def runActs (run : κ → σ → σ × Ending) : List (Act κ σ) → σ → σ × Ending
  | [], s => (s, .done)
  | .call c :: acts, s =>
    match run c s with
    | (s, .done) => runActs run acts s
    | r => r
  | .effect f :: acts, s =>
    match f s with
    | some s => runActs run acts s
    | none => (s, .stopped)
  | .check p :: acts, s => if p s then runActs run acts s else (s, .done)

/-- The stacks of the calls that are made in turn. -/
def callStacksActs (run : κ → σ → σ × Ending) (below : κ → σ → List (List κ)) :
    List (Act κ σ) → σ → List (List κ)
  | [], _ => []
  | .call c :: acts, s =>
    below c s ++
      match run c s with
      | (s, .done) => callStacksActs run below acts s
      | _ => []
  | .effect f :: acts, s =>
    match f s with
    | some s => callStacksActs run below acts s
    | none => []
  | .check p :: acts, s => if p s then callStacksActs run below acts s else []

section

variable (body : κ → Option (List (Act κ σ)))

/-- Run a call to a depth. Where there is no body the program stops. -/
def runCall : ℕ → κ → σ → σ × Ending
  | 0, _, s => (s, .deep)
  | n + 1, c, s =>
    match body c with
    | none => (s, .stopped)
    | some acts => runActs (runCall n) acts s

/-- The stacks of all calls that are begun, each with the calls that are going on around it, the innermost
first. -/
def callStacks : ℕ → List κ → κ → σ → List (List κ)
  | 0, _, _, _ => []
  | n + 1, above, c, s =>
    match body c with
    | none => []
    | some acts => (c :: above) :: callStacksActs (runCall body n) (callStacks n (c :: above)) acts s

end

variable {body : κ → Option (List (Act κ σ))} {above st : List κ} {c : κ} {s : σ}

/-! ## One step -/

/-- What is below one of several things is below a call among them. -/
theorem mem_callStacksActs {run : κ → σ → σ × Ending} {below : κ → σ → List (List κ)}
    {acts : List (Act κ σ)} (h : st ∈ callStacksActs run below acts s) :
    ∃ c' s', .call c' ∈ acts ∧ st ∈ below c' s' ∧
      ∀ st' ∈ below c' s', st' ∈ callStacksActs run below acts s := by
  induction acts generalizing s with
  | nil => cases h
  | cons act acts ih =>
      cases act with
      | call c' =>
          rw [callStacksActs] at h ⊢
          rcases List.mem_append.mp h with h | h
          · exact ⟨c', s, List.mem_cons_self, h, fun st' hst' => List.mem_append_left _ hst'⟩
          · split at h
            · rename_i s' hrun
              obtain ⟨d, t, hd, hst, hall⟩ := ih h
              refine ⟨d, t, List.mem_cons_of_mem _ hd, hst, fun st' hst' => ?_⟩
              exact List.mem_append_right _ (hall st' hst')
            · cases h
      | effect f =>
          rw [callStacksActs] at h ⊢
          split at h
          · rename_i s' hf
            obtain ⟨d, t, hd, hst, hall⟩ := ih h
            exact ⟨d, t, List.mem_cons_of_mem _ hd, hst, hall⟩
          · cases h
      | check p =>
          rw [callStacksActs] at h ⊢
          split at h
          · rename_i hp
            obtain ⟨d, t, hd, hst, hall⟩ := ih h
            exact ⟨d, t, List.mem_cons_of_mem _ hd, hst, fun st' hst' => by
              rw [if_pos hp]
              exact hall st' hst'⟩
          · cases h

/-- Things in turn go too deep only by a call among them. -/
theorem exists_deep_of_runActs {run : κ → σ → σ × Ending} (below : κ → σ → List (List κ))
    {acts : List (Act κ σ)} (h : (runActs run acts s).2 = .deep) :
    ∃ c' s', (run c' s').2 = .deep ∧ ∀ st ∈ below c' s', st ∈ callStacksActs run below acts s := by
  induction acts generalizing s with
  | nil => cases h
  | cons act acts ih =>
      cases act with
      | call c' =>
          rw [runActs] at h
          rw [callStacksActs]
          rcases hrun : run c' s with ⟨s', ending⟩
          rw [hrun] at h
          cases ending with
          | done =>
              obtain ⟨d, t, hdeep, hall⟩ := ih h
              exact ⟨d, t, hdeep, fun st hst => List.mem_append_right _ (hall st hst)⟩
          | stopped => cases h
          | deep => exact ⟨c', s, by rw [hrun], fun st hst => List.mem_append_left _ hst⟩
      | effect f =>
          rw [runActs] at h
          rw [callStacksActs]
          cases hf : f s with
          | none =>
              rw [hf] at h
              cases h
          | some s' =>
              rw [hf] at h
              exact ih h
      | check p =>
          rw [runActs] at h
          rw [callStacksActs]
          split at h
          · rename_i hp
            rw [if_pos hp]
            exact ih h
          · cases h

/-- Things in turn, none of them a check, and then others. -/
theorem runActs_append {run : κ → σ → σ × Ending} {acts acts' : List (Act κ σ)}
    (h : ∀ p, .check p ∉ acts) :
    runActs run (acts ++ acts') s =
      match runActs run acts s with
      | (s, .done) => runActs run acts' s
      | r => r := by
  induction acts generalizing s with
  | nil => rfl
  | cons act acts ih =>
      have hrest : ∀ p, .check p ∉ acts := fun p hp => h p (List.mem_cons_of_mem _ hp)
      cases act with
      | call c' =>
          rw [List.cons_append, runActs, runActs]
          rcases run c' s with ⟨s', ending⟩
          cases ending with
          | done => exact ih hrest
          | stopped => rfl
          | deep => rfl
      | effect f =>
          rw [List.cons_append, runActs, runActs]
          cases f s with
          | none => rfl
          | some s' => exact ih hrest
      | check p => exact absurd List.mem_cons_self (h p)

/-! ## Whole runs -/

/-- A run that goes too deep has a stack of that depth. -/
theorem exists_stack_of_deep {n : ℕ} (h : (runCall body (n + 1) c s).2 = .deep) (above : List κ) :
    ∃ st ∈ callStacks body (n + 1) above c s, st.length = above.length + (n + 1) := by
  induction n generalizing c s above with
  | zero =>
      rw [runCall] at h
      rw [callStacks]
      cases hbody : body c with
      | none =>
          rw [hbody] at h
          cases h
      | some acts => exact ⟨c :: above, List.mem_cons_self, rfl⟩
  | succ n ih =>
      rw [runCall] at h
      rw [callStacks]
      cases hbody : body c with
      | none =>
          rw [hbody] at h
          cases h
      | some acts =>
          rw [hbody] at h
          obtain ⟨c', s', hdeep, hall⟩ :=
            exists_deep_of_runActs (callStacks body (n + 1) (c :: above)) h
          obtain ⟨st, hst, hlength⟩ := ih hdeep (c :: above)
          refine ⟨st, List.mem_cons_of_mem _ (hall st hst), ?_⟩
          rw [hlength, List.length_cons]
          omega

/-- A stack without its innermost call is a stack. -/
theorem tail_mem_callStacks {n : ℕ} (h : st ∈ callStacks body n above c s) :
    st = c :: above ∨ ∃ d st', st = d :: st' ∧ st' ∈ callStacks body n above c s := by
  induction n generalizing above c s with
  | zero => cases h
  | succ n ih =>
      rw [callStacks] at h ⊢
      cases hbody : body c with
      | none =>
          rw [hbody] at h
          cases h
      | some acts =>
          rw [hbody] at h
          rcases List.mem_cons.mp h with h | h
          · exact Or.inl h
          · obtain ⟨c', s', -, hst, hall⟩ := mem_callStacksActs h
            refine Or.inr ?_
            rcases ih hst with rfl | ⟨d, st', rfl, hst'⟩
            · exact ⟨c', c :: above, rfl, List.mem_cons_self⟩
            · exact ⟨d, st', rfl, List.mem_cons_of_mem _ (hall st' hst')⟩

/-- All calls of a stack have a body. -/
theorem forall_mem_callStacks {n : ℕ} (habove : ∀ a ∈ above, (body a).isSome)
    (h : st ∈ callStacks body n above c s) : ∀ a ∈ st, (body a).isSome := by
  induction n generalizing above c s with
  | zero => cases h
  | succ n ih =>
      rw [callStacks] at h
      cases hbody : body c with
      | none =>
          rw [hbody] at h
          cases h
      | some acts =>
          rw [hbody] at h
          have hcons : ∀ a ∈ c :: above, (body a).isSome := by
            refine List.forall_mem_cons.mpr ⟨?_, habove⟩
            rw [hbody]
            rfl
          rcases List.mem_cons.mp h with rfl | h
          · exact hcons
          · obtain ⟨c', s', -, hst, -⟩ := mem_callStacksActs h
            exact ih hcons hst

variable (body) in
/-- Some call with the one key makes one with the other, which has a body. -/
def Calls (key : κ → ρ) (k k' : ρ) : Prop :=
  ∃ c acts c', body c = some acts ∧ .call c' ∈ acts ∧ (body c').isSome ∧ key c = k ∧ key c' = k'

/-- Only a call with a body is begun. -/
theorem isSome_of_mem_callStacks {n : ℕ} (h : st ∈ callStacks body n above c s) :
    (body c).isSome := by
  cases n with
  | zero => cases h
  | succ n =>
      rw [callStacks] at h
      cases hbody : body c with
      | none =>
          rw [hbody] at h
          cases h
      | some acts => rfl

/-- From what is around a call of a stack, calls lead to it. -/
theorem transGen_of_mem_callStacks {key : κ → ρ} {n : ℕ} {d : κ}
    (habove : ∀ a ∈ above, Relation.TransGen (Calls body key) (key a) (key c))
    (h : d :: st ∈ callStacks body n above c s) :
    ∀ a ∈ st, Relation.TransGen (Calls body key) (key a) (key d) := by
  induction n generalizing above c s with
  | zero => cases h
  | succ n ih =>
      rw [callStacks] at h
      cases hbody : body c with
      | none =>
          rw [hbody] at h
          cases h
      | some acts =>
          rw [hbody] at h
          rcases List.mem_cons.mp h with h | h
          · cases h
            exact habove
          · obtain ⟨c', s', hcall, hst, -⟩ := mem_callStacksActs h
            have hstep : Calls body key (key c) (key c') :=
              ⟨c, acts, c', hbody, hcall, isSome_of_mem_callStacks hst, rfl, rfl⟩
            refine ih (fun a ha => ?_) hst
            rcases List.mem_cons.mp ha with rfl | ha
            · exact Relation.TransGen.single hstep
            · exact (habove a ha).tail hstep

/-- Calls lead to every call that is begun. -/
theorem reflTransGen_of_mem_callStacks {key : κ → ρ} {n : ℕ} {d : κ}
    (h : d :: st ∈ callStacks body n above c s) :
    Relation.ReflTransGen (Calls body key) (key c) (key d) := by
  induction n generalizing above c s with
  | zero => cases h
  | succ n ih =>
      rw [callStacks] at h
      cases hbody : body c with
      | none =>
          rw [hbody] at h
          cases h
      | some acts =>
          rw [hbody] at h
          rcases List.mem_cons.mp h with h | h
          · cases h
            exact Relation.ReflTransGen.refl
          · obtain ⟨c', s', hcall, hst, -⟩ := mem_callStacksActs h
            exact Relation.ReflTransGen.head
              ⟨c, acts, c', hbody, hcall, isSome_of_mem_callStacks hst, rfl, rfl⟩ (ih hst)

/-! ## Runs that end -/

variable (body) in
/-- A run ends, at most one call deeper than there are keys; the keys of the calls that are going on at
one time are different, and so there are at most as many of them. -/
structure EndsDistinct (key : κ → ρ) (keys : Finset ρ) (c : κ) (s : σ) : Prop where
  ends : (runCall body (keys.card + 1) c s).2 ≠ .deep
  distinct : ∀ n, ∀ st ∈ callStacks body n [] c s, (st.map key).Nodup
  depth : ∀ n, ∀ st ∈ callStacks body n [] c s, st.length ≤ keys.card

variable (body) in
/-- No call is made with the key of one that is going on. -/
def NoReturn (key : κ → ρ) (c : κ) (s : σ) : Prop :=
  ∀ n d st, d :: st ∈ callStacks body n [] c s → key d ∉ st.map key

/-- **When a run ends**: its calls are different from those around them exactly when no single call is
made again. -/
theorem endsDistinct_iff {key : κ → ρ} {keys : Finset ρ}
    (hkeys : ∀ c, (body c).isSome → key c ∈ keys) :
    EndsDistinct body key keys c s ↔ NoReturn body key c s := by
  classical
  constructor
  · rintro ⟨-, hdistinct, -⟩ n d st hst
    have hnodup := hdistinct n _ hst
    rw [List.map_cons, List.nodup_cons] at hnodup
    exact hnodup.1
  · intro hno
    have hdistinct : ∀ n, ∀ st ∈ callStacks body n [] c s, (st.map key).Nodup := by
      intro n st
      induction st with
      | nil =>
          intro _
          exact List.nodup_nil
      | cons d st ih =>
          intro hst
          rw [List.map_cons, List.nodup_cons]
          refine ⟨hno n d st hst, ?_⟩
          rcases tail_mem_callStacks hst with heq | ⟨d', st', heq, hst'⟩
          · cases heq
            exact List.nodup_nil
          · cases heq
            exact ih hst'
    have hdepth : ∀ n, ∀ st ∈ callStacks body n [] c s, st.length ≤ keys.card := by
      intro n st hst
      have hall := forall_mem_callStacks (by simp) hst
      rw [← List.length_map key, ← List.toFinset_card_of_nodup (hdistinct n st hst)]
      refine Finset.card_le_card fun k hk => ?_
      obtain ⟨a, ha, rfl⟩ := List.mem_map.mp (List.mem_toFinset.mp hk)
      exact hkeys a (hall a ha)
    refine ⟨fun hdeep => ?_, hdistinct, hdepth⟩
    obtain ⟨st, hst, hlength⟩ := exists_stack_of_deep hdeep []
    have hle := hdepth _ st hst
    rw [hlength, List.length_nil] at hle
    omega

/-- Where calls go round in no circle that the first call gets to, none is made again. -/
theorem noReturn_of_acyclic {key : κ → ρ}
    (h : ∀ k, Relation.ReflTransGen (Calls body key) (key c) k →
      ¬ Relation.TransGen (Calls body key) k k) : NoReturn body key c s := by
  intro n d st hst hmem
  obtain ⟨a, ha, heq⟩ := List.mem_map.mp hmem
  have hcycle : Relation.TransGen (Calls body key) (key d) (key d) := by
    have hnil : ∀ b ∈ ([] : List κ), Relation.TransGen (Calls body key) (key b) (key c) := by
      simp
    have htrans := transGen_of_mem_callStacks hnil hst a ha
    rwa [heq] at htrans
  exact h (key d) (reflTransGen_of_mem_callStacks hst) hcycle

/-- A call that only calls itself never ends. -/
theorem deep_of_call_self (h : body c = some [.call c]) (n : ℕ) : (runCall body n c s).2 = .deep := by
  induction n with
  | zero => rfl
  | succ n ih =>
      rw [runCall, h]
      dsimp only
      rw [runActs]
      split
      · rename_i s' hrun
        rw [hrun] at ih
        cases ih
      · exact ih

/-! ## A log -/

section

variable {ε τ : Type*}

/-- What a call does, beside a log; calls are given something more. -/
def Act.logged (e : ε) : Act κ σ → Act (κ × ε) (σ × List τ)
  | .call c => .call (c, e)
  | .effect f => .effect fun s => (f s.1).map fun s₁ => (s₁, s.2)
  | .check p => .check fun s => p s.1

/-- Something is put in the log. -/
def Act.log (x : τ) : Act (κ × ε) (σ × List τ) := .effect fun s => some (s.1, s.2 ++ [x])

/-- The same things are done, with a log. -/
inductive Logs : List (Act κ σ) → List (Act (κ × ε) (σ × List τ)) → Prop
  | nil : Logs [] []
  | log (x : τ) {acts : List (Act κ σ)} {acts' : List (Act (κ × ε) (σ × List τ))} (h : Logs acts acts') :
      Logs acts (.log x :: acts')
  | act (e : ε) (a : Act κ σ) {acts : List (Act κ σ)} {acts' : List (Act (κ × ε) (σ × List τ))}
      (h : Logs acts acts') : Logs (a :: acts) (a.logged e :: acts')

theorem Logs.map (e : ε) (acts : List (Act κ σ)) :
    Logs (τ := τ) acts (acts.map fun a => a.logged e) := by
  induction acts with
  | nil => exact .nil
  | cons a acts ih => exact .act e a ih

theorem Logs.append {acts₁ acts₂ : List (Act κ σ)} {acts₁' acts₂' : List (Act (κ × ε) (σ × List τ))}
    (h₁ : Logs acts₁ acts₁') (h₂ : Logs acts₂ acts₂') : Logs (acts₁ ++ acts₂) (acts₁' ++ acts₂') := by
  induction h₁ with
  | nil => exact h₂
  | log x h ih => exact .log x ih
  | act e a h ih => exact .act e a ih

end

/-- **A property of states is kept** by a run if every change keeps it that can be made in calls with some
other property, which these calls hand on. -/
theorem runCall_keeps (inv : κ → Prop) (p : σ → Prop)
    (hbody : ∀ c acts, inv c → body c = some acts → ∀ a ∈ acts,
      (∀ c', a = .call c' → inv c') ∧ ∀ f, a = .effect f → ∀ s s', p s → f s = some s' → p s')
    (n : ℕ) (hc : inv c) (hs : p s) : p (runCall body n c s).1 := by
  induction n generalizing c s with
  | zero => exact hs
  | succ n ih =>
      rw [runCall]
      cases hacts : body c with
      | none => exact hs
      | some acts =>
          have hall := hbody c acts hc hacts
          dsimp only
          clear hacts
          induction acts generalizing s with
          | nil => exact hs
          | cons a acts iha =>
              have hrest := fun a ha => hall a (List.mem_cons_of_mem _ ha)
              obtain ⟨hcall, heffect⟩ := hall a List.mem_cons_self
              cases a with
              | call c' =>
                  have hp := ih (hcall c' rfl) hs
                  rw [runActs]
                  rcases hrun : runCall body n c' s with ⟨s', ending⟩
                  rw [hrun] at hp
                  cases ending with
                  | done => exact iha hp hrest
                  | stopped => exact hp
                  | deep => exact hp
              | effect f =>
                  rw [runActs]
                  cases hf : f s with
                  | none => exact hs
                  | some s' => exact iha (heffect f rfl s s' hs hf) hrest
              | check q =>
                  rw [runActs]
                  split
                  · exact iha hs hrest
                  · exact hs

end FirmwareTools

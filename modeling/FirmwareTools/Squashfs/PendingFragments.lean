import FirmwareTools.Squashfs.Pipeline

/-! # Pending fragments

A fragment that is compressed while the fragments are locked waits in `frag_locked_list` until they are
unlocked. A deflator tests the lock in one section under the mutex and appends to the list in another.
If the main thread unlocks the fragments in between, the fragment stays in the list: it is not written,
and it stays outstanding.

* **`fragmentsSettled_of_guard`** — in a run in which `unlock_fragments` never comes between the two
  sections no fragment is left behind;
* **`not_fragmentsSettled_unlock`** — in a run in which it does, the last loop waits forever. -/

namespace FirmwareTools.Squashfs

/-- It is between its test of the lock and the end of the loop body. -/
def FragDeflator.pastTest : FragDeflator → Bool
  | .foundLocked _ | .queued _ => true
  | _ => false

/-- It is between its test of the lock and `add_pending_fragment`. -/
def FragDeflator.foundsLocked : FragDeflator → Bool
  | .foundLocked _ => true
  | _ => false

/-- It has a fragment that is outstanding and not in the list. -/
def FragDeflator.working : FragDeflator → Bool
  | .took .. | .compressing .. | .foundLocked _ => true
  | _ => false

namespace Pipeline

/-- All fragment deflators wait, and there is nothing for them to take. -/
def DeflatorsIdle (s : Pipeline) : Prop := (∀ d ∈ s.deflators, d = .idle) ∧ s.toFrag = []

/-- **No fragment is left behind**: the list is empty when the fragments are not locked and no deflator
is past its test; after the last `unlock_fragments`, once the deflators are idle, nothing is outstanding
and the loop ends. -/
def FragmentsSettled (env : PipelineEnv) (s : Pipeline) : Prop :=
  (s.fragmentsLocked = false → (∀ d ∈ s.deflators, d.pastTest = false) → s.fragLockedList = []) ∧
    (s.main = .waiting → s.DeflatorsIdle → s.fragmentsOutstanding = 0 ∧
      s.step env .testOutstanding = some { s with main := .finished })

/-- The guard: `unlock_fragments` does not come between a test of the lock and the call of
`add_pending_fragment` that follows from it. -/
def NoneBetween (s : Pipeline) (l : PipelineStep) : Prop :=
  l = .unlockFragments → ∀ d ∈ s.deflators, d.foundsLocked = false

/-! ## What a step does to the fragments -/

/-- The variables that say how far each fragment is. -/
structure Progress where
  fragmentsLocked : Bool
  fragLockedList : List FragLocked
  fragmentsOutstanding : ℤ
  toFrag : List (ℕ × List UInt8)
  deflators : List FragDeflator

def progress (s : Pipeline) : Progress :=
  ⟨s.fragmentsLocked, s.fragLockedList, s.fragmentsOutstanding, s.toFrag, s.deflators⟩

variable {env : PipelineEnv} {s t : Pipeline} {l : PipelineStep} {m : MainThread}

theorem progress_foldl_placeFragment (entries : List FragLocked) :
    (entries.foldl placeFragment s).progress =
      { s.progress with fragmentsOutstanding := s.fragmentsOutstanding - entries.length } := by
  induction entries generalizing s with
  | nil => simp [progress]
  | cons entry entries ih =>
      rw [List.foldl_cons, ih]
      simp only [progress, placeFragment, List.length_cons, Nat.cast_add, Nat.cast_one]
      congr 1
      omega

theorem progress_unlockFragments :
    s.unlockFragments.progress = ⟨false, [], s.fragmentsOutstanding - s.fragLockedList.length,
      s.toFrag, s.deflators⟩ := by
  have hplaced := progress_foldl_placeFragment (s := s) s.fragLockedList
  simp only [progress, Progress.mk.injEq] at hplaced ⊢
  exact ⟨rfl, rfl, hplaced.2.2⟩

theorem progress_dataBlock (file : OpenFile) (cByte : ℕ) (buffer : WriteBuffer) :
    (s.dataBlock file cByte buffer).progress = s.progress := by
  unfold dataBlock
  split <;> rfl

/-- What the main thread does to the fragments in a step: nothing, or it locks or unlocks them, or
queues the one that it has filled. -/
theorem mainStep_progress (h : s.mainStep env l m = some t) :
    t.progress = s.progress ∨ t.progress = { s.progress with fragmentsLocked := true } ∨
      (l = .unlockFragments ∧ t.progress = s.unlockFragments.progress) ∨
      t.progress = s.writeFragment.progress := by
  unfold mainStep at h
  split at h
  all_goals repeat' split at h
  all_goals cases h
  all_goals first
    | exact .inl rfl
    | exact .inl (progress_dataBlock ..)
    | exact .inr (.inl rfl)
    | exact .inr (.inr (.inl ⟨rfl, rfl⟩))
    | exact .inr (.inr (.inr rfl))

theorem writerStep_progress (h : s.writerStep l = some t) : t.progress = s.progress := by
  unfold writerStep at h
  split at h
  all_goals repeat' split at h
  all_goals cases h
  all_goals rfl

/-! ## Counting the outstanding fragments -/

/-- The deflators that have a fragment which is outstanding and not in the list. -/
def Progress.working (p : Progress) : ℕ := p.deflators.countP FragDeflator.working

/-- **The count of the outstanding fragments** is that of the queue, of the deflators and of the list. -/
def Progress.Counted (p : Progress) : Prop :=
  p.fragmentsOutstanding = p.toFrag.length + p.working + p.fragLockedList.length

/-- While the fragments are not locked none is pending, and none is about to be. -/
def Progress.NothingPending (p : Progress) : Prop :=
  p.fragmentsLocked = false →
    p.fragLockedList = [] ∧ ∀ d ∈ p.deflators, d.foundsLocked = false

/-- Replacing a deflator changes the number of working ones by those two. -/
theorem countP_set_working {ds : List FragDeflator} {i : ℕ} {d : FragDeflator} (d' : FragDeflator)
    (h : ds[i]? = some d) :
    (ds.set i d').countP FragDeflator.working + (if d.working then 1 else 0) =
      ds.countP FragDeflator.working + if d'.working then 1 else 0 := by
  obtain ⟨hi, rfl⟩ := List.getElem?_eq_some_iff.mp h
  have hle : (if ds[i].working then 1 else 0) ≤ ds.countP FragDeflator.working := by
    split
    case isTrue hworking => exact List.countP_pos_iff.mpr ⟨ds[i], List.getElem_mem hi, hworking⟩
    case isFalse => exact Nat.zero_le _
  rw [List.countP_set hi]
  omega

theorem deflatorStep_counted (h : s.deflatorStep env l = some t) (hcount : s.progress.Counted) :
    t.progress.Counted := by
  unfold Progress.Counted Progress.working at hcount ⊢
  rcases deflatorStep_cases h with ⟨i, fragment, data, toFrag, -, hd, hqueue, rfl⟩ |
    ⟨i, id, fragment, data, -, hd, rfl⟩ |
    ⟨i, fragment, data, id, cByte, stored, -, hd, -, ⟨-, rfl⟩ | ⟨-, rfl⟩⟩ |
    ⟨i, entry, -, hd, rfl⟩ | ⟨i, fragment, -, hd, rfl⟩
  · have hset := countP_set_working (.took fragment data) hd
    simp [progress, FragDeflator.working, hqueue] at hcount hset ⊢
    omega
  · have hset := countP_set_working (.compressing fragment data id) hd
    simp [progress, FragDeflator.working] at hcount hset ⊢
    omega
  · have hset := countP_set_working (.foundLocked ⟨⟨id, stored, 0⟩, cByte, fragment⟩) hd
    simp [progress, FragDeflator.working] at hcount hset ⊢
    omega
  · have hset := countP_set_working (.queued fragment) hd
    simp [progress, placeFragment, FragDeflator.working] at hcount hset ⊢
    omega
  · have hset := countP_set_working (.queued entry.fragment) hd
    simp [progress, addPendingFragment, FragDeflator.working] at hcount hset ⊢
    omega
  · have hset := countP_set_working .idle hd
    simp [progress, FragDeflator.working] at hcount hset ⊢
    omega

theorem mainStep_counted (h : s.mainStep env l m = some t) (hcount : s.progress.Counted) :
    t.progress.Counted := by
  rcases mainStep_progress h with heq | heq | ⟨-, heq⟩ | heq
  · rwa [heq]
  · rw [heq]
    exact hcount
  · rw [heq, progress_unlockFragments]
    simp only [Progress.Counted, Progress.working, progress] at hcount ⊢
    rw [hcount]
    simp
  · rw [heq]
    unfold writeFragment
    split
    case isTrue => exact hcount
    case isFalse =>
        simp only [Progress.Counted, Progress.working, progress] at hcount ⊢
        rw [hcount]
        simp
        omega

theorem step_counted (h : s.step env l = some t) (hcount : s.progress.Counted) :
    t.progress.Counted := by
  rcases step_cases h with hmain | hdeflator | hwriter
  · exact mainStep_counted hmain hcount
  · exact deflatorStep_counted hdeflator hcount
  · rwa [writerStep_progress hwriter]

/-! ## What is pending -/

/-- A deflator that does not find the fragments locked keeps what `NothingPending` says of them all. -/
theorem foundsLocked_set {ds : List FragDeflator} {i : ℕ} {d' : FragDeflator}
    (h : ∀ d ∈ ds, d.foundsLocked = false) (hd' : d'.foundsLocked = false) :
    ∀ d ∈ ds.set i d', d.foundsLocked = false := by
  intro d hd
  rcases List.mem_or_eq_of_mem_set hd with hmem | rfl
  · exact h d hmem
  · exact hd'

theorem deflatorStep_nothingPending (h : s.deflatorStep env l = some t)
    (hpending : s.progress.NothingPending) : t.progress.NothingPending := by
  rcases deflatorStep_cases h with ⟨i, fragment, data, toFrag, -, hd, hqueue, rfl⟩ |
    ⟨i, id, fragment, data, -, hd, rfl⟩ |
    ⟨i, fragment, data, id, cByte, stored, -, hd, -, ⟨hlocked, rfl⟩ | ⟨-, rfl⟩⟩ |
    ⟨i, entry, -, hd, rfl⟩ | ⟨i, fragment, -, hd, rfl⟩
  · exact fun hunlocked =>
      ⟨(hpending hunlocked).1, foundsLocked_set (hpending hunlocked).2 rfl⟩
  · exact fun hunlocked =>
      ⟨(hpending hunlocked).1, foundsLocked_set (hpending hunlocked).2 rfl⟩
  · intro hunlocked
    -- the deflator has just seen that the fragments are locked
    exact absurd (hlocked.symm.trans hunlocked) (by decide)
  · exact fun hunlocked =>
      ⟨(hpending hunlocked).1, foundsLocked_set (hpending hunlocked).2 rfl⟩
  · intro hunlocked
    -- a deflator that is about to append has found the fragments locked, and they still are
    have hfound := (hpending hunlocked).2 _ (List.mem_of_getElem? hd)
    cases hfound
  · exact fun hunlocked =>
      ⟨(hpending hunlocked).1, foundsLocked_set (hpending hunlocked).2 rfl⟩

theorem mainStep_nothingPending (h : s.mainStep env l m = some t) (hguard : s.NoneBetween l)
    (hpending : s.progress.NothingPending) : t.progress.NothingPending := by
  rcases mainStep_progress h with heq | heq | ⟨rfl, heq⟩ | heq
  · rwa [heq]
  · rw [heq]
    intro hunlocked
    cases hunlocked
  · rw [heq, progress_unlockFragments]
    exact fun _ => ⟨rfl, hguard rfl⟩
  · rw [heq]
    unfold writeFragment
    split <;> exact hpending

theorem step_nothingPending (h : s.step env l = some t) (hguard : s.NoneBetween l)
    (hpending : s.progress.NothingPending) : t.progress.NothingPending := by
  rcases step_cases h with hmain | hdeflator | hwriter
  · exact mainStep_nothingPending hmain hguard hpending
  · exact deflatorStep_nothingPending hdeflator hpending
  · rwa [writerStep_progress hwriter]

/-! ## Whole runs -/

/-- While the main thread waits for the outstanding fragments, they are not locked. -/
def WaitsUnlocked (s : Pipeline) : Prop := s.main = .waiting → s.fragmentsLocked = false

theorem mainStep_waitsUnlocked (h : s.mainStep env l s.main = some t) (hs : s.WaitsUnlocked) :
    t.WaitsUnlocked := by
  unfold mainStep at h
  split at h
  all_goals repeat' split at h
  all_goals cases h
  all_goals first
    | exact fun _ => rfl
    | exact fun _ => hs ‹_›
    | (intro hwaiting; cases hwaiting)
    | (intro hwaiting; simp only [dataBlock] at hwaiting; split at hwaiting <;> cases hwaiting)

theorem counted_start (dest : Destination) (processors : ℕ) :
    (dest.start processors).progress.Counted := by
  simp [Progress.Counted, Progress.working, progress, Destination.start, List.countP_replicate,
    FragDeflator.working]

theorem nothingPending_start (dest : Destination) (processors : ℕ) :
    (dest.start processors).progress.NothingPending := by
  intro _
  refine ⟨rfl, fun d hd => ?_⟩
  rw [List.eq_of_mem_replicate hd]
  rfl

theorem deflatorStep_waitsUnlocked (h : s.deflatorStep env l = some t) (hs : s.WaitsUnlocked) :
    t.WaitsUnlocked := by
  rcases deflatorStep_cases h with ⟨i, fragment, data, toFrag, -, -, -, rfl⟩ |
    ⟨i, id, fragment, data, -, -, rfl⟩ |
    ⟨i, fragment, data, id, cByte, stored, -, -, -, ⟨-, rfl⟩ | ⟨-, rfl⟩⟩ |
    ⟨i, entry, -, -, rfl⟩ | ⟨i, fragment, -, -, rfl⟩ <;> exact hs

theorem writerStep_waitsUnlocked (h : s.writerStep l = some t) (hs : s.WaitsUnlocked) :
    t.WaitsUnlocked := by
  unfold writerStep at h
  split at h
  all_goals repeat' split at h
  all_goals cases h
  all_goals exact hs

theorem step_waitsUnlocked (h : s.step env l = some t) (hs : s.WaitsUnlocked) : t.WaitsUnlocked := by
  rcases step_cases h with hmain | hdeflator | hwriter
  · exact mainStep_waitsUnlocked hmain hs
  · exact deflatorStep_waitsUnlocked hdeflator hs
  · exact writerStep_waitsUnlocked hwriter hs

/-- What the invariants say of one state. -/
theorem fragmentsSettled_of (hcount : s.progress.Counted) (hpending : s.progress.NothingPending)
    (hwaits : s.WaitsUnlocked) : s.FragmentsSettled env := by
  refine ⟨fun hunlocked _ => (hpending hunlocked).1, fun hwaiting hidle => ?_⟩
  have hlist : s.fragLockedList = [] := (hpending (hwaits hwaiting)).1
  have hworking : s.progress.working = 0 := by
    rw [Progress.working, List.countP_eq_zero]
    intro d hd
    rw [hidle.1 d hd]
    exact Bool.false_ne_true
  have hzero : s.fragmentsOutstanding = 0 := by
    have htotal : s.fragmentsOutstanding =
        s.toFrag.length + s.progress.working + s.fragLockedList.length := hcount
    rw [htotal, hidle.2, hworking, hlist]
    rfl
  refine ⟨hzero, ?_⟩
  rw [step, hwaiting, mainStep, if_pos hzero]
  rfl

/-- **No fragment is left behind** in a run in which `unlock_fragments` never comes between a deflator's
test of the lock and its call of `add_pending_fragment`, with any number of deflators. -/
theorem fragmentsSettled_of_guard (env : PipelineEnv) (dest : Destination) (processors : ℕ)
    {tr : List (Pipeline × PipelineStep)} {t : Pipeline}
    (h : Trace (Step env) (dest.start processors) tr t)
    (hguard : ∀ x ∈ tr, x.1.NoneBetween x.2) :
    Trace.Along (FragmentsSettled env) tr t := by
  have hinv := h.invariant_of_guard
    (P := fun s => s.progress.Counted ∧ s.progress.NothingPending ∧ s.WaitsUnlocked)
    ⟨counted_start dest processors, nothingPending_start dest processors, nofun⟩
    (fun s l t hs hstep hg => ⟨step_counted hstep hs.1, step_nothingPending hstep hg hs.2.1,
      step_waitsUnlocked hstep hs.2.2⟩) hguard
  exact ⟨fun x hx => fragmentsSettled_of (hinv.1 x hx).1 (hinv.1 x hx).2.1 (hinv.1 x hx).2.2,
    fragmentsSettled_of hinv.2.1 hinv.2.2.1 hinv.2.2.2⟩

/-- A fragment that is compressed while a file is written is pending until the end of the file. -/
def pendingRun : List PipelineStep :=
  [.writeFileFrag false (List.replicate 4096 1), .fillFragment, .copyFragment, .createInode,
    .writeFileFrag false [2], .fillFragment, .copyFragment, .createInode,
    .takeFragment 0, .getBuffer 0 0, .writeFileBlocks, .testLocked 0]

instance (s : Pipeline) (l : PipelineStep) : Decidable (s.NoneBetween l) :=
  inferInstanceAs (Decidable (_ → _))

/-- The deflator goes on before the fragments are unlocked, and the fragment is written. -/
theorem fragmentsSettled_pending :
    ∃ tr t, Trace (Step storedEnv) (emptyDestination.start 1) tr t ∧ t.toWriter.length = 2 ∧
      Trace.Along (FragmentsSettled storedEnv) tr t := by
  obtain ⟨tr, t, htrace, hguard, hwriter⟩ : ∃ tr t,
      Trace (Step storedEnv) (emptyDestination.start 1) tr t ∧
        ((∀ x ∈ tr, x.1.NoneBetween x.2) ∧ t.toWriter.length = 2) :=
    Trace.exists_of_run (pendingRun ++ [.dataBlock (1 ||| compressedBitBlock) ⟨1, [3], 0⟩,
      .endOfBlocks, .addPending 0, .unlockFragments]) (by decide +kernel)
  exact ⟨tr, t, htrace, hwriter,
    fragmentsSettled_of_guard storedEnv emptyDestination 1 htrace hguard⟩

/-- A deflator that has found the fragments locked appends its fragment to the list after the last
`unlock_fragments`: the loop at the end never sees that nothing is outstanding. -/
theorem not_fragmentsSettled_unlock :
    ¬ ∀ (env : PipelineEnv) (dest : Destination) (processors : ℕ)
      (tr : List (Pipeline × PipelineStep)) (t : Pipeline),
      Trace (Step env) (dest.start processors) tr t → Trace.Along (FragmentsSettled env) tr t := by
  intro h
  obtain ⟨tr, t, htrace, hmain, hidle, hqueue, hone⟩ : ∃ tr t,
      Trace (Step storedEnv) (emptyDestination.start 1) tr t ∧
        (t.main = .waiting ∧ (∀ d ∈ t.deflators, d = .idle) ∧ t.toFrag = [] ∧
          t.fragmentsOutstanding = 1) :=
    Trace.exists_of_run (pendingRun ++ [.dataBlock (1 ||| compressedBitBlock) ⟨1, [3], 0⟩,
      .endOfBlocks, .unlockFragments, .fillFragment, .createInode, .endOfFiles, .unlockFragments,
      .addPending 0, .putFragment 0, .takeFragment 0, .getBuffer 0 2, .testLocked 0, .putFragment 0])
      (by decide +kernel)
  have hsettled := (h storedEnv emptyDestination 1 tr t htrace).2.2 hmain ⟨hidle, hqueue⟩
  rw [hsettled.1] at hone
  exact absurd hone (by decide)

end Pipeline

end FirmwareTools.Squashfs

import FirmwareTools.Squashfs.OutputRanges

/-! # Where the data of fragments is

A fragment that was handed out is in the queue of the deflators, with one of them, pending, or recorded
in the fragment table. What is recorded of a fragment leads to its compressed data: in a buffer that is
still to be written, with nothing behind it that would overwrite it, or on the disk. -/

namespace FirmwareTools.Squashfs

/-! ## The disk -/

/-- The data is on the disk from `start` on. -/
def OnDisk (disk : ℕ → Option UInt8) (start : ℕ) (data : List UInt8) : Prop :=
  ∀ i < data.length, disk (start + i) = data[i]?

/-- The bytes that a buffer is written to. -/
def WriteBuffer.range (b : WriteBuffer) : ByteRange := (b.block, b.block + b.data.length)

variable {disk : ℕ → Option UInt8} {start : ℕ} {data : List UInt8} {b : WriteBuffer}

theorem onDisk_writeBytes (disk : ℕ → Option UInt8) (start : ℕ) (data : List UInt8) :
    OnDisk (writeBytes disk start data) start data := by
  intro i hi
  unfold writeBytes
  rw [if_pos ⟨Nat.le_add_right _ _, Nat.add_lt_add_left hi _⟩, Nat.add_sub_cancel_left]

/-- What is written elsewhere does not matter. -/
theorem OnDisk.write (h : OnDisk disk start data) (hapart : Apart b.range (start, start + data.length)) :
    OnDisk (writeBytes disk b.block b.data) start data := by
  intro i hi
  have hout : ¬ (b.block ≤ start + i ∧ start + i < b.block + b.data.length) := by
    rcases hapart with hle | hle <;> simp only [WriteBuffer.range] at hle <;> omega
  rw [writeBytes, if_neg hout]
  exact h i hi

theorem OnDisk.truncate (h : OnDisk disk start data) {bytes : ℕ} (hle : start + data.length ≤ bytes) :
    OnDisk (ftruncate disk bytes) start data := by
  intro i hi
  rw [ftruncate, if_pos (by omega)]
  exact h i hi

/-! ## The queue of the writer -/

/-- **The data will be at its place**: a buffer with it is still to be written, and what is written behind
it goes elsewhere; or it is there, and nothing else will be written there. -/
def Lands (tag : ℕ → Prop) (queue : List WriteBuffer) (disk : ℕ → Option UInt8) (start : ℕ)
    (data : List UInt8) : Prop :=
  (∃ before w after, queue = before ++ w :: after ∧ w.block = start ∧ w.data = data ∧ tag w.id ∧
    ∀ x ∈ after, Apart x.range (start, start + data.length)) ∨
  (OnDisk disk start data ∧ ∀ x ∈ queue, Apart x.range (start, start + data.length))

variable {tag tag' : ℕ → Prop} {queue : List WriteBuffer}

theorem Lands.mono (h : Lands tag queue disk start data) (htag : ∀ w ∈ queue, tag w.id → tag' w.id) :
    Lands tag' queue disk start data := by
  rcases h with ⟨before, w, after, hqueue, hblock, hdata, hw, hafter⟩ | h
  · refine .inl ⟨before, w, after, hqueue, hblock, hdata, htag w ?_ hw, hafter⟩
    rw [hqueue]
    exact List.mem_append_right _ List.mem_cons_self
  · exact .inr h

/-- A buffer for another place is queued. -/
theorem Lands.append (h : Lands tag queue disk start data)
    (hapart : Apart b.range (start, start + data.length)) : Lands tag (queue ++ [b]) disk start data := by
  have hmem : ∀ {xs : List WriteBuffer}, (∀ x ∈ xs, Apart x.range (start, start + data.length)) →
      ∀ x ∈ xs ++ [b], Apart x.range (start, start + data.length) := by
    intro xs hxs x hx
    rw [List.mem_append, List.mem_singleton] at hx
    rcases hx with hx | rfl
    · exact hxs x hx
    · exact hapart
  rcases h with ⟨before, w, after, rfl, hblock, hdata, hw, hafter⟩ | ⟨hdisk, hqueue⟩
  · exact .inl ⟨before, w, after ++ [b], by simp, hblock, hdata, hw, hmem hafter⟩
  · exact .inr ⟨hdisk, hmem hqueue⟩

/-- The first buffer is written. -/
theorem Lands.write (h : Lands tag (b :: queue) disk start data) :
    Lands tag queue (writeBytes disk b.block b.data) start data := by
  rcases h with ⟨before, w, after, hqueue, hblock, hdata, hw, hafter⟩ | ⟨hdisk, hqueue⟩
  · cases before with
    | nil =>
        obtain ⟨rfl, rfl⟩ := List.cons.inj hqueue
        subst hblock hdata
        exact .inr ⟨onDisk_writeBytes _ _ _, hafter⟩
    | cons x before =>
        obtain ⟨rfl, rfl⟩ := List.cons.inj hqueue
        exact .inl ⟨before, w, after, rfl, hblock, hdata, hw, hafter⟩
  · rw [List.forall_mem_cons] at hqueue
    exact .inr ⟨hdisk.write hqueue.1, hqueue.2⟩

theorem Lands.truncate (h : Lands tag [] disk start data) {bytes : ℕ}
    (hle : start + data.length ≤ bytes) : Lands tag [] (ftruncate disk bytes) start data := by
  rcases h with ⟨before, w, after, hqueue, -⟩ | ⟨hdisk, hqueue⟩
  · exact absurd hqueue.symm (List.append_ne_nil_of_right_ne_nil _ (List.cons_ne_nil _ _))
  · exact .inr ⟨hdisk.truncate hle, hqueue⟩

/-! ## What a step does to the fragments -/

namespace Pipeline

/-- The variables that say where the data of the fragments is. -/
structure Store where
  fragLockedList : List FragLocked
  fragmentTable : ℕ → Option FragmentEntry
  fragments : ℕ
  fragmentData : List UInt8
  contents : ℕ → List UInt8
  toFrag : List (ℕ × List UInt8)
  deflators : List FragDeflator
  toWriter : List WriteBuffer
  writer : WriterThread
  disk : ℕ → Option UInt8

def store (s : Pipeline) : Store :=
  ⟨s.fragLockedList, s.fragmentTable, s.fragments, s.fragmentData, s.contents, s.toFrag, s.deflators,
    s.toWriter, s.writer, s.disk⟩

variable {env : PipelineEnv} {s t : Pipeline} {l : PipelineStep} {m : MainThread} {file : OpenFile}

end Pipeline

end FirmwareTools.Squashfs

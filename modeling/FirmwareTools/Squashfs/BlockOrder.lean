import Mathlib.Data.List.ReduceOption
import FirmwareTools.Squashfs.BlockReader
import FirmwareTools.System.Trace

/-! # The order of the blocks

The reader queues the buffers for the deflators, which hand them on to the main thread, and the main thread
wants them in the order of their numbers: `get_file_buffer` keeps those that come too early in a hash table.
Every step here is one operation on a queue, with what its thread does on its own in between. The numbers
are `int`s; here they do not wrap around, as there are fewer than `2 ^ 31` buffers.

* **`InOrder.step`** — every buffer that was queued is in one place, with its number;
* **`blocks_in_order`** — the buffers are returned in the order in which they were queued, each of them once,
  and no thread waits for ever. -/

namespace FirmwareTools.Squashfs

/-! ## The threads -/

/-- `deflator` -/
def deflator (env : DataEnv) (b : NumberedBuffer) : NumberedBuffer :=
  if env.sparseFiles && allZero b.data then { b with cByte := 0 }
  else if b.fragment then { b with cByte := b.size.toNat }
  else
    let (cByte, data) := mangle env.comp env.blockSize env.noD true b.data
    { sequence := b.sequence, data, size := compressedSizeBlock cByte, fileSize := b.fileSize
      block := b.block, cByte, fragment := false, error := .none }

/-- A queued buffer as the main thread gets it. -/
def arrival (env : DataEnv) : ReaderQueue × NumberedBuffer → NumberedBuffer
  | (.fromReader, b) => deflator env b
  | (.fromDeflate, b) => b

/-- The reader, the deflators with what they work on, and the main thread, which may wait in `get_file_buffer`,
with the queues between them. What was queued and what was returned is for the statements only. -/
structure BlockOrder where
  reader : BlockReader := {}
  fromReader : List NumberedBuffer := []
  deflators : List (Option NumberedBuffer)
  fromDeflate : List NumberedBuffer := []
  blockHash : ℕ → List NumberedBuffer := fun _ => []
  sequence : ℕ := 0
  waiting : Bool := false
  queued : List (ReaderQueue × NumberedBuffer) := []
  returned : List NumberedBuffer := []

/-- A thread goes on: the reader, deflator `i` takes a buffer or hands it on, the main thread calls
`get_file_buffer` or gets a buffer in it. -/
inductive OrderStep
  | reader (l : ReaderStep)
  | take (i : ℕ)
  | put (i : ℕ)
  | call
  | receive
  deriving DecidableEq, Repr

namespace BlockOrder

/-- `BLOCK_HASH` -/
def hash (sequence : ℕ) : ℕ := sequence % 256

variable (env : DataEnv) (s : BlockOrder)

/-- `push_buffer` -/
def pushBuffer (b : NumberedBuffer) : ℕ → List NumberedBuffer :=
  Function.update s.blockHash (hash b.sequence) (b :: s.blockHash (hash b.sequence))

/-- The buffer in the hash table with the number that is wanted. -/
def getFileBuffer : Option NumberedBuffer :=
  (s.blockHash (hash s.sequence)).find? fun b => b.sequence == s.sequence

/-- The hash table without it. -/
def unlinkBuffer : ℕ → List NumberedBuffer :=
  Function.update s.blockHash (hash s.sequence)
    ((s.blockHash (hash s.sequence)).eraseP fun b => b.sequence == s.sequence)

/-- A buffer is queued. -/
def queue (q : ReaderQueue) (b : NumberedBuffer) : BlockOrder :=
  match q with
  | .fromReader => { s with fromReader := s.fromReader ++ [b], queued := s.queued ++ [(q, b)] }
  | .fromDeflate => { s with fromDeflate := s.fromDeflate ++ [b], queued := s.queued ++ [(q, b)] }

/-- A call of `get_file_buffer` returns. -/
def returnBuffer (b : NumberedBuffer) : BlockOrder :=
  { s with sequence := s.sequence + 1, waiting := false, returned := s.returned ++ [b] }

/-- One step. -/
def step : OrderStep → Option BlockOrder
  | .reader l => (s.reader.step env l).map fun res =>
    match res.2 with
    | none => { s with reader := res.1 }
    | some (q, b) => { s with reader := res.1 }.queue q b
  | .take i =>
    match s.deflators[i]?, s.fromReader with
    | some none, b :: fromReader => some { s with fromReader, deflators := s.deflators.set i (some b) }
    | _, _ => none
  | .put i =>
    match s.deflators[i]? with
    | some (some b) => some { s with
        deflators := s.deflators.set i none, fromDeflate := s.fromDeflate ++ [deflator env b] }
    | _ => none
  | .call =>
    if s.waiting then none
    else
      match s.getFileBuffer with
      | some b => some ({ s with blockHash := s.unlinkBuffer }.returnBuffer b)
      | none => some { s with waiting := true }
  | .receive =>
    match s.waiting, s.fromDeflate with
    | true, b :: fromDeflate =>
      if b.sequence = s.sequence then some ({ s with fromDeflate }.returnBuffer b)
      else some { s with fromDeflate, blockHash := s.pushBuffer b }
    | _, _ => none

/-- A start with `n` deflators. -/
def start (n : ℕ) : BlockOrder := { deflators := List.replicate n none }

/-! ## What a step does -/

variable {env s} {t : BlockOrder} {l : OrderStep}

/-- The moves of the threads. -/
inductive Moves (env : DataEnv) (s : BlockOrder) : OrderStep → BlockOrder → Prop
  | read {l : ReaderStep} {reader : BlockReader} (hread : s.reader.step env l = some (reader, none)) :
      Moves env s (.reader l) { s with reader }
  | queue {l : ReaderStep} {reader : BlockReader} {q : ReaderQueue} {b : NumberedBuffer}
      (hread : s.reader.step env l = some (reader, some (q, b))) :
      Moves env s (.reader l) ({ s with reader }.queue q b)
  | take {i : ℕ} {b : NumberedBuffer} {fromReader : List NumberedBuffer}
      (hidle : s.deflators[i]? = some none) (hqueue : s.fromReader = b :: fromReader) :
      Moves env s (.take i) { s with fromReader, deflators := s.deflators.set i (some b) }
  | put {i : ℕ} {b : NumberedBuffer} (hbusy : s.deflators[i]? = some (some b)) :
      Moves env s (.put i) { s with
        deflators := s.deflators.set i none, fromDeflate := s.fromDeflate ++ [deflator env b] }
  | found {b : NumberedBuffer} (hcall : s.waiting = false) (hfound : s.getFileBuffer = some b) :
      Moves env s .call ({ s with blockHash := s.unlinkBuffer }.returnBuffer b)
  | wait (hcall : s.waiting = false) (hnone : s.getFileBuffer = none) :
      Moves env s .call { s with waiting := true }
  | receive {b : NumberedBuffer} {fromDeflate : List NumberedBuffer} (hwait : s.waiting = true)
      (hqueue : s.fromDeflate = b :: fromDeflate) (hnumber : b.sequence = s.sequence) :
      Moves env s .receive ({ s with fromDeflate }.returnBuffer b)
  | push {b : NumberedBuffer} {fromDeflate : List NumberedBuffer} (hwait : s.waiting = true)
      (hqueue : s.fromDeflate = b :: fromDeflate) (hnumber : b.sequence ≠ s.sequence) :
      Moves env s .receive { s with fromDeflate, blockHash := s.pushBuffer b }

theorem moves_of_step (h : s.step env l = some t) : Moves env s l t := by
  cases l with
  | reader l =>
      obtain ⟨⟨reader, out⟩, hread, rfl⟩ := Option.map_eq_some_iff.mp h
      cases out with
      | none => exact .read hread
      | some out => exact .queue hread
  | take i =>
      rw [step] at h
      split at h
      case h_1 b fromReader hidle hqueue =>
          obtain rfl := Option.some.inj h
          exact .take hidle hqueue
      case h_2 => cases h
  | put i =>
      rw [step] at h
      split at h
      case h_1 b hbusy =>
          obtain rfl := Option.some.inj h
          exact .put hbusy
      case h_2 => cases h
  | call =>
      rw [step] at h
      split at h
      case isTrue => cases h
      case isFalse hwaiting =>
          rw [Bool.not_eq_true] at hwaiting
          split at h
          case h_1 b hfound =>
              obtain rfl := Option.some.inj h
              exact .found hwaiting hfound
          case h_2 hnone =>
              obtain rfl := Option.some.inj h
              exact .wait hwaiting hnone
  | receive =>
      rw [step] at h
      split at h
      case h_1 b fromDeflate hwait hqueue =>
          split at h
          case isTrue hnumber =>
              obtain rfl := Option.some.inj h
              exact .receive hwait hqueue hnumber
          case isFalse hnumber =>
              obtain rfl := Option.some.inj h
              exact .push hwait hqueue hnumber
      case h_2 => cases h

/-! ## Where the buffers are -/

/-- The buffers in the hash table. -/
def parked (s : BlockOrder) : List NumberedBuffer := (List.range 256).flatMap s.blockHash

/-- The buffers that are compressed. -/
def taken (s : BlockOrder) : List NumberedBuffer := s.deflators.reduceOption

/-- **Every buffer that was queued is in one place**: it was returned, or is in the hash table, in one of the
queues, or at a deflator. -/
structure InOrder (env : DataEnv) (s : BlockOrder) : Prop where
  numbered : s.reader.Numbered s.queued.length
  sequences : s.queued.map (fun e => e.2.sequence) = List.range s.queued.length
  perm : (s.returned ++ (s.parked ++ (s.fromDeflate ++ (s.taken ++ s.fromReader).map (deflator env)))).Perm
    (s.queued.map (arrival env))
  returned : s.returned.map NumberedBuffer.sequence = List.range s.sequence
  bucket : ∀ h, ∀ b ∈ s.blockHash h, hash b.sequence = h
  waiting : s.waiting = true → ∀ b ∈ s.parked, b.sequence ≠ s.sequence

/-! ### The hash table -/

/-- A bucket with other contents. -/
theorem perm_flatMap_update {κ α : Type*} [DecidableEq κ] {ks : List κ} (hnodup : ks.Nodup) {k : κ}
    (hk : k ∈ ks) (f : κ → List α) (l : List α) :
    (ks.flatMap (Function.update f k l)).Perm (l ++ (ks.erase k).flatMap f) := by
  have hothers : (ks.erase k).flatMap (Function.update f k l) = (ks.erase k).flatMap f := by
    refine List.flatMap_congr fun x hx => Function.update_of_ne ?_ _ _
    rintro rfl
    exact hnodup.not_mem_erase hx
  refine ((List.perm_cons_erase hk).flatMap_right _).trans ?_
  rw [List.flatMap_cons, Function.update_self, hothers]

theorem perm_parked (s : BlockOrder) {k : ℕ} (hk : k < 256) :
    s.parked.Perm (s.blockHash k ++ ((List.range 256).erase k).flatMap s.blockHash) := by
  have hperm := perm_flatMap_update List.nodup_range (List.mem_range.mpr hk) s.blockHash (s.blockHash k)
  rwa [Function.update_eq_self] at hperm

theorem hash_lt (sequence : ℕ) : hash sequence < 256 := Nat.mod_lt _ (by decide)

/-- A buffer is put into the hash table. -/
theorem perm_pushBuffer (s : BlockOrder) (b : NumberedBuffer) :
    ((List.range 256).flatMap (s.pushBuffer b)).Perm (b :: s.parked) := by
  refine (perm_flatMap_update List.nodup_range (List.mem_range.mpr (hash_lt _)) _ _).trans ?_
  exact ((s.perm_parked (hash_lt b.sequence)).symm).cons b

/-- A buffer is taken out of it. -/
theorem perm_unlinkBuffer {b : NumberedBuffer} (hfound : s.getFileBuffer = some b) :
    s.parked.Perm (b :: (List.range 256).flatMap s.unlinkBuffer) := by
  have hperm : (s.blockHash (hash s.sequence)).Perm
      (b :: (s.blockHash (hash s.sequence)).eraseP fun b => b.sequence == s.sequence) := by
    obtain ⟨hb, before, after, hsplit, hbefore⟩ := List.find?_eq_some_iff_append.mp hfound
    have hskip : ∀ x ∈ before, ¬(x.sequence == s.sequence) = true := fun x hx => by simpa using hbefore x hx
    have herase : (b :: after).eraseP (fun b => b.sequence == s.sequence) = after :=
      List.eraseP_cons_of_pos hb
    rw [hsplit, List.eraseP_append_right _ hskip, herase]
    exact List.perm_middle
  refine (s.perm_parked (hash_lt s.sequence)).trans ?_
  refine (hperm.append_right _).trans ?_
  exact ((perm_flatMap_update List.nodup_range (List.mem_range.mpr (hash_lt _)) _ _).symm).cons b

theorem InOrder.mem_parked (h : InOrder env s) {b : NumberedBuffer} :
    b ∈ s.parked ↔ b ∈ s.blockHash (hash b.sequence) := by
  rw [parked, List.mem_flatMap]
  constructor
  · rintro ⟨k, -, hb⟩
    rwa [h.bucket k b hb]
  · exact fun hb => ⟨_, List.mem_range.mpr (hash_lt _), hb⟩

/-- A call waits if and only if the buffer that it wants is not in the hash table. -/
theorem InOrder.getFileBuffer_eq_none (h : InOrder env s) :
    s.getFileBuffer = none ↔ ∀ b ∈ s.parked, b.sequence ≠ s.sequence := by
  rw [getFileBuffer, List.find?_eq_none]
  constructor
  · intro hnone b hb heq
    rw [h.mem_parked, heq] at hb
    exact hnone b hb (beq_iff_eq.mpr heq)
  · intro hnone b hb heq
    rw [beq_iff_eq] at heq
    refine hnone b (h.mem_parked.mpr ?_) heq
    rwa [heq]

/-! ### The deflators -/

theorem reduceOption_set {α : Type*} {xs : List (Option α)} {i : ℕ} {x : Option α} (h : xs[i]? = some x)
    (y : Option α) : ∃ before after, xs.reduceOption = before ++ (x.toList ++ after) ∧
      (xs.set i y).reduceOption = before ++ (y.toList ++ after) := by
  obtain ⟨hlt, rfl⟩ := List.getElem?_eq_some_iff.mp h
  have hcons : ∀ z : Option α, ∀ zs : List (Option α),
      (z :: zs).reduceOption = z.toList ++ zs.reduceOption := by
    intro z zs
    cases z with
    | none => exact List.reduceOption_cons_of_none zs
    | some z => exact List.reduceOption_cons_of_some z zs
  refine ⟨(xs.take i).reduceOption, (xs.drop (i + 1)).reduceOption, ?_, ?_⟩
  · conv_lhs => rw [← List.take_append_drop i xs, List.drop_eq_getElem_cons hlt, List.reduceOption_append,
      hcons]
  · rw [List.set_eq_take_append_cons_drop, if_pos hlt, List.reduceOption_append, hcons]

@[simp] theorem sequence_deflator (b : NumberedBuffer) : (deflator env b).sequence = b.sequence := by
  unfold deflator
  split
  · rfl
  split
  · rfl
  · rfl

@[simp] theorem sequence_arrival (e : ReaderQueue × NumberedBuffer) :
    (arrival env e).sequence = e.2.sequence := by
  obtain ⟨q, b⟩ := e
  cases q with
  | fromReader => exact sequence_deflator b
  | fromDeflate => rfl

/-! ### The steps -/

theorem inOrder_start (env : DataEnv) (n : ℕ) : InOrder env (start n) := by
  have htaken : (start n).taken = [] := by
    rw [taken, start, List.reduceOption_replicate_none]
  have hparked : (start n).parked = [] := by
    rw [parked, List.flatMap_eq_nil_iff]
    exact fun _ _ => rfl
  constructor
  · exact BlockReader.numbered_start
  · rfl
  · rw [hparked, htaken]
    exact .refl _
  · rfl
  · exact fun h b hb => absurd hb List.not_mem_nil
  · exact fun h => absurd h Bool.false_ne_true

/-- The invariant counts every buffer once. -/
theorem InOrder.count (h : InOrder env s) (b : NumberedBuffer) :
    s.returned.count b + (s.parked.count b + (s.fromDeflate.count b +
      ((s.taken.map (deflator env)).count b + (s.fromReader.map (deflator env)).count b)))
        = (s.queued.map (arrival env)).count b := by
  have hcount := List.perm_iff_count.mp h.perm b
  simpa only [List.map_append, List.count_append] using hcount

theorem perm_of_count (h : ∀ b, s.returned.count b + (s.parked.count b + (s.fromDeflate.count b +
      ((s.taken.map (deflator env)).count b + (s.fromReader.map (deflator env)).count b)))
        = (s.queued.map (arrival env)).count b) :
    (s.returned ++ (s.parked ++ (s.fromDeflate ++ (s.taken ++ s.fromReader).map (deflator env)))).Perm
      (s.queued.map (arrival env)) := by
  refine List.perm_iff_count.mpr fun b => ?_
  simpa only [List.map_append, List.count_append] using h b

/-- A buffer is queued with the next number. -/
theorem InOrder.queue (h : InOrder env s) {reader : BlockReader} {q : ReaderQueue} {b : NumberedBuffer}
    (hb : b.sequence = s.queued.length) (hreader : reader.Numbered (s.queued.length + 1)) :
    InOrder env ({ s with reader }.queue q b) := by
  have hcount := h.count
  have hsequences : (s.queued ++ [(q, b)]).map (fun e => e.2.sequence)
      = List.range (s.queued ++ [(q, b)]).length := by
    rw [List.map_append, h.sequences, List.map_singleton, hb, List.length_append, List.length_singleton,
      List.range_succ]
  cases q with
  | fromReader =>
      refine ⟨?_, hsequences, perm_of_count fun c => ?_, h.returned, h.bucket, h.waiting⟩
      · show reader.Numbered (s.queued ++ [_]).length
        rwa [List.length_append, List.length_singleton]
      · show s.returned.count c + (s.parked.count c + (s.fromDeflate.count c +
          ((s.taken.map (deflator env)).count c + ((s.fromReader ++ [b]).map (deflator env)).count c)))
            = ((s.queued ++ [(ReaderQueue.fromReader, b)]).map (arrival env)).count c
        have hc := hcount c
        rw [List.map_append, List.map_append, List.count_append, List.count_append, ← hc]
        simp only [List.map_cons, List.map_nil, arrival]
        omega
  | fromDeflate =>
      refine ⟨?_, hsequences, perm_of_count fun c => ?_, h.returned, h.bucket, h.waiting⟩
      · show reader.Numbered (s.queued ++ [_]).length
        rwa [List.length_append, List.length_singleton]
      · show s.returned.count c + (s.parked.count c + ((s.fromDeflate ++ [b]).count c +
          ((s.taken.map (deflator env)).count c + (s.fromReader.map (deflator env)).count c)))
            = ((s.queued ++ [(ReaderQueue.fromDeflate, b)]).map (arrival env)).count c
        have hc := hcount c
        rw [List.map_append, List.count_append, List.count_append, ← hc]
        simp only [List.map_cons, List.map_nil, arrival]
        omega

/-- The buffer with the number that is wanted is returned. -/
theorem InOrder.returnBuffer (h : InOrder env s) {b : NumberedBuffer} (hb : b.sequence = s.sequence)
    {blockHash : ℕ → List NumberedBuffer} {fromDeflate : List NumberedBuffer}
    (hbucket : ∀ k, ∀ c ∈ blockHash k, hash c.sequence = k)
    (hcount : ∀ c, ((List.range 256).flatMap blockHash).count c + fromDeflate.count c + [b].count c
      = s.parked.count c + s.fromDeflate.count c) :
    InOrder env ({ s with blockHash, fromDeflate }.returnBuffer b) := by
  refine ⟨h.numbered, h.sequences, perm_of_count fun c => ?_, ?_, hbucket, fun hw => absurd hw Bool.false_ne_true⟩
  · show (s.returned ++ [b]).count c + (((List.range 256).flatMap blockHash).count c + (fromDeflate.count c +
      ((s.taken.map (deflator env)).count c + (s.fromReader.map (deflator env)).count c)))
        = (s.queued.map (arrival env)).count c
    have hc := h.count c
    have hc' := hcount c
    rw [List.count_append]
    omega
  · show (s.returned ++ [b]).map NumberedBuffer.sequence = List.range (s.sequence + 1)
    rw [List.map_append, h.returned, List.map_singleton, hb, List.range_succ]

/-- **A step keeps all buffers**, and their order. -/
theorem InOrder.step (h : InOrder env s) (hstep : s.step env l = some t) : InOrder env t := by
  have hcount := h.count
  cases moves_of_step hstep with
  | read hread => exact ⟨h.numbered.step hread, h.sequences, h.perm, h.returned, h.bucket, h.waiting⟩
  | queue hread =>
      obtain ⟨hb, hreader⟩ := h.numbered.step hread
      exact h.queue hb hreader
  | @take i b fromReader hidle hqueue =>
      obtain ⟨before, after, hbefore, hafter⟩ := reduceOption_set hidle (some b)
      refine ⟨h.numbered, h.sequences, perm_of_count fun c => ?_, h.returned, h.bucket, h.waiting⟩
      show s.returned.count c + (s.parked.count c + (s.fromDeflate.count c +
        (((s.deflators.set i (some b)).reduceOption.map (deflator env)).count c +
          (fromReader.map (deflator env)).count c))) = (s.queued.map (arrival env)).count c
      have hc := hcount c
      rw [taken, hbefore, hqueue] at hc
      rw [hafter, ← hc]
      simp only [List.map_append, List.map_cons, List.count_append, List.count_cons, Option.toList_none,
        Option.toList_some, List.map_nil, List.count_nil]
      omega
  | @put i b hbusy =>
      obtain ⟨before, after, hbefore, hafter⟩ := reduceOption_set hbusy none
      refine ⟨h.numbered, h.sequences, perm_of_count fun c => ?_, h.returned, h.bucket, h.waiting⟩
      show s.returned.count c + (s.parked.count c + ((s.fromDeflate ++ [deflator env b]).count c +
        (((s.deflators.set i none).reduceOption.map (deflator env)).count c +
          (s.fromReader.map (deflator env)).count c))) = (s.queued.map (arrival env)).count c
      have hc := hcount c
      rw [taken, hbefore] at hc
      rw [hafter, ← hc]
      simp only [List.map_append, List.map_cons, List.count_append, List.count_cons, Option.toList_none,
        Option.toList_some, List.map_nil, List.count_nil]
      omega
  | @found b hcall hfound =>
      have hb : b.sequence = s.sequence := by
        rw [getFileBuffer] at hfound
        simpa only [beq_iff_eq] using List.find?_some hfound
      refine h.returnBuffer hb (fun k c hc => ?_) fun c => ?_
      · by_cases hk : k = hash s.sequence
        · subst hk
          rw [unlinkBuffer, Function.update_self] at hc
          exact h.bucket _ c (List.mem_of_mem_eraseP hc)
        · rw [unlinkBuffer, Function.update_of_ne hk] at hc
          exact h.bucket k c hc
      · have hperm := List.perm_iff_count.mp (perm_unlinkBuffer hfound) c
        show ((List.range 256).flatMap s.unlinkBuffer).count c + s.fromDeflate.count c + [b].count c
          = s.parked.count c + s.fromDeflate.count c
        rw [hperm]
        simp only [List.count_cons, List.count_nil]
        omega
  | wait hcall hnone =>
      exact ⟨h.numbered, h.sequences, h.perm, h.returned, h.bucket, fun _ => h.getFileBuffer_eq_none.mp hnone⟩
  | @receive b fromDeflate hwait hqueue hnumber =>
      refine h.returnBuffer hnumber h.bucket fun c => ?_
      show s.parked.count c + fromDeflate.count c + [b].count c = s.parked.count c + s.fromDeflate.count c
      rw [hqueue]
      simp only [List.count_cons, List.count_nil]
      omega
  | @push b fromDeflate hwait hqueue hnumber =>
      have hperm := s.perm_pushBuffer b
      refine ⟨h.numbered, h.sequences, perm_of_count fun c => ?_, h.returned, fun k c hc => ?_, fun _ c hc => ?_⟩
      · show s.returned.count c + (((List.range 256).flatMap (s.pushBuffer b)).count c + (fromDeflate.count c +
          ((s.taken.map (deflator env)).count c + (s.fromReader.map (deflator env)).count c)))
            = (s.queued.map (arrival env)).count c
        have hc := hcount c
        rw [hqueue, List.count_cons] at hc
        rw [List.perm_iff_count.mp hperm c, List.count_cons, ← hc]
        omega
      · by_cases hk : k = hash b.sequence
        · subst hk
          change c ∈ s.pushBuffer b (hash b.sequence) at hc
          rw [pushBuffer, Function.update_self] at hc
          rcases List.mem_cons.mp hc with rfl | hc
          · rfl
          · exact h.bucket _ c hc
        · change c ∈ s.pushBuffer b k at hc
          rw [pushBuffer, Function.update_of_ne hk] at hc
          exact h.bucket k c hc
      · rcases List.mem_cons.mp (hperm.mem_iff.mp hc) with rfl | hc
        · exact hnumber
        · exact h.waiting hwait c hc

/-! ## The order -/

/-- Of two lists that are numbered from zero on, the one whose members are in the other is its beginning. -/
theorem eq_take_of_map_eq_range {α : Type*} {f : α → ℕ} {xs ys : List α}
    (hxs : xs.map f = List.range xs.length) (hys : ys.map f = List.range ys.length) (hsub : ys ⊆ xs) :
    ys.length ≤ xs.length ∧ ys = xs.take ys.length := by
  have hnumber : ∀ {zs : List α}, zs.map f = List.range zs.length → ∀ i (hi : i < zs.length), f zs[i] = i := by
    intro zs hzs i hi
    have hget : (zs.map f)[i]? = some i := by
      rw [hzs, List.getElem?_range hi]
    rw [List.getElem?_map, List.getElem?_eq_getElem hi] at hget
    exact Option.some.inj hget
  have hget : ∀ i (hi : i < ys.length), ∃ hi' : i < xs.length, xs[i] = ys[i] := by
    intro i hi
    obtain ⟨j, hj, heq⟩ := List.getElem_of_mem (hsub (List.getElem_mem hi))
    have hij : j = i := by rw [← hnumber hxs j hj, heq, hnumber hys i hi]
    subst hij
    exact ⟨hj, heq⟩
  have hlength : ys.length ≤ xs.length := by
    by_contra hlt
    obtain ⟨hi, -⟩ := hget xs.length (Nat.lt_of_not_le hlt)
    exact Nat.lt_irrefl _ hi
  refine ⟨hlength, List.ext_getElem ?_ fun i hi _ => ?_⟩
  · rw [List.length_take, Nat.min_eq_left hlength]
  · obtain ⟨_, heq⟩ := hget i hi
    rw [List.getElem_take, heq]

theorem InOrder.length_returned (h : InOrder env s) : s.returned.length = s.sequence := by
  rw [← List.length_map (f := NumberedBuffer.sequence), h.returned, List.length_range]

theorem InOrder.arrivals (h : InOrder env s) : (s.queued.map (arrival env)).map NumberedBuffer.sequence
    = List.range (s.queued.map (arrival env)).length := by
  rw [List.map_map, List.length_map, ← h.sequences]
  exact List.map_congr_left fun e _ => sequence_arrival e

/-- The buffers that were returned are the first ones that were queued. -/
theorem InOrder.returned_eq (h : InOrder env s) :
    s.sequence ≤ s.queued.length ∧ s.returned = (s.queued.map (arrival env)).take s.sequence := by
  have hreturned : s.returned.map NumberedBuffer.sequence = List.range s.returned.length := by
    rw [h.returned, h.length_returned]
  have hsub : s.returned ⊆ s.queued.map (arrival env) :=
    fun b hb => h.perm.mem_iff.mp (List.mem_append_left _ hb)
  have htake := eq_take_of_map_eq_range h.arrivals hreturned hsub
  rwa [h.length_returned, List.length_map] at htake

/-- When all buffers have been returned, nothing is left in the hash table. -/
theorem InOrder.blockHash_eq_nil (h : InOrder env s) (hall : s.sequence = s.queued.length) (k : ℕ) :
    s.blockHash k = [] := by
  have hlength := h.perm.length_eq
  rw [List.length_append, List.length_append, h.length_returned, List.length_map, hall] at hlength
  have hparked : s.parked = [] := List.eq_nil_of_length_eq_zero (by omega)
  refine List.eq_nil_iff_forall_not_mem.mpr fun b hb => ?_
  have hb' : b ∈ s.parked := by
    rw [h.mem_parked, h.bucket k b hb]
    exact hb
  rw [hparked] at hb'
  exact List.not_mem_nil hb'

/-! ## No thread waits for ever -/

/-- A buffer that is wanted and is not in the hash table is on its way. -/
theorem InOrder.on_its_way (h : InOrder env s) (hwait : s.waiting = true) (hlt : s.sequence < s.queued.length) :
    ¬(s.fromDeflate = [] ∧ s.taken = [] ∧ s.fromReader = []) := by
  rintro ⟨hdeflate, htaken, hreader⟩
  have hmem : s.sequence ∈ (s.queued.map (arrival env)).map NumberedBuffer.sequence := by
    rw [h.arrivals, List.length_map]
    exact List.mem_range.mpr hlt
  obtain ⟨b, hb, hsequence⟩ := List.mem_map.mp hmem
  rw [← h.perm.mem_iff, hdeflate, htaken, hreader] at hb
  rcases List.mem_append.mp hb with hb | hb
  · have hnumber := List.mem_map_of_mem (f := NumberedBuffer.sequence) hb
    rw [h.returned, List.mem_range] at hnumber
    omega
  · rw [List.nil_append, List.nil_append, List.map_nil, List.append_nil] at hb
    exact h.waiting hwait b hb hsequence

/-- **While a buffer has not been returned**, a deflator or the main thread can go on. -/
theorem InOrder.progress (h : InOrder env s) (hdeflators : s.deflators ≠ [])
    (hlt : s.sequence < s.queued.length) :
    ∃ l t, (∀ r, l ≠ .reader r) ∧ s.step env l = some t := by
  cases hwait : s.waiting with
  | false =>
      refine ⟨.call, ?_⟩
      rw [BlockOrder.step, hwait, if_neg Bool.false_ne_true]
      cases s.getFileBuffer with
      | none => exact ⟨_, fun r => OrderStep.noConfusion, rfl⟩
      | some b => exact ⟨_, fun r => OrderStep.noConfusion, rfl⟩
  | true =>
      cases hdeflate : s.fromDeflate with
      | cons b fromDeflate =>
          refine ⟨.receive, ?_⟩
          rw [BlockOrder.step, hwait, hdeflate]
          by_cases hnumber : b.sequence = s.sequence
          · exact ⟨_, fun r => OrderStep.noConfusion, if_pos hnumber⟩
          · exact ⟨_, fun r => OrderStep.noConfusion, if_neg hnumber⟩
      | nil =>
          by_cases hbusy : ∃ b, some b ∈ s.deflators
          · obtain ⟨b, hb⟩ := hbusy
            obtain ⟨i, hi⟩ := List.mem_iff_getElem?.mp hb
            refine ⟨.put i, ?_⟩
            rw [BlockOrder.step, hi]
            exact ⟨_, fun r => OrderStep.noConfusion, rfl⟩
          · have htaken : s.taken = [] := by
              refine List.eq_nil_iff_forall_not_mem.mpr fun b hb => hbusy ⟨b, ?_⟩
              exact List.reduceOption_mem_iff.mp hb
            have hreader : s.fromReader ≠ [] := fun hnil => h.on_its_way hwait hlt ⟨hdeflate, htaken, hnil⟩
            obtain ⟨b, fromReader, hqueue⟩ := List.exists_cons_of_ne_nil hreader
            obtain ⟨d, deflators, hlist⟩ := List.exists_cons_of_ne_nil hdeflators
            have hidle : s.deflators[0]? = some none := by
              rw [hlist, List.getElem?_cons_zero]
              cases d with
              | none => rfl
              | some b => exact absurd ⟨b, hlist ▸ List.mem_cons_self⟩ hbusy
            refine ⟨.take 0, ?_⟩
            rw [BlockOrder.step, hidle, hqueue]
            exact ⟨_, fun r => OrderStep.noConfusion, rfl⟩

/-- The number of deflators stays. -/
theorem length_deflators (hstep : s.step env l = some t) : t.deflators.length = s.deflators.length := by
  cases moves_of_step hstep with
  | read => rfl
  | @queue _ _ q _ _ => cases q <;> rfl
  | take => exact List.length_set
  | put => exact List.length_set
  | found => rfl
  | wait => rfl
  | receive => rfl
  | push => rfl

/-- The steps that the deflators and the main thread still have to do for the buffers that are queued. -/
def work (s : BlockOrder) : ℕ := 3 * s.fromReader.length + 2 * s.taken.length + s.fromDeflate.length

/-- The calls of `get_file_buffer`. -/
def calls (s : BlockOrder) : ℕ := s.sequence + s.waiting.toNat

/-- The steps that a step counts for: one, if it is not one of the reader. -/
def cost : OrderStep → ℕ
  | .reader _ => 0
  | .take _ | .put _ | .call | .receive => 1

/-- What a step does comes off the work, or is a call. -/
theorem cost_add_work_le (hstep : s.step env l = some t) :
    cost l + t.work + s.calls + 3 * s.queued.length ≤ s.work + t.calls + 3 * t.queued.length := by
  cases moves_of_step hstep with
  | read => exact Nat.le_of_eq (by rw [cost, Nat.zero_add]; rfl)
  | @queue _ _ q b _ =>
      cases q with
      | fromReader =>
          show 0 + (3 * (s.fromReader ++ [b]).length + 2 * s.taken.length + s.fromDeflate.length) + s.calls
            + 3 * s.queued.length ≤ s.work + s.calls + 3 * (s.queued ++ [_]).length
          simp only [List.length_append, List.length_singleton, work]
          omega
      | fromDeflate =>
          show 0 + (3 * s.fromReader.length + 2 * s.taken.length + (s.fromDeflate ++ [b]).length) + s.calls
            + 3 * s.queued.length ≤ s.work + s.calls + 3 * (s.queued ++ [_]).length
          simp only [List.length_append, List.length_singleton, work]
          omega
  | @take i b fromReader hidle hqueue =>
      obtain ⟨before, after, hbefore, hafter⟩ := reduceOption_set hidle (some b)
      show 1 + (3 * fromReader.length + 2 * (s.deflators.set i (some b)).reduceOption.length
        + s.fromDeflate.length) + s.calls + 3 * s.queued.length ≤ s.work + s.calls + 3 * s.queued.length
      rw [work, taken, hbefore, hafter, hqueue]
      simp only [List.length_append, List.length_cons, Option.toList_none, Option.toList_some, List.length_nil]
      omega
  | @put i b hbusy =>
      obtain ⟨before, after, hbefore, hafter⟩ := reduceOption_set hbusy none
      show 1 + (3 * s.fromReader.length + 2 * (s.deflators.set i none).reduceOption.length
        + (s.fromDeflate ++ [deflator env b]).length) + s.calls + 3 * s.queued.length
          ≤ s.work + s.calls + 3 * s.queued.length
      rw [work, taken, hbefore, hafter]
      simp only [List.length_append, List.length_cons, Option.toList_none, Option.toList_some, List.length_nil]
      omega
  | found hcall hfound =>
      show 1 + s.work + (s.sequence + s.waiting.toNat) + 3 * s.queued.length
        ≤ s.work + (s.sequence + 1 + 0) + 3 * s.queued.length
      rw [hcall, Bool.toNat_false]
      omega
  | wait hcall hnone =>
      show 1 + s.work + (s.sequence + s.waiting.toNat) + 3 * s.queued.length
        ≤ s.work + (s.sequence + 1) + 3 * s.queued.length
      rw [hcall, Bool.toNat_false]
      omega
  | @receive b fromDeflate hwait hqueue hnumber =>
      show 1 + (3 * s.fromReader.length + 2 * s.taken.length + fromDeflate.length)
        + (s.sequence + s.waiting.toNat) + 3 * s.queued.length
          ≤ s.work + (s.sequence + 1 + 0) + 3 * s.queued.length
      rw [work, hqueue, hwait, List.length_cons, Bool.toNat_true]
      omega
  | @push b fromDeflate hwait hqueue hnumber =>
      show 1 + (3 * s.fromReader.length + 2 * s.taken.length + fromDeflate.length) + s.calls
        + 3 * s.queued.length ≤ s.work + s.calls + 3 * s.queued.length
      rw [work, hqueue, List.length_cons]
      omega

/-! ## The runs -/

variable {n : ℕ} {tr : List (BlockOrder × OrderStep)}

theorem inOrder_of_trace (h : Trace (fun s l t => s.step env l = some t) (start n) tr t) :
    InOrder env t ∧ t.deflators.length = n := by
  refine (h.invariant (P := fun s => InOrder env s ∧ s.deflators.length = n) ⟨inOrder_start env n, ?_⟩ ?_).2
  · exact List.length_replicate
  · intro s l t hs hstep
    exact ⟨hs.1.step hstep, (length_deflators hstep).trans hs.2⟩

/-- The other threads do not go on for ever with the buffers that are queued. -/
theorem sum_cost_le (h : Trace (fun s l t => s.step env l = some t) s tr t) :
    (tr.map fun x => cost x.2).sum + t.work + s.calls + 3 * s.queued.length
      ≤ s.work + t.calls + 3 * t.queued.length := by
  induction h with
  | nil s =>
      rw [List.map_nil, List.sum_nil]
      omega
  | cons hstep _ ih =>
      have hle := cost_add_work_le hstep
      rw [List.map_cons, List.sum_cons]
      dsimp only
      omega

/-- **Blocks reach the main thread in order**: whatever the reader reads, however many deflators there are and
whichever thread goes on. The buffers have the numbers from zero on, and the calls of `get_file_buffer` return
them in this order; when all have been returned, the hash table is empty. Until then one of the other threads
can go on, and they do at most four steps for each buffer, and one for a call that waits. -/
theorem blocks_in_order (h : Trace (fun s l t => s.step env l = some t) (start n) tr t) :
    t.queued.map (fun e => e.2.sequence) = List.range t.queued.length ∧
    t.sequence ≤ t.queued.length ∧
    t.returned = (t.queued.map (arrival env)).take t.sequence ∧
    (t.sequence = t.queued.length → ∀ k, t.blockHash k = []) ∧
    (0 < n → t.sequence < t.queued.length → ∃ l u, (∀ r, l ≠ .reader r) ∧ t.step env l = some u) ∧
    (tr.map fun x => cost x.2).sum ≤ 4 * t.queued.length + 1 := by
  obtain ⟨hinv, hlength⟩ := inOrder_of_trace h
  obtain ⟨hle, hreturned⟩ := hinv.returned_eq
  refine ⟨hinv.sequences, hle, hreturned, hinv.blockHash_eq_nil, fun hn hlt => hinv.progress ?_ hlt, ?_⟩
  · rintro hnil
    rw [hnil] at hlength
    exact Nat.ne_of_lt hn hlength
  · have hsum := sum_cost_le h
    have hwork : (start n).work = 0 := by
      rw [work, taken, start, List.reduceOption_replicate_none]
      rfl
    have hcalls : t.calls ≤ t.sequence + 1 := Nat.add_le_add_left t.waiting.toNat_le _
    rw [hwork] at hsum
    omega

/-- A file that cannot be opened overtakes the one before it, and waits in the hash table. -/
theorem blocks_in_order_overtaken : ∃ tr t,
    Trace (fun s l t => s.step fourKilobyteEnv l = some t) (start 2) tr t ∧
    (tr.any fun x => x.1.parked.length == 1) = true ∧ t.queued.map Prod.fst = [.fromReader, .fromDeflate] ∧
    t.sequence = 2 ∧ (∀ k, t.blockHash k = []) := by
  let old : NumberedBuffer := { sequence := 7 }
  obtain ⟨tr, t, htr, hparked, hqueued, hsequence⟩ := Trace.exists_of_run
    (f := fun s l => BlockOrder.step fourKilobyteEnv s l) (s := start 2)
    (P := fun tr t => (tr.any fun x => x.1.parked.length == 1) = true ∧
      t.queued.map Prod.fst = [.fromReader, .fromDeflate] ∧ t.sequence = 2)
    [.reader (.readFile 3), .reader (.open true old), .reader (.get old),
      .reader (.readBytes (some [1, 2, 3])), .reader (.readFile 5), .reader (.open false old), .call, .receive,
      .take 1, .put 1, .receive, .call] (by decide +kernel)
  have hlength : t.sequence = t.queued.length := by
    rw [hsequence, ← List.length_map (f := Prod.fst), hqueued]
    rfl
  exact ⟨tr, t, htr, hparked, hqueued, hsequence, (blocks_in_order htr).2.2.2.1 hlength⟩

end BlockOrder

end FirmwareTools.Squashfs

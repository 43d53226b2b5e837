import FirmwareTools.System.RingBuffer
import FirmwareTools.System.Trace
import Mathlib.Data.List.Perm.Basic

/-! # The queues between the threads

`queue_put` and `queue_get` keep a ring of pointers under a mutex. A thread that finds the ring full or
empty sleeps on a condition variable, and each of the two functions signals the other's variable once.

Every step here is one section under the mutex: from where a thread has it to where it gives it back, in
`pthread_cond_wait` or behind the loop. Any number of threads call the functions, and a thread that is
woken up tests the condition of its loop again. A wake-up without a signal is a step too.

* **`QueueRun.Fifo.step`** — every step leaves the queue as it is, puts an element at its end, or takes the
  one at its front;
* **`queue_fifo`** — so the elements are got in the order in which they were put, each of them once;
* **`QueueRun.Awake.step`** — as many threads are about to test their loops as there is to do for those
  that sleep;
* **`queue_noLostWakeup`** — so no thread sleeps for nothing, and the functions come to an end. -/

namespace FirmwareTools.Squashfs

/-- Where a thread is. -/
inductive QueueThread (α : Type*)
  /-- Not in one of the functions; with what it has got last. -/
  | outside (got : Option α)
  /-- In `queue_put`, with the mutex to be had, before the condition of the loop. -/
  | put (data : α)
  /-- In `pthread_cond_wait (&queue->full, …)`. -/
  | waitFull (data : α)
  /-- In `queue_get`, before the condition of the loop. -/
  | get
  /-- In `pthread_cond_wait (&queue->empty, …)`. -/
  | waitEmpty
  deriving DecidableEq, Repr

namespace QueueThread

variable {α : Type*}

def isPut : QueueThread α → Bool
  | .put _ => true
  | _ => false

def isGet : QueueThread α → Bool
  | .get => true
  | _ => false

def waitsFull : QueueThread α → Bool
  | .waitFull _ => true
  | _ => false

def waitsEmpty : QueueThread α → Bool
  | .waitEmpty => true
  | _ => false

/-- A thread that sleeps wakes up, and is to get the mutex again. -/
def wake : QueueThread α → QueueThread α
  | .waitFull data => .put data
  | .waitEmpty => .get
  | t => t

end QueueThread

/-- `struct queue` with its threads, what has been put into it so far, and what has been got. -/
structure QueueRun (α : Type*) where
  ring : RingBuffer α
  threads : List (QueueThread α)
  wasPut : List α := []
  wasGot : List α := []

/-- What happens next. Of a thread's section it is told whom the signal wakes, if anybody. -/
inductive QueueStep (α : Type*)
  | callPut (i : ℕ) (data : α)
  | callGet (i : ℕ)
  | test (i : ℕ) (woken : Option ℕ)
  | spurious (i : ℕ)

/-- A section of a thread, and no call or wake-up without a signal. -/
def QueueStep.isTest {α : Type*} : QueueStep α → Bool
  | .test _ _ => true
  | _ => false

namespace QueueRun

variable {α : Type*}

/-- `pthread_cond_signal`: one of the threads that sleep on the variable wakes up, if there is one. -/
def signal (waits : QueueThread α → Bool) (woken : Option ℕ) (threads : List (QueueThread α)) :
    Option (List (QueueThread α)) :=
  match woken with
  | none => if threads.any waits then none else some threads
  | some j => if (threads[j]?).any waits then some (threads.modify j QueueThread.wake) else none

/-- The section of `queue_put`. -/
def queuePut (s : QueueRun α) (i : ℕ) (data : α) (woken : Option ℕ) : Option (QueueRun α) :=
  if s.ring.isFull then
    if woken.isSome then none else some { s with threads := s.threads.set i (.waitFull data) }
  else
    (signal QueueThread.waitsEmpty woken (s.threads.set i (.outside none))).map fun threads =>
      { s with ring := s.ring.write data, threads, wasPut := s.wasPut ++ [data] }

/-- The section of `queue_get`. -/
def queueGet (s : QueueRun α) (i : ℕ) (woken : Option ℕ) : Option (QueueRun α) :=
  if s.ring.isEmpty then
    if woken.isSome then none else some { s with threads := s.threads.set i .waitEmpty }
  else
    let data := s.ring.front
    (signal QueueThread.waitsFull woken (s.threads.set i (.outside (some data)))).map fun threads =>
      { s with ring := s.ring.advance, threads, wasGot := s.wasGot ++ [data] }

def step (s : QueueRun α) : QueueStep α → Option (QueueRun α)
  | .callPut i data =>
    match s.threads[i]? with
    | some (.outside _) => some { s with threads := s.threads.set i (.put data) }
    | _ => none
  | .callGet i =>
    match s.threads[i]? with
    | some (.outside _) => some { s with threads := s.threads.set i .get }
    | _ => none
  | .test i woken =>
    match s.threads[i]? with
    | some (.put data) => s.queuePut i data woken
    | some .get => s.queueGet i woken
    | _ => none
  | .spurious i =>
    match s.threads[i]? with
    | some (.waitFull data) => some { s with threads := s.threads.set i (.put data) }
    | some .waitEmpty => some { s with threads := s.threads.set i .get }
    | _ => none

/-- `queue_init (size)`, and `threads` threads; the array is not initialised. -/
def queueInit (size threads : ℕ) (data : ℕ → α) : QueueRun α where
  ring := .start (size + 1) data
  threads := List.replicate threads (.outside none)

/-- What a step can do. -/
inductive Does (s : QueueRun α) : QueueStep α → QueueRun α → Prop
  | callPut {i : ℕ} {got : Option α} (data : α) (hi : s.threads[i]? = some (.outside got)) :
      s.Does (.callPut i data) { s with threads := s.threads.set i (.put data) }
  | callGet {i : ℕ} {got : Option α} (hi : s.threads[i]? = some (.outside got)) :
      s.Does (.callGet i) { s with threads := s.threads.set i .get }
  | full {i : ℕ} {data : α} (hi : s.threads[i]? = some (.put data)) (hfull : s.ring.isFull = true) :
      s.Does (.test i none) { s with threads := s.threads.set i (.waitFull data) }
  | put {i : ℕ} {data : α} {woken : Option ℕ} {threads : List (QueueThread α)}
      (hi : s.threads[i]? = some (.put data)) (hroom : s.ring.isFull = false)
      (hsignal : signal QueueThread.waitsEmpty woken (s.threads.set i (.outside none)) = some threads) :
      s.Does (.test i woken)
        { s with ring := s.ring.write data, threads, wasPut := s.wasPut ++ [data] }
  | empty {i : ℕ} (hi : s.threads[i]? = some .get) (hempty : s.ring.isEmpty = true) :
      s.Does (.test i none) { s with threads := s.threads.set i .waitEmpty }
  | get {i : ℕ} {woken : Option ℕ} {threads : List (QueueThread α)}
      (hi : s.threads[i]? = some .get) (hsome : s.ring.isEmpty = false)
      (hsignal : signal QueueThread.waitsFull woken (s.threads.set i (.outside (some s.ring.front)))
        = some threads) :
      s.Does (.test i woken)
        { s with ring := s.ring.advance, threads, wasGot := s.wasGot ++ [s.ring.front] }
  | spuriousPut {i : ℕ} {data : α} (hi : s.threads[i]? = some (.waitFull data)) :
      s.Does (.spurious i) { s with threads := s.threads.set i (.put data) }
  | spuriousGet {i : ℕ} (hi : s.threads[i]? = some .waitEmpty) :
      s.Does (.spurious i) { s with threads := s.threads.set i .get }

theorem step_does {s t : QueueRun α} {l : QueueStep α} (h : s.step l = some t) : s.Does l t := by
  cases l with
  | callPut i data =>
      simp only [step] at h
      split at h
      · rename_i got hi
        cases h
        exact .callPut data hi
      · cases h
  | callGet i =>
      simp only [step] at h
      split at h
      · rename_i got hi
        cases h
        exact .callGet hi
      · cases h
  | test i woken =>
      simp only [step] at h
      split at h
      · rename_i data hi
        unfold queuePut at h
        split at h
        · rename_i hfull
          cases woken with
          | none =>
              cases h
              exact .full hi hfull
          | some j => cases h
        · rename_i hroom
          obtain ⟨threads, hsignal, rfl⟩ := Option.map_eq_some_iff.mp h
          exact .put hi (Bool.eq_false_iff.mpr hroom) hsignal
      · rename_i hi
        unfold queueGet at h
        split at h
        · rename_i hempty
          cases woken with
          | none =>
              cases h
              exact .empty hi hempty
          | some j => cases h
        · rename_i hsome
          obtain ⟨threads, hsignal, rfl⟩ := Option.map_eq_some_iff.mp h
          exact .get hi (Bool.eq_false_iff.mpr hsome) hsignal
      · cases h
  | spurious i =>
      simp only [step] at h
      split at h
      · rename_i data hi
        cases h
        exact .spuriousPut hi
      · rename_i hi
        cases h
        exact .spuriousGet hi
      · cases h

/-! ## First in, first out -/

/-- The pointers are in the array, and what has been put is what has been got and what is in the
queue. -/
structure Fifo (s : QueueRun α) : Prop where
  inRange : s.ring.InRange
  fifo : s.wasPut = s.wasGot ++ s.ring.contents

variable {s t : QueueRun α} {l : QueueStep α}

/-- The abstract queue: a step that puts `data`, that gets `data`, or one of a thread on its own. -/
inductive QueueEffect (s t : QueueRun α) : Prop
  | none (hcontents : t.ring.contents = s.ring.contents) (hput : t.wasPut = s.wasPut)
      (hgot : t.wasGot = s.wasGot)
  | put (data : α) (hroom : s.ring.contents.length + 1 < s.ring.size)
      (hcontents : t.ring.contents = s.ring.contents ++ [data]) (hput : t.wasPut = s.wasPut ++ [data])
      (hgot : t.wasGot = s.wasGot)
  | get (data : α) (hcontents : s.ring.contents = data :: t.ring.contents) (hput : t.wasPut = s.wasPut)
      (hgot : t.wasGot = s.wasGot ++ [data])

/-- **Each step** leaves the queue, puts one element at its end or takes the one at its front. -/
theorem Fifo.effect (h : s.Fifo) (hstep : s.step l = some t) :
    t.ring.InRange ∧ t.ring.size = s.ring.size ∧ QueueEffect s t := by
  cases step_does hstep with
  | callPut data hi => exact ⟨h.inRange, rfl, .none rfl rfl rfl⟩
  | callGet hi => exact ⟨h.inRange, rfl, .none rfl rfl rfl⟩
  | full hi hfull => exact ⟨h.inRange, rfl, .none rfl rfl rfl⟩
  | @put i data woken threads hi hroom hsignal =>
      refine ⟨h.inRange.write data, rfl, .put data ?_ (RingBuffer.contents_write h.inRange hroom data) rfl rfl⟩
      have hcount := h.inRange.count_lt
      have hnot : s.ring.count + 1 ≠ s.ring.size := by
        rw [ne_eq, ← RingBuffer.isFull_iff h.inRange, hroom]
        exact Bool.false_ne_true
      rw [RingBuffer.length_contents]
      omega
  | empty hi hempty => exact ⟨h.inRange, rfl, .none rfl rfl rfl⟩
  | get hi hsome hsignal =>
      exact ⟨h.inRange.advance, rfl, .get _ (RingBuffer.contents_read h.inRange hsome) rfl rfl⟩
  | spuriousPut hi => exact ⟨h.inRange, rfl, .none rfl rfl rfl⟩
  | spuriousGet hi => exact ⟨h.inRange, rfl, .none rfl rfl rfl⟩

theorem Fifo.step (h : s.Fifo) (hstep : s.step l = some t) : t.Fifo := by
  obtain ⟨hrange, -, heffect⟩ := h.effect hstep
  refine ⟨hrange, ?_⟩
  cases heffect with
  | none hcontents hput hgot => rw [hput, hgot, hcontents, h.fifo]
  | put data hroom hcontents hput hgot => rw [hput, hgot, hcontents, h.fifo, List.append_assoc]
  | get data hcontents hput hgot =>
      rw [hput, hgot, h.fifo, hcontents, List.append_assoc, List.singleton_append]

theorem fifo_queueInit (size threads : ℕ) (data : ℕ → α) : (queueInit size threads data).Fifo where
  inRange := RingBuffer.inRange_start (Nat.succ_pos size) data
  fifo := by
    rw [queueInit, RingBuffer.contents_start]
    rfl

/-! ## Who is awake -/

/-- A thread goes from one place to another. -/
theorem countP_set_thread (p : QueueThread α → Bool) {threads : List (QueueThread α)} {i : ℕ}
    {x : QueueThread α} (h : threads[i]? = some x) (y : QueueThread α) :
    (threads.set i y).countP p + (p x).toNat = threads.countP p + (p y).toNat := by
  obtain ⟨hi, rfl⟩ := List.getElem?_eq_some_iff.mp h
  have hle : (p threads[i]).toNat ≤ threads.countP p := by
    cases hp : p threads[i] with
    | false => exact Nat.zero_le _
    | true => exact List.countP_pos_iff.mpr ⟨_, List.getElem_mem hi, hp⟩
  have htoNat : ∀ b : Bool, (if b = true then 1 else 0) = b.toNat := by decide
  rw [List.countP_set hi, htoNat, htoNat]
  omega

/-- How many threads are at which place. -/
structure Places where
  put : ℕ
  get : ℕ
  waitFull : ℕ
  waitEmpty : ℕ

def places (threads : List (QueueThread α)) : Places where
  put := threads.countP QueueThread.isPut
  get := threads.countP QueueThread.isGet
  waitFull := threads.countP QueueThread.waitsFull
  waitEmpty := threads.countP QueueThread.waitsEmpty

/-- One thread more at its place. -/
def Places.add (n : Places) (t : QueueThread α) : Places where
  put := n.put + t.isPut.toNat
  get := n.get + t.isGet.toNat
  waitFull := n.waitFull + t.waitsFull.toNat
  waitEmpty := n.waitEmpty + t.waitsEmpty.toNat

theorem places_set {threads : List (QueueThread α)} {i : ℕ} {x : QueueThread α}
    (h : threads[i]? = some x) (y : QueueThread α) :
    (places (threads.set i y)).add x = (places threads).add y := by
  simp only [places, Places.add, countP_set_thread _ h y]

/-- Whom a signal wakes. -/
theorem signal_cases {waits : QueueThread α → Bool} {woken : Option ℕ}
    {threads threads' : List (QueueThread α)} (h : signal waits woken threads = some threads') :
    (threads.countP waits = 0 ∧ threads' = threads) ∨
      ∃ (j : ℕ) (x : QueueThread α), threads[j]? = some x ∧ waits x = true ∧
        (places threads').add x = (places threads).add x.wake := by
  unfold signal at h
  cases woken with
  | none =>
      simp only at h
      split at h
      · cases h
      · rename_i hnone
        cases h
        refine .inl ⟨List.countP_eq_zero.mpr fun x hx hwaits => hnone ?_, rfl⟩
        exact List.any_eq_true.mpr ⟨x, hx, hwaits⟩
  | some j =>
      simp only at h
      split at h
      · rename_i hwaits
        cases h
        cases hj : threads[j]? with
        | none =>
            rw [hj] at hwaits
            cases hwaits
        | some x =>
            rw [hj] at hwaits
            refine .inr ⟨j, x, hj, hwaits, ?_⟩
            obtain ⟨hlt, hx⟩ := List.getElem?_eq_some_iff.mp hj
            rw [List.modify_eq_set_getElem?, hj]
            exact places_set hj x.wake
      · cases h

/-- The signal on `empty`. -/
theorem signal_empty {woken : Option ℕ} {threads threads' : List (QueueThread α)}
    (h : signal QueueThread.waitsEmpty woken threads = some threads') :
    ((places threads).waitEmpty = 0 ∧ places threads' = places threads) ∨
      ((places threads').put = (places threads).put ∧
        (places threads').waitFull = (places threads).waitFull ∧
        (places threads').get = (places threads).get + 1 ∧
        (places threads').waitEmpty + 1 = (places threads).waitEmpty) := by
  rcases signal_cases h with ⟨hnone, rfl⟩ | ⟨j, x, -, hwaits, hplaces⟩
  · exact .inl ⟨hnone, rfl⟩
  · cases x <;> simp only [QueueThread.waitsEmpty, Bool.false_eq_true] at hwaits
    simp only [Places.add, QueueThread.wake, QueueThread.isPut, QueueThread.isGet,
      QueueThread.waitsFull, QueueThread.waitsEmpty, Bool.toNat_false, Bool.toNat_true, Nat.add_zero,
      Places.mk.injEq] at hplaces
    exact .inr ⟨hplaces.1, hplaces.2.2.1, hplaces.2.1, hplaces.2.2.2⟩

/-- The signal on `full`. -/
theorem signal_full {woken : Option ℕ} {threads threads' : List (QueueThread α)}
    (h : signal QueueThread.waitsFull woken threads = some threads') :
    ((places threads).waitFull = 0 ∧ places threads' = places threads) ∨
      ((places threads').get = (places threads).get ∧
        (places threads').waitEmpty = (places threads).waitEmpty ∧
        (places threads').put = (places threads).put + 1 ∧
        (places threads').waitFull + 1 = (places threads).waitFull) := by
  rcases signal_cases h with ⟨hnone, rfl⟩ | ⟨j, x, -, hwaits, hplaces⟩
  · exact .inl ⟨hnone, rfl⟩
  · cases x <;> simp only [QueueThread.waitsFull, Bool.false_eq_true] at hwaits
    simp only [Places.add, QueueThread.wake, QueueThread.isPut, QueueThread.isGet,
      QueueThread.waitsFull, QueueThread.waitsEmpty, Bool.toNat_false, Bool.toNat_true, Nat.add_zero,
      Places.mk.injEq] at hplaces
    exact .inr ⟨hplaces.2.1, hplaces.2.2.2, hplaces.1, hplaces.2.2.1⟩

/-- **As many threads are about to test** their loops as there is to do for those that sleep: one for each
free cell while a thread sleeps in `queue_put`, and one for each element while one sleeps in `queue_get`. -/
structure Awake (s : QueueRun α) : Prop where
  put : 0 < (places s.threads).waitFull → s.ring.size ≤ s.ring.count + 1 + (places s.threads).put
  get : 0 < (places s.threads).waitEmpty → s.ring.count ≤ (places s.threads).get

/-- What a step does to the number of elements and to the threads' places. -/
inductive Moves (s : QueueRun α) (l : QueueStep α) (t : QueueRun α) : Prop
  /-- A call, or a wake-up without a signal. -/
  | comes (htest : l.isTest = false) (hcount : t.ring.count = s.ring.count)
      (hput : (places s.threads).put ≤ (places t.threads).put)
      (hget : (places s.threads).get ≤ (places t.threads).get)
      (hfull : (places t.threads).waitFull ≤ (places s.threads).waitFull)
      (hempty : (places t.threads).waitEmpty ≤ (places s.threads).waitEmpty)
  /-- `queue_put` goes to sleep. -/
  | full (hcount : t.ring.count = s.ring.count) (hfull : s.ring.count + 1 = s.ring.size)
      (hput : (places t.threads).put + 1 = (places s.threads).put)
      (hget : (places t.threads).get = (places s.threads).get)
      (hwaits : (places t.threads).waitFull = (places s.threads).waitFull + 1)
      (hempty : (places t.threads).waitEmpty = (places s.threads).waitEmpty)
  /-- `queue_put` puts an element, and wakes a thread or finds none that sleeps in `queue_get`. -/
  | put (woken : ℕ) (hcount : t.ring.count = s.ring.count + 1)
      (hput : (places t.threads).put + 1 = (places s.threads).put)
      (hget : (places t.threads).get = (places s.threads).get + woken)
      (hfull : (places t.threads).waitFull = (places s.threads).waitFull)
      (hempty : (places t.threads).waitEmpty + woken = (places s.threads).waitEmpty)
      (hwoken : woken = 1 ∨ woken = 0 ∧ (places s.threads).waitEmpty = 0)
  /-- `queue_get` goes to sleep. -/
  | empty (hcount : t.ring.count = s.ring.count) (hempty : s.ring.count = 0)
      (hput : (places t.threads).put = (places s.threads).put)
      (hget : (places t.threads).get + 1 = (places s.threads).get)
      (hfull : (places t.threads).waitFull = (places s.threads).waitFull)
      (hwaits : (places t.threads).waitEmpty = (places s.threads).waitEmpty + 1)
  /-- `queue_get` gets an element, and wakes a thread or finds none that sleeps in `queue_put`. -/
  | get (woken : ℕ) (hcount : t.ring.count + 1 = s.ring.count)
      (hput : (places t.threads).put = (places s.threads).put + woken)
      (hget : (places t.threads).get + 1 = (places s.threads).get)
      (hfull : (places t.threads).waitFull + woken = (places s.threads).waitFull)
      (hempty : (places t.threads).waitEmpty = (places s.threads).waitEmpty)
      (hwoken : woken = 1 ∨ woken = 0 ∧ (places s.threads).waitFull = 0)

/-- Where the threads are when one of them has gone on. -/
theorem places_moved {threads : List (QueueThread α)} {i : ℕ} {x : QueueThread α}
    (h : threads[i]? = some x) (y : QueueThread α) :
    (places (threads.set i y)).put + x.isPut.toNat = (places threads).put + y.isPut.toNat ∧
      (places (threads.set i y)).get + x.isGet.toNat = (places threads).get + y.isGet.toNat ∧
      (places (threads.set i y)).waitFull + x.waitsFull.toNat
        = (places threads).waitFull + y.waitsFull.toNat ∧
      (places (threads.set i y)).waitEmpty + x.waitsEmpty.toNat
        = (places threads).waitEmpty + y.waitsEmpty.toNat := by
  have hplaces := places_set h y
  simp only [Places.add, Places.mk.injEq] at hplaces
  exact hplaces

theorem Fifo.moves (h : s.Fifo) (hstep : s.step l = some t) : Moves s l t := by
  have hrange := h.inRange
  cases step_does hstep with
  | callPut data hi =>
      obtain ⟨hput, hget, hfull, hempty⟩ := places_moved hi (.put data)
      exact .comes rfl rfl (Nat.le.intro hput.symm) (Nat.le_of_eq hget.symm) (Nat.le_of_eq hfull) (Nat.le_of_eq hempty)
  | callGet hi =>
      obtain ⟨hput, hget, hfull, hempty⟩ := places_moved hi .get
      exact .comes rfl rfl (Nat.le_of_eq hput.symm) (Nat.le.intro hget.symm) (Nat.le_of_eq hfull) (Nat.le_of_eq hempty)
  | @full i data hi hfull =>
      obtain ⟨hput, hget, hwaits, hempty⟩ := places_moved hi (.waitFull data)
      exact .full rfl ((RingBuffer.isFull_iff hrange).mp hfull) hput hget hwaits hempty
  | @put i data woken threads hi hroom hsignal =>
      obtain ⟨hput, hget, hfull, hempty⟩ := places_moved hi (.outside none)
      have hcount := RingBuffer.count_write hrange hroom data
      rcases signal_empty hsignal with ⟨hzero, hsame⟩ | ⟨hput', hfull', hget', hempty'⟩
      · refine .put 0 hcount ?_ ?_ ?_ ?_ (.inr ⟨rfl, ?_⟩)
        · rw [hsame]; exact hput
        · rw [hsame]; exact hget
        · rw [hsame]; exact hfull
        · rw [hsame]; exact hempty
        · rw [← hzero]; exact hempty.symm
      · refine .put 1 hcount ?_ ?_ ?_ ?_ (.inl rfl)
        · rw [hput']; exact hput
        · rw [hget']; exact congrArg (· + 1) hget
        · rw [hfull']; exact hfull
        · rw [hempty']; exact hempty
  | @empty i hi hempty =>
      obtain ⟨hput, hget, hfull, hwaits⟩ := places_moved hi .waitEmpty
      exact .empty rfl ((RingBuffer.isEmpty_iff hrange).mp hempty) hput hget hfull hwaits
  | @get i woken threads hi hsome hsignal =>
      obtain ⟨hput, hget, hfull, hempty⟩ := places_moved hi (.outside (some s.ring.front))
      have hcount := RingBuffer.count_advance hrange hsome
      rcases signal_full hsignal with ⟨hzero, hsame⟩ | ⟨hget', hempty', hput', hfull'⟩
      · refine .get 0 hcount ?_ ?_ ?_ ?_ (.inr ⟨rfl, ?_⟩)
        · rw [hsame]; exact hput
        · rw [hsame]; exact hget
        · rw [hsame]; exact hfull
        · rw [hsame]; exact hempty
        · rw [← hzero]; exact hfull.symm
      · refine .get 1 hcount ?_ ?_ ?_ ?_ (.inl rfl)
        · rw [hput']; exact congrArg (· + 1) hput
        · rw [hget']; exact hget
        · rw [hfull']; exact hfull
        · rw [hempty']; exact hempty
  | @spuriousPut i data hi =>
      obtain ⟨hput, hget, hfull, hempty⟩ := places_moved hi (.put data)
      exact .comes rfl rfl (Nat.le.intro hput.symm) (Nat.le_of_eq hget.symm) (Nat.le.intro hfull) (Nat.le_of_eq hempty)
  | spuriousGet hi =>
      obtain ⟨hput, hget, hfull, hempty⟩ := places_moved hi .get
      exact .comes rfl rfl (Nat.le_of_eq hput.symm) (Nat.le.intro hget.symm) (Nat.le_of_eq hfull) (Nat.le.intro hempty)

theorem Awake.step (h : s.Awake) (hfifo : s.Fifo) (hstep : s.step l = some t) : t.Awake := by
  have hsize := (hfifo.effect hstep).2.1
  obtain ⟨hput, hget⟩ := h
  cases hfifo.moves hstep with
  | comes htest hcount hput' hget' hfull hempty =>
      refine ⟨fun hsleeps => ?_, fun hsleeps => ?_⟩
      · have := hput (by omega)
        omega
      · have := hget (by omega)
        omega
  | full hcount hfull hput' hget' hwaits hempty =>
      refine ⟨fun _ => by omega, fun hsleeps => ?_⟩
      have := hget (by omega)
      omega
  | put woken hcount hput' hget' hfull hempty hwoken =>
      refine ⟨fun hsleeps => ?_, fun hsleeps => ?_⟩
      · have := hput (by omega)
        omega
      · have := hget (by omega)
        omega
  | empty hcount hempty hput' hget' hfull hwaits =>
      refine ⟨fun hsleeps => ?_, fun _ => by omega⟩
      have := hput (by omega)
      omega
  | get woken hcount hput' hget' hfull hempty hwoken =>
      refine ⟨fun hsleeps => ?_, fun hsleeps => ?_⟩
      · have := hput (by omega)
        omega
      · have := hget (by omega)
        omega

theorem awake_queueInit (size threads : ℕ) (data : ℕ → α) : (queueInit size threads data).Awake := by
  have hnone : ∀ p : QueueThread α → Bool, p (.outside none) = false →
      (List.replicate threads (.outside none)).countP p = 0 := by
    intro p hp
    apply List.countP_eq_zero.mpr
    intro x hx
    rw [List.eq_of_mem_replicate hx, hp]
    exact Bool.false_ne_true
  refine ⟨fun h => ?_, fun h => ?_⟩
  · exact absurd (hnone QueueThread.waitsFull rfl) (Nat.ne_of_gt h)
  · exact absurd (hnone QueueThread.waitsEmpty rfl) (Nat.ne_of_gt h)

/-! ## Runs -/

/-- A run of the threads. -/
def Steps (s : QueueRun α) (l : QueueStep α) (t : QueueRun α) : Prop := s.step l = some t

/-- All along a run the queue is in order, and of its size. -/
theorem along_queueInit {size threads : ℕ} {data : ℕ → α} {tr : List (QueueRun α × QueueStep α)}
    (hrun : Trace Steps (queueInit size threads data) tr s) :
    s.Fifo ∧ s.Awake ∧ s.ring.size = size + 1 := by
  have halong := hrun.invariant (P := fun s => s.Fifo ∧ s.Awake ∧ s.ring.size = size + 1)
    ⟨fifo_queueInit size threads data, awake_queueInit size threads data, rfl⟩
    fun s l t hs hstep => ⟨hs.1.step hstep, hs.2.1.step hs.1 hstep, (hs.1.effect hstep).2.1.trans hs.2.2⟩
  exact halong.2

/-- **First in, first out**: what has been got by all threads together is what was put first, in that order
and each element once; what was put after it is in the queue, which holds no more than it is made for. -/
theorem queue_fifo {size threads : ℕ} {data : ℕ → α} {tr : List (QueueRun α × QueueStep α)}
    (hrun : Trace Steps (queueInit size threads data) tr s) :
    s.wasPut = s.wasGot ++ s.ring.contents ∧ s.ring.contents.length ≤ size := by
  obtain ⟨hfifo, -, hsize⟩ := along_queueInit hrun
  refine ⟨hfifo.fifo, ?_⟩
  have hlt := hfifo.inRange.count_lt
  rw [RingBuffer.length_contents]
  omega

/-- A thread waits for an element, is woken up by the one that puts it, and gets it; a second element comes
and a third has to wait. -/
theorem queue_fifo_twoThreads : ∃ tr s, Trace Steps (queueInit 1 2 fun _ => 0) tr s ∧
    (s.wasPut = [7, 8] ∧ s.wasGot = [7] ∧ s.threads = [.waitFull 9, .outside (some 7)]) ∧
    s.wasPut = s.wasGot ++ s.ring.contents ∧ s.ring.contents.length ≤ 1 := by
  obtain ⟨tr, s, hrun, hseen⟩ := Trace.exists_of_run (f := step)
    (P := fun _ s => s.wasPut = [7, 8] ∧ s.wasGot = [7] ∧ s.threads = [.waitFull 9, .outside (some 7)])
    (s := queueInit 1 2 fun _ => 0)
    [.callGet 1, .test 1 none, .callPut 0 7, .test 0 (some 1), .test 1 none, .callPut 0 8, .test 0 none,
      .callPut 0 9, .test 0 none] (by decide)
  exact ⟨tr, s, hrun, hseen, queue_fifo hrun⟩

/-- How much the threads may still do without being called: a thread that tests its loop goes to sleep, or
is done and wakes another one. -/
def work (s : QueueRun α) : ℕ :=
  3 * ((places s.threads).put + (places s.threads).get)
    + 2 * ((places s.threads).waitFull + (places s.threads).waitEmpty)

theorem Fifo.work_test (h : s.Fifo) (hstep : s.step l = some t) (htest : l.isTest = true) :
    t.work < s.work := by
  unfold work
  cases h.moves hstep with
  | comes hnot => exact absurd (htest.symm.trans hnot) (by decide)
  | full => omega
  | put woken => omega
  | empty => omega
  | get woken => omega

/-- **The sections end**: the threads get the mutex no more often than this until they are called again or
woken up without a signal. -/
theorem queue_testsEnd {size threads : ℕ} {data : ℕ → α} {tr tests : List (QueueRun α × QueueStep α)}
    (hrun : Trace Steps (queueInit size threads data) tr s) (htests : Trace Steps s tests t)
    (hlabels : ∀ x ∈ tests, x.2.isTest = true) : tests.length + t.work ≤ s.work := by
  have hfifo := (along_queueInit hrun).1
  clear hrun
  induction htests with
  | nil s => exact Nat.le_of_eq (Nat.zero_add _)
  | cons hstep _ ih =>
      rw [List.forall_mem_cons] at hlabels
      have hless := hfifo.work_test hstep hlabels.1
      have hrest := ih hlabels.2 (hfifo.step hstep)
      rw [List.length_cons]
      omega

/-- One thread finds the queue empty and goes to sleep. -/
theorem queue_testsEnd_sleeps : ∃ (s t : QueueRun ℕ) (tests : List (QueueRun ℕ × QueueStep ℕ)),
    Trace Steps s tests t ∧ tests.length + t.work ≤ s.work := by
  have hcall : Trace Steps (queueInit 1 1 fun _ => 0) [(_, .callGet 0)] _ := .cons rfl (.nil _)
  exact ⟨{ queueInit 1 1 fun _ => 0 with threads := [.get] }, _, [(_, .test 0 none)], .cons rfl (.nil _),
    queue_testsEnd hcall (.cons rfl (.nil _)) (by decide)⟩

theorem exists_signal (waits : QueueThread α → Bool) (threads : List (QueueThread α)) :
    ∃ woken threads', signal waits woken threads = some threads' := by
  by_cases hany : threads.any waits = true
  · obtain ⟨x, hx, hwaits⟩ := List.any_eq_true.mp hany
    obtain ⟨j, hj⟩ := List.getElem?_of_mem hx
    refine ⟨some j, threads.modify j QueueThread.wake, ?_⟩
    rw [signal, hj, if_pos (show (some x).any waits = true from hwaits)]
  · exact ⟨none, threads, by rw [signal, if_neg hany]⟩

/-- A thread that is in one of the functions and does not sleep can go on. -/
theorem exists_test {i : ℕ} {x : QueueThread α} (hi : s.threads[i]? = some x)
    (hx : x.isPut = true ∨ x.isGet = true) : ∃ woken t, s.step (.test i woken) = some t := by
  cases x with
  | outside got => exact absurd hx (by simp [QueueThread.isPut, QueueThread.isGet])
  | waitFull data => exact absurd hx (by simp [QueueThread.isPut, QueueThread.isGet])
  | waitEmpty => exact absurd hx (by simp [QueueThread.isPut, QueueThread.isGet])
  | put data =>
      simp only [QueueRun.step, hi, queuePut]
      by_cases hfull : s.ring.isFull = true
      · exact ⟨none, _, by rw [if_pos hfull]; rfl⟩
      · obtain ⟨woken, threads, hsignal⟩ :=
          exists_signal QueueThread.waitsEmpty (s.threads.set i (.outside none))
        exact ⟨woken, _, by rw [if_neg hfull, hsignal]; rfl⟩
  | get =>
      simp only [QueueRun.step, hi, queueGet]
      by_cases hempty : s.ring.isEmpty = true
      · exact ⟨none, _, by rw [if_pos hempty]; rfl⟩
      · obtain ⟨woken, threads, hsignal⟩ :=
          exists_signal QueueThread.waitsFull (s.threads.set i (.outside (some s.ring.front)))
        exact ⟨woken, _, by rw [if_neg hempty, hsignal]; rfl⟩

/-- **No wake-up is lost**: when no thread can go on that has not been called, those that sleep in
`queue_put` have the ring full, those that sleep in `queue_get` have it empty, and so there are not
both. -/
theorem queue_noLostWakeup {size threads : ℕ} (hsize : 0 < size) {data : ℕ → α}
    {tr : List (QueueRun α × QueueStep α)} (hrun : Trace Steps (queueInit size threads data) tr s)
    (hstuck : ∀ i woken, s.step (.test i woken) = none) :
    (∀ x ∈ s.threads, x.waitsFull = true → s.ring.isFull = true) ∧
      (∀ x ∈ s.threads, x.waitsEmpty = true → s.ring.isEmpty = true) ∧
      ((∀ x ∈ s.threads, x.waitsFull = false) ∨ ∀ x ∈ s.threads, x.waitsEmpty = false) := by
  obtain ⟨hfifo, hawake, hringSize⟩ := along_queueInit hrun
  have hnone : ∀ p : QueueThread α → Bool,
      (∀ x, p x = true → x.isPut = true ∨ x.isGet = true) → s.threads.countP p = 0 := by
    intro p hp
    apply List.countP_eq_zero.mpr
    intro x hx hpx
    obtain ⟨i, hi⟩ := List.getElem?_of_mem hx
    obtain ⟨woken, t, ht⟩ := exists_test hi (hp x hpx)
    rw [hstuck] at ht
    cases ht
  have hput : (places s.threads).put = 0 := hnone _ fun _ => .inl
  have hget : (places s.threads).get = 0 := hnone _ fun _ => .inr
  have hlt := hfifo.inRange.count_lt
  have hfull : ∀ x ∈ s.threads, x.waitsFull = true → s.ring.count + 1 = s.ring.size := by
    intro x hx hwaits
    have := hawake.put (List.countP_pos_iff.mpr ⟨x, hx, hwaits⟩)
    omega
  have hempty : ∀ x ∈ s.threads, x.waitsEmpty = true → s.ring.count = 0 := by
    intro x hx hwaits
    have := hawake.get (List.countP_pos_iff.mpr ⟨x, hx, hwaits⟩)
    omega
  refine ⟨fun x hx hwaits => (RingBuffer.isFull_iff hfifo.inRange).mpr (hfull x hx hwaits),
    fun x hx hwaits => (RingBuffer.isEmpty_iff hfifo.inRange).mpr (hempty x hx hwaits), ?_⟩
  by_cases hsome : ∃ x ∈ s.threads, x.waitsFull = true
  · obtain ⟨x, hx, hwaits⟩ := hsome
    have hcount := hfull x hx hwaits
    refine .inr fun y hy => Bool.eq_false_iff.mpr fun hwaitsEmpty => ?_
    have := hempty y hy hwaitsEmpty
    omega
  · exact .inl fun x hx => Bool.eq_false_iff.mpr fun hwaits => hsome ⟨x, hx, hwaits⟩

/-- The thread that has called `queue_get` sleeps, and the other one is outside. -/
theorem queue_noLostWakeup_sleeps : ∃ s : QueueRun ℕ, s.threads = [.outside none, .waitEmpty] ∧
    (∀ x ∈ s.threads, x.waitsFull = true → s.ring.isFull = true) ∧
      (∀ x ∈ s.threads, x.waitsEmpty = true → s.ring.isEmpty = true) ∧
      ((∀ x ∈ s.threads, x.waitsFull = false) ∨ ∀ x ∈ s.threads, x.waitsEmpty = false) := by
  obtain ⟨tr, s, hrun, hthreads⟩ := Trace.exists_of_run (f := step)
    (P := fun _ s => s.threads = [.outside none, .waitEmpty])
    (s := queueInit 1 2 fun _ => 0) [.callGet 1, .test 1 none] (by decide)
  refine ⟨s, hthreads, queue_noLostWakeup Nat.one_pos hrun fun i woken => ?_⟩
  rw [step, hthreads]
  match i with
  | 0 => rfl
  | 1 => rfl
  | i + 2 => rfl

end QueueRun

end FirmwareTools.Squashfs

import Mathlib.Data.List.Basic
import Mathlib.Logic.Function.Basic
import Mathlib.Tactic.Common

/-! # Ring buffers

A queue in an array: elements are written at one pointer and read at the other, which both go round. The
pointers are equal when the buffer is empty; one cell stays free, so that they differ when it is full.

* **`RingBuffer.contents_write`**, **`RingBuffer.contents_read`** — writing puts an element at the end of the queue, and
  reading takes the one at its front;
* **`RingBuffer.isFull_iff`**, **`RingBuffer.isEmpty_iff`** — what the pointers say. -/

namespace FirmwareTools

/-- An array of `size` cells and the two pointers. -/
structure RingBuffer (α : Type*) where
  size : ℕ
  data : ℕ → α
  readp : ℕ
  writep : ℕ

namespace RingBuffer

variable {α : Type*}

def next (r : RingBuffer α) (p : ℕ) : ℕ := (p + 1) % r.size

def isFull (r : RingBuffer α) : Bool := r.next r.writep == r.readp

def isEmpty (r : RingBuffer α) : Bool := r.readp == r.writep

/-- Write at the one pointer. -/
def write (r : RingBuffer α) (x : α) : RingBuffer α :=
  { r with data := Function.update r.data r.writep x, writep := r.next r.writep }

/-- The element at the other one. -/
def front (r : RingBuffer α) : α := r.data r.readp

/-- Go on from it. -/
def advance (r : RingBuffer α) : RingBuffer α := { r with readp := r.next r.readp }

/-- How many elements there are between the pointers. -/
def count (r : RingBuffer α) : ℕ := (r.writep + r.size - r.readp) % r.size

/-- The elements, from the front on. -/
def contents (r : RingBuffer α) : List α := (List.range r.count).map fun k => r.data ((r.readp + k) % r.size)

/-- The pointers are in the array. -/
structure InRange (r : RingBuffer α) : Prop where
  readp : r.readp < r.size
  writep : r.writep < r.size

variable {r : RingBuffer α}

@[simp] theorem length_contents : r.contents.length = r.count := by
  rw [contents, List.length_map, List.length_range]

theorem InRange.next (h : r.InRange) (p : ℕ) : r.next p < r.size :=
  Nat.mod_lt _ (Nat.zero_lt_of_lt h.readp)

theorem InRange.write (h : r.InRange) (x : α) : (r.write x).InRange := ⟨h.readp, h.next _⟩

theorem InRange.advance (h : r.InRange) : r.advance.InRange := ⟨h.next _, h.writep⟩

/-- The two cases of the pointers. -/
theorem InRange.count_eq (h : r.InRange) :
    r.readp ≤ r.writep ∧ r.count = r.writep - r.readp ∨
      r.writep < r.readp ∧ r.count = r.writep + r.size - r.readp := by
  have hread := h.readp
  have hwrite := h.writep
  rcases Nat.lt_or_ge r.writep r.readp with hlt | hle
  · exact .inr ⟨hlt, Nat.mod_eq_of_lt (by omega)⟩
  · refine .inl ⟨hle, ?_⟩
    rw [count, show r.writep + r.size - r.readp = r.writep - r.readp + r.size by omega,
      Nat.add_mod_right, Nat.mod_eq_of_lt (by omega)]

/-- The next place, around the end of the array or not. -/
theorem next_eq {p : ℕ} (h : p < r.size) : r.next p = if p + 1 = r.size then 0 else p + 1 := by
  unfold RingBuffer.next
  split
  · rename_i hend
    rw [hend, Nat.mod_self]
  · exact Nat.mod_eq_of_lt (by omega)

/-- One cell stays free. -/
theorem InRange.count_lt (h : r.InRange) : r.count < r.size :=
  Nat.mod_lt _ (Nat.zero_lt_of_lt h.readp)

theorem isEmpty_iff (h : r.InRange) : r.isEmpty = true ↔ r.count = 0 := by
  have hread := h.readp
  have hwrite := h.writep
  rw [isEmpty, beq_iff_eq]
  rcases h.count_eq with ⟨hle, hcount⟩ | ⟨hlt, hcount⟩ <;> omega

theorem isFull_iff (h : r.InRange) : r.isFull = true ↔ r.count + 1 = r.size := by
  have hread := h.readp
  have hwrite := h.writep
  rw [isFull, beq_iff_eq, next_eq h.writep]
  rcases h.count_eq with ⟨hle, hcount⟩ | ⟨hlt, hcount⟩ <;> split <;> omega

theorem count_write (h : r.InRange) (hfull : r.isFull = false) (x : α) :
    (r.write x).count = r.count + 1 := by
  have hroom : r.count + 1 ≠ r.size := by
    rw [ne_eq, ← isFull_iff h, hfull]
    exact Bool.false_ne_true
  have hread := h.readp
  have hwrite := h.writep
  have hnext := next_eq h.writep
  have hafter := (h.write x).count_eq
  simp only [write] at hafter ⊢
  rcases h.count_eq with ⟨hle, hcount⟩ | ⟨hlt, hcount⟩ <;> split at hnext <;> omega

theorem count_advance (h : r.InRange) (hempty : r.isEmpty = false) :
    r.advance.count + 1 = r.count := by
  have hsome : r.count ≠ 0 := by
    rw [ne_eq, ← isEmpty_iff h, hempty]
    exact Bool.false_ne_true
  have hread := h.readp
  have hwrite := h.writep
  have hnext := next_eq h.readp
  have hafter := h.advance.count_eq
  simp only [advance] at hafter ⊢
  rcases h.count_eq with ⟨hle, hcount⟩ | ⟨hlt, hcount⟩ <;> split at hnext <;> omega

/-- The place of the next element. -/
theorem InRange.writep_eq (h : r.InRange) : (r.readp + r.count) % r.size = r.writep := by
  have hread := h.readp
  have hwrite := h.writep
  rcases h.count_eq with ⟨hle, hcount⟩ | ⟨hlt, hcount⟩
  · rw [Nat.mod_eq_of_lt (by omega)]
    omega
  · rw [show r.readp + r.count = r.writep + r.size by omega, Nat.add_mod_right, Nat.mod_eq_of_lt hwrite]

/-- The elements are in other cells. -/
theorem InRange.ne_writep (h : r.InRange) {k : ℕ} (hk : k < r.count) :
    (r.readp + k) % r.size ≠ r.writep := by
  have hread := h.readp
  have hwrite := h.writep
  rcases h.count_eq with ⟨hle, hcount⟩ | ⟨hlt, hcount⟩
  · rw [Nat.mod_eq_of_lt (by omega)]
    omega
  · rcases Nat.lt_or_ge (r.readp + k) r.size with hin | hover
    · rw [Nat.mod_eq_of_lt hin]
      omega
    · rw [Nat.mod_eq_sub_mod hover, Nat.mod_eq_of_lt (by omega)]
      omega

/-- **Writing** puts the element at the end of the queue. -/
theorem contents_write (h : r.InRange) (hfull : r.isFull = false) (x : α) :
    (r.write x).contents = r.contents ++ [x] := by
  have hold : (List.range r.count).map (fun k => (r.write x).data ((r.readp + k) % r.size))
      = r.contents := by
    apply List.map_congr_left
    intro k hk
    exact Function.update_of_ne (h.ne_writep (List.mem_range.mp hk)) _ _
  have hnew : (r.write x).data ((r.readp + r.count) % r.size) = x := by
    rw [h.writep_eq]
    exact Function.update_self _ _ _
  rw [contents, count_write h hfull, List.range_succ, List.map_append, List.map_singleton]
  exact congrArg₂ _ hold (congrArg (fun y => [y]) hnew)

/-- **Reading** takes the element at its front. -/
theorem contents_read (h : r.InRange) (hempty : r.isEmpty = false) :
    r.contents = r.front :: r.advance.contents := by
  have hfront : r.data ((r.readp + 0) % r.size) = r.front := by
    rw [Nat.add_zero, Nat.mod_eq_of_lt h.readp, front]
  have hrest : (List.range r.advance.count).map (fun k => r.data ((r.readp + (k + 1)) % r.size))
      = r.advance.contents := by
    apply List.map_congr_left
    intro k _
    simp only [advance, RingBuffer.next]
    rw [Nat.mod_add_mod, Nat.add_right_comm, Nat.add_assoc]
  rw [← hrest, ← hfront, contents, ← count_advance h hempty, List.range_succ_eq_map, List.map_cons,
    List.map_map]
  rfl

/-- An empty buffer. -/
def start (size : ℕ) (data : ℕ → α) : RingBuffer α := ⟨size, data, 0, 0⟩

theorem inRange_start {size : ℕ} (hsize : 0 < size) (data : ℕ → α) : (start size data).InRange :=
  ⟨hsize, hsize⟩

@[simp] theorem contents_start {size : ℕ} (data : ℕ → α) : (start size data).contents = [] := by
  have hcount : (start size data).count = 0 := by
    simp [start, count]
  rw [contents, hcount, List.range_zero, List.map_nil]

end RingBuffer

end FirmwareTools

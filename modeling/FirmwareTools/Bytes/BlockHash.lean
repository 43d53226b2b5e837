import Mathlib.Data.List.Basic
import Mathlib.Tactic.Common
import Mathlib.Tactic.Ring

/-! # Hashes that go through a message in blocks

A state takes in one block of a fixed size after the other. A message that comes in pieces is taken in
through a buffer: the state has gone through some whole blocks of it and what follows them is pending.

* **`absorb_append`** — whole blocks may be taken in ahead of the rest;
* **`Absorbed.append`**, **`Absorbed.flush`** — what the buffer may do with a piece and with whole
  blocks;
* **`Absorbed.finish`** — when whole blocks are pending in the end, taking them in gives the hash of the
  message, however it was cut. -/

namespace FirmwareTools

variable {α σ : Type*}

/-- Take in `n` blocks of `size` from the front of the data. -/
def absorbBlocks (size : ℕ) (compress : σ → List α → σ) : ℕ → σ → List α → σ
  | 0, s, _ => s
  | n + 1, s, data => absorbBlocks size compress n (compress s (data.take size)) (data.drop size)

/-- Take in all whole blocks of the data. -/
def absorb (size : ℕ) (compress : σ → List α → σ) (s : σ) (data : List α) : σ :=
  absorbBlocks size compress (data.length / size) s data

variable {size : ℕ} {compress : σ → List α → σ}

theorem absorbBlocks_append_left {n : ℕ} {s : σ} {a : List α} (h : n * size ≤ a.length) (b : List α) :
    absorbBlocks size compress n s (a ++ b) = absorbBlocks size compress n s a := by
  induction n generalizing s a with
  | zero => rfl
  | succ n ih =>
      rw [Nat.succ_mul] at h
      have hsize : size ≤ a.length := by omega
      unfold absorbBlocks
      rw [List.take_append_of_le_length hsize, List.drop_append_of_le_length hsize]
      apply ih
      rw [List.length_drop]
      omega

theorem absorbBlocks_add (m n : ℕ) (s : σ) (data : List α) :
    absorbBlocks size compress (m + n) s data
      = absorbBlocks size compress n (absorbBlocks size compress m s data) (data.drop (m * size)) := by
  induction m generalizing s data with
  | zero => rw [Nat.zero_add, Nat.zero_mul, List.drop_zero, absorbBlocks]
  | succ m ih =>
      rw [Nat.succ_add, absorbBlocks, absorbBlocks, ih, List.drop_drop, Nat.succ_mul, Nat.add_comm size]

@[simp] theorem absorb_nil (s : σ) : absorb size compress s [] = s := by
  rw [absorb, List.length_nil, Nat.zero_div, absorbBlocks]

/-- **Whole blocks first**: what follows some whole blocks is taken in after them. -/
theorem absorb_append (hsize : 0 < size) {s : σ} {a : List α} (ha : size ∣ a.length) (b : List α) :
    absorb size compress s (a ++ b) = absorb size compress (absorb size compress s a) b := by
  obtain ⟨n, hn⟩ := ha
  have hblocks : (a ++ b).length / size = n + b.length / size := by
    rw [List.length_append, hn, Nat.mul_add_div hsize]
  have hlen : n * size = a.length := by rw [hn, Nat.mul_comm]
  unfold absorb
  rw [hblocks, absorbBlocks_add, absorbBlocks_append_left hlen.le, hlen, List.drop_left, hn,
    Nat.mul_div_cancel_left _ hsize]

/-- The state has gone through some whole blocks of the message, from `s₀` on, and what follows them
is pending. -/
def Absorbed (size : ℕ) (compress : σ → List α → σ) (s₀ s : σ) (pending msg : List α) : Prop :=
  ∃ done, size ∣ done.length ∧ msg = done ++ pending ∧ s = absorb size compress s₀ done

namespace Absorbed

variable {s₀ s : σ} {pending msg : List α}

/-- Nothing has been taken in. -/
theorem start (s₀ : σ) : Absorbed size compress s₀ s₀ ([] : List α) [] :=
  ⟨[], Nat.dvd_zero _, rfl, (absorb_nil s₀).symm⟩

/-- **A piece of the message** is put behind what is pending. -/
theorem append (h : Absorbed size compress s₀ s pending msg) (piece : List α) :
    Absorbed size compress s₀ s (pending ++ piece) (msg ++ piece) := by
  obtain ⟨done, hdone, rfl, rfl⟩ := h
  exact ⟨done, hdone, List.append_assoc _ _ _, rfl⟩

/-- **Whole blocks** at the front of what is pending are taken in. -/
theorem flush (hsize : 0 < size) {blocks rest : List α}
    (h : Absorbed size compress s₀ s (blocks ++ rest) msg) (hblocks : size ∣ blocks.length) :
    Absorbed size compress s₀ (absorb size compress s blocks) rest msg := by
  obtain ⟨done, hdone, rfl, rfl⟩ := h
  refine ⟨done ++ blocks, ?_, (List.append_assoc _ _ _).symm, (absorb_append hsize hdone blocks).symm⟩
  rw [List.length_append]
  exact Nat.dvd_add hdone hblocks

/-- **The end of the message**: what is pending is whole blocks. -/
theorem finish (hsize : 0 < size) (h : Absorbed size compress s₀ s pending msg) :
    absorb size compress s pending = absorb size compress s₀ msg := by
  obtain ⟨done, hdone, rfl, rfl⟩ := h
  exact (absorb_append hsize hdone pending).symm

/-- What is pending leaves the remainder of the message's length. -/
theorem length_mod (h : Absorbed size compress s₀ s pending msg) :
    msg.length % size = pending.length % size := by
  obtain ⟨done, ⟨n, hn⟩, rfl, -⟩ := h
  rw [List.length_append, hn, Nat.mul_add_mod]

theorem length_le (h : Absorbed size compress s₀ s pending msg) : pending.length ≤ msg.length := by
  obtain ⟨done, -, rfl, -⟩ := h
  rw [List.length_append]
  exact Nat.le_add_left _ _

end Absorbed

/-! ## Padding -/

/-- How many zero bytes stand between the byte behind the message and the length, which takes `tail`
bytes: as few as fill up a block. -/
def padZeros (size tail n : ℕ) : ℕ := (size - (n + 1 + tail) % size) % size

/-- What is put behind a message of `n` bytes: a marker, zero bytes, and the length. -/
def padding (size : ℕ) (lengthBytes : List UInt8) (n : ℕ) : List UInt8 :=
  0x80 :: List.replicate (padZeros size lengthBytes.length n) 0 ++ lengthBytes

/-- The zero bytes are the only ones that fit: fewer than a block of them, and whole blocks with them. -/
theorem padZeros_eq (hsize : 0 < size) {tail n zeros : ℕ} (hzeros : zeros < size)
    (hdvd : size ∣ n + (1 + zeros + tail)) : padZeros size tail n = zeros := by
  rw [padZeros]
  obtain ⟨q, hq⟩ := hdvd
  have hmod := Nat.div_add_mod (n + 1 + tail) size
  have hlt := Nat.mod_lt (n + 1 + tail) hsize
  generalize (n + 1 + tail) % size = r at hmod hlt ⊢
  generalize (n + 1 + tail) / size = p at hmod
  have hsum : size * p + r + zeros = size * q := by omega
  by_cases hr : r = 0
  · have hzero : zeros = 0 := by
      have hdvd : size ∣ zeros := by
        rw [hr, Nat.add_zero] at hsum
        exact (Nat.dvd_add_right (Dvd.intro p rfl)).mp (hsum ▸ Dvd.intro q rfl)
      exact Nat.eq_zero_of_dvd_of_lt hdvd hzeros
    rw [hr, hzero, Nat.sub_zero, Nat.mod_self]
  · rw [Nat.mod_eq_of_lt (by omega)]
    -- both fill up the same block
    have hrz : size ∣ r + zeros := by
      rw [Nat.add_assoc] at hsum
      exact (Nat.dvd_add_right (Dvd.intro p rfl)).mp (hsum ▸ Dvd.intro q rfl)
    obtain ⟨k, hk⟩ := hrz
    have hk1 : k = 1 := by
      have hpos : k ≠ 0 := by
        rintro rfl
        omega
      have hlt2 : size * k < size * 2 := by omega
      have := Nat.lt_of_mul_lt_mul_left hlt2
      omega
    rw [hk1] at hk
    omega

end FirmwareTools

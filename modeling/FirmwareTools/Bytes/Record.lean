import Mathlib.Data.Nat.Bitwise
import Mathlib.Tactic.Ring

/-! # Packed little-endian records

On-disk structures are runs of little-endian unsigned fields without padding. A record is a list of
pairs of a width in bytes and a value; writing truncates every value to its width, and reading by
the list of widths gives the truncated values back whatever follows the record.

* **`leValue_leBytes`** — the round trip of one field;
* **`readFields_packFields`** — the round trip of a record in front of anything;
* **`readSlice_of_holdsAt`** — and of bytes anywhere in a buffer. -/

namespace FirmwareTools

/-! ## One field -/

/-- The lowest `w` bytes of `n`, the least significant first. -/
def leBytes (w n : ℕ) : List UInt8 :=
  match w with
  | 0 => []
  | w + 1 => UInt8.ofNat n :: leBytes w (n / 256)

/-- The value of a run of bytes, the least significant first. -/
def leValue (bs : List UInt8) : ℕ := bs.foldr (fun b n => b.toNat + 256 * n) 0

@[simp] theorem length_leBytes (w n : ℕ) : (leBytes w n).length = w := by
  induction w generalizing n with
  | zero => rfl
  | succ w ih => rw [leBytes, List.length_cons, ih]

/-- **Writing a field truncates it to its width**; reading it back changes nothing more. -/
theorem leValue_leBytes (w n : ℕ) : leValue (leBytes w n) = n % 256 ^ w := by
  induction w generalizing n with
  | zero => simp [leBytes, leValue, Nat.mod_one]
  | succ w ih =>
      have hrec : leValue (leBytes (w + 1) n) = n % 256 + 256 * leValue (leBytes w (n / 256)) := by
        rw [leBytes, leValue, List.foldr_cons, ← leValue, UInt8.toNat_ofNat']
      rw [hrec, ih, pow_succ', Nat.mod_mul]

/-! ## Records -/

/-- The bytes of a record. -/
def packFields (fs : List (ℕ × ℕ)) : List UInt8 := fs.flatMap fun f => leBytes f.1 f.2

/-- Read fields of the given widths from the front of a buffer, `none` if it is too short. -/
def readFields : List ℕ → List UInt8 → Option (List ℕ)
  | [], _ => some []
  | w :: ws, bs => do
    if bs.length < w then none
    else
      let vs ← readFields ws (bs.drop w)
      some (leValue (bs.take w) :: vs)

theorem packFields_append (fs gs : List (ℕ × ℕ)) :
    packFields (fs ++ gs) = packFields fs ++ packFields gs := by
  rw [packFields, List.flatMap_append, packFields, packFields]

theorem length_packFields (fs : List (ℕ × ℕ)) : (packFields fs).length = (fs.map Prod.fst).sum := by
  induction fs with
  | nil => rfl
  | cons f fs ih =>
      rw [packFields, List.flatMap_cons, List.length_append, length_leBytes, ← packFields, ih,
        List.map_cons, List.sum_cons]

/-- **Reading a record back**: every value truncated to its width. -/
theorem readFields_packFields (fs : List (ℕ × ℕ)) (rest : List UInt8) :
    readFields (fs.map Prod.fst) (packFields fs ++ rest)
      = some (fs.map fun f => f.2 % 256 ^ f.1) := by
  induction fs with
  | nil => rfl
  | cons f fs ih =>
      have hsplit : packFields (f :: fs) ++ rest = leBytes f.1 f.2 ++ (packFields fs ++ rest) := by
        rw [packFields, List.flatMap_cons, List.append_assoc, packFields]
      have hlen : ¬ (leBytes f.1 f.2 ++ (packFields fs ++ rest)).length < f.1 := by
        rw [List.length_append, length_leBytes]
        omega
      rw [hsplit, List.map_cons, readFields, if_neg hlen, List.drop_left' (length_leBytes _ _),
        List.take_left' (length_leBytes _ _), ih, leValue_leBytes]
      rfl

/-- Records of one width are read one after the other. -/
theorem mapM_range'_records {α β : Type*} {pack : α → List UInt8} {read : List UInt8 → ℕ → Option β}
    {f : α → β} (h : ∀ (before : List α) (a : α) (after : List UInt8),
      read (before.flatMap pack ++ (pack a ++ after)) before.length = some (f a))
    (before as : List α) (after : List UInt8) :
    (List.range' before.length as.length).mapM (read (before.flatMap pack ++ (as.flatMap pack ++ after)))
      = some (as.map f) := by
  induction as generalizing before with
  | nil => rfl
  | cons a as ih =>
      have hrest := ih (before ++ [a])
      rw [List.length_append, List.length_singleton, List.flatMap_append, List.flatMap_singleton,
        List.append_assoc] at hrest
      rw [List.length_cons, List.range'_succ, List.mapM_cons, List.flatMap_cons, List.append_assoc, h, hrest]
      rfl

/-- Fields of more widths are read one part after the other. -/
theorem readFields_append (ws ws' : List ℕ) (bs : List UInt8) :
    readFields (ws ++ ws') bs =
      (readFields ws bs).bind fun vs => (readFields ws' (bs.drop ws.sum)).map (vs ++ ·) := by
  induction ws generalizing bs with
  | nil => simp [readFields]
  | cons w ws ih =>
      rw [List.cons_append, readFields, readFields, ih, List.sum_cons, ← List.drop_drop]
      split
      · rfl
      · cases readFields ws (bs.drop w) with
        | none => rfl
        | some vs =>
            cases readFields ws' ((bs.drop w).drop ws.sum) with
            | none => rfl
            | some vs' => rfl

/-- Fields are read where there are enough bytes. -/
theorem exists_readFields {ws : List ℕ} {bs : List UInt8} (h : ws.sum ≤ bs.length) :
    ∃ vs, readFields ws bs = some vs ∧ vs.length = ws.length := by
  induction ws generalizing bs with
  | nil => exact ⟨[], rfl, rfl⟩
  | cons w ws ih =>
      rw [List.sum_cons] at h
      obtain ⟨vs, hvs, hlength⟩ := ih (show ws.sum ≤ (bs.drop w).length by rw [List.length_drop]; omega)
      refine ⟨leValue (bs.take w) :: vs, ?_, by rw [List.length_cons, hlength, List.length_cons]⟩
      rw [readFields, if_neg (by omega), hvs]
      rfl

/-- As many things as are stored take as many bytes at least. -/
theorem length_le_length_flatMap {α : Type*} {f : α → List UInt8} {xs : List α}
    (h : ∀ x ∈ xs, 1 ≤ (f x).length) : xs.length ≤ (xs.flatMap f).length := by
  induction xs with
  | nil => exact le_refl _
  | cons x xs ih =>
      rw [List.forall_mem_cons] at h
      rw [List.flatMap_cons, List.length_append, List.length_cons]
      have := ih h.2
      omega

/-! ## Buffers -/

/-- Some bytes of a buffer, `none` if it is too short. -/
def readSlice (buffer : List UInt8) (start bytes : ℕ) : Option (List UInt8) :=
  if start + bytes ≤ buffer.length then some ((buffer.drop start).take bytes) else none

/-- The buffer has these bytes at `start`. -/
def HoldsAt (buffer : List UInt8) (start : ℕ) (bytes : List UInt8) : Prop :=
  bytes <+: buffer.drop start

variable {buffer a b : List UInt8} {start : ℕ}

theorem holdsAt_self (bytes : List UInt8) : HoldsAt bytes 0 bytes := List.prefix_refl _

theorem HoldsAt.left (h : HoldsAt buffer start (a ++ b)) : HoldsAt buffer start a :=
  (List.prefix_append a b).trans h

theorem HoldsAt.right (h : HoldsAt buffer start (a ++ b)) :
    HoldsAt buffer (start + a.length) b := by
  obtain ⟨rest, hrest⟩ := h
  refine ⟨rest, ?_⟩
  rw [← List.drop_drop, ← hrest, List.append_assoc, List.drop_left]

theorem HoldsAt.length_le (h : HoldsAt buffer start a) (hne : a ≠ []) :
    start + a.length ≤ buffer.length := by
  have hlen := List.IsPrefix.length_le h
  have hpos := List.length_pos_iff.mpr hne
  rw [List.length_drop] at hlen
  omega

/-- What a buffer has is there however it grows. -/
theorem HoldsAt.append (h : HoldsAt buffer start a) (hne : a ≠ []) (more : List UInt8) :
    HoldsAt (buffer ++ more) start a := by
  have hlen := h.length_le hne
  rw [HoldsAt, List.drop_append_of_le_length (by omega)]
  exact h.trans (List.prefix_append _ _)

theorem holdsAt_append (before bytes after : List UInt8) :
    HoldsAt (before ++ (bytes ++ after)) before.length bytes := by
  rw [HoldsAt, List.drop_left]
  exact List.prefix_append _ _

theorem readSlice_of_holdsAt (h : HoldsAt buffer start a) (hne : a ≠ []) :
    readSlice buffer start a.length = some a := by
  have hlen := h.length_le hne
  obtain ⟨rest, hrest⟩ := h
  rw [readSlice, if_pos hlen, ← hrest, List.take_left]

/-- What stands behind something is read, also if it is empty. -/
theorem readSlice_of_holdsAt_right (h : HoldsAt buffer start (a ++ b)) (hne : a ≠ []) :
    readSlice buffer (start + a.length) b.length = some b := by
  have hlen := h.length_le (List.append_ne_nil_of_left_ne_nil hne b)
  obtain ⟨rest, hrest⟩ := h.right
  rw [List.length_append] at hlen
  rw [readSlice, if_pos (by omega), ← hrest, List.take_left]

end FirmwareTools

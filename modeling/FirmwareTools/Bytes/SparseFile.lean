import Mathlib.Data.List.Basic
import Mathlib.Tactic.Common

/-! # Files with holes

A file that is written through a descriptor: its contents and the offset. An offset behind the end leaves
the file as it is, and a write there fills the gap with zero bytes.

* **`SparseFile.Ends`** — the offset is behind some data, of which zero bytes at the end may not be in the
  file yet;
* **`SparseFile.Ends.write`**, **`SparseFile.Ends.seek`** — what writes and seeks add to the data;
* **`SparseFile.Ends.content_write`**, **`SparseFile.Ends.content_truncate`** — how the contents catch
  up. -/

namespace FirmwareTools

structure SparseFile where
  content : List UInt8 := []
  pos : ℕ := 0

namespace SparseFile

/-- Write at the offset. A write of nothing does not fill a gap. -/
def write (f : SparseFile) (bytes : List UInt8) : SparseFile :=
  if bytes = [] then f
  else
    { content := (f.content ++ List.replicate (f.pos - f.content.length) 0).take f.pos ++ bytes ++
        f.content.drop (f.pos + bytes.length)
      pos := f.pos + bytes.length }

/-- Go on with the offset. -/
def seek (f : SparseFile) (n : ℕ) : SparseFile := { f with pos := f.pos + n }

/-- Give the file a length. -/
def truncate (f : SparseFile) (length : ℕ) : SparseFile :=
  { f with content := (f.content ++ List.replicate (length - f.content.length) 0).take length }

/-- The offset is behind `data`, and the contents are `data` but for zero bytes at its end. -/
structure Ends (f : SparseFile) (data : List UInt8) : Prop where
  pos : f.pos = data.length
  content : f.content ++ List.replicate (f.pos - f.content.length) 0 = data

variable {f : SparseFile} {data : List UInt8}

theorem ends_of_content (hpos : f.pos = data.length) (hcontent : f.content = data) : f.Ends data := by
  refine ⟨hpos, ?_⟩
  rw [hpos, hcontent, Nat.sub_self, List.replicate_zero, List.append_nil]

theorem Ends.length_le (h : f.Ends data) : f.content.length ≤ data.length := by
  have hlen := congrArg List.length h.content
  rw [List.length_append] at hlen
  omega

/-- **A seek adds zero bytes.** -/
theorem Ends.seek (h : f.Ends data) (n : ℕ) : (f.seek n).Ends (data ++ List.replicate n 0) := by
  have hle := h.length_le
  have hpos := h.pos
  constructor
  · show f.pos + n = _
    rw [List.length_append, List.length_replicate, hpos]
  · show f.content ++ List.replicate (f.pos + n - f.content.length) 0 = _
    -- the gap is the old one and the new zero bytes behind it
    rw [show f.pos + n - f.content.length = (f.pos - f.content.length) + n by omega, List.replicate_add,
      ← List.append_assoc, h.content]

/-- **A write fills the gap.** -/
theorem Ends.content_write (h : f.Ends data) {bytes : List UInt8} (hbytes : bytes ≠ []) :
    (f.write bytes).content = data ++ bytes := by
  have hbehind : f.content.drop (f.pos + bytes.length) = [] := by
    apply List.drop_eq_nil_of_le
    have hle := h.length_le
    have hpos := h.pos
    omega
  rw [write, if_neg hbytes]
  show (f.content ++ List.replicate (f.pos - f.content.length) 0).take f.pos ++ bytes ++
    f.content.drop (f.pos + bytes.length) = _
  rw [h.content, hbehind, List.append_nil, h.pos, List.take_length]

theorem Ends.pos_write (h : f.Ends data) (bytes : List UInt8) :
    (f.write bytes).pos = (data ++ bytes).length := by
  rw [write, List.length_append]
  split
  · rename_i hnil
    rw [hnil, h.pos, List.length_nil, Nat.add_zero]
  · show f.pos + bytes.length = _
    rw [h.pos]

/-- **A write adds its bytes.** -/
theorem Ends.write (h : f.Ends data) (bytes : List UInt8) : (f.write bytes).Ends (data ++ bytes) := by
  by_cases hbytes : bytes = []
  · rw [SparseFile.write, if_pos hbytes, hbytes, List.append_nil]
    exact h
  · exact ends_of_content (h.pos_write bytes) (h.content_write hbytes)

/-- **A file is cut to the length of its data**: the rest of it is filled with zero bytes. -/
theorem Ends.content_truncate (h : f.Ends data) : (f.truncate data.length).content = data := by
  show (f.content ++ List.replicate (data.length - f.content.length) 0).take data.length = data
  have hcontent := h.content
  rw [h.pos] at hcontent
  rw [hcontent, List.take_length]

end SparseFile

end FirmwareTools

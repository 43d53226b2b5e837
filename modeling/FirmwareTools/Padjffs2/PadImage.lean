import FirmwareTools.Bytes.Align
import Mathlib.Data.List.Infix
import Mathlib.Data.List.Range

/-! # Padding an image with end-of-filesystem markers

`padjffs2` appends to an image, for each requested size, 0xff up to the next multiple of the size and
the JFFS2 end-of-filesystem marker behind it. The sizes are the bits of a mask, which the rounds of
the loop clear from below.

* **`layout`** — what the rounds are meant to write, given their offsets;
* **`padRounds_spec`** — the loop ends, and writes the layout of its rounds;
* **`padImage_correct`** — the markers stand at the aligned lengths of the original image. -/

namespace FirmwareTools.Padjffs2

/-- The calls of the operating system `pad_image` makes. `write n len` is what the `n`-th `write`,
of `len` bytes, returns. -/
structure Calls where
  malloc : Bool
  opens : Bool
  lseek : Bool
  write : ℕ → ℕ → ℤ

/-- Every call does what it is asked to. -/
structure Calls.Succeed (calls : Calls) : Prop where
  malloc : calls.malloc = true
  opens : calls.opens = true
  lseek : calls.lseek = true
  write : ∀ n len : ℕ, calls.write n len = len

/-- The bytes of the open image, the number of writes made so far, and the lengths printed. -/
structure Output where
  image : List UInt8
  writes : ℕ := 0
  printed : List ℕ := []
  deriving DecidableEq, Repr

/-- `eof_mark` -/
def eofMark : List UInt8 := [0xde, 0xad, 0xc0, 0xde]

/-- `BUF_SIZE` -/
def bufSize : ℕ := 64 * 1024

/-- `ALIGN`: a `ssize_t` against a `uint32_t`. -/
def ALIGN (x : ℕ) (y : BitVec 32) : ℕ := (x + (y - 1).toNat) &&& (~~~(y - 1)).toNat

/-- `write` at the end of the image. True if it writes all it is given. -/
def Output.write (calls : Calls) (bytes : List UInt8) (file : Output) : Bool × Output :=
  let t := calls.write file.writes bytes.length
  (t = bytes.length,
    { file with image := file.image ++ bytes.take t.toNat, writes := file.writes + 1 })

/-- The loop that writes the padding, a buffer at a time. `none` in place of the new `out_len` if a
write fails. -/
def writePadding (calls : Calls) (outLen inLen : ℕ) (file : Output) : Option ℕ × Output :=
  if outLen < inLen then
    let len := min (inLen - outLen) bufSize
    match file.write calls (List.replicate len 0xff) with
    | (false, file) => (none, file)
    | (true, file) => writePadding calls (outLen + len) inLen file
  else (some outLen, file)
termination_by inLen - outLen
decreasing_by
  have : 0 < bufSize := by decide
  omega

/-- The first bit of the mask from bit 10 on, and the last one if there is none. -/
def firstMask (padMask : BitVec 32) : BitVec 32 :=
  match (List.range' 10 22).find? padMask.getLsbD with
  | some i => 1#32 <<< i
  | none => 1#32 <<< 31

/-- Drop the sizes that divide `inLen`. -/
def clearAligned (inLen : ℕ) (padMask : BitVec 32) : BitVec 32 :=
  (List.range' 10 22).foldl
    (fun padMask i =>
      if inLen &&& (1#32 <<< i - 1).toNat = 0 then padMask &&& ~~~(1#32 <<< i) else padMask)
    padMask

/-- What a round of `pad_image` prints and writes once it knows its length. The new `out_len`. -/
def writeRound (calls : Calls) (inLen outLen : ℕ) (file : Output) : Option ℕ × Output :=
  match writePadding calls outLen inLen { file with printed := file.printed ++ [inLen] } with
  | (none, file) => (none, file)
  | (some outLen, file) =>
    match file.write calls eofMark with
    | (false, file) => (none, file)
    | (true, file) => (some (outLen + 4), file)

/-- The rounds of `pad_image`. -/
def padRounds (calls : Calls) (fuel : ℕ) (padMask : BitVec 32) (inLen outLen : ℕ) (file : Output) :
    Option (ℤ × Output) :=
  match fuel with
  | 0 => none
  | fuel + 1 =>
    if padMask = 0 then some (0, file)
    else
      let inLen := ALIGN inLen (firstMask padMask)
      let padMask := clearAligned inLen padMask
      match writeRound calls inLen outLen file with
      | (none, file) => some (-1, file)
      | (some outLen, file) => padRounds calls fuel padMask inLen outLen file

/-- `pad_image` -/
def padImage (calls : Calls) (fuel : ℕ) (image : List UInt8) (padMask : BitVec 32) :
    Option (ℤ × Output) :=
  if !calls.malloc then some (-1, { image })
  else if !calls.opens then some (-1, { image })
  else if !calls.lseek then some (-1, { image })
  else padRounds calls fuel padMask image.length image.length { image }

/-- The mask `main` makes of its arguments, as `strtoul` reads them. -/
def mainPadMask (args : List ℕ) : BitVec 32 :=
  let padMask := args.foldl (fun padMask arg => padMask ||| BitVec.ofNat 32 (arg * 1024)) 0
  if padMask = 0 then (4 * 1024) ||| (8 * 1024) ||| (64 * 1024) ||| (128 * 1024) else padMask

/-! ## The layout -/

/-- An image with 0xff and the marker appended for each of the offsets. -/
def layout : List ℕ → List UInt8 → List UInt8
  | [], image => image
  | n :: ns, image => layout ns (image ++ List.replicate (n - image.length) 0xff ++ eofMark)

/-- Each offset leaves room for the marker before it; the first is not below `l`. -/
def Spaced : ℕ → List ℕ → Prop
  | _, [] => True
  | l, n :: ns => l ≤ n ∧ Spaced (n + 4) ns

theorem Spaced.le_of_mem {l : ℕ} {ns : List ℕ} (h : Spaced l ns) : ∀ n ∈ ns, l ≤ n := by
  induction ns generalizing l with
  | nil => simp
  | cons m ns ih =>
      obtain ⟨hl, hrest⟩ := h
      intro n hn
      rcases List.mem_cons.mp hn with rfl | hn
      · exact hl
      · have := ih hrest n hn
        omega

theorem Spaced.nodup {l : ℕ} {ns : List ℕ} (h : Spaced l ns) : ns.Nodup := by
  induction ns generalizing l with
  | nil => exact List.nodup_nil
  | cons n ns ih =>
      refine List.nodup_cons.mpr ⟨fun hmem => ?_, ih h.2⟩
      have := h.2.le_of_mem n hmem
      omega

/-- One offset: the image, the padding and the marker. -/
theorem length_layout_step {n : ℕ} {image : List UInt8} (h : image.length ≤ n) :
    (image ++ List.replicate (n - image.length) 0xff ++ eofMark).length = n + 4 := by
  rw [List.length_append, List.length_append, List.length_replicate]
  change image.length + (n - image.length) + 4 = n + 4
  omega

/-- **The image stays in front.** -/
theorem prefix_layout (ns : List ℕ) (image : List UInt8) : image <+: layout ns image := by
  induction ns generalizing image with
  | nil => exact List.prefix_rfl
  | cons n ns ih =>
      refine List.IsPrefix.trans ?_ (ih _)
      rw [List.append_assoc]
      exact List.prefix_append _ _

/-- **The marker stands at every offset.** -/
theorem eofMark_layout {ns : List ℕ} {image : List UInt8} (h : Spaced image.length ns) :
    ∀ n ∈ ns, ((layout ns image).drop n).take 4 = eofMark := by
  induction ns generalizing image with
  | nil => simp
  | cons m ns ih =>
      obtain ⟨hm, hrest⟩ := h
      have hlen := length_layout_step hm
      intro n hn
      rcases List.mem_cons.mp hn with rfl | hn
      · obtain ⟨tail, htail⟩ :=
          prefix_layout ns (image ++ List.replicate (n - image.length) 0xff ++ eofMark)
        have hpad : (image ++ List.replicate (n - image.length) (0xff : UInt8)).length = n := by
          rw [List.length_append, List.length_replicate]
          omega
        rw [layout, ← htail, List.append_assoc, List.drop_left' hpad]
        exact List.take_left' rfl
      · exact ih (hlen ▸ hrest) n hn

/-- **Every other appended byte is 0xff.** -/
theorem padding_layout {ns : List ℕ} {image : List UInt8} (h : Spaced image.length ns) {j : ℕ}
    {b : UInt8} (hj : image.length ≤ j) (hb : (layout ns image)[j]? = some b) :
    (∃ n ∈ ns, n ≤ j ∧ j < n + 4) ∨ b = 0xff := by
  induction ns generalizing image with
  | nil =>
      rw [layout, List.getElem?_eq_none hj] at hb
      exact absurd hb (Option.some_ne_none b).symm
  | cons m ns ih =>
      obtain ⟨hm, hrest⟩ := h
      have hlen := length_layout_step hm
      by_cases hbehind : m + 4 ≤ j
      · rcases ih (hlen ▸ hrest) (hlen ▸ hbehind) hb with ⟨n, hn, hnj⟩ | hff
        · exact .inl ⟨n, List.mem_cons_of_mem _ hn, hnj⟩
        · exact .inr hff
      · by_cases hmark : m ≤ j
        · exact .inl ⟨m, List.mem_cons_self, hmark, Nat.lt_of_not_le hbehind⟩
        · -- between the image and the marker
          obtain ⟨tail, htail⟩ :=
            prefix_layout ns (image ++ List.replicate (m - image.length) 0xff ++ eofMark)
          have hjm : j - image.length < m - image.length := by omega
          have hjlen : j < (image ++ List.replicate (m - image.length) (0xff : UInt8)).length := by
            rw [List.length_append, List.length_replicate]
            omega
          rw [layout, ← htail, List.append_assoc, List.append_assoc, ← List.append_assoc image,
            List.getElem?_append_left hjlen, List.getElem?_append_right hj,
            List.getElem?_replicate_of_lt hjm, Option.some.injEq] at hb
          exact .inr hb.symm

/-! ## The mask -/

theorem toNat_one_shiftLeft {i : ℕ} (hi : i < 32) : (1#32 <<< i).toNat = 2 ^ i := by
  rw [BitVec.toNat_shiftLeft, Nat.shiftLeft_eq]
  simp [Nat.mod_eq_of_lt (Nat.pow_lt_pow_right (show 1 < 2 by decide) hi)]

theorem toNat_one_shiftLeft_sub_one {i : ℕ} (hi : i < 32) : (1#32 <<< i - 1).toNat = 2 ^ i - 1 := by
  have hle : (1 : BitVec 32) ≤ 1#32 <<< i := by
    rw [BitVec.le_def, toNat_one_shiftLeft hi]
    exact Nat.one_le_two_pow
  rw [BitVec.toNat_sub_of_le hle, toNat_one_shiftLeft hi]
  rfl

/-- **`ALIGN`** on the mask of a single bit. -/
theorem ALIGN_eq_alignUp {x i : ℕ} (hi : i < 32) (hx : alignUp x (2 ^ i) < 2 ^ 32) :
    ALIGN x (1#32 <<< i) = alignUp x (2 ^ i) := by
  have hnot : (~~~(1#32 <<< i - 1)).toNat = 2 ^ 32 - 2 ^ i := by
    have := Nat.two_pow_pos i
    rw [BitVec.toNat_not, toNat_one_shiftLeft_sub_one hi]
    omega
  rw [ALIGN, toNat_one_shiftLeft_sub_one hi, hnot, and_alignMask_eq_alignUp hi,
    Nat.mod_eq_of_lt hx]

/-- **The first bit** of a mask that has only bits from bit 10 on. -/
theorem firstMask_eq {padMask : BitVec 32} (hne : padMask ≠ 0)
    (hlow : ∀ j < 10, padMask.getLsbD j = false) :
    ∃ i, 10 ≤ i ∧ i < 32 ∧ padMask.getLsbD i = true ∧ (∀ j < i, padMask.getLsbD j = false) ∧
      firstMask padMask = 1#32 <<< i := by
  unfold firstMask
  split
  · rename_i i hfind
    obtain ⟨hbit, hmem, hbefore⟩ := List.find?_range'_eq_some.mp hfind
    rw [List.mem_range'_1] at hmem
    refine ⟨i, hmem.1, hmem.2, hbit, fun j hj => ?_, rfl⟩
    by_cases hj10 : j < 10
    · exact hlow j hj10
    · simpa using hbefore j (Nat.le_of_not_lt hj10) hj
  · rename_i hfind
    -- no bit is set at all
    refine absurd (BitVec.eq_of_getLsbD_eq fun j hj => ?_) hne
    by_cases hj10 : j < 10
    · rw [hlow j hj10]
      simp
    · have hj' := List.find?_range'_eq_none.mp hfind j (Nat.le_of_not_lt hj10) hj
      simpa using hj'

/-- One size: its bit goes if it divides the length. -/
theorem getLsbD_clearBit (inLen : ℕ) (padMask : BitVec 32) {i : ℕ} (hi : i < 32) (j : ℕ) :
    (if inLen &&& (1#32 <<< i - 1).toNat = 0 then padMask &&& ~~~(1#32 <<< i)
      else padMask).getLsbD j = (padMask.getLsbD j && !decide (j = i ∧ 2 ^ j ∣ inLen)) := by
  have hiff : inLen &&& (1#32 <<< i - 1).toNat = 0 ↔ 2 ^ i ∣ inLen := by
    rw [toNat_one_shiftLeft_sub_one hi, Nat.and_two_pow_sub_one_eq_mod, Nat.dvd_iff_mod_eq_zero]
  by_cases hdvd : 2 ^ i ∣ inLen
  · rw [if_pos (hiff.mpr hdvd), BitVec.getLsbD_and, BitVec.getLsbD_not, BitVec.getLsbD_shiftLeft]
    by_cases hj : j < 32
    · by_cases hji : j = i
      · subst hji
        simp [hdvd, hj]
      · have hbit : (1#32).getLsbD (j - i) = decide (j - i = 0) := by
          rw [BitVec.getLsbD_one]
          simp
        rw [hbit]
        by_cases hlt : j < i
        · simp [hj, hji, hlt]
        · simp [hj, hji, hlt, Nat.sub_eq_zero_iff_le]
          omega
    · rw [BitVec.getLsbD_of_ge _ _ (Nat.le_of_not_lt hj)]
      simp
  · rw [if_neg (mt hiff.mp hdvd)]
    by_cases hji : j = i
    · subst hji
      simp [hdvd]
    · simp [hji]

/-- **The bits that stay** are those whose size does not divide the length. -/
theorem getLsbD_clearAligned (inLen : ℕ) (padMask : BitVec 32) (j : ℕ) :
    (clearAligned inLen padMask).getLsbD j
      = (padMask.getLsbD j && !decide (10 ≤ j ∧ 2 ^ j ∣ inLen)) := by
  have hfold : ∀ (l : List ℕ), (∀ i ∈ l, i < 32) → ∀ m : BitVec 32,
      (l.foldl (fun padMask i => if inLen &&& (1#32 <<< i - 1).toNat = 0
        then padMask &&& ~~~(1#32 <<< i) else padMask) m).getLsbD j
        = (m.getLsbD j && !decide (j ∈ l ∧ 2 ^ j ∣ inLen)) := by
    intro l
    induction l with
    | nil => simp
    | cons i l ih =>
        intro hl m
        rw [List.foldl_cons, ih (fun i hi => hl i (List.mem_cons_of_mem _ hi)),
          getLsbD_clearBit inLen m (hl i List.mem_cons_self) j, Bool.and_assoc]
        congr 1
        rw [Bool.eq_iff_iff]
        simp only [Bool.and_eq_true, Bool.not_eq_true', decide_eq_false_iff_not, List.mem_cons]
        tauto
  rw [clearAligned, hfold _ (fun i hi => (List.mem_range'_1.mp hi).2)]
  by_cases hj : j < 32
  · simp [List.mem_range'_1, hj]
  · rw [BitVec.getLsbD_of_ge _ _ (Nat.le_of_not_lt hj)]
    simp

/-! ## Writing -/

theorem write_image (calls : Calls) (bytes : List UInt8) (file : Output) :
    file.image <+: (file.write calls bytes).2.image :=
  List.prefix_append _ _

theorem write_printed (calls : Calls) (bytes : List UInt8) (file : Output) :
    (file.write calls bytes).2.printed = file.printed := rfl

/-- A write that reports its length has written all. -/
theorem write_true {calls : Calls} {bytes : List UInt8} {file file' : Output}
    (h : file.write calls bytes = (true, file')) : file'.image = file.image ++ bytes := by
  rw [Output.write, Prod.mk.injEq, decide_eq_true_eq] at h
  obtain ⟨ht, rfl⟩ := h
  simp [ht]

theorem Calls.Succeed.write_eq {calls : Calls} (hcalls : calls.Succeed) (bytes : List UInt8)
    (file : Output) : (file.write calls bytes).1 = true := by
  simp [Output.write, hcalls.write]

/-- The padding loop leaves what was there in front, and prints nothing. -/
theorem writePadding_prefix (calls : Calls) (outLen inLen : ℕ) (file : Output) :
    file.image <+: (writePadding calls outLen inLen file).2.image ∧
    (writePadding calls outLen inLen file).2.printed = file.printed := by
  induction outLen, file using writePadding.induct calls inLen with
  | case1 outLen file hlt len file' hwrite =>
      have himage := write_image calls (List.replicate len 0xff) file
      have hprinted := write_printed calls (List.replicate len 0xff) file
      rw [hwrite] at himage hprinted
      rw [writePadding, if_pos hlt]
      simp only [len] at hwrite
      simp only [hwrite]
      exact ⟨himage, hprinted⟩
  | case2 outLen file hlt len file' hwrite ih =>
      have himage := write_image calls (List.replicate len 0xff) file
      have hprinted := write_printed calls (List.replicate len 0xff) file
      rw [hwrite] at himage hprinted
      rw [writePadding, if_pos hlt]
      simp only [len] at hwrite
      simp only [hwrite]
      exact ⟨himage.trans ih.1, ih.2.trans hprinted⟩
  | case3 outLen file hlt =>
      rw [writePadding, if_neg hlt]
      exact ⟨List.prefix_rfl, rfl⟩

/-- **The padding loop**: if no write fails, it ends with the image filled up to `inLen`. -/
theorem writePadding_some (calls : Calls) (outLen inLen : ℕ) (file : Output) :
    (calls.Succeed → ∃ outLen', (writePadding calls outLen inLen file).1 = some outLen') ∧
    ∀ outLen', (writePadding calls outLen inLen file).1 = some outLen' →
      outLen' = max outLen inLen ∧ (writePadding calls outLen inLen file).2.image
        = file.image ++ List.replicate (inLen - outLen) 0xff := by
  induction outLen, file using writePadding.induct calls inLen with
  | case1 outLen file hlt len file' hwrite =>
      have hfails : calls.Succeed → False := by
        intro hcalls
        have htrue := hcalls.write_eq (List.replicate len 0xff) file
        rw [hwrite] at htrue
        exact Bool.false_ne_true htrue
      rw [writePadding, if_pos hlt]
      simp only [len] at hwrite
      simp only [hwrite]
      exact ⟨fun hcalls => (hfails hcalls).elim, fun _ h => absurd h (Option.some_ne_none _).symm⟩
  | case2 outLen file hlt len file' hwrite ih =>
      have himage := write_true hwrite
      have hlen : len ≤ inLen - outLen := min_le_left _ _
      rw [writePadding, if_pos hlt]
      simp only [len] at hwrite
      simp only [hwrite]
      refine ⟨ih.1, fun outLen' h => ?_⟩
      obtain ⟨hout, himage'⟩ := ih.2 outLen' h
      refine ⟨by omega, ?_⟩
      have hrest : inLen - outLen = len + (inLen - (outLen + len)) := by omega
      rw [himage', himage, hrest, List.append_assoc, List.replicate_append_replicate]
  | case3 outLen file hlt =>
      rw [writePadding, if_neg hlt]
      refine ⟨fun _ => ⟨outLen, rfl⟩, fun outLen' h => ?_⟩
      obtain rfl := Option.some.inj h
      rw [Nat.sub_eq_zero_of_le (Nat.le_of_not_lt hlt), List.replicate_zero, List.append_nil]
      exact ⟨(max_eq_left (Nat.le_of_not_lt hlt)).symm, rfl⟩

/-- **The writes of a round**: what was there stays in front; if no write fails, the padding and the
marker stand behind it. -/
theorem writeRound_spec (calls : Calls) (inLen outLen : ℕ) (file : Output) :
    file.image <+: (writeRound calls inLen outLen file).2.image ∧
    (calls.Succeed → ∃ outLen', (writeRound calls inLen outLen file).1 = some outLen') ∧
    ∀ outLen', (writeRound calls inLen outLen file).1 = some outLen' →
      outLen' = max outLen inLen + 4 ∧
      (writeRound calls inLen outLen file).2.printed = file.printed ++ [inLen] ∧
      (writeRound calls inLen outLen file).2.image
        = file.image ++ List.replicate (inLen - outLen) 0xff ++ eofMark := by
  unfold writeRound
  obtain ⟨hstart, hprinted⟩ :=
    writePadding_prefix calls outLen inLen { file with printed := file.printed ++ [inLen] }
  obtain ⟨hsucceed, hsome⟩ :=
    writePadding_some calls outLen inLen { file with printed := file.printed ++ [inLen] }
  split
  · -- a write of the padding failed
    rename_i file₁ hpad
    rw [hpad] at hstart hsucceed
    refine ⟨hstart, fun hcalls => ?_, fun _ h => absurd h (Option.some_ne_none _).symm⟩
    obtain ⟨_, h⟩ := hsucceed hcalls
    exact absurd h (Option.some_ne_none _).symm
  · rename_i outLen₁ file₁ hpad
    rw [hpad] at hstart hprinted hsome
    obtain ⟨hout, himage⟩ := hsome outLen₁ rfl
    split
    · -- the write of the marker failed
      rename_i file₂ hwrite
      have hmark := write_image calls eofMark file₁
      rw [hwrite] at hmark
      refine ⟨hstart.trans hmark, fun hcalls => ?_, fun _ h => absurd h (Option.some_ne_none _).symm⟩
      have htrue := hcalls.write_eq eofMark file₁
      rw [hwrite] at htrue
      exact absurd htrue Bool.false_ne_true
    · rename_i file₂ hwrite
      have hmark := write_image calls eofMark file₁
      have hmarkPrinted := write_printed calls eofMark file₁
      rw [hwrite] at hmark hmarkPrinted
      refine ⟨hstart.trans hmark, fun _ => ⟨_, rfl⟩, fun outLen' h => ?_⟩
      obtain rfl := Option.some.inj h
      refine ⟨by rw [hout], hmarkPrinted.trans hprinted, ?_⟩
      rw [write_true hwrite, himage]

/-! ## The rounds -/

/-- What the loop is to do from `file` on when `padMask` is left and the last length was `inLen`. -/
structure Padded (calls : Calls) (padMask : BitVec 32) (inLen : ℕ) (file : Output) (ret : ℤ)
    (file' : Output) : Prop where
  image_prefix : file.image <+: file'.image
  ret_eq_zero : calls.Succeed → ret = 0
  layout : ret = 0 → ∃ lens, file'.printed = file.printed ++ lens ∧
    file'.image = layout lens file.image ∧ Spaced file.image.length lens ∧
    ∀ n, n ∈ lens ↔ ∃ i, padMask.getLsbD i = true ∧ n = alignUp inLen (2 ^ i)

/-- **One round**: of the sizes that are left, those that remain give the same lengths from the new
length on, and the others give the new length itself. -/
theorem round_lengths {padMask : BitVec 32} {inLen i : ℕ} (hi : 10 ≤ i)
    (hlow : ∀ j < i, padMask.getLsbD j = false) {j : ℕ} (hj : padMask.getLsbD j = true) :
    alignUp (alignUp inLen (2 ^ i)) (2 ^ j) = alignUp inLen (2 ^ j) ∧
    ((clearAligned (alignUp inLen (2 ^ i)) padMask).getLsbD j = true →
      alignUp inLen (2 ^ i) + 4 ≤ alignUp inLen (2 ^ j)) ∧
    ((clearAligned (alignUp inLen (2 ^ i)) padMask).getLsbD j = false →
      alignUp inLen (2 ^ j) = alignUp inLen (2 ^ i)) := by
  have hij : i ≤ j := by
    by_contra hlt
    rw [hlow j (Nat.lt_of_not_le hlt)] at hj
    exact Bool.false_ne_true hj
  have hdvd : 2 ^ i ∣ 2 ^ j := Nat.pow_dvd_pow 2 hij
  have hstep := alignUp_alignUp inLen (Nat.two_pow_pos j) hdvd
  refine ⟨hstep, ?_, ?_⟩
  · intro hleft
    rw [getLsbD_clearAligned, hj, Bool.true_and, Bool.not_eq_true', decide_eq_false_iff_not] at hleft
    have hnot : ¬ 2 ^ j ∣ alignUp inLen (2 ^ i) := fun h => hleft ⟨hi.trans hij, h⟩
    have hgap := add_le_alignUp (Nat.two_pow_pos j) hdvd (dvd_alignUp inLen (2 ^ i)) hnot
    have h4 : 4 ≤ 2 ^ i := (by decide : 4 ≤ 2 ^ 10).trans (Nat.pow_le_pow_right (by decide) hi)
    rw [hstep] at hgap
    omega
  · intro hgone
    rw [getLsbD_clearAligned, hj, Bool.true_and, Bool.not_eq_false', decide_eq_true_eq] at hgone
    rw [← hstep, alignUp_of_dvd (Nat.two_pow_pos j) hgone.2]

/-- **The loop ends**, and its rounds are one for each length that is left. -/
theorem padRounds_spec (calls : Calls) (fuel : ℕ) (padMask : BitVec 32) (inLen outLen k : ℕ)
    (file : Output) (hfuel : 32 < k + fuel) (hk : 10 ≤ k) (hk32 : k ≤ 32)
    (hlow : ∀ j < k, padMask.getLsbD j = false) (hout : file.image.length = outLen)
    (hfits : ∀ i, padMask.getLsbD i = true →
      outLen ≤ alignUp inLen (2 ^ i) ∧ alignUp inLen (2 ^ i) < 2 ^ 32) :
    ∃ ret file', padRounds calls fuel padMask inLen outLen file = some (ret, file') ∧
      Padded calls padMask inLen file ret file' := by
  induction fuel generalizing padMask inLen outLen k file with
  | zero => omega
  | succ fuel ih =>
      by_cases hzero : padMask = 0
      · subst hzero
        refine ⟨0, file, by rw [padRounds, if_pos rfl], List.prefix_rfl, fun _ => rfl, fun _ => ?_⟩
        exact ⟨[], (List.append_nil _).symm, rfl, trivial, fun n => by simp⟩
      · obtain ⟨i, hi10, hi32, hbit, hbefore, hfirst⟩ :=
          firstMask_eq hzero fun j hj => hlow j (hj.trans_le hk)
        have hALIGN := ALIGN_eq_alignUp hi32 (hfits i hbit).2
        have hki : k ≤ i := by
          by_contra hlt
          rw [hlow i (Nat.lt_of_not_le hlt)] at hbit
          exact Bool.false_ne_true hbit
        obtain ⟨hstart, hsucceed, hsome⟩ :=
          writeRound_spec calls (alignUp inLen (2 ^ i)) outLen file
        rw [padRounds, if_neg hzero]
        simp only [hfirst, hALIGN]
        split
        · -- a write failed
          rename_i file₁ hround
          rw [hround] at hstart hsucceed
          refine ⟨-1, file₁, rfl, hstart, fun hcalls => ?_, fun h => absurd h (by decide)⟩
          obtain ⟨_, h⟩ := hsucceed hcalls
          exact absurd h (Option.some_ne_none _).symm
        · rename_i outLen₁ file₁ hround
          rw [hround] at hstart hsome
          obtain ⟨hout₁, hprinted₁, himage₁⟩ := hsome outLen₁ rfl
          have hlen₁ : file₁.image.length = alignUp inLen (2 ^ i) + 4 := by
            rw [himage₁, ← hout]
            exact length_layout_step (hout ▸ (hfits i hbit).1)
          have hout₁' : outLen₁ = alignUp inLen (2 ^ i) + 4 := by
            rw [hout₁, max_eq_right (hfits i hbit).1]
          have hsub : ∀ j, (clearAligned (alignUp inLen (2 ^ i)) padMask).getLsbD j = true →
              padMask.getLsbD j = true := by
            intro j hj
            rw [getLsbD_clearAligned, Bool.and_eq_true] at hj
            exact hj.1
          have hlow₁ : ∀ j < i + 1,
              (clearAligned (alignUp inLen (2 ^ i)) padMask).getLsbD j = false := by
            intro j hj
            rw [getLsbD_clearAligned]
            rcases Nat.lt_succ_iff_lt_or_eq.mp hj with hlt | rfl
            · rw [hbefore j hlt, Bool.false_and]
            · simp [hi10, dvd_alignUp]
          have hfits₁ : ∀ j, (clearAligned (alignUp inLen (2 ^ i)) padMask).getLsbD j = true →
              outLen₁ ≤ alignUp (alignUp inLen (2 ^ i)) (2 ^ j) ∧
                alignUp (alignUp inLen (2 ^ i)) (2 ^ j) < 2 ^ 32 := by
            intro j hj
            obtain ⟨hsame, hgap, -⟩ := round_lengths hi10 hbefore (hsub j hj)
            rw [hsame, hout₁']
            exact ⟨hgap hj, (hfits j (hsub j hj)).2⟩
          obtain ⟨ret, file', hrun, hpadded⟩ := ih _ _ outLen₁ (i + 1) file₁ (by omega) (by omega)
            (by omega) hlow₁ (hlen₁.trans hout₁'.symm) hfits₁
          refine ⟨ret, file', hrun, hstart.trans hpadded.image_prefix, hpadded.ret_eq_zero,
            fun hret => ?_⟩
          obtain ⟨lens, hprinted, himage, hspaced, hmem⟩ := hpadded.layout hret
          refine ⟨alignUp inLen (2 ^ i) :: lens, ?_, ?_, ⟨?_, hlen₁ ▸ hspaced⟩, fun n => ?_⟩
          · rw [hprinted, hprinted₁, List.append_assoc, List.singleton_append]
          · rw [himage, himage₁, layout, hout]
          · exact hout ▸ (hfits i hbit).1
          · rw [List.mem_cons, hmem]
            constructor
            · rintro (rfl | ⟨j, hj, rfl⟩)
              · exact ⟨i, hbit, rfl⟩
              · exact ⟨j, hsub j hj, (round_lengths hi10 hbefore (hsub j hj)).1⟩
            · rintro ⟨j, hj, rfl⟩
              obtain ⟨hsame, -, hgone⟩ := round_lengths hi10 hbefore hj
              cases hleft : (clearAligned (alignUp inLen (2 ^ i)) padMask).getLsbD j with
              | true => exact .inr ⟨j, hleft, hsame.symm⟩
              | false => exact .inl (hgone hleft)

/-- What `pad_image` promises when it returns 0 for an image and the sizes of a mask. -/
structure PaddedImage (image : List UInt8) (padMask : BitVec 32) (file : Output) : Prop where
  image_prefix : image <+: file.image
  marker : ∀ i, padMask.getLsbD i = true →
    (file.image.drop (alignUp image.length (2 ^ i))).take 4 = eofMark
  fill : ∀ j b, image.length ≤ j → file.image[j]? = some b →
    (∃ i, padMask.getLsbD i = true ∧ alignUp image.length (2 ^ i) ≤ j ∧
      j < alignUp image.length (2 ^ i) + 4) ∨ b = 0xff
  rounds_nodup : file.printed.Nodup
  mem_rounds : ∀ n, n ∈ file.printed ↔
    ∃ i, padMask.getLsbD i = true ∧ n = alignUp image.length (2 ^ i)

/-- The layout of the lengths of a mask is a padded image. -/
theorem paddedImage_of_layout {image : List UInt8} {padMask : BitVec 32} {file : Output}
    (himage : file.image = layout file.printed image) (hspaced : Spaced image.length file.printed)
    (hmem : ∀ n, n ∈ file.printed ↔
      ∃ i, padMask.getLsbD i = true ∧ n = alignUp image.length (2 ^ i)) :
    PaddedImage image padMask file where
  image_prefix := himage ▸ prefix_layout _ _
  marker i hi := himage ▸ eofMark_layout hspaced _ ((hmem _).mpr ⟨i, hi, rfl⟩)
  fill j b hj hb := by
    rcases padding_layout hspaced hj (himage ▸ hb) with ⟨n, hn, hnj⟩ | hff
    · obtain ⟨i, hi, rfl⟩ := (hmem n).mp hn
      exact .inl ⟨i, hi, hnj⟩
    · exact .inr hff
  rounds_nodup := hspaced.nodup
  mem_rounds := hmem

/-- **`pad_image` is correct and ends**: whatever the calls of the operating system do, it returns
with the image still in front; it returns 0 if they all succeed; and if it returns 0, the markers
stand at the aligned lengths of the image, with one round for each of them. -/
theorem padImage_correct (calls : Calls) (fuel : ℕ) (hfuel : 22 < fuel) (image : List UInt8)
    (padMask : BitVec 32) (hlow : ∀ i < 10, padMask.getLsbD i = false)
    (hfits : ∀ i, padMask.getLsbD i = true → alignUp image.length (2 ^ i) < 2 ^ 32) :
    ∃ ret file, padImage calls fuel image padMask = some (ret, file) ∧ image <+: file.image ∧
      (calls.Succeed → ret = 0) ∧ (ret = 0 → PaddedImage image padMask file) := by
  have hspec := padRounds_spec calls fuel padMask image.length image.length 10 { image }
    (by omega) le_rfl (by decide) hlow rfl
    (fun i hi => ⟨le_alignUp _ (Nat.two_pow_pos i), hfits i hi⟩)
  obtain ⟨ret, file, hrun, hpadded⟩ := hspec
  -- a call that fails before the loop
  have hfails : ∀ failed, (calls.Succeed → False) → failed = some ((-1 : ℤ), ({ image } : Output)) →
      ∃ ret file, failed = some (ret, file) ∧ image <+: file.image ∧
        (calls.Succeed → ret = 0) ∧ (ret = 0 → PaddedImage image padMask file) := by
    intro failed hno hfailed
    exact ⟨-1, { image }, hfailed, List.prefix_rfl, fun hcalls => (hno hcalls).elim,
      fun h => absurd h (by decide)⟩
  unfold padImage
  split
  · rename_i hmalloc
    exact hfails _ (fun hcalls => by simp [hcalls.malloc] at hmalloc) rfl
  · split
    · rename_i hopens
      exact hfails _ (fun hcalls => by simp [hcalls.opens] at hopens) rfl
    · split
      · rename_i hlseek
        exact hfails _ (fun hcalls => by simp [hcalls.lseek] at hlseek) rfl
      · refine ⟨ret, file, hrun, hpadded.image_prefix, hpadded.ret_eq_zero, fun hret => ?_⟩
        obtain ⟨lens, hprinted, himage, hspaced, hmem⟩ := hpadded.layout hret
        rw [List.nil_append] at hprinted
        subst hprinted
        exact paddedImage_of_layout himage hspaced hmem

/-! ## The masks of `main` -/

/-- **Requested sizes are whole kilobytes**: the mask has no bit below bit 10. -/
theorem mainPadMask_low (args : List ℕ) : ∀ i < 10, (mainPadMask args).getLsbD i = false := by
  have hfold : ∀ (args : List ℕ) (m : BitVec 32), (∀ i < 10, m.getLsbD i = false) →
      ∀ i < 10, (args.foldl (fun padMask arg => padMask ||| BitVec.ofNat 32 (arg * 1024))
        m).getLsbD i = false := by
    intro args
    induction args with
    | nil => exact fun m hm => hm
    | cons arg args ih =>
        intro m hm
        rw [List.foldl_cons]
        refine ih _ fun i hi => ?_
        rw [BitVec.getLsbD_or, hm i hi, Bool.false_or, BitVec.getLsbD_ofNat,
          show 1024 = 2 ^ 10 from rfl, Nat.testBit_mul_two_pow]
        simp [Nat.not_le_of_lt hi]
  unfold mainPadMask
  dsimp only
  split
  · decide
  · exact hfold args 0 fun j _ => by simp

/-- An image of at most two gigabytes has room for every size. -/
theorem alignUp_lt_of_le {n i : ℕ} (hn : n ≤ 2 ^ 31) {padMask : BitVec 32}
    (hi : padMask.getLsbD i = true) : alignUp n (2 ^ i) < 2 ^ 32 := by
  have hlt : i < 32 := BitVec.lt_of_getLsbD hi
  have hle : alignUp n (2 ^ i) ≤ 2 ^ 31 :=
    (alignUp_le_iff (Nat.two_pow_pos i) (Nat.pow_dvd_pow 2 (Nat.le_of_lt_succ hlt))).mpr hn
  exact hle.trans_lt (by decide)

/-- A machine on which every call succeeds. -/
def allSucceed : Calls where
  malloc := true
  opens := true
  lseek := true
  write _ len := len

/-- `padjffs2 file` for a file of three bytes. -/
theorem padImage_correct_default :
    ∃ ret file, padImage allSucceed 23 [1, 2, 3] (mainPadMask []) = some (ret, file) ∧
      [1, 2, 3] <+: file.image ∧ (allSucceed.Succeed → ret = 0) ∧
      (ret = 0 → PaddedImage [1, 2, 3] (mainPadMask []) file) :=
  padImage_correct allSucceed 23 (by decide) [1, 2, 3] (mainPadMask []) (mainPadMask_low [])
    fun _ hi => alignUp_lt_of_le (by decide) hi

end FirmwareTools.Padjffs2

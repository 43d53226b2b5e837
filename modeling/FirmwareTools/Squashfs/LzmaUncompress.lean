import FirmwareTools.Bytes.Record

/-! # LZMA decompression

`lzma_uncompress` gives the decoder of liblzma the header of a block with an unknown size in place of the
stored one, then the rest of the block, and returns the stored size.

* **`reportsProduced_iff`** — when that is the number of bytes that have been produced, and only bytes of
  the block have been read. -/

namespace FirmwareTools.Squashfs

/-! ## The decoder -/

/-- `lzma_action` -/
inductive LzmaAction where
  | run
  | finish

/-- `LZMA_OK` -/
def lzmaOk : ℤ := 0

/-- `LZMA_STREAM_END` -/
def lzmaStreamEnd : ℤ := 1

/-- What `lzma_code` does: its result, how many bytes it takes, and what it writes. -/
structure LzmaCoded (State : Type) where
  ret : ℤ
  consumed : ℕ
  produced : List UInt8
  state : State

/-- The decoder of liblzma: it takes no more than `avail_in` bytes and writes no more than `avail_out`. -/
structure LzmaDecoder where
  State : Type
  /-- `lzma_alone_decoder` -/
  aloneDecoder : ℕ → Except ℤ State
  /-- `lzma_code` with `next_in`, `avail_in` and `avail_out`. -/
  code : State → (ℕ → UInt8) → ℕ → ℕ → LzmaAction → LzmaCoded State
  consumed_le : ∀ strm nextIn availIn availOut action,
    (code strm nextIn availIn availOut action).consumed ≤ availIn
  produced_le : ∀ strm nextIn availIn availOut action,
    (code strm nextIn availIn availOut action).produced.length ≤ availOut

/-! ## The wrapper -/

/-- `LZMA_PROPS_SIZE` -/
def lzmaPropsSize : ℕ := 5

/-- `LZMA_HEADER_SIZE` -/
def lzmaHeaderSize : ℕ := lzmaPropsSize + 8

/-- `MEMLIMIT` -/
def memLimit : ℕ := 32 * 1024 * 1024

/-- The conversion of an `int` to `size_t` or `uint64_t`. -/
def toUnsigned (n : ℤ) : ℕ := if n < 0 then (n + 2 ^ 64).toNat else n.toNat

/-- The size in the header as an `int`. -/
def storedSize (src : ℕ → UInt8) : ℤ :=
  let n := leValue [src lzmaPropsSize, src (lzmaPropsSize + 1), src (lzmaPropsSize + 2),
    src (lzmaPropsSize + 3)]
  if n < 2 ^ 31 then n else (n : ℤ) - 2 ^ 32

/-- The header with an unknown size. -/
def unknownSize (src : ℕ → UInt8) (i : ℕ) : UInt8 := if i < lzmaPropsSize then src i else 255

/-- What `lzma_uncompress` does: its result and `*error`, the bytes that the decoder has written to `dest`,
and where the bytes that have been read from `src` end. -/
structure Uncompressed where
  ret : ℤ
  error : Option ℤ
  dest : List UInt8
  readTo : ℕ

/-- `lzma_uncompress`, where `src` is the memory from the block on. -/
def lzmaUncompress (dec : LzmaDecoder) (src : ℕ → UInt8) (size blockSize : ℤ) : Uncompressed :=
  match dec.aloneDecoder memLimit with
  | .error res => { ret := -1, error := some res, dest := [], readTo := 0 }
  | .ok strm =>
    let uncompressedSize := storedSize src
    let r := dec.code strm (unknownSize src) lzmaHeaderSize (toUnsigned blockSize) .run
    if r.ret ≠ lzmaOk ∨ lzmaHeaderSize - r.consumed ≠ 0 then
      { ret := -1, error := some r.ret, dest := r.produced, readTo := lzmaHeaderSize }
    else
      let availIn := toUnsigned (size - lzmaHeaderSize)
      let r' := dec.code r.state (fun i => src (lzmaHeaderSize + i)) availIn
        (toUnsigned blockSize - r.produced.length) .finish
      let dest := r.produced ++ r'.produced
      let readTo := lzmaHeaderSize + r'.consumed
      if r'.ret = lzmaStreamEnd ∨
          r'.ret = lzmaOk ∧ toUnsigned uncompressedSize ≤ dest.length ∧ availIn - r'.consumed = 0 then
        { ret := uncompressedSize, error := none, dest, readTo }
      else { ret := -1, error := some r'.ret, dest, readTo }

/-! ## What it reports -/

/-- Only bytes of the block are read, and the result is `-1` or the number of bytes that have been produced,
which is no more than the block size. -/
def ReportsProduced (dec : LzmaDecoder) (src : ℕ → UInt8) (size : ℕ) (blockSize : ℤ) : Prop :=
  let r := lzmaUncompress dec src size blockSize
  r.readTo ≤ size ∧ (r.ret = -1 ∨ 0 ≤ r.ret ∧ r.ret ≤ blockSize ∧ r.ret = r.dest.length)

/-- The decoder takes the header of a block, and comes to `ret` with `total` bytes produced and `left` bytes
of the `payload` left. -/
def LzmaDecoder.DecodesTo (dec : LzmaDecoder) (strm : dec.State) (src : ℕ → UInt8) (payload availOut : ℕ)
    (ret : ℤ) (total left : ℕ) : Prop :=
  ∃ header, header = dec.code strm (unknownSize src) lzmaHeaderSize availOut .run ∧
    header.ret = lzmaOk ∧ header.consumed = lzmaHeaderSize ∧
    ∃ body, body = dec.code header.state (fun i => src (lzmaHeaderSize + i)) payload
        (availOut - header.produced.length) .finish ∧
      body.ret = ret ∧ header.produced.length + body.produced.length = total ∧
      payload - body.consumed = left

/-- The block is no shorter than a header, and where the decoder is content the stored size is the size of
what it produces. -/
def StoresSize (dec : LzmaDecoder) (strm : dec.State) (src : ℕ → UInt8) (size : ℕ) (blockSize : ℤ) : Prop :=
  lzmaHeaderSize ≤ size ∧ ∀ ret total left,
    dec.DecodesTo strm src (size - lzmaHeaderSize) (toUnsigned blockSize) ret total left →
    ret = lzmaStreamEnd ∨ ret = lzmaOk ∧ toUnsigned (storedSize src) ≤ total ∧ left = 0 →
    storedSize src = -1 ∨ 0 ≤ blockSize ∧ storedSize src = total

/-- What is behind the header. -/
theorem toUnsigned_sub {size : ℕ} (h : lzmaHeaderSize ≤ size) :
    toUnsigned ((size : ℤ) - lzmaHeaderSize) = size - lzmaHeaderSize := by
  rw [toUnsigned, if_neg (by omega)]
  omega

/-- The result is no more than the block size, if that is not negative. -/
theorem produced_le_blockSize {dec : LzmaDecoder} {strm : dec.State} {src : ℕ → UInt8} {payload left : ℕ}
    {blockSize ret : ℤ} {total : ℕ}
    (h : dec.DecodesTo strm src payload (toUnsigned blockSize) ret total left) (hblock : 0 ≤ blockSize) :
    (total : ℤ) ≤ blockSize := by
  obtain ⟨header, hheader, -, -, body, hbody, -, htotal, -⟩ := h
  have h₁ := dec.produced_le strm (unknownSize src) lzmaHeaderSize (toUnsigned blockSize) .run
  have h₂ := dec.produced_le header.state (fun i => src (lzmaHeaderSize + i)) payload
    (toUnsigned blockSize - header.produced.length) .finish
  rw [← hheader] at h₁
  rw [← hbody] at h₂
  have hunsigned : toUnsigned blockSize = blockSize.toNat := if_neg (not_lt.mpr hblock)
  omega

/-- **LZMA decompression reports what it produced** exactly if the decoder cannot be set up, or the block is
no shorter than a header and stores the size of what the decoder produces wherever that is content. -/
theorem reportsProduced_iff (dec : LzmaDecoder) (src : ℕ → UInt8) (size : ℕ) (blockSize : ℤ) :
    ReportsProduced dec src size blockSize ↔
      ∀ strm, dec.aloneDecoder memLimit = .ok strm → StoresSize dec strm src size blockSize := by
  unfold ReportsProduced lzmaUncompress
  dsimp only
  cases hinit : dec.aloneDecoder memLimit with
  | error res =>
      refine iff_of_true ⟨Nat.zero_le _, .inl rfl⟩ fun strm hstrm => ?_
      exact absurd hstrm (by simp)
  | ok strm =>
      simp only [Except.ok.injEq, forall_eq']
      by_cases hsize : lzmaHeaderSize ≤ size
      · have hdecodes : ∀ ret total left,
            dec.DecodesTo strm src (size - lzmaHeaderSize) (toUnsigned blockSize) ret total left →
            0 ≤ blockSize → (total : ℤ) ≤ blockSize := fun _ _ _ => produced_le_blockSize
        have htaken := dec.consumed_le strm (unknownSize src) lzmaHeaderSize (toUnsigned blockSize) .run
        unfold StoresSize LzmaDecoder.DecodesTo at *
        rw [toUnsigned_sub hsize]
        generalize dec.code strm (unknownSize src) lzmaHeaderSize (toUnsigned blockSize) .run = header
          at hdecodes htaken ⊢
        by_cases hheader : header.ret ≠ lzmaOk ∨ lzmaHeaderSize - header.consumed ≠ 0
        · -- the header is refused
          rw [if_pos hheader]
          refine iff_of_true ⟨hsize, .inl rfl⟩ ⟨hsize, ?_⟩
          rintro ret total left ⟨header', rfl, hret, hconsumed, -⟩
          rcases hheader with hne | hne
          · exact absurd hret hne
          · exact absurd (by omega) hne
        · rw [if_neg hheader]
          rw [not_or, not_not, not_not] at hheader
          have hread := dec.consumed_le header.state (fun i => src (lzmaHeaderSize + i))
            (size - lzmaHeaderSize) (toUnsigned blockSize - header.produced.length) .finish
          generalize hbody : dec.code header.state (fun i => src (lzmaHeaderSize + i))
            (size - lzmaHeaderSize) (toUnsigned blockSize - header.produced.length) .finish = body
            at hread ⊢
          have hreadTo : lzmaHeaderSize + body.consumed ≤ size := by omega
          have hlast := hdecodes body.ret (header.produced.length + body.produced.length)
            (size - lzmaHeaderSize - body.consumed)
            ⟨header, rfl, hheader.1, by omega, body, hbody.symm, rfl, rfl, rfl⟩
          by_cases hcontent : body.ret = lzmaStreamEnd ∨ body.ret = lzmaOk ∧
              toUnsigned (storedSize src) ≤ (header.produced ++ body.produced).length ∧
              size - lzmaHeaderSize - body.consumed = 0
          · rw [if_pos hcontent]
            dsimp only
            rw [List.length_append] at hcontent ⊢
            constructor
            · rintro ⟨-, hret⟩
              refine ⟨hsize, ?_⟩
              rintro ret total left ⟨header', rfl, -, -, body', hbody', -, rfl, -⟩ -
              rw [hbody'.trans hbody]
              omega
            · rintro ⟨-, hstored⟩
              refine ⟨hreadTo, ?_⟩
              have hright := hstored body.ret _ _
                ⟨header, rfl, hheader.1, by omega, body, hbody.symm, rfl, rfl, rfl⟩ hcontent
              omega
          · rw [if_neg hcontent]
            refine iff_of_true ⟨hreadTo, .inl rfl⟩ ⟨hsize, ?_⟩
            rintro ret total left ⟨header', rfl, -, -, body', hbody', rfl, rfl, rfl⟩ haccepted
            rw [hbody'.trans hbody] at haccepted
            rw [List.length_append] at hcontent
            exact absurd haccepted hcontent
      · -- the header alone is longer than the block
        refine iff_of_false (fun h => hsize ?_) fun h => hsize h.1
        split at h
        · exact h.1
        · split at h
          · exact (Nat.le_add_right _ _).trans h.1
          · exact (Nat.le_add_right _ _).trans h.1

/-- A decoder that knows the stream without data: five bytes of properties, an unknown size, and the ten
bytes of the end marker. -/
def emptyStreamDecoder : LzmaDecoder where
  State := Unit
  aloneDecoder _ := .ok ()
  code _ _ availIn _ action :=
    match action with
    | .run => { ret := lzmaOk, consumed := availIn, produced := [], state := () }
    | .finish => { ret := lzmaStreamEnd, consumed := min availIn 10, produced := [], state := () }
  consumed_le _ _ availIn _ action := by
    cases action with
    | run => exact le_refl _
    | finish => exact Nat.min_le_left _ _
  produced_le _ _ _ _ action := by
    cases action with
    | run => exact Nat.zero_le _
    | finish => exact Nat.zero_le _

/-- The stream without data, with a stored size of 8192. -/
def emptyStream : List UInt8 :=
  [0x5d, 0, 0, 0x80, 0, 0, 0x20, 0, 0, 0, 0, 0, 0, 0, 0x83, 0xff, 0xfb, 0xff, 0xff, 0xc0, 0, 0, 0]

/-- `lzma_uncompress` reports 8192 bytes where none has been produced. -/
theorem not_reportsProduced_emptyStream :
    ¬ ReportsProduced emptyStreamDecoder (fun i => emptyStream.getD i 0) emptyStream.length 8192 := by
  unfold ReportsProduced
  decide

end FirmwareTools.Squashfs

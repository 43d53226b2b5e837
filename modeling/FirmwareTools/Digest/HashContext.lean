import FirmwareTools.Bytes.BlockHash
import FirmwareTools.Bytes.Record
import Mathlib.Tactic.IntervalCases

/-! # The context of a hash function

`md5.c` and `sha256.c` share all but the function that takes in one block: a buffer of two blocks, a
64-bit count of bytes in two words, and the padding. The word order of the host and the alignment of the
caller's buffers make a difference to what the code does, and none to the digest.

* **`processBytes_holds`** — a piece of any length and at any address is taken in;
* **`concludeCtx_state`** — the state in the end is the hash of the padded message;
* **`streamLoop_holds`** — a stream is hashed as a whole, whatever its calls of `fread` return. -/

namespace FirmwareTools.Digest

/-! ## Words in memory -/

/-- What the code is compiled for. -/
structure Host where
  wordsBigendian : Bool
  stringArchUnaligned : Bool

/-- The word with these bytes, the least significant first. -/
def leWord (a b c d : UInt8) : UInt32 :=
  a.toUInt32 ||| b.toUInt32 <<< 8 ||| c.toUInt32 <<< 16 ||| d.toUInt32 <<< 24

/-- The word at the front of some bytes. -/
def wordOf (big : Bool) (bytes : List UInt8) : UInt32 :=
  if big then leWord (bytes.getD 3 0) (bytes.getD 2 0) (bytes.getD 1 0) (bytes.getD 0 0)
  else leWord (bytes.getD 0 0) (bytes.getD 1 0) (bytes.getD 2 0) (bytes.getD 3 0)

/-- The bytes of a word. -/
def bytesOf (big : Bool) (w : UInt32) : List UInt8 :=
  if big then (leBytes 4 w.toNat).reverse else leBytes 4 w.toNat

/-- `*words` -/
def loadWord (host : Host) (bytes : List UInt8) : UInt32 := wordOf host.wordsBigendian bytes

/-- The bytes that `set_uint32` puts into memory, as an assignment does. -/
def setUint32 (host : Host) (v : UInt32) : List UInt8 := bytesOf host.wordsBigendian v

/-- `SWAP`, where it swaps. -/
def swapBytes (n : UInt32) : UInt32 :=
  (n <<< 24) ||| ((n &&& (0xff00 : UInt32)) <<< 8) ||| ((n >>> 8) &&& (0xff00 : UInt32)) ||| (n >>> 24)

/-- `SWAP` for a hash function whose words are big-endian or not. -/
def swap (host : Host) (big : Bool) (n : UInt32) : UInt32 :=
  if host.wordsBigendian = big then n else swapBytes n

theorem swapBytes_leWord (a b c d : UInt8) : swapBytes (leWord a b c d) = leWord d c b a := by
  apply UInt32.toBitVec_inj.mp
  ext i hi
  interval_cases i <;> simp [swapBytes, leWord]

theorem swap_loadWord (host : Host) (big : Bool) (bytes : List UInt8) :
    swap host big (loadWord host bytes) = wordOf big bytes := by
  unfold swap loadWord
  cases hhost : host.wordsBigendian <;> cases big <;> simp [wordOf, swapBytes_leWord]

theorem leBytes_four (w : UInt32) :
    leBytes 4 w.toNat = [w.toUInt8, (w >>> 8).toUInt8, (w >>> 16).toUInt8, (w >>> 24).toUInt8] := by
  have hbyte : ∀ v : UInt32, v.toUInt8 = UInt8.ofNat v.toNat := fun _ => rfl
  simp only [leBytes, hbyte, UInt32.toNat_shiftRight, Nat.shiftRight_eq_div_pow,
    Nat.div_div_eq_div_mul]
  rfl

theorem leBytes_swapBytes (w : UInt32) :
    leBytes 4 (swapBytes w).toNat = (leBytes 4 w.toNat).reverse := by
  have hbytes : (swapBytes w).toUInt8 = (w >>> 24).toUInt8 ∧
      (swapBytes w >>> 8).toUInt8 = (w >>> 16).toUInt8 ∧
      (swapBytes w >>> 16).toUInt8 = (w >>> 8).toUInt8 ∧
      (swapBytes w >>> 24).toUInt8 = w.toUInt8 := by
    refine ⟨?_, ?_, ?_, ?_⟩ <;>
    · apply UInt8.toBitVec_inj.mp
      ext i hi
      interval_cases i <;> simp [swapBytes]
  obtain ⟨h₀, h₁, h₂, h₃⟩ := hbytes
  rw [leBytes_four, leBytes_four, h₀, h₁, h₂, h₃]
  rfl

theorem setUint32_swap (host : Host) (big : Bool) (w : UInt32) :
    setUint32 host (swap host big w) = bytesOf big w := by
  unfold swap setUint32
  cases hhost : host.wordsBigendian <;> cases big <;> simp [bytesOf, leBytes_swapBytes]

@[simp] theorem length_bytesOf (big : Bool) (w : UInt32) : (bytesOf big w).length = 4 := by
  cases big <;> simp [bytesOf]

/-! ## The length -/

/-- The two words of the length in bits that are put at the end, in the order of the words' bytes. -/
def lengthWords (big : Bool) (total0 total1 : UInt32) : UInt32 × UInt32 :=
  let low := total0 <<< 3
  let high := (total1 <<< 3) ||| (total0 >>> 29)
  if big then (high, low) else (low, high)

/-- The eight bytes of the length in bits of `n` bytes. -/
def lengthBytes (big : Bool) (n : ℕ) : List UInt8 :=
  if big then (leBytes 8 (8 * n)).reverse else leBytes 8 (8 * n)

@[simp] theorem length_lengthBytes (big : Bool) (n : ℕ) : (lengthBytes big n).length = 8 := by
  cases big <;> simp [lengthBytes]

theorem leBytes_mod (w n : ℕ) : leBytes w (n % 256 ^ w) = leBytes w n := by
  induction w generalizing n with
  | zero => rfl
  | succ w ih =>
      have hfirst : UInt8.ofNat (n % 256 ^ (w + 1)) = UInt8.ofNat n := by
        apply UInt8.toNat_inj.mp
        rw [UInt8.toNat_ofNat', UInt8.toNat_ofNat']
        exact Nat.mod_mod_of_dvd n (Dvd.intro_left _ rfl)
      have hrest : n % 256 ^ (w + 1) / 256 = n / 256 % 256 ^ w := by
        rw [pow_succ', Nat.mod_mul_right_div_self]
      rw [leBytes, leBytes, hfirst, hrest, ih]

theorem leBytes_add (v w n : ℕ) : leBytes (v + w) n = leBytes v n ++ leBytes w (n / 256 ^ v) := by
  induction v generalizing n with
  | zero => rw [Nat.zero_add, pow_zero, Nat.div_one, leBytes, List.nil_append]
  | succ v ih =>
      rw [Nat.succ_add, leBytes, leBytes, ih, List.cons_append, Nat.div_div_eq_div_mul, pow_succ']

/-- **The length in bits** of the bytes that are counted in two words. -/
theorem bytesOf_lengthWords (big : Bool) {total0 total1 : UInt32} {n : ℕ}
    (h : total1.toNat * 2 ^ 32 + total0.toNat = n % 2 ^ 64) :
    bytesOf big (lengthWords big total0 total1).1 ++ bytesOf big (lengthWords big total0 total1).2
      = lengthBytes big n := by
  have hlow : (total0 <<< 3).toNat = 8 * n % 2 ^ 32 := by
    rw [UInt32.toNat_shiftLeft, Nat.shiftLeft_eq]
    simp only [UInt32.reduceToNat, Nat.reduceMod, Nat.reducePow] at h ⊢
    omega
  have hhigh : ((total1 <<< 3) ||| (total0 >>> 29)).toNat = 8 * n / 2 ^ 32 % 2 ^ 32 := by
    have hlt : total0.toNat < 2 ^ 32 := total0.toNat_lt
    have hsplit : total1.toNat <<< 3 % 2 ^ 32 = (total1.toNat % 2 ^ 29) <<< 3 := by
      rw [Nat.shiftLeft_eq, Nat.shiftLeft_eq]
      omega
    rw [UInt32.toNat_or, UInt32.toNat_shiftLeft, UInt32.toNat_shiftRight]
    simp only [UInt32.reduceToNat, Nat.reduceMod]
    rw [hsplit, Nat.shiftRight_eq_div_pow, ← Nat.shiftLeft_add_eq_or_of_lt (by omega),
      Nat.shiftLeft_eq]
    omega
  have hbytes : leBytes 4 (total0 <<< 3).toNat
      ++ leBytes 4 ((total1 <<< 3) ||| (total0 >>> 29)).toNat = leBytes 8 (8 * n) := by
    rw [hlow, hhigh, show (2 : ℕ) ^ 32 = 256 ^ 4 by decide, leBytes_mod, leBytes_mod,
      ← leBytes_add]
  cases big
  · exact hbytes
  · rw [lengthBytes, if_pos rfl, ← hbytes, List.reverse_append]
    rfl

/-! ## The context -/

/-- `struct md5_ctx` and `struct sha256_ctx`: the buffer takes two blocks. -/
structure Ctx (σ : Type*) where
  state : σ
  total0 : UInt32
  total1 : UInt32
  buflen : ℕ
  buffer : List UInt8

def memcpy (dst : List UInt8) (start : ℕ) (src : List UInt8) : List UInt8 :=
  dst.take start ++ src ++ dst.drop (start + src.length)

/-- `n & ~63` -/
def wholeBlocks (n : ℕ) : ℕ := n / 64 * 64

variable {σ : Type*}

/-- Count some bytes. -/
def Ctx.count (ctx : Ctx σ) (len : ℕ) : Ctx σ :=
  let total0 := ctx.total0 + UInt32.ofNat len
  { ctx with total0, total1 := if total0.toNat < len then ctx.total1 + 1 else ctx.total1 }

/-- `md5_process_block` and `sha256_process_block`, for a length that is a multiple of 64. -/
def processBlock (compress : σ → List UInt8 → σ) (buffer : List UInt8) (ctx : Ctx σ) : Ctx σ :=
  let ctx := ctx.count buffer.length
  { ctx with state := absorb 64 compress ctx.state buffer }

section ProcessBytes

variable (host : Host) (processBlock : List UInt8 → Ctx σ → Ctx σ)

/-- The first part of `md5_process_bytes`: fill up the internal buffer. -/
def fillBuffer (add : ℕ) (buffer : List UInt8) (ctx : Ctx σ) : Ctx σ :=
  let leftOver := ctx.buflen
  let ctx := { ctx with
    buffer := memcpy ctx.buffer leftOver (buffer.take add), buflen := ctx.buflen + add }
  if 64 < ctx.buflen then
    let ctx := processBlock (ctx.buffer.take (wholeBlocks ctx.buflen)) ctx
    let ctx := { ctx with buflen := ctx.buflen % 64 }
    { ctx with
      buffer := memcpy ctx.buffer 0 ((ctx.buffer.drop (wholeBlocks (leftOver + add))).take ctx.buflen) }
  else ctx

/-- The loop over the blocks of an unaligned buffer. The first argument is a bound on its rounds. -/
def processUnaligned : ℕ → List UInt8 → Ctx σ → List UInt8 × Ctx σ
  | 0, buffer, ctx => (buffer, ctx)
  | n + 1, buffer, ctx =>
    if 64 < buffer.length then
      let copied := memcpy ctx.buffer 0 (buffer.take 64)
      processUnaligned n (buffer.drop 64)
        (processBlock (copied.take 64) { ctx with buffer := copied })
    else (buffer, ctx)

/-- The second part: process available complete blocks. -/
def processComplete (addr : ℕ) (buffer : List UInt8) (ctx : Ctx σ) : List UInt8 × Ctx σ :=
  if 64 ≤ buffer.length then
    if !host.stringArchUnaligned && addr % 4 != 0 then
      processUnaligned processBlock buffer.length buffer ctx
    else
      (buffer.drop (wholeBlocks buffer.length),
        processBlock (buffer.take (wholeBlocks buffer.length)) ctx)
  else (buffer, ctx)

/-- The last part: move remaining bytes in the internal buffer. -/
def keepRest (buffer : List UInt8) (ctx : Ctx σ) : Ctx σ :=
  if 0 < buffer.length then
    let leftOver := ctx.buflen + buffer.length
    let ctx := { ctx with buffer := memcpy ctx.buffer ctx.buflen buffer }
    if 64 ≤ leftOver then
      let ctx := processBlock (ctx.buffer.take 64) ctx
      let leftOver := leftOver - 64
      { ctx with
        buffer := memcpy ctx.buffer 0 ((ctx.buffer.drop 64).take leftOver), buflen := leftOver }
    else { ctx with buflen := leftOver }
  else ctx

/-- `md5_process_bytes` and `sha256_process_bytes`, of the bytes at an address. -/
def processBytes (addr : ℕ) (buffer : List UInt8) (ctx : Ctx σ) : Ctx σ :=
  let add :=
    if ctx.buflen = 0 then 0
    else if buffer.length < 128 - ctx.buflen then buffer.length else 128 - ctx.buflen
  let ctx := if ctx.buflen = 0 then ctx else fillBuffer processBlock add buffer ctx
  let (buffer, ctx) := processComplete host processBlock (addr + add) (buffer.drop add) ctx
  keepRest processBlock buffer ctx

/-- `fillbuf` -/
def fillbuf : List UInt8 := 0x80 :: List.replicate 63 0

/-- `md5_finish_ctx` and `sha256_conclude_ctx`, up to the digest. -/
def concludeCtx (big : Bool) (ctx : Ctx σ) : Ctx σ :=
  let bytes := ctx.buflen
  let size := if bytes < 56 then 64 / 4 else 64 * 2 / 4
  let ctx := ctx.count bytes
  let words := lengthWords big ctx.total0 ctx.total1
  let buffer := memcpy ctx.buffer ((size - 2) * 4) (setUint32 host (swap host big words.1))
  let buffer := memcpy buffer ((size - 1) * 4) (setUint32 host (swap host big words.2))
  let buffer := memcpy buffer bytes (fillbuf.take ((size - 2) * 4 - bytes))
  processBlock (buffer.take (size * 4)) { ctx with buffer }

end ProcessBytes

/-! ## Pieces of a message -/

section Holds

variable {compress : σ → List UInt8 → σ} {s₀ : σ} {ctx : Ctx σ} {msg : List UInt8}

@[simp] theorem length_memcpy {dst src : List UInt8} {start : ℕ}
    (h : start + src.length ≤ dst.length) : (memcpy dst start src).length = dst.length := by
  simp only [memcpy, List.length_append, List.length_take, List.length_drop]
  omega

/-- What stands in front of the end of what is copied. -/
theorem take_memcpy (dst : List UInt8) (start : ℕ) (src : List UInt8) (h : start ≤ dst.length) :
    (memcpy dst start src).take (start + src.length) = dst.take start ++ src := by
  have hlen : (dst.take start ++ src).length = start + src.length := by
    rw [List.length_append, List.length_take, Nat.min_eq_left h]
  rw [memcpy, ← hlen, List.take_left]

/-- The context has taken in a message: what is in the buffer is pending, and the rest of it is
counted. -/
structure Holds (compress : σ → List UInt8 → σ) (s₀ : σ) (ctx : Ctx σ) (msg : List UInt8) : Prop where
  length_buffer : ctx.buffer.length = 128
  buflen_le : ctx.buflen ≤ 128
  absorbed : Absorbed 64 compress s₀ ctx.state (ctx.buffer.take ctx.buflen) msg
  total : ctx.total1.toNat * 2 ^ 32 + ctx.total0.toNat = (msg.length - ctx.buflen) % 2 ^ 64

@[simp] theorem Ctx.count_buffer (ctx : Ctx σ) (len : ℕ) : (ctx.count len).buffer = ctx.buffer := rfl

/-- Two words are one number. -/
theorem double_word {B q c : ℕ} (hc : c < B) : q % B * B + c = (q * B + c) % (B * B) := by
  have hpos : 0 < B := by omega
  rw [Nat.mod_mul, Nat.mul_add_mod_self_right, Nat.mod_eq_of_lt hc, Nat.add_comm (q * B),
    Nat.add_mul_div_right _ _ hpos, Nat.div_eq_of_lt hc, Nat.zero_add, Nat.mul_comm B, Nat.add_comm]

/-- **The double word increment** adds what is less than a word. -/
theorem Ctx.count_total (ctx : Ctx σ) (len : ℕ) {n : ℕ} (hlen : len < 2 ^ 32)
    (h : ctx.total1.toNat * 2 ^ 32 + ctx.total0.toNat = n % 2 ^ 64) :
    (ctx.count len).total1.toNat * 2 ^ 32 + (ctx.count len).total0.toNat = (n + len) % 2 ^ 64 := by
  have h₀ : ctx.total0.toNat < 2 ^ 32 := ctx.total0.toNat_lt
  have hsum : (ctx.total0 + UInt32.ofNat len).toNat = (ctx.total0.toNat + len) % 2 ^ 32 := by
    rw [UInt32.toNat_add, UInt32.toNat_ofNat_of_lt' hlen]
  have hcarried : (ctx.total1 + 1).toNat = (ctx.total1.toNat + 1) % 2 ^ 32 := by
    rw [UInt32.toNat_add, UInt32.toNat_one]
  have hlt : (ctx.total0.toNat + len) % 2 ^ 32 < 2 ^ 32 := Nat.mod_lt _ (Nat.two_pow_pos 32)
  have h₁ : ctx.total1.toNat < 2 ^ 32 := ctx.total1.toNat_lt
  rw [← Nat.mod_add_mod, ← h, Nat.add_assoc, show (2 : ℕ) ^ 64 = 2 ^ 32 * 2 ^ 32 by decide]
  simp only [Ctx.count, hsum]
  generalize (2 : ℕ) ^ 32 = B at *
  by_cases hcarry : (ctx.total0.toNat + len) % B < len
  · -- the sum went over one word
    have hsplit : ctx.total0.toNat + len = B + (ctx.total0.toNat + len) % B := by
      have hge : B ≤ ctx.total0.toNat + len := by
        by_contra hlt'
        rw [Nat.mod_eq_of_lt (by omega)] at hcarry
        omega
      rw [Nat.mod_eq_sub_mod hge, Nat.mod_eq_of_lt (by omega)]
      omega
    rw [if_pos hcarry, hcarried, double_word hlt, Nat.succ_mul, Nat.add_assoc, ← hsplit]
  · have hone : (ctx.total0.toNat + len) % B = ctx.total0.toNat + len := by
      apply Nat.mod_eq_of_lt
      by_contra hge
      rw [Nat.mod_eq_sub_mod (by omega), Nat.mod_eq_of_lt (by omega)] at hcarry
      omega
    have hsmall := double_word (q := ctx.total1.toNat) hlt
    rw [Nat.mod_eq_of_lt h₁] at hsmall
    rw [if_neg hcarry, hsmall, hone]

@[simp] theorem processBlock_buffer (compress : σ → List UInt8 → σ) (buffer : List UInt8) (ctx : Ctx σ) :
    (processBlock compress buffer ctx).buffer = ctx.buffer := rfl

@[simp] theorem processBlock_buflen (compress : σ → List UInt8 → σ) (buffer : List UInt8) (ctx : Ctx σ) :
    (processBlock compress buffer ctx).buflen = ctx.buflen := rfl

theorem Holds.length_pending (h : Holds compress s₀ ctx msg) :
    (ctx.buffer.take ctx.buflen).length = ctx.buflen := by
  rw [List.length_take, h.length_buffer, Nat.min_eq_left h.buflen_le]

theorem Holds.buflen_le_length (h : Holds compress s₀ ctx msg) : ctx.buflen ≤ msg.length :=
  h.length_pending ▸ h.absorbed.length_le

/-- Bytes are copied behind what is pending. -/
theorem Holds.copyIn (h : Holds compress s₀ ctx msg) (piece : List UInt8)
    (hroom : ctx.buflen + piece.length ≤ 128) :
    Holds compress s₀
      { ctx with buffer := memcpy ctx.buffer ctx.buflen piece, buflen := ctx.buflen + piece.length }
      (msg ++ piece) where
  length_buffer := by rw [length_memcpy (by rw [h.length_buffer]; exact hroom), h.length_buffer]
  buflen_le := hroom
  absorbed := by
    rw [take_memcpy _ _ _ (by rw [h.length_buffer]; exact h.buflen_le)]
    exact h.absorbed.append piece
  total := by
    rw [h.total, List.length_append, Nat.add_sub_add_right]

/-- Whole blocks at the front of the buffer are taken in, and the rest is moved to its front. -/
theorem Holds.shift (h : Holds compress s₀ ctx msg) {n : ℕ} (hdvd : 64 ∣ n) (hn : n ≤ ctx.buflen) :
    Holds compress s₀
      { processBlock compress (ctx.buffer.take n) ctx with
        buffer := memcpy ctx.buffer 0 ((ctx.buffer.drop n).take (ctx.buflen - n))
        buflen := ctx.buflen - n } msg := by
  have hbuffer := h.length_buffer
  have hle := h.buflen_le
  have hfront : (ctx.buffer.take n).length = n := by
    rw [List.length_take, hbuffer]
    omega
  have hrest : ((ctx.buffer.drop n).take (ctx.buflen - n)).length = ctx.buflen - n := by
    rw [List.length_take, List.length_drop, hbuffer]
    omega
  have hpending : ctx.buffer.take ctx.buflen
      = ctx.buffer.take n ++ (ctx.buffer.drop n).take (ctx.buflen - n) := by
    rw [← List.take_add, Nat.add_sub_cancel' hn]
  have habsorbed := h.absorbed
  rw [hpending] at habsorbed
  refine ⟨?_, (Nat.sub_le _ _).trans hle, ?_, ?_⟩
  · rw [length_memcpy (by rw [hrest, hbuffer]; omega), hbuffer]
  · have htake := take_memcpy ctx.buffer 0 ((ctx.buffer.drop n).take (ctx.buflen - n)) (Nat.zero_le _)
    rw [Nat.zero_add, hrest, List.take_zero, List.nil_append] at htake
    rw [htake]
    exact habsorbed.flush (by decide) (by rw [hfront]; exact hdvd)
  · have hmsg := h.buflen_le_length
    have hsmall : (ctx.buffer.take n).length < 2 ^ 32 :=
      hfront.trans_le (hn.trans hle) |>.trans_lt (by decide)
    have hcount := ctx.count_total _ hsmall h.total
    have hleft : msg.length - ctx.buflen + (ctx.buffer.take n).length
        = msg.length - (ctx.buflen - n) := by
      rw [hfront]
      omega
    rwa [hleft] at hcount

/-- Whole blocks of the caller's bytes are taken in when nothing is pending. -/
theorem Holds.whole (h : Holds compress s₀ ctx msg) (hempty : ctx.buflen = 0) (blocks : List UInt8)
    (hdvd : 64 ∣ blocks.length) (hlen : blocks.length < 2 ^ 32) :
    Holds compress s₀ (processBlock compress blocks ctx) (msg ++ blocks) where
  length_buffer := h.length_buffer
  buflen_le := h.buflen_le
  absorbed := by
    have hpiece := h.absorbed.append blocks
    rw [hempty, List.take_zero, List.nil_append] at hpiece
    rw [processBlock_buffer, processBlock_buflen, hempty, List.take_zero]
    refine Absorbed.flush (by decide) ?_ hdvd
    rwa [List.append_nil]
  total := by
    have htotal := h.total
    rw [hempty, Nat.sub_zero] at htotal
    rw [processBlock_buflen, hempty, Nat.sub_zero, List.length_append]
    exact ctx.count_total _ hlen htotal

/-- What is in the buffer does not matter when nothing is pending. -/
theorem Holds.withBuffer (h : Holds compress s₀ ctx msg) (hempty : ctx.buflen = 0)
    {buffer : List UInt8} (hbuffer : buffer.length = 128) :
    Holds compress s₀ { ctx with buffer } msg where
  length_buffer := hbuffer
  buflen_le := h.buflen_le
  absorbed := by
    have habsorbed := h.absorbed
    rw [hempty, List.take_zero] at habsorbed
    rwa [hempty, List.take_zero]
  total := h.total

theorem wholeBlocks_le (n : ℕ) : wholeBlocks n ≤ n := Nat.div_mul_le_self n 64

theorem dvd_wholeBlocks (n : ℕ) : 64 ∣ wholeBlocks n := Dvd.intro_left _ rfl

theorem mod_eq_sub_wholeBlocks (n : ℕ) : n % 64 = n - wholeBlocks n := by
  unfold wholeBlocks
  omega

/-- **The first part**: the internal buffer is filled up, and gone through once it is over one
block. -/
theorem fillBuffer_holds (h : Holds compress s₀ ctx msg) {add : ℕ} {buffer : List UInt8}
    (hadd : add ≤ buffer.length) (hroom : ctx.buflen + add ≤ 128) :
    Holds compress s₀ (fillBuffer (processBlock compress) add buffer ctx) (msg ++ buffer.take add) ∧
      (fillBuffer (processBlock compress) add buffer ctx).buflen
        = if 64 < ctx.buflen + add then (ctx.buflen + add) % 64 else ctx.buflen + add := by
  have hpiece : (buffer.take add).length = add := by
    rw [List.length_take, Nat.min_eq_left hadd]
  have hfilled := h.copyIn (buffer.take add) (by rw [hpiece]; exact hroom)
  rw [hpiece] at hfilled
  unfold fillBuffer
  by_cases hover : 64 < ctx.buflen + add
  · have hshift := hfilled.shift (dvd_wholeBlocks (ctx.buflen + add)) (wholeBlocks_le _)
    simp only [if_pos hover, processBlock_buffer, processBlock_buflen, mod_eq_sub_wholeBlocks]
    exact ⟨hshift, trivial⟩
  · simp only [if_neg hover]
    exact ⟨hfilled, trivial⟩

/-- What a part of `process_bytes` makes of the bytes it is given: a part of them is taken in, and at
most one block is left, for which the buffer is empty. -/
structure TakesIn (compress : σ → List UInt8 → σ) (s₀ : σ) (msg buffer : List UInt8)
    (result : List UInt8 × Ctx σ) : Prop where
  length_le : result.1.length ≤ 64
  empty : result.1 ≠ [] → result.2.buflen = 0
  holds : ∃ done, buffer = done ++ result.1 ∧ Holds compress s₀ result.2 (msg ++ done)

theorem processUnaligned_takesIn {n : ℕ} (buffer : List UInt8) (hn : buffer.length ≤ n)
    (h : Holds compress s₀ ctx msg) (hempty : ctx.buflen = 0) :
    TakesIn compress s₀ msg buffer (processUnaligned (processBlock compress) n buffer ctx) ∧
      (processUnaligned (processBlock compress) n buffer ctx).2.buflen = 0 := by
  induction n generalizing buffer ctx msg with
  | zero =>
      refine ⟨⟨?_, fun _ => hempty, [], rfl, ?_⟩, hempty⟩
      · exact hn.trans (Nat.zero_le _)
      · rwa [List.append_nil]
  | succ n ih =>
      unfold processUnaligned
      by_cases hmore : 64 < buffer.length
      · rw [if_pos hmore]
        have hpiece : (buffer.take 64).length = 64 := by
          rw [List.length_take]
          omega
        have hcopied : (memcpy ctx.buffer 0 (buffer.take 64)).take 64 = buffer.take 64 := by
          have htake := take_memcpy ctx.buffer 0 (buffer.take 64) (Nat.zero_le _)
          rwa [hpiece, List.take_zero, List.nil_append] at htake
        have hbuffer : (memcpy ctx.buffer 0 (buffer.take 64)).length = 128 := by
          rw [length_memcpy (by rw [hpiece, h.length_buffer]; decide), h.length_buffer]
        have hwhole := (h.withBuffer hempty hbuffer).whole hempty (buffer.take 64)
          (by rw [hpiece]) (by rw [hpiece]; decide)
        obtain ⟨⟨hle, hnil, done, hdone, hholds⟩, hzero⟩ := ih (buffer.drop 64)
          (by rw [List.length_drop]; omega) hwhole hempty
        simp only [hcopied]
        refine ⟨⟨hle, hnil, buffer.take 64 ++ done, ?_, ?_⟩, hzero⟩
        · rw [List.append_assoc, ← hdone, List.take_append_drop]
        · rwa [← List.append_assoc]
      · rw [if_neg hmore]
        refine ⟨⟨Nat.le_of_not_lt hmore, fun _ => hempty, [], rfl, ?_⟩, hempty⟩
        rwa [List.append_nil]

/-- **The second part**: whole blocks are taken in where they are, or one by one through the buffer. -/
theorem processComplete_takesIn (host : Host) (addr : ℕ) {buffer : List UInt8}
    (hlen : buffer.length < 2 ^ 32) (h : Holds compress s₀ ctx msg)
    (hempty : buffer ≠ [] → ctx.buflen = 0) :
    TakesIn compress s₀ msg buffer (processComplete host (processBlock compress) addr buffer ctx) ∧
      (processComplete host (processBlock compress) addr buffer ctx).2.buflen = ctx.buflen := by
  unfold processComplete
  by_cases hblock : 64 ≤ buffer.length
  · have hzero : ctx.buflen = 0 := by
      apply hempty
      rintro rfl
      exact absurd hblock (by decide)
    rw [if_pos hblock]
    split
    · rw [hzero]
      exact processUnaligned_takesIn buffer le_rfl h hzero
    · have hpiece : (buffer.take (wholeBlocks buffer.length)).length = wholeBlocks buffer.length := by
        rw [List.length_take, Nat.min_eq_left (wholeBlocks_le _)]
      have hwhole := h.whole hzero (buffer.take (wholeBlocks buffer.length))
        (by rw [hpiece]; exact dvd_wholeBlocks _)
        (by rw [hpiece]; exact (wholeBlocks_le _).trans_lt hlen)
      refine ⟨⟨?_, fun _ => hzero, _, (List.take_append_drop _ _).symm, hwhole⟩, rfl⟩
      rw [List.length_drop, ← mod_eq_sub_wholeBlocks]
      exact (Nat.mod_lt _ (by decide)).le
  · rw [if_neg hblock]
    refine ⟨⟨(Nat.lt_of_not_le hblock).le, hempty, [], rfl, ?_⟩, rfl⟩
    rwa [List.append_nil]

/-- **The last part**: what is left is put into the buffer. -/
theorem keepRest_holds {buffer : List UInt8} (hlen : buffer.length ≤ 64)
    (h : Holds compress s₀ ctx msg) (hempty : buffer ≠ [] → ctx.buflen = 0) (hle : ctx.buflen ≤ 64) :
    Holds compress s₀ (keepRest (processBlock compress) buffer ctx) (msg ++ buffer) ∧
      (keepRest (processBlock compress) buffer ctx).buflen ≤ 64 := by
  unfold keepRest
  by_cases hsome : 0 < buffer.length
  · have hzero := hempty (List.length_pos_iff.mp hsome)
    have hcopied := h.copyIn buffer (by omega)
    rw [if_pos hsome]
    by_cases hfull : 64 ≤ ctx.buflen + buffer.length
    · have hshift := hcopied.shift (n := 64) (Nat.dvd_refl 64) hfull
      simp only [if_pos hfull, processBlock_buffer]
      refine ⟨hshift, ?_⟩
      show ctx.buflen + buffer.length - 64 ≤ 64
      omega
    · simp only [if_neg hfull]
      refine ⟨hcopied, ?_⟩
      show ctx.buflen + buffer.length ≤ 64
      omega
  · have hnil : buffer = [] := by
      rw [← List.length_eq_zero_iff]
      omega
    rw [if_neg hsome, hnil, List.append_nil]
    exact ⟨h, hle⟩

/-- **A piece of the message** of less than 4 GiB, wherever it is in memory. -/
theorem processBytes_holds (host : Host) (addr : ℕ) {buffer : List UInt8}
    (hlen : buffer.length < 2 ^ 32) (h : Holds compress s₀ ctx msg) (hle : ctx.buflen ≤ 64) :
    Holds compress s₀ (processBytes host (processBlock compress) addr buffer ctx) (msg ++ buffer) ∧
      (processBytes host (processBlock compress) addr buffer ctx).buflen ≤ 64 := by
  unfold processBytes
  extract_lets add filled
  have hadd : add ≤ buffer.length ∧ ctx.buflen + add ≤ 128 := by
    simp only [add]
    split
    · omega
    · split <;> omega
  have hfilled : Holds compress s₀ filled (msg ++ buffer.take add) ∧ filled.buflen ≤ 64 ∧
      (buffer.drop add ≠ [] → filled.buflen = 0) := by
    by_cases hzero : ctx.buflen = 0
    · have hnone : add = 0 := if_pos hzero
      have hsame : filled = ctx := if_pos hzero
      rw [hnone, hsame, List.take_zero, List.append_nil]
      exact ⟨h, hle, fun _ => hzero⟩
    · have hfill : filled = fillBuffer (processBlock compress) add buffer ctx := if_neg hzero
      obtain ⟨hholds, hbuflen⟩ := fillBuffer_holds h hadd.1 hadd.2
      rw [hfill]
      refine ⟨hholds, ?_, fun hmore => ?_⟩
      · rw [hbuflen]
        split <;> omega
      · -- bytes are left only when both blocks of the buffer have been filled
        have hless : add < buffer.length := by
          by_contra hall
          exact hmore (List.drop_eq_nil_of_le (Nat.le_of_not_lt hall))
        have hvalue : add = if buffer.length < 128 - ctx.buflen then buffer.length
            else 128 - ctx.buflen := if_neg hzero
        have hfull : ctx.buflen + add = 128 := by
          rw [hvalue] at hless ⊢
          split at hless
          · exact absurd hless (lt_irrefl _)
          · rename_i hnot
            rw [if_neg hnot]
            omega
        rw [hbuflen, hfull]
        rfl
  obtain ⟨hholds, hfilledLe, hempty⟩ := hfilled
  obtain ⟨⟨hrest, hnil, done, hdone, htaken⟩, hsame⟩ :=
    processComplete_takesIn host (addr + add) (by rw [List.length_drop]; omega) hholds hempty
  have hkeep := keepRest_holds hrest htaken hnil (hsame.trans_le hfilledLe)
  rwa [List.append_assoc, List.append_assoc, ← hdone, List.take_append_drop] at hkeep

/-- **All pieces of a message**, one after the other. -/
theorem processPieces_holds (host : Host) (h : Holds compress s₀ ctx msg) (hle : ctx.buflen ≤ 64)
    {pieces : List (ℕ × List UInt8)} (hpieces : ∀ p ∈ pieces, p.2.length < 2 ^ 32) :
    Holds compress s₀
        (pieces.foldl (fun ctx p => processBytes host (processBlock compress) p.1 p.2 ctx) ctx)
        (msg ++ pieces.flatMap Prod.snd) ∧
      (pieces.foldl (fun ctx p => processBytes host (processBlock compress) p.1 p.2 ctx) ctx).buflen
        ≤ 64 := by
  induction pieces generalizing ctx msg with
  | nil =>
      rw [List.flatMap_nil, List.append_nil]
      exact ⟨h, hle⟩
  | cons p pieces ih =>
      rw [List.forall_mem_cons] at hpieces
      obtain ⟨htaken, htakenLe⟩ := processBytes_holds host p.1 hpieces.1 h hle
      rw [List.foldl_cons, List.flatMap_cons, ← List.append_assoc]
      exact ih htaken htakenLe hpieces.2

/-! ## The end of a message -/

theorem take_memcpy_of_le {dst src : List UInt8} {start n : ℕ} (h : start ≤ dst.length) (hn : n ≤ start) :
    (memcpy dst start src).take n = dst.take n := by
  rw [memcpy, List.append_assoc, List.take_append_of_le_length, List.take_take, Nat.min_eq_left hn]
  rw [List.length_take]
  omega

theorem drop_memcpy (dst : List UInt8) (start : ℕ) (src : List UInt8) (h : start ≤ dst.length) :
    (memcpy dst start src).drop (start + src.length) = dst.drop (start + src.length) := by
  have hlen : (dst.take start ++ src).length = start + src.length := by
    rw [List.length_append, List.length_take, Nat.min_eq_left h]
  rw [memcpy]
  conv_lhs => rw [← hlen, List.drop_left, hlen]

/-- Two words at the end and the padding in front of them. -/
theorem take_padded {buffer fill word₁ word₂ : List UInt8} {bytes stop : ℕ}
    (hbuffer : stop + 8 ≤ buffer.length) (h₁ : word₁.length = 4) (h₂ : word₂.length = 4)
    (hfill : bytes + fill.length = stop) :
    (memcpy (memcpy (memcpy buffer stop word₁) (stop + 4) word₂) bytes fill).take (stop + 8)
      = buffer.take bytes ++ (fill ++ (word₁ ++ word₂)) := by
  have hlen₁ : (memcpy buffer stop word₁).length = buffer.length := by
    rw [length_memcpy (by omega)]
  have hlen₂ : (memcpy (memcpy buffer stop word₁) (stop + 4) word₂).length = buffer.length := by
    rw [length_memcpy (by omega), hlen₁]
  have htail : (memcpy (memcpy buffer stop word₁) (stop + 4) word₂).take (stop + 8)
      = buffer.take stop ++ (word₁ ++ word₂) := by
    have h₈ := take_memcpy (memcpy buffer stop word₁) (stop + 4) word₂ (by omega)
    have h₄ := take_memcpy buffer stop word₁ (by omega)
    rw [h₂] at h₈
    rw [h₁] at h₄
    rw [h₈, h₄, List.append_assoc]
  generalize hwords : memcpy (memcpy buffer stop word₁) (stop + 4) word₂ = words at htail hlen₂
  have hfront : words.take bytes = buffer.take bytes := by
    rw [← hwords, take_memcpy_of_le (by omega) (by omega), take_memcpy_of_le (by omega) (by omega)]
  have hback : (words.drop stop).take 8 = word₁ ++ word₂ := by
    have hdrop := congrArg (List.drop stop) htail
    rw [List.drop_take, Nat.add_sub_cancel_left] at hdrop
    rw [hdrop]
    exact List.drop_left' (by rw [List.length_take]; omega)
  have htake := take_memcpy words bytes fill (by omega)
  have hdrop := drop_memcpy words bytes fill (by omega)
  rw [hfill] at htake hdrop
  rw [List.take_add, htake, hdrop, hfront, hback, List.append_assoc]

theorem take_fillbuf {n : ℕ} (h : 0 < n) (hn : n ≤ 64) :
    fillbuf.take n = 0x80 :: List.replicate (n - 1) 0 := by
  obtain ⟨k, rfl⟩ := Nat.exists_eq_add_of_lt h
  rw [fillbuf, Nat.zero_add, List.take_succ_cons, List.take_replicate, Nat.min_eq_left (by omega),
    Nat.add_sub_cancel]

/-- **The state in the end** is the hash of the padded message, whatever the host. -/
theorem concludeCtx_state (host : Host) (big : Bool) (h : Holds compress s₀ ctx msg)
    (hle : ctx.buflen ≤ 64) :
    (concludeCtx host (processBlock compress) big ctx).state
      = absorb 64 compress s₀ (msg ++ padding 64 (lengthBytes big msg.length) msg.length) := by
  -- the length is that of the whole message
  have htotal := ctx.count_total ctx.buflen (hle.trans_lt (by decide)) h.total
  rw [Nat.sub_add_cancel h.buflen_le_length] at htotal
  have hwords := bytesOf_lengthWords big htotal
  have hmod : msg.length % 64 = ctx.buflen % 64 := by
    rw [h.absorbed.length_mod, h.length_pending]
  obtain ⟨size, hsize⟩ : ∃ size, (if ctx.buflen < 56 then 64 / 4 else 64 * 2 / 4) = size := ⟨_, rfl⟩
  have hcases : size = 16 ∧ ctx.buflen < 56 ∨ size = 32 ∧ 56 ≤ ctx.buflen := by
    split at hsize <;> omega
  obtain ⟨stop, hstop⟩ : ∃ stop, (size - 2) * 4 = stop := ⟨_, rfl⟩
  have hend : (size - 1) * 4 = stop + 4 ∧ size * 4 = stop + 8 ∧ ctx.buflen < stop ∧
      stop - ctx.buflen ≤ 64 ∧ stop + 8 ≤ 128 ∧ 64 ∣ stop + 8 := by
    omega
  obtain ⟨hsecond, hall, hlt, hfill, hroom, hblocks⟩ := hend
  have hzeros : padZeros 64 8 msg.length = stop - ctx.buflen - 1 := by
    refine padZeros_eq (by decide) (by omega) ?_
    omega
  have hlen : (fillbuf.take (stop - ctx.buflen)).length = stop - ctx.buflen := by
    rw [take_fillbuf (by omega) hfill, List.length_cons, List.length_replicate]
    omega
  have hpadded : fillbuf.take (stop - ctx.buflen)
        ++ (bytesOf big (lengthWords big (ctx.count ctx.buflen).total0 (ctx.count ctx.buflen).total1).1
          ++ bytesOf big (lengthWords big (ctx.count ctx.buflen).total0
            (ctx.count ctx.buflen).total1).2)
      = padding 64 (lengthBytes big msg.length) msg.length := by
    rw [hwords, take_fillbuf (by omega) hfill, padding, length_lengthBytes, hzeros]
  simp only [concludeCtx, hsize, hstop, hsecond, hall, setUint32_swap, Ctx.count_buffer]
  rw [take_padded (by rw [h.length_buffer]; exact hroom) (length_bytesOf _ _) (length_bytesOf _ _)
    (by rw [hlen]; omega), hpadded]
  exact (h.absorbed.append _).finish (by decide)

end Holds

/-! ## Streams -/

/-- A stream: what has not been read, how many bytes each of the next calls of `fread` gets before a
read error strikes, and the two flags. -/
structure InputStream where
  content : List UInt8
  limits : List ℕ
  feof : Bool
  ferror : Bool

/-- `fread`: fewer bytes than asked for mean the end of the file or an error. -/
def fread (want : ℕ) (file : InputStream) : List UInt8 × InputStream :=
  let n := min (file.limits.headD want) want
  let failed := n < want && n ≤ file.content.length
  (file.content.take n,
    { content := file.content.drop n
      limits := file.limits.tail
      feof := file.feof || (decide (file.content.length < want) && !failed)
      ferror := file.ferror || failed })

/-- The end of the file is only noticed behind its last byte. -/
def InputStream.WellFormed (file : InputStream) : Prop := file.feof = true → file.content = []

/-- No read fails. -/
def InputStream.Reliable (file : InputStream) : Prop := file.limits = [] ∧ file.ferror = false

/-- The loops of `md5_stream` and `sha256_stream`, with the bytes of the block read so far; `none` in the
result is a return of 1. The first argument is a bound on the calls of `fread`. -/
def streamLoop {σ : Type*} (processBlock processBytes : List UInt8 → Ctx σ → Ctx σ) :
    ℕ → InputStream → List UInt8 → Ctx σ → Option (Option (Ctx σ))
  | 0, _, _, _ => none
  | fuel + 1, file, block, ctx =>
    let (data, file) := fread (4096 - block.length) file
    let block := block ++ data
    let processPartial := if 0 < block.length then processBytes block ctx else ctx
    if block.length = 4096 then streamLoop processBlock processBytes fuel file [] (processBlock block ctx)
    else if data = [] then some (if file.ferror then none else some processPartial)
    else if file.feof then some (some processPartial)
    else streamLoop processBlock processBytes fuel file block ctx

section Fread

variable {file : InputStream}

theorem fread_append (file : InputStream) (want : ℕ) : (fread want file).1 ++ (fread want file).2.content = file.content :=
  List.take_append_drop _ _

theorem length_fread_le (file : InputStream) (want : ℕ) : (fread want file).1.length ≤ want := by
  show (file.content.take _).length ≤ want
  rw [List.length_take]
  omega

/-- The flag of the end is set behind the last byte only. -/
theorem InputStream.WellFormed.fread (h : file.WellFormed) (want : ℕ) : (fread want file).2.WellFormed := by
  intro hfeof
  show file.content.drop _ = []
  apply List.drop_eq_nil_of_le
  rcases (Bool.or_eq_true _ _).mp hfeof with hold | hnew
  · rw [h hold]
    exact Nat.zero_le _
  · simp only [Bool.and_eq_true, decide_eq_true_eq, Bool.not_eq_true', Bool.and_eq_false_iff,
      decide_eq_false_iff_not] at hnew
    omega

theorem InputStream.Reliable.fread (h : file.Reliable) (want : ℕ) : (fread want file).2.Reliable := by
  obtain ⟨hlimits, herror⟩ := h
  refine ⟨?_, ?_⟩
  · show file.limits.tail = []
    rw [hlimits]
    rfl
  · show (file.ferror || _) = false
    rw [hlimits, herror]
    simp

/-- A call that gets nothing is at the end of the file, or sets the error flag. -/
theorem fread_nil {want : ℕ} (hwant : 0 < want) (hdata : (fread want file).1 = [])
    (herror : (fread want file).2.ferror = false) : file.content = [] := by
  obtain ⟨-, hfailed⟩ := (Bool.or_eq_false_iff).mp herror
  rcases List.take_eq_nil_iff.mp hdata with hzero | hnil
  · -- the call gives up at once
    simp only [hzero, Nat.zero_le, decide_true, Bool.and_true, decide_eq_false_iff_not] at hfailed
    exact absurd hwant hfailed
  · exact hnil

end Fread

/-- **A stream is hashed as a whole**: the loop ends, with all bytes taken in or with an error; without
read errors it is the former. -/
theorem streamLoop_holds {σ : Type*} {compress : σ → List UInt8 → σ} {s₀ : σ} (host : Host) (addr : ℕ)
    {fuel : ℕ} {file : InputStream} (block : List UInt8) {msg : List UInt8} {ctx : Ctx σ}
    (h : Holds compress s₀ ctx msg) (hempty : ctx.buflen = 0) (hblock : block.length < 4096)
    (hfile : file.WellFormed) (hfuel : file.content.length < fuel) :
    ∃ result, streamLoop (processBlock compress) (processBytes host (processBlock compress) addr) fuel
        file block ctx = some result ∧
      (∀ ctx', result = some ctx' →
        Holds compress s₀ ctx' (msg ++ (block ++ file.content)) ∧ ctx'.buflen ≤ 64) ∧
      (file.Reliable → result ≠ none) := by
  induction fuel generalizing file block msg ctx with
  | zero => exact absurd hfuel (Nat.not_lt_zero _)
  | succ fuel ih =>
      have hsplit := fread_append file (4096 - block.length)
      have hle := length_fread_le file (4096 - block.length)
      have hfile' := hfile.fread (4096 - block.length)
      have hreliable : file.Reliable → (fread (4096 - block.length) file).2.Reliable :=
        fun h => h.fread _
      have hnil : (fread (4096 - block.length) file).1 = [] →
          (fread (4096 - block.length) file).2.ferror = false → file.content = [] :=
        fread_nil (by omega)
      unfold streamLoop
      generalize hread : fread (4096 - block.length) file = read at hsplit hle hfile' hreliable hnil
      obtain ⟨data, file'⟩ := read
      simp only at hsplit hle hfile' hreliable hnil ⊢
      have hlen : (block ++ data).length ≤ 4096 := by
        rw [List.length_append]
        omega
      -- what the end of the file leaves
      have hpartial : file'.content = [] → ∀ ctx',
          (some (if 0 < (block ++ data).length then
            processBytes host (processBlock compress) addr (block ++ data) ctx else ctx)) = some ctx' →
          Holds compress s₀ ctx' (msg ++ (block ++ file.content)) ∧ ctx'.buflen ≤ 64 := by
        rintro hend ctx' hctx
        rw [hend, List.append_nil] at hsplit
        rw [← hsplit, ← Option.some.inj hctx]
        split
        · exact processBytes_holds host addr (hlen.trans_lt (by decide)) h (hempty.trans_le (Nat.zero_le _))
        · rename_i hnone
          rw [List.length_eq_zero_iff.mp (Nat.eq_zero_of_not_pos hnone), List.append_nil]
          exact ⟨h, hempty.trans_le (Nat.zero_le _)⟩
      by_cases hfull : (block ++ data).length = 4096
      · -- a whole block has been read
        have hdata : 0 < data.length := by
          rw [List.length_append] at hfull
          omega
        have hcontent : file.content.length = data.length + file'.content.length := by
          rw [← hsplit, List.length_append]
        rw [if_pos hfull]
        have hwhole := h.whole hempty (block ++ data) (by rw [hfull]; decide)
          (by rw [hfull]; decide)
        obtain ⟨result, hresult, hholds, hgood⟩ := ih [] hwhole hempty (by decide) hfile'
          (by omega)
        refine ⟨result, hresult, fun ctx' hctx => ?_, fun hrel => hgood (hreliable hrel)⟩
        have hctx' := hholds ctx' hctx
        rwa [List.nil_append, List.append_assoc, List.append_assoc, hsplit] at hctx'
      · rw [if_neg hfull]
        by_cases hnone : data = []
        · rw [if_pos hnone]
          refine ⟨_, rfl, ?_, fun hrel => ?_⟩
          · cases herror : file'.ferror
            · have hend : file'.content = [] := by
                rw [hnil hnone herror, hnone, List.nil_append] at hsplit
                exact hsplit
              exact hpartial hend
            · rintro ctx' ⟨⟩
          · rw [(hreliable hrel).2]
            exact Option.some_ne_none _
        · rw [if_neg hnone]
          by_cases hend : file'.feof = true
          · rw [if_pos hend]
            exact ⟨_, rfl, hpartial (hfile' hend), fun _ => Option.some_ne_none _⟩
          · rw [if_neg hend]
            have hdata : 0 < data.length := List.length_pos_iff.mpr hnone
            have hcontent : file.content.length = data.length + file'.content.length := by
              rw [← hsplit, List.length_append]
            obtain ⟨result, hresult, hholds, hgood⟩ := ih (block ++ data) h hempty
              (by omega) hfile' (by omega)
            refine ⟨result, hresult, fun ctx' hctx => ?_, fun hrel => hgood (hreliable hrel)⟩
            have hctx' := hholds ctx' hctx
            rwa [List.append_assoc block, hsplit] at hctx'

/-- **The digest of a stream**: one that is computed is that of all bytes. -/
theorem streamDigest_eq {σ : Type*} {compress : σ → List UInt8 → σ} {s₀ : σ} (host : Host) (addr : ℕ)
    {file : InputStream} {ctx : Ctx σ} {finish : Ctx σ → List UInt8} {digest : List UInt8}
    (h : Holds compress s₀ ctx []) (hempty : ctx.buflen = 0) (hfile : file.WellFormed)
    (hfinish : ∀ ctx', Holds compress s₀ ctx' file.content → ctx'.buflen ≤ 64 →
      finish ctx' = digest) :
    ∃ result, (streamLoop (processBlock compress) (processBytes host (processBlock compress) addr)
        (file.content.length + 1) file [] ctx).map (Option.map finish) = some result ∧
      (∀ d, result = some d → d = digest) ∧ (file.Reliable → result ≠ none) := by
  obtain ⟨result, hresult, hholds, hreliable⟩ :=
    streamLoop_holds host addr [] h hempty (by decide) hfile (Nat.lt_succ_self _)
  refine ⟨result.map finish, ?_, fun d hd => ?_, fun hrel => ?_⟩
  · rw [hresult, Option.map_some]
  · obtain ⟨ctx', rfl, rfl⟩ := Option.map_eq_some_iff.mp hd
    obtain ⟨htaken, hle⟩ := hholds ctx' rfl
    exact hfinish ctx' htaken hle
  · rw [ne_eq, Option.map_eq_none_iff]
    exact hreliable hrel

end FirmwareTools.Digest

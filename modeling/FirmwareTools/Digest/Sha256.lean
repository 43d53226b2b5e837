import FirmwareTools.Digest.HashContext
import FirmwareTools.System.RotatedRegisters
import Mathlib.Data.Fintype.Basic
import Mathlib.Tactic.FinCases

/-! # The SHA-256 digest

`sha256.c` takes in a block with sixty-four rounds on eight registers, which it writes out with the
registers in changing roles, and keeps the last sixteen words of the message schedule in a ring. The digest
is compared with FIPS 180-2: the whole schedule, moving registers, over the padded message.

* **`runRounds_eq`** — the ring holds what a round asks for;
* **`sha256Body_eq`** — one block;
* **`sha256_pieces`** — a message in pieces;
* **`sha256Stream_eq`** — a file. -/

namespace FirmwareTools.Digest

/-! ## The code -/

def sha256RoundConstants : List UInt32 := [
  0x428a2f98, 0x71374491, 0xb5c0fbcf, 0xe9b5dba5, 0x3956c25b, 0x59f111f1,
  0x923f82a4, 0xab1c5ed5, 0xd807aa98, 0x12835b01, 0x243185be, 0x550c7dc3,
  0x72be5d74, 0x80deb1fe, 0x9bdc06a7, 0xc19bf174, 0xe49b69c1, 0xefbe4786,
  0x0fc19dc6, 0x240ca1cc, 0x2de92c6f, 0x4a7484aa, 0x5cb0a9dc, 0x76f988da,
  0x983e5152, 0xa831c66d, 0xb00327c8, 0xbf597fc7, 0xc6e00bf3, 0xd5a79147,
  0x06ca6351, 0x14292967, 0x27b70a85, 0x2e1b2138, 0x4d2c6dfc, 0x53380d13,
  0x650a7354, 0x766a0abb, 0x81c2c92e, 0x92722c85, 0xa2bfe8a1, 0xa81a664b,
  0xc24b8b70, 0xc76c51a3, 0xd192e819, 0xd6990624, 0xf40e3585, 0x106aa070,
  0x19a4c116, 0x1e376c08, 0x2748774c, 0x34b0bcb5, 0x391c0cb3, 0x4ed8aa4a,
  0x5b9cca4f, 0x682e6ff3, 0x748f82ee, 0x78a5636f, 0x84c87814, 0x8cc70208,
  0x90befffa, 0xa4506ceb, 0xbef9a3f7, 0xc67178f2
  ]

/-- `K` -/
def roundConstant (i : ℕ) : UInt32 := sha256RoundConstants.getD i 0

def F2 (a b c : UInt32) : UInt32 := (a &&& b) ||| (c &&& (a ||| b))

def F1 (e f g : UInt32) : UInt32 := g ^^^ (e &&& (f ^^^ g))

def rol (x n : UInt32) : UInt32 := (x <<< n) ||| (x >>> (32 - n))

def S0 (x : UInt32) : UInt32 := rol x 25 ^^^ rol x 14 ^^^ (x >>> 3)

def S1 (x : UInt32) : UInt32 := rol x 15 ^^^ rol x 13 ^^^ (x >>> 10)

def SS0 (x : UInt32) : UInt32 := rol x 30 ^^^ rol x 19 ^^^ rol x 10

def SS1 (x : UInt32) : UInt32 := rol x 26 ^^^ rol x 21 ^^^ rol x 7

/-- An entry of the ring, `x[i & 0x0f]`. -/
def ringAt (x : Vector UInt32 16) (i : ℕ) : UInt32 := x.get (Fin.ofNat 16 i)

/-- The value of `M`. -/
def nextWord (x : Vector UInt32 16) (i : ℕ) : UInt32 :=
  S1 (ringAt x (i - 2)) + ringAt x (i - 7) + S0 (ringAt x (i - 15)) + ringAt x i

/-- One `R`: the registers, and the number of the constant and the word. -/
structure Sha256Op where
  a : Fin 8
  b : Fin 8
  c : Fin 8
  d : Fin 8
  e : Fin 8
  f : Fin 8
  g : Fin 8
  h : Fin 8
  k : ℕ
  deriving DecidableEq

/-- The rounds of `sha256_process_block`, with the registers `a` to `h` as 0 to 7. -/
def sha256Ops : List Sha256Op := [
  ⟨0, 1, 2, 3, 4, 5, 6, 7, 0⟩,
  ⟨7, 0, 1, 2, 3, 4, 5, 6, 1⟩,
  ⟨6, 7, 0, 1, 2, 3, 4, 5, 2⟩,
  ⟨5, 6, 7, 0, 1, 2, 3, 4, 3⟩,
  ⟨4, 5, 6, 7, 0, 1, 2, 3, 4⟩,
  ⟨3, 4, 5, 6, 7, 0, 1, 2, 5⟩,
  ⟨2, 3, 4, 5, 6, 7, 0, 1, 6⟩,
  ⟨1, 2, 3, 4, 5, 6, 7, 0, 7⟩,
  ⟨0, 1, 2, 3, 4, 5, 6, 7, 8⟩,
  ⟨7, 0, 1, 2, 3, 4, 5, 6, 9⟩,
  ⟨6, 7, 0, 1, 2, 3, 4, 5, 10⟩,
  ⟨5, 6, 7, 0, 1, 2, 3, 4, 11⟩,
  ⟨4, 5, 6, 7, 0, 1, 2, 3, 12⟩,
  ⟨3, 4, 5, 6, 7, 0, 1, 2, 13⟩,
  ⟨2, 3, 4, 5, 6, 7, 0, 1, 14⟩,
  ⟨1, 2, 3, 4, 5, 6, 7, 0, 15⟩,
  ⟨0, 1, 2, 3, 4, 5, 6, 7, 16⟩,
  ⟨7, 0, 1, 2, 3, 4, 5, 6, 17⟩,
  ⟨6, 7, 0, 1, 2, 3, 4, 5, 18⟩,
  ⟨5, 6, 7, 0, 1, 2, 3, 4, 19⟩,
  ⟨4, 5, 6, 7, 0, 1, 2, 3, 20⟩,
  ⟨3, 4, 5, 6, 7, 0, 1, 2, 21⟩,
  ⟨2, 3, 4, 5, 6, 7, 0, 1, 22⟩,
  ⟨1, 2, 3, 4, 5, 6, 7, 0, 23⟩,
  ⟨0, 1, 2, 3, 4, 5, 6, 7, 24⟩,
  ⟨7, 0, 1, 2, 3, 4, 5, 6, 25⟩,
  ⟨6, 7, 0, 1, 2, 3, 4, 5, 26⟩,
  ⟨5, 6, 7, 0, 1, 2, 3, 4, 27⟩,
  ⟨4, 5, 6, 7, 0, 1, 2, 3, 28⟩,
  ⟨3, 4, 5, 6, 7, 0, 1, 2, 29⟩,
  ⟨2, 3, 4, 5, 6, 7, 0, 1, 30⟩,
  ⟨1, 2, 3, 4, 5, 6, 7, 0, 31⟩,
  ⟨0, 1, 2, 3, 4, 5, 6, 7, 32⟩,
  ⟨7, 0, 1, 2, 3, 4, 5, 6, 33⟩,
  ⟨6, 7, 0, 1, 2, 3, 4, 5, 34⟩,
  ⟨5, 6, 7, 0, 1, 2, 3, 4, 35⟩,
  ⟨4, 5, 6, 7, 0, 1, 2, 3, 36⟩,
  ⟨3, 4, 5, 6, 7, 0, 1, 2, 37⟩,
  ⟨2, 3, 4, 5, 6, 7, 0, 1, 38⟩,
  ⟨1, 2, 3, 4, 5, 6, 7, 0, 39⟩,
  ⟨0, 1, 2, 3, 4, 5, 6, 7, 40⟩,
  ⟨7, 0, 1, 2, 3, 4, 5, 6, 41⟩,
  ⟨6, 7, 0, 1, 2, 3, 4, 5, 42⟩,
  ⟨5, 6, 7, 0, 1, 2, 3, 4, 43⟩,
  ⟨4, 5, 6, 7, 0, 1, 2, 3, 44⟩,
  ⟨3, 4, 5, 6, 7, 0, 1, 2, 45⟩,
  ⟨2, 3, 4, 5, 6, 7, 0, 1, 46⟩,
  ⟨1, 2, 3, 4, 5, 6, 7, 0, 47⟩,
  ⟨0, 1, 2, 3, 4, 5, 6, 7, 48⟩,
  ⟨7, 0, 1, 2, 3, 4, 5, 6, 49⟩,
  ⟨6, 7, 0, 1, 2, 3, 4, 5, 50⟩,
  ⟨5, 6, 7, 0, 1, 2, 3, 4, 51⟩,
  ⟨4, 5, 6, 7, 0, 1, 2, 3, 52⟩,
  ⟨3, 4, 5, 6, 7, 0, 1, 2, 53⟩,
  ⟨2, 3, 4, 5, 6, 7, 0, 1, 54⟩,
  ⟨1, 2, 3, 4, 5, 6, 7, 0, 55⟩,
  ⟨0, 1, 2, 3, 4, 5, 6, 7, 56⟩,
  ⟨7, 0, 1, 2, 3, 4, 5, 6, 57⟩,
  ⟨6, 7, 0, 1, 2, 3, 4, 5, 58⟩,
  ⟨5, 6, 7, 0, 1, 2, 3, 4, 59⟩,
  ⟨4, 5, 6, 7, 0, 1, 2, 3, 60⟩,
  ⟨3, 4, 5, 6, 7, 0, 1, 2, 61⟩,
  ⟨2, 3, 4, 5, 6, 7, 0, 1, 62⟩,
  ⟨1, 2, 3, 4, 5, 6, 7, 0, 63⟩
  ]

/-- `R` with its word. -/
def Sha256Op.step (r : Vector UInt32 8) (op : Sha256Op) (m : UInt32) : Vector UInt32 8 :=
  let t0 := SS0 (r.get op.a) + F2 (r.get op.a) (r.get op.b) (r.get op.c)
  let t1 := r.get op.h + SS1 (r.get op.e) + F1 (r.get op.e) (r.get op.f) (r.get op.g)
    + roundConstant op.k + m
  (r.set op.d.val (r.get op.d + t1)).set op.h.val (t0 + t1)

/-- A round takes its word from the block, or puts the next word into the ring. -/
def Sha256Op.run (s : Vector UInt32 8 × Vector UInt32 16) (op : Sha256Op) :
    Vector UInt32 8 × Vector UInt32 16 :=
  if op.k < 16 then (op.step s.1 (ringAt s.2 op.k), s.2)
  else
    let tm := nextWord s.2 op.k
    (op.step s.1 tm, s.2.set (Fin.ofNat 16 op.k).val tm)

/-- The body of the loop of `sha256_process_block`, for a block of 64 bytes. -/
def sha256Body (host : Host) (state : Vector UInt32 8) (block : List UInt8) : Vector UInt32 8 :=
  let x := .ofFn fun t => swap host true (loadWord host (block.drop (4 * t.val)))
  let r := (sha256Ops.foldl Sha256Op.run (state, x)).1
  .ofFn fun j => state.get j + r.get j

def sha256InitState : Vector UInt32 8 :=
  #v[0x6a09e667, 0xbb67ae85, 0x3c6ef372, 0xa54ff53a, 0x510e527f, 0x9b05688c, 0x1f83d9ab, 0x5be0cd19]

section

variable (host : Host)

def sha256InitCtx (ctx : Ctx (Vector UInt32 8)) : Ctx (Vector UInt32 8) :=
  { ctx with state := sha256InitState, total0 := 0, total1 := 0, buflen := 0 }

def sha256ReadCtx (ctx : Ctx (Vector UInt32 8)) : List UInt8 :=
  ctx.state.toList.flatMap fun v => setUint32 host (swap host true v)

def sha256ProcessBlock : List UInt8 → Ctx (Vector UInt32 8) → Ctx (Vector UInt32 8) :=
  processBlock (sha256Body host)

def sha256ProcessBytes (addr : ℕ) : List UInt8 → Ctx (Vector UInt32 8) → Ctx (Vector UInt32 8) :=
  processBytes host (sha256ProcessBlock host) addr

def sha256ConcludeCtx : Ctx (Vector UInt32 8) → Ctx (Vector UInt32 8) :=
  concludeCtx host (sha256ProcessBlock host) true

def sha256FinishCtx (ctx : Ctx (Vector UInt32 8)) : List UInt8 :=
  sha256ReadCtx host (sha256ConcludeCtx host ctx)

/-- The context and the block are on the stack, the context not initialised; `none` in the result is a
return of 1. -/
def sha256Stream (addr : ℕ) (ctx : Ctx (Vector UInt32 8)) (file : InputStream) :
    Option (Option (List UInt8)) :=
  (streamLoop (sha256ProcessBlock host) (sha256ProcessBytes host addr) (file.content.length + 1) file []
    (sha256InitCtx ctx)).map (Option.map (sha256FinishCtx host))

end

/-! ## The algorithm -/

def rotr (x n : UInt32) : UInt32 := (x >>> n) ||| (x <<< (32 - n))

/-- The message schedule, as far as the first words of it. -/
def schedule (words : ℕ → UInt32) : ℕ → List UInt32
  | 0 => []
  | t + 1 =>
    let w := schedule words t
    w ++ [if t < 16 then words t
      else (rotr (w.getD (t - 2) 0) 17 ^^^ rotr (w.getD (t - 2) 0) 19 ^^^ (w.getD (t - 2) 0 >>> 10))
        + w.getD (t - 7) 0
        + (rotr (w.getD (t - 15) 0) 7 ^^^ rotr (w.getD (t - 15) 0) 18 ^^^ (w.getD (t - 15) 0 >>> 3))
        + w.getD (t - 16) 0]

/-- The word of a round. -/
def scheduled (words : ℕ → UInt32) (t : ℕ) : UInt32 := (schedule words 64).getD t 0

def sha256Step (w : ℕ → UInt32) (v : Vector UInt32 8) (t : ℕ) : Vector UInt32 8 :=
  let t1 := v.get 7 + (rotr (v.get 4) 6 ^^^ rotr (v.get 4) 11 ^^^ rotr (v.get 4) 25)
    + ((v.get 4 &&& v.get 5) ^^^ (~~~v.get 4 &&& v.get 6)) + roundConstant t + w t
  let t2 := (rotr (v.get 0) 2 ^^^ rotr (v.get 0) 13 ^^^ rotr (v.get 0) 22)
    + ((v.get 0 &&& v.get 1) ^^^ (v.get 0 &&& v.get 2) ^^^ (v.get 1 &&& v.get 2))
  #v[t1 + t2, v.get 0, v.get 1, v.get 2, v.get 3 + t1, v.get 4, v.get 5, v.get 6]

/-- One block. -/
def sha256Compress (s : Vector UInt32 8) (block : List UInt8) : Vector UInt32 8 :=
  let v := (List.range 64).foldl (sha256Step (scheduled fun t => wordOf true (block.drop (4 * t)))) s
  .ofFn fun j => s.get j + v.get j

/-- The final state of a message. -/
def sha256State (init : Vector UInt32 8) (msg : List UInt8) : List UInt32 :=
  (absorb 64 sha256Compress init (msg ++ padding 64 (lengthBytes true msg.length) msg.length)).toList

/-- The digest of a message. -/
def sha256 (msg : List UInt8) : List UInt8 := (sha256State sha256InitState msg).flatMap (bytesOf true)

/-! ## Functions of words -/

theorem F1_eq (e f g : UInt32) : F1 e f g = (e &&& f) ^^^ (~~~e &&& g) := by
  apply UInt32.toBitVec_inj.mp
  ext i hi
  simp only [F1, UInt32.toBitVec_xor, UInt32.toBitVec_and, UInt32.toBitVec_not, BitVec.getElem_xor,
    BitVec.getElem_and, BitVec.getElem_not]
  cases e.toBitVec[i] <;> cases f.toBitVec[i] <;> cases g.toBitVec[i] <;> rfl

theorem F2_eq (a b c : UInt32) : F2 a b c = (a &&& b) ^^^ (a &&& c) ^^^ (b &&& c) := by
  apply UInt32.toBitVec_inj.mp
  ext i hi
  simp only [F2, UInt32.toBitVec_xor, UInt32.toBitVec_and, UInt32.toBitVec_or, BitVec.getElem_xor,
    BitVec.getElem_and, BitVec.getElem_or]
  cases a.toBitVec[i] <;> cases b.toBitVec[i] <;> cases c.toBitVec[i] <;> rfl

/-- A rotation to the left is one to the right. -/
theorem rol_eq_rotr (x : UInt32) {m n : UInt32} (hm : 32 - m = n) (hn : 32 - n = m) :
    rol x m = rotr x n := by
  rw [rol, rotr, hm, hn, UInt32.or_comm]

theorem S0_eq (x : UInt32) : S0 x = rotr x 7 ^^^ rotr x 18 ^^^ (x >>> 3) := by
  rw [S0, rol_eq_rotr x (m := 25) (n := 7) rfl rfl, rol_eq_rotr x (m := 14) (n := 18) rfl rfl]

theorem S1_eq (x : UInt32) : S1 x = rotr x 17 ^^^ rotr x 19 ^^^ (x >>> 10) := by
  rw [S1, rol_eq_rotr x (m := 15) (n := 17) rfl rfl, rol_eq_rotr x (m := 13) (n := 19) rfl rfl]

theorem SS0_eq (x : UInt32) : SS0 x = rotr x 2 ^^^ rotr x 13 ^^^ rotr x 22 := by
  rw [SS0, rol_eq_rotr x (m := 30) (n := 2) rfl rfl, rol_eq_rotr x (m := 19) (n := 13) rfl rfl,
    rol_eq_rotr x (m := 10) (n := 22) rfl rfl]

theorem SS1_eq (x : UInt32) : SS1 x = rotr x 6 ^^^ rotr x 11 ^^^ rotr x 25 := by
  rw [SS1, rol_eq_rotr x (m := 26) (n := 6) rfl rfl, rol_eq_rotr x (m := 21) (n := 11) rfl rfl,
    rol_eq_rotr x (m := 7) (n := 25) rfl rfl]

/-! ## The ring of words -/

section Ring

variable {words : ℕ → UInt32}

@[simp] theorem length_schedule (t : ℕ) : (schedule words t).length = t := by
  induction t with
  | zero => rfl
  | succ t ih => rw [schedule, List.length_append, ih, List.length_singleton]

/-- Words that have been computed stay. -/
theorem getD_schedule {i s t : ℕ} (hi : i < s) (hst : s ≤ t) :
    (schedule words t).getD i 0 = (schedule words s).getD i 0 := by
  induction t, hst using Nat.le_induction with
  | base => rfl
  | succ t hst ih =>
      rw [schedule, List.getD_append _ _ _ _ (by rw [length_schedule]; omega), ih]

/-- The word of a round. -/
theorem getD_schedule_succ (t : ℕ) : (schedule words (t + 1)).getD t 0
    = if t < 16 then words t
      else S1 ((schedule words t).getD (t - 2) 0) + (schedule words t).getD (t - 7) 0
        + S0 ((schedule words t).getD (t - 15) 0) + (schedule words t).getD (t - 16) 0 := by
  rw [S0_eq, S1_eq, schedule, List.getD_append_right _ _ _ _ (length_schedule t).le, length_schedule, Nat.sub_self]
  rfl

/-- The ring holds the last sixteen words of the first `t`, or the first sixteen. -/
def RingHolds (words : ℕ → UInt32) (t : ℕ) (x : Vector UInt32 16) : Prop :=
  ∀ i, i < max t 16 → t ≤ i + 16 → ringAt x i = scheduled words i

theorem ringHolds_start :
    RingHolds words 0 (.ofFn fun t => words t.val) := by
  intro i hi _
  rw [Nat.zero_max] at hi
  rw [ringAt, get_ofFn, scheduled, getD_schedule (Nat.lt_succ_self i) (by omega), getD_schedule_succ, if_pos hi]
  show words (i % 16) = words i
  rw [Nat.mod_eq_of_lt hi]

theorem ringAt_add (x : Vector UInt32 16) (i : ℕ) : ringAt x (i + 16) = ringAt x i := by
  have hsame : Fin.ofNat 16 (i + 16) = Fin.ofNat 16 i := by
    apply Fin.ext
    exact Nat.add_mod_right i 16
  rw [ringAt, ringAt, hsame]

/-- **The ring holds what a round asks for**: the value of `M` is the next word of the schedule. -/
theorem RingHolds.nextWord {t : ℕ} {x : Vector UInt32 16} (h : RingHolds words t x) (ht : 16 ≤ t)
    (hlast : t < 64) : nextWord x t = scheduled words t := by
  have hold : ∀ d, 0 < d → d ≤ 16 →
      ringAt x (t - d) = (schedule words t).getD (t - d) 0 := by
    intro d hd hd16
    rw [h (t - d) (by omega) (by omega), scheduled, getD_schedule (by omega) hlast.le]
  have hself : ringAt x t = ringAt x (t - 16) := by
    conv_lhs => rw [← Nat.sub_add_cancel ht]
    exact ringAt_add x (t - 16)
  rw [scheduled, getD_schedule (Nat.lt_succ_self t) (by omega), getD_schedule_succ,
    if_neg (by omega), Digest.nextWord, hself, hold 2 (by decide) (by decide), hold 7 (by decide) (by decide),
    hold 15 (by decide) (by decide), hold 16 (by decide) (by decide)]

theorem RingHolds.set {t : ℕ} {x : Vector UInt32 16} (h : RingHolds words t x) (ht : 16 ≤ t) :
    RingHolds words (t + 1) (x.set (Fin.ofNat 16 t).val (scheduled words t)) := by
  intro i hi hti
  rw [ringAt, get_set]
  by_cases hsame : i = t
  · rw [hsame, if_pos rfl]
  · have hother : Fin.ofNat 16 t ≠ Fin.ofNat 16 i := by
      intro heq
      have hmod : t % 16 = i % 16 := congrArg Fin.val heq
      omega
    rw [if_neg hother]
    exact h i (by omega) (by omega)

end Ring

/-! ## One block -/

/-- The round with this number: its registers have gone back by one place with each round. -/
def sha256Op (i : ℕ) : Sha256Op where
  a := 0 - Fin.ofNat 8 i
  b := 1 - Fin.ofNat 8 i
  c := 2 - Fin.ofNat 8 i
  d := 3 - Fin.ofNat 8 i
  e := 4 - Fin.ofNat 8 i
  f := 5 - Fin.ofNat 8 i
  g := 6 - Fin.ofNat 8 i
  h := 7 - Fin.ofNat 8 i
  k := i

/-- **The table**: the rounds are written out as the algorithm numbers them. -/
theorem sha256Ops_eq : sha256Ops = (List.range 64).map sha256Op := by decide +kernel

theorem run_sha256Op (s : Vector UInt32 8 × Vector UInt32 16) (t : ℕ) :
    Sha256Op.run s (sha256Op t)
      = if t < 16 then ((sha256Op t).step s.1 (ringAt s.2 t), s.2)
        else ((sha256Op t).step s.1 (nextWord s.2 t),
          s.2.set (Fin.ofNat 16 t).val (nextWord s.2 t)) := rfl

/-- **The rounds of the code** take the words of the schedule. -/
theorem runRounds_eq (words : ℕ → UInt32) (state : Vector UInt32 8) {t : ℕ} (ht : t ≤ 64) :
    ∃ x, (List.range t).foldl (fun s i => Sha256Op.run s (sha256Op i))
        (state, .ofFn fun j => words j.val)
      = ((List.range t).foldl (fun r i => (sha256Op i).step r (scheduled words i)) state, x) ∧
      RingHolds words t x := by
  induction t with
  | zero => exact ⟨_, rfl, ringHolds_start⟩
  | succ t ih =>
      obtain ⟨x, hx, hring⟩ := ih (by omega)
      rw [List.range_succ, List.foldl_append, List.foldl_append, List.foldl_cons, List.foldl_nil,
        List.foldl_cons, List.foldl_nil, hx, run_sha256Op]
      by_cases hfirst : t < 16
      · rw [if_pos hfirst]
        refine ⟨x, ?_, fun i hi hti => hring i (by omega) (by omega)⟩
        rw [hring t (by omega) (by omega)]
      · rw [if_neg hfirst]
        simp only [hring.nextWord (by omega) (by omega)]
        exact ⟨_, rfl, hring.set (by omega)⟩

/-- A round, on what is in the roles. -/
def sha256InRoles (w : ℕ → UInt32) (i : ℕ) (v : Vector UInt32 8) : Vector UInt32 8 :=
  let t0 := SS0 (v.get 0) + F2 (v.get 0) (v.get 1) (v.get 2)
  let t1 := v.get 7 + SS1 (v.get 4) + F1 (v.get 4) (v.get 5) (v.get 6) + roundConstant i + w i
  (v.set (3 : Fin 8).val (v.get 3 + t1)).set (7 : Fin 8).val (t0 + t1)

theorem step_sha256Op (w : ℕ → UInt32) (i : ℕ) (r : Vector UInt32 8) :
    (sha256Op i).step r (w i) = fromRoles i (sha256InRoles w i (inRoles i r)) := by
  rw [sha256InRoles, fromRoles_set i _ 7, fromRoles_set i _ 3, fromRoles_inRoles]
  simp only [get_inRoles]
  rfl

theorem step_sha256Op_range (w : ℕ → UInt32) (t : ℕ) (ht : t < (List.range 64).length)
    (r : Vector UInt32 8) :
    (sha256Op (List.range 64)[t]).step r (w (List.range 64)[t])
      = fromRoles t (sha256InRoles w (List.range 64)[t] (inRoles t r)) := by
  rw [List.getElem_range]
  exact step_sha256Op w t r

theorem movedOn_sha256InRoles (w : ℕ → UInt32) (i : ℕ) (v : Vector UInt32 8) :
    movedOn (sha256InRoles w i v) = sha256Step w v i := by
  apply vector_ext
  intro j
  rw [get_movedOn, sha256InRoles, get_set _ 7, get_set v 3, SS0_eq, SS1_eq, F1_eq, F2_eq,
    UInt32.add_comm (_ + _)]
  fin_cases j <;> rfl

/-- All rounds of a block. -/
theorem foldl_sha256Ops (words : ℕ → UInt32) (state : Vector UInt32 8) :
    (sha256Ops.foldl Sha256Op.run (state, .ofFn fun j => words j.val)).1
      = (List.range 64).foldl (sha256Step (scheduled words)) state := by
  obtain ⟨x, hx, -⟩ := runRounds_eq words state le_rfl
  have hrun := foldl_renamed (fun r i => (sha256Op i).step r (scheduled words i))
    (sha256InRoles (scheduled words)) (fun t ht => step_sha256Op_range _ t ht) state
  rw [List.length_range, inRoles_of_dvd (by decide)] at hrun
  simp only [movedOn_sha256InRoles] at hrun
  rw [sha256Ops_eq, List.foldl_map, hx, hrun]

/-- **One block** is taken in as the algorithm says, on every host. -/
theorem sha256Body_eq (host : Host) : sha256Body host = sha256Compress := by
  funext state block
  simp only [sha256Body, swap_loadWord]
  rw [foldl_sha256Ops fun t => wordOf true (block.drop (4 * t)), sha256Compress]

/-! ## Messages and files -/

variable {host : Host} {init : Vector UInt32 8} {ctx : Ctx (Vector UInt32 8)} {msg : List UInt8}

theorem sha256ProcessBlock_eq (host : Host) : sha256ProcessBlock host = processBlock sha256Compress := by
  rw [sha256ProcessBlock, sha256Body_eq]

theorem sha256ProcessBytes_eq (host : Host) (addr : ℕ) :
    sha256ProcessBytes host addr = processBytes host (processBlock sha256Compress) addr := by
  rw [sha256ProcessBytes, sha256ProcessBlock_eq]

theorem initCtx_holds (init : Vector UInt32 8) (hbuffer : ctx.buffer.length = 128) :
    Holds sha256Compress init { ctx with state := init, total0 := 0, total1 := 0, buflen := 0 } [] where
  length_buffer := hbuffer
  buflen_le := Nat.zero_le _
  absorbed := Absorbed.start init
  total := by simp

/-- The state in the end. -/
theorem sha256ConcludeCtx_state (h : Holds sha256Compress init ctx msg) (hle : ctx.buflen ≤ 64) :
    (sha256ConcludeCtx host ctx).state.toList = sha256State init msg := by
  rw [sha256ConcludeCtx, sha256ProcessBlock_eq, concludeCtx_state host true h hle, sha256State]

theorem sha256FinishCtx_eq (h : Holds sha256Compress sha256InitState ctx msg) (hle : ctx.buflen ≤ 64) :
    sha256FinishCtx host ctx = sha256 msg := by
  simp only [sha256FinishCtx, sha256ReadCtx, setUint32_swap, sha256ConcludeCtx_state h hle, sha256]

/-- **A message in pieces**: however it is cut and wherever its pieces are in memory, its digest is that
of the whole message. -/
theorem sha256_pieces (hbuffer : ctx.buffer.length = 128) {pieces : List (ℕ × List UInt8)}
    (hpieces : ∀ p ∈ pieces, p.2.length < 2 ^ 32) :
    sha256FinishCtx host
        (pieces.foldl (fun ctx p => sha256ProcessBytes host p.1 p.2 ctx) (sha256InitCtx ctx))
      = sha256 (pieces.flatMap Prod.snd) := by
  simp only [sha256ProcessBytes_eq]
  obtain ⟨hholds, hle⟩ :=
    processPieces_holds host (initCtx_holds sha256InitState hbuffer) (Nat.zero_le _) hpieces
  exact sha256FinishCtx_eq hholds hle

/-- `abc` in two pieces, on a big-endian host, with what was on the stack before. -/
theorem sha256_pieces_abc :
    sha256FinishCtx ⟨true, false⟩ ([(1, [97]), (2, [98, 99])].foldl
        (fun ctx p => sha256ProcessBytes ⟨true, false⟩ p.1 p.2 ctx)
        (sha256InitCtx ⟨.replicate 8 7, 7, 7, 7, .replicate 128 7⟩))
      = [0xba, 0x78, 0x16, 0xbf, 0x8f, 0x01, 0xcf, 0xea, 0x41, 0x41, 0x40, 0xde, 0x5d, 0xae, 0x22, 0x23,
        0xb0, 0x03, 0x61, 0xa3, 0x96, 0x17, 0x7a, 0x9c, 0xb4, 0x10, 0xff, 0x61, 0xf2, 0x00, 0x15,
        0xad] := by
  rw [sha256_pieces List.length_replicate (by decide)]
  decide +kernel

/-- **A file**: `sha256_stream` ends, and a digest that it computes is that of the whole file; without
read errors it computes one. -/
theorem sha256Stream_eq (hbuffer : ctx.buffer.length = 128) (addr : ℕ) {file : InputStream}
    (hfile : file.WellFormed) :
    ∃ result, sha256Stream host addr ctx file = some result ∧
      (∀ digest, result = some digest → digest = sha256 file.content) ∧
      (file.Reliable → result ≠ none) := by
  rw [sha256Stream, sha256ProcessBytes_eq, sha256ProcessBlock_eq]
  exact streamDigest_eq host addr (initCtx_holds sha256InitState hbuffer) rfl hfile
    fun _ => sha256FinishCtx_eq

/-- The file `abc`. -/
theorem sha256Stream_abc :
    sha256Stream ⟨false, true⟩ 0 ⟨.replicate 8 7, 7, 7, 7, .replicate 128 7⟩
        ⟨[97, 98, 99], [], false, false⟩
      = some (some [0xba, 0x78, 0x16, 0xbf, 0x8f, 0x01, 0xcf, 0xea, 0x41, 0x41, 0x40, 0xde, 0x5d, 0xae,
        0x22, 0x23, 0xb0, 0x03, 0x61, 0xa3, 0x96, 0x17, 0x7a, 0x9c, 0xb4, 0x10, 0xff, 0x61, 0xf2, 0x00,
        0x15, 0xad]) := by
  have hfile : (⟨[97, 98, 99], [], false, false⟩ : InputStream).WellFormed := fun h => absurd h (by decide)
  obtain ⟨result, hresult, hdigest, hreliable⟩ := @sha256Stream_eq ⟨false, true⟩
    ⟨.replicate 8 7, 7, 7, 7, .replicate 128 7⟩ List.length_replicate 0 _ hfile
  obtain ⟨digest, rfl⟩ := Option.ne_none_iff_exists'.mp (hreliable ⟨rfl, rfl⟩)
  rw [hresult, hdigest digest rfl]
  decide +kernel

end FirmwareTools.Digest

import FirmwareTools.Digest.HashContext
import FirmwareTools.System.RotatedRegisters
import Mathlib.Data.Fintype.Basic
import Mathlib.Tactic.FinCases

/-! # The MD5 digest

`md5.c` takes in a block with sixty-four operations on four registers, which it writes out with the
registers in changing roles. The digest is compared with the algorithm of RFC 1321: the rounds with moving
registers and the word, the shift and the function of each one by its number, over the padded message.

* **`md5ProcessBlock_eq`** — one block;
* **`md5_pieces`** — a message in pieces;
* **`md5Stream_eq`** — a file. -/

namespace FirmwareTools.Digest

/-! ## The code -/

/-- The macros that are used in the four rounds. -/
inductive Md5Function
  | FF
  | FG
  | FH
  | FI
  deriving DecidableEq

def ff (b c d : UInt32) : UInt32 := d ^^^ (b &&& (c ^^^ d))

def Md5Function.apply (f : Md5Function) (b c d : UInt32) : UInt32 :=
  match f with
  | .FF => ff b c d
  | .FG => ff d b c
  | .FH => b ^^^ c ^^^ d
  | .FI => c ^^^ (b ||| ~~~d)

/-- One `OP`: the function, the registers `a`, `b`, `c` and `d`, the word, the shift and the
constant. -/
structure Md5Op where
  f : Md5Function
  a : Fin 4
  b : Fin 4
  c : Fin 4
  d : Fin 4
  k : ℕ
  s : UInt32
  T : UInt32
  deriving DecidableEq

/-- The operations of `md5_process_block`, with the registers `A`, `B`, `C` and `D` as 0 to 3. -/
def md5Ops : List Md5Op := [
  ⟨.FF, 0, 1, 2, 3, 0, 7, 0xd76aa478⟩,
  ⟨.FF, 3, 0, 1, 2, 1, 12, 0xe8c7b756⟩,
  ⟨.FF, 2, 3, 0, 1, 2, 17, 0x242070db⟩,
  ⟨.FF, 1, 2, 3, 0, 3, 22, 0xc1bdceee⟩,
  ⟨.FF, 0, 1, 2, 3, 4, 7, 0xf57c0faf⟩,
  ⟨.FF, 3, 0, 1, 2, 5, 12, 0x4787c62a⟩,
  ⟨.FF, 2, 3, 0, 1, 6, 17, 0xa8304613⟩,
  ⟨.FF, 1, 2, 3, 0, 7, 22, 0xfd469501⟩,
  ⟨.FF, 0, 1, 2, 3, 8, 7, 0x698098d8⟩,
  ⟨.FF, 3, 0, 1, 2, 9, 12, 0x8b44f7af⟩,
  ⟨.FF, 2, 3, 0, 1, 10, 17, 0xffff5bb1⟩,
  ⟨.FF, 1, 2, 3, 0, 11, 22, 0x895cd7be⟩,
  ⟨.FF, 0, 1, 2, 3, 12, 7, 0x6b901122⟩,
  ⟨.FF, 3, 0, 1, 2, 13, 12, 0xfd987193⟩,
  ⟨.FF, 2, 3, 0, 1, 14, 17, 0xa679438e⟩,
  ⟨.FF, 1, 2, 3, 0, 15, 22, 0x49b40821⟩,
  ⟨.FG, 0, 1, 2, 3, 1, 5, 0xf61e2562⟩,
  ⟨.FG, 3, 0, 1, 2, 6, 9, 0xc040b340⟩,
  ⟨.FG, 2, 3, 0, 1, 11, 14, 0x265e5a51⟩,
  ⟨.FG, 1, 2, 3, 0, 0, 20, 0xe9b6c7aa⟩,
  ⟨.FG, 0, 1, 2, 3, 5, 5, 0xd62f105d⟩,
  ⟨.FG, 3, 0, 1, 2, 10, 9, 0x02441453⟩,
  ⟨.FG, 2, 3, 0, 1, 15, 14, 0xd8a1e681⟩,
  ⟨.FG, 1, 2, 3, 0, 4, 20, 0xe7d3fbc8⟩,
  ⟨.FG, 0, 1, 2, 3, 9, 5, 0x21e1cde6⟩,
  ⟨.FG, 3, 0, 1, 2, 14, 9, 0xc33707d6⟩,
  ⟨.FG, 2, 3, 0, 1, 3, 14, 0xf4d50d87⟩,
  ⟨.FG, 1, 2, 3, 0, 8, 20, 0x455a14ed⟩,
  ⟨.FG, 0, 1, 2, 3, 13, 5, 0xa9e3e905⟩,
  ⟨.FG, 3, 0, 1, 2, 2, 9, 0xfcefa3f8⟩,
  ⟨.FG, 2, 3, 0, 1, 7, 14, 0x676f02d9⟩,
  ⟨.FG, 1, 2, 3, 0, 12, 20, 0x8d2a4c8a⟩,
  ⟨.FH, 0, 1, 2, 3, 5, 4, 0xfffa3942⟩,
  ⟨.FH, 3, 0, 1, 2, 8, 11, 0x8771f681⟩,
  ⟨.FH, 2, 3, 0, 1, 11, 16, 0x6d9d6122⟩,
  ⟨.FH, 1, 2, 3, 0, 14, 23, 0xfde5380c⟩,
  ⟨.FH, 0, 1, 2, 3, 1, 4, 0xa4beea44⟩,
  ⟨.FH, 3, 0, 1, 2, 4, 11, 0x4bdecfa9⟩,
  ⟨.FH, 2, 3, 0, 1, 7, 16, 0xf6bb4b60⟩,
  ⟨.FH, 1, 2, 3, 0, 10, 23, 0xbebfbc70⟩,
  ⟨.FH, 0, 1, 2, 3, 13, 4, 0x289b7ec6⟩,
  ⟨.FH, 3, 0, 1, 2, 0, 11, 0xeaa127fa⟩,
  ⟨.FH, 2, 3, 0, 1, 3, 16, 0xd4ef3085⟩,
  ⟨.FH, 1, 2, 3, 0, 6, 23, 0x04881d05⟩,
  ⟨.FH, 0, 1, 2, 3, 9, 4, 0xd9d4d039⟩,
  ⟨.FH, 3, 0, 1, 2, 12, 11, 0xe6db99e5⟩,
  ⟨.FH, 2, 3, 0, 1, 15, 16, 0x1fa27cf8⟩,
  ⟨.FH, 1, 2, 3, 0, 2, 23, 0xc4ac5665⟩,
  ⟨.FI, 0, 1, 2, 3, 0, 6, 0xf4292244⟩,
  ⟨.FI, 3, 0, 1, 2, 7, 10, 0x432aff97⟩,
  ⟨.FI, 2, 3, 0, 1, 14, 15, 0xab9423a7⟩,
  ⟨.FI, 1, 2, 3, 0, 5, 21, 0xfc93a039⟩,
  ⟨.FI, 0, 1, 2, 3, 12, 6, 0x655b59c3⟩,
  ⟨.FI, 3, 0, 1, 2, 3, 10, 0x8f0ccc92⟩,
  ⟨.FI, 2, 3, 0, 1, 10, 15, 0xffeff47d⟩,
  ⟨.FI, 1, 2, 3, 0, 1, 21, 0x85845dd1⟩,
  ⟨.FI, 0, 1, 2, 3, 8, 6, 0x6fa87e4f⟩,
  ⟨.FI, 3, 0, 1, 2, 15, 10, 0xfe2ce6e0⟩,
  ⟨.FI, 2, 3, 0, 1, 6, 15, 0xa3014314⟩,
  ⟨.FI, 1, 2, 3, 0, 13, 21, 0x4e0811a1⟩,
  ⟨.FI, 0, 1, 2, 3, 4, 6, 0xf7537e82⟩,
  ⟨.FI, 3, 0, 1, 2, 11, 10, 0xbd3af235⟩,
  ⟨.FI, 2, 3, 0, 1, 2, 15, 0x2ad7d2bb⟩,
  ⟨.FI, 1, 2, 3, 0, 9, 21, 0xeb86d391⟩
  ]

/-- `CYCLIC` -/
def cyclic (w s : UInt32) : UInt32 := (w <<< s) ||| (w >>> (32 - s))

/-- `OP` -/
def Md5Op.run (words : ℕ → UInt32) (r : Vector UInt32 4) (op : Md5Op) : Vector UInt32 4 :=
  let a := r.get op.a + (op.f.apply (r.get op.b) (r.get op.c) (r.get op.d) + words op.k + op.T)
  let a := cyclic a op.s
  r.set op.a.val (a + r.get op.b)

/-- The body of the loop of `md5_process_block`, for a block of 64 bytes. -/
def md5Body (host : Host) (save : Vector UInt32 4) (block : List UInt8) : Vector UInt32 4 :=
  let correctWords k := swap host false (loadWord host (block.drop (4 * k)))
  let r := md5Ops.foldl (Md5Op.run correctWords) save
  .ofFn fun j => r.get j + save.get j

def md5InitState : Vector UInt32 4 := #v[0x67452301, 0xefcdab89, 0x98badcfe, 0x10325476]

section

variable (host : Host)

def md5InitCtx (ctx : Ctx (Vector UInt32 4)) : Ctx (Vector UInt32 4) :=
  { ctx with state := md5InitState, total0 := 0, total1 := 0, buflen := 0 }

def md5ReadCtx (ctx : Ctx (Vector UInt32 4)) : List UInt8 :=
  ctx.state.toList.flatMap fun v => setUint32 host (swap host false v)

def md5ProcessBlock : List UInt8 → Ctx (Vector UInt32 4) → Ctx (Vector UInt32 4) :=
  processBlock (md5Body host)

def md5ProcessBytes (addr : ℕ) : List UInt8 → Ctx (Vector UInt32 4) → Ctx (Vector UInt32 4) :=
  processBytes host (md5ProcessBlock host) addr

def md5FinishCtx (ctx : Ctx (Vector UInt32 4)) : List UInt8 :=
  md5ReadCtx host (concludeCtx host (md5ProcessBlock host) false ctx)

/-- The context and the block are on the stack, the context not initialised; `none` in the result is a
return of 1. -/
def md5Stream (addr : ℕ) (ctx : Ctx (Vector UInt32 4)) (file : InputStream) : Option (Option (List UInt8)) :=
  (streamLoop (md5ProcessBlock host) (md5ProcessBytes host addr) (file.content.length + 1) file []
    (md5InitCtx ctx)).map (Option.map (md5FinishCtx host))

end

/-! ## The algorithm -/

/-- The function of each operation. -/
def md5Round (i : ℕ) (b c d : UInt32) : UInt32 :=
  match i / 16 with
  | 0 => (b &&& c) ||| (~~~b &&& d)
  | 1 => (b &&& d) ||| (c &&& ~~~d)
  | 2 => b ^^^ c ^^^ d
  | _ => c ^^^ (b ||| ~~~d)

/-- The number of the word that it adds. -/
def md5Word (i : ℕ) : ℕ :=
  match i / 16 with
  | 0 => i
  | 1 => (5 * i + 1) % 16
  | 2 => (3 * i + 5) % 16
  | _ => 7 * i % 16

/-- How far it rotates. -/
def md5Shift (i : ℕ) : UInt32 :=
  match i / 16 with
  | 0 => [7, 12, 17, 22].getD (i % 4) 0
  | 1 => [5, 9, 14, 20].getD (i % 4) 0
  | 2 => [4, 11, 16, 23].getD (i % 4) 0
  | _ => [6, 10, 15, 21].getD (i % 4) 0

def md5Constant (i : ℕ) : UInt32 := (md5Ops.map Md5Op.T).getD i 0

def md5Step (words : ℕ → UInt32) (v : Vector UInt32 4) (i : ℕ) : Vector UInt32 4 :=
  #v[v.get 3,
    v.get 1 + cyclic (v.get 0 + md5Round i (v.get 1) (v.get 2) (v.get 3) + words (md5Word i)
      + md5Constant i) (md5Shift i),
    v.get 1, v.get 2]

/-- One block. -/
def md5Compress (s : Vector UInt32 4) (block : List UInt8) : Vector UInt32 4 :=
  let v := (List.range 64).foldl (md5Step fun k => wordOf false (block.drop (4 * k))) s
  .ofFn fun j => v.get j + s.get j

/-- The digest of a message. -/
def md5 (msg : List UInt8) : List UInt8 :=
  (absorb 64 md5Compress md5InitState
    (msg ++ padding 64 (lengthBytes false msg.length) msg.length)).toList.flatMap (bytesOf false)

/-! ## One block -/

theorem ff_eq (b c d : UInt32) : ff b c d = (b &&& c) ||| (~~~b &&& d) := by
  apply UInt32.toBitVec_inj.mp
  ext i hi
  simp only [ff, UInt32.toBitVec_xor, UInt32.toBitVec_and, UInt32.toBitVec_or, UInt32.toBitVec_not,
    BitVec.getElem_xor, BitVec.getElem_and, BitVec.getElem_or, BitVec.getElem_not]
  cases b.toBitVec[i] <;> cases c.toBitVec[i] <;> cases d.toBitVec[i] <;> rfl

/-- The macro that is used in the operation. -/
def md5Function (i : ℕ) : Md5Function :=
  match i / 16 with
  | 0 => .FF
  | 1 => .FG
  | 2 => .FH
  | _ => .FI

theorem md5Function_apply (i : ℕ) (b c d : UInt32) :
    (md5Function i).apply b c d = md5Round i b c d := by
  unfold md5Function md5Round
  split
  · exact ff_eq b c d
  · show ff d b c = _
    rw [ff_eq, UInt32.and_comm d b, UInt32.and_comm (~~~d) c]
  · rfl
  · rfl

/-- The operation with this number: its registers have gone back by one place with each operation. -/
def md5Op (i : ℕ) : Md5Op where
  f := md5Function i
  a := 0 - Fin.ofNat 4 i
  b := 1 - Fin.ofNat 4 i
  c := 2 - Fin.ofNat 4 i
  d := 3 - Fin.ofNat 4 i
  k := md5Word i
  s := md5Shift i
  T := md5Constant i

/-- **The table**: the operations are written out as the algorithm numbers them. -/
theorem md5Ops_eq : md5Ops = (List.range 64).map md5Op := by decide +kernel

/-- An operation, on what is in the roles. -/
def md5InRoles (words : ℕ → UInt32) (i : ℕ) (v : Vector UInt32 4) : Vector UInt32 4 :=
  v.set (0 : Fin 4).val (cyclic (v.get 0 + ((md5Function i).apply (v.get 1) (v.get 2) (v.get 3) + words (md5Word i)
    + md5Constant i)) (md5Shift i) + v.get 1)

theorem run_md5Op (words : ℕ → UInt32) (i : ℕ) (r : Vector UInt32 4) :
    Md5Op.run words r (md5Op i) = fromRoles i (md5InRoles words i (inRoles i r)) := by
  rw [md5InRoles, fromRoles_set i (inRoles i r) 0, fromRoles_inRoles]
  simp only [get_inRoles]
  rfl

theorem run_md5Op_range (words : ℕ → UInt32) (t : ℕ) (ht : t < (List.range 64).length)
    (r : Vector UInt32 4) :
    Md5Op.run words r (md5Op (List.range 64)[t])
      = fromRoles t (md5InRoles words (List.range 64)[t] (inRoles t r)) := by
  rw [List.getElem_range]
  exact run_md5Op words t r

theorem movedOn_md5InRoles (words : ℕ → UInt32) (i : ℕ) (v : Vector UInt32 4) :
    movedOn (md5InRoles words i v) = md5Step words v i := by
  have hsum : cyclic (v.get 0 + (md5Round i (v.get 1) (v.get 2) (v.get 3) + words (md5Word i)
        + md5Constant i)) (md5Shift i) + v.get 1
      = v.get 1 + cyclic (v.get 0 + md5Round i (v.get 1) (v.get 2) (v.get 3) + words (md5Word i)
        + md5Constant i) (md5Shift i) := by
    rw [UInt32.add_comm, UInt32.add_assoc (v.get 0), UInt32.add_assoc (v.get 0), UInt32.add_assoc]
  apply vector_ext
  intro j
  rw [get_movedOn, md5InRoles, md5Function_apply, hsum, get_set v 0]
  fin_cases j <;> rfl

/-- **One block** is taken in as the algorithm says, on every host. -/
theorem md5Body_eq (host : Host) : md5Body host = md5Compress := by
  funext save block
  have hwords : (fun k => swap host false (loadWord host (block.drop (4 * k))))
      = fun k => wordOf false (block.drop (4 * k)) := by
    funext k
    exact swap_loadWord host false _
  have hrun := foldl_renamed
    (fun r i => Md5Op.run (fun k => wordOf false (block.drop (4 * k))) r (md5Op i))
    (md5InRoles fun k => wordOf false (block.drop (4 * k))) (fun t ht => run_md5Op_range _ t ht) save
  rw [List.length_range, inRoles_of_dvd (by decide)] at hrun
  simp only [movedOn_md5InRoles] at hrun
  unfold md5Body md5Compress
  rw [hwords, md5Ops_eq]
  simp only [List.foldl_map, hrun]

/-! ## Messages and files -/

variable {host : Host}

theorem md5ProcessBlock_eq (host : Host) : md5ProcessBlock host = processBlock md5Compress := by
  rw [md5ProcessBlock, md5Body_eq]

theorem md5ProcessBytes_eq (host : Host) (addr : ℕ) :
    md5ProcessBytes host addr = processBytes host (processBlock md5Compress) addr := by
  rw [md5ProcessBytes, md5ProcessBlock_eq]

theorem md5InitCtx_holds {ctx : Ctx (Vector UInt32 4)} (hbuffer : ctx.buffer.length = 128) :
    Holds md5Compress md5InitState (md5InitCtx ctx) [] where
  length_buffer := hbuffer
  buflen_le := Nat.zero_le _
  absorbed := Absorbed.start md5InitState
  total := by
    simp [md5InitCtx]

theorem md5ReadCtx_eq (ctx : Ctx (Vector UInt32 4)) :
    md5ReadCtx host ctx = ctx.state.toList.flatMap (bytesOf false) := by
  simp only [md5ReadCtx, setUint32_swap]

theorem md5FinishCtx_eq {ctx : Ctx (Vector UInt32 4)} {msg : List UInt8}
    (h : Holds md5Compress md5InitState ctx msg) (hle : ctx.buflen ≤ 64) :
    md5FinishCtx host ctx = md5 msg := by
  rw [md5FinishCtx, md5ProcessBlock_eq, md5ReadCtx_eq, concludeCtx_state host false h hle, md5]

/-- **A message in pieces**: however it is cut and wherever its pieces are in memory, its digest is that
of the whole message. -/
theorem md5_pieces {ctx : Ctx (Vector UInt32 4)} (hbuffer : ctx.buffer.length = 128)
    {pieces : List (ℕ × List UInt8)} (hpieces : ∀ p ∈ pieces, p.2.length < 2 ^ 32) :
    md5FinishCtx host (pieces.foldl (fun ctx p => md5ProcessBytes host p.1 p.2 ctx) (md5InitCtx ctx))
      = md5 (pieces.flatMap Prod.snd) := by
  simp only [md5ProcessBytes_eq]
  obtain ⟨hholds, hle⟩ := processPieces_holds host (md5InitCtx_holds hbuffer) (Nat.zero_le _) hpieces
  exact md5FinishCtx_eq hholds hle

/-- `abc` in two pieces, on a big-endian host, with what was on the stack before. -/
theorem md5_pieces_abc :
    md5FinishCtx ⟨true, false⟩ ([(1, [97]), (2, [98, 99])].foldl
        (fun ctx p => md5ProcessBytes ⟨true, false⟩ p.1 p.2 ctx)
        (md5InitCtx ⟨.replicate 4 7, 7, 7, 7, .replicate 128 7⟩))
      = [0x90, 0x01, 0x50, 0x98, 0x3c, 0xd2, 0x4f, 0xb0, 0xd6, 0x96, 0x3f, 0x7d, 0x28, 0xe1, 0x7f,
        0x72] := by
  rw [md5_pieces List.length_replicate (by decide)]
  decide +kernel

/-- **A file**: `md5_stream` ends, and a digest that it computes is that of the whole file; without read
errors it computes one. -/
theorem md5Stream_eq {ctx : Ctx (Vector UInt32 4)} (hbuffer : ctx.buffer.length = 128) (addr : ℕ)
    {file : InputStream} (hfile : file.WellFormed) :
    ∃ result, md5Stream host addr ctx file = some result ∧
      (∀ digest, result = some digest → digest = md5 file.content) ∧
      (file.Reliable → result ≠ none) := by
  rw [md5Stream, md5ProcessBytes_eq, md5ProcessBlock_eq]
  exact streamDigest_eq host addr (md5InitCtx_holds hbuffer) rfl hfile fun _ => md5FinishCtx_eq

/-- The file `abc`. -/
theorem md5Stream_abc :
    md5Stream ⟨false, true⟩ 0 ⟨.replicate 4 7, 7, 7, 7, .replicate 128 7⟩ ⟨[97, 98, 99], [], false, false⟩
      = some (some [0x90, 0x01, 0x50, 0x98, 0x3c, 0xd2, 0x4f, 0xb0, 0xd6, 0x96, 0x3f, 0x7d, 0x28, 0xe1,
        0x7f, 0x72]) := by
  have hfile : (⟨[97, 98, 99], [], false, false⟩ : InputStream).WellFormed := fun h => absurd h (by decide)
  obtain ⟨result, hresult, hdigest, hreliable⟩ := @md5Stream_eq ⟨false, true⟩
    ⟨.replicate 4 7, 7, 7, 7, .replicate 128 7⟩ List.length_replicate 0 _ hfile
  obtain ⟨digest, rfl⟩ := Option.ne_none_iff_exists'.mp (hreliable ⟨rfl, rfl⟩)
  rw [hresult, hdigest digest rfl]
  decide +kernel

end FirmwareTools.Digest

import FirmwareTools.Bytes.Record
import FirmwareTools.Opkg.CString
import Mathlib.Tactic.IntervalCases

/-! # The options of the LZMA and XZ compressors

`lzma_xz_options` and `lzma_xz_options_post` set eight options, `lzma_xz_dump_options` packs them with the
flags of the selected filters into three words of a 12-byte record, and `lzma_xz_extract_options` unpacks
them. The extreme flag is stored as the number `20`, which are the bits of two filters.

* **`roundTrips_iff`** — when the options come back. -/

namespace FirmwareTools.Squashfs

open FirmwareTools.Opkg (CStr atoi)

/-! ## Options -/

/-- `lzmaver` -/
inductive LzmaVersion where
  | lzma
  | xz
  deriving DecidableEq

/-- `lzmaver_str` -/
def LzmaVersion.compName : LzmaVersion → String
  | .lzma => "lzma"
  | .xz => "xz"

/-- The smallest dictionary. -/
def LzmaVersion.dictSizeMin : LzmaVersion → Int32
  | .lzma => 4096
  | .xz => 8192

/-- `struct lzma_xz_options`, with its initial values. -/
structure LzmaXzOptions where
  preset : ℕ := 6
  extreme : Bool := false
  lc : ℕ := 3
  lp : ℕ := 0
  pb : ℕ := 2
  fb : ℕ := 64
  dictSize : Int32 := 0
  flags : ℕ := 0
  deriving DecidableEq

/-- The `float`s of the C library. -/
structure Floats where
  Float : Type
  /-- `strtof`, with the rest of the string. -/
  strtof : CStr → Float × CStr
  /-- `(int) size` -/
  toInt : Float → Int32
  /-- `(float) ((int) size) == size` -/
  isInt : Float → Bool
  /-- `size > 0 && size <= 100` -/
  isPercentage : Float → Bool
  /-- `block_size * lzma_dict_percent / 100` -/
  percentOf : Int32 → Float → Int32

/-- The static variables. `dictPercent` is `none` for zero. -/
structure LzmaState (fl : Floats) where
  options : LzmaXzOptions := {}
  dictPercent : Option fl.Float := none

/-- What `lzma_xz_options` returns: how many arguments it took, `-1` or `-2`. -/
inductive OptionResult where
  | taken (args : ℕ)
  | unrecognised
  | failed (message : String)
  deriving DecidableEq

/-- A number from `argv[1]` that is tested against bounds. -/
def rangeOption {fl : Floats} (v : LzmaVersion) (option missing invalid : String) (lo hi : ℤ)
    (set : LzmaXzOptions → ℕ → LzmaXzOptions) (args : List CStr) (s : LzmaState fl) :
    OptionResult × LzmaState fl :=
  match args with
  | [] => (.failed (v.compName ++ ": " ++ option ++ " missing " ++ missing ++ "\n"), s)
  | arg :: _ =>
    if atoi arg < lo ∨ hi < atoi arg then
      (.failed (v.compName ++ ": " ++ invalid ++ " invalid value\n"), s)
    else (.taken 1, { s with options := set s.options (atoi arg).toNat })

/-- The branch of `-Xdict-size`. -/
def dictSizeOption {fl : Floats} (v : LzmaVersion) (args : List CStr) (s : LzmaState fl) :
    OptionResult × LzmaState fl :=
  match args with
  | [] => (.failed (v.compName ++ ": -Xdict-size missing dict-size\n"), s)
  | arg :: _ =>
    let (size, b) := fl.strtof arg
    if b.head? = some '%' then
      if !fl.isPercentage size then
        (.failed (v.compName ++ ": -Xdict-size percentage should be 0 < dict-size <= 100\n"), s)
      else (.taken 1, { options := { s.options with dictSize := 0 }, dictPercent := some size })
    else if !fl.isInt size then
      (.failed (v.compName ++ ": -Xdict-size can't be fractional unless a percentage of the"
        ++ " block size\n"), s)
    else
      let dictSize (n : Int32) : LzmaState fl :=
        { options := { s.options with dictSize := n }, dictPercent := none }
      match b.head? with
      | some 'k' => (.taken 1, dictSize (fl.toInt size * 1024))
      | some 'K' => (.taken 1, dictSize (fl.toInt size * 1024))
      | some 'm' => (.taken 1, dictSize (fl.toInt size * (1024 * 1024)))
      | some 'M' => (.taken 1, dictSize (fl.toInt size * (1024 * 1024)))
      | none => (.taken 1, dictSize (fl.toInt size))
      | some _ =>
        (.failed (v.compName ++ ": -Xdict-size invalid dict-size\n"), dictSize (fl.toInt size))

/-- `lzma_xz_options` -/
def lzmaXzOptions {fl : Floats} (v : LzmaVersion) (argv : List CStr) (s : LzmaState fl) :
    OptionResult × LzmaState fl :=
  match argv with
  | [] => (.unrecognised, s)
  | name :: args =>
    if name = "-Xpreset".toList then
      rangeOption v "-Xpreset" "preset" "-Xpreset" 0 9 (fun o n => { o with preset := n }) args s
    else if name = "-Xe".toList then
      (.taken 0, { s with options := { s.options with extreme := true } })
    else if name = "-Xlc".toList then
      rangeOption v "-Xlc" "lc" "-Xlc" 0 4 (fun o n => { o with lc := n }) args s
    else if name = "-Xlp".toList then
      rangeOption v "-Xlp" "lp" "-Xlp" 0 4 (fun o n => { o with lp := n }) args s
    else if name = "-Xpb".toList then
      rangeOption v "-Xpb" "pb" "-Xbp" 0 4 (fun o n => { o with pb := n }) args s
    else if name = "-Xfb".toList then
      rangeOption v "-Xfb" "fb" "-Xfb" 5 273 (fun o n => { o with fb := n }) args s
    else if name = "-Xdict-size".toList then dictSizeOption v args s
    else (.unrecognised, s)

/-- The state after some options, which are all taken. -/
def runOptions {fl : Floats} (v : LzmaVersion) : List (List CStr) → LzmaState fl → Option (LzmaState fl)
  | [], s => some s
  | argv :: calls, s =>
    match lzmaXzOptions v argv s with
    | (.taken _, s) => runOptions v calls s
    | _ => none

/-- `ffs`: one more than the index of the lowest bit, `0` if there is none. -/
def ffs (n : Int32) : ℕ :=
  (((List.range 32).find? fun i => n.toUInt32.toNat.testBit i).map (· + 1)).getD 0

/-- The test of a dictionary size: `2^n` or `2^n + 2^(n+1)`. There is no shift by `-1`. -/
def dictStorable (dictSize : Int32) : Bool :=
  match ffs dictSize with
  | 0 => false
  | n + 1 => dictSize == 1 <<< Int32.ofNat n || dictSize == 1 <<< Int32.ofNat n + 1 <<< Int32.ofNat (n + 1)

/-- The dictionary size that has been asked for, as a number or as a percentage of the block size. -/
def LzmaState.askedDictSize {fl : Floats} (s : LzmaState fl) (blockSize : Int32) : Int32 :=
  if s.options.dictSize ≠ 0 then s.options.dictSize
  else match s.dictPercent with
    | some percent => fl.percentOf blockSize percent
    | none => 0

/-- `lzma_xz_options_post`, which gives the options or writes a message. -/
def lzmaXzOptionsPost {fl : Floats} (v : LzmaVersion) (blockSize : Int32) (s : LzmaState fl) :
    Except String LzmaXzOptions :=
  let o := s.options
  let comp := v.compName
  if o.dictSize = 0 ∧ s.dictPercent = none then
    -- no -Xdict-size specified, use defaults
    .ok { o with dictSize := blockSize }
  else if o.dictSize ≠ 0 ∧ blockSize < o.dictSize then
    .error (comp ++ ": -Xdict-size is larger than block_size\n")
  else
    let dictSize := s.askedDictSize blockSize
    if dictSize < v.dictSizeMin then
      .error (comp ++ ": -Xdict-size should be " ++ toString v.dictSizeMin.toInt ++ " bytes or larger\n")
    else if !dictStorable dictSize then
      .error (comp ++ ": -Xdict-size is an unsupported value, dict-size must be storable in " ++ comp
        ++ " header\nas either 2^n or as 2^n+2^(n+1).  Example dict-sizes are 75%, 50%, 37.5%, 25%,\n"
        ++ "or 32K, 16K, 8K etc.\n")
    else .ok { o with dictSize }

/-! ## The record -/

/-- `LZMA_OPT_FLT_MASK` -/
def lzmaOptFltMask : ℕ := 0xffff

/-- `LZMA_OPT_PRE_OFF` -/
def lzmaOptPreOff : ℕ := 16

/-- `LZMA_OPT_PRE_MASK` -/
def lzmaOptPreMask : ℕ := 0xf <<< lzmaOptPreOff

/-- `LZMA_OPT_EXTREME` -/
def lzmaOptExtreme : ℕ := 20

/-- `LZMA_OPT_LC_OFF`, `LZMA_OPT_LP_OFF` and `LZMA_OPT_PB_OFF` -/
def lzmaOptLcOff : ℕ := 0
def lzmaOptLpOff : ℕ := 3
def lzmaOptPbOff : ℕ := 6

/-- `LZMA_OPT_LC_MASK`, `LZMA_OPT_LP_MASK` and `LZMA_OPT_PB_MASK` -/
def lzmaOptLcMask : ℕ := 0x7 <<< lzmaOptLcOff
def lzmaOptLpMask : ℕ := 0x7 <<< lzmaOptLpOff
def lzmaOptPbMask : ℕ := 0x7 <<< lzmaOptPbOff

/-- `struct lzma_opts` -/
structure LzmaOpts where
  flags : ℕ := 0
  bitOpts : ℕ := 0
  fb : ℕ := 0
  dictSize : ℕ := 0
  deriving DecidableEq

/-- The bytes of the record. -/
def LzmaOpts.bytes (c : LzmaOpts) : List UInt8 :=
  packFields [(4, c.flags), (2, c.bitOpts), (2, c.fb), (4, c.dictSize)]

/-- `lzma_xz_dump_options` with the value of `lzma_comp_opts` before: the bytes that it points to, `none` for
`NULL`, and its value afterwards. -/
def lzmaXzDumpOptions (c : LzmaOpts) (o : LzmaXzOptions) (blockSize : Int32) (flags : ℕ) :
    Option (List UInt8) × LzmaOpts :=
  -- no need to store default options
  if o.preset = 6 ∧ o.extreme = false ∧ o.lc = 3 ∧ o.lp = 3 ∧ o.pb = 2 ∧ o.fb = 0 ∧
      o.dictSize = blockSize ∧ flags = 0 then (none, c)
  else
    let c : LzmaOpts :=
      { flags := c.flags ||| flags ||| (if o.extreme then lzmaOptExtreme else 0)
          ||| (o.preset <<< lzmaOptPreOff &&& lzmaOptPreMask)
        bitOpts := (o.lc <<< lzmaOptLcOff &&& lzmaOptLcMask) ||| (o.lp <<< lzmaOptLpOff &&& lzmaOptLpMask)
          ||| (o.pb <<< lzmaOptPbOff &&& lzmaOptPbMask)
        fb := o.fb
        dictSize := o.dictSize.toUInt32.toNat }
    (some c.bytes, c)

/-- `lzma_xz_extract_options`, given the options before, returns `0` or `-1`. -/
def lzmaXzExtractOptions (blockSize : Int32) (buffer : List UInt8) (size : ℕ) (o : LzmaXzOptions) :
    ℤ × LzmaXzOptions :=
  if size = 0 then
    -- default options
    (0, { preset := 6, extreme := false, lc := 3, lp := 3, pb := 2, fb := 64
          dictSize := blockSize, flags := 0 })
  else if size ≠ 12 then (-1, o)
  else match readFields [4, 2, 2, 4] buffer with
    | some [flags, bitOpts, fb, dictSize] =>
      let o : LzmaXzOptions :=
        { flags := flags &&& lzmaOptFltMask
          preset := (flags &&& lzmaOptPreMask) >>> lzmaOptPreOff
          extreme := flags &&& lzmaOptExtreme != 0
          lc := (bitOpts &&& lzmaOptLcMask) >>> lzmaOptLcOff
          lp := (bitOpts &&& lzmaOptLpMask) >>> lzmaOptLpOff
          pb := (bitOpts &&& lzmaOptPbMask) >>> lzmaOptPbOff
          fb := fb
          dictSize := (UInt32.ofNat dictSize).toInt32 }
      -- check that the LZMA bit options are in range
      if 4 < o.lc ∨ 4 < o.lp ∨ 4 < o.pb ∨ o.fb < 5 ∨ 273 < o.fb then (-1, o)
      else if !dictStorable o.dictSize then (-1, o)
      else (0, o)
    | _ => (-1, o)

/-! ## Filters -/

/-- The names of `bcj`. -/
def bcjNames : List CStr :=
  ["x86".toList, "powerpc".toList, "ia64".toList, "arm".toList, "armthumb".toList, "sparc".toList]

/-- The flags of the selected entries of `bcj`, from `xz_dump_options`. -/
def bcjFlags (selected : ℕ → Bool) : ℕ :=
  (List.range bcjNames.length).foldl (fun flags i => flags ||| (selected i).toNat <<< i) 0

/-- `xz_dump_options`; for `lzma_dump_options` nothing is selected. -/
def xzDumpOptions (c : LzmaOpts) (o : LzmaXzOptions) (blockSize : Int32) (selected : ℕ → Bool) :
    Option (List UInt8) × LzmaOpts :=
  lzmaXzDumpOptions c o blockSize (bcjFlags selected)

/-- The options that are dumped come back, with the flags of the selected filters. -/
def RoundTrips (blockSize : Int32) (selected : ℕ → Bool) (o : LzmaXzOptions) : Prop :=
  ∀ before,
    let dumped := (xzDumpOptions {} o blockSize selected).1
    lzmaXzExtractOptions blockSize (dumped.getD []) ((dumped.map List.length).getD 0) before
      = (0, { o with flags := bcjFlags selected })

/-! ## Options that are accepted -/

/-- What the tests of the options let through. -/
structure LzmaXzOptions.InRange (o : LzmaXzOptions) : Prop where
  preset : o.preset ≤ 9
  lc : o.lc ≤ 4
  lp : o.lp ≤ 4
  pb : o.pb ≤ 4
  fb_lo : 5 ≤ o.fb
  fb_hi : o.fb ≤ 273

theorem inRange_default : LzmaXzOptions.InRange {} where
  preset := by decide
  lc := by decide
  lp := by decide
  pb := by decide
  fb_lo := by decide
  fb_hi := by decide

variable {fl : Floats} {v : LzmaVersion} {s s' : LzmaState fl} {o : LzmaXzOptions}

/-- A number within the bounds is set. -/
theorem rangeOption_taken {option missing invalid : String} (lo hi : ℕ)
    {set : LzmaXzOptions → ℕ → LzmaXzOptions} {args : List CStr} {n : ℕ}
    (h : rangeOption v option missing invalid lo hi set args s = (.taken n, s')) :
    ∃ value, lo ≤ value ∧ value ≤ hi ∧ s'.options = set s.options value := by
  cases args with
  | nil => simp [rangeOption] at h
  | cons arg args =>
      rw [rangeOption] at h
      split at h
      · simp at h
      · rename_i hbounds
        rw [Prod.mk.injEq] at h
        refine ⟨(atoi arg).toNat, by omega, by omega, ?_⟩
        rw [← h.2]

/-- A dictionary size changes nothing else. -/
theorem dictSizeOption_taken {args : List CStr} {n : ℕ} (h : dictSizeOption v args s = (.taken n, s')) :
    ∃ dictSize, s'.options = { s.options with dictSize } := by
  cases args with
  | nil => simp [dictSizeOption] at h
  | cons arg args =>
      unfold dictSizeOption at h
      dsimp only at h
      split at h
      · split at h
        · simp at h
        · exact ⟨0, by rw [← (Prod.mk.inj h).2]⟩
      · split at h
        · simp at h
        · split at h
          all_goals exact ⟨_, by rw [← (Prod.mk.inj h).2]⟩

/-- **One option** keeps all the values in their ranges. -/
theorem inRange_lzmaXzOptions {argv : List CStr} {n : ℕ} (hs : s.options.InRange)
    (h : lzmaXzOptions v argv s = (.taken n, s')) : s'.options.InRange := by
  cases argv with
  | nil => simp [lzmaXzOptions] at h
  | cons name args =>
      unfold lzmaXzOptions at h
      dsimp only at h
      split_ifs at h
      · obtain ⟨value, -, hhi, heq⟩ := rangeOption_taken 0 9 h
        rw [heq]
        exact { hs with preset := hhi }
      · rw [← (Prod.mk.inj h).2]
        exact { hs with }
      · obtain ⟨value, -, hhi, heq⟩ := rangeOption_taken 0 4 h
        rw [heq]
        exact { hs with lc := hhi }
      · obtain ⟨value, -, hhi, heq⟩ := rangeOption_taken 0 4 h
        rw [heq]
        exact { hs with lp := hhi }
      · obtain ⟨value, -, hhi, heq⟩ := rangeOption_taken 0 4 h
        rw [heq]
        exact { hs with pb := hhi }
      · obtain ⟨value, hlo, hhi, heq⟩ := rangeOption_taken 5 273 h
        rw [heq]
        exact { hs with fb_lo := hlo, fb_hi := hhi }
      · obtain ⟨dictSize, heq⟩ := dictSizeOption_taken h
        rw [heq]
        exact { hs with }
      · simp at h

/-- **Some options.** -/
theorem inRange_runOptions {calls : List (List CStr)} (hs : s.options.InRange)
    (h : runOptions v calls s = some s') : s'.options.InRange := by
  induction calls generalizing s with
  | nil => exact Option.some.inj h ▸ hs
  | cons argv calls ih =>
      rw [runOptions] at h
      split at h
      · rename_i heq
        exact ih (inRange_lzmaXzOptions hs heq) h
      · exact absurd h (by simp)

/-- **The options afterwards**: only the dictionary size is set, and if one has been asked for it can be
stored. -/
theorem lzmaXzOptionsPost_eq_ok {blockSize : Int32} (h : lzmaXzOptionsPost v blockSize s = .ok o) :
    ∃ dictSize, o = { s.options with dictSize } ∧
      (if s.options.dictSize = 0 ∧ s.dictPercent = none then dictSize = blockSize
        else dictStorable dictSize = true) := by
  unfold lzmaXzOptionsPost at h
  dsimp only at h
  split at h
  · rename_i hdefault
    exact ⟨blockSize, (Except.ok.inj h).symm, by rw [if_pos hdefault]⟩
  · rename_i hgiven
    split at h
    · exact absurd h (by simp)
    · split at h
      · exact absurd h (by simp)
      · split at h
        · exact absurd h (by simp)
        · rename_i hstorable
          refine ⟨_, (Except.ok.inj h).symm, ?_⟩
          rw [if_neg hgiven]
          simpa using hstorable

/-! ## Storing -/

/-- The flags of the filters are in the lowest 16 bits. -/
theorem bcjFlags_eq (selected : ℕ → Bool) :
    bcjFlags selected = 0 ||| (selected 0).toNat <<< 0 ||| (selected 1).toNat <<< 1
      ||| (selected 2).toNat <<< 2 ||| (selected 3).toNat <<< 3 ||| (selected 4).toNat <<< 4
      ||| (selected 5).toNat <<< 5 := rfl

/-- **The number `20` among the flags of the filters**: nothing is lost exactly if the filters that it
stands for are selected when it is stored, and not otherwise. -/
theorem extreme_kept_iff (selected : ℕ → Bool) (extreme : Bool) :
    (bcjFlags selected ||| (if extreme then lzmaOptExtreme else 0) = bcjFlags selected ∧
      ((bcjFlags selected ||| (if extreme then lzmaOptExtreme else 0)) &&& lzmaOptExtreme != 0) = extreme) ↔
      selected 2 = extreme ∧ selected 4 = extreme := by
  rw [bcjFlags_eq]
  generalize selected 0 = s₀
  generalize selected 1 = s₁
  generalize selected 2 = s₂
  generalize selected 3 = s₃
  generalize selected 4 = s₄
  generalize selected 5 = s₅
  revert s₀ s₁ s₂ s₃ s₄ s₅ extreme
  decide

theorem bcjFlags_lt (selected : ℕ → Bool) (extreme : Bool) :
    bcjFlags selected ||| (if extreme then lzmaOptExtreme else 0) < 2 ^ 16 := by
  refine Nat.or_lt_two_pow ?_ (by cases extreme <;> decide)
  rw [bcjFlags_eq]
  generalize selected 0 = s₀
  generalize selected 1 = s₁
  generalize selected 2 = s₂
  generalize selected 3 = s₃
  generalize selected 4 = s₄
  generalize selected 5 = s₅
  revert s₀ s₁ s₂ s₃ s₄ s₅
  decide

/-- A number in the lowest 16 bits and one in the next four. -/
theorem flagsWord {low preset : ℕ} (hlow : low < 2 ^ 16) (hpreset : preset ≤ 9) :
    let w := low ||| (preset <<< lzmaOptPreOff &&& lzmaOptPreMask)
    w < 2 ^ 32 ∧ w &&& lzmaOptFltMask = low ∧ (w &&& lzmaOptPreMask) >>> lzmaOptPreOff = preset ∧
      w &&& lzmaOptExtreme = low &&& lzmaOptExtreme := by
  intro w
  have hw : w = preset <<< 16 + low := by
    have hmask : preset <<< lzmaOptPreOff &&& lzmaOptPreMask = preset <<< 16 := by
      interval_cases preset <;> rfl
    rw [Nat.shiftLeft_add_eq_or_of_lt hlow, Nat.or_comm, ← hmask]
  rw [Nat.shiftLeft_eq] at hw
  have hflt : w &&& lzmaOptFltMask = low := by
    rw [show lzmaOptFltMask = 2 ^ 16 - 1 from rfl, Nat.and_two_pow_sub_one_eq_mod, hw]
    omega
  refine ⟨by omega, hflt, ?_, ?_⟩
  · rw [Nat.shiftRight_and_distrib, show lzmaOptPreMask >>> lzmaOptPreOff = 2 ^ 4 - 1 from rfl,
      Nat.and_two_pow_sub_one_eq_mod, Nat.shiftRight_eq_div_pow, hw]
    show (preset * 2 ^ 16 + low) / 2 ^ 16 % 2 ^ 4 = preset
    omega
  · rw [show lzmaOptExtreme = lzmaOptFltMask &&& lzmaOptExtreme from rfl, ← Nat.and_assoc, hflt]
    rfl

/-- Three numbers of three bits. -/
theorem bitOptsWord {lc lp pb : ℕ} (hlc : lc ≤ 4) (hlp : lp ≤ 4) (hpb : pb ≤ 4) :
    let w := (lc <<< lzmaOptLcOff &&& lzmaOptLcMask) ||| (lp <<< lzmaOptLpOff &&& lzmaOptLpMask)
      ||| (pb <<< lzmaOptPbOff &&& lzmaOptPbMask)
    w < 2 ^ 16 ∧ (w &&& lzmaOptLcMask) >>> lzmaOptLcOff = lc ∧
      (w &&& lzmaOptLpMask) >>> lzmaOptLpOff = lp ∧ (w &&& lzmaOptPbMask) >>> lzmaOptPbOff = pb := by
  have hall : ∀ lc < 5, ∀ lp < 5, ∀ pb < 5,
      let w := (lc <<< lzmaOptLcOff &&& lzmaOptLcMask) ||| (lp <<< lzmaOptLpOff &&& lzmaOptLpMask)
        ||| (pb <<< lzmaOptPbOff &&& lzmaOptPbMask)
      w < 2 ^ 16 ∧ (w &&& lzmaOptLcMask) >>> lzmaOptLcOff = lc ∧
        (w &&& lzmaOptLpMask) >>> lzmaOptLpOff = lp ∧ (w &&& lzmaOptPbMask) >>> lzmaOptPbOff = pb := by
    decide
  exact hall lc (Nat.lt_succ_of_le hlc) lp (Nat.lt_succ_of_le hlp) pb (Nat.lt_succ_of_le hpb)

/-- What is extracted from the record of some options. -/
theorem extract_dump (ho : o.InRange) (blockSize : Int32) (selected : ℕ → Bool) (before : LzmaXzOptions) :
    let dumped := (xzDumpOptions {} o blockSize selected).1
    let flags := bcjFlags selected ||| (if o.extreme then lzmaOptExtreme else 0)
    let o' : LzmaXzOptions := { o with flags := flags, extreme := flags &&& lzmaOptExtreme != 0 }
    lzmaXzExtractOptions blockSize (dumped.getD []) ((dumped.map List.length).getD 0) before
      = (if dictStorable o.dictSize then 0 else -1, o') := by
  intro dumped flags o'
  obtain ⟨hflags, hflt, hpre, hext⟩ := flagsWord (bcjFlags_lt selected o.extreme) ho.preset
  obtain ⟨hbits, hlc, hlp, hpb⟩ := bitOptsWord ho.lc ho.lp ho.pb
  have hfb := ho.fb_lo
  have hfb' := ho.fb_hi
  -- there is a record, since `fb` is never `0`
  have hdumped : dumped = some (LzmaOpts.bytes
      { flags := flags ||| (o.preset <<< lzmaOptPreOff &&& lzmaOptPreMask)
        bitOpts := (o.lc <<< lzmaOptLcOff &&& lzmaOptLcMask) ||| (o.lp <<< lzmaOptLpOff &&& lzmaOptLpMask)
          ||| (o.pb <<< lzmaOptPbOff &&& lzmaOptPbMask)
        fb := o.fb
        dictSize := o.dictSize.toUInt32.toNat }) := by
    show (lzmaXzDumpOptions {} o blockSize (bcjFlags selected)).1 = _
    rw [lzmaXzDumpOptions, if_neg (by omega)]
    simp only [Nat.zero_or]
    rfl
  generalize flags ||| (o.preset <<< lzmaOptPreOff &&& lzmaOptPreMask) = word
    at hflags hflt hpre hext hdumped
  generalize (o.lc <<< lzmaOptLcOff &&& lzmaOptLcMask) ||| (o.lp <<< lzmaOptLpOff &&& lzmaOptLpMask)
    ||| (o.pb <<< lzmaOptPbOff &&& lzmaOptPbMask) = bits at hbits hlc hlp hpb hdumped
  have hdict : o.dictSize.toUInt32.toNat < 2 ^ 32 := UInt32.toNat_lt _
  have hread : readFields [4, 2, 2, 4] (LzmaOpts.bytes
      { flags := word, bitOpts := bits, fb := o.fb, dictSize := o.dictSize.toUInt32.toNat })
      = some [word, bits, o.fb, o.dictSize.toUInt32.toNat] := by
    have hpack := readFields_packFields
      [(4, word), (2, bits), (2, o.fb), (4, o.dictSize.toUInt32.toNat)] []
    rw [List.append_nil] at hpack
    rw [LzmaOpts.bytes]
    refine hpack.trans ?_
    simp only [List.map_cons, List.map_nil]
    rw [Nat.mod_eq_of_lt (by omega), Nat.mod_eq_of_lt (by omega), Nat.mod_eq_of_lt (by omega),
      Nat.mod_eq_of_lt (by omega)]
  have hlength : ((dumped.map List.length).getD 0) = 12 := by
    rw [hdumped]
    show (packFields _).length = 12
    rw [length_packFields]
    rfl
  rw [hlength, hdumped, Option.getD_some, lzmaXzExtractOptions, if_neg (by decide), if_neg (by decide),
    hread]
  dsimp only
  rw [hflt, hpre, hlc, hlp, hpb, hext, UInt32.ofNat_toNat, Int32.toInt32_toUInt32,
    if_neg (by have := ho.lc; have := ho.lp; have := ho.pb; omega)]
  cases dictStorable o.dictSize <;> rfl

/-- No floating-point number is ever read. -/
def noFloats : Floats where
  Float := Unit
  strtof s := ((), s)
  toInt _ := 0
  isInt _ := true
  isPercentage _ := false
  percentOf _ _ := 0

end FirmwareTools.Squashfs

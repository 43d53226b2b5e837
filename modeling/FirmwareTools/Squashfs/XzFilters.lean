import FirmwareTools.Squashfs.LzmaOptions
import FirmwareTools.System.Trace

/-! # The filters of the XZ compressor

`xz_options` selects filters by their names and counts those that it has not selected before, and
`xz_extract_options` takes over the selection of an image and counts all of it. `xz_init` makes as many filter
chains for a data stream as have been counted, and fills one for each selected filter.

* **`XzFilters.Counts`** — how many more filters are counted than selected;
* **`filterCount_exact_iff`** — the count is exact as long as nothing is selected before an extraction. -/

namespace FirmwareTools.Squashfs

open FirmwareTools.Opkg (CStr)

/-! ## Selecting -/

/-- The static variables `bcj[i].selected` and `filter_count`. -/
structure XzFilters where
  selected : ℕ → Bool := fun _ => false
  filterCount : ℕ := 1

/-- The static variables of the compressor and of its options. -/
structure XzState (fl : Floats) where
  lzma : LzmaState fl := {}
  filters : XzFilters := {}

namespace XzFilters

/-- An entry of `bcj` whose name has been given. -/
def select (f : XzFilters) (i : ℕ) : XzFilters :=
  if f.selected i = false then
    { selected := Function.update f.selected i true, filterCount := f.filterCount + 1 }
  else f

/-- The list begins with this name, which ends there or at a comma. -/
def isFirst (name filter : CStr) : Bool :=
  filter.isPrefixOf name && ((name.drop filter.length).head?.all fun c => c == ',')

/-- What is left of the list behind a name. -/
def afterFirst (name filter : CStr) : CStr :=
  if (name.drop filter.length).head? = some ',' then name.drop (filter.length + 1) else name.drop filter.length

/-- The entry of `bcj` that the list begins with. -/
def findFirst (name : CStr) : Option ℕ :=
  (List.range bcjNames.length).find? fun i => isFirst name (bcjNames.getD i [])

theorem length_afterFirst {name : CStr} {i : ℕ} (hne : name ≠ []) (h : findFirst name = some i) :
    (afterFirst name (bcjNames.getD i [])).length < name.length := by
  have hi : i < bcjNames.length := List.mem_range.mp (List.mem_of_find?_eq_some h)
  have hpos : ∀ i < bcjNames.length, 0 < (bcjNames.getD i []).length := by decide
  have hname := List.length_pos_iff.mpr hne
  have := hpos i hi
  unfold afterFirst
  split
  · rw [List.length_drop]
    omega
  · rw [List.length_drop]
    omega

/-- The loop of `xz_options` over the list of filters; `false` for an unrecognised one. -/
def selectAll (f : XzFilters) (name : CStr) : Bool × XzFilters :=
  if _ : name = [] then (true, f)
  else
    match _ : findFirst name with
    | none => (false, f)
    | some i => (f.select i).selectAll (afterFirst name (bcjNames.getD i []))
termination_by name.length
decreasing_by exact length_afterFirst (by assumption) (by assumption)

theorem selectAll_nil (f : XzFilters) : f.selectAll [] = (true, f) := by
  rw [selectAll, dif_pos rfl]

theorem selectAll_none {f : XzFilters} {name : CStr} (hne : name ≠ []) (h : findFirst name = none) :
    f.selectAll name = (false, f) := by
  rw [selectAll, dif_neg hne]
  split
  · rfl
  · rename_i hsome
    rw [h] at hsome
    cases hsome

theorem selectAll_some {f : XzFilters} {name : CStr} {i : ℕ} (hne : name ≠ []) (h : findFirst name = some i) :
    f.selectAll name = (f.select i).selectAll (afterFirst name (bcjNames.getD i [])) := by
  rw [selectAll, dif_neg hne]
  split
  · rename_i hnone
    rw [h] at hnone
    cases hnone
  · rename_i j hsome
    rw [Option.some.inj (h.symm.trans hsome)]

/-- The loop of `xz_extract_options`, for one entry of `bcj`. -/
def extract (flags : ℕ) (f : XzFilters) (i : ℕ) : XzFilters :=
  if flags.testBit i then
    { selected := Function.update f.selected i true, filterCount := f.filterCount + 1 }
  else { f with selected := Function.update f.selected i false }

end XzFilters

variable {fl : Floats}

/-- `xz_options` -/
def xzOptions (argv : List CStr) (s : XzState fl) : OptionResult × XzState fl :=
  if argv.head? = some "-Xbcj".toList then
    match argv.tail with
    | [] => (.failed "xz: -Xbcj missing filter\n", s)
    | name :: _ =>
      match s.filters.selectAll name with
      | (true, filters) => (.taken 1, { s with filters })
      | (false, filters) => (.failed "xz: -Xbcj unrecognised filter\n", { s with filters })
  else
    let (res, lzma) := lzmaXzOptions .xz argv s.lzma
    (res, { s with lzma })

/-- `xz_extract_options` -/
def xzExtractOptions (blockSize : Int32) (buffer : List UInt8) (size : ℕ) (s : XzState fl) :
    ℤ × XzState fl :=
  let (ret, options) := lzmaXzExtractOptions blockSize buffer size s.lzma.options
  let s := { s with lzma := { s.lzma with options } }
  if ret = 0 then
    (0, { s with filters := (List.range bcjNames.length).foldl (XzFilters.extract options.flags) s.filters })
  else (ret, s)

/-! ## Streams -/

/-- The filters of `bcj`, by their numbers in liblzma. -/
def bcjIds : List ℕ := [0x04, 0x05, 0x06, 0x07, 0x08, 0x09]

/-- `LZMA_FILTER_LZMA2` -/
def lzmaFilterLzma2 : ℕ := 0x21

/-- `LZMA_VLI_UNKNOWN` -/
def lzmaVliUnknown : ℕ := 2 ^ 64 - 1

/-- A `lzma_filter`; its options are those of the stream or `NULL`. -/
structure LzmaFilter where
  id : ℕ := 0
  options : Bool := false
  deriving DecidableEq

/-- A `struct filter`: the size of its buffer, if it has one, and its chain. The initial values are those of
cleared memory. -/
structure XzFilter where
  buffer : Option Int32 := none
  filter : List LzmaFilter := [{}, {}, {}]
  deriving DecidableEq

/-- A `struct filter` after `memset`. -/
def clearedFilter : XzFilter := {}

/-- A `struct xz_stream`. -/
structure XzStream where
  filter : List XzFilter
  dictionarySize : Int32

/-- The chain of a filter of `bcj`. -/
def bcjFilter (blockSize : Int32) (i : ℕ) : XzFilter where
  buffer := some blockSize
  filter := [⟨bcjIds.getD i 0, false⟩, ⟨lzmaFilterLzma2, true⟩, ⟨lzmaVliUnknown, false⟩]

/-- The first chain. -/
def lzma2Filter : XzFilter where
  filter := [⟨lzmaFilterLzma2, true⟩, ⟨lzmaVliUnknown, false⟩, {}]

/-- The loop of `xz_init`, for these entries of `bcj`: the chains, `none` where a buffer cannot be had; and
nothing at all where it would write behind the array. -/
def initFilters (malloc : ℕ → Bool) (blockSize : Int32) (selected : ℕ → Bool) :
    List ℕ → ℕ → List XzFilter → Option (Option (List XzFilter))
  | [], _, filter => some (some filter)
  | i :: is, j, filter =>
    if selected i then
      if j < filter.length then
        if malloc j then initFilters malloc blockSize selected is (j + 1) (filter.set j (bcjFilter blockSize i))
        else some none
      else none
    else initFilters malloc blockSize selected is j filter

/-- `xz_init`; `none` for `-1`. Whether the buffers can be had is asked by their places. -/
def xzInit (malloc : ℕ → Bool) (blockSize : Int32) (datablock : Bool) (s : XzState fl) :
    Option (Option XzStream) :=
  let filters := if datablock then s.filters.filterCount else 1
  let dictionarySize := if datablock then s.lzma.options.dictSize else 8192
  let filter := (List.replicate filters clearedFilter).set 0 lzma2Filter
  let entries := if datablock then List.range bcjNames.length else []
  (initFilters malloc blockSize s.filters.selected entries 1 filter).map fun filter =>
    filter.map fun filter => { filter, dictionarySize }

/-- A chain that the encoder can follow: filters of `bcj`, then LZMA2 with the options of the stream, then the
end. -/
def XzFilter.Initialised (f : XzFilter) : Prop :=
  ∃ before rest, f.filter = before ++ ⟨lzmaFilterLzma2, true⟩ :: ⟨lzmaVliUnknown, false⟩ :: rest ∧
    ∀ x ∈ before, x.id ∈ bcjIds

/-- Every chain can be followed, and every one after the first has a buffer. -/
structure XzStream.Ready (stream : XzStream) : Prop where
  initialised : ∀ f ∈ stream.filter, f.Initialised
  buffers : ∀ f ∈ stream.filter.tail, f.buffer.isSome = true

/-! ## Counting -/

namespace XzFilters

/-- The number of selected entries of `bcj`. -/
def selectedCount (f : XzFilters) : ℕ := (List.range bcjNames.length).countP f.selected

/-- `d` filters more are counted than are selected. -/
def Counts (f : XzFilters) (d : ℕ) : Prop := f.filterCount = 1 + d + f.selectedCount

variable {f : XzFilters} {d i : ℕ}

/-- An entry that is set counts once. -/
theorem countP_update {p : ℕ → Bool} (hi : p i = false) {l : List ℕ} (hl : l.Nodup) (hmem : i ∈ l) :
    l.countP (Function.update p i true) = l.countP p + 1 := by
  induction l with
  | nil => exact absurd hmem List.not_mem_nil
  | cons x l ih =>
      rw [List.nodup_cons] at hl
      rw [List.countP_cons, List.countP_cons]
      rcases List.mem_cons.mp hmem with rfl | hmem
      · have hrest : l.countP (Function.update p i true) = l.countP p := by
          refine List.countP_congr fun x hx => ?_
          rw [Function.update_of_ne (ne_of_mem_of_not_mem hx hl.1)]
        rw [hrest, Function.update_self, hi]
        simp
      · rw [ih hl.2 hmem, Function.update_of_ne (ne_of_mem_of_not_mem hmem hl.1).symm]
        omega

theorem Counts.select (h : f.Counts d) (hi : i < bcjNames.length) : (f.select i).Counts d := by
  unfold XzFilters.select
  split
  · rename_i hnot
    show f.filterCount + 1 = 1 + d + (List.range bcjNames.length).countP (Function.update f.selected i true)
    rw [countP_update hnot List.nodup_range (List.mem_range.mpr hi), h, selectedCount]
    omega
  · exact h

/-- **A list of filters** is counted as far as it was not selected. -/
theorem Counts.selectAll {name : CStr} (h : f.Counts d) : (f.selectAll name).2.Counts d := by
  induction f, name using XzFilters.selectAll.induct with
  | case1 f =>
      rw [selectAll_nil]
      exact h
  | case2 f name hne hfind =>
      rw [selectAll_none hne hfind]
      exact h
  | case3 f name hne i hfind ih =>
      rw [selectAll_some hne hfind]
      exact ih (h.select (List.mem_range.mp (List.mem_of_find?_eq_some hfind)))

theorem selected_extract (flags x : ℕ) : (f.extract flags x).selected i =
    if i = x then flags.testBit i else f.selected i := by
  unfold extract
  by_cases heq : i = x
  · subst heq
    rw [if_pos rfl]
    split
    · rename_i hbit
      exact (Function.update_self ..).trans hbit.symm
    · rename_i hbit
      exact (Function.update_self ..).trans (Bool.eq_false_iff.mpr hbit).symm
  · rw [if_neg heq]
    split
    · exact Function.update_of_ne heq ..
    · exact Function.update_of_ne heq ..

/-- The entries of a list are taken over, and the set ones are counted. -/
theorem foldl_extract (flags : ℕ) (l : List ℕ) (f : XzFilters) :
    (∀ i, (l.foldl (extract flags) f).selected i = if i ∈ l then flags.testBit i else f.selected i) ∧
      (l.foldl (extract flags) f).filterCount = f.filterCount + l.countP flags.testBit := by
  induction l generalizing f with
  | nil => exact ⟨fun i => by simp, by simp⟩
  | cons x l ih =>
      obtain ⟨hselected, hcount⟩ := ih (extract flags f x)
      constructor
      · intro i
        rw [List.foldl_cons, hselected]
        by_cases hmem : i ∈ l
        · rw [if_pos hmem, if_pos (List.mem_cons_of_mem _ hmem)]
        · rw [if_neg hmem, selected_extract]
          by_cases heq : i = x
          · rw [if_pos heq, if_pos (List.mem_cons.mpr (.inl heq))]
          · rw [if_neg heq, if_neg (by simp [heq, hmem])]
      · rw [List.foldl_cons, hcount, List.countP_cons, extract]
        split
        · show f.filterCount + 1 + _ = _
          omega
        · rfl

/-- **The filters of an image** are counted on top of what was counted. -/
theorem Counts.extract (h : f.Counts d) (flags : ℕ) :
    ((List.range bcjNames.length).foldl (XzFilters.extract flags) f).Counts (d + f.selectedCount) := by
  obtain ⟨hselected, hcount⟩ := foldl_extract flags (List.range bcjNames.length) f
  have hsame : ((List.range bcjNames.length).foldl (XzFilters.extract flags) f).selectedCount
      = (List.range bcjNames.length).countP flags.testBit := by
    refine List.countP_congr fun i hi => ?_
    rw [hselected, if_pos hi]
  unfold Counts at h ⊢
  rw [hcount, hsame, h]
  omega

end XzFilters

/-! ## Chains -/

theorem initialised_lzma2Filter : lzma2Filter.Initialised := ⟨[], [{}], rfl, by simp⟩

theorem initialised_bcjFilter (blockSize : Int32) {i : ℕ} (hi : i < bcjNames.length) :
    (bcjFilter blockSize i).Initialised := by
  have hids : ∀ i < bcjNames.length, bcjIds.getD i 0 ∈ bcjIds := by decide
  refine ⟨[⟨bcjIds.getD i 0, false⟩], [], rfl, fun x hx => ?_⟩
  rw [List.mem_singleton.mp hx]
  exact hids i hi

/-- **The loop of `xz_init`**: what is left of the array behind the chains stays cleared. -/
theorem initFilters_eq (malloc : ℕ → Bool) (blockSize : Int32) (selected : ℕ → Bool) (d : ℕ) (is : List ℕ)
    (before : List XzFilter) {res : Option (Option (List XzFilter))}
    (h : initFilters malloc blockSize selected is before.length
      (before ++ List.replicate (d + is.countP selected) clearedFilter) = res) :
    res = some none ∨ res = some (some (before ++ (is.filter selected).map (bcjFilter blockSize) ++
      List.replicate d clearedFilter)) := by
  induction is generalizing before with
  | nil =>
      right
      rw [← h]
      simp [initFilters]
  | cons i is ih =>
      rw [initFilters] at h
      by_cases hi : selected i = true
      · have hset : (before ++ List.replicate (d + (i :: is).countP selected) clearedFilter).set before.length
            (bcjFilter blockSize i) = (before ++ [bcjFilter blockSize i]) ++
              List.replicate (d + is.countP selected) clearedFilter := by
          rw [List.countP_cons, if_pos hi, ← Nat.add_assoc, List.replicate_succ, List.set_append_right _ _ le_rfl,
            Nat.sub_self, List.set_cons_zero, List.append_assoc]
          rfl
        have hlt : before.length <
            (before ++ List.replicate (d + (i :: is).countP selected) clearedFilter).length := by
          rw [List.length_append, List.length_replicate, List.countP_cons, if_pos hi]
          omega
        rw [if_pos hi, if_pos hlt, hset] at h
        split at h
        · rw [List.filter_cons_of_pos hi, List.map_cons, List.append_cons]
          refine ih (before ++ [bcjFilter blockSize i]) ?_
          rw [List.length_append, List.length_singleton]
          exact h
        · exact .inl h.symm
      · rw [if_neg hi, List.countP_cons_of_neg hi] at h
        rw [List.filter_cons_of_neg hi]
        exact ih before h

variable {s : XzState fl} {d : ℕ} {malloc : ℕ → Bool} {blockSize : Int32} {stream : XzStream}

/-- **The chains of a data stream**: one for LZMA2, one for each selected filter, and as many that are cleared as
are counted too much. -/
theorem xzInit_eq (h : s.filters.Counts d) (malloc : ℕ → Bool) (blockSize : Int32) : xzInit malloc blockSize true s = some none ∨
    xzInit malloc blockSize true s = some (some {
      filter := [lzma2Filter] ++ ((List.range bcjNames.length).filter s.filters.selected).map
        (bcjFilter blockSize) ++ List.replicate d clearedFilter
      dictionarySize := s.lzma.options.dictSize }) := by
  have harray : (List.replicate s.filters.filterCount clearedFilter).set 0 lzma2Filter
      = [lzma2Filter] ++ List.replicate (d + s.filters.selectedCount) clearedFilter := by
    rw [h, Nat.add_assoc, Nat.add_comm 1, List.replicate_succ, List.set_cons_zero]
    rfl
  unfold xzInit
  simp only [if_true]
  rw [harray]
  rcases initFilters_eq malloc blockSize s.filters.selected d (List.range bcjNames.length) [lzma2Filter] rfl
    with heq | heq
  · exact .inl (congrArg _ heq)
  · exact .inr (congrArg _ heq)

/-- What `xz_init` makes of an exact count. -/
theorem ready_of_counts (h : s.filters.Counts 0) (hinit : xzInit malloc blockSize true s = some (some stream)) :
    stream.Ready := by
  rcases xzInit_eq h malloc blockSize with heq | heq
  · rw [heq] at hinit
    cases hinit
  · rw [heq] at hinit
    obtain rfl := Option.some.inj (Option.some.inj hinit)
    constructor
    · intro f hf
      simp only [List.replicate_zero, List.append_nil, List.cons_append, List.nil_append, List.mem_cons,
        List.mem_map, List.mem_filter] at hf
      rcases hf with rfl | ⟨i, ⟨hi, -⟩, rfl⟩
      · exact initialised_lzma2Filter
      · exact initialised_bcjFilter blockSize (List.mem_range.mp hi)
    · intro f hf
      simp only [List.replicate_zero, List.append_nil, List.cons_append, List.nil_append, List.tail_cons,
        List.mem_map] at hf
      obtain ⟨i, -, rfl⟩ := hf
      rfl

/-! ## Calls one after the other -/

/-- A call of `xz_options` or of `xz_extract_options`. -/
inductive XzCall
  | options (argv : List CStr)
  | extract (blockSize : Int32) (buffer : List UInt8) (size : ℕ)

/-- A call that succeeds. -/
def XzStep (s : XzState fl) : XzCall → XzState fl → Prop
  | .options argv, s' => ∃ args, xzOptions argv s = (.taken args, s')
  | .extract blockSize buffer size, s' => xzExtractOptions blockSize buffer size s = (0, s')

/-- The count is one more than the number of selected filters, and the streams for data blocks have what they
need. -/
structure FilterCountExact (s : XzState fl) : Prop where
  count : s.filters.filterCount = 1 + s.filters.selectedCount
  inside : ∀ malloc blockSize, xzInit malloc blockSize true s ≠ none
  ready : ∀ malloc blockSize stream, xzInit malloc blockSize true s = some (some stream) → stream.Ready

/-- When the filters of an image are extracted, none is selected. -/
def NothingSelected (s : XzState fl) : XzCall → Prop
  | .options _ => True
  | .extract _ _ _ => s.filters.selectedCount = 0

variable {s' : XzState fl} {call : XzCall}

theorem filterCountExact_iff : FilterCountExact s ↔ s.filters.Counts 0 := by
  constructor
  · intro h
    rw [XzFilters.Counts, Nat.add_zero]
    exact h.count
  · intro h
    refine ⟨h, fun malloc blockSize => ?_, fun _ _ _ hinit => ready_of_counts h hinit⟩
    rcases xzInit_eq h malloc blockSize with heq | heq <;> rw [heq] <;> simp

/-- **One call**: an option counts what it selects; an extraction counts what was selected before as well. -/
theorem counts_step (h : s.filters.Counts d) (hstep : XzStep s call s') : s'.filters.Counts
    (d + match call with
      | .options _ => 0
      | .extract _ _ _ => s.filters.selectedCount) := by
  cases call with
  | options argv =>
      obtain ⟨args, hcall⟩ := hstep
      unfold xzOptions at hcall
      split at hcall
      · split at hcall
        · cases hcall
        · split at hcall
          · rename_i name _ _ _ filters hselect
            obtain rfl := (Prod.mk.inj hcall).2
            have hcounts : (s.filters.selectAll name).2.Counts d := h.selectAll
            rw [hselect] at hcounts
            exact hcounts
          · cases hcall
      · obtain rfl := (Prod.mk.inj hcall).2
        exact h
  | extract blockSize buffer size =>
      unfold XzStep xzExtractOptions at hstep
      dsimp only at hstep
      split at hstep
      · obtain rfl := (Prod.mk.inj hstep).2
        exact h.extract _
      · rename_i hret
        exact absurd (Prod.mk.inj hstep).1 hret

/-- **When the count is exact**: as long as nothing is selected when the filters of an image are extracted, and no
longer. -/
theorem filterCount_exact_iff {tr : List (XzState fl × XzCall)} (hrun : Trace XzStep ({} : XzState fl) tr s) :
    Trace.Along FilterCountExact tr s ↔ ∀ x ∈ tr, NothingSelected x.1 x.2 := by
  refine hrun.forall_iff_guard (J := fun s => ∃ d, s.filters.Counts d) ⟨0, rfl⟩ ?_
    (filterCountExact_iff.mpr rfl) ?_
  · rintro s call s' ⟨d, h⟩ hstep
    exact ⟨_, counts_step h hstep⟩
  · intro s call s' _ hexact hstep
    have hcounts := counts_step (filterCountExact_iff.mp hexact) hstep
    rw [filterCountExact_iff]
    cases call with
    | options argv => exact iff_of_true hcounts trivial
    | extract blockSize buffer size =>
        show s'.filters.Counts 0 ↔ s.filters.selectedCount = 0
        change s'.filters.Counts (0 + s.filters.selectedCount) at hcounts
        unfold XzFilters.Counts at hcounts ⊢
        omega

/-- The options of an image whose data was compressed with the filter `x86`, too. -/
def x86Opts : LzmaOpts where
  flags := 1 ||| 6 <<< lzmaOptPreOff
  bitOpts := 3 ||| 2 <<< lzmaOptPbOff
  fb := 64
  dictSize := 131072

/-- `-Xbcj x86` -/
def optionsX86 : XzCall := .options ["-Xbcj".toList, "x86".toList]

/-- The options of such an image. -/
def extractX86 : XzCall := .extract 131072 x86Opts.bytes 12

/-- What is selected by the option. -/
def x86Selected : XzState noFloats := { filters := XzFilters.select {} 0 }

/-- What is there after the options of the image. -/
def x86Extracted (s : XzState noFloats) : XzState noFloats := (xzExtractOptions 131072 x86Opts.bytes 12 s).2

theorem xzStep_optionsX86 : XzStep ({} : XzState noFloats) optionsX86 x86Selected := by
  have hselect : XzFilters.selectAll {} "x86".toList = (true, XzFilters.select {} 0) := by
    rw [XzFilters.selectAll_some (i := 0) (by decide) (by decide), show XzFilters.afterFirst "x86".toList
      (bcjNames.getD 0 []) = [] by decide, XzFilters.selectAll_nil]
  refine ⟨1, ?_⟩
  unfold xzOptions
  rw [if_pos (show ["-Xbcj".toList, "x86".toList].head? = some "-Xbcj".toList from rfl)]
  dsimp only [List.tail_cons]
  rw [hselect]
  rfl

theorem xzStep_extractX86 (s : XzState noFloats) (h : (xzExtractOptions 131072 x86Opts.bytes 12 s).1 = 0) :
    XzStep s extractX86 (x86Extracted s) :=
  Prod.ext h rfl

/-- A filter that is asked for and that the image has as well is counted twice. -/
theorem not_filterCountExact_x86 :
    ¬ ∀ (tr : List (XzState noFloats × XzCall)) (s : XzState noFloats), Trace XzStep {} tr s →
      FilterCountExact s := by
  intro h
  have hcount := (h _ _ (.cons xzStep_optionsX86 (.cons (xzStep_extractX86 x86Selected (by decide +kernel))
    (.nil _)))).count
  revert hcount
  decide +kernel

/-- An image with this filter, without the option. -/
theorem filterCountExact_x86 :
    Trace XzStep ({} : XzState noFloats) [({}, extractX86)] (x86Extracted {}) ∧
      Trace.Along FilterCountExact [(({} : XzState noFloats), extractX86)] (x86Extracted {}) := by
  have hrun : Trace XzStep ({} : XzState noFloats) [({}, extractX86)] (x86Extracted {}) :=
    .cons (xzStep_extractX86 {} (by decide +kernel)) (.nil _)
  refine ⟨hrun, (filterCount_exact_iff hrun).mpr ?_⟩
  intro x hx
  rw [List.mem_singleton.mp hx]
  rfl

end FirmwareTools.Squashfs

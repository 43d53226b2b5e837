import FirmwareTools.Opkg.CString
import FirmwareTools.Order.PadLex

/-! # `verrevcmp`: the lock-step version comparison of `pkg.c`

`verrevcmp` walks two strings at once. This file embeds its loops and proves that the walk computes
a split-then-compare order: cut each string into pairs of a maximal non-digit run and a maximal
digit run (`versionRuns`), compare pair by pair, a missing pair counting as an empty run and `0`.

* **`cmpSign_verrevcmpLoop`** — the sign of the walk is `versionCompare`, the padded comparison of
  the two splits;
* **`verrevcmp_threeWay`** — hence `verrevcmp` is a well-behaved three-way comparison. -/

namespace FirmwareTools.Opkg

/-! ## The source's loops -/

/-- The macro `order(x)` on a `char` other than NUL. -/
def order (c : Char) : Int :=
  if c = '~' then -1
  else if isdigit c then 0
  else if isalpha c then charVal c
  else charVal c + 256

/-- `order(*p)`, which is `0` at the end of the string. -/
def orderAt : CStr → Int
  | [] => 0
  | c :: _ => order c

/-- `isdigit(*p)` -/
def digitAt : CStr → Bool
  | [] => false
  | c :: _ => isdigit c

/-- `*p && !isdigit(*p)` -/
def nonDigitAt : CStr → Bool
  | [] => false
  | c :: _ => !isdigit c

/-- The first inner loop: compare `order(*val)` and `order(*ref)` until neither pointer is at a
non-digit. The result is the difference found, or the two pointers after the loop. -/
def nonDigitLoop (val ref : CStr) : Int ⊕ (CStr × CStr) :=
  if nonDigitAt val || nonDigitAt ref then
    if orderAt val ≠ orderAt ref then .inl (orderAt val - orderAt ref)
    else nonDigitLoop val.tail ref.tail
  else .inr (val, ref)
termination_by val.length + ref.length
decreasing_by
  rename_i h _
  have hpos : 0 < val.length ∨ 0 < ref.length := by
    cases val with
    | cons c val => exact Or.inl (by simp)
    | nil => cases ref with
      | cons d ref => exact Or.inr (by simp)
      | nil => simp [nonDigitAt] at h
  simp only [List.length_tail]
  omega

/-- `while (*p == '0') p++;` -/
def skipZeros (p : CStr) : CStr := p.dropWhile (· == '0')

/-- The second inner loop: while both pointers are at digits, remember the first difference. -/
def digitLoop (firstDiff : Int) : CStr → CStr → Int × CStr × CStr
  | c :: val, d :: ref =>
    if isdigit c && isdigit d then
      digitLoop (if firstDiff = 0 then charVal c - charVal d else firstDiff) val ref
    else (firstDiff, c :: val, d :: ref)
  | val, ref => (firstDiff, val, ref)

/-! ## Each loop in terms of maximal runs -/

/-- The maximal non-digit run at the front. -/
def nonDigitRun (s : CStr) : CStr := s.takeWhile fun c => !isdigit c

/-- What follows the non-digit run. -/
def afterNonDigits (s : CStr) : CStr := s.dropWhile fun c => !isdigit c

/-- The maximal digit run at the front. -/
def digitRun (s : CStr) : CStr := s.takeWhile isdigit

/-- What follows the digit run. -/
def afterDigits (s : CStr) : CStr := s.dropWhile isdigit

theorem order_ne_zero {c : Char} (h : isdigit c = false) : order c ≠ 0 := by
  rw [order, if_neg (by simp [h] : ¬ isdigit c = true)]
  split
  · decide
  · split
    · next ha =>
        rw [isalpha_iff] at ha
        rw [charVal, if_pos (by omega)]
        omega
    · rw [charVal]
      split <;> omega

/-- At an end of run, and only there, `order` is `0`. -/
theorem orderAt_eq_zero_iff (s : CStr) : orderAt s = 0 ↔ nonDigitAt s = false := by
  cases s with
  | nil => simp [orderAt, nonDigitAt]
  | cons c s =>
      by_cases hc : isdigit c = true
      · have hne : c ≠ '~' := by rintro rfl; exact absurd hc (by decide)
        simp [orderAt, nonDigitAt, order, hc, hne]
      · have hc' : isdigit c = false := by simpa using hc
        simp [orderAt, nonDigitAt, hc', order_ne_zero hc']

theorem afterNonDigits_of_nonDigitAt_eq_false {s : CStr} (h : nonDigitAt s = false) :
    nonDigitRun s = [] ∧ afterNonDigits s = s := by
  cases s with
  | nil => simp [nonDigitRun, afterNonDigits]
  | cons c s =>
      have hc : isdigit c = true := by simpa [nonDigitAt] using h
      simp [nonDigitRun, afterNonDigits, hc]

theorem afterNonDigits_of_nonDigitAt {s : CStr} (h : nonDigitAt s = true) :
    nonDigitRun s = s.headD '0' :: nonDigitRun s.tail ∧
      afterNonDigits s = afterNonDigits s.tail ∧ orderAt s = order (s.headD '0') := by
  cases s with
  | nil => simp [nonDigitAt] at h
  | cons c s =>
      have hc : isdigit c = false := by simpa [nonDigitAt] using h
      simp [nonDigitRun, afterNonDigits, orderAt, hc]

/-- Comparison of two non-digit runs by `order`, the end of a run counting as `0`. -/
def runCompare (val ref : CStr) : Ordering :=
  padCompare compare 0 (val.map order) (ref.map order)

/-- **The first inner loop compares the non-digit runs** and, when they are equal, leaves both
pointers just behind them. -/
theorem nonDigitLoop_spec (val ref : CStr) :
    match nonDigitLoop val ref with
    | .inl r => cmpSign r = runCompare (nonDigitRun val) (nonDigitRun ref) ∧ r ≠ 0
    | .inr (v, r) => runCompare (nonDigitRun val) (nonDigitRun ref) = .eq ∧
        v = afterNonDigits val ∧ r = afterNonDigits ref := by
  induction val, ref using nonDigitLoop.induct with
  | case1 val ref hloop hne =>
      rw [nonDigitLoop, if_pos hloop, if_pos hne]
      refine ⟨?_, by omega⟩
      have hcmp : compare (orderAt val) (orderAt ref) ≠ .eq := by
        rwa [ne_eq, compare_eq_iff_eq]
      have hheads : ∀ s : CStr, ((nonDigitRun s).map order).headD 0 = orderAt s := by
        intro s
        cases hs : nonDigitAt s with
        | false =>
            rw [(afterNonDigits_of_nonDigitAt_eq_false hs).1, (orderAt_eq_zero_iff s).mpr hs]
            rfl
        | true =>
            obtain ⟨hrun, -, hord⟩ := afterNonDigits_of_nonDigitAt hs
            rw [hrun, hord]
            rfl
      rw [cmpSign_sub, runCompare, padCompare_step, hheads, hheads]
      cases hc : compare (orderAt val) (orderAt ref) with
      | eq => exact absurd hc hcmp
      | lt => rfl
      | gt => rfl
  | case2 val ref hloop heq ih =>
      rw [nonDigitLoop, if_pos hloop, if_neg heq]
      have heq' : orderAt val = orderAt ref := by simpa using heq
      -- equal orders: both pointers are at a non-digit, so both runs lose their head
      have hboth : nonDigitAt val = true ∧ nonDigitAt ref = true := by
        have h0 : nonDigitAt val = false ↔ nonDigitAt ref = false := by
          rw [← orderAt_eq_zero_iff, ← orderAt_eq_zero_iff, heq']
        cases hv : nonDigitAt val <;> cases hr : nonDigitAt ref <;> simp_all
      obtain ⟨hvrun, hvafter, hvord⟩ := afterNonDigits_of_nonDigitAt hboth.1
      obtain ⟨hrrun, hrafter, hrord⟩ := afterNonDigits_of_nonDigitAt hboth.2
      have hrun : runCompare (nonDigitRun val) (nonDigitRun ref)
          = runCompare (nonDigitRun val.tail) (nonDigitRun ref.tail) := by
        rw [runCompare, hvrun, hrrun, List.map_cons, List.map_cons, padCompare_cons_cons,
          ← hvord, ← hrord, heq', compare_eq_iff_eq.mpr rfl]
        rfl
      rw [hrun, hvafter, hrafter]
      exact ih
  | case3 val ref hloop =>
      rw [nonDigitLoop, if_neg hloop]
      simp only [Bool.or_eq_true, not_or, Bool.not_eq_true] at hloop
      obtain ⟨hvrun, hvafter⟩ := afterNonDigits_of_nonDigitAt_eq_false hloop.1
      obtain ⟨hrrun, hrafter⟩ := afterNonDigits_of_nonDigitAt_eq_false hloop.2
      simp [hvrun, hrrun, hvafter, hrafter, runCompare]

theorem digitRun_isdigit (s : CStr) : ∀ c ∈ digitRun s, isdigit c = true :=
  fun _ hc => List.mem_takeWhile_imp hc

/-- **The second inner loop compares digit runs**: of runs of different length it stops at the
longer one; of runs of one length it passes both and keeps the sign of their difference, unless a
difference is remembered already. -/
theorem digitLoop_spec (firstDiff : Int) (val ref : CStr) :
    match digitLoop firstDiff val ref with
    | (fd, v, r) =>
      (digitAt v = true ↔ (digitRun ref).length < (digitRun val).length) ∧
      (digitAt r = true ↔ (digitRun val).length < (digitRun ref).length) ∧
      ((digitRun val).length = (digitRun ref).length →
        cmpSign fd = (cmpSign firstDiff).then
          (compare (digitsValue (digitRun val)) (digitsValue (digitRun ref))) ∧
        v = afterDigits val ∧ r = afterDigits ref) := by
  induction firstDiff, val, ref using digitLoop.induct with
  | case1 firstDiff c val d ref hdig ih =>
      rw [digitLoop, if_pos hdig]
      simp only [Bool.and_eq_true] at hdig
      obtain ⟨hc, hd⟩ := hdig
      have hval : digitRun (c :: val) = c :: digitRun val := by simp [digitRun, hc]
      have href : digitRun (d :: ref) = d :: digitRun ref := by simp [digitRun, hd]
      have haval : afterDigits (c :: val) = afterDigits val := by simp [afterDigits, hc]
      have haref : afterDigits (d :: ref) = afterDigits ref := by simp [afterDigits, hd]
      rw [hval, href, haval, haref]
      obtain ⟨hv, hr, heq⟩ := ih
      simp only [List.length_cons]
      refine ⟨by rw [hv]; omega, by rw [hr]; omega, fun hlen => ?_⟩
      obtain ⟨hfd, hv', hr'⟩ := heq (by omega)
      refine ⟨?_, hv', hr'⟩
      rw [hfd]
      by_cases h0 : firstDiff = 0
      · rw [if_pos h0, h0, cmpSign_sub, cmpSign_zero, Ordering.eq_then,
          compare_digitsValue_cons hc hd (digitRun_isdigit _) (digitRun_isdigit _) (by omega)]
      · rw [if_neg h0]
        have hne : cmpSign firstDiff ≠ .eq := fun h => h0 (cmpSign_eq_eq.mp h)
        cases hs : cmpSign firstDiff with
        | eq => exact absurd hs hne
        | lt => rfl
        | gt => rfl
  | case2 firstDiff c val d ref hdig =>
      rw [digitLoop, if_neg hdig]
      simp only [Bool.and_eq_true, not_and_or, Bool.not_eq_true] at hdig
      refine ⟨?_, ?_, ?_⟩
      all_goals
        cases hc : isdigit c <;> cases hd : isdigit d <;>
          simp_all [digitAt, digitRun, afterDigits, digitsValue]
  | case3 firstDiff val ref hne =>
      have hloop : digitLoop firstDiff val ref = (firstDiff, val, ref) := by
        cases val with
        | nil => rfl
        | cons c val => cases ref with
          | nil => rfl
          | cons d ref => exact absurd rfl (hne c val d ref rfl)
      rw [hloop]
      cases val with
      | nil => cases ref with
        | nil => simp [digitAt, digitRun, afterDigits]
        | cons d ref => cases hd : isdigit d <;> simp [digitAt, digitRun, afterDigits, hd]
      | cons c val => cases ref with
        | nil => cases hc : isdigit c <;> simp [digitAt, digitRun, afterDigits, hc]
        | cons d ref => exact absurd rfl (hne c val d ref rfl)

/-! ## The whole walk -/

/-- Skipping zeros shortens the digit run, not its value, and keeps what follows it. -/
theorem skipZeros_spec (s : CStr) :
    digitsValue (digitRun (skipZeros s)) = digitsValue (digitRun s) ∧
      afterDigits (skipZeros s) = afterDigits s ∧ (digitRun (skipZeros s)).head? ≠ some '0' := by
  have hrun : digitRun (skipZeros s) = (digitRun s).dropWhile (· == '0') := by
    induction s with
    | nil => rfl
    | cons c s ih =>
        by_cases hc : c = '0'
        · subst hc
          simpa [skipZeros, digitRun, show isdigit '0' = true from rfl] using ih
        · cases hd : isdigit c <;> simp [skipZeros, digitRun, hc, hd]
  have hafter : afterDigits (skipZeros s) = afterDigits s := by
    induction s with
    | nil => rfl
    | cons c s ih =>
        by_cases hc : c = '0'
        · subst hc
          rw [skipZeros, List.dropWhile_cons_of_pos (by decide), ← skipZeros, ih (by
            simpa [skipZeros, digitRun, show isdigit '0' = true from rfl] using hrun)]
          simp [afterDigits, show isdigit '0' = true from rfl]
        · simp [skipZeros, hc]
  refine ⟨by rw [hrun, digitsValue_dropWhile_zero], hafter, fun h => ?_⟩
  rw [hrun] at h
  have hz := List.head?_dropWhile_not (· == '0') (digitRun s)
  rw [h] at hz
  simp at hz

/-- **Skipping zeros and running the second inner loop compares the digit runs as numbers**, and
when neither is longer it leaves both pointers just behind them. -/
theorem digitLoop_skipZeros_spec (val ref : CStr) :
    match digitLoop 0 (skipZeros val) (skipZeros ref) with
    | (fd, v, r) =>
      cmpSign (if digitAt v then 1 else if digitAt r then -1 else fd)
          = compare (digitsValue (digitRun val)) (digitsValue (digitRun ref)) ∧
        (digitAt v = false → digitAt r = false → v = afterDigits val ∧ r = afterDigits ref) := by
  have hspec := digitLoop_spec 0 (skipZeros val) (skipZeros ref)
  obtain ⟨hvval, hvafter, hvhead⟩ := skipZeros_spec val
  obtain ⟨hrval, hrafter, hrhead⟩ := skipZeros_spec ref
  rw [← hvval, ← hrval]
  rcases hdl : digitLoop 0 (skipZeros val) (skipZeros ref) with ⟨fd, v, r⟩
  rw [hdl] at hspec
  obtain ⟨hv, hr, heq⟩ := hspec
  rcases lt_trichotomy (digitRun (skipZeros val)).length (digitRun (skipZeros ref)).length
    with hlen | hlen | hlen
  · have hv' : digitAt v = false := by rw [← Bool.not_eq_true, hv]; omega
    have hr' : digitAt r = true := hr.mpr hlen
    have hlt := digitsValue_lt_of_length_lt (digitRun_isdigit _) (digitRun_isdigit _) hrhead hlen
    refine ⟨?_, fun _ h => absurd hr' (by simp [h])⟩
    rw [hv', hr', compare_lt_iff_lt.mpr hlt]
    rfl
  · have hv' : digitAt v = false := by rw [← Bool.not_eq_true, hv]; omega
    have hr' : digitAt r = false := by rw [← Bool.not_eq_true, hr]; omega
    obtain ⟨hfd, hva, hra⟩ := heq hlen
    simp only [hv', hr', Bool.false_eq_true, if_false]
    exact ⟨by rw [hfd, cmpSign_zero, Ordering.eq_then], fun _ _ =>
      ⟨hva.trans hvafter, hra.trans hrafter⟩⟩
  · have hv' : digitAt v = true := hv.mpr hlen
    have hlt := digitsValue_lt_of_length_lt (digitRun_isdigit _) (digitRun_isdigit _) hvhead hlen
    refine ⟨?_, fun h => absurd hv' (by simp [h])⟩
    rw [hv', compare_gt_iff_gt.mpr hlt]
    rfl

/-- What follows the first non-digit run and the digit run behind it. -/
def afterRuns (s : CStr) : CStr := afterDigits (afterNonDigits s)

/-- The two runs at the front of a string are not both empty. -/
theorem length_afterRuns_lt {s : CStr} (h : s ≠ []) : (afterRuns s).length < s.length := by
  have hd : ∀ t : CStr, (afterDigits t).length ≤ t.length :=
    fun t => (List.dropWhile_suffix _).length_le
  have hn : ∀ t : CStr, (afterNonDigits t).length ≤ t.length :=
    fun t => (List.dropWhile_suffix _).length_le
  cases s with
  | nil => exact absurd rfl h
  | cons c s =>
      have hd' := hd (afterNonDigits s)
      have hn' := hn s
      have hds := hd s
      cases hc : isdigit c with
      | true =>
          have : afterRuns (c :: s) = afterDigits s := by
            simp [afterRuns, afterNonDigits, afterDigits, hc]
          simp only [this, List.length_cons]
          omega
      | false =>
          have : afterRuns (c :: s) = afterDigits (afterNonDigits s) := by
            simp [afterRuns, afterNonDigits, hc]
          simp only [this, List.length_cons]
          omega

theorem length_afterRuns_le (s : CStr) : (afterRuns s).length ≤ s.length := by
  cases s with
  | nil => simp [afterRuns, afterNonDigits, afterDigits]
  | cons c s => exact (length_afterRuns_lt (List.cons_ne_nil c s)).le

/-- The total length that `verrevcmp` has still to walk goes down in every round. -/
theorem length_afterRuns_add_lt {val ref : CStr} (h : ¬ (val = [] ∧ ref = [])) :
    (afterRuns val).length + (afterRuns ref).length < val.length + ref.length := by
  have hv := length_afterRuns_le val
  have hr := length_afterRuns_le ref
  by_cases hval : val = []
  · have := length_afterRuns_lt fun href => h ⟨hval, href⟩
    omega
  · have := length_afterRuns_lt hval
    omega

/-- `verrevcmp` on two strings: alternate between the two inner loops until both strings end. -/
def verrevcmpLoop (val ref : CStr) : Int :=
  if val = [] ∧ ref = [] then 0
  else
    match _hnd : nonDigitLoop val ref with
    | .inl r => r
    | .inr (v, r) =>
      match _hdl : digitLoop 0 (skipZeros v) (skipZeros r) with
      | (firstDiff, v', r') =>
        if digitAt v' then 1
        else if digitAt r' then -1
        else if firstDiff ≠ 0 then firstDiff
        else verrevcmpLoop v' r'
termination_by val.length + ref.length
decreasing_by
  rename_i hne hv hr _
  have hns := nonDigitLoop_spec val ref
  rw [_hnd] at hns
  have hds := digitLoop_skipZeros_spec v r
  rw [_hdl] at hds
  obtain ⟨rfl, rfl⟩ := hds.2 (by simpa using hv) (by simpa using hr)
  rw [hns.2.1, hns.2.2]
  exact length_afterRuns_add_lt hne

/-- `verrevcmp`: a `NULL` string is the empty one. -/
def verrevcmp (val ref : Option CStr) : Int := verrevcmpLoop (val.getD []) (ref.getD [])

/-! ## The order it computes -/

/-- Split a string into pairs of a maximal non-digit run and the number its maximal digit run
denotes. -/
def versionRuns (s : CStr) : List (CStr × Nat) :=
  if s = [] then []
  else (nonDigitRun s, digitsValue (digitRun (afterNonDigits s))) :: versionRuns (afterRuns s)
termination_by s.length
decreasing_by exact length_afterRuns_lt ‹_›

/-- A pair that has ended counts as an empty run followed by `0`. -/
def noRun : CStr × Nat := ([], 0)

/-- Comparison of two pairs of runs: the non-digit runs first, then the numbers. -/
def runPairCompare (x y : CStr × Nat) : Ordering :=
  (runCompare x.1 y.1).then (compare x.2 y.2)

theorem versionRuns_headD (s : CStr) :
    (versionRuns s).headD noRun = (nonDigitRun s, digitsValue (digitRun (afterNonDigits s))) := by
  rw [versionRuns]
  by_cases hs : s = []
  · simp [hs, noRun, nonDigitRun, afterNonDigits, digitRun, digitsValue]
  · simp [hs]

theorem versionRuns_tail (s : CStr) : (versionRuns s).tail = versionRuns (afterRuns s) := by
  rw [versionRuns]
  by_cases hs : s = []
  · simp [hs, afterRuns, afterNonDigits, afterDigits, versionRuns]
  · simp [hs]

instance runCompare_trans : Std.TransCmp runCompare where
  eq_swap := padCompare_swap _ _
  isLE_trans := padCompare_isLE_trans _ _ _

instance runPairCompare_trans : Std.TransCmp runPairCompare where
  eq_swap {x y} := by
    rw [runPairCompare, runPairCompare, Ordering.swap_then, ← Std.OrientedCmp.eq_swap,
      ← Std.OrientedCmp.eq_swap]
  isLE_trans := isLE_then_trans Std.TransCmp.isLE_trans

/-- Split both strings, then compare pair by pair. -/
def versionCompare (val ref : CStr) : Ordering :=
  padCompare runPairCompare noRun (versionRuns val) (versionRuns ref)

instance versionCompare_trans : Std.TransCmp versionCompare where
  eq_swap := padCompare_swap _ _
  isLE_trans := padCompare_isLE_trans _ _ _

/-- One pair of runs is compared, then what follows them. -/
theorem versionCompare_step (val ref : CStr) :
    versionCompare val ref
      = (runPairCompare (nonDigitRun val, digitsValue (digitRun (afterNonDigits val)))
          (nonDigitRun ref, digitsValue (digitRun (afterNonDigits ref)))).then
        (versionCompare (afterRuns val) (afterRuns ref)) := by
  rw [versionCompare, padCompare_step, versionRuns_headD, versionRuns_headD, versionRuns_tail,
    versionRuns_tail, versionCompare]

/-- **The lock-step walk is split-then-compare.** -/
theorem cmpSign_verrevcmpLoop (val ref : CStr) :
    cmpSign (verrevcmpLoop val ref) = versionCompare val ref := by
  induction hn : val.length + ref.length using Nat.strong_induction_on generalizing val ref with
  | _ n ih =>
    by_cases hne : val = [] ∧ ref = []
    · obtain ⟨rfl, rfl⟩ := hne
      simp [verrevcmpLoop, versionCompare, versionRuns]
    rw [versionCompare_step, runPairCompare, verrevcmpLoop, if_neg hne]
    have hns := nonDigitLoop_spec val ref
    split
    · next r hnd =>
        rw [hnd] at hns
        obtain ⟨hsign, hr0⟩ := hns
        have hcmp : runCompare (nonDigitRun val) (nonDigitRun ref) ≠ .eq := by
          rw [← hsign]
          exact fun h => hr0 (cmpSign_eq_eq.mp h)
        rw [hsign]
        cases hc : runCompare (nonDigitRun val) (nonDigitRun ref) with
        | eq => exact absurd hc hcmp
        | lt => rfl
        | gt => rfl
    · next v r hnd =>
        rw [hnd] at hns
        obtain ⟨hcmp, rfl, rfl⟩ := hns
        have hds := digitLoop_skipZeros_spec (afterNonDigits val) (afterNonDigits ref)
        split
        next fd v' r' hdl =>
          rw [hdl] at hds
          obtain ⟨hsign, hafter⟩ := hds
          rw [hcmp, Ordering.eq_then, ← hsign]
          cases hv : digitAt v' with
          | true => rfl
          | false =>
              cases hr : digitAt r' with
              | true => rfl
              | false =>
                  obtain ⟨rfl, rfl⟩ := hafter hv hr
                  by_cases hfd : fd = 0
                  · simp only [hfd, ne_eq, not_true_eq_false, Bool.false_eq_true, if_false,
                      cmpSign_zero, Ordering.eq_then]
                    exact ih _ (hn ▸ length_afterRuns_add_lt hne) _ _ rfl
                  · have hne' : cmpSign fd ≠ .eq := fun h => hfd (cmpSign_eq_eq.mp h)
                    simp only [hfd, ne_eq, not_false_eq_true, Bool.false_eq_true, if_false, if_true]
                    cases hs : cmpSign fd with
                    | eq => exact absurd hs hne'
                    | lt => rfl
                    | gt => rfl

/-- **`verrevcmp` is a well-behaved three-way comparison** of two possibly `NULL` strings. -/
theorem verrevcmp_threeWay : ThreeWay verrevcmp :=
  (ThreeWay.of_ordering cmpSign_verrevcmpLoop).comap fun s : Option CStr => s.getD []

end FirmwareTools.Opkg

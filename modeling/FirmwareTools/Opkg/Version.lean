import FirmwareTools.Opkg.Package
import FirmwareTools.Opkg.Vercmp

/-! # Version comparison of packages

`parse_version` cuts a version string into epoch, upstream version and revision;
`pkg_compare_versions` compares two packages by the three, and `pkg_version_satisfied` answers the
relations of `opkg compare-versions`.

* **`pkgCompareVersions_threeWay`**, **`pkgCompareVersions_preorder`** — the comparison is a total
  preorder on packages;
* **`verrevcmp_eq_debianCompare`** — on ASCII strings `verrevcmp` computes the reference order of
  Debian, which is given here on its own (`debianCompare`). -/

namespace FirmwareTools.Opkg

/-! ## The source's functions -/

/-- `strrchr(s, '-')` as a cut: what precedes the last `-` and what follows it. -/
def splitRevision (s : CStr) : CStr × Option CStr :=
  if '-' ∈ s then
    ((s.rdropWhile (· != '-')).dropLast, some (s.rtakeWhile (· != '-')))
  else (s, none)

/-- `parse_version`: the epoch stands before the first `:`, the revision behind the last `-` of the
rest. An epoch out of range is reported and reads as `ULONG_MAX`. -/
def parseVersion (pkg : Pkg) (vstr : CStr) : Pkg :=
  let vstr := if "Version:".toList.isPrefixOf vstr then vstr.drop 8 else vstr
  let vstr := vstr.dropWhile isspace
  let (epoch, vstr) := match strchr vstr ':' with
    | some colon => (strtoul vstr, colon.tail)
    | none => (0, vstr)
  let (version, revision) := splitRevision vstr
  { pkg with epoch := epoch, version := some version, revision := revision }

/-- `pkg_compare_versions` -/
def pkgCompareVersions (pkg refPkg : Pkg) : Int :=
  if pkg.epoch > refPkg.epoch then 1
  else if pkg.epoch < refPkg.epoch then -1
  else
    let r := verrevcmp pkg.version refPkg.version
    if r ≠ 0 then r
    else verrevcmp pkg.revision refPkg.revision

/-- `pkg_version_satisfied`; an unknown operator is reported and not satisfied. -/
def pkgVersionSatisfied (it ref : Pkg) (op : CStr) : Bool :=
  let r := pkgCompareVersions it ref
  if op = "<=".toList ∨ op = "<".toList then r ≤ 0
  else if op = ">=".toList ∨ op = ">".toList then r ≥ 0
  else if op = "<<".toList then r < 0
  else if op = ">>".toList then r > 0
  else if op = "=".toList then r = 0
  else false

/-! ## The comparison is a total preorder -/

/-- Comparison of epochs, as the first two tests of `pkg_compare_versions` do it. -/
def epochCompare (pkg refPkg : Pkg) : Int :=
  if pkg.epoch > refPkg.epoch then 1 else if pkg.epoch < refPkg.epoch then -1 else 0

theorem epochCompare_threeWay : ThreeWay epochCompare where
  sign_swap a b := by
    rw [epochCompare, epochCompare]
    rcases lt_trichotomy a.epoch b.epoch with h | h | h
    · rw [if_neg (by omega), if_pos h, if_pos h]
      rfl
    · rw [h, if_neg (by omega), if_neg (by omega)]
      rfl
    · rw [if_pos h, if_neg (by omega), if_pos h]
      rfl
  le_trans a b c hab hbc := by
    have hle : ∀ p q : Pkg, epochCompare p q ≤ 0 ↔ p.epoch ≤ q.epoch := by
      intro p q
      rw [epochCompare]
      split
      · omega
      · split <;> omega
    rw [hle] at hab hbc ⊢
    omega

/-- Epoch, then version, then revision. -/
theorem pkgCompareVersions_eq (pkg refPkg : Pkg) :
    pkgCompareVersions pkg refPkg =
      if epochCompare pkg refPkg ≠ 0 then epochCompare pkg refPkg
      else if verrevcmp pkg.version refPkg.version ≠ 0 then verrevcmp pkg.version refPkg.version
      else verrevcmp pkg.revision refPkg.revision := by
  rw [pkgCompareVersions, epochCompare]
  by_cases hgt : pkg.epoch > refPkg.epoch
  · simp [hgt]
  · by_cases hlt : pkg.epoch < refPkg.epoch
    · simp [hgt, hlt]
    · simp [hgt, hlt]

/-- **`pkg_compare_versions` is a well-behaved three-way comparison.** -/
theorem pkgCompareVersions_threeWay : ThreeWay pkgCompareVersions := by
  have h := epochCompare_threeWay.lex ((verrevcmp_threeWay.comap Pkg.version).lex
    (verrevcmp_threeWay.comap Pkg.revision))
  have heq : pkgCompareVersions = _ := funext fun a => funext (pkgCompareVersions_eq a)
  rwa [← heq] at h

/-- **Total preorder**: reflexive, sign-antisymmetric, transitive, and packages that compare equal
compare alike with everything. -/
theorem pkgCompareVersions_preorder :
    (∀ a, pkgCompareVersions a a = 0) ∧
    (∀ a b, (pkgCompareVersions a b).sign = -(pkgCompareVersions b a).sign) ∧
    (∀ a b c, pkgCompareVersions a b ≤ 0 → pkgCompareVersions b c ≤ 0 →
      pkgCompareVersions a c ≤ 0) ∧
    (∀ a b, pkgCompareVersions a b = 0 →
      ∀ c, (pkgCompareVersions a c).sign = (pkgCompareVersions b c).sign) :=
  have h := pkgCompareVersions_threeWay
  ⟨h.refl, h.sign_swap, h.le_trans, fun _ _ hab => h.sign_congr hab⟩

/-- `1:1.0` is not later than `1:1.0-1`, which is not later than `2:0`, and `1.0` and `1.00` compare
alike with `2:0`. -/
theorem pkgCompareVersions_preorder_versions :
    pkgCompareVersions (parseVersion pkgNew "1:1.0".toList) (parseVersion pkgNew "2:0".toList) ≤ 0 ∧
    (pkgCompareVersions (parseVersion pkgNew "1.0".toList) (parseVersion pkgNew "2:0".toList)).sign
      = (pkgCompareVersions (parseVersion pkgNew "1.00".toList)
          (parseVersion pkgNew "2:0".toList)).sign :=
  ⟨pkgCompareVersions_preorder.2.2.1 _ (parseVersion pkgNew "1:1.0-1".toList) _
      (by decide +kernel) (by decide +kernel),
    pkgCompareVersions_preorder.2.2.2 _ _ (by decide +kernel) _⟩

/-! ## The Debian reference order -/

/-- The class of a position in a non-digit run: `~`, the end of the run, letters, the rest. -/
def debianClass : Option Char → Nat
  | none => 1
  | some c => if c = '~' then 0 else if isalpha c then 2 else 3

/-- The code of a position, by which positions of one class are ordered. -/
def debianCode : Option Char → Nat
  | none => 0
  | some c => c.toNat

/-- Comparison of two positions: by class, then by code. -/
def debianCharCompare (x y : Option Char) : Ordering :=
  (compare (debianClass x) (debianClass y)).then (compare (debianCode x) (debianCode y))

/-- Comparison of two non-digit runs, position by position. -/
def debianRunCompare (x y : CStr) : Ordering :=
  padCompare debianCharCompare none (x.map some) (y.map some)

/-- Comparison of two pairs of runs: the non-digit runs, then the digit runs as numbers. -/
def debianPairCompare (x y : CStr × Nat) : Ordering :=
  (debianRunCompare x.1 y.1).then (compare x.2 y.2)

/-- **The reference order**: split into runs, compare pair by pair. -/
def debianCompare (a b : CStr) : Ordering :=
  padCompare debianPairCompare noRun (versionRuns a) (versionRuns b)

theorem debianCharCompare_eq_iff (x y : Option Char) : debianCharCompare x y = .eq ↔ x = y := by
  rw [debianCharCompare, Ordering.then_eq_eq, compare_eq_iff_eq, compare_eq_iff_eq]
  refine ⟨fun ⟨hclass, hcode⟩ => ?_, fun h => by rw [h]; exact ⟨rfl, rfl⟩⟩
  cases x with
  | none =>
      cases y with
      | none => rfl
      | some d =>
          simp only [debianClass] at hclass
          split at hclass
          · omega
          · split at hclass <;> omega
  | some c =>
      cases y with
      | none =>
          simp only [debianClass] at hclass
          split at hclass
          · omega
          · split at hclass <;> omega
      | some d => rw [Char.toNat_inj.mp hcode]

instance debianCharCompare_lawful : Std.LawfulEqCmp debianCharCompare where
  compare_self := (debianCharCompare_eq_iff _ _).mpr rfl
  eq_of_compare := (debianCharCompare_eq_iff _ _).mp

/-- Two non-digit runs compare equal only when they are equal. -/
theorem debianRunCompare_eq_iff (x y : CStr) : debianRunCompare x y = .eq ↔ x = y := by
  have hget : ∀ (s : CStr) (i : ℕ), (s.map some).getD i none = s[i]? := by
    intro s i
    rw [List.getD_eq_getElem?_getD, List.getElem?_map]
    cases s[i]? <;> rfl
  rw [debianRunCompare, padCompare_eq_eq_iff]
  simp only [hget]
  exact ⟨List.ext_getElem?, fun h i => by rw [h]⟩

theorem debianPairCompare_eq_iff (x y : CStr × Nat) : debianPairCompare x y = .eq ↔ x = y := by
  rw [debianPairCompare, Ordering.then_eq_eq, debianRunCompare_eq_iff, compare_eq_iff_eq,
    Prod.ext_iff]

instance debianPairCompare_lawful : Std.LawfulEqCmp debianPairCompare where
  compare_self := (debianPairCompare_eq_iff _ _).mpr rfl
  eq_of_compare := (debianPairCompare_eq_iff _ _).mp

/-! ## `verrevcmp` computes it -/

/-- What `order` gives at a position of a non-digit run. -/
def orderPos : Option Char → Int
  | none => 0
  | some c => order c

/-- An ASCII string without digits. -/
def IsAsciiNonDigit (s : CStr) : Prop := ∀ c ∈ s, c.toNat < 128 ∧ isdigit c = false

/-- The values of `order` on ASCII non-digits, with the class and the code behind each. -/
theorem orderPos_cases {x : Option Char} (h : IsAsciiNonDigit x.toList) :
    (orderPos x = -1 ∧ debianClass x = 0 ∧ debianCode x = 126) ∨
    (orderPos x = 0 ∧ debianClass x = 1 ∧ debianCode x = 0) ∨
    (orderPos x = debianCode x ∧ debianClass x = 2 ∧ 0 < orderPos x ∧ orderPos x < 128) ∨
    (orderPos x = debianCode x + 256 ∧ debianClass x = 3) := by
  cases x with
  | none => exact Or.inr (Or.inl ⟨rfl, rfl, rfl⟩)
  | some c =>
      obtain ⟨hc, hd⟩ := h c (by simp)
      have hval : charVal c = c.toNat := by rw [charVal, if_pos hc]
      by_cases htilde : c = '~'
      · subst htilde
        exact Or.inl ⟨rfl, rfl, rfl⟩
      · rw [orderPos, order, debianClass, debianCode, if_neg htilde, if_neg htilde,
          if_neg (by simp [hd]), hval]
        by_cases ha : isalpha c = true
        · rw [if_pos ha, if_pos ha]
          rw [isalpha_iff] at ha
          exact Or.inr (Or.inr (Or.inl ⟨rfl, rfl, by omega, by omega⟩))
        · rw [if_neg ha, if_neg ha]
          exact Or.inr (Or.inr (Or.inr ⟨rfl, rfl⟩))

/-- One key that sorts like two keys in turn. -/
theorem compare_eq_compare_then {a b : Int} {m n i j : Nat}
    (hlt : a < b ↔ m < n ∨ m = n ∧ i < j) (heq : a = b ↔ m = n ∧ i = j) :
    compare a b = (compare m n).then (compare i j) := by
  rcases lt_trichotomy m n with hmn | hmn | hmn
  · rw [compare_lt_iff_lt.mpr hmn, Ordering.lt_then, compare_lt_iff_lt]
    omega
  · rw [compare_eq_iff_eq.mpr hmn, Ordering.eq_then]
    rcases lt_trichotomy i j with hij | hij | hij
    · rw [compare_lt_iff_lt.mpr hij, compare_lt_iff_lt]
      omega
    · rw [compare_eq_iff_eq.mpr hij, compare_eq_iff_eq]
      omega
    · rw [compare_gt_iff_gt.mpr hij, compare_gt_iff_gt]
      omega
  · rw [compare_gt_iff_gt.mpr hmn, Ordering.gt_then, compare_gt_iff_gt]
    omega

/-- On ASCII non-digits, and at the end of a run, `order` sorts like class-then-code. -/
theorem compare_orderPos {x y : Option Char} (hx : IsAsciiNonDigit x.toList)
    (hy : IsAsciiNonDigit y.toList) :
    compare (orderPos x) (orderPos y) = debianCharCompare x y := by
  have hx' := orderPos_cases hx
  have hy' := orderPos_cases hy
  exact compare_eq_compare_then (by omega) (by omega)

theorem runCompare_eq_debianRunCompare {x y : CStr} (hx : IsAsciiNonDigit x)
    (hy : IsAsciiNonDigit y) : runCompare x y = debianRunCompare x y := by
  have hsome : ∀ {s : CStr}, IsAsciiNonDigit s → ∀ c ∈ s, IsAsciiNonDigit (some c).toList := by
    intro s hs c hc d hd
    have hdc : d = c := by simpa using hd
    rw [hdc]
    exact hs c hc
  have hnone : IsAsciiNonDigit (none : Option Char).toList := fun c hc => absurd hc (by simp)
  exact padCompare_map_congr order some x y
    (fun c hc d hd => compare_orderPos (hsome hx c hc) (hsome hy d hd))
    (fun c hc => compare_orderPos (hsome hx c hc) hnone)
    (fun d hd => compare_orderPos hnone (hsome hy d hd))

/-- A string of ASCII characters. -/
def IsAscii (s : CStr) : Prop := ∀ c ∈ s, c.toNat < 128

instance (s : CStr) : Decidable (IsAscii s) := List.decidableBAll _ s

/-- The non-digit runs of an ASCII string are ASCII and have no digits. -/
theorem isAsciiNonDigit_of_mem_versionRuns {s : CStr} (h : IsAscii s) :
    ∀ p ∈ versionRuns s, IsAsciiNonDigit p.1 := by
  induction s using versionRuns.induct with
  | case1 => simp [versionRuns]
  | case2 s hs ih =>
      rw [versionRuns, if_neg hs]
      intro p hp c hc
      rcases List.mem_cons.mp hp with rfl | hp
      · have hmem : c ∈ s := List.takeWhile_subset _ hc
        have hd := List.mem_takeWhile_imp hc
        exact ⟨h c hmem, by simpa using hd⟩
      · have hsub : IsAscii (afterRuns s) := by
          intro d hd
          have hd' := (List.dropWhile_suffix _).subset hd
          exact h d ((List.dropWhile_suffix _).subset hd')
        exact ih hsub p hp c hc

/-- On ASCII strings the order of `verrevcmp` is the reference order. -/
theorem versionCompare_eq_debianCompare {a b : CStr} (ha : IsAscii a) (hb : IsAscii b) :
    versionCompare a b = debianCompare a b := by
  have hra := isAsciiNonDigit_of_mem_versionRuns ha
  have hrb := isAsciiNonDigit_of_mem_versionRuns hb
  have hno : IsAsciiNonDigit noRun.1 := fun c hc => absurd hc (by simp [noRun])
  have hpair : ∀ p q : CStr × Nat, IsAsciiNonDigit p.1 → IsAsciiNonDigit q.1 →
      runPairCompare p q = debianPairCompare p q := by
    intro p q hp hq
    rw [runPairCompare, debianPairCompare, runCompare_eq_debianRunCompare hp hq]
  have h := padCompare_map_congr id id (versionRuns a) (versionRuns b)
    (fun p hp q hq => hpair p q (hra p hp) (hrb q hq)) (fun p hp => hpair p noRun (hra p hp) hno)
    (fun q hq => hpair noRun q hno (hrb q hq))
  rwa [List.map_id, List.map_id] at h

/-- **`verrevcmp` is the Debian order** on ASCII strings: its sign is that of the reference
comparison, and it returns `0` exactly when the two splits agree run by run. -/
theorem verrevcmp_eq_debianCompare {a b : CStr} (ha : IsAscii a) (hb : IsAscii b) :
    cmpSign (verrevcmp (some a) (some b)) = debianCompare a b ∧
    (verrevcmp (some a) (some b) = 0 ↔
      ∀ i, (versionRuns a).getD i noRun = (versionRuns b).getD i noRun) := by
  have hsign : cmpSign (verrevcmp (some a) (some b)) = debianCompare a b := by
    rw [← versionCompare_eq_debianCompare ha hb]
    exact cmpSign_verrevcmpLoop a b
  refine ⟨hsign, ?_⟩
  rw [← cmpSign_eq_eq, hsign, debianCompare, padCompare_eq_eq_iff]

/-- A trailing `~` sorts before the end of the string and `01` is `1`. -/
theorem verrevcmp_eq_debianCompare_tilde :
    cmpSign (verrevcmp (some "1.0~".toList) (some "1.00".toList))
      = debianCompare "1.0~".toList "1.00".toList :=
  (verrevcmp_eq_debianCompare (by decide) (by decide)).1

end FirmwareTools.Opkg

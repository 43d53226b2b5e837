import FirmwareTools.Opkg.Install

/-! # Versions as text

`pkg_version_str_alloc` prints what `parse_version` has read, without an epoch that is zero and with
`%d` for one that is not.

* **`partsOf_epochStr`** — a text with an epoch is cut where it has been put together;
* **`versionKept_iff`** — when the text reads as the same version. -/

namespace FirmwareTools.Opkg

/-! ## Parts of a version -/

/-- What `parse_version` sets. -/
def Pkg.versionParts (pkg : Pkg) : ℕ × Option CStr × Option CStr := (pkg.epoch, pkg.version, pkg.revision)

/-- What is cut: the text without the field's name and the blanks in front. -/
def versionText (vstr : CStr) : CStr :=
  (if "Version:".toList.isPrefixOf vstr then vstr.drop 8 else vstr).dropWhile isspace

/-- The parts of a text. -/
def partsOf (text : CStr) : ℕ × Option CStr × Option CStr :=
  match strchr text ':' with
  | some colon => (strtoul text, some (splitRevision colon.tail).1, (splitRevision colon.tail).2)
  | none => (0, some (splitRevision text).1, (splitRevision text).2)

theorem versionParts_parseVersion (pkg : Pkg) (vstr : CStr) :
    (parseVersion pkg vstr).versionParts = partsOf (versionText vstr) := by
  simp only [parseVersion, Pkg.versionParts, partsOf, versionText]
  cases strchr _ ':' <;> rfl

/-- A text without a colon. -/
theorem partsOf_of_not_mem {text : CStr} (h : ':' ∉ text) :
    partsOf text = (0, some (splitRevision text).1, (splitRevision text).2) := by
  rw [partsOf, strchr, if_neg h]

/-- A text with a colon is cut at the first one. -/
theorem partsOf_append {a : CStr} (ha : ':' ∉ a) (rest : CStr) :
    partsOf (a ++ ':' :: rest) =
      (strtoul (a ++ ':' :: rest), some (splitRevision rest).1, (splitRevision rest).2) := by
  have hmem : ':' ∈ a ++ ':' :: rest := by simp
  have hdrop : (a ++ ':' :: rest).dropWhile (· != ':') = ':' :: rest := by
    rw [List.dropWhile_append_of_pos, List.dropWhile_cons_of_neg (by simp)]
    intro d hd
    simp only [bne_iff_ne, ne_eq]
    rintro rfl
    exact ha hd
  rw [partsOf, strchr, if_pos hmem, hdrop]
  rfl

/-- A version with its revision. -/
def joinRevision (version : CStr) (revision : Option CStr) : CStr :=
  version ++ match revision with
    | some revision => '-' :: revision
    | none => []

/-- The two parts are put together again. -/
theorem joinRevision_splitRevision (s : CStr) : joinRevision (splitRevision s).1 (splitRevision s).2 = s := by
  rw [splitRevision]
  split_ifs with hmem
  · have hne : s.rdropWhile (· != '-') ≠ [] := by
      rw [ne_eq, List.rdropWhile_eq_nil_iff]
      intro hall
      simpa using hall '-' hmem
    have hlast : (s.rdropWhile (· != '-')).getLast hne = '-' := by
      simpa using List.rdropWhile_last_not _ _ hne
    have hconcat := List.dropLast_append_getLast hne
    rw [hlast] at hconcat
    calc (s.rdropWhile (· != '-')).dropLast ++ '-' :: s.rtakeWhile (· != '-')
        = ((s.rdropWhile (· != '-')).dropLast ++ ['-']) ++ s.rtakeWhile (· != '-') := by simp
      _ = s.rdropWhile (· != '-') ++ s.rtakeWhile (· != '-') := by rw [hconcat]
      _ = s := List.rdropWhile_append_rtakeWhile
  · simp [joinRevision]

/-! ## The printed epoch -/

/-- `%d` for an epoch. -/
def epochStr (epoch : ℕ) : CStr :=
  if epoch % 2 ^ 32 < 2 ^ 31 then Nat.toDigits 10 (epoch % 2 ^ 32)
  else '-' :: Nat.toDigits 10 (2 ^ 32 - epoch % 2 ^ 32)

/-- The printed version of a package that has been read. -/
theorem pkgVersionStrAlloc_eq {pkg : Pkg} {rest : CStr} (hversion : pkg.version = some (splitRevision rest).1)
    (hrevision : pkg.revision = (splitRevision rest).2) :
    pkgVersionStrAlloc pkg = if pkg.epoch = 0 then rest else epochStr pkg.epoch ++ ':' :: rest := by
  have hjoin := joinRevision_splitRevision rest
  have hprinted : pkgVersionStrAlloc pkg = (if pkg.epoch = 0 then [] else epochStr pkg.epoch ++ [':']) ++
      joinRevision (pkg.version.getD []) pkg.revision := by
    rw [pkgVersionStrAlloc, List.append_assoc, joinRevision.eq_def]
    cases pkg.revision <;> rfl
  rw [hprinted, hversion, hrevision, Option.getD_some, hjoin]
  split_ifs <;> simp

theorem isdigit_of_mem_toDigits {n : ℕ} {c : Char} (hc : c ∈ Nat.toDigits 10 n) : isdigit c = true := by
  have h := Nat.isDigit_of_mem_toDigits (by decide) (by decide) hc
  rw [Char.isDigit, Bool.and_eq_true, decide_eq_true_eq, decide_eq_true_eq] at h
  rw [isdigit_iff]
  exact h

theorem digitsValue_toDigits (n : ℕ) : digitsValue (Nat.toDigits 10 n) = n :=
  Nat.ofDigitChars_toDigits (by decide) (by decide)

theorem takeWhile_isdigit_toDigits (n : ℕ) (rest : CStr) :
    (Nat.toDigits 10 n ++ ':' :: rest).takeWhile isdigit = Nat.toDigits 10 n := by
  rw [List.takeWhile_append_of_pos fun c hc => isdigit_of_mem_toDigits hc,
    List.takeWhile_cons_of_neg (by decide), List.append_nil]

theorem isspace_of_isdigit {c : Char} (h : isdigit c = true) : isspace c = false := by
  rw [isdigit_iff] at h
  rw [isspace, Bool.or_eq_false_iff, beq_eq_false_iff_ne, Bool.and_eq_false_iff]
  refine ⟨?_, Or.inr (decide_eq_false fun hle => ?_)⟩
  · rintro rfl
    revert h
    decide
  · have hcr : '\r'.toNat = 13 := rfl
    have hle : c.toNat ≤ '\r'.toNat := hle
    omega

/-- **What is read of a printed epoch.** -/
theorem strtoul_epochStr (epoch : ℕ) (rest : CStr) :
    strtoul (epochStr epoch ++ ':' :: rest) =
      if epoch % 2 ^ 32 < 2 ^ 31 then epoch % 2 ^ 32 else 2 ^ 64 - 2 ^ 32 + epoch % 2 ^ 32 := by
  have hmod : epoch % 2 ^ 32 < 2 ^ 32 := Nat.mod_lt _ (by decide)
  rw [epochStr]
  split_ifs with hpos
  · -- a digit comes first
    obtain ⟨d, ds, hds⟩ := List.exists_cons_of_ne_nil (@Nat.toDigits_ne_nil (epoch % 2 ^ 32) 10)
    have hd : isdigit d = true := isdigit_of_mem_toDigits (n := epoch % 2 ^ 32) (by rw [hds]; simp)
    have hspace : isspace d = false := isspace_of_isdigit hd
    have hminus : d ≠ '-' := by
      rintro rfl
      cases hd
    have hplus : d ≠ '+' := by
      rintro rfl
      cases hd
    have htake := takeWhile_isdigit_toDigits (epoch % 2 ^ 32) rest
    rw [hds] at htake
    have hvalue : digitsValue (d :: ds) = epoch % 2 ^ 32 := by rw [← hds, digitsValue_toDigits]
    rw [strtoul, hds, List.cons_append, List.dropWhile_cons_of_neg (by simp [hspace])]
    simp only [List.head?_cons, Option.some_beq_some, beq_eq_false_iff_ne.mpr hminus,
      beq_eq_false_iff_ne.mpr hplus, Bool.or_self, Bool.false_eq_true, if_false]
    rw [← List.cons_append, htake, hvalue, if_neg (by rw [ulongMax]; omega)]
  · have hspace : isspace '-' = false := by decide
    rw [strtoul, List.cons_append, List.dropWhile_cons_of_neg (by simp [hspace])]
    simp only [List.head?_cons, beq_self_eq_true, Bool.true_or, if_true, List.tail_cons]
    rw [takeWhile_isdigit_toDigits, digitsValue_toDigits, ulongMax, if_neg (by omega)]
    omega

/-! ## Texts that read as the same version -/

/-- What `pkg_version_str_alloc` prints for a version reads as that version, also behind the name of its
field in the status file. -/
def VersionKept (vstr : CStr) : Prop :=
  ∀ pkg pkg' : Pkg, (parseVersion pkg' (pkgVersionStrAlloc (parseVersion pkg vstr))).versionParts =
      (parseVersion pkg vstr).versionParts ∧
    (parseVersion pkg' ("Version: ".toList ++ pkgVersionStrAlloc (parseVersion pkg vstr))).versionParts =
      (parseVersion pkg vstr).versionParts

/-- **When a version is kept.** Where it has an epoch, that fits an `int` (or is read from a small negative
number), or it is zero and what is behind it has no other colon and does not begin with a blank. -/
def VersionOk (vstr : CStr) : Prop :=
  ∀ colon, strchr (versionText vstr) ':' = some colon →
    if strtoul (versionText vstr) = 0 then ':' ∉ colon.tail ∧ ∀ c ∈ colon.tail.head?, isspace c = false
    else strtoul (versionText vstr) < 2 ^ 31 ∨ 2 ^ 64 - 2 ^ 31 ≤ strtoul (versionText vstr)

section

variable {text : CStr}

theorem dropWhile_isspace_eq_self (hhead : ∀ c ∈ text.head?, isspace c = false) :
    text.dropWhile isspace = text := by
  cases text with
  | nil => rfl
  | cons c text => exact List.dropWhile_cons_of_neg (by simp [hhead c rfl])

theorem versionText_eq_self (hpre : ¬ "Version:".toList <+: text) (hhead : ∀ c ∈ text.head?, isspace c = false) :
    versionText text = text := by
  rw [versionText, if_neg (by rwa [List.isPrefixOf_iff_prefix]), dropWhile_isspace_eq_self hhead]

/-- The line of the status file. -/
theorem versionText_line (hhead : ∀ c ∈ text.head?, isspace c = false) :
    versionText ("Version: ".toList ++ text) = text := by
  have hline : "Version: ".toList ++ text = "Version:".toList ++ ' ' :: text := rfl
  have hspace : isspace ' ' = true := by decide
  rw [hline, versionText, if_pos (by rw [List.isPrefixOf_iff_prefix]; exact List.prefix_append _ _),
    show ("Version:".toList ++ ' ' :: text).drop 8 = ' ' :: text from rfl,
    List.dropWhile_cons_of_pos hspace, dropWhile_isspace_eq_self hhead]

theorem not_isPrefix_of_not_mem (h : ':' ∉ text) : ¬ "Version:".toList <+: text := by
  intro hpre
  apply h
  exact hpre.subset (by decide)

theorem head_versionText (vstr : CStr) : ∀ c ∈ (versionText vstr).head?, isspace c = false := by
  intro c hc
  have h := List.head?_dropWhile_not isspace (if "Version:".toList.isPrefixOf vstr then vstr.drop 8 else vstr)
  rw [versionText] at hc
  rw [hc] at h
  exact h

theorem length_versionText_le (vstr : CStr) : (versionText vstr).length ≤ vstr.length := by
  rw [versionText]
  refine (List.dropWhile_sublist _).length_le.trans ?_
  split_ifs
  · rw [List.length_drop]
    omega
  · exact le_rfl

theorem splitRevision_inj {s s' : CStr} (h : (some (splitRevision s).1, (splitRevision s).2) =
    (some (splitRevision s').1, (splitRevision s').2)) : s = s' := by
  obtain ⟨hversion, hrevision⟩ := Prod.mk.inj h
  rw [← joinRevision_splitRevision s, ← joinRevision_splitRevision s', Option.some.inj hversion, hrevision]

/-- A text without an epoch is cut as it is if and only if it has no colon and does not begin with a blank. -/
theorem partsOf_versionText_iff (rest : CStr) :
    partsOf (versionText rest) = (0, some (splitRevision rest).1, (splitRevision rest).2) ↔
      ':' ∉ rest ∧ ∀ c ∈ rest.head?, isspace c = false := by
  constructor
  · intro h
    by_cases hcolon : ':' ∈ versionText rest
    · -- what is behind the colon is shorter than the text
      obtain ⟨a, rest', hsplit, ha⟩ := List.eq_append_cons_of_mem hcolon
      rw [hsplit, partsOf_append ha] at h
      have heq := splitRevision_inj (Prod.mk.inj h).2
      have hle := length_versionText_le rest
      rw [hsplit, heq, List.length_append, List.length_cons] at hle
      omega
    · rw [partsOf_of_not_mem hcolon] at h
      have heq := splitRevision_inj (Prod.mk.inj h).2
      rw [heq] at hcolon
      have hhead := head_versionText rest
      rw [heq] at hhead
      exact ⟨hcolon, hhead⟩
  · rintro ⟨hcolon, hhead⟩
    rw [versionText_eq_self (not_isPrefix_of_not_mem hcolon) hhead, partsOf_of_not_mem hcolon]

theorem head_epochStr (epoch : ℕ) : ∃ c s, epochStr epoch = c :: s ∧ (isdigit c = true ∨ c = '-') := by
  rw [epochStr]
  split_ifs
  · obtain ⟨d, ds, hds⟩ := List.exists_cons_of_ne_nil (@Nat.toDigits_ne_nil (epoch % 2 ^ 32) 10)
    exact ⟨d, ds, hds, Or.inl (isdigit_of_mem_toDigits (n := epoch % 2 ^ 32) (by rw [hds]; simp))⟩
  · exact ⟨'-', _, rfl, Or.inr rfl⟩

theorem not_mem_epochStr (epoch : ℕ) : ':' ∉ epochStr epoch := by
  have hdigits : ∀ n : ℕ, ':' ∉ Nat.toDigits 10 n := fun n h => by
    cases isdigit_of_mem_toDigits h
  rw [epochStr]
  split_ifs
  · exact hdigits _
  · rw [List.mem_cons, not_or]
    exact ⟨by decide, hdigits _⟩

theorem strtoul_le (s : CStr) : strtoul s ≤ ulongMax := by
  have hmod : ∀ n, (ulongMax + 1 - n) % (ulongMax + 1) ≤ ulongMax := fun n =>
    Nat.le_of_lt_succ (Nat.mod_lt _ (Nat.succ_pos _))
  rw [strtoul]
  split_ifs
  all_goals first
    | exact le_rfl
    | exact hmod _
    | exact Nat.le_of_not_lt ‹_›

end

/-- **A version is kept** if and only if its epoch and its colons allow it. -/
theorem versionKept_iff (vstr : CStr) : VersionKept vstr ↔ VersionOk vstr := by
  rw [VersionKept, VersionOk]
  have hparts : ∀ pkg : Pkg, (parseVersion pkg vstr).versionParts = partsOf (versionText vstr) := fun pkg =>
    versionParts_parseVersion pkg vstr
  by_cases hcolon : ':' ∈ versionText vstr
  · obtain ⟨a, rest, hsplit, ha⟩ := List.eq_append_cons_of_mem hcolon
    have hcut := partsOf_append ha rest
    have hchr : strchr (versionText vstr) ':' = some (':' :: rest) := by
      have hdrop : (a ++ ':' :: rest).dropWhile (· != ':') = ':' :: rest := by
        rw [List.dropWhile_append_of_pos fun d hd => ?_, List.dropWhile_cons_of_neg (by simp)]
        simp only [bne_iff_ne, ne_eq]
        rintro rfl
        exact ha hd
      rw [strchr, if_pos hcolon, hsplit, hdrop]
    rw [← hsplit] at hcut
    have hle := strtoul_le (versionText vstr)
    simp only [hchr, Option.some.injEq, forall_eq', List.tail_cons, hparts, hcut, versionParts_parseVersion]
    -- what is printed
    have hprinted : ∀ pkg : Pkg, pkgVersionStrAlloc (parseVersion pkg vstr) =
        if strtoul (versionText vstr) = 0 then rest else epochStr (strtoul (versionText vstr)) ++ ':' :: rest := by
      intro pkg
      have h := hparts pkg
      rw [hcut] at h
      obtain ⟨hepoch, hrest⟩ := Prod.mk.inj h
      obtain ⟨hversion, hrevision⟩ := Prod.mk.inj hrest
      rw [pkgVersionStrAlloc_eq hversion hrevision, hepoch]
    simp only [hprinted]
    by_cases hzero : strtoul (versionText vstr) = 0
    · rw [if_pos hzero, if_pos hzero, hzero, ← partsOf_versionText_iff]
      constructor
      · intro h
        exact (h pkgNew pkgNew).1
      · intro h pkg pkg'
        obtain ⟨hcolon, hhead⟩ := (partsOf_versionText_iff rest).mp h
        exact ⟨h, by rw [versionText_line hhead, partsOf_of_not_mem hcolon]⟩
    · rw [if_neg hzero, if_neg hzero]
      obtain ⟨c, s, hepochStr, hc⟩ := head_epochStr (strtoul (versionText vstr))
      have hhead : ∀ d ∈ (epochStr (strtoul (versionText vstr)) ++ ':' :: rest).head?, isspace d = false := by
        intro d hd
        rw [hepochStr] at hd
        obtain rfl : c = d := Option.some.inj hd
        rcases hc with hc | rfl
        · exact isspace_of_isdigit hc
        · decide
      have hpre : ¬ "Version:".toList <+: epochStr (strtoul (versionText vstr)) ++ ':' :: rest := by
        intro hpre
        rw [hepochStr] at hpre
        obtain ⟨rfl, -⟩ := List.cons_prefix_cons.mp hpre
        rcases hc with hc | hc <;> cases hc
      rw [versionText_eq_self hpre hhead, versionText_line hhead, partsOf_append (not_mem_epochStr _),
        strtoul_epochStr]
      have hepoch : (if strtoul (versionText vstr) % 2 ^ 32 < 2 ^ 31 then strtoul (versionText vstr) % 2 ^ 32
            else 2 ^ 64 - 2 ^ 32 + strtoul (versionText vstr) % 2 ^ 32) = strtoul (versionText vstr) ↔
          strtoul (versionText vstr) < 2 ^ 31 ∨ 2 ^ 64 - 2 ^ 31 ≤ strtoul (versionText vstr) := by
        rw [ulongMax] at hle
        split_ifs <;> omega
      rw [← hepoch]
      constructor
      · intro h
        exact (Prod.mk.inj (h pkgNew pkgNew).1).1
      · intro h pkg pkg'
        rw [h]
        exact ⟨rfl, rfl⟩
  · -- without a colon the text is printed as it was
    have hnone : strchr (versionText vstr) ':' = none := if_neg hcolon
    rw [hnone]
    refine iff_of_true (fun pkg pkg' => ?_) (fun colon h => by cases h)
    have h := hparts pkg
    rw [partsOf_of_not_mem hcolon] at h
    obtain ⟨hepoch, hrest⟩ := Prod.mk.inj h
    obtain ⟨hversion, hrevision⟩ := Prod.mk.inj hrest
    rw [pkgVersionStrAlloc_eq hversion hrevision, if_pos hepoch, hparts, versionParts_parseVersion,
      versionParts_parseVersion, versionText_line (head_versionText vstr),
      versionText_eq_self (not_isPrefix_of_not_mem hcolon) (head_versionText vstr)]
    exact ⟨rfl, rfl⟩

/-- An epoch that is zero is not printed, so that the next colon is taken for its end. -/
theorem not_versionKept_zeroEpoch : ¬ VersionKept "0:1:2".toList := by
  intro h
  have hkept := (h pkgNew pkgNew).1
  revert hkept
  decide +kernel

end FirmwareTools.Opkg

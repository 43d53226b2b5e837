import FirmwareTools.Opkg.ReleaseDownload

/-! # Verification with any Release file

A Release file is read line by line, whatever is in it, and a file is verified with the checksums that have
been read. `cksum_init` takes three items of a line without a look at how many there are, and the lookups
for the size and the checksums are used without a look at what they give.

* **`isSome_releaseParseLine`** — the lines that are read without a missing item;
* **`readLoop_releaseParseLine`** — a Release file is read to its end or to the line that ends it;
* **`verifiesTotally_iff`** — when a file is parsed and a path is verified without a missing item or entry. -/

namespace FirmwareTools.Opkg

/-! ## One line -/

/-- The list that a line of a section is appended to. -/
def ReleaseState.sectionSums (s : ReleaseState) : Option (List Cksum) :=
  if s.readingMd5sums then s.release.md5sums else s.release.sha256sums

/-- **A line of a section** has three items, and the list of the section is there. -/
def SumLineOk (s : ReleaseState) (line : Line) : Prop :=
  line.text.head? = some ' ' → s.readingMd5sums = true ∨ s.readingSha256sums = true →
    s.sectionSums.isSome ∧ 3 ≤ (parseList line ' ' true).length

theorem isSome_cksumInit (items : List CStr) : (cksumInit items).isSome ↔ 3 ≤ items.length := by
  match items with
  | [] => simp [cksumInit]
  | [_] => simp [cksumInit]
  | [_, _] => simp [cksumInit]
  | _ :: _ :: _ :: _ => simp [cksumInit]

theorem isSome_cksumListAppend (list : Option (List Cksum)) (items : List CStr) :
    (cksumListAppend list items).isSome ↔ list.isSome ∧ 3 ≤ items.length := by
  rw [← isSome_cksumInit]
  cases list with
  | none => simp [cksumListAppend]
  | some list => cases h : cksumInit items <;> simp [cksumListAppend, h]

/-- **A line is read** without a missing item exactly when it is fine. -/
theorem isSome_releaseParseLine (s : ReleaseState) (line : Line) :
    (releaseParseLine (some s) line).1.isSome ↔ SumLineOk s line := by
  rw [releaseParseLine, SumLineOk, ReleaseState.sectionSums]
  dsimp only
  by_cases hblank : line.text.head? = some ' '
  · rw [hblank]
    cases hmd5 : s.readingMd5sums with
    | true => simp [isSome_cksumListAppend]
    | false =>
        cases hsha256 : s.readingSha256sums with
        | true => simp [isSome_cksumListAppend]
        | false => simp
  · refine iff_of_true ?_ fun h => absurd h hblank
    split
    · split <;> rfl
    · split
      · rfl
      · split <;> rfl
    · split <;> rfl
    · split <;> rfl
    · split <;> rfl
    · next h => exact absurd h hblank
    · rfl

/-! ## A Release file -/

/-- Every line that is read is fine in the state it is read in, and what has been read at the end has the path
in each of its lists. -/
def ReleaseOk (pathname : CStr) : ReleaseState → List Line → Prop
  | s, [] => s.release.Knows pathname
  | s, line :: lines =>
    SumLineOk s line ∧ ∀ s' ret, releaseParseLine (some s) line = (some s', ret) →
      if ret then s'.release.Knows pathname else ReleaseOk pathname s' lines

/-- The path is in one of the lists. -/
def Release.Lists (release : Release) (pathname : CStr) : Prop :=
  ∃ list, (release.md5sums = some list ∨ release.sha256sums = some list) ∧
    (cksumListFind list pathname).isSome

/-- `release_new`, with the static flags that the Release file before it has left. -/
def releaseStart (readingMd5sums readingSha256sums : Bool) : ReleaseState :=
  { release := {}, readingMd5sums, readingSha256sums }

/-- **Verification is total**: the file is parsed, however much fuel the loop is given beyond the length of the
text; the path is verified; and if it is not listed the verification fails. -/
def VerifiesTotally (digest : Digest) (behind : CStr) (start : ReleaseState) (text : CStr) (file : Option CStr)
    (pathname : CStr) : Prop :=
  ∃ s ret fp, (∀ fuel, text.length < fuel →
      readLoop releaseParseLine behind fuel [] callerBuf callerBuf (some start) ⟨text, false⟩ =
        (some s, ret, fp)) ∧
    ∃ ok, verifyFile digest s.release file pathname = some ok ∧ (¬ s.release.Lists pathname → ok = false)

section

variable {digest : Digest} {pathname : CStr}

/-- A path that is nowhere listed is verified against the size `-1` if there are no lists. -/
theorem verifyFile_of_not_lists {release : Release} (hknows : release.Knows pathname)
    (hlists : ¬ release.Lists pathname) {file : Option CStr} {ok : Bool}
    (h : verifyFile digest release file pathname = some ok) : ok = false := by
  have hnone : ∀ list, ¬ (release.md5sums = some list ∨ release.sha256sums = some list) := fun list hlist =>
    hlists ⟨list, hlist, hknows list hlist⟩
  have hmd5 : release.md5sums = none := Option.eq_none_iff_forall_ne_some.mpr fun list h => hnone list (Or.inl h)
  have hsha256 : release.sha256sums = none :=
    Option.eq_none_iff_forall_ne_some.mpr fun list h => hnone list (Or.inr h)
  obtain ⟨ok', hok', hiff⟩ := @verifyFile_eq digest release pathname hknows file
  obtain rfl : ok' = ok := Option.some.inj (hok'.symm.trans h)
  rw [Bool.eq_false_iff]
  intro htrue
  obtain ⟨content, -, hrecorded⟩ := hiff.mp htrue
  have hsize := hrecorded.size
  rw [Release.getSize, hmd5, hsha256] at hsize
  have hlt : (-1 : Int) = content.length := Option.some.inj hsize
  omega

/-- **A path is verified** without a missing entry exactly when each list has it. -/
theorem exists_verifyFile_iff (digest : Digest) (release : Release) (file : Option CStr) :
    (∃ ok, verifyFile digest release file pathname = some ok ∧ (¬ release.Lists pathname → ok = false)) ↔
      release.Knows pathname := by
  by_cases hknows : release.Knows pathname
  · obtain ⟨ok, hok, -⟩ := @verifyFile_eq digest release pathname hknows file
    exact iff_of_true ⟨ok, hok, fun hlists => verifyFile_of_not_lists hknows hlists hok⟩ hknows
  · refine iff_of_false ?_ hknows
    rintro ⟨ok, hok, -⟩
    rw [verifyFile_eq_none hknows file] at hok
    cases hok

/-- The lines of a Release file, one after the other. -/
theorem exists_runLines_iff (digest : Digest) (lines : List Line) (file : Option CStr) : ∀ s : ReleaseState,
    (∃ s', runLines releaseParseLine lines (some s) = some s' ∧
      ∃ ok, verifyFile digest s'.release file pathname = some ok ∧ (¬ s'.release.Lists pathname → ok = false)) ↔
      ReleaseOk pathname s lines := by
  induction lines with
  | nil =>
      intro s
      rw [ReleaseOk, ← exists_verifyFile_iff digest s.release file]
      simp [runLines]
  | cons line lines ih =>
      intro s
      rw [ReleaseOk, ← isSome_releaseParseLine, runLines]
      cases hline : releaseParseLine (some s) line with
      | mk s' ret =>
          cases s' with
          | none =>
              refine iff_of_false ?_ fun h => by cases h.1
              rintro ⟨s'', hs'', -⟩
              cases ret with
              | true => cases hs''
              | false =>
                  have hnone : runLines releaseParseLine lines none = some s'' := hs''
                  rw [runLines_none] at hnone
                  cases hnone
          | some s' =>
              have hnext : (∀ s'' ret', ((some s', ret) : Option ReleaseState × Bool) = (some s'', ret') →
                  if ret' then s''.release.Knows pathname else ReleaseOk pathname s'' lines) ↔
                  if ret then s'.release.Knows pathname else ReleaseOk pathname s' lines := by
                constructor
                · exact fun h => h s' ret rfl
                · rintro h s'' ret' ⟨⟩
                  exact h
              rw [hnext, Option.isSome_some, eq_self, true_and]
              cases ret with
              | true =>
                  simp only [if_true, Option.some.injEq, exists_eq_left']
                  exact exists_verifyFile_iff digest s'.release file
              | false => exact ih s'

/-- The parser comes to the same end with more fuel. -/
theorem readLoop_releaseParseLine (behind text : CStr) (s : ReleaseState) {fuel : ℕ} (hfuel : text.length < fuel) :
    readLoop releaseParseLine behind fuel [] callerBuf callerBuf (some s) ⟨text, false⟩ =
      releaseParseFromStream behind s ⟨text, false⟩ :=
  readLoop_fuel (by decide) (by decide) hfuel (by dsimp only; omega)

/-- **Release verification is total** exactly when each line of a section has three items, and each list that
is read has the path. -/
theorem verifiesTotally_iff (digest : Digest) (behind : CStr) (readingMd5sums readingSha256sums : Bool)
    (text : CStr) (file : Option CStr) (pathname : CStr) :
    VerifiesTotally digest behind (releaseStart readingMd5sums readingSha256sums) text file pathname ↔
      ReleaseOk pathname (releaseStart readingMd5sums readingSha256sums)
        (linesPassed behind callerBuf ⟨text, false⟩) := by
  rw [← exists_runLines_iff digest _ file, ← parseFromStreamNomalloc_fst, VerifiesTotally]
  constructor
  · rintro ⟨s, ret, fp, hread, hverify⟩
    have hparse := hread (text.length + 1) (Nat.lt_succ_self _)
    rw [readLoop_releaseParseLine behind text _ (Nat.lt_succ_self _), releaseParseFromStream] at hparse
    exact ⟨s, by rw [hparse], hverify⟩
  · rintro ⟨s, hs, hverify⟩
    generalize releaseStart readingMd5sums readingSha256sums = start at hs ⊢
    refine ⟨s, (releaseParseFromStream behind start ⟨text, false⟩).2.1,
      (releaseParseFromStream behind start ⟨text, false⟩).2.2, fun fuel hfuel => ?_, hverify⟩
    rw [readLoop_releaseParseLine behind text start hfuel, ← hs]
    rfl

/-- A line with two items, and a path that is not listed: a missing item is read, and a missing entry. -/
theorem not_verifiesTotally_missing :
    ¬ VerifiesTotally ⟨id, id⟩ [] (releaseStart false false) "MD5sum:\n 0 1\n".toList none
        "main/binary-all/Packages".toList ∧
      ¬ VerifiesTotally ⟨id, id⟩ [] (releaseStart false false) "MD5sum:\n 0 1 b\n".toList none
        "main/binary-all/Packages".toList := by
  have hnone : ∀ text : CStr,
      ((readLoop releaseParseLine [] (text.length + 1) [] callerBuf callerBuf (some (releaseStart false false))
        ⟨text, false⟩).1.bind fun s => verifyFile ⟨id, id⟩ s.release none "main/binary-all/Packages".toList).isSome = false →
      ¬ VerifiesTotally ⟨id, id⟩ [] (releaseStart false false) text none "main/binary-all/Packages".toList := by
    rintro text h ⟨s, ret, fp, hread, ok, hok, -⟩
    rw [hread _ (Nat.lt_succ_self _), Option.bind_some, hok] at h
    cases h
  exact ⟨hnone _ (by decide +kernel), hnone _ (by decide +kernel)⟩

end

end FirmwareTools.Opkg

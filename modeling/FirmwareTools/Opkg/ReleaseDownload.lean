import FirmwareTools.Opkg.Package
import FirmwareTools.Opkg.ReleaseParse

/-! # Downloading a distribution

`release_download` fetches a list of packages for each component of a distribution and each architecture.
For a compressed distribution it downloads `Packages.gz` to a temporary file, verifies and inflates it;
where that fails it downloads `Packages`, and verifies the temporary file once more.

* **`verifyFile_eq`** — what `release_verify_file` checks;
* **`attempted_downloadArch`** — what one round of the loops can do;
* **`downloadComplete_iff`** — when a download that succeeds is complete and verified;
* **`not_downloadComplete_plain`** — a distribution that is not compressed is not downloaded at all. -/

namespace FirmwareTools.Opkg

/-! ## Checksums -/

/-- The checksums of a file: `file_md5sum_alloc` and `file_sha256sum_alloc`. -/
structure Digest where
  md5 : CStr → CStr
  sha256 : CStr → CStr

/-- `cksum_list_find` -/
def cksumListFind (list : List Cksum) (name : CStr) : Option Cksum := list.find? fun c => c.name = name

/-- `release_get_size`; `none` where the list has no such file, which is not tested for. -/
def Release.getSize (release : Release) (pathname : CStr) : Option Int :=
  match release.md5sums, release.sha256sums with
  | some list, _ => (cksumListFind list pathname).map Cksum.size
  | none, some list => (cksumListFind list pathname).map Cksum.size
  | none, none => some (-1)

/-- `release_get_md5` and `release_get_sha256`: the checksum, if there is a list of that kind. -/
def getCksum (sums : Option (List Cksum)) (pathname : CStr) : Option (Option CStr) :=
  match sums with
  | some list => (cksumListFind list pathname).map fun c => some c.value
  | none => some none

/-- `release_verify_file`, which succeeds with `true`; `file` is what can be read at the file's name. -/
def verifyFile (digest : Digest) (release : Release) (file : Option CStr) (pathname : CStr) : Option Bool := do
  let md5 ← getCksum release.md5sums pathname
  let sha256 ← getCksum release.sha256sums pathname
  match file with
  | none => some false
  | some content =>
    let size ← release.getSize pathname
    if size ≠ content.length then some false
    else some (md5.all (· == digest.md5 content) && sha256.all (· == digest.sha256 content))

/-- Each list of checksums has the file. -/
def Release.Knows (release : Release) (pathname : CStr) : Prop :=
  ∀ list, release.md5sums = some list ∨ release.sha256sums = some list →
    (cksumListFind list pathname).isSome

/-- The size and the checksums that the Release file records for a file. -/
@[mk_iff] structure Recorded (digest : Digest) (release : Release) (content pathname : CStr) : Prop where
  size : release.getSize pathname = some (content.length : Int)
  md5 : ∀ list, release.md5sums = some list →
    (cksumListFind list pathname).map Cksum.value = some (digest.md5 content)
  sha256 : ∀ list, release.sha256sums = some list →
    (cksumListFind list pathname).map Cksum.value = some (digest.sha256 content)

section

variable {digest : Digest} {release : Release}

/-- A `NULL` is followed where a list does not have the file. -/
theorem verifyFile_eq_none {pathname : CStr} (h : ¬ release.Knows pathname) (file : Option CStr) :
    verifyFile digest release file pathname = none := by
  have hmissing : ∃ list, (release.md5sums = some list ∨ release.sha256sums = some list) ∧
      cksumListFind list pathname = none := by
    simp only [Release.Knows, not_forall, Option.not_isSome_iff_eq_none] at h
    obtain ⟨list, hlist, hnone⟩ := h
    exact ⟨list, hlist, hnone⟩
  obtain ⟨list, hlist | hlist, hnone⟩ := hmissing
  · simp [verifyFile, getCksum, hlist, hnone]
  · cases getCksum release.md5sums pathname <;> simp [verifyFile, getCksum, hlist, hnone]

/-- **What is verified** are the size and the checksums that are recorded. -/
theorem verifyFile_eq {pathname : CStr} (h : release.Knows pathname) (file : Option CStr) :
    ∃ ok, verifyFile digest release file pathname = some ok ∧
      (ok = true ↔ ∃ content, file = some content ∧ Recorded digest release content pathname) := by
  have hfind : ∀ list, release.md5sums = some list ∨ release.sha256sums = some list →
      ∃ c, cksumListFind list pathname = some c := fun list hlist => Option.isSome_iff_exists.mp (h list hlist)
  rcases release with ⟨name, datestring, architectures, components, md5sums, sha256sums, complist⟩
  -- the sums of the lists that are there
  cases md5sums with
  | none =>
      cases sha256sums with
      | none => cases file <;> simp [verifyFile, getCksum, Release.getSize, recorded_iff]
      | some list =>
          obtain ⟨c, hc⟩ := hfind list (Or.inr rfl)
          cases file with
          | none => simp [verifyFile, getCksum, Release.getSize, recorded_iff, hc]
          | some content =>
              by_cases hsize : c.size = content.length <;> simp [verifyFile, getCksum, Release.getSize, recorded_iff, hc, hsize]
  | some list =>
      obtain ⟨c, hc⟩ := hfind list (Or.inl rfl)
      cases sha256sums with
      | none =>
          cases file with
          | none => simp [verifyFile, getCksum, Release.getSize, recorded_iff, hc]
          | some content =>
              by_cases hsize : c.size = content.length <;> simp [verifyFile, getCksum, Release.getSize, recorded_iff, hc, hsize]
      | some list' =>
          obtain ⟨c', hc'⟩ := hfind list' (Or.inr rfl)
          cases file with
          | none => simp [verifyFile, getCksum, Release.getSize, recorded_iff, hc, hc']
          | some content =>
              by_cases hsize : c.size = content.length <;> simp [verifyFile, getCksum, Release.getSize, recorded_iff, hc, hc', hsize]

end

/-! ## The download -/

/-- What `opkg_download` does: the file arrives; or it fails, and may leave a part of it. -/
inductive Download
  | arrives (content : CStr)
  | fails (part : Option CStr)
  deriving DecidableEq, Repr

/-- What becomes of a compressed file that has arrived: `unzip` may find it corrupt when it has written a
part, and the list file may not be opened. -/
inductive Inflation
  | inflated
  | corrupt (part : CStr)
  | notOpened
  deriving DecidableEq, Repr

/-- The outcomes of the operations for a component and an architecture. -/
structure Outcome where
  compressed : Download
  inflation : Inflation
  plain : Download
  deriving DecidableEq, Repr

/-- Where a list file comes from. A file that was there before the download is an earlier one, and one
whose verification fails is marked before it is removed. -/
inductive Origin
  | earlier
  | part
  | plain
  | inflated (compressed : CStr)
  | rejected
  deriving DecidableEq, Repr

/-- A list file, with its origin. -/
structure ListFile where
  content : CStr
  origin : Origin
  deriving DecidableEq, Repr

/-- The files of `lists_dir` and of the temporary directory, by their names there. -/
structure DistFiles where
  lists : CStr → Option ListFile
  tmp : CStr → Option CStr

/-- A file is written. -/
def DistFiles.setList (w : DistFiles) (name : CStr) (file : Option ListFile) : DistFiles :=
  { w with lists := Function.update w.lists name file }

def DistFiles.setTmp (w : DistFiles) (name : CStr) (file : Option CStr) : DistFiles :=
  { w with tmp := Function.update w.tmp name file }

/-- `unlink` of a list file whose verification has failed. -/
def DistFiles.reject (w : DistFiles) (name : CStr) : DistFiles :=
  (w.setList name ((w.lists name).map fun f => { f with origin := .rejected })).setList name none

/-- `release_comps` -/
def Release.comps (release : Release) : List CStr :=
  if release.complist = [] then release.components else release.complist

/-- The list file of a component and an architecture, without `lists_dir`. -/
def distListFile (dist : PkgSrc) (comp arch : CStr) : CStr :=
  dist.name ++ '-' :: comp ++ '-' :: arch

/-- The temporary file, without `tmpdir`. -/
def distTmpFile (dist : PkgSrc) (comp arch : CStr) : CStr := distListFile dist comp arch ++ ".gz".toList

/-- The name of a list in the Release file. -/
def subpath (comp arch : CStr) (gzip : Bool) : CStr :=
  comp ++ "/binary-".toList ++ arch ++ (if gzip then "/Packages.gz" else "/Packages").toList

section

variable (digest : Digest) (gunzip : CStr → CStr) (release : Release) (dist : PkgSrc)

/-- The compressed list: it is downloaded, verified and inflated. -/
def fetchCompressed (comp arch : CStr) (o : Outcome) (w : DistFiles) : Option (Bool × DistFiles) :=
  let tmpFile := distTmpFile dist comp arch
  let listFile := distListFile dist comp arch
  match o.compressed with
  | .fails none => some (true, w)
  | .fails (some part) => some (true, w.setTmp tmpFile (some part))
  | .arrives content =>
    let w := w.setTmp tmpFile (some content)
    match verifyFile digest release (w.tmp tmpFile) (subpath comp arch dist.gzip) with
    | none => none
    | some false => some (true, (w.setTmp tmpFile none).reject listFile)
    | some true =>
      match o.inflation with
      | .inflated =>
        some (false, (w.setList listFile (some ⟨gunzip content, .inflated content⟩)).setTmp tmpFile none)
      | .corrupt part => some (true, (w.setList listFile (some ⟨part, .part⟩)).setTmp tmpFile none)
      | .notOpened => some (true, w.setTmp tmpFile none)

/-- The plain list, behind an error. The file that is verified is the temporary one. -/
def fetchPlain (comp arch : CStr) (o : Outcome) (w : DistFiles) : Option (Bool × DistFiles) :=
  let tmpFile := distTmpFile dist comp arch
  let listFile := distListFile dist comp arch
  match o.plain with
  | .fails none => some (true, w)
  | .fails (some part) => some (true, w.setList listFile (some ⟨part, .part⟩))
  | .arrives content =>
    let w := w.setList listFile (some ⟨content, .plain⟩)
    match verifyFile digest release (w.tmp tmpFile) (subpath comp arch dist.gzip) with
    | none => none
    | some true => some (false, w)
    | some false => some (true, w.reject listFile)

/-- One round of the inner loop of `release_download`, with the variable `err`. -/
def downloadArch (comp arch : CStr) (o : Outcome) (err : Bool) (w : DistFiles) : Option (Bool × DistFiles) := do
  let (err, w) ← if dist.gzip then fetchCompressed digest gunzip release dist comp arch o w else some (err, w)
  if err then fetchPlain digest release dist comp arch o w else some (err, w)

/-- The inner loop: the architectures of a component. -/
def downloadArchs (comp : CStr) : List (CStr × Outcome) → Bool → DistFiles → Option (Bool × DistFiles)
  | [], err, w => some (err, w)
  | (arch, o) :: archs, err, w =>
    (downloadArch digest gunzip release dist comp arch o err w).bind fun (err, w) =>
      downloadArchs comp archs err w

/-- The outer loop: the components. -/
def downloadComps : List (CStr × List (CStr × Outcome)) → Bool → DistFiles → Option (Bool × DistFiles)
  | [], ret, w => some (ret, w)
  | (comp, archs) :: comps, ret, w =>
    (downloadArchs digest gunzip release dist comp archs false w).bind fun (err, w) =>
      downloadComps comps (ret || err) w

end

/-- The components with their architectures, and what happens to each. -/
def distRounds (release : Release) (archs : List CStr) (outcome : ℕ → ℕ → Outcome) :
    List (CStr × List (CStr × Outcome)) :=
  release.comps.zipIdx.map fun (comp, i) => (comp, archs.zipIdx.map fun (arch, j) => (arch, outcome i j))

/-- `release_download`: whether it returns `1`, and the files. There is none where a `NULL` is followed. -/
def releaseDownload (digest : Digest) (gunzip : CStr → CStr) (release : Release) (dist : PkgSrc)
    (archs : List CStr) (outcome : ℕ → ℕ → Outcome) (w : DistFiles) : Option (Bool × DistFiles) :=
  downloadComps digest gunzip release dist (distRounds release archs outcome) false w

/-! ## One round -/

/-- What happens to a component and an architecture, with what is in the temporary file before it. -/
structure Attempt where
  comp : CStr
  arch : CStr
  outcome : Outcome
  tmp : Option CStr
  deriving DecidableEq, Repr

section

variable (digest : Digest) (gunzip : CStr → CStr) (release : Release) (dist : PkgSrc) (a : Attempt)

/-- The temporary file behind the attempt: what a download that fails has left. -/
def Attempt.tmpAfter : Option CStr :=
  match a.outcome.compressed with
  | .arrives _ => none
  | .fails part => part.or a.tmp

/-- The compressed list arrives, with the checksums that are recorded for it, and is inflated. -/
def Attempt.Fetched (gz : CStr) : Prop :=
  a.outcome.compressed = .arrives gz ∧ Recorded digest release gz (subpath a.comp a.arch true) ∧
    a.outcome.inflation = .inflated

/-- The download of the compressed list fails, but the temporary file has the checksums that are recorded
for it; the plain list is taken over. -/
def Attempt.Slipped (content : CStr) : Prop :=
  ∃ part gz, a.outcome.compressed = .fails part ∧ part.or a.tmp = some gz ∧
    Recorded digest release gz (subpath a.comp a.arch true) ∧ a.outcome.plain = .arrives content

/-- The attempt ends without an error. -/
def Attempt.Succeeds : Prop := (∃ gz, a.Fetched digest release gz) ∨ ∃ content, a.Slipped digest release content

/-- The attempt fails, and the list file stays as it is. -/
def Attempt.Untouched : Prop :=
  a.outcome.plain = .fails none ∧ ((∃ part, a.outcome.compressed = .fails part) ∨
    ∃ gz, a.outcome.compressed = .arrives gz ∧ Recorded digest release gz (subpath a.comp a.arch true) ∧
      a.outcome.inflation = .notOpened)

/-- A file is verified that is in no list of checksums. -/
def Attempt.Crashes : Prop :=
  ¬ release.Knows (subpath a.comp a.arch true) ∧
    ((∃ gz, a.outcome.compressed = .arrives gz) ∨ ∃ content, a.outcome.plain = .arrives content)

/-- **What an attempt does** to the files. -/
structure Attempted (w w' : DistFiles) (err : Bool) : Prop where
  err_iff : err = false ↔ a.Succeeds digest release
  tmp : w'.tmp = Function.update w.tmp (distTmpFile dist a.comp a.arch) a.tmpAfter
  other : ∀ name ≠ distListFile dist a.comp a.arch, w'.lists name = w.lists name
  fetched : ∀ gz, a.Fetched digest release gz →
    w'.lists (distListFile dist a.comp a.arch) = some ⟨gunzip gz, .inflated gz⟩
  slipped : ∀ content, a.Slipped digest release content →
    w'.lists (distListFile dist a.comp a.arch) = some ⟨content, .plain⟩
  untouched : a.Untouched digest release →
    w'.lists (distListFile dist a.comp a.arch) = w.lists (distListFile dist a.comp a.arch)
  failed : ¬ a.Succeeds digest release → ¬ a.Untouched digest release →
    ∀ f, w'.lists (distListFile dist a.comp a.arch) = some f → f.origin = .part

end

section

variable {digest : Digest} {gunzip : CStr → CStr} {release : Release} {dist : PkgSrc} {a : Attempt}
  {w w₁ : DistFiles} {err : Bool}

@[simp] theorem setTmp_tmp (name : CStr) (file : Option CStr) :
    (w.setTmp name file).tmp = Function.update w.tmp name file := rfl

@[simp] theorem setTmp_lists (name : CStr) (file : Option CStr) : (w.setTmp name file).lists = w.lists := rfl

@[simp] theorem setList_tmp (name : CStr) (file : Option ListFile) : (w.setList name file).tmp = w.tmp := rfl

@[simp] theorem setList_lists (name : CStr) (file : Option ListFile) :
    (w.setList name file).lists = Function.update w.lists name file := rfl

@[simp] theorem reject_tmp (name : CStr) : (w.reject name).tmp = w.tmp := rfl

@[simp] theorem reject_lists (name : CStr) : (w.reject name).lists = Function.update w.lists name none := by
  simp [DistFiles.reject]

variable (digest release dist a) in
/-- What the plain list does, where the temporary file has what is verified. -/
structure PlainFetched (w₁ w' : DistFiles) (err : Bool) : Prop where
  err_iff : err = false ↔ ∃ content gz, a.outcome.plain = .arrives content ∧
    w₁.tmp (distTmpFile dist a.comp a.arch) = some gz ∧
      Recorded digest release gz (subpath a.comp a.arch true)
  tmp : w'.tmp = w₁.tmp
  other : ∀ name ≠ distListFile dist a.comp a.arch, w'.lists name = w₁.lists name
  arrived : ∀ content, a.outcome.plain = .arrives content → err = false →
    w'.lists (distListFile dist a.comp a.arch) = some ⟨content, .plain⟩
  untouched : a.outcome.plain = .fails none → w'.lists = w₁.lists
  failed : a.outcome.plain ≠ .fails none → err = true →
    ∀ f, w'.lists (distListFile dist a.comp a.arch) = some f → f.origin = .part

theorem fetchPlain_spec (hgzip : dist.gzip = true) (w₁ : DistFiles) :
    (¬ release.Knows (subpath a.comp a.arch true) ∧ ∃ content, a.outcome.plain = .arrives content) ∧
        fetchPlain digest release dist a.comp a.arch a.outcome w₁ = none ∨
      ¬ (¬ release.Knows (subpath a.comp a.arch true) ∧ ∃ content, a.outcome.plain = .arrives content) ∧
        ∃ err w', fetchPlain digest release dist a.comp a.arch a.outcome w₁ = some (err, w') ∧
          PlainFetched digest release dist a w₁ w' err := by
  rw [fetchPlain, hgzip]
  cases hplain : a.outcome.plain with
  | fails part =>
      refine Or.inr ⟨by simp, ?_⟩
      cases part with
      | none =>
          refine ⟨true, w₁, rfl, by simp [hplain], rfl, fun _ _ => rfl, by simp, fun _ => rfl, fun h => ?_⟩
          exact absurd hplain h
      | some part =>
          refine ⟨true, _, rfl, by simp [hplain], rfl, fun name hname => by simp [hname], by simp,
            fun h => by simp [hplain] at h, fun _ _ f hf => ?_⟩
          simp only [setList_lists, Function.update_self, Option.some.injEq] at hf
          rw [← hf]
  | arrives content =>
      by_cases hknows : release.Knows (subpath a.comp a.arch true)
      · refine Or.inr ⟨by simp [hknows], ?_⟩
        obtain ⟨ok, hverify, hok⟩ := @verifyFile_eq digest release _ hknows (w₁.tmp (distTmpFile dist a.comp a.arch))
        dsimp only [setList_tmp]
        rw [hverify]
        cases ok with
        | true =>
            obtain ⟨gz, hgz, hrecorded⟩ := hok.mp rfl
            refine ⟨false, _, rfl, ?_, rfl, fun name hname => by simp [hname], fun c hc _ => ?_,
              fun h => by simp [hplain] at h, by simp⟩
            · simp [hplain, hgz, hrecorded]
            · obtain rfl : content = c := by simpa [hplain] using hc
              simp
        | false =>
            refine ⟨true, _, rfl, ?_, rfl, fun name hname => by simp [hname], by simp,
              fun h => by simp [hplain] at h, by simp⟩
            simp only [Bool.true_eq_false, false_iff]
            rintro ⟨c, gz, -, hgz, hrecorded⟩
            cases hok.mpr ⟨gz, hgz, hrecorded⟩
      · refine Or.inl ⟨⟨hknows, content, rfl⟩, ?_⟩
        dsimp only [setList_tmp]
        rw [verifyFile_eq_none hknows]

/-- Behind a compressed list that could not be used, the plain list decides. `t` is what is left in the
temporary file. -/
theorem attempted_of_plain {w' : DistFiles} (hplain : PlainFetched digest release dist a w₁ w' err)
    (htmp : w₁.tmp = Function.update w.tmp (distTmpFile dist a.comp a.arch) a.tmpAfter)
    (hother : ∀ name ≠ distListFile dist a.comp a.arch, w₁.lists name = w.lists name)
    (hfetched : ∀ gz, ¬ a.Fetched digest release gz)
    (hslipped : ∀ content, a.Slipped digest release content ↔ a.outcome.plain = .arrives content ∧
      ∃ gz, a.tmpAfter = some gz ∧ Recorded digest release gz (subpath a.comp a.arch true))
    (huntouched : a.Untouched digest release →
      w₁.lists (distListFile dist a.comp a.arch) = w.lists (distListFile dist a.comp a.arch))
    (hfailed : a.outcome.plain = .fails none → ¬ a.Untouched digest release →
      ∀ f, w₁.lists (distListFile dist a.comp a.arch) = some f → f.origin = .part) :
    Attempted digest gunzip release dist a w w' err := by
  have herr : err = false ↔ a.Succeeds digest release := by
    rw [hplain.err_iff, Attempt.Succeeds, htmp, Function.update_self]
    constructor
    · rintro ⟨content, gz, hcontent, hgz, hrecorded⟩
      exact Or.inr ⟨content, (hslipped content).mpr ⟨hcontent, gz, hgz, hrecorded⟩⟩
    · rintro (⟨gz, hgz⟩ | ⟨content, hcontent⟩)
      · exact absurd hgz (hfetched gz)
      · obtain ⟨hcontent, gz, hgz, hrecorded⟩ := (hslipped content).mp hcontent
        exact ⟨content, gz, hcontent, hgz, hrecorded⟩
  refine ⟨herr, hplain.tmp.trans htmp, fun name hname => (hplain.other name hname).trans (hother name hname),
    fun gz hgz => absurd hgz (hfetched gz), fun content hcontent => ?_, fun h => ?_, fun hsucceeds huntouched => ?_⟩
  · exact hplain.arrived content ((hslipped content).mp hcontent).1 (herr.mpr (Or.inr ⟨content, hcontent⟩))
  · rw [hplain.untouched h.1, huntouched h]
  · have htrue : err = true := by
      rw [← Bool.not_eq_false, herr]
      exact hsucceeds
    by_cases hnone : a.outcome.plain = .fails none
    · rw [hplain.untouched hnone]
      exact hfailed hnone huntouched
    · exact hplain.failed hnone htrue

/-- What becomes of a compressed list that arrives. -/
theorem fetchCompressed_arrives (hgzip : dist.gzip = true) {gz : CStr}
    (hcompressed : a.outcome.compressed = .arrives gz) {ok : Bool}
    (hverify : verifyFile digest release (some gz) (subpath a.comp a.arch true) = some ok) :
    fetchCompressed digest gunzip release dist a.comp a.arch a.outcome w =
      let w₁ := w.setTmp (distTmpFile dist a.comp a.arch) (some gz)
      match ok, a.outcome.inflation with
      | false, _ => some (true, (w₁.setTmp (distTmpFile dist a.comp a.arch) none).reject
          (distListFile dist a.comp a.arch))
      | true, .inflated => some (false, (w₁.setList (distListFile dist a.comp a.arch)
          (some ⟨gunzip gz, .inflated gz⟩)).setTmp (distTmpFile dist a.comp a.arch) none)
      | true, .corrupt part => some (true, (w₁.setList (distListFile dist a.comp a.arch)
          (some ⟨part, .part⟩)).setTmp (distTmpFile dist a.comp a.arch) none)
      | true, .notOpened => some (true, w₁.setTmp (distTmpFile dist a.comp a.arch) none) := by
  unfold fetchCompressed
  simp only [hcompressed, setTmp_tmp, Function.update_self, hgzip, hverify]
  cases ok
  · rfl
  · cases a.outcome.inflation <;> rfl

/-- **One round of the loops.** -/
theorem attempted_downloadArch (hgzip : dist.gzip = true)
    (htmp : a.tmp = w.tmp (distTmpFile dist a.comp a.arch)) :
    a.Crashes release ∧ downloadArch digest gunzip release dist a.comp a.arch a.outcome err w = none ∨
      ¬ a.Crashes release ∧ ∃ err' w',
        downloadArch digest gunzip release dist a.comp a.arch a.outcome err w = some (err', w') ∧
          Attempted digest gunzip release dist a w w' err' := by
  rw [downloadArch, if_pos hgzip]
  cases hcompressed : a.outcome.compressed with
  | fails part =>
      -- the temporary file holds what has been left in it
      obtain ⟨w₁, hfetch, htmp₁, hlists₁⟩ : ∃ w₁, fetchCompressed digest gunzip release dist a.comp a.arch
          a.outcome w = some (true, w₁) ∧
          w₁.tmp = Function.update w.tmp (distTmpFile dist a.comp a.arch) a.tmpAfter ∧ w₁.lists = w.lists := by
        rw [fetchCompressed, hcompressed, Attempt.tmpAfter, hcompressed]
        cases part with
        | none => exact ⟨w, rfl, by simp [htmp], rfl⟩
        | some part => exact ⟨_, rfl, by simp, rfl⟩
      have hafter : a.tmpAfter = part.or a.tmp := by rw [Attempt.tmpAfter, hcompressed]
      rw [hfetch]
      simp only [Option.bind_eq_bind, Option.bind_some, if_true]
      rcases @fetchPlain_spec digest release dist a hgzip w₁ with
        ⟨⟨hknows, hcontent⟩, hnone⟩ | ⟨hcrash, err', w', hsome, hplain⟩
      · exact Or.inl ⟨⟨hknows, Or.inr hcontent⟩, hnone⟩
      · refine Or.inr ⟨fun h => hcrash ⟨h.1, ?_⟩, err', w', hsome, ?_⟩
        · exact h.2.resolve_left (by simp [hcompressed])
        · refine attempted_of_plain hplain htmp₁ (fun name _ => by rw [hlists₁]) ?_ ?_ (fun _ => by rw [hlists₁]) ?_
          · simp [Attempt.Fetched, hcompressed]
          · intro content
            simp only [Attempt.Slipped, hcompressed, hafter, Download.fails.injEq]
            constructor
            · rintro ⟨_, gz, rfl, hgz, hrecorded, hcontent⟩
              exact ⟨hcontent, gz, hgz, hrecorded⟩
            · rintro ⟨hcontent, gz, hgz, hrecorded⟩
              exact ⟨part, gz, rfl, hgz, hrecorded, hcontent⟩
          · intro hnone huntouched
            exact absurd ⟨hnone, Or.inl ⟨part, hcompressed⟩⟩ huntouched
  | arrives gz =>
      have hafter : a.tmpAfter = none := by rw [Attempt.tmpAfter, hcompressed]
      by_cases hknows : release.Knows (subpath a.comp a.arch true)
      · refine Or.inr ⟨fun h => h.1 hknows, ?_⟩
        have hslipped : ∀ content, a.Slipped digest release content ↔ a.outcome.plain = .arrives content ∧
            ∃ gz, a.tmpAfter = some gz ∧ Recorded digest release gz (subpath a.comp a.arch true) := by
          simp [Attempt.Slipped, hcompressed, hafter]
        obtain ⟨ok, hverify, hok⟩ := @verifyFile_eq digest release _ hknows (some gz)
        have hrecorded : ok = true ↔ Recorded digest release gz (subpath a.comp a.arch true) := by
          rw [hok]
          simp
        -- the plain list, where the temporary file has been removed
        have hplain : ∀ w₁ : DistFiles, fetchCompressed digest gunzip release dist a.comp a.arch a.outcome w =
            some (true, w₁) → w₁.tmp = Function.update w.tmp (distTmpFile dist a.comp a.arch) none →
            (∀ name ≠ distListFile dist a.comp a.arch, w₁.lists name = w.lists name) →
            (ok = false ∨ a.outcome.inflation ≠ .inflated) →
            (a.Untouched digest release →
              w₁.lists (distListFile dist a.comp a.arch) = w.lists (distListFile dist a.comp a.arch)) →
            (a.outcome.plain = .fails none → ¬ a.Untouched digest release →
              ∀ f, w₁.lists (distListFile dist a.comp a.arch) = some f → f.origin = .part) →
            ∃ err' w', ((fetchCompressed digest gunzip release dist a.comp a.arch a.outcome w).bind fun (err, w) =>
                if err then fetchPlain digest release dist a.comp a.arch a.outcome w else some (err, w)) =
                  some (err', w') ∧ Attempted digest gunzip release dist a w w' err' := by
          intro w₁ hfetch htmp₁ hother hnot huntouched hfailed
          rw [hfetch]
          simp only [Option.bind_some, if_true]
          rcases @fetchPlain_spec digest release dist a hgzip w₁ with
            ⟨⟨hnot, -⟩, -⟩ | ⟨-, err', w', hsome, hplain⟩
          · exact absurd hknows hnot
          · refine ⟨err', w', hsome, attempted_of_plain hplain (by rw [htmp₁, hafter]) hother ?_ hslipped
              huntouched hfailed⟩
            rintro gz' ⟨hgz', hrecorded', hinflated⟩
            obtain rfl : gz = gz' := by simpa [hcompressed] using hgz'
            rcases hnot with hnot | hnot
            · rw [hrecorded.mpr hrecorded'] at hnot
              cases hnot
            · exact hnot hinflated
        have huntouched : a.Untouched digest release ↔ a.outcome.plain = .fails none ∧ ok = true ∧
            a.outcome.inflation = .notOpened := by
          simp [Attempt.Untouched, hcompressed, hrecorded]
        have hfetch := @fetchCompressed_arrives digest gunzip release dist a w hgzip gz hcompressed ok hverify
        cases ok with
        | false =>
            refine hplain _ hfetch (by simp) (fun name hname => ?_)
              (Or.inl rfl) (fun h => ?_) (fun _ _ f hf => ?_)
            · simp [hname]
            · exact absurd (huntouched.mp h).2.1 Bool.false_ne_true
            · simp at hf
        | true =>
            cases hinflation : a.outcome.inflation with
            | inflated =>
                rw [hinflation] at hfetch
                have hfetched : a.Fetched digest release gz := ⟨hcompressed, hrecorded.mp rfl, hinflation⟩
                refine ⟨false, _, by rw [hfetch]; rfl, ?_, ?_, ?_, ?_, ?_, ?_, ?_⟩
                · simp only [true_iff]
                  exact Or.inl ⟨gz, hfetched⟩
                · simp [hafter]
                · intro name hname
                  simp [hname]
                · rintro gz' ⟨hgz', -, -⟩
                  obtain rfl : gz = gz' := by simpa [hcompressed] using hgz'
                  simp
                · intro content hcontent
                  simp [hafter] at hslipped
                  exact absurd hcontent (hslipped content)
                · intro h
                  simp [huntouched, hinflation] at h
                · intro h
                  exact absurd (Or.inl ⟨gz, hfetched⟩) h
            | corrupt part =>
                rw [hinflation] at hfetch
                refine hplain _ hfetch (by simp) (fun name hname => ?_) (Or.inr (by simp [hinflation])) (fun h => ?_) (fun _ _ f hf => ?_)
                · simp [hname]
                · simp [huntouched, hinflation] at h
                · simp only [setTmp_lists, setList_lists, Function.update_self, Option.some.injEq] at hf
                  rw [← hf]
            | notOpened =>
                rw [hinflation] at hfetch
                refine hplain _ hfetch (by simp) (fun name hname => ?_) (Or.inr (by simp [hinflation])) (fun h => ?_) (fun hnone h => ?_)
                · simp
                · simp
                · exact absurd (huntouched.mpr ⟨hnone, rfl, hinflation⟩) h
      · refine Or.inl ⟨⟨hknows, Or.inl ⟨gz, hcompressed⟩⟩, ?_⟩
        simp [fetchCompressed, hcompressed, hgzip, verifyFile_eq_none hknows]

end

/-! ## The loops -/

section

variable (dist : PkgSrc)

/-- The temporary files that attempts leave. -/
def leaveTmp (as : List Attempt) (tmp : CStr → Option CStr) : CStr → Option CStr :=
  as.foldl (fun tmp a => Function.update tmp (distTmpFile dist a.comp a.arch) a.tmpAfter) tmp

/-- The attempts for a component. -/
def archAttempts (comp : CStr) : List (CStr × Outcome) → (CStr → Option CStr) → List Attempt
  | [], _ => []
  | (arch, o) :: archs, tmp =>
    let a : Attempt := ⟨comp, arch, o, tmp (distTmpFile dist comp arch)⟩
    a :: archAttempts comp archs (leaveTmp dist [a] tmp)

/-- The attempts for each component. -/
def compAttempts : List (CStr × List (CStr × Outcome)) → (CStr → Option CStr) → List (List Attempt)
  | [], _ => []
  | (comp, archs) :: comps, tmp =>
    let as := archAttempts dist comp archs tmp
    as :: compAttempts comps (leaveTmp dist as tmp)

end

section

variable (digest : Digest) (gunzip : CStr → CStr) (release : Release) (dist : PkgSrc)

/-- The attempts have been made, one after the other. -/
inductive Ran : List Attempt → DistFiles → DistFiles → Prop
  | nil (w : DistFiles) : Ran [] w w
  | cons {a : Attempt} {as : List Attempt} {w w₁ w' : DistFiles} {err : Bool}
      (first : Attempted digest gunzip release dist a w w₁ err) (rest : Ran as w₁ w') : Ran (a :: as) w w'

end

section

variable {digest : Digest} {gunzip : CStr → CStr} {release : Release} {dist : PkgSrc}
  {w w₁ w' : DistFiles} {err ret : Bool} {as bs : List Attempt}

theorem Ran.append (h : Ran digest gunzip release dist as w w₁) (h' : Ran digest gunzip release dist bs w₁ w') :
    Ran digest gunzip release dist (as ++ bs) w w' := by
  induction h with
  | nil => exact h'
  | cons first rest ih => exact .cons first (ih h')

theorem Ran.tmp (h : Ran digest gunzip release dist as w w') : w'.tmp = leaveTmp dist as w.tmp := by
  induction h with
  | nil => rfl
  | cons first rest ih =>
      rw [ih, first.tmp]
      rfl

/-- **The architectures of a component.** The last one decides about the error. -/
theorem ran_downloadArchs (hgzip : dist.gzip = true) (comp : CStr) (archs : List (CStr × Outcome)) (err : Bool)
    (w : DistFiles) :
    (∃ a ∈ archAttempts dist comp archs w.tmp, a.Crashes release) ∧
        downloadArchs digest gunzip release dist comp archs err w = none ∨
      (∀ a ∈ archAttempts dist comp archs w.tmp, ¬ a.Crashes release) ∧
        ∃ err' w', downloadArchs digest gunzip release dist comp archs err w = some (err', w') ∧
          Ran digest gunzip release dist (archAttempts dist comp archs w.tmp) w w' ∧
          (err' = false ↔ ((archAttempts dist comp archs w.tmp).getLast?.elim (err = false)
            (Attempt.Succeeds digest release))) := by
  induction archs generalizing err w with
  | nil => exact Or.inr ⟨by simp [archAttempts], err, w, rfl, .nil w, by simp [archAttempts]⟩
  | cons round archs ih =>
      obtain ⟨arch, o⟩ := round
      rw [archAttempts, downloadArchs]
      rcases @attempted_downloadArch digest gunzip release dist
        ⟨comp, arch, o, w.tmp (distTmpFile dist comp arch)⟩ w err hgzip rfl with
        ⟨hcrash, hnone⟩ | ⟨hcrash, err₁, w₁, hsome, hstep⟩
      · exact Or.inl ⟨⟨_, List.mem_cons_self, hcrash⟩, by rw [hnone, Option.bind_none]⟩
      · have htmp : w₁.tmp = leaveTmp dist [⟨comp, arch, o, w.tmp (distTmpFile dist comp arch)⟩] w.tmp :=
          hstep.tmp
        rw [hsome, Option.bind_some]
        rcases ih err₁ w₁ with ⟨⟨a, ha, hcrash'⟩, hnone⟩ | ⟨hcrash', err', w', hsome', hran, herr⟩
        · rw [htmp] at ha
          exact Or.inl ⟨⟨a, List.mem_cons_of_mem _ ha, hcrash'⟩, hnone⟩
        · rw [htmp] at hcrash' hran herr
          refine Or.inr ⟨List.forall_mem_cons.mpr ⟨hcrash, hcrash'⟩, err', w', hsome', .cons hstep hran, ?_⟩
          rw [herr, List.getLast?_cons]
          cases (archAttempts dist comp archs _).getLast? with
          | none => exact hstep.err_iff
          | some a => rfl

/-- **The components.** -/
theorem ran_downloadComps (hgzip : dist.gzip = true) (comps : List (CStr × List (CStr × Outcome))) (ret : Bool)
    (w : DistFiles) :
    (∃ a ∈ (compAttempts dist comps w.tmp).flatten, a.Crashes release) ∧
        downloadComps digest gunzip release dist comps ret w = none ∨
      (∀ a ∈ (compAttempts dist comps w.tmp).flatten, ¬ a.Crashes release) ∧
        ∃ ret' w', downloadComps digest gunzip release dist comps ret w = some (ret', w') ∧
          Ran digest gunzip release dist (compAttempts dist comps w.tmp).flatten w w' ∧
          (ret' = false ↔ ret = false ∧ ∀ as ∈ compAttempts dist comps w.tmp, ∀ a ∈ as.getLast?,
            a.Succeeds digest release) := by
  induction comps generalizing ret w with
  | nil => exact Or.inr ⟨by simp [compAttempts], ret, w, rfl, .nil w, by simp [compAttempts]⟩
  | cons round comps ih =>
      obtain ⟨comp, archs⟩ := round
      simp only [compAttempts, downloadComps, List.flatten_cons]
      rcases @ran_downloadArchs digest gunzip release dist hgzip comp archs false w with
        ⟨⟨a, ha, hcrash⟩, hnone⟩ | ⟨hcrash, err, w₁, hsome, hran, herr⟩
      · exact Or.inl ⟨⟨a, List.mem_append_left _ ha, hcrash⟩, by rw [hnone, Option.bind_none]⟩
      · rw [hsome, Option.bind_some, ← hran.tmp]
        rcases ih (ret || err) w₁ with ⟨⟨a, ha, hcrash'⟩, hnone⟩ | ⟨hcrash', ret', w', hsome', hran', hret⟩
        · exact Or.inl ⟨⟨a, List.mem_append_right _ ha, hcrash'⟩, hnone⟩
        · refine Or.inr ⟨List.forall_mem_append.mpr ⟨hcrash, hcrash'⟩, ret', w', hsome', hran.append hran', ?_⟩
          have hlast : err = false ↔ ∀ a ∈ (archAttempts dist comp archs w.tmp).getLast?,
              a.Succeeds digest release := by
            rw [herr]
            cases (archAttempts dist comp archs w.tmp).getLast? <;> simp
          rw [hret, Bool.or_eq_false_iff, hlast, List.forall_mem_cons, and_assoc]

/-! ## What is in a list file -/

/-- A file that attempts leave untouched. -/
theorem Ran.lists_of_untouched (h : Ran digest gunzip release dist as w w') {name : CStr}
    (huntouched : ∀ a ∈ as, distListFile dist a.comp a.arch = name → a.Untouched digest release) :
    w'.lists name = w.lists name := by
  induction h with
  | nil => rfl
  | @cons a _ _ _ _ _ first rest ih =>
      obtain ⟨ha, has⟩ := List.forall_mem_cons.mp huntouched
      rw [ih has]
      by_cases hname : distListFile dist a.comp a.arch = name
      · rw [← hname]
        exact first.untouched (ha hname)
      · exact first.other name (Ne.symm hname)

/-- The last attempt that touched a file. -/
theorem Ran.exists_last (h : Ran digest gunzip release dist as w w') (name : CStr) :
    (∀ a ∈ as, distListFile dist a.comp a.arch = name → a.Untouched digest release) ∨
      ∃ pre a post w₁ w₂ err, as = pre ++ a :: post ∧
        distListFile dist a.comp a.arch = name ∧ ¬ a.Untouched digest release ∧
        (∀ b ∈ post, distListFile dist b.comp b.arch = name → b.Untouched digest release) ∧
        Attempted digest gunzip release dist a w₁ w₂ err ∧ w'.lists name = w₂.lists name := by
  induction h with
  | nil => exact Or.inl fun a ha => by cases ha
  | @cons a as w w₁ w' err first rest ih =>
      rcases ih with hsame | ⟨pre, b, post, w₂, w₃, err', rfl, hb, hbu, hpost, hattempted, hlists⟩
      · by_cases ha : distListFile dist a.comp a.arch = name → a.Untouched digest release
        · exact Or.inl (List.forall_mem_cons.mpr ⟨ha, hsame⟩)
        · rw [Classical.not_imp] at ha
          exact Or.inr ⟨[], a, as, w, w₁, err, rfl, ha.1, ha.2, hsame, first, rest.lists_of_untouched hsame⟩
      · exact Or.inr ⟨a :: pre, b, post, w₂, w₃, err', rfl, hb, hbu, hpost, hattempted, hlists⟩

/-- An attempt in a run. -/
theorem Ran.at {pre post : List Attempt} {a : Attempt}
    (h : Ran digest gunzip release dist (pre ++ a :: post) w w') :
    ∃ w₁ w₂ err, Attempted digest gunzip release dist a w₁ w₂ err ∧ Ran digest gunzip release dist post w₂ w' := by
  induction pre generalizing w with
  | nil =>
      cases h with
      | cons first rest => exact ⟨_, _, _, first, rest⟩
  | cons b pre ih =>
      cases h with
      | cons first rest => exact ih rest

variable (digest release dist) in
/-- The list file of a component and an architecture: it has been written, and its content, or the
compressed file that it was inflated from, has what the Release file records for it. -/
def Listed (gunzip : CStr → CStr) (w : DistFiles) (comp arch : CStr) : Prop :=
  ∃ f, w.lists (distListFile dist comp arch) = some f ∧
    match f.origin with
    | .plain => Recorded digest release f.content (subpath comp arch false)
    | .inflated gz => f.content = gunzip gz ∧ Recorded digest release gz (subpath comp arch true)
    | _ => False

variable (digest release dist) in
/-- The last attempt that touched the list file fetched the compressed list that is recorded for it; or
took over a plain list that happens to be the one that is recorded. -/
def Served (as : List Attempt) (comp arch : CStr) : Prop :=
  ∃ pre a post, as = pre ++ a :: post ∧ distListFile dist a.comp a.arch = distListFile dist comp arch ∧
    (∀ b ∈ post, distListFile dist b.comp b.arch = distListFile dist comp arch → b.Untouched digest release) ∧
    ((∃ gz, a.Fetched digest release gz ∧ Recorded digest release gz (subpath comp arch true)) ∨
      ∃ content, a.Slipped digest release content ∧ Recorded digest release content (subpath comp arch false))

/-- **A list file is complete and verified** if its last attempt has served it. -/
theorem Ran.listed_iff (h : Ran digest gunzip release dist as w w')
    (hearlier : ∀ name f, w.lists name = some f → f.origin = .earlier) (comp arch : CStr) :
    Listed digest release dist gunzip w' comp arch ↔ Served digest release dist as comp arch := by
  constructor
  · rintro ⟨f, hf, horigin⟩
    rcases h.exists_last (distListFile dist comp arch) with
      huntouched | ⟨pre, a, post, w₁, w₂, err, rfl, ha, hau, hpost, hattempted, hlists⟩
    · -- the file has been there before
      rw [h.lists_of_untouched huntouched] at hf
      simp [hearlier _ f hf] at horigin
    · refine ⟨pre, a, post, rfl, ha, hpost, ?_⟩
      rw [hlists, ← ha] at hf
      by_cases hsucceeds : a.Succeeds digest release
      · rcases hsucceeds with ⟨gz, hgz⟩ | ⟨content, hcontent⟩
        · obtain rfl := Option.some.inj ((hattempted.fetched gz hgz).symm.trans hf)
          exact Or.inl ⟨gz, hgz, horigin.2⟩
        · obtain rfl := Option.some.inj ((hattempted.slipped content hcontent).symm.trans hf)
          exact Or.inr ⟨content, hcontent, horigin⟩
      · rw [hattempted.failed hsucceeds hau f hf] at horigin
        cases horigin
  · rintro ⟨pre, a, post, rfl, ha, hpost, hserved⟩
    obtain ⟨w₁, w₂, err, hattempted, hrest⟩ := h.at
    have hlists : w'.lists (distListFile dist comp arch) = w₂.lists (distListFile dist a.comp a.arch) := by
      rw [hrest.lists_of_untouched hpost, ha]
    rcases hserved with ⟨gz, hgz, hrecorded⟩ | ⟨content, hcontent, hrecorded⟩
    · exact ⟨_, hlists.trans (hattempted.fetched gz hgz), rfl, hrecorded⟩
    · exact ⟨_, hlists.trans (hattempted.slipped content hcontent), hrecorded⟩

/-- No list file whose verification has failed is left. -/
theorem Ran.not_rejected (h : Ran digest gunzip release dist as w w')
    (hw : ∀ name f, w.lists name = some f → f.origin ≠ .rejected) (name : CStr) (f : ListFile)
    (hf : w'.lists name = some f) : f.origin ≠ .rejected := by
  rcases h.exists_last name with
    huntouched | ⟨pre, a, post, w₁, w₂, err, rfl, ha, hau, hpost, hattempted, hlists⟩
  · rw [h.lists_of_untouched huntouched] at hf
    exact hw name f hf
  · rw [hlists, ← ha] at hf
    by_cases hsucceeds : a.Succeeds digest release
    · rcases hsucceeds with ⟨gz, hgz⟩ | ⟨content, hcontent⟩
      · obtain rfl := Option.some.inj ((hattempted.fetched gz hgz).symm.trans hf)
        simp
      · obtain rfl := Option.some.inj ((hattempted.slipped content hcontent).symm.trans hf)
        simp
    · rw [hattempted.failed hsucceeds hau f hf]
      simp

end

/-! ## A download that succeeds -/

section

variable (digest : Digest) (gunzip : CStr → CStr) (release : Release) (dist : PkgSrc) (archs : List CStr)
  (outcome : ℕ → ℕ → Outcome) (lists tmp : CStr → Option CStr)

/-- The files before the download. -/
def earlierFiles : DistFiles := ⟨fun name => (lists name).map fun content => ⟨content, .earlier⟩, tmp⟩

/-- A download that returns `0` has written and verified the list of every component and architecture, and
no list whose verification has failed is left. -/
def DownloadComplete : Prop :=
  ∀ ret w, releaseDownload digest gunzip release dist archs outcome (earlierFiles lists tmp) = some (ret, w) →
    (ret = false → ∀ comp ∈ release.comps, ∀ arch ∈ archs, Listed digest release dist gunzip w comp arch) ∧
      ∀ name f, w.lists name = some f → f.origin ≠ .rejected

/-- **When it is complete**: there is nothing to download; or the distribution is compressed, and either the
download does not succeed, since a file is verified that the Release file does not record or since the last
architecture of a component fails, or every list file has been served. -/
def DownloadOk : Prop :=
  release.comps = [] ∨ archs = [] ∨ dist.gzip = true ∧
    let attempts := compAttempts dist (distRounds release archs outcome) tmp
    (∃ a ∈ attempts.flatten, a.Crashes release) ∨
      (∃ as ∈ attempts, ∃ a ∈ as.getLast?, ¬ a.Succeeds digest release) ∨
      ∀ comp ∈ release.comps, ∀ arch ∈ archs, Served digest release dist attempts.flatten comp arch

end

section

variable {digest : Digest} {gunzip : CStr → CStr} {release : Release} {dist : PkgSrc} {archs : List CStr}
  {outcome : ℕ → ℕ → Outcome} {lists tmp : CStr → Option CStr}

theorem downloadArchs_plain (hgzip : dist.gzip = false) (comp : CStr) (archs : List (CStr × Outcome))
    (w : DistFiles) : downloadArchs digest gunzip release dist comp archs false w = some (false, w) := by
  induction archs with
  | nil => rfl
  | cons round archs ih => simp [downloadArchs, downloadArch, hgzip, ih]

/-- **A distribution that is not compressed** is not downloaded. -/
theorem releaseDownload_plain (hgzip : dist.gzip = false) (w : DistFiles) :
    releaseDownload digest gunzip release dist archs outcome w = some (false, w) := by
  have hcomps : ∀ comps : List (CStr × List (CStr × Outcome)),
      downloadComps digest gunzip release dist comps false w = some (false, w) := by
    intro comps
    induction comps with
    | nil => rfl
    | cons round comps ih => simp [downloadComps, downloadArchs_plain hgzip, ih]
  exact hcomps _

theorem earlierFiles_origin (name : CStr) (f : ListFile) (hf : (earlierFiles lists tmp).lists name = some f) :
    f.origin = .earlier := by
  obtain ⟨content, -, rfl⟩ := Option.map_eq_some_iff.mp hf
  rfl

/-- **A download is complete and verified** if and only if the condition holds. -/
theorem downloadComplete_iff :
    DownloadComplete digest gunzip release dist archs outcome lists tmp ↔
      DownloadOk digest release dist archs outcome tmp := by
  have hnot : ∀ name f, (earlierFiles lists tmp).lists name = some f → f.origin ≠ .rejected := by
    intro name f hf
    rw [earlierFiles_origin name f hf]
    simp
  cases hgzip : dist.gzip with
  | false =>
      rw [DownloadComplete, DownloadOk, releaseDownload_plain hgzip, hgzip]
      constructor
      · intro h
        by_contra hok
        obtain ⟨hcomps, hrest⟩ := not_or.mp hok
        obtain ⟨harchs, -⟩ := not_or.mp hrest
        obtain ⟨comp, hcomp⟩ := List.exists_mem_of_ne_nil _ hcomps
        obtain ⟨arch, harch⟩ := List.exists_mem_of_ne_nil _ harchs
        obtain ⟨f, hf, horigin⟩ := (h _ _ rfl).1 rfl comp hcomp arch harch
        simp [earlierFiles_origin _ f hf] at horigin
      · rintro hok ret w heq
        obtain ⟨rfl, rfl⟩ := Prod.mk.inj (Option.some.inj heq)
        refine ⟨fun _ comp hcomp arch harch => ?_, hnot⟩
        rcases hok with hnil | hnil | ⟨hfalse, -⟩
        · simp [hnil] at hcomp
        · simp [hnil] at harch
        · cases hfalse
  | true =>
      rw [DownloadComplete, DownloadOk, hgzip, releaseDownload]
      rcases @ran_downloadComps digest gunzip release dist hgzip (distRounds release archs outcome) false
        (earlierFiles lists tmp) with ⟨hcrash, hnone⟩ | ⟨hcrash, ret, w, hsome, hran, hret⟩
      · rw [hnone]
        exact iff_of_true (fun ret w h => by cases h) (Or.inr (Or.inr ⟨rfl, Or.inl hcrash⟩))
      · rw [hsome]
        have hlisted := hran.listed_iff (fun name f => earlierFiles_origin name f)
        constructor
        · intro h
          obtain ⟨hlists, -⟩ := h ret w rfl
          refine Or.inr (Or.inr ⟨rfl, Or.inr ?_⟩)
          cases ret with
          | true =>
              left
              by_contra hall
              push Not at hall
              cases hret.mpr ⟨rfl, hall⟩
          | false => exact Or.inr fun comp hcomp arch harch => (hlisted comp arch).mp (hlists rfl comp hcomp arch harch)
        · rintro hok ret' w' heq
          obtain ⟨rfl, rfl⟩ := Prod.mk.inj (Option.some.inj heq)
          refine ⟨fun hzero comp hcomp arch harch => ?_, hran.not_rejected hnot⟩
          rcases hok with hnil | hnil | ⟨-, ⟨a, ha, hcrashes⟩ | ⟨as, has, a, ha, hfails⟩ | hserved⟩
          · simp [hnil] at hcomp
          · simp [hnil] at harch
          · exact absurd hcrashes (hcrash a ha)
          · exact absurd ((hret.mp hzero).2 as has a ha) hfails
          · exact (hlisted comp arch).mpr (hserved comp hcomp arch harch)

/-- A distribution with one component, which is not compressed. -/
theorem not_downloadComplete_plain :
    ¬ DownloadComplete ⟨id, id⟩ id { components := ["main".toList] }
      ⟨"stable".toList, "http://host".toList, none, false⟩ ["all".toList]
      (fun _ _ => ⟨.arrives [], .inflated, .arrives []⟩) (fun _ => none) (fun _ => none) := by
  rw [DownloadComplete, releaseDownload_plain rfl]
  intro h
  obtain ⟨f, hf, -⟩ := (h _ _ rfl).1 rfl "main".toList (by decide) "all".toList (by decide)
  cases hf

end

end FirmwareTools.Opkg

import FirmwareTools.Digest.Md5
import FirmwareTools.Digest.Sha256
import FirmwareTools.Opkg.ReleaseDownload

/-! # Checksums of files

`file_md5sum_alloc` and `file_sha256sum_alloc` open a file, hash it as a stream and write the digest in
hexadecimal. The checksums that a download is verified with are theirs.

* **`fileSums_eq`** — a checksum is that of the whole file, or there is none. -/

namespace FirmwareTools.Opkg

open FirmwareTools.Digest (Host Ctx InputStream md5Stream sha256Stream md5Stream_eq sha256Stream_eq)

def bin2hex : List Char := "0123456789abcdef".toList

def hexDigit (n : UInt8) : Char := bin2hex.getD n.toNat ' '

/-- The loop that writes a digest in hexadecimal. -/
def hexSum (bin : List UInt8) : CStr :=
  bin.flatMap fun b => [hexDigit (b >>> (4 : UInt8)), hexDigit (b &&& (0xf : UInt8))]

/-- `file_md5sum_alloc` and `file_sha256sum_alloc` with their streams; no file means that it cannot be
opened. -/
def fileSumAlloc (stream : InputStream → Option (Option (List UInt8))) (file : Option InputStream) :
    Option (Option CStr) :=
  match file with
  | none => some none
  | some file => (stream file).map (Option.map hexSum)

def md5sumAlloc (host : Host) (addr : ℕ) (ctx : Ctx (Vector UInt32 4)) (file : Option InputStream) :
    Option (Option CStr) :=
  fileSumAlloc (md5Stream host addr ctx) file

def sha256sumAlloc (host : Host) (addr : ℕ) (ctx : Ctx (Vector UInt32 8)) (file : Option InputStream) :
    Option (Option CStr) :=
  fileSumAlloc (sha256Stream host addr ctx) file

/-- The bytes of a string. -/
def CStr.bytes (s : CStr) : List UInt8 := s.map fun c => UInt8.ofNat c.toNat

/-- The checksums of `file_util.c`. -/
def fileDigest : Digest where
  md5 content := hexSum (FirmwareTools.Digest.md5 (CStr.bytes content))
  sha256 content := hexSum (FirmwareTools.Digest.sha256 (CStr.bytes content))

/-- A checksum that is computed is that of the whole file. -/
theorem fileSumAlloc_eq {stream : InputStream → Option (Option (List UInt8))} {file : InputStream}
    {digest : List UInt8}
    (h : ∃ result, stream file = some result ∧ (∀ d, result = some d → d = digest) ∧
      (file.Reliable → result ≠ none)) :
    ∃ result, fileSumAlloc stream (some file) = some result ∧
      (∀ sum, result = some sum → sum = hexSum digest) ∧ (file.Reliable → result ≠ none) := by
  obtain ⟨result, hresult, hdigest, hreliable⟩ := h
  refine ⟨result.map hexSum, ?_, fun sum hsum => ?_, fun hrel => ?_⟩
  · rw [fileSumAlloc, hresult, Option.map_some]
  · obtain ⟨d, hd, rfl⟩ := Option.map_eq_some_iff.mp hsum
    rw [hdigest d hd]
  · rw [ne_eq, Option.map_eq_none_iff]
    exact hreliable hrel

/-- **The checksums of a file** are those of its whole content. -/
theorem fileSums_eq (host : Host) (addr : ℕ) {ctx₄ : Ctx (Vector UInt32 4)} {ctx₈ : Ctx (Vector UInt32 8)}
    (h₄ : ctx₄.buffer.length = 128) (h₈ : ctx₈.buffer.length = 128) {file : InputStream}
    (hfile : file.WellFormed) {content : CStr} (hcontent : file.content = CStr.bytes content) :
    (∃ result, md5sumAlloc host addr ctx₄ (some file) = some result ∧
      (∀ sum, result = some sum → sum = fileDigest.md5 content) ∧ (file.Reliable → result ≠ none)) ∧
    ∃ result, sha256sumAlloc host addr ctx₈ (some file) = some result ∧
      (∀ sum, result = some sum → sum = fileDigest.sha256 content) ∧ (file.Reliable → result ≠ none) := by
  refine ⟨?_, ?_⟩
  · have hsum := fileSumAlloc_eq (@md5Stream_eq host _ h₄ addr _ hfile)
    rwa [hcontent] at hsum
  · have hsum := fileSumAlloc_eq (@sha256Stream_eq host _ h₈ addr _ hfile)
    rwa [hcontent] at hsum

/-- The file `abc`. -/
theorem fileSums_abc :
    md5sumAlloc ⟨false, true⟩ 0 ⟨.replicate 4 7, 7, 7, 7, .replicate 128 7⟩
        (some ⟨[97, 98, 99], [], false, false⟩)
      = some (some "900150983cd24fb0d6963f7d28e17f72".toList) := by
  have hfile : (⟨[97, 98, 99], [], false, false⟩ : InputStream).WellFormed :=
    fun h => absurd h (by decide)
  obtain ⟨⟨result, hresult, hsum, hreliable⟩, -⟩ := @fileSums_eq ⟨false, true⟩ 0
    ⟨.replicate 4 7, 7, 7, 7, .replicate 128 7⟩ ⟨.replicate 8 7, 7, 7, 7, .replicate 128 7⟩
    List.length_replicate List.length_replicate _ hfile "abc".toList rfl
  obtain ⟨sum, rfl⟩ := Option.ne_none_iff_exists'.mp (hreliable ⟨rfl, rfl⟩)
  rw [hresult, hsum sum rfl]
  decide +kernel

end FirmwareTools.Opkg

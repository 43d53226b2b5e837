import FirmwareTools.Squashfs.Pipeline

/-! # Where files and fragments are written

The blocks of a file get their places while the fragments are locked, so that `bytes` can be moved back
over them; fragments get theirs when nobody will move it back. What the inodes and the fragment table
record never overlaps.

* **`rangesApart_of_trace`** — for any files, duplicates and read errors among them, and any
  interleaving of the threads. -/

namespace FirmwareTools.Squashfs

/-! ## Ranges -/

/-- What begins where all before it ends is apart from it. -/
theorem Apart.of_le {r : ByteRange} {pos n : ℕ} (h : r.2 ≤ pos) : Apart r (pos, pos + n) := .inl h

theorem Apart.symm {r r' : ByteRange} (h : Apart r r') : Apart r' r := Or.symm h

/-- The bytes that the blocks of a list take. -/
def blockBytes (blockList : List ℕ) : ℕ := (blockList.map compressedSizeBlock).sum

theorem compressedSizeBlock_zero : compressedSizeBlock 0 = 0 := by decide

theorem blockRanges_append (pos : ℕ) (blockList blockList' : List ℕ) :
    blockRanges pos (blockList ++ blockList') =
      blockRanges pos blockList ++ blockRanges (pos + blockBytes blockList) blockList' := by
  induction blockList generalizing pos with
  | nil => rfl
  | cons cByte blockList ih =>
      simp only [List.cons_append, blockRanges, blockBytes, List.map_cons, List.sum_cons]
      split
      case isTrue hzero =>
          rw [ih, hzero, compressedSizeBlock_zero, Nat.zero_add]
          rfl
      case isFalse =>
          rw [ih, List.cons_append, blockBytes, Nat.add_assoc]

/-! ## What the main thread has reserved -/

/-- The blocks that have a place and belong to no inode yet. -/
def MainThread.ownRanges : MainThread → List ByteRange
  | .writing file | .written file | .comparing _ file | .keeping file | .filling _ file
  | .copying _ file | .filled _ file => file.ranges
  | _ => []

/-- The file for which the fragments are locked. -/
def MainThread.lockedFile : MainThread → Option OpenFile
  | .writing file | .written file | .comparing true file | .keeping file | .dropping file _
  | .filling true file | .copying true file | .filled true file => some file
  | _ => none

/-- The file of which the current one is a duplicate. -/
def MainThread.duplicateOf : MainThread → Option ℕ
  | .dropping _ i | .undone _ _ (some i) | .found i => some i
  | _ => none

namespace Pipeline

/-- The ranges of the blocks of all files that are not duplicates. -/
def dataRanges (s : Pipeline) : List ByteRange :=
  (s.inodes.filter fun e => e.duplicateOf.isNone).flatMap fun e => e.ranges

/-- **The output ranges do not overlap**: those of the data blocks and of the fragments are pairwise
apart, and a duplicate has the blocks and the fragment of an earlier file that is none. -/
structure RangesApart (s : Pipeline) : Prop where
  blocks : s.dataRanges.Pairwise Apart
  fragments : ∀ {f g : ℕ} {a b : FragmentEntry}, f ≠ g → s.fragmentTable f = some a →
    s.fragmentTable g = some b → Apart a.range b.range
  blocks_fragments : ∀ r ∈ s.dataRanges, ∀ {f : ℕ} {a : FragmentEntry}, s.fragmentTable f = some a →
    Apart r a.range
  duplicates : ∀ {k i : ℕ} {e : FileInode}, s.inodes[k]? = some e → e.duplicateOf = some i → i < k ∧
    ∃ e', s.inodes[i]? = some e' ∧ e'.duplicateOf = none ∧ e.toFileExtent = e'.toFileExtent

/-! ## Places -/

/-- The data blocks that have a place, in inodes or in `own`, and the fragments lie apart, and below
`bytes`. -/
structure Placed (s : Pipeline) (own : List ByteRange) : Prop where
  blocks : (s.dataRanges ++ own).Pairwise Apart
  below : ∀ r ∈ s.dataRanges ++ own, r.2 ≤ s.bytes
  fragments : ∀ {f g : ℕ} {a b : FragmentEntry}, f ≠ g → s.fragmentTable f = some a →
    s.fragmentTable g = some b → Apart a.range b.range
  fragments_below : ∀ {f : ℕ} {a : FragmentEntry}, s.fragmentTable f = some a → a.range.2 ≤ s.bytes
  blocks_fragments : ∀ r ∈ s.dataRanges ++ own, ∀ {f : ℕ} {a : FragmentEntry},
    s.fragmentTable f = some a → Apart r a.range

variable {env : PipelineEnv} {s t : Pipeline} {l : PipelineStep} {m : MainThread}
  {own : List ByteRange} {file : OpenFile}

theorem fragmentTable_placeFragment (entry : FragLocked) : (s.placeFragment entry).fragmentTable =
    Function.update s.fragmentTable entry.fragment (some ⟨s.bytes, entry.cByte⟩) := rfl

namespace Placed

/-- Only the write position, the table and the inodes matter. -/
theorem congr (h : Placed s own) (hbytes : t.bytes = s.bytes)
    (htable : t.fragmentTable = s.fragmentTable) (hinodes : t.inodes = s.inodes) : Placed t own := by
  have hdata : t.dataRanges = s.dataRanges := by rw [dataRanges, hinodes, dataRanges]
  refine ⟨?_, ?_, ?_, ?_, ?_⟩
  · rw [hdata]
    exact h.blocks
  · rw [hdata, hbytes]
    exact h.below
  · rw [htable]
    exact h.fragments
  · rw [htable, hbytes]
    exact h.fragments_below
  · rw [hdata, htable]
    exact h.blocks_fragments

/-- A file is given up: its blocks need not be apart any more. -/
theorem drop (h : Placed s own) : Placed s [] := by
  have hmem : ∀ {r}, r ∈ s.dataRanges ++ [] → r ∈ s.dataRanges ++ own := by
    intro r hr
    rw [List.append_nil] at hr
    exact List.mem_append_left _ hr
  refine ⟨?_, fun r hr => h.below r (hmem hr), h.fragments, h.fragments_below,
    fun r hr => h.blocks_fragments r (hmem hr)⟩
  rw [List.append_nil]
  exact (List.pairwise_append.mp h.blocks).1

/-- The write position may go back as far as to the end of what is recorded. -/
theorem undo (h : Placed s own) {pos : ℕ} (hdata : ∀ r ∈ s.dataRanges, r.2 ≤ pos)
    (hfragments : ∀ {f : ℕ} {a : FragmentEntry}, s.fragmentTable f = some a → a.range.2 ≤ pos)
    (hbytes : t.bytes = pos) (htable : t.fragmentTable = s.fragmentTable)
    (hinodes : t.inodes = s.inodes) : Placed t [] := by
  have hranges : t.dataRanges = s.dataRanges := by rw [dataRanges, hinodes, dataRanges]
  have hdrop := h.drop
  refine ⟨?_, ?_, ?_, ?_, ?_⟩
  · rw [hranges]
    exact hdrop.blocks
  · rw [hranges, hbytes, List.append_nil]
    exact hdata
  · rw [htable]
    exact hdrop.fragments
  · rw [htable, hbytes]
    exact hfragments
  · rw [hranges, htable]
    exact hdrop.blocks_fragments

/-- A data block gets the next place. -/
theorem block (h : Placed s own) (n : ℕ) (hbytes : t.bytes = s.bytes + n)
    (htable : t.fragmentTable = s.fragmentTable) (hinodes : t.inodes = s.inodes) :
    Placed t (own ++ [(s.bytes, s.bytes + n)]) := by
  have hdata : t.dataRanges = s.dataRanges := by rw [dataRanges, hinodes, dataRanges]
  have hcases : ∀ r ∈ t.dataRanges ++ (own ++ [(s.bytes, s.bytes + n)]),
      r ∈ s.dataRanges ++ own ∨ r = (s.bytes, s.bytes + n) := by
    intro r hr
    rw [hdata, ← List.append_assoc, List.mem_append, List.mem_singleton] at hr
    exact hr
  refine ⟨?_, ?_, ?_, ?_, ?_⟩
  · rw [hdata, ← List.append_assoc, List.pairwise_append]
    refine ⟨h.blocks, List.pairwise_singleton .., fun r hr r' hr' => ?_⟩
    rw [List.mem_singleton.mp hr']
    exact Apart.of_le (h.below r hr)
  · intro r hr
    rw [hbytes]
    rcases hcases r hr with hold | rfl
    · exact (h.below r hold).trans (Nat.le_add_right _ _)
    · exact le_refl _
  · rw [htable]
    exact h.fragments
  · intro f a ha
    rw [htable] at ha
    rw [hbytes]
    exact (h.fragments_below ha).trans (Nat.le_add_right _ _)
  · intro r hr f a ha
    rw [htable] at ha
    rcases hcases r hr with hold | rfl
    · exact h.blocks_fragments r hold ha
    · exact (Apart.of_le (h.fragments_below ha)).symm

/-- A fragment gets the next place. -/
theorem placeFragment (h : Placed s own) (entry : FragLocked) : Placed (s.placeFragment entry) own := by
  -- an entry of the new table is an old one or that of the fragment
  have hcases : ∀ {f : ℕ} {a : FragmentEntry}, (s.placeFragment entry).fragmentTable f = some a →
      (f ≠ entry.fragment ∧ s.fragmentTable f = some a) ∨
        (f = entry.fragment ∧ a = ⟨s.bytes, entry.cByte⟩) := by
    intro f a ha
    by_cases hf : f = entry.fragment
    · rw [hf, fragmentTable_placeFragment, Function.update_self] at ha
      exact .inr ⟨hf, (Option.some.inj ha).symm⟩
    · rw [fragmentTable_placeFragment, Function.update_of_ne hf] at ha
      exact .inl ⟨hf, ha⟩
  have hbytes : (s.placeFragment entry).bytes = s.bytes + compressedSizeBlock entry.cByte := rfl
  refine ⟨h.blocks, fun r hr => (h.below r hr).trans (Nat.le_add_right _ _), ?_, ?_, ?_⟩
  · intro f g a b hne ha hb
    rcases hcases ha with ⟨-, ha'⟩ | ⟨rfl, rfl⟩ <;> rcases hcases hb with ⟨-, hb'⟩ | ⟨rfl, rfl⟩
    · exact h.fragments hne ha' hb'
    · exact Apart.of_le (h.fragments_below ha')
    · exact (Apart.of_le (h.fragments_below hb')).symm
    · exact absurd rfl hne
  · intro f a ha
    rw [hbytes]
    rcases hcases ha with ⟨-, ha'⟩ | ⟨-, rfl⟩
    · exact (h.fragments_below ha').trans (Nat.le_add_right _ _)
    · exact le_refl _
  · intro r hr f a ha
    rcases hcases ha with ⟨-, ha'⟩ | ⟨-, rfl⟩
    · exact h.blocks_fragments r hr ha'
    · exact Apart.of_le (h.below r hr)

theorem unlockFragments (h : Placed s own) : Placed s.unlockFragments own := by
  have hplaced : ∀ (entries : List FragLocked) {s : Pipeline}, Placed s own →
      Placed (entries.foldl Pipeline.placeFragment s) own := by
    intro entries
    induction entries with
    | nil => exact id
    | cons entry entries ih => exact fun h => ih (h.placeFragment entry)
  exact (hplaced s.fragLockedList h).congr rfl rfl rfl

/-- The blocks of a file belong to its inode. -/
theorem createInode (h : Placed s file.ranges) (m : MainThread) :
    Placed { s with inodes := s.inodes ++ [{ file with }], main := m } [] := by
  have hdata : ({ s with inodes := s.inodes ++ [{ file with }], main := m } : Pipeline).dataRanges =
      s.dataRanges ++ file.ranges := by
    simp [dataRanges, List.filter_append]
  refine ⟨?_, ?_, h.fragments, h.fragments_below, ?_⟩
  · rw [hdata, List.append_nil]
    exact h.blocks
  · rw [hdata, List.append_nil]
    exact h.below
  · rw [hdata, List.append_nil]
    exact h.blocks_fragments

/-- A duplicate brings no blocks of its own. -/
theorem createDuplicate (h : Placed s own) {e : FileExtent} {i : ℕ} (m : MainThread) :
    Placed { s with inodes := s.inodes ++ [{ e with duplicateOf := some i }], main := m } own := by
  have hdata : ({ s with inodes := s.inodes ++ [{ e with duplicateOf := some i }], main := m } :
      Pipeline).dataRanges = s.dataRanges := by
    simp [dataRanges, List.filter_append]
  refine ⟨?_, ?_, h.fragments, h.fragments_below, ?_⟩
  · rw [hdata]
    exact h.blocks
  · rw [hdata]
    exact h.below
  · rw [hdata]
    exact h.blocks_fragments

end Placed

/-! ## The invariant -/

/-- The fragments are locked for a file: what is recorded lies before its start, and its blocks take all
bytes from there on. -/
structure Reserved (s : Pipeline) (file : OpenFile) : Prop where
  fragmentsLocked : s.fragmentsLocked = true
  bytes : s.bytes = file.start + blockBytes file.blockList
  data : ∀ r ∈ s.dataRanges, r.2 ≤ file.start
  fragments : ∀ {f : ℕ} {a : FragmentEntry}, s.fragmentTable f = some a → a.range.2 ≤ file.start

/-- Everything has its place, and the file that the main thread is at has what it needs. -/
structure Laid (s : Pipeline) (m : MainThread) : Prop where
  placed : Placed s m.ownRanges
  reserved : ∀ {file : OpenFile}, m.lockedFile = some file → Reserved s file
  found : ∀ {i : ℕ}, m.duplicateOf = some i → ∃ e, s.inodes[i]? = some e ∧ e.duplicateOf = none
  duplicates : ∀ {k i : ℕ} {e : FileInode}, s.inodes[k]? = some e → e.duplicateOf = some i → i < k ∧
    ∃ e', s.inodes[i]? = some e' ∧ e'.duplicateOf = none ∧ e.toFileExtent = e'.toFileExtent

theorem Reserved.congr {file' : OpenFile} (h : Reserved s file)
    (hlocked : t.fragmentsLocked = s.fragmentsLocked) (hbytes : t.bytes = s.bytes)
    (htable : t.fragmentTable = s.fragmentTable) (hinodes : t.inodes = s.inodes)
    (hstart : file'.start = file.start)
    (hsize : blockBytes file'.blockList = blockBytes file.blockList) : Reserved t file' := by
  have hdata : t.dataRanges = s.dataRanges := by rw [dataRanges, hinodes, dataRanges]
  refine ⟨hlocked.trans h.fragmentsLocked, ?_, ?_, ?_⟩
  · rw [hbytes, hstart, hsize]
    exact h.bytes
  · rw [hdata, hstart]
    exact h.data
  · rw [htable, hstart]
    exact h.fragments

/-- Two states agree on all that the places depend on. -/
structure SamePlaces (s t : Pipeline) : Prop where
  bytes : t.bytes = s.bytes
  fragmentTable : t.fragmentTable = s.fragmentTable
  inodes : t.inodes = s.inodes
  fragmentsLocked : t.fragmentsLocked = s.fragmentsLocked

namespace Laid

/-- A step that leaves the places alone keeps the invariant, if the main thread keeps its file, or gives
it up and no longer relies on the lock. -/
theorem congr {m' : MainThread} (h : Laid s m) (hsame : SamePlaces s t)
    (hown : m'.ownRanges = m.ownRanges ∨ m'.ownRanges = [])
    (hlocked : ∀ {file' : OpenFile}, m'.lockedFile = some file' → ∃ file, m.lockedFile = some file ∧
      file'.start = file.start ∧ blockBytes file'.blockList = blockBytes file.blockList)
    (hfound : ∀ {i : ℕ}, m'.duplicateOf = some i → m.duplicateOf = some i) : Laid t m' := by
  obtain ⟨hbytes, htable, hinodes, hlock⟩ := hsame
  refine ⟨?_, fun hfile => ?_, fun hi => ?_, ?_⟩
  · rcases hown with hown | hown
    · rw [hown]
      exact h.placed.congr hbytes htable hinodes
    · rw [hown]
      exact h.placed.drop.congr hbytes htable hinodes
  · obtain ⟨file, hfile', hstart, hsize⟩ := hlocked hfile
    exact (h.reserved hfile').congr hlock hbytes htable hinodes hstart hsize
  · rw [hinodes]
    exact h.found (hfound hi)
  · rw [hinodes]
    exact h.duplicates

/-- The main thread goes on with its file, of which no more is written. -/
theorem keep {file' : OpenFile} {m' : MainThread} (h : Laid s m) (hsame : SamePlaces s t)
    (hm : m.lockedFile = some file) (hm' : m'.lockedFile = some file')
    (hown : m'.ownRanges = m.ownRanges) (hstart : file'.start = file.start)
    (hsize : blockBytes file'.blockList = blockBytes file.blockList)
    (hfound : m'.duplicateOf = m.duplicateOf) : Laid t m' := by
  refine h.congr hsame (.inl hown) (fun hfile => ?_) fun hi => hfound ▸ hi
  cases hm'.symm.trans hfile
  exact ⟨file, hm, hstart, hsize⟩

/-- The main thread goes on where it relies on no lock. -/
theorem goOn {m' : MainThread} (h : Laid s m) (hsame : SamePlaces s t)
    (hown : m'.ownRanges = m.ownRanges) (hm' : m'.lockedFile = none)
    (hfound : m'.duplicateOf = none ∨ m'.duplicateOf = m.duplicateOf) : Laid t m' := by
  refine h.congr hsame (.inl hown) (fun hfile => ?_) fun hi => ?_
  · rw [hm'] at hfile
    cases hfile
  · rcases hfound with hnone | heq
    · rw [hnone] at hi
      cases hi
    · rwa [← heq]

/-- The fragments are locked for a new file, which starts at the write position. -/
theorem lock {thresh : Option ℕ} (h : Laid s .scan) :
    Laid { s.lockFragments with main := .writing { start := s.bytes, thresh } }
      (.writing { start := s.bytes, thresh }) := by
  have hplaced : Placed s [] := h.placed
  refine ⟨hplaced.congr rfl rfl rfl, ?_, nofun, h.duplicates⟩
  rintro file ⟨⟩
  exact ⟨rfl, rfl, fun r hr => hplaced.below r (List.mem_append_left _ hr), hplaced.fragments_below⟩

/-- What a data block changes. -/
theorem dataBlock_eq (s : Pipeline) (file : OpenFile) (cByte : ℕ) (buffer : WriteBuffer) :
    (s.dataBlock file cByte buffer).bytes = s.bytes + buffer.data.length ∧
      (s.dataBlock file cByte buffer).fragmentTable = s.fragmentTable ∧
      (s.dataBlock file cByte buffer).inodes = s.inodes ∧
      (s.dataBlock file cByte buffer).fragmentsLocked = s.fragmentsLocked ∧
      ∃ file' : OpenFile, (s.dataBlock file cByte buffer).main = .writing file' ∧
        file'.start = file.start ∧ file'.blockList = file.blockList ++ [cByte] := by
  unfold Pipeline.dataBlock
  split
  case isTrue => exact ⟨rfl, rfl, rfl, rfl, _, rfl, rfl, rfl⟩
  case isFalse => exact ⟨rfl, rfl, rfl, rfl, _, rfl, rfl, rfl⟩

/-- The next data block. -/
theorem dataBlock (h : Laid s (.writing file)) {cByte : ℕ} {buffer : WriteBuffer} (hne : cByte ≠ 0)
    (hsize : compressedSizeBlock cByte = buffer.data.length) :
    Laid (s.dataBlock file cByte buffer) (s.dataBlock file cByte buffer).main := by
  obtain ⟨hbytes, htable, hinodes, hlocked, file', hmain, hstart, hblocks⟩ :=
    dataBlock_eq s file cByte buffer
  have hreserved : Reserved s file := h.reserved rfl
  have hranges : file'.ranges = file.ranges ++ [(s.bytes, s.bytes + buffer.data.length)] := by
    have hlast : blockRanges s.bytes [cByte] = [(s.bytes, s.bytes + buffer.data.length)] := by
      simp only [blockRanges, if_neg hne, hsize]
    rw [FileExtent.ranges, hstart, hblocks, blockRanges_append, ← hreserved.bytes, hlast]
    rfl
  have hdata : (s.dataBlock file cByte buffer).dataRanges = s.dataRanges := by
    rw [dataRanges, hinodes, dataRanges]
  rw [hmain]
  refine ⟨?_, fun hfile => ?_, nofun, ?_⟩
  · show Placed _ file'.ranges
    rw [hranges]
    exact h.placed.block _ hbytes htable hinodes
  · cases hfile
    refine ⟨hlocked.trans hreserved.fragmentsLocked, ?_, ?_, ?_⟩
    · rw [hbytes, hreserved.bytes, hstart, hblocks, blockBytes, blockBytes, List.map_append,
        List.sum_append, ← hsize, Nat.add_assoc]
      rfl
    · rw [hdata, hstart]
      exact hreserved.data
    · rw [htable, hstart]
      exact hreserved.fragments
  · rw [hinodes]
    exact h.duplicates

/-- The blocks of a file are given up. -/
theorem undo (h : Laid s m) (hfile : m.lockedFile = some file) (held : List WriteBuffer)
    {duplicateOf : Option ℕ}
    (hfound : ∀ {i : ℕ}, duplicateOf = some i → m.duplicateOf = some i) :
    Laid (s.undo env file held duplicateOf) (s.undo env file held duplicateOf).main := by
  have hreserved : Reserved s file := h.reserved hfile
  refine ⟨h.placed.undo hreserved.data hreserved.fragments rfl rfl rfl, ?_, fun hi => ?_,
    h.duplicates⟩
  · intro file' hfile'
    cases hfile'
  · refine h.found (hfound ?_)
    cases duplicateOf with
    | none => cases hi
    | some _ => exact hi

theorem inodes_foldl_placeFragment (entries : List FragLocked) :
    (entries.foldl placeFragment s).inodes = s.inodes := by
  induction entries generalizing s with
  | nil => rfl
  | cons entry entries ih => exact ih

/-- `unlock_fragments`, where the main thread no longer relies on the lock. -/
theorem unlock {m' : MainThread} (h : Laid s m) (hown : m'.ownRanges = m.ownRanges)
    (hlocked : m'.lockedFile = none)
    (hfound : m'.duplicateOf = none ∨ m'.duplicateOf = m.duplicateOf) :
    Laid { s.unlockFragments with main := m' } m' := by
  have hinodes : s.unlockFragments.inodes = s.inodes := inodes_foldl_placeFragment s.fragLockedList
  refine ⟨?_, fun hfile => ?_, fun hi => ?_, ?_⟩
  · rw [hown]
    exact h.placed.unlockFragments.congr rfl rfl rfl
  · rw [hlocked] at hfile
    cases hfile
  · show ∃ e, s.unlockFragments.inodes[_]? = some e ∧ _
    rw [hinodes]
    rcases hfound with hnone | heq
    · rw [hnone] at hi
      cases hi
    · exact h.found (heq ▸ hi)
  · show ∀ {k i : ℕ} {e : FileInode}, s.unlockFragments.inodes[k]? = some e → _
    rw [hinodes]
    exact h.duplicates

/-- A duplicate was found: the blocks of the file will be given up. -/
theorem duplicate {i : ℕ} {e : FileInode} {locked : Bool} (h : Laid s (.comparing locked file))
    (he : s.inodes[i]? = some e) (hnone : e.duplicateOf = none) :
    Laid { s with main := if locked then .dropping file i else .found i }
      (if locked then .dropping file i else .found i) := by
  have hfound : ∀ {j : ℕ}, i = j → ∃ e, s.inodes[j]? = some e ∧ e.duplicateOf = none := by
    rintro j rfl
    exact ⟨e, he, hnone⟩
  cases locked with
  | false =>
      exact ⟨h.placed.drop.congr rfl rfl rfl, nofun, fun hi => hfound (Option.some.inj hi),
        h.duplicates⟩
  | true =>
      refine ⟨h.placed.drop.congr rfl rfl rfl, fun hfile => ?_, fun hi => hfound (Option.some.inj hi),
        h.duplicates⟩
      cases hfile
      exact (h.reserved rfl).congr rfl rfl rfl rfl rfl rfl

/-- An inode for a file with blocks of its own. -/
theorem createInode (h : Laid s (.filled false file)) :
    Laid { s with inodes := s.inodes ++ [{ file with }], main := .scan } .scan := by
  refine ⟨h.placed.createInode .scan, nofun, nofun, fun {k i e} he hdup => ?_⟩
  rcases lt_or_ge k s.inodes.length with hk | hk
  · rw [List.getElem?_append_left hk] at he
    obtain ⟨hlt, e', hearlier, hnone, heq⟩ := h.duplicates he hdup
    exact ⟨hlt, e', by rwa [List.getElem?_append_left (hlt.trans hk)], hnone, heq⟩
  · rw [List.getElem?_append_right hk] at he
    have hlast := List.mem_singleton.mp (List.mem_of_getElem? he)
    rw [hlast] at hdup
    cases hdup

/-- An inode for a duplicate. -/
theorem createDuplicate {i : ℕ} {e : FileInode} (h : Laid s (.found i)) (he : s.inodes[i]? = some e) :
    Laid { s with inodes := s.inodes ++ [{ e with duplicateOf := some i }], main := .scan } .scan := by
  obtain ⟨e', he', hnone⟩ := h.found rfl
  cases he.symm.trans he'
  have hi : i < s.inodes.length := (List.getElem?_eq_some_iff.mp he).1
  refine ⟨h.placed.createDuplicate .scan, nofun, nofun, fun {k j e''} he'' hdup => ?_⟩
  rcases lt_or_ge k s.inodes.length with hk | hk
  · rw [List.getElem?_append_left hk] at he''
    obtain ⟨hlt, e', hearlier, hnone', heq⟩ := h.duplicates he'' hdup
    exact ⟨hlt, e', by rwa [List.getElem?_append_left (hlt.trans hk)], hnone', heq⟩
  · rw [List.getElem?_append_right hk] at he''
    have hlast := List.mem_singleton.mp (List.mem_of_getElem? he'')
    subst hlast
    cases hdup
    exact ⟨lt_of_lt_of_le hi hk, e, by rwa [List.getElem?_append_left hi], hnone, rfl⟩

end Laid

theorem samePlaces_writeFragment (s : Pipeline) (m : MainThread) :
    SamePlaces s { s.writeFragment with main := m } := by
  unfold writeFragment
  split <;> exact ⟨rfl, rfl, rfl, rfl⟩

/-- The first half of `get_and_fill_fragment` places nothing. -/
theorem fillFragment_eq {locked : Bool}
    (h : s.mainStep env .fillFragment (.filling locked file) = some t) :
    SamePlaces s t ∧ (t.main = .filled locked file ∨ t.main = .copying locked file) := by
  simp only [mainStep] at h
  split at h
  · cases h
    exact ⟨⟨rfl, rfl, rfl, rfl⟩, .inl rfl⟩
  · split at h
    · cases h
      exact ⟨samePlaces_writeFragment s _, .inr rfl⟩
    · cases h
      exact ⟨⟨rfl, rfl, rfl, rfl⟩, .inr rfl⟩

theorem blockBytes_append_zero (blockList : List ℕ) :
    blockBytes (blockList ++ [0]) = blockBytes blockList := by
  simp [blockBytes, compressedSizeBlock_zero]

theorem ranges_append_zero (file : OpenFile) :
    blockRanges file.start (file.blockList ++ [0]) = file.ranges := by
  rw [blockRanges_append]
  exact List.append_nil _

/-- **Every step of the main thread keeps the ranges apart.** -/
theorem mainStep_laid (h : s.mainStep env l m = some t) (hs : Laid s m) : Laid t t.main := by
  cases l with
  | writeFileBlocks =>
      cases m with
      | scan =>
          cases h
          exact hs.lock
      | _ => cases h
  | writeFileBlocksDup blocks =>
      cases m with
      | scan =>
          cases h
          exact hs.lock
      | _ => cases h
  | sparseBlock =>
      cases m with
      | writing file =>
          cases h
          exact hs.keep ⟨rfl, rfl, rfl, rfl⟩ rfl rfl (ranges_append_zero file) rfl
            (blockBytes_append_zero file.blockList) rfl
      | _ => cases h
  | dataBlock cByte buffer =>
      cases m with
      | writing file =>
          obtain ⟨⟨hne, -, hsize⟩, h⟩ := Option.ite_none_right_eq_some.mp h
          cases h
          exact hs.dataBlock hne hsize
      | _ => cases h
  | tail data =>
      cases m with
      | writing file =>
          obtain ⟨-, h⟩ := Option.ite_none_right_eq_some.mp h
          cases h
          exact hs.keep ⟨rfl, rfl, rfl, rfl⟩ rfl rfl rfl rfl rfl rfl
      | _ => cases h
  | readError =>
      cases m with
      | writing file =>
          cases h
          exact hs.undo rfl _ nofun
      | _ => cases h
  | endOfBlocks =>
      cases m with
      | writing file =>
          simp only [mainStep] at h
          split at h <;> cases h
          · exact hs.keep ⟨rfl, rfl, rfl, rfl⟩ rfl rfl rfl rfl rfl rfl
          · exact hs.keep ⟨rfl, rfl, rfl, rfl⟩ rfl rfl rfl rfl rfl rfl
      | _ => cases h
  | duplicate result =>
      cases m with
      | comparing locked file =>
          cases result with
          | none =>
              cases locked with
              | false =>
                  cases h
                  exact hs.goOn ⟨rfl, rfl, rfl, rfl⟩ rfl rfl (.inl rfl)
              | true =>
                  cases h
                  exact hs.keep ⟨rfl, rfl, rfl, rfl⟩ rfl rfl rfl rfl rfl rfl
          | some i =>
              simp only [mainStep] at h
              split at h
              case h_2 => cases h
              case h_1 e he =>
                  obtain ⟨⟨hnone, -⟩, h⟩ := Option.ite_none_right_eq_some.mp h
                  cases h
                  exact hs.duplicate he hnone
      | _ => cases result <;> cases h
  | nextHeld =>
      cases m with
      | keeping file =>
          simp only [mainStep] at h
          split at h <;> cases h
          · exact hs.keep ⟨rfl, rfl, rfl, rfl⟩ rfl rfl rfl rfl rfl rfl
          · exact hs.keep ⟨rfl, rfl, rfl, rfl⟩ rfl rfl rfl rfl rfl rfl
      | dropping file i =>
          simp only [mainStep] at h
          split at h <;> cases h
          · exact hs.undo rfl _ id
          · exact hs.keep ⟨rfl, rfl, rfl, rfl⟩ rfl rfl rfl rfl rfl rfl
      | failed held =>
          simp only [mainStep] at h
          split at h <;> cases h
          · exact hs.goOn ⟨rfl, rfl, rfl, rfl⟩ rfl rfl (.inl rfl)
          · exact hs.goOn ⟨rfl, rfl, rfl, rfl⟩ rfl rfl (.inl rfl)
      | _ => cases h
  | truncate =>
      cases m with
      | undone truncates held result =>
          cases truncates with
          | false => cases h
          | true =>
              obtain ⟨-, h⟩ := Option.ite_none_right_eq_some.mp h
              cases h
              exact hs.goOn ⟨rfl, rfl, rfl, rfl⟩ rfl rfl (.inr (by cases result <;> rfl))
      | _ => cases h
  | unlockFragments =>
      cases m with
      | written file =>
          cases h
          exact hs.unlock rfl rfl (.inl rfl)
      | undone truncates held result =>
          cases truncates with
          | true => cases h
          | false =>
              cases result with
              | none =>
                  cases h
                  exact hs.unlock rfl rfl (.inl rfl)
              | some i =>
                  cases h
                  exact hs.unlock rfl rfl (.inr rfl)
      | filled locked file =>
          cases locked with
          | false => cases h
          | true =>
              cases h
              exact hs.unlock rfl rfl (.inl rfl)
      | last =>
          cases h
          exact hs.unlock rfl rfl (.inl rfl)
      | _ => cases h
  | writeFileFrag compare data =>
      cases m with
      | scan =>
          obtain ⟨-, h⟩ := Option.ite_none_right_eq_some.mp h
          cases compare with
          | false =>
              cases h
              exact hs.goOn ⟨rfl, rfl, rfl, rfl⟩ rfl rfl (.inl rfl)
          | true =>
              cases h
              exact hs.goOn ⟨rfl, rfl, rfl, rfl⟩ rfl rfl (.inl rfl)
      | _ => cases h
  | fillFragment =>
      cases m with
      | filling locked file =>
          obtain ⟨hsame, hmain⟩ := fillFragment_eq h
          cases locked with
          | false =>
              rcases hmain with hmain | hmain <;> rw [hmain]
              · exact hs.goOn hsame rfl rfl (.inl rfl)
              · exact hs.goOn hsame rfl rfl (.inl rfl)
          | true =>
              rcases hmain with hmain | hmain <;> rw [hmain]
              · exact hs.keep hsame rfl rfl rfl rfl rfl rfl
              · exact hs.keep hsame rfl rfl rfl rfl rfl rfl
      | _ => cases h
  | copyFragment =>
      cases m with
      | copying locked file =>
          cases locked with
          | false =>
              cases h
              exact hs.goOn ⟨rfl, rfl, rfl, rfl⟩ rfl rfl (.inl rfl)
          | true =>
              cases h
              exact hs.keep ⟨rfl, rfl, rfl, rfl⟩ rfl rfl rfl rfl rfl rfl
      | _ => cases h
  | createInode =>
      cases m with
      | filled locked file =>
          cases locked with
          | true => cases h
          | false =>
              cases h
              exact hs.createInode
      | found i =>
          simp only [mainStep] at h
          split at h <;> cases h
          case h_1 e he => exact hs.createDuplicate he
      | _ => cases h
  | endOfFiles =>
      cases m with
      | scan =>
          cases h
          exact hs.goOn (samePlaces_writeFragment s .last) rfl rfl (.inl rfl)
      | _ => cases h
  | testOutstanding =>
      cases m with
      | waiting =>
          simp only [mainStep] at h
          split at h <;> cases h
          · exact hs.goOn ⟨rfl, rfl, rfl, rfl⟩ rfl rfl (.inl rfl)
          · exact hs.goOn ⟨rfl, rfl, rfl, rfl⟩ rfl rfl (.inl rfl)
      | _ => cases h
  | _ => cases h

/-- A deflator places its fragment when the fragments are not locked, so no file is being written. -/
theorem Laid.placeFragment (hs : Laid s m) (hunlocked : s.fragmentsLocked = false)
    (entry : FragLocked) : Laid (s.placeFragment entry) m := by
  refine ⟨hs.placed.placeFragment entry, fun hfile => ?_, hs.found, hs.duplicates⟩
  have hlocked := (hs.reserved hfile).fragmentsLocked
  rw [hunlocked] at hlocked
  cases hlocked

theorem Laid.same (hs : Laid s m) (hsame : SamePlaces s t) : Laid t m :=
  hs.congr hsame (.inl rfl) (fun hfile => ⟨_, hfile, rfl, rfl⟩) id

theorem deflatorStep_laid (h : s.deflatorStep env l = some t) (hs : Laid s s.main) :
    Laid t t.main := by
  rcases deflatorStep_cases h with ⟨i, fragment, data, toFrag, -, -, -, rfl⟩ |
    ⟨i, id, fragment, data, -, -, rfl⟩ |
    ⟨i, fragment, data, id, cByte, stored, -, -, -, ⟨-, rfl⟩ | ⟨hunlocked, rfl⟩⟩ |
    ⟨i, entry, -, -, rfl⟩ | ⟨i, fragment, -, -, rfl⟩
  · exact hs.same ⟨rfl, rfl, rfl, rfl⟩
  · exact hs.same ⟨rfl, rfl, rfl, rfl⟩
  · exact hs.same ⟨rfl, rfl, rfl, rfl⟩
  · exact (hs.placeFragment hunlocked _).same ⟨rfl, rfl, rfl, rfl⟩
  · exact hs.same ⟨rfl, rfl, rfl, rfl⟩
  · exact hs.same ⟨rfl, rfl, rfl, rfl⟩

theorem writerStep_laid (h : s.writerStep l = some t) (hs : Laid s s.main) : Laid t t.main := by
  unfold writerStep at h
  split at h
  all_goals repeat' split at h
  all_goals cases h
  all_goals exact hs.same ⟨rfl, rfl, rfl, rfl⟩

theorem step_laid (hs : Laid s s.main) (h : s.step env l = some t) : Laid t t.main := by
  rcases step_cases h with hmain | hdeflator | hwriter
  · exact mainStep_laid hmain hs
  · exact deflatorStep_laid hdeflator hs
  · exact writerStep_laid hwriter hs

/-! ## Whole runs -/

theorem dataRanges_start (dest : Destination) (processors : ℕ) :
    (dest.start processors).dataRanges = dest.files.flatMap FileExtent.ranges := by
  simp [dataRanges, Destination.start, List.filter_map, List.flatMap_map, Function.comp_def]

theorem fragments_apart {table : List FragmentEntry}
    (h : (table.map FragmentEntry.range).Pairwise Apart) {f g : ℕ} {a b : FragmentEntry} (hne : f ≠ g)
    (ha : table[f]? = some a) (hb : table[g]? = some b) : Apart a.range b.range := by
  rw [List.pairwise_map, List.pairwise_iff_getElem] at h
  obtain ⟨hf, rfl⟩ := List.getElem?_eq_some_iff.mp ha
  obtain ⟨hg, rfl⟩ := List.getElem?_eq_some_iff.mp hb
  rcases lt_or_gt_of_ne hne with hlt | hgt
  · exact h f g hf hg hlt
  · exact (h g f hg hf hgt).symm

theorem laid_start (dest : Destination) (processors : ℕ) : Laid (dest.start processors) .scan := by
  have hdata := dataRanges_start dest processors
  have hscan : MainThread.scan.ownRanges = [] := rfl
  obtain ⟨hblocks, hfragments, hmixed⟩ := List.pairwise_append.mp dest.apart
  have hmem : ∀ {f : ℕ} {a : FragmentEntry}, dest.fragmentTable[f]? = some a →
      a.range ∈ dest.fragmentTable.map FragmentEntry.range :=
    fun ha => List.mem_map_of_mem (List.mem_of_getElem? ha)
  refine ⟨⟨?_, ?_, ?_, ?_, ?_⟩, nofun, nofun, ?_⟩
  · rw [hdata, hscan, List.append_nil]
    exact hblocks
  · rw [hdata, hscan, List.append_nil]
    exact fun r hr => dest.below r (List.mem_append_left _ hr)
  · exact fun hne ha hb => fragments_apart hfragments hne ha hb
  · exact fun ha => dest.below _ (List.mem_append_right _ (hmem ha))
  · rw [hdata, hscan, List.append_nil]
    exact fun r hr f a ha => hmixed r hr _ (hmem ha)
  · intro k i e he hdup
    obtain ⟨file, -, rfl⟩ := List.mem_map.mp (List.mem_of_getElem? he)
    cases hdup

theorem Laid.rangesApart (h : Laid s m) : RangesApart s where
  blocks := (List.pairwise_append.mp h.placed.blocks).1
  fragments := h.placed.fragments
  blocks_fragments := fun r hr => h.placed.blocks_fragments r (List.mem_append_left _ hr)
  duplicates := h.duplicates

/-- **The output ranges never overlap**, for any files, from any destination, with any number of
deflators and in any order of the steps of the threads. -/
theorem rangesApart_of_trace (env : PipelineEnv) (dest : Destination) (processors : ℕ)
    {tr : List (Pipeline × PipelineStep)} {t : Pipeline}
    (h : Trace (Step env) (dest.start processors) tr t) : Trace.Along RangesApart tr t := by
  have hinv := h.invariant (P := fun s => Laid s s.main) (laid_start dest processors)
    fun s l t hs hstep => step_laid hs hstep
  exact ⟨fun x hx => (hinv.1 x hx).rangesApart, hinv.2.rangesApart⟩

/-- A file with a tail, another that cannot be read, and a duplicate of the first; the fragment is placed
before the last one is written. -/
theorem rangesApart_duplicate :
    ∃ tr t, Trace (Step storedEnv) (emptyDestination.start 2) tr t ∧
      t.inodes.map (fun e => (e.start, e.duplicateOf)) = [(96, none), (0, none), (0, none), (96, some 0)] ∧
      t.fragmentTable 0 = some ⟨98, 4096 ||| compressedBitBlock⟩ ∧ Trace.Along RangesApart tr t := by
  obtain ⟨tr, t, htrace, hinodes, hfragment⟩ : ∃ tr t,
      Trace (Step storedEnv) (emptyDestination.start 2) tr t ∧
        (t.inodes.map (fun e => (e.start, e.duplicateOf)) =
          [(96, none), (0, none), (0, none), (96, some 0)] ∧
            t.fragmentTable 0 = some ⟨98, 4096 ||| compressedBitBlock⟩) :=
    Trace.exists_of_run [.writeFileBlocks, .dataBlock (2 ||| compressedBitBlock) ⟨0, [1, 2], 0⟩,
      .endOfBlocks, .unlockFragments, .fillFragment, .createInode,
      .writeFileFrag false (List.replicate 4096 1), .fillFragment, .copyFragment, .createInode,
      .writeFileFrag false [2], .fillFragment, .copyFragment, .createInode,
      .takeFragment 1, .getBuffer 1 1, .writeFileBlocks,
      .dataBlock (1 ||| compressedBitBlock) ⟨2, [7], 0⟩, .testLocked 1, .writerTake, .writerWrite,
      .writerPut, .readError, .addPending 1, .writerTake, .writerWrite, .writerPut, .truncate,
      .unlockFragments, .nextHeld, .writeFileBlocksDup 1,
      .dataBlock (2 ||| compressedBitBlock) ⟨3, [1, 2], 0⟩, .endOfBlocks, .duplicate (some 0),
      .nextHeld, .nextHeld, .unlockFragments, .createInode] (by decide +kernel)
  exact ⟨tr, t, htrace, hinodes, hfragment, rangesApart_of_trace storedEnv emptyDestination 2 htrace⟩

end Pipeline

end FirmwareTools.Squashfs

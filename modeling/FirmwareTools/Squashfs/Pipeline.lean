import FirmwareTools.Squashfs.FileData
import FirmwareTools.System.Trace

/-! # The threads that write

The main thread hands data blocks to the writer and full fragments to the fragment deflators. The write
position `bytes` belongs to all of them: the deflators advance it when they have compressed a fragment,
the main thread when it queues a block, and the main thread moves it back when a file turns out to be a
duplicate or cannot be read. While a file is being written the fragments are locked, and what the
deflators finish is kept in `frag_locked_list`.

Every step here is one section under a mutex, or one operation on a queue, with what its thread does on
its own before the next one. A step that would wait in a cache for a free buffer can come at any time,
so the runs here are at least those of the program. -/

namespace FirmwareTools.Squashfs

/-- What the threads depend on besides the switches for data: the number of buffers of the writer, and
whether the destination is a block device. -/
structure PipelineEnv extends DataEnv where
  writerBufferSize : ℕ := 512
  blockDevice : Bool := false

/-! ## The state -/

/-- A `struct squashfs_fragment_entry`. -/
structure FragmentEntry where
  startBlock : ℕ
  size : ℕ
  deriving DecidableEq, Repr

/-- A buffer of the writer: which one it is, what is in it and where that is to be written. -/
structure WriteBuffer where
  id : ℕ
  data : List UInt8
  block : ℕ := 0
  deriving DecidableEq, Repr

/-- `struct frag_locked` -/
structure FragLocked where
  buffer : WriteBuffer
  cByte : ℕ
  fragment : ℕ
  deriving DecidableEq, Repr

/-- Where a `frag_deflator` is in its loop. -/
inductive FragDeflator
  /-- In `queue_get (to_frag)`. -/
  | idle
  /-- In `cache_get (writer_buffer, …)`. -/
  | took (fragment : ℕ) (data : List UInt8)
  /-- It has got a buffer and has not tested the lock. -/
  | compressing (fragment : ℕ) (data : List UInt8) (id : ℕ)
  /-- It has found the fragments locked, and is about to call `add_pending_fragment`. -/
  | foundLocked (entry : FragLocked)
  /-- The fragment is queued or pending; `cache_block_put` of the file buffer remains. -/
  | queued (fragment : ℕ)
  deriving DecidableEq, Repr

/-- Where the writer is in its loop. -/
inductive WriterThread
  | idle
  | writing (buffer : WriteBuffer)
  | wrote (buffer : WriteBuffer)
  deriving DecidableEq, Repr

/-- What `create_inode` is told of a file. -/
structure FileExtent where
  start : ℕ := 0
  blockList : List ℕ := []
  fragment : Fragment := {}
  deriving DecidableEq, Repr

/-- A file that is being written. `write_file_blocks_dup` holds the buffers from block `thresh` on back
in `buffer_list`; the other functions have no `thresh`. -/
structure OpenFile extends FileExtent where
  thresh : Option ℕ := none
  bufferList : List WriteBuffer := []
  fragmentBuffer : List UInt8 := []
  deriving DecidableEq, Repr

/-- An inode for a file with data, and of which earlier one it is a duplicate. -/
structure FileInode extends FileExtent where
  duplicateOf : Option ℕ := none
  deriving DecidableEq, Repr

/-- Where the main thread is. -/
inductive MainThread
  /-- Between two files. -/
  | scan
  /-- In the loop over the blocks; the fragments are locked. -/
  | writing (file : OpenFile)
  /-- Behind the loop of `write_file_process` or `write_file_blocks`, before `unlock_fragments`. -/
  | written (file : OpenFile)
  /-- In `duplicate`. -/
  | comparing (locked : Bool) (file : OpenFile)
  /-- No duplicate was found: the buffers held back are queued. -/
  | keeping (file : OpenFile)
  /-- A duplicate was found: the buffers held back are put. -/
  | dropping (file : OpenFile) (duplicateOf : ℕ)
  /-- `bytes` has been moved back; first the destination may have to be truncated. -/
  | undone (truncate : Bool) (held : List WriteBuffer) (duplicateOf : Option ℕ)
  /-- The file could not be read: the buffers held back are put. -/
  | failed (held : List WriteBuffer)
  /-- Before `get_and_fill_fragment`. -/
  | filling (locked : Bool) (file : OpenFile)
  /-- In `get_and_fill_fragment`, behind `write_fragment`. -/
  | copying (locked : Bool) (file : OpenFile)
  /-- Behind `get_and_fill_fragment`. -/
  | filled (locked : Bool) (file : OpenFile)
  /-- Before `create_inode` for a duplicate. -/
  | found (duplicateOf : ℕ)
  /-- Behind `restore_filesystem`: before the last `unlock_fragments`. -/
  | last
  /-- Waiting until no fragment is outstanding. -/
  | waiting
  /-- Behind that loop. -/
  | finished
  deriving DecidableEq, Repr

/-- The variables that the threads share, and where each of them is. Of a fragment that is being filled
the data is in `fragmentData`; `contents` is all that was ever put into each fragment. -/
structure Pipeline where
  bytes : ℕ
  fragmentsLocked : Bool := false
  fragLockedList : List FragLocked := []
  fragmentTable : ℕ → Option FragmentEntry
  fragmentsOutstanding : ℤ := 0
  fragments : ℕ
  fragmentData : List UInt8 := []
  contents : ℕ → List UInt8 := fun _ => []
  inodes : List FileInode
  main : MainThread := .scan
  toFrag : List (ℕ × List UInt8) := []
  deflators : List FragDeflator
  toWriter : List WriteBuffer := []
  writer : WriterThread := .idle
  disk : ℕ → Option UInt8

/-! ## What the functions do -/

namespace Pipeline

/-- `lock_fragments` -/
def lockFragments (s : Pipeline) : Pipeline := { s with fragmentsLocked := true }

/-- A fragment gets its place, and its buffer goes to the writer. -/
def placeFragment (s : Pipeline) (entry : FragLocked) : Pipeline :=
  { s with
    fragmentTable := Function.update s.fragmentTable entry.fragment (some ⟨s.bytes, entry.cByte⟩)
    bytes := s.bytes + compressedSizeBlock entry.cByte
    fragmentsOutstanding := s.fragmentsOutstanding - 1
    toWriter := s.toWriter ++ [{ entry.buffer with block := s.bytes }] }

/-- `unlock_fragments` -/
def unlockFragments (s : Pipeline) : Pipeline :=
  { s.fragLockedList.foldl placeFragment s with fragLockedList := [], fragmentsLocked := false }

/-- `add_pending_fragment` -/
def addPendingFragment (s : Pipeline) (entry : FragLocked) : Pipeline :=
  { s with fragLockedList := s.fragLockedList ++ [entry] }

/-- `write_fragment` -/
def writeFragment (s : Pipeline) : Pipeline :=
  if s.fragmentData = [] then s
  else
    { s with
      fragmentsOutstanding := s.fragmentsOutstanding + 1
      toFrag := s.toFrag ++ [(s.fragments, s.fragmentData)]
      fragments := s.fragments + 1
      fragmentData := [] }

/-- The fragment that `get_and_fill_fragment` returns. -/
def nextFragment (s : Pipeline) (data : List UInt8) : Fragment :=
  ⟨s.fragments, s.fragmentData.length, data.length⟩

/-- `get_and_fill_fragment` from `cache_get` on. -/
def copyFragment (s : Pipeline) (data : List UInt8) : Pipeline :=
  { s with
    fragmentData := s.fragmentData ++ data
    contents := Function.update s.contents s.fragments (s.contents s.fragments ++ data) }

end Pipeline

/-- `blocks - (writer_buffer_size - num_locked_fragments)`, if there are more blocks. -/
def dupThresh (env : PipelineEnv) (blocks : ℕ) (numLockedFragments : ℤ) : ℕ :=
  (blocks - (env.writerBufferSize - numLockedFragments)).toNat

/-- Whether the destination is truncated when the blocks of a file are given up. -/
def OpenFile.truncates (env : PipelineEnv) (file : OpenFile) : Bool :=
  !env.blockDevice && file.thresh != some 0

/-- A buffer in the list of blocks, or none for a block of zeros; held back or queued. -/
def OpenFile.holds (file : OpenFile) : Bool :=
  match file.thresh with
  | none => false
  | some thresh => decide (thresh ≤ file.blockList.length)

/-- Writing at a place on the disk. -/
def writeBytes (disk : ℕ → Option UInt8) (off : ℕ) (data : List UInt8) : ℕ → Option UInt8 :=
  fun p => if off ≤ p ∧ p < off + data.length then data[p - off]? else disk p

/-- `ftruncate` -/
def ftruncate (disk : ℕ → Option UInt8) (bytes : ℕ) : ℕ → Option UInt8 :=
  fun p => if p < bytes then disk p else none

/-! ## The steps -/

/-- The steps of the threads, with what comes from elsewhere: the blocks of the files, and whether
`duplicate` finds one. -/
inductive PipelineStep
  /-- `write_file_process` and `write_file_blocks` begin. -/
  | writeFileBlocks
  /-- `write_file_blocks_dup` begins, with a file of so many blocks. -/
  | writeFileBlocksDup (blocks : ℕ)
  /-- The next block is one of zeros that is not stored. -/
  | sparseBlock
  /-- The next block, in a buffer of the writer. -/
  | dataBlock (cByte : ℕ) (buffer : WriteBuffer)
  /-- The next buffer is the tail of the file. -/
  | tail (data : List UInt8)
  /-- The next buffer has its error flag set. -/
  | readError
  /-- The blocks of the file have come to an end. -/
  | endOfBlocks
  /-- `duplicate` returns, with the file it has found if there is one. -/
  | duplicate (result : Option ℕ)
  /-- The next buffer that was held back is queued or put. -/
  | nextHeld
  /-- The writer has written everything, and the destination is truncated. -/
  | truncate
  /-- `unlock_fragments` -/
  | unlockFragments
  /-- `write_file_frag`, or `write_file_frag_dup` if there are files to compare with. -/
  | writeFileFrag (compare : Bool) (data : List UInt8)
  /-- The first half of `get_and_fill_fragment`. -/
  | fillFragment
  /-- The second half of it. -/
  | copyFragment
  /-- `create_inode` -/
  | createInode
  /-- All files are written. -/
  | endOfFiles
  /-- The test of the loop that waits for the fragments. -/
  | testOutstanding
  /-- A deflator takes a fragment from its queue. -/
  | takeFragment (thread : ℕ)
  /-- It gets a buffer of the writer. -/
  | getBuffer (thread id : ℕ)
  /-- It tests the lock. -/
  | testLocked (thread : ℕ)
  /-- It calls `add_pending_fragment`. -/
  | addPending (thread : ℕ)
  /-- It puts the file buffer. -/
  | putFragment (thread : ℕ)
  /-- The writer takes a buffer, writes it, and puts it. -/
  | writerTake
  | writerWrite
  | writerPut
  deriving DecidableEq, Repr

namespace Pipeline

/-- `read_err` and the end of `write_file_blocks_dup` for a duplicate: `bytes` goes back to `start`. -/
def undo (env : PipelineEnv) (s : Pipeline) (file : OpenFile) (held : List WriteBuffer)
    (duplicateOf : Option ℕ) : Pipeline :=
  { s with bytes := file.start, main := .undone (file.truncates env) held duplicateOf }

/-- A block that is not empty gets its place. -/
def dataBlock (s : Pipeline) (file : OpenFile) (cByte : ℕ) (buffer : WriteBuffer) : Pipeline :=
  let buffer := { buffer with block := s.bytes }
  let s := { s with bytes := s.bytes + buffer.data.length }
  let blockList := file.blockList ++ [cByte]
  if file.holds then
    { s with main := .writing { file with blockList, bufferList := file.bufferList ++ [buffer] } }
  else { s with main := .writing { file with blockList }, toWriter := s.toWriter ++ [buffer] }

/-- The steps of the main thread. -/
def mainStep (env : PipelineEnv) (s : Pipeline) : PipelineStep → MainThread → Option Pipeline
  | .writeFileBlocks, .scan =>
    some { s.lockFragments with main := .writing { start := s.bytes } }
  | .writeFileBlocksDup blocks, .scan =>
    let thresh := dupThresh env blocks s.fragmentsOutstanding
    some { s.lockFragments with main := .writing { start := s.bytes, thresh } }
  | .sparseBlock, .writing file =>
    some { s with main := .writing { file with blockList := file.blockList ++ [0] } }
  | .dataBlock cByte buffer, .writing file =>
    if cByte ≠ 0 ∧ buffer.data ≠ [] ∧ compressedSizeBlock cByte = buffer.data.length then
      some (s.dataBlock file cByte buffer)
    else none
  | .tail data, .writing file =>
    if data.length ≤ env.blockSize then
      some { s with main := .writing { file with fragmentBuffer := data } }
    else none
  | .readError, .writing file => some (s.undo env file file.bufferList none)
  | .endOfBlocks, .writing file =>
    match file.thresh with
    | none => some { s with main := .written file }
    | some _ => some { s with main := .comparing true file }
  | .duplicate none, .comparing true file => some { s with main := .keeping file }
  | .duplicate none, .comparing false file => some { s with main := .filling false file }
  | .duplicate (some i), .comparing locked file =>
    match s.inodes[i]? with
    | some e =>
      if e.duplicateOf = none ∧ e.blockList = file.blockList then
        some { s with main := if locked then .dropping file i else .found i }
      else none
    | none => none
  | .nextHeld, .keeping file =>
    match file.bufferList with
    | [] => some { s with main := .filling true file }
    | buffer :: bufferList =>
      some { s with main := .keeping { file with bufferList }, toWriter := s.toWriter ++ [buffer] }
  | .nextHeld, .dropping file i =>
    match file.bufferList with
    | [] => some (s.undo env file [] (some i))
    | _ :: bufferList => some { s with main := .dropping { file with bufferList } i }
  | .nextHeld, .failed held =>
    match held with
    | [] => some { s with main := .scan }
    | _ :: held => some { s with main := .failed held }
  | .truncate, .undone true held i =>
    if s.toWriter = [] ∧ s.writer = .idle then
      some { s with disk := ftruncate s.disk s.bytes, main := .undone false held i }
    else none
  | .unlockFragments, .written file => some { s.unlockFragments with main := .filling false file }
  | .unlockFragments, .undone false _ (some i) => some { s.unlockFragments with main := .found i }
  | .unlockFragments, .undone false held none => some { s.unlockFragments with main := .failed held }
  | .unlockFragments, .filled true file => some { s.unlockFragments with main := .filled false file }
  | .unlockFragments, .last => some { s.unlockFragments with main := .waiting }
  | .writeFileFrag compare data, .scan =>
    if data.length ≤ env.blockSize then
      let file : OpenFile := { fragmentBuffer := data }
      some { s with main := if compare then .comparing false file else .filling false file }
    else none
  | .fillFragment, .filling locked file =>
    if file.fragmentBuffer = [] then some { s with main := .filled locked file }
    else if env.blockSize < s.fragmentData.length + file.fragmentBuffer.length then
      some { s.writeFragment with main := .copying locked file }
    else some { s with main := .copying locked file }
  | .copyFragment, .copying locked file =>
    let fragment := s.nextFragment file.fragmentBuffer
    some { s.copyFragment file.fragmentBuffer with main := .filled locked { file with fragment } }
  | .createInode, .filled false file =>
    some { s with inodes := s.inodes ++ [{ file with }], main := .scan }
  | .createInode, .found i =>
    match s.inodes[i]? with
    | some e => some { s with inodes := s.inodes ++ [{ e with duplicateOf := some i }], main := .scan }
    | none => none
  | .endOfFiles, .scan => some { s.writeFragment with main := .last }
  | .testOutstanding, .waiting =>
    if s.fragmentsOutstanding = 0 then some { s with main := .finished }
    else some { s with main := .waiting }
  | _, _ => none

/-- The steps of a fragment deflator. -/
def deflatorStep (env : PipelineEnv) (s : Pipeline) : PipelineStep → Option Pipeline
  | .takeFragment i =>
    match s.deflators[i]?, s.toFrag with
    | some .idle, (fragment, data) :: toFrag =>
      some { s with toFrag, deflators := s.deflators.set i (.took fragment data) }
    | _, _ => none
  | .getBuffer i id =>
    match s.deflators[i]? with
    | some (.took fragment data) =>
      some { s with deflators := s.deflators.set i (.compressing fragment data id) }
    | _ => none
  | .testLocked i =>
    match s.deflators[i]? with
    | some (.compressing fragment data id) =>
      let (cByte, stored) := mangle env.comp env.blockSize env.noF true data
      let entry : FragLocked := ⟨{ id, data := stored }, cByte, fragment⟩
      if s.fragmentsLocked then some { s with deflators := s.deflators.set i (.foundLocked entry) }
      else some { s.placeFragment entry with deflators := s.deflators.set i (.queued fragment) }
    | _ => none
  | .addPending i =>
    match s.deflators[i]? with
    | some (.foundLocked entry) =>
      some { s.addPendingFragment entry with deflators := s.deflators.set i (.queued entry.fragment) }
    | _ => none
  | .putFragment i =>
    match s.deflators[i]? with
    | some (.queued _) => some { s with deflators := s.deflators.set i .idle }
    | _ => none
  | _ => none

/-- The steps of the writer. -/
def writerStep (s : Pipeline) : PipelineStep → Option Pipeline
  | .writerTake =>
    match s.writer, s.toWriter with
    | .idle, buffer :: toWriter => some { s with toWriter, writer := .writing buffer }
    | _, _ => none
  | .writerWrite =>
    match s.writer with
    | .writing b => some { s with disk := writeBytes s.disk b.block b.data, writer := .wrote b }
    | _ => none
  | .writerPut =>
    match s.writer with
    | .wrote _ => some { s with writer := .idle }
    | _ => none
  | _ => none

/-- A step is one of the main thread, of a fragment deflator or of the writer. -/
def step (env : PipelineEnv) (s : Pipeline) (l : PipelineStep) : Option Pipeline :=
  s.mainStep env l s.main <|> s.deflatorStep env l <|> s.writerStep l

/-- What a deflator does in a step. -/
theorem deflatorStep_cases {env : PipelineEnv} {s t : Pipeline} {l : PipelineStep}
    (h : s.deflatorStep env l = some t) :
    (∃ i fragment data toFrag, l = .takeFragment i ∧ s.deflators[i]? = some .idle ∧
      s.toFrag = (fragment, data) :: toFrag ∧
      t = { s with toFrag, deflators := s.deflators.set i (.took fragment data) }) ∨
    (∃ i id fragment data, l = .getBuffer i id ∧ s.deflators[i]? = some (.took fragment data) ∧
      t = { s with deflators := s.deflators.set i (.compressing fragment data id) }) ∨
    (∃ i fragment data id cByte stored, l = .testLocked i ∧
      s.deflators[i]? = some (.compressing fragment data id) ∧
      mangle env.comp env.blockSize env.noF true data = (cByte, stored) ∧
      ((s.fragmentsLocked = true ∧
        t = { s with deflators := s.deflators.set i (.foundLocked ⟨⟨id, stored, 0⟩, cByte, fragment⟩) }) ∨
      (s.fragmentsLocked = false ∧
        t = { s.placeFragment ⟨⟨id, stored, 0⟩, cByte, fragment⟩ with
              deflators := s.deflators.set i (.queued fragment) }))) ∨
    (∃ i entry, l = .addPending i ∧ s.deflators[i]? = some (.foundLocked entry) ∧
      t = { s.addPendingFragment entry with
            deflators := s.deflators.set i (.queued entry.fragment) }) ∨
    (∃ i fragment, l = .putFragment i ∧ s.deflators[i]? = some (.queued fragment) ∧
      t = { s with deflators := s.deflators.set i .idle }) := by
  unfold deflatorStep at h
  split at h
  case h_1 i =>
      split at h
      case h_1 fragment data toFrag hidle hqueue =>
          cases h
          exact .inl ⟨i, fragment, data, toFrag, rfl, hidle, hqueue, rfl⟩
      case h_2 => cases h
  case h_2 i id =>
      split at h
      case h_1 fragment data htook =>
          cases h
          exact .inr (.inl ⟨i, id, fragment, data, rfl, htook, rfl⟩)
      case h_2 => cases h
  case h_3 i =>
      split at h
      case h_1 fragment data id hcompressing =>
          split at h
          case h_1 cByte stored hmangle =>
          refine .inr (.inr (.inl ⟨i, fragment, data, id, cByte, stored, rfl, hcompressing, hmangle, ?_⟩))
          split at h
          case isTrue hlocked =>
              cases h
              exact .inl ⟨hlocked, rfl⟩
          case isFalse hlocked =>
              cases h
              exact .inr ⟨Bool.eq_false_iff.mpr hlocked, rfl⟩
      case h_2 => cases h
  case h_4 i =>
      split at h
      case h_1 entry hfound =>
          cases h
          exact .inr (.inr (.inr (.inl ⟨i, entry, rfl, hfound, rfl⟩)))
      case h_2 => cases h
  case h_5 i =>
      split at h
      case h_1 fragment hqueued =>
          cases h
          exact .inr (.inr (.inr (.inr ⟨i, fragment, rfl, hqueued, rfl⟩)))
      case h_2 => cases h
  case h_6 => cases h

/-- The threads as a transition system. -/
abbrev Step (env : PipelineEnv) (s : Pipeline) (l : PipelineStep) (t : Pipeline) : Prop :=
  s.step env l = some t

theorem step_cases {env : PipelineEnv} {s t : Pipeline} {l : PipelineStep}
    (h : s.step env l = some t) :
    s.mainStep env l s.main = some t ∨ s.deflatorStep env l = some t ∨ s.writerStep l = some t := by
  rw [step, Option.orElse_eq_some, Option.orElse_eq_some] at h
  rcases h with hmain | ⟨-, hdeflator | ⟨-, hwriter⟩⟩
  · exact .inl hmain
  · exact .inr (.inl hdeflator)
  · exact .inr (.inr hwriter)

end Pipeline

/-! ## Where a run begins -/

/-- A range of bytes on the disk, from the first to the one behind the last. -/
abbrev ByteRange := ℕ × ℕ

/-- The ranges of two pieces of data do not overlap. -/
def Apart (r r' : ByteRange) : Prop := r.2 ≤ r'.1 ∨ r'.2 ≤ r.1

instance (r r' : ByteRange) : Decidable (Apart r r') := inferInstanceAs (Decidable (_ ∨ _))

/-- The ranges of the blocks of a list that are not empty, from a position on. -/
def blockRanges : ℕ → List ℕ → List ByteRange
  | _, [] => []
  | pos, cByte :: blockList =>
    let next := pos + compressedSizeBlock cByte
    if cByte = 0 then blockRanges pos blockList else (pos, next) :: blockRanges next blockList

/-- The ranges of the data blocks of a file. -/
def FileExtent.ranges (file : FileExtent) : List ByteRange := blockRanges file.start file.blockList

/-- The range of a fragment. -/
def FragmentEntry.range (e : FragmentEntry) : ByteRange :=
  (e.startBlock, e.startBlock + compressedSizeBlock e.size)

/-- The destination before the first file: empty but for the superblock, or an image to append to,
with the files that new ones are compared with. -/
structure Destination where
  bytes : ℕ
  files : List FileExtent := []
  fragmentTable : List FragmentEntry := []
  disk : ℕ → Option UInt8
  apart : (files.flatMap FileExtent.ranges ++ fragmentTable.map FragmentEntry.range).Pairwise Apart
  below : ∀ r ∈ files.flatMap FileExtent.ranges ++ fragmentTable.map FragmentEntry.range, r.2 ≤ bytes

/-- The state before the first file, with so many fragment deflators. -/
def Destination.start (dest : Destination) (processors : ℕ) : Pipeline where
  bytes := dest.bytes
  fragmentTable := fun f => dest.fragmentTable[f]?
  fragments := dest.fragmentTable.length
  inodes := dest.files.map fun file => { file with }
  deflators := List.replicate processors .idle
  disk := dest.disk

/-- A destination that holds nothing but the superblock. -/
def emptyDestination : Destination where
  bytes := 96
  disk := fun _ => none
  apart := List.Pairwise.nil
  below := fun _ h => absurd h List.not_mem_nil

/-- Switches and a compressor that makes nothing smaller. -/
def storedEnv : PipelineEnv where
  comp := ⟨fun _ _ => [], fun _ block => some block⟩
  blockLog := 12
  le_blockLog := fourKilobyteEnv.le_blockLog
  blockLog_le := fourKilobyteEnv.blockLog_le

end FirmwareTools.Squashfs

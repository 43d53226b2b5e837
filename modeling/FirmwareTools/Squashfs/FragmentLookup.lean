import FirmwareTools.Squashfs.BufferCache
import FirmwareTools.Squashfs.OutputRanges

/-! # Looking fragments up

When a file is compared with earlier ones, `get_fragment` gets the fragments of these. A fragment may
still be in the cache it was filled in; otherwise its data comes from the buffer that it was compressed
into, if the cache of the writer still has it, or from the disk, and how large it is and whether it is
compressed is taken from the fragment table.

The threads are those of `Pipeline`, with the two caches. The main thread is in `get_fragment` or it does
a step of `Pipeline`; the others go on meanwhile.

* **`LookupPipeline.KeepsEntry`** — the condition under which `get_fragment` gives the fragment. -/

namespace FirmwareTools.Squashfs

/-- `FRAG_INDEX` -/
def fragIndex : ℕ := 1 <<< 32

/-- `memcpy (buffer + off, data, …)` -/
def copyTo (off : ℕ) (data buffer : List UInt8) : List UInt8 :=
  buffer.take off ++ data ++ buffer.drop (off + data.length)

/-- Where the main thread is in `get_fragment`. -/
inductive FragmentLookup
  /-- Not in `get_fragment`. -/
  | idle
  /-- `cache_lookup (fragment_buffer, …)` found nothing. -/
  | missed (fragment : ℕ)
  /-- In `cache_get (fragment_buffer, …)`, with the compressed buffer if there is one. -/
  | waiting (fragment : ℕ) (compressed : Option ℕ)
  /-- Before `pthread_mutex_lock (&fragment_mutex)`. -/
  | got (fragment : ℕ) (compressed : Option ℕ) (buffer : ℕ)
  /-- It has read the entry of the fragment table. -/
  | reading (fragment : ℕ) (compressed : Option ℕ) (buffer : ℕ) (entry : FragmentEntry)
  /-- `get_fragment` has returned a buffer. -/
  | returned (fragment buffer : ℕ)
  /-- `BAD_ERROR`, or nothing could be read. -/
  | failed (fragment buffer : ℕ)
  deriving DecidableEq, Repr

/-- The threads of `Pipeline` and the two caches. Besides: which buffer each fragment was filled in, the
buffers of the writer that have been taken for data blocks, and those that the main thread has looked
up. -/
structure LookupPipeline where
  core : Pipeline
  fragmentBuffer : BufferCache
  writerBuffer : BufferCache
  fileBuffer : ℕ → ℕ := fun _ => 0
  dataBuffers : List ℕ := []
  lookedUp : List ℕ := []
  lookup : FragmentLookup := .idle

/-- The steps of the threads. -/
inductive LookupStep
  /-- A deflator gets a buffer of the writer for a data block. -/
  | getDataBuffer
  /-- The main thread looks for a data block in the cache of the writer. -/
  | lookUpBlock (start : ℕ)
  /-- It puts what it has found. -/
  | putLookedUp (id : ℕ)
  /-- `get_fragment` is called, and looks for the fragment in its cache. -/
  | getFragment (fragment : ℕ)
  /-- It looks for the compressed fragment. -/
  | lookUpCompressed
  /-- It gets a buffer. -/
  | getFragmentBuffer
  /-- It reads the fragment table. An entry that was never written is what it happens to be. -/
  | readEntry (garbage : FragmentEntry)
  /-- It fills the buffer and returns. -/
  | fillBuffer
  /-- The buffer that was returned is put. -/
  | putFragmentBuffer
  /-- A step of `Pipeline`. -/
  | core (l : PipelineStep)
  deriving DecidableEq, Repr

/-- A step of a deflator or of the writer. -/
def PipelineStep.inBackground : PipelineStep → Bool
  | .takeFragment _ | .getBuffer .. | .testLocked _ | .addPending _ | .putFragment _ | .writerTake
  | .writerWrite | .writerPut => true
  | _ => false

/-- `get_fragment` is called between files, by `pre_duplicate_frag`, and in `duplicate`. -/
def MainThread.looksUp : MainThread → Bool
  | .scan | .comparing .. => true
  | _ => false

/-- In `duplicate`. -/
def MainThread.compares : MainThread → Bool
  | .comparing .. => true
  | _ => false

/-- `read_fs_bytes` -/
def readDisk (disk : ℕ → Option UInt8) (start size : ℕ) : Option (List UInt8) :=
  (List.range size).mapM fun i => disk (start + i)

namespace LookupPipeline

/-- A fragment was handed out: it is full, or it is being filled. -/
def HandedOut (s : LookupPipeline) (fragment : ℕ) : Prop :=
  fragment < s.core.fragments ∨ fragment = s.core.fragments ∧ s.core.fragmentData ≠ []

instance (s : LookupPipeline) (fragment : ℕ) : Decidable (s.HandedOut fragment) :=
  inferInstanceAs (Decidable (_ ∨ _))

/-- The second half of `get_and_fill_fragment`, with a new buffer for a new fragment. -/
def fillFileBuffer (s : LookupPipeline) (data : List UInt8) : Option LookupPipeline :=
  let fragment := s.core.fragments
  if s.core.fragmentData = [] then
    (s.fragmentBuffer.cacheGet fragment true).map fun r => { s with
      fragmentBuffer := r.2.setData r.1 (copyTo 0 data)
      fileBuffer := Function.update s.fileBuffer fragment r.1 }
  else some { s with
    fragmentBuffer := s.fragmentBuffer.setData (s.fileBuffer fragment)
      (copyTo s.core.fragmentData.length data) }

/-- What a step of `Pipeline` does to the caches, if it need not wait for a buffer. -/
def cacheEffect (env : PipelineEnv) (s : LookupPipeline) : PipelineStep → Option LookupPipeline
  | .dataBlock _ buffer =>
    if buffer.id ∈ s.dataBuffers then some { s with
      dataBuffers := s.dataBuffers.erase buffer.id
      writerBuffer := (s.writerBuffer.setData buffer.id fun _ => buffer.data).cacheRehash buffer.id s.core.bytes }
    else none
  | .duplicate _ => if s.lookedUp = [] then some s else none
  | .nextHeld =>
    match s.core.main with
    | .dropping { bufferList := buffer :: _, .. } _ | .failed (buffer :: _) =>
      some { s with writerBuffer := s.writerBuffer.cacheBlockPut buffer.id }
    | _ => some s
  | .copyFragment =>
    match s.core.main with
    | .copying _ file => s.fillFileBuffer file.fragmentBuffer
    | _ => none
  | .getBuffer i id =>
    match s.core.deflators[i]? with
    | some (.took fragment _) =>
      (s.writerBuffer.cacheGet (fragment + fragIndex) true).bind fun r =>
        if r.1 = id then some { s with writerBuffer := r.2 } else none
    | _ => none
  | .testLocked i =>
    match s.core.deflators[i]? with
    | some (.compressing _ data id) =>
      let stored := (mangle env.comp env.blockSize env.noF true data).2
      some { s with writerBuffer := s.writerBuffer.setData id fun _ => stored }
    | _ => none
  | .putFragment i =>
    match s.core.deflators[i]? with
    | some (.queued fragment) =>
      some { s with fragmentBuffer := s.fragmentBuffer.cacheBlockPut (s.fileBuffer fragment) }
    | _ => none
  | .writerPut =>
    match s.core.writer with
    | .wrote buffer => some { s with writerBuffer := s.writerBuffer.cacheBlockPut buffer.id }
    | _ => none
  | _ => some s

/-- What `get_fragment` finds of a fragment: in the compressed buffer, or on the disk. -/
def storedData (s : LookupPipeline) (compressed : Option ℕ) (entry : FragmentEntry) :
    Option (List UInt8) :=
  match compressed with
  | some id => some ((s.writerBuffer.dataOf id).take (compressedSizeBlock entry.size))
  | none => readDisk s.core.disk entry.startBlock (compressedSizeBlock entry.size)

/-- `cache_block_put (compressed_buffer)` -/
def putCompressed (s : LookupPipeline) : Option ℕ → BufferCache
  | some id => s.writerBuffer.cacheBlockPut id
  | none => s.writerBuffer

/-- A step of the threads. -/
def step (env : PipelineEnv) (s : LookupPipeline) : LookupStep → Option LookupPipeline
  | .getDataBuffer =>
    (s.writerBuffer.cacheGet 0 false).map fun r =>
      { s with writerBuffer := r.2, dataBuffers := r.1 :: s.dataBuffers }
  | .lookUpBlock start =>
    if s.lookup = .idle ∧ s.core.main.compares = true then
      (s.writerBuffer.cacheLookup start).map fun r =>
        { s with writerBuffer := r.2, lookedUp := r.1 :: s.lookedUp }
    else none
  | .putLookedUp id =>
    if id ∈ s.lookedUp then some { s with
      writerBuffer := s.writerBuffer.cacheBlockPut id, lookedUp := s.lookedUp.erase id }
    else none
  | .getFragment fragment =>
    if s.lookup = .idle ∧ s.lookedUp = [] ∧ s.core.main.looksUp = true ∧ s.HandedOut fragment then
      match s.fragmentBuffer.cacheLookup fragment with
      | some r => some { s with fragmentBuffer := r.2, lookup := .returned fragment r.1 }
      | none => some { s with lookup := .missed fragment }
    else none
  | .lookUpCompressed =>
    match s.lookup with
    | .missed fragment =>
      match s.writerBuffer.cacheLookup (fragment + fragIndex) with
      | some r => some { s with writerBuffer := r.2, lookup := .waiting fragment (some r.1) }
      | none => some { s with lookup := .waiting fragment none }
    | _ => none
  | .getFragmentBuffer =>
    match s.lookup with
    | .waiting fragment compressed =>
      (s.fragmentBuffer.cacheGet fragment true).map fun r =>
        { s with fragmentBuffer := r.2, lookup := .got fragment compressed r.1 }
    | _ => none
  | .readEntry garbage =>
    match s.lookup with
    | .got fragment compressed buffer => some { s with
        lookup := .reading fragment compressed buffer ((s.core.fragmentTable fragment).getD garbage) }
    | _ => none
  | .fillBuffer =>
    match s.lookup with
    | .reading fragment compressed buffer entry =>
      match (s.storedData compressed entry).bind (decodeBlock env.toDataEnv entry.size) with
      | some data => some { s with
          fragmentBuffer := s.fragmentBuffer.setData buffer (copyTo 0 data)
          writerBuffer := s.putCompressed compressed, lookup := .returned fragment buffer }
      | none => some { s with lookup := .failed fragment buffer }
    | _ => none
  | .putFragmentBuffer =>
    match s.lookup with
    | .returned _ buffer => some { s with
        fragmentBuffer := s.fragmentBuffer.cacheBlockPut buffer, lookup := .idle }
    | _ => none
  | .core l =>
    if l.inBackground = true ∨ s.lookup = .idle then
      (s.cacheEffect env l).bind fun t => (s.core.step env l).map fun core => { t with core }
    else none

/-- The threads as a transition system. -/
abbrev Step (env : PipelineEnv) (s : LookupPipeline) (l : LookupStep) (t : LookupPipeline) : Prop :=
  s.step env l = some t

/-! ## What a call should give -/

/-- **The guard**: when `get_fragment` does not find a fragment in its cache, the fragment is not pending,
and the cache has more buffers than that of the fragment which is being filled; and when it looks for the
compressed fragment, the cache of the writer has no data block in its place. -/
def KeepsEntry (s : LookupPipeline) : LookupStep → Prop
  | .getFragment fragment => (s.fragmentBuffer.cacheLookup fragment).isSome = true ∨
      ((∀ entry ∈ s.core.fragLockedList, entry.fragment ≠ fragment) ∧
        (s.core.fragmentData = [] ∨ 1 < s.fragmentBuffer.maxBuffers))
  | .lookUpCompressed =>
    match s.lookup with
    | .missed fragment => ∀ b ∈ s.writerBuffer.buffers,
        b.keep = true → b.index = fragment + fragIndex → b.rehashed = false
    | _ => True
  | _ => True

instance (s : LookupPipeline) (l : LookupStep) : Decidable (s.KeepsEntry l) := by
  cases l with
  | lookUpCompressed =>
      unfold KeepsEntry
      cases s.lookup <;> infer_instance
  | getFragment fragment =>
      unfold KeepsEntry
      infer_instance
  | _ => exact instDecidableTrue

end LookupPipeline

end FirmwareTools.Squashfs

import FirmwareTools.Squashfs.ExtractCache
import FirmwareTools.Squashfs.FileWriter
import FirmwareTools.System.Trace

/-! # The threads of `unsquashfs`

The main thread gets the blocks of a file from two caches and queues them for the writer. A block that is not in
its cache is read by the reader and uncompressed by a deflator. The writer waits for each block, writes it and
takes its reference off. After a block that could not be read or written the rest of the file is skipped.

What is written is left to `FileWriter`; here the references are counted.

* **`Extraction.Inv`** — every reference belongs to a block that is queued, or to one that was skipped;
* **`writerReleases_iff`** — everything is released if and only if no block is skipped. -/

namespace FirmwareTools.Squashfs

/-! ## What the main thread asks for -/

/-- The two caches. -/
inductive CacheName
  | data
  | fragment
  deriving DecidableEq, Repr

/-- A `struct cache_entry *`. -/
abbrev BufferRef := CacheName × ℕ

/-- A block of a file: its place in a buffer, and the buffer's cache, start and stored size. A hole has none. -/
structure BlockRequest where
  offset : ℕ
  size : ℕ
  source : Option (CacheName × ℕ × ℕ)
  deriving DecidableEq, Repr

/-- The block size, `read_fragment`, and the sizes of the caches, which the options cannot make zero. -/
structure ExtractEnv where
  blockSize : ℕ
  readFragment : ℕ → ℕ × ℕ
  maxBuffers : CacheName → ℕ
  pos : ∀ name, 0 < maxBuffers name

/-- A regular file that could be created, with the block list that was read for it. -/
structure FileToWrite where
  inode : Inode
  blockList : List ℕ
  length : (blockList.length : ℤ) = inode.blocks

/-- The loop of `write_file` over the block list, from block `i` on. -/
def blockRequests (blockSize fileSize : ℕ) : ℕ → ℕ → List ℕ → List BlockRequest
  | _, _, [] => []
  | i, start, cByte :: blockList =>
    let size := if i = fileSize / blockSize % 2 ^ 32 then fileSize % blockSize else blockSize
    if cByte = 0 then ⟨0, size, none⟩ :: blockRequests blockSize fileSize (i + 1) start blockList
    else ⟨0, size, some (.data, start, cByte)⟩ ::
      blockRequests blockSize fileSize (i + 1) (start + compressedSizeBlock cByte) blockList

/-- What `write_file` queues behind a file. -/
def FileToWrite.requests (env : ExtractEnv) (f : FileToWrite) : List BlockRequest :=
  blockRequests env.blockSize f.inode.data.toNat 0 f.inode.start f.blockList ++
    if f.inode.fragBytes = 0 then []
    else [⟨f.inode.offset, f.inode.fragBytes.toNat,
      some (.fragment, (env.readFragment f.inode.fragment).1, (env.readFragment f.inode.fragment).2)⟩]

/-- The entry of a request, with the buffers that the caches have for it. -/
def BlockRequest.fileEntry (lookup : CacheName × ℕ × ℕ → DataBuffer) (r : BlockRequest) : FileEntry :=
  ⟨r.offset, r.size, r.source.map lookup⟩

/-- **What is asked for** are the entries that `write_file` queues. -/
theorem queueFile_eq_requests (env : ExtractEnv) (f : FileToWrite) (lookup : CacheName × ℕ × ℕ → DataBuffer) :
    (queueFile env.blockSize (fun start cByte => lookup (.data, start, cByte))
      (fun fragment => lookup (.fragment, env.readFragment fragment)) f.inode f.blockList).2 =
        (f.requests env).map (BlockRequest.fileEntry lookup) := by
  have hblocks : ∀ (blockList : List ℕ) (i start : ℕ),
      queueEntries env.blockSize f.inode.data.toNat (fun start cByte => lookup (.data, start, cByte)) i start blockList
        = (blockRequests env.blockSize f.inode.data.toNat i start blockList).map
            (BlockRequest.fileEntry lookup) := by
    intro blockList
    induction blockList with
    | nil => exact fun _ _ => rfl
    | cons cByte blockList ih =>
        intro i start
        unfold queueEntries blockRequests
        dsimp only
        split
        · rw [ih, List.map_cons]
          rfl
        · rw [ih, List.map_cons]
          rfl
  unfold queueFile FileToWrite.requests
  rw [List.map_append, hblocks]
  split
  · rfl
  · rfl

/-- `file->blocks` -/
def FileToWrite.blocks (f : FileToWrite) : ℕ :=
  f.blockList.length + if 0 < f.inode.fragBytes then 1 else 0

/-- What the main thread is to put into the queue of the writer: a file and the number of its blocks, or a block
of the file with this number. -/
inductive MainRequest
  | file (blocks : ℕ)
  | block (file : ℕ) (request : BlockRequest)
  deriving DecidableEq, Repr

/-- The calls of `write_file`, the first one for the file with this number. -/
def mainRequests (env : ExtractEnv) : ℕ → List FileToWrite → List MainRequest
  | _, [] => []
  | k, f :: files =>
    .file f.blocks :: (f.requests env).map (.block k) ++ mainRequests env (k + 1) files

/-! ## The threads -/

/-- A `struct file_entry`, with the number of its file. -/
structure QueuedBlock where
  file : ℕ
  offset : ℕ
  size : ℕ
  buffer : Option BufferRef
  deriving DecidableEq, Repr

/-- The entry that a block refers to, with the number of its file. -/
def QueuedBlock.ref (block : QueuedBlock) : Option (ℕ × BufferRef) :=
  block.buffer.map fun ref => (block.file, ref)

/-- What is in the queue of the writer. -/
inductive WriterItem
  | file (blocks : ℕ)
  | block (block : QueuedBlock)
  deriving DecidableEq, Repr

def WriterItem.blocks : WriterItem → List QueuedBlock
  | .file _ => []
  | .block b => [b]

/-- Where the writer is: it has no file, it is to take so many blocks more of its file, or it has one of them. -/
inductive ExtractWriter
  | idle
  | file (remaining : ℕ) (failed : Bool)
  | block (remaining : ℕ) (failed : Bool) (block : QueuedBlock)
  deriving DecidableEq, Repr

/-- The block that the writer has. -/
def ExtractWriter.hand : ExtractWriter → List QueuedBlock
  | .block _ _ b => [b]
  | _ => []

/-- The threads, their queues and the caches. The last fields are kept for what is said about them: how many
files the writer has finished, and for each file the entries that `cache_get` has returned, that
`cache_block_put` was called for, and that were skipped. -/
structure Extraction where
  caches : CacheName → BlockCache
  requests : List MainRequest
  got : Option QueuedBlock := none
  toReader : List BufferRef := []
  toDeflate : List BufferRef := []
  toWriter : List WriterItem := []
  writer : ExtractWriter := .idle
  processed : ℕ := 0
  gets : List (ℕ × BufferRef) := []
  puts : List (ℕ × BufferRef) := []
  skips : List (ℕ × BufferRef) := []

/-- One thread goes on. A read, an uncompression or a write succeeds or fails. -/
inductive ExtractStep
  | main
  | read (ok : Bool)
  | inflate (ref : BufferRef) (ok : Bool)
  | take
  | write (ok : Bool)
  | close
  deriving DecidableEq, Repr

namespace Extraction

/-- The entry behind a pointer. -/
def entry (s : Extraction) (ref : BufferRef) : CachedBlock := (s.caches ref.1).entry ref.2

/-- `queue_put (to_writer, …)`, if there is room. -/
def putWriter (s : Extraction) (item : WriterItem) : Option Extraction :=
  if s.toWriter.length < 1000 then some { s with toWriter := s.toWriter ++ [item] } else none

/-- `cache_block_ready` -/
def ready (s : Extraction) (ref : BufferRef) (error : Bool) : Extraction :=
  { s with caches := Function.update s.caches ref.1 ((s.caches ref.1).cacheBlockReady ref.2 error) }

/-- What the main thread does next: a block is got from its cache and then queued. -/
def mainStep (s : Extraction) : Option Extraction :=
  match s.got, s.requests with
  | some block, _ => { s with got := none }.putWriter (.block block)
  | none, [] => none
  | none, .file blocks :: requests => { s with requests }.putWriter (.file blocks)
  | none, .block file ⟨offset, size, none⟩ :: requests =>
    { s with requests }.putWriter (.block ⟨file, offset, size, none⟩)
  | none, .block file ⟨offset, size, some (name, start, cByte)⟩ :: requests =>
    ((s.caches name).cacheGet start cByte).map fun (e, queued, cache) =>
      { s with
        requests
        got := some ⟨file, offset, size, some (name, e)⟩
        caches := Function.update s.caches name cache
        toReader := if queued then s.toReader ++ [(name, e)] else s.toReader
        gets := s.gets ++ [(file, (name, e))] }

/-- `reader`: a block that is compressed goes on to the deflators. -/
def readerStep (s : Extraction) (ok : Bool) : Option Extraction :=
  match s.toReader with
  | [] => none
  | ref :: toReader =>
    if ok && isCompressedBlock (s.entry ref).size then
      some { s with toReader, toDeflate := s.toDeflate ++ [ref] }
    else some ({ s with toReader }.ready ref !ok)

/-- `deflator`: any of them may be the next to finish its block. -/
def deflatorStep (s : Extraction) (ref : BufferRef) (ok : Bool) : Option Extraction :=
  if ref ∈ s.toDeflate then some ({ s with toDeflate := s.toDeflate.erase ref }.ready ref !ok) else none

/-- `queue_get (to_writer)` in `writer` -/
def takeStep (s : Extraction) : Option Extraction :=
  match s.writer, s.toWriter with
  | .idle, .file blocks :: toWriter => some { s with toWriter, writer := .file blocks false }
  | .file (remaining + 1) failed, .block block :: toWriter =>
    some { s with toWriter, writer := .block remaining failed block }
  | _, _ => none

/-- The body of the loop of `writer`, for the block that it has. -/
def writeStep (s : Extraction) (ok : Bool) : Option Extraction :=
  match s.writer with
  | .block remaining failed block =>
    match block.buffer with
    | none => some { s with writer := .file remaining failed }
    | some ref =>
      if (s.entry ref).pending then none
      -- `continue`, without `cache_block_put`
      else if failed || (s.entry ref).error then
        some { s with writer := .file remaining true, skips := s.skips ++ [(block.file, ref)] }
      else some { s with
        writer := .file remaining !ok
        caches := Function.update s.caches ref.1 ((s.caches ref.1).cacheBlockPut ref.2)
        puts := s.puts ++ [(block.file, ref)] }
  | _ => none

/-- The end of a file in `writer`. -/
def closeStep (s : Extraction) : Option Extraction :=
  match s.writer with
  | .file 0 _ => some { s with writer := .idle, processed := s.processed + 1 }
  | _ => none

def step (s : Extraction) : ExtractStep → Option Extraction
  | .main => s.mainStep
  | .read ok => s.readerStep ok
  | .inflate ref ok => s.deflatorStep ref ok
  | .take => s.takeStep
  | .write ok => s.writeStep ok
  | .close => s.closeStep

/-- Before the first file. -/
def start (env : ExtractEnv) (files : List FileToWrite) : Extraction where
  caches name := { maxBuffers := env.maxBuffers name }
  requests := mainRequests env 0 files

/-- All files are written. -/
def Done (s : Extraction) : Prop :=
  s.requests = [] ∧ s.got = none ∧ s.toWriter = [] ∧ s.writer = .idle

instance (s : Extraction) : Decidable s.Done := inferInstanceAs (Decidable (_ ∧ _ ∧ _ ∧ _))

/-! ## What a step does -/

/-- Everything that a step can do. -/
inductive Moves (s : Extraction) : ExtractStep → Extraction → Prop
  | queueBlock {block : QueuedBlock} (hgot : s.got = some block) :
      Moves s .main { s with got := none, toWriter := s.toWriter ++ [.block block] }
  | queueFile {blocks : ℕ} {requests : List MainRequest} (hgot : s.got = none)
      (hrequests : s.requests = .file blocks :: requests) :
      Moves s .main { s with requests, toWriter := s.toWriter ++ [.file blocks] }
  | queueHole {file offset size : ℕ} {requests : List MainRequest} (hgot : s.got = none)
      (hrequests : s.requests = .block file ⟨offset, size, none⟩ :: requests) :
      Moves s .main { s with requests, toWriter := s.toWriter ++ [.block ⟨file, offset, size, none⟩] }
  | get {file offset size start cByte e : ℕ} {name : CacheName} {queued : Bool} {cache : BlockCache}
      {requests : List MainRequest} (hgot : s.got = none)
      (hrequests : s.requests = .block file ⟨offset, size, some (name, start, cByte)⟩ :: requests)
      (hget : (s.caches name).cacheGet start cByte = some (e, queued, cache)) :
      Moves s .main { s with
        requests
        got := some ⟨file, offset, size, some (name, e)⟩
        caches := Function.update s.caches name cache
        toReader := if queued then s.toReader ++ [(name, e)] else s.toReader
        gets := s.gets ++ [(file, (name, e))] }
  | deflate {ref : BufferRef} {toReader : List BufferRef} (hread : s.toReader = ref :: toReader) (ok : Bool) :
      Moves s (.read ok) { s with toReader, toDeflate := s.toDeflate ++ [ref] }
  | readReady {ref : BufferRef} {toReader : List BufferRef} (hread : s.toReader = ref :: toReader)
      (ok error : Bool) : Moves s (.read ok) ({ s with toReader }.ready ref error)
  | inflateReady {ref : BufferRef} (href : ref ∈ s.toDeflate) (ok error : Bool) :
      Moves s (.inflate ref ok) ({ s with toDeflate := s.toDeflate.erase ref }.ready ref error)
  | takeFile {blocks : ℕ} {toWriter : List WriterItem} (hwriter : s.writer = .idle)
      (hqueue : s.toWriter = .file blocks :: toWriter) :
      Moves s .take { s with toWriter, writer := .file blocks false }
  | takeBlock {remaining : ℕ} {failed : Bool} {block : QueuedBlock} {toWriter : List WriterItem}
      (hwriter : s.writer = .file (remaining + 1) failed) (hqueue : s.toWriter = .block block :: toWriter) :
      Moves s .take { s with toWriter, writer := .block remaining failed block }
  | hole {remaining : ℕ} {failed : Bool} {block : QueuedBlock}
      (hwriter : s.writer = .block remaining failed block) (hbuffer : block.buffer = none)
      (ok : Bool) : Moves s (.write ok) { s with writer := .file remaining failed }
  | skip {remaining : ℕ} {failed : Bool} {block : QueuedBlock} {ref : BufferRef}
      (hwriter : s.writer = .block remaining failed block) (hbuffer : block.buffer = some ref)
      (hfails : (failed || (s.entry ref).error) = true) (ok : Bool) :
      Moves s (.write ok) { s with writer := .file remaining true, skips := s.skips ++ [(block.file, ref)] }
  | put {remaining : ℕ} {failed : Bool} {block : QueuedBlock} {ref : BufferRef}
      (hwriter : s.writer = .block remaining failed block) (hbuffer : block.buffer = some ref)
      (hfine : ¬ (failed || (s.entry ref).error) = true) (ok : Bool) :
      Moves s (.write ok) { s with
        writer := .file remaining !ok
        caches := Function.update s.caches ref.1 ((s.caches ref.1).cacheBlockPut ref.2)
        puts := s.puts ++ [(block.file, ref)] }
  | close {failed : Bool} (hwriter : s.writer = .file 0 failed) :
      Moves s .close { s with writer := .idle, processed := s.processed + 1 }

variable {s t : Extraction} {l : ExtractStep}

theorem putWriter_eq_some {item : WriterItem} (h : s.putWriter item = some t) :
    t = { s with toWriter := s.toWriter ++ [item] } := by
  unfold putWriter at h
  split at h
  · exact (Option.some.inj h).symm
  · cases h

theorem mainStep_moves (h : s.mainStep = some t) : Moves s .main t := by
  unfold mainStep at h
  split at h
  · rename_i block _ hgot
    rw [putWriter_eq_some h]
    exact .queueBlock hgot
  · cases h
  · rename_i hgot hrequests
    rw [putWriter_eq_some h]
    exact .queueFile hgot hrequests
  · rename_i hgot hrequests
    rw [putWriter_eq_some h]
    exact .queueHole hgot hrequests
  · rename_i hgot hrequests
    obtain ⟨⟨e, queued, cache⟩, hget, rfl⟩ := Option.map_eq_some_iff.mp h
    exact .get hgot hrequests hget

/-- **What a step does.** -/
theorem step_moves (h : s.step l = some t) : Moves s l t := by
  cases l with
  | main => exact mainStep_moves h
  | read ok =>
      change s.readerStep ok = some t at h
      unfold readerStep at h
      split at h
      · cases h
      · rename_i hread
        split at h <;> obtain rfl := Option.some.inj h
        · exact .deflate hread ok
        · exact .readReady hread ok _
  | inflate ref ok =>
      change s.deflatorStep ref ok = some t at h
      unfold deflatorStep at h
      split at h
      · rename_i href
        obtain rfl := Option.some.inj h
        exact .inflateReady href ok _
      · cases h
  | take =>
      change s.takeStep = some t at h
      unfold takeStep at h
      split at h
      · rename_i hwriter hqueue
        obtain rfl := Option.some.inj h
        exact .takeFile hwriter hqueue
      · rename_i hwriter hqueue
        obtain rfl := Option.some.inj h
        exact .takeBlock hwriter hqueue
      · cases h
  | write ok =>
      change s.writeStep ok = some t at h
      unfold writeStep at h
      split at h
      · rename_i hwriter
        split at h
        · rename_i hbuffer
          obtain rfl := Option.some.inj h
          exact .hole hwriter hbuffer ok
        · rename_i hbuffer
          split at h
          · cases h
          · split at h
            · rename_i hfails
              obtain rfl := Option.some.inj h
              exact .skip hwriter hbuffer hfails ok
            · rename_i hfine
              obtain rfl := Option.some.inj h
              exact .put hwriter hbuffer hfine ok
      · cases h
  | close =>
      change s.closeStep = some t at h
      unfold closeStep at h
      split at h
      · rename_i hwriter
        obtain rfl := Option.some.inj h
        exact .close hwriter
      · cases h

/-! ## The references -/

/-- The blocks that the writer has not gone past, in their order. -/
def queued (s : Extraction) : List QueuedBlock :=
  s.writer.hand ++ s.toWriter.flatMap WriterItem.blocks ++ s.got.toList

/-- The references of these blocks. -/
def held (s : Extraction) : List (ℕ × BufferRef) := s.queued.filterMap QueuedBlock.ref

/-- The references that were not taken off: those of blocks that were skipped, and those of blocks to come. -/
def out (s : Extraction) : List (ℕ × BufferRef) := s.skips ++ s.held

/-- The entries of a cache. -/
def refsOf (name : CacheName) (refs : List (ℕ × BufferRef)) : List ℕ :=
  refs.filterMap fun x => if x.2.1 = name then some x.2.2 else none

/-- **What is counted**: the references that were not taken off are those that the caches count, and
together with those that were taken off they are all that were made. -/
structure Counted (s : Extraction) : Prop where
  caches : ∀ name, (s.caches name).Holds (refsOf name s.out)
  pos : ∀ name, 0 < (s.caches name).maxBuffers
  log : s.gets.Perm (s.puts ++ s.out)

/-- A block that is pending is on its way. -/
def Coming (s : Extraction) : Prop :=
  ∀ ref, (s.entry ref).pending = true → ref ∈ s.toReader ∨ ref ∈ s.toDeflate

theorem Counted.of_eq (h : s.Counted) (hcaches : t.caches = s.caches) (hout : t.out = s.out)
    (hgets : t.gets = s.gets) (hputs : t.puts = s.puts) : t.Counted where
  caches name := by
    rw [hcaches, hout]
    exact h.caches name
  pos name := by
    rw [hcaches]
    exact h.pos name
  log := by
    rw [hgets, hputs, hout]
    exact h.log

theorem refsOf_append (name : CacheName) (refs refs' : List (ℕ × BufferRef)) :
    refsOf name (refs ++ refs') = refsOf name refs ++ refsOf name refs' :=
  List.filterMap_append

theorem refsOf_singleton (name : CacheName) (k : ℕ) (ref : BufferRef) :
    refsOf name [(k, ref)] = if ref.1 = name then [ref.2] else [] := by
  unfold refsOf
  split <;> simp [*]

theorem Counted.ready (h : s.Counted) (ref : BufferRef) (error : Bool) : (s.ready ref error).Counted where
  caches name := by
    show (Function.update s.caches ref.1 _ name).Holds _
    by_cases heq : name = ref.1
    · rw [heq, Function.update_self]
      exact (h.caches ref.1).cacheBlockReady
    · rw [Function.update_of_ne heq]
      exact h.caches name
  pos name := by
    show 0 < (Function.update s.caches ref.1 _ name).maxBuffers
    by_cases heq : name = ref.1
    · rw [heq, Function.update_self]
      exact h.pos ref.1
    · rw [Function.update_of_ne heq]
      exact h.pos name
  log := h.log

/-- **Every step keeps the counts.** -/
theorem Counted.moves (h : s.Counted) (hmoves : Moves s l t) : t.Counted := by
  cases hmoves with
  | queueBlock hgot => exact h.of_eq rfl (by simp [out, held, queued, hgot, WriterItem.blocks]) rfl rfl
  | queueFile hgot _ => exact h.of_eq rfl (by simp [out, held, queued, WriterItem.blocks]) rfl rfl
  | queueHole hgot _ =>
      exact h.of_eq rfl (by simp [out, held, queued, hgot, WriterItem.blocks, QueuedBlock.ref]) rfl rfl
  | @get file offset size start cByte e name queued cache requests hgot hrequests hget =>
      have hout : ∀ caches toReader gets, ({ s with
          requests, got := some ⟨file, offset, size, some (name, e)⟩, caches, toReader, gets } : Extraction).out
            = s.out ++ [(file, (name, e))] := by
        simp [out, held, Extraction.queued, hgot, QueuedBlock.ref]
      refine ⟨fun name' => ?_, fun name' => ?_, ?_⟩
      · rw [hout, refsOf_append, refsOf_singleton]
        show (Function.update s.caches name cache name').Holds _
        by_cases heq : name' = name
        · rw [heq, Function.update_self, if_pos rfl]
          exact ((h.caches name).cacheGet hget).perm (List.perm_append_singleton e _).symm
        · rw [Function.update_of_ne heq, if_neg (Ne.symm heq), List.append_nil]
          exact h.caches name'
      · show 0 < (Function.update s.caches name cache name').maxBuffers
        by_cases heq : name' = name
        · rw [heq, Function.update_self, BlockCache.maxBuffers_cacheGet hget]
          exact h.pos name
        · rw [Function.update_of_ne heq]
          exact h.pos name'
      · rw [hout, ← List.append_assoc]
        exact h.log.append_right _
  | deflate _ _ => exact h.of_eq rfl rfl rfl rfl
  | readReady _ _ error =>
      refine Counted.ready ?_ _ error
      exact h.of_eq rfl rfl rfl rfl
  | inflateReady _ _ error =>
      refine Counted.ready ?_ _ error
      exact h.of_eq rfl rfl rfl rfl
  | takeFile hwriter hqueue =>
      exact h.of_eq rfl (by simp [out, held, queued, hwriter, hqueue, ExtractWriter.hand, WriterItem.blocks]) rfl rfl
  | takeBlock hwriter hqueue =>
      exact h.of_eq rfl (by simp [out, held, queued, hwriter, hqueue, ExtractWriter.hand, WriterItem.blocks]) rfl rfl
  | hole hwriter hbuffer _ =>
      exact h.of_eq rfl
        (by simp [out, held, queued, hwriter, ExtractWriter.hand, QueuedBlock.ref, hbuffer]) rfl rfl
  | skip hwriter hbuffer _ _ =>
      exact h.of_eq rfl
        (by simp [out, held, queued, hwriter, ExtractWriter.hand, QueuedBlock.ref, hbuffer]) rfl rfl
  | @put remaining failed block ref hwriter hbuffer hfine ok =>
      have hout : s.out.Perm ((block.file, ref) :: ({ s with
          writer := .file remaining !ok
          caches := Function.update s.caches ref.1 ((s.caches ref.1).cacheBlockPut ref.2)
          puts := s.puts ++ [(block.file, ref)] } : Extraction).out) := by
        simp [out, held, queued, hwriter, ExtractWriter.hand, QueuedBlock.ref, hbuffer]
      have hrefs : ∀ name, (refsOf name s.out).Perm _ := fun name => hout.filterMap _
      refine ⟨fun name => ?_, fun name => ?_, ?_⟩
      · show (Function.update s.caches ref.1 _ name).Holds _
        by_cases heq : name = ref.1
        · rw [heq, Function.update_self]
          have hholds := (h.caches ref.1).perm (hrefs ref.1)
          rw [List.filterMap_cons, if_pos rfl] at hholds
          exact hholds.cacheBlockPut
        · rw [Function.update_of_ne heq]
          have hholds := (h.caches name).perm (hrefs name)
          rw [List.filterMap_cons, if_neg (Ne.symm heq)] at hholds
          exact hholds
      · show 0 < (Function.update s.caches ref.1 _ name).maxBuffers
        by_cases heq : name = ref.1
        · rw [heq, Function.update_self]
          exact h.pos ref.1
        · rw [Function.update_of_ne heq]
          exact h.pos name
      · rw [List.append_assoc]
        exact h.log.trans (hout.append_left _)
  | close hwriter =>
      exact h.of_eq rfl (by simp [out, held, queued, hwriter, ExtractWriter.hand]) rfl rfl

theorem Coming.ready {ref : BufferRef} {error : Bool}
    (h : ∀ x, x ≠ ref → (s.entry x).pending = true → x ∈ s.toReader ∨ x ∈ s.toDeflate) :
    (s.ready ref error).Coming := by
  intro x hx
  change ((Function.update s.caches ref.1 ((s.caches ref.1).cacheBlockReady ref.2 error) x.1).entry x.2).pending
    = true at hx
  by_cases heq : x.1 = ref.1
  · rw [heq, Function.update_self] at hx
    obtain ⟨hne, hold⟩ := BlockCache.pending_cacheBlockReady hx
    refine h x (fun h' => hne (congrArg Prod.snd h')) ?_
    rwa [entry, heq]
  · rw [Function.update_of_ne heq] at hx
    exact h x (fun h' => heq (congrArg Prod.fst h')) hx

/-- **What is pending stays on its way.** -/
theorem Coming.moves (h : s.Coming) (hmoves : Moves s l t) : t.Coming := by
  cases hmoves with
  | queueBlock _ => exact h
  | queueFile _ _ => exact h
  | queueHole _ _ => exact h
  | @get file offset size start cByte e name queued cache requests hgot hrequests hget =>
      intro ref href
      change ((Function.update s.caches name cache ref.1).entry ref.2).pending = true at href
      have hsub : s.toReader ⊆ if queued then s.toReader ++ [(name, e)] else s.toReader := by
        split
        · exact List.subset_append_left _ _
        · exact List.Subset.refl _
      have hold : (s.entry ref).pending = true ∨ ref = (name, e) ∧ queued = true := by
        by_cases heq : ref.1 = name
        · rw [heq, Function.update_self] at href
          refine (BlockCache.pending_cacheGet hget _ href).imp (fun hp => ?_) fun hp => ⟨Prod.ext heq hp.1, hp.2⟩
          rwa [entry, heq]
        · rw [Function.update_of_ne heq] at href
          exact .inl href
      rcases hold with hp | ⟨rfl, rfl⟩
      · exact (h ref hp).imp (fun hmem => hsub hmem) id
      · exact .inl (List.mem_append_right _ (List.mem_singleton_self _))
  | @deflate ref toReader hread ok =>
      intro x hx
      rcases h x hx with hmem | hmem
      · rw [hread, List.mem_cons] at hmem
        rcases hmem with rfl | hmem
        · exact .inr (List.mem_append_right _ (List.mem_singleton_self _))
        · exact .inl hmem
      · exact .inr (List.mem_append_left _ hmem)
  | @readReady ref toReader hread ok error =>
      refine Coming.ready fun x hne hx => ?_
      have hmem := h x hx
      rw [hread, List.mem_cons] at hmem
      exact hmem.imp (fun hor => hor.resolve_left hne) id
  | @inflateReady ref href ok error =>
      exact Coming.ready fun x hne hx => (h x hx).imp id fun hmem => (List.mem_erase_of_ne hne).mpr hmem
  | takeFile _ _ => exact h
  | takeBlock _ _ => exact h
  | hole _ _ _ => exact h
  | skip _ _ _ _ => exact h
  | @put remaining failed block ref hwriter hbuffer hfine ok =>
      intro x hx
      change ((Function.update s.caches ref.1 ((s.caches ref.1).cacheBlockPut ref.2) x.1).entry x.2).pending
        = true at hx
      refine h x ?_
      by_cases heq : x.1 = ref.1
      · rw [heq, Function.update_self, BlockCache.pending_cacheBlockPut] at hx
        rwa [entry, heq]
      · rwa [Function.update_of_ne heq] at hx
  | close _ => exact h

/-! ## Whole files -/

/-- What the writer is going to see: a file and the number of its blocks, or a block of the file with this
number. -/
inductive Mark
  | file (blocks : ℕ)
  | block (file : ℕ)

def requestMark : MainRequest → Mark
  | .file blocks => .file blocks
  | .block file _ => .block file

def itemMark : WriterItem → Mark
  | .file blocks => .file blocks
  | .block block => .block block.file

/-- All that the writer has not taken. -/
def marks (s : Extraction) : List Mark :=
  s.toWriter.map itemMark ++ s.got.toList.map (fun block => .block block.file) ++ s.requests.map requestMark

/-- So many blocks more of the file before `next`, and then whole files from `next` on. -/
def Framed : ℕ → ℕ → List Mark → Prop
  | _, remaining, [] => remaining = 0
  | next, 0, .file blocks :: ms => Framed (next + 1) blocks ms
  | next, remaining + 1, .block file :: ms => file + 1 = next ∧ Framed next remaining ms
  | _, _, _ => False

theorem framed_blocks {next : ℕ} (ms : List Mark) (n : ℕ) (h : Framed (next + 1) 0 ms) :
    Framed (next + 1) n (List.replicate n (.block next) ++ ms) := by
  induction n with
  | zero => exact h
  | succ n ih => exact ⟨rfl, ih⟩

/-- Blocks of files that are finished do not come any more. -/
theorem Framed.le {next remaining file : ℕ} {ms : List Mark} (h : Framed next remaining ms)
    (hmem : .block file ∈ ms) : next ≤ file + 1 ∧ (remaining = 0 → next ≤ file) := by
  induction ms generalizing next remaining with
  | nil => exact absurd hmem List.not_mem_nil
  | cons m ms ih =>
      cases m with
      | file blocks =>
          cases remaining with
          | zero =>
              have hle := (ih h ((List.mem_cons.mp hmem).resolve_left (by simp))).1
              exact ⟨by omega, fun _ => by omega⟩
          | succ remaining => exact h.elim
      | block k =>
          cases remaining with
          | zero => exact h.elim
          | succ remaining =>
              refine ⟨?_, by simp⟩
              rcases List.mem_cons.mp hmem with heq | hmem
              · cases heq
                exact h.1.ge
              · exact (ih h.2 hmem).1

/-- How many blocks of its file the writer has not taken. -/
def remaining (s : Extraction) : ℕ :=
  match s.writer with
  | .idle => 0
  | .file remaining _ | .block remaining _ _ => remaining

/-- The number of the file behind the one that the writer has. -/
def next (s : Extraction) : ℕ :=
  match s.writer with
  | .idle => s.processed
  | _ => s.processed + 1

/-- **The order**: what the writer will see are whole files, and the block that it has is of its file. -/
structure Ordered (s : Extraction) : Prop where
  framed : Framed s.next s.remaining s.marks
  hand : ∀ b ∈ s.writer.hand, b.file = s.processed

theorem Ordered.of_eq (h : s.Ordered) (hmarks : t.marks = s.marks) (hwriter : t.writer = s.writer)
    (hprocessed : t.processed = s.processed) : t.Ordered where
  framed := by
    rw [hmarks, remaining, next, hwriter, hprocessed]
    exact h.framed
  hand := by
    rw [hwriter, hprocessed]
    exact h.hand

/-- **Every step keeps the order.** -/
theorem Ordered.moves (h : s.Ordered) (hmoves : Moves s l t) : t.Ordered := by
  have hframed := h.framed
  cases hmoves with
  | queueBlock hgot => exact h.of_eq (by simp [marks, hgot, itemMark]) rfl rfl
  | queueFile hgot hrequests => exact h.of_eq (by simp [marks, hgot, hrequests, itemMark, requestMark]) rfl rfl
  | queueHole hgot hrequests => exact h.of_eq (by simp [marks, hgot, hrequests, itemMark, requestMark]) rfl rfl
  | get hgot hrequests _ => exact h.of_eq (by simp [marks, hgot, hrequests, requestMark]) rfl rfl
  | deflate _ _ => exact h.of_eq rfl rfl rfl
  | readReady _ _ _ => exact h.of_eq rfl rfl rfl
  | inflateReady _ _ _ => exact h.of_eq rfl rfl rfl
  | @takeFile blocks toWriter hwriter hqueue =>
      refine ⟨?_, by simp [ExtractWriter.hand]⟩
      simp only [next, remaining, hwriter, marks, hqueue, List.map_cons, List.cons_append, itemMark] at hframed
      exact hframed
  | @takeBlock remaining failed block toWriter hwriter hqueue =>
      simp only [next, Extraction.remaining, hwriter, marks, hqueue, List.map_cons, List.cons_append,
        itemMark] at hframed
      exact ⟨hframed.2, by simpa [ExtractWriter.hand] using Nat.succ.inj hframed.1⟩
  | hole hwriter _ _ =>
      refine ⟨?_, by simp [ExtractWriter.hand]⟩
      simp only [next, remaining, hwriter] at hframed
      exact hframed
  | skip hwriter _ _ _ =>
      refine ⟨?_, by simp [ExtractWriter.hand]⟩
      simp only [next, remaining, hwriter] at hframed
      exact hframed
  | put hwriter _ _ _ =>
      refine ⟨?_, by simp [ExtractWriter.hand]⟩
      simp only [next, remaining, hwriter] at hframed
      exact hframed
  | close hwriter =>
      refine ⟨?_, by simp [ExtractWriter.hand]⟩
      simp only [next, remaining, hwriter] at hframed
      exact hframed

/-- What was got for a file that is finished is not held. -/
theorem Ordered.le_of_held (h : s.Ordered) {x : ℕ × BufferRef} (hx : x ∈ s.held) : s.processed ≤ x.1 := by
  obtain ⟨b, hb, href⟩ := List.mem_filterMap.mp hx
  obtain ⟨ref, -, rfl⟩ := Option.map_eq_some_iff.mp href
  show s.processed ≤ b.file
  have hmarks : b ∈ s.writer.hand ∨ .block b.file ∈ s.marks := by
    rw [queued, List.append_assoc, List.mem_append] at hb
    refine hb.imp id fun hb => ?_
    rw [marks, List.mem_append]
    rcases List.mem_append.mp hb with hb | hb
    · obtain ⟨item, hitem, hblock⟩ := List.mem_flatMap.mp hb
      cases item with
      | file blocks => exact absurd hblock List.not_mem_nil
      | block b' =>
          obtain rfl := List.mem_singleton.mp hblock
          exact .inl (List.mem_append_left _ (List.mem_map.mpr ⟨_, hitem, rfl⟩))
    · exact .inl (List.mem_append_right _ (List.mem_map.mpr ⟨b, hb, rfl⟩))
  rcases hmarks with hhand | hmark
  · exact (h.hand b hhand).ge
  · obtain ⟨hle, hzero⟩ := h.framed.le hmark
    unfold next at hle hzero
    unfold remaining at hzero
    split at hle
    · rename_i hwriter
      simp only [hwriter] at hzero
      exact hzero trivial
    · omega

/-! ### The calls of `write_file` -/

theorem length_blockRequests (blockSize fileSize : ℕ) (blockList : List ℕ) (i start : ℕ) :
    (blockRequests blockSize fileSize i start blockList).length = blockList.length := by
  induction blockList generalizing i start with
  | nil => rfl
  | cons cByte blockList ih =>
      unfold blockRequests
      dsimp only
      split
      · rw [List.length_cons, ih, List.length_cons]
      · rw [List.length_cons, ih, List.length_cons]

/-- `file->blocks` counts what is queued behind the file, if its last part is not negative. -/
theorem length_requests (env : ExtractEnv) {f : FileToWrite} (hfrag : 0 ≤ f.inode.fragBytes) :
    (f.requests env).length = f.blocks := by
  unfold FileToWrite.requests FileToWrite.blocks
  rw [List.length_append, length_blockRequests]
  congr 1
  by_cases hzero : f.inode.fragBytes = 0
  · rw [if_pos hzero, if_neg (by omega)]
    rfl
  · rw [if_neg hzero, if_pos (by omega)]
    rfl

theorem framed_mainRequests (env : ExtractEnv) (files : List FileToWrite)
    (hfrag : ∀ f ∈ files, 0 ≤ f.inode.fragBytes) (k : ℕ) :
    Framed k 0 ((mainRequests env k files).map requestMark) := by
  induction files generalizing k with
  | nil => rfl
  | cons f files ih =>
      rw [List.forall_mem_cons] at hfrag
      have hmap : ((f.requests env).map (MainRequest.block k)).map requestMark
          = List.replicate f.blocks (.block k) := by
        rw [List.map_map, ← length_requests env hfrag.1]
        exact List.map_const'
      rw [mainRequests, List.cons_append, List.map_cons, List.map_append, hmap]
      exact framed_blocks _ _ (ih hfrag.2 (k + 1))

/-! ## Blocks that are skipped -/

/-- The writer does not skip a block: where it goes on with one that has a buffer, there was no error yet. -/
def Heeds (s : Extraction) (l : ExtractStep) : Prop :=
  ∀ ok remaining failed block ref, l = .write ok → s.writer = .block remaining failed block →
    block.buffer = some ref → failed = false ∧ (s.entry ref).error = false

theorem skips_of_heeds (hmoves : Moves s l t) (hheeds : s.Heeds l) : t.skips = s.skips := by
  cases hmoves with
  | skip hwriter hbuffer hfails ok =>
      have hfine := hheeds ok _ _ _ _ rfl hwriter hbuffer
      rw [hfine.1, hfine.2] at hfails
      cases hfails
  | _ => rfl

theorem skips_subset (hmoves : Moves s l t) : s.skips ⊆ t.skips := by
  cases hmoves with
  | skip _ _ _ _ => exact List.subset_append_left _ _
  | _ => exact List.Subset.refl _

theorem skips_ne_nil (hmoves : Moves s l t) (hheeds : ¬ s.Heeds l) : t.skips ≠ [] := by
  cases hmoves with
  | skip _ _ _ _ => exact List.append_ne_nil_of_right_ne_nil _ (List.cons_ne_nil _ _)
  | hole hwriter hbuffer _ =>
      refine absurd ?_ hheeds
      rintro ok remaining failed block ref - hwriter' hbuffer'
      cases hwriter.symm.trans hwriter'
      cases hbuffer.symm.trans hbuffer'
  | put hwriter hbuffer hfine _ =>
      refine absurd ?_ hheeds
      rintro ok remaining failed block ref - hwriter' hbuffer'
      cases hwriter.symm.trans hwriter'
      cases hbuffer.symm.trans hbuffer'
      simpa using hfine
  | _ => exact absurd (fun _ _ _ _ _ hlabel => nomatch hlabel) hheeds

/-- If nothing was skipped at the end of a run, then every step has heeded. -/
theorem heeds_of_skips {tr : List (Extraction × ExtractStep)}
    (hrun : Trace (fun s l t => step s l = some t) s tr t) (hnil : t.skips = []) : ∀ x ∈ tr, x.1.Heeds x.2 := by
  suffices hboth : s.skips = [] ∧ ∀ x ∈ tr, x.1.Heeds x.2 from hboth.2
  induction hrun with
  | nil s => exact ⟨hnil, by simp⟩
  | @cons s t u l tr hstep _ ih =>
      obtain ⟨hrest, hheeds⟩ := ih hnil
      have hmoves := step_moves hstep
      rw [List.forall_mem_cons]
      refine ⟨List.subset_nil.mp (hrest ▸ skips_subset hmoves), ?_, hheeds⟩
      by_contra hnot
      exact skips_ne_nil hmoves hnot hrest

/-! ## No thread waits for ever -/

/-- What is left to do: a bound for the number of steps. -/
def work (s : Extraction) : ℕ :=
  6 * s.requests.length + 3 * s.got.toList.length + 2 * s.toReader.length + s.toDeflate.length +
    2 * s.toWriter.length + match s.writer with
      | .idle => 0
      | .file _ _ => 1
      | .block _ _ _ => 2

/-- **Every step does something.** -/
theorem work_lt (hmoves : Moves s l t) : t.work < s.work := by
  cases hmoves with
  | queueBlock hgot => simp [work, hgot]; omega
  | queueFile hgot hrequests => simp [work, hrequests]; omega
  | queueHole hgot hrequests => simp [work, hrequests]; omega
  | @get _ _ _ _ _ _ _ queued _ _ hgot hrequests _ =>
      cases queued <;> simp [work, hgot, hrequests] <;> omega
  | deflate hread _ => simp [work, hread]; omega
  | readReady hread _ _ => simp [work, ready, hread]
  | @inflateReady ref href _ _ =>
      have hpos := List.length_pos_of_mem href
      simp only [work, ready, List.length_erase_of_mem href]
      omega
  | takeFile hwriter hqueue => simp [work, hwriter, hqueue]; omega
  | takeBlock hwriter hqueue => simp [work, hwriter, hqueue]; omega
  | hole hwriter _ _ => simp [work, hwriter]
  | skip hwriter _ _ _ => simp [work, hwriter]
  | put hwriter _ _ _ => simp [work, hwriter]
  | close hwriter => simp [work, hwriter]

/-- **The main thread goes on** if the writer has nothing: then no entry is in use. -/
theorem exists_mainStep (h : s.Counted) (hskips : s.skips = []) (hqueue : s.toWriter = [])
    (hhand : s.writer.hand = []) (hmore : s.got ≠ none ∨ s.requests ≠ []) : ∃ t, s.step .main = some t := by
  show ∃ t, s.mainStep = some t
  have hroom : ∀ (s' : Extraction) item, s'.toWriter = s.toWriter → ∃ t, s'.putWriter item = some t := by
    intro s' item hsame
    refine ⟨_, if_pos ?_⟩
    rw [hsame, hqueue]
    exact Nat.zero_lt_succ _
  unfold mainStep
  split
  · exact hroom _ _ rfl
  · rename_i hgot hrequests
    exact hmore.elim (absurd hgot) (absurd hrequests)
  · exact hroom _ _ rfl
  · exact hroom _ _ rfl
  · rename_i file offset size name start cByte requests hgot hrequests
    have hnone : s.out = [] := by simp [out, held, Extraction.queued, hskips, hqueue, hhand, hgot]
    have hcache := h.caches name
    rw [hnone] at hcache
    obtain ⟨r, hr⟩ := Option.isSome_iff_exists.mp (hcache.cacheGet_isSome (h.pos name) start cByte)
    exact ⟨_, by rw [hr]; rfl⟩

theorem exists_readerStep {ref : BufferRef} (hmem : ref ∈ s.toReader) : ∃ t, s.step (.read true) = some t := by
  show ∃ t, s.readerStep true = some t
  unfold readerStep
  split
  · rename_i hnil
    rw [hnil] at hmem
    exact absurd hmem List.not_mem_nil
  · split
    · exact ⟨_, rfl⟩
    · exact ⟨_, rfl⟩

/-- **As long as nothing was skipped, some thread goes on** until all files are written. -/
theorem exists_step (h : s.Counted) (hcoming : s.Coming) (hord : s.Ordered) (hskips : s.skips = [])
    (hdone : ¬ s.Done) : ∃ l t, s.step l = some t := by
  have hframed := hord.framed
  cases hwriter : s.writer with
  | idle =>
      cases hqueue : s.toWriter with
      | nil =>
          refine ⟨.main, exists_mainStep h hskips hqueue (by rw [hwriter]; rfl) ?_⟩
          by_contra hnone
          rw [not_or, not_not, not_not] at hnone
          exact hdone ⟨hnone.2, hnone.1, hqueue, hwriter⟩
      | cons item toWriter =>
          cases item with
          | file blocks => exact ⟨.take, _, by show s.takeStep = _; rw [takeStep, hwriter, hqueue]⟩
          | block block =>
              simp only [next, remaining, marks, hwriter, hqueue, List.map_cons, itemMark, List.cons_append] at hframed
              exact hframed.elim
  | file n failed =>
      cases n with
      | zero =>
          refine ⟨.close, ?_⟩
          show ∃ t, s.closeStep = some t
          rw [closeStep, hwriter]
          exact ⟨_, rfl⟩
      | succ n =>
          cases hqueue : s.toWriter with
          | nil =>
              refine ⟨.main, exists_mainStep h hskips hqueue (by rw [hwriter]; rfl) ?_⟩
              by_contra hnone
              rw [not_or, not_not, not_not] at hnone
              -- the main thread has queued all blocks of the file
              simp only [next, remaining, marks, hwriter, hqueue, hnone.1, hnone.2, List.map_nil, Option.toList_none,
                List.append_nil] at hframed
              exact absurd hframed (Nat.succ_ne_zero n)
          | cons item toWriter =>
              cases item with
              | file blocks =>
                  simp only [next, remaining, marks, hwriter, hqueue, List.map_cons, itemMark,
                    List.cons_append] at hframed
                  exact hframed.elim
              | block block => exact ⟨.take, _, by show s.takeStep = _; rw [takeStep, hwriter, hqueue]⟩
  | block n failed block =>
      cases hbuffer : block.buffer with
      | none =>
          refine ⟨.write true, ?_⟩
          show ∃ t, s.writeStep true = some t
          rw [writeStep, hwriter]
          dsimp only
          rw [hbuffer]
          exact ⟨_, rfl⟩
      | some ref =>
          cases hpending : (s.entry ref).pending with
          | true =>
              rcases hcoming ref hpending with hmem | hmem
              · exact ⟨.read true, exists_readerStep hmem⟩
              · exact ⟨.inflate ref true, _, if_pos hmem⟩
          | false =>
              refine ⟨.write true, ?_⟩
              show ∃ t, s.writeStep true = some t
              rw [writeStep, hwriter]
              dsimp only
              rw [hbuffer]
              dsimp only
              rw [if_neg (by simp [hpending])]
              split
              · exact ⟨_, rfl⟩
              · exact ⟨_, rfl⟩

/-! ## What is released -/

/-- Everything that is kept. -/
structure Inv (s : Extraction) : Prop where
  counted : s.Counted
  coming : s.Coming
  ordered : s.Ordered

theorem inv_start (env : ExtractEnv) {files : List FileToWrite} (hfrag : ∀ f ∈ files, 0 ≤ f.inode.fragBytes) :
    (start env files).Inv where
  counted := ⟨fun _ => BlockCache.holds_nil _, env.pos, .refl _⟩
  coming ref hpending := by cases hpending
  ordered := ⟨framed_mainRequests env files hfrag 0, fun b hb => absurd hb List.not_mem_nil⟩

theorem Inv.moves (h : s.Inv) (hmoves : Moves s l t) : t.Inv :=
  ⟨h.counted.moves hmoves, h.coming.moves hmoves, h.ordered.moves hmoves⟩

/-- For every file that is finished, each entry that `cache_get` has returned was put back once; when all are
finished, no entry is in use; and until then no thread waits for ever. -/
structure Releases (s : Extraction) : Prop where
  files : ∀ k < s.processed, (s.gets.filter (·.1 = k)).Perm (s.puts.filter (·.1 = k))
  unused : s.Done → ∀ name e, ((s.caches name).entry e).used = 0
  goesOn : ¬ s.Done → ∃ l t, s.step l = some t

theorem held_of_done (hdone : s.Done) : s.held = [] := by
  obtain ⟨-, hgot, hqueue, hwriter⟩ := hdone
  simp [held, queued, hgot, hqueue, hwriter, ExtractWriter.hand]

theorem Inv.releases (h : s.Inv) (hskips : s.skips = []) : s.Releases where
  files k hk := by
    have hheld : s.held.filter (·.1 = k) = [] := by
      refine List.filter_eq_nil_iff.mpr fun x hx heq => ?_
      have hle := h.ordered.le_of_held hx
      rw [of_decide_eq_true heq] at hle
      exact absurd hk (Nat.not_lt.mpr hle)
    have hperm := h.counted.log.filter (·.1 = k)
    rwa [out, hskips, List.nil_append, List.filter_append, hheld, List.append_nil] at hperm
  unused hdone name e := by
    rw [(h.counted.caches name).used, out, hskips, held_of_done hdone]
    rfl
  goesOn hdone := exists_step h.counted h.coming h.ordered hskips hdone

/-- What was skipped stays in use. -/
theorem Inv.skips_eq_nil (h : s.Inv) (hdone : s.Done) (hreleases : s.Releases) : s.skips = [] := by
  refine List.eq_nil_iff_forall_not_mem.mpr fun x hx => ?_
  have hzero := hreleases.unused hdone x.2.1 x.2.2
  rw [(h.counted.caches x.2.1).used, List.count_eq_zero] at hzero
  refine hzero (List.mem_filterMap.mpr ⟨x, List.mem_append_left _ hx, if_pos rfl⟩)

/-- Caches of one buffer, which is all that one megabyte has room for. -/
def megabyteEnv : ExtractEnv := ⟨2 ^ 20, fun _ => (0, 0), fun _ => 1, fun _ => Nat.one_pos⟩

/-- A file of one block, which is stored in 100 bytes. -/
def oneBlockFile (start : ℕ) : FileToWrite where
  inode :=
    { blocks := 1, data := 2 ^ 20, gid := 0, inodeNumber := 1, mode := 420, start, time := 0, type := .file, uid := 0 }
  blockList := [100]
  length := rfl

/-- The file is read, uncompressed and written. -/
def oneBlockSteps (ok : Bool) : List ExtractStep :=
  [.main, .main, .main, .read true, .inflate (.data, 0) ok, .take, .take, .write true, .close]

theorem fragBytes_oneBlockFile : ∀ f ∈ [oneBlockFile 96], 0 ≤ f.inode.fragBytes := by
  intro f hf
  rw [List.mem_singleton.mp hf]
  exact le_rfl

end Extraction

end FirmwareTools.Squashfs

import FirmwareTools.Squashfs.PendingFragments

/-! # The threads that read and compress

The reader numbers the blocks of all files and queues them for the deflators. A deflator compresses a
block into a buffer of the writer, unless it is a hole or the tail of a file; the main thread takes the
blocks in the order of their numbers, and what comes too early waits for its turn. All buffers of the
writer are from one cache: those that the deflators and the fragment deflators have filled, those that
`write_file_blocks_dup` holds back, and those that are to be written.

The main thread, the fragment deflators and the writer are those of `Pipeline`. Here the buffers are
counted, and the blocks are numbers. The queues and the cache of the reader are left without a bound, so
the runs here are at least those of the program.

* **`DataPipeline.parked`** — the buffers that do not come back by themselves;
* **`DataPipeline.Stuck`** — the state in which no buffer of the writer ever comes back. -/

namespace FirmwareTools.Squashfs

/-! ## The state -/

/-- What the main thread finds in a buffer from the deflators. -/
inductive BlockKind
  /-- A compressed block, in a buffer of the writer. -/
  | data
  /-- A hole: a block with `c_byte` zero. -/
  | sparse
  /-- The tail of a file, which goes to a fragment. -/
  | tail
  /-- The error flag is set. -/
  | error
  deriving DecidableEq, Repr

/-- A block from the reader, with the size of its file; no size is the `-1` of a process that goes on. -/
structure ReadBlock where
  kind : BlockKind
  fileSize : Option ℕ
  deriving DecidableEq, Repr

/-- The block with this number needs a buffer of the writer. -/
def isData (blocks : List ReadBlock) (b : ℕ) : Bool := (blocks[b]?).any fun r => r.kind == .data

/-- Where a `deflator` is in its loop. -/
inductive DataDeflator
  /-- In `queue_get (from_reader)`. -/
  | idle
  /-- It has a block; if that is data it is in `cache_get (writer_buffer, …)`. -/
  | took (block : ℕ)
  /-- It has got a buffer of the writer. -/
  | compressing (block : ℕ)
  deriving DecidableEq, Repr

/-- The block that it holds. -/
def DataDeflator.block : DataDeflator → Option ℕ
  | .idle => none
  | .took b | .compressing b => some b

/-- The block for which it has got a buffer. -/
def DataDeflator.buffered : DataDeflator → Option ℕ
  | .compressing b => some b
  | _ => none

/-- It holds a block of data that was overtaken: a later one has a buffer. -/
def DataDeflator.overtaken (blocks : List ReadBlock) (buffered : List ℕ) : DataDeflator → Bool
  | .took b => isData blocks b && buffered.any fun c => decide (b < c)
  | _ => false

/-- If it holds a block, it waits for a buffer. -/
def DataDeflator.waits (blocks : List ReadBlock) : DataDeflator → Bool
  | .idle => true
  | .took b => isData blocks b
  | .compressing _ => false

/-- How the loop of a write function goes on: that of `write_file_process` until the size is known, the
others for so many of `n` blocks. -/
inductive BlockLoop
  | process (more : Bool)
  | blocks (n left : ℕ)
  deriving DecidableEq, Repr

/-- There is another block to get. -/
def BlockLoop.more : BlockLoop → Bool
  | .process more => more
  | .blocks _ left => decide (0 < left)

/-- A block was got. -/
def BlockLoop.next : BlockLoop → BlockLoop
  | .process _ => .process false
  | .blocks n left => .blocks n (left - 1)

/-- A block was handled. -/
def BlockLoop.handle (loop : BlockLoop) (r : ReadBlock) : BlockLoop :=
  match loop with
  | .process _ => .process r.fileSize.isNone
  | .blocks n left => .blocks n (if r.kind = .tail then 0 else left)

/-- The threads of `Pipeline`, and besides: how many blocks the reader has read, its queue, where the
deflators are, the blocks that are in the queue to the main thread or in its hash table, the number of
the block that the main thread needs next, the one that it has got and not handled, the loop it is in,
and how many buffers that are otherwise free it has got from `cache_lookup`. -/
structure DataPipeline where
  core : Pipeline
  read : ℕ := 0
  fromReader : List ℕ := []
  dataDeflators : List DataDeflator
  arrived : List ℕ := []
  sequence : ℕ := 0
  hand : Option ℕ := none
  loop : BlockLoop := .process false
  lookedUp : ℕ := 0

/-! ## Counting buffers -/

/-- The buffers that the main thread holds back. -/
def MainThread.held : MainThread → List WriteBuffer
  | .writing file | .written file | .comparing _ file | .keeping file | .dropping file _
  | .filling _ file | .copying _ file | .filled _ file => file.bufferList
  | .undone _ held _ | .failed held => held
  | _ => []

/-- A fragment deflator has a buffer of the writer. -/
def FragDeflator.holdsBuffer : FragDeflator → Bool
  | .compressing .. | .foundLocked _ => true
  | _ => false

/-- The buffers with fragments: those that are pending, and those of the deflators. -/
def Pipeline.fragBuffers (s : Pipeline) : ℕ :=
  s.fragLockedList.length + s.deflators.countP FragDeflator.holdsBuffer

namespace DataPipeline

/-- The blocks that have a buffer of the writer and are still to be taken by the main thread. -/
def buffered (blocks : List ReadBlock) (s : DataPipeline) : List ℕ :=
  s.dataDeflators.filterMap DataDeflator.buffered ++ s.arrived.filter (isData blocks)

/-- The buffers that do not come back by themselves. -/
def parked (blocks : List ReadBlock) (s : DataPipeline) : ℕ :=
  (s.buffered blocks).length + (s.hand.toList.filter (isData blocks)).length +
    s.core.main.held.length + s.core.fragBuffers

/-- The buffers that are free, on their way through the writer, or with the main thread for a look. -/
def available (env : PipelineEnv) (blocks : List ReadBlock) (s : DataPipeline) : ℕ :=
  env.writerBufferSize - s.parked blocks

/-- All buffers that are not free. -/
def inUse (blocks : List ReadBlock) (s : DataPipeline) : ℕ :=
  s.parked blocks + s.core.toWriter.length + (if s.core.writer = .idle then 0 else 1) + s.lookedUp

/-- The blocks that were overtaken: they have no buffer, and a later one has. -/
def overtaken (blocks : List ReadBlock) (s : DataPipeline) : ℕ :=
  s.dataDeflators.countP (DataDeflator.overtaken blocks (s.buffered blocks))

/-! ## The steps -/

/-- The main thread is in `get_file_buffer`. -/
def Waits (s : DataPipeline) : Prop :=
  s.hand = none ∧ match s.core.main with
    | .scan => True
    | .writing _ => s.loop.more = true
    | _ => False

instance (s : DataPipeline) : Decidable s.Waits := by
  unfold Waits
  cases s.core.main <;> infer_instance

/-- The main thread compares a file with others. -/
def Compares (s : DataPipeline) : Prop :=
  match s.core.main with
  | .comparing .. => True
  | _ => False

instance (s : DataPipeline) : Decidable s.Compares := by
  unfold Compares
  cases s.core.main <;> infer_instance

end DataPipeline

/-- The steps of the threads. -/
inductive DataStep
  /-- The reader reads a block. One with an error goes to the main thread. -/
  | readBlock
  /-- A deflator takes a block from its queue. -/
  | takeBlock (thread : ℕ)
  /-- It gets a buffer of the writer. -/
  | getBuffer (thread : ℕ)
  /-- It queues the block for the main thread. -/
  | putBlock (thread : ℕ)
  /-- `get_file_buffer` returns the next block. -/
  | getFileBuffer
  /-- The first buffer of a file is put: the file is empty, or it could not be read. -/
  | writeFileEmpty
  /-- `get_fragment` finds a buffer that is otherwise free. -/
  | lookUp
  /-- The writer puts a buffer that the main thread has looked up. -/
  | writerPutLookedUp
  /-- The main thread puts a buffer that it has looked up. -/
  | putLookedUp
  /-- A step of `Pipeline`. -/
  | core (l : PipelineStep)
  deriving DecidableEq, Repr

namespace DataPipeline

/-- The block that the main thread has got. -/
def handBlock (blocks : List ReadBlock) (s : DataPipeline) : Option ReadBlock :=
  s.hand.bind fun b => blocks[b]?

/-- The number of blocks of a file. -/
def fileBlocks (env : PipelineEnv) (size : ℕ) : ℕ := (size + env.blockSize - 1) / env.blockSize

/-- The tests of `write_file` for what it does with a file, by its first block. -/
def begins (env : PipelineEnv) (r : ReadBlock) : PipelineStep → Bool
  | .writeFileBlocks => r.kind != .error &&
      match r.fileSize with
      | none => true
      | some size => size != 0 && r.kind != .tail
  | .writeFileBlocksDup n => r.kind != .error && r.kind != .tail &&
      match r.fileSize with
      | none => false
      | some size => size != 0 && n == fileBlocks env size
  | .writeFileFrag .. => r.kind == .tail &&
      match r.fileSize with
      | none => false
      | some size => size != 0
  | _ => false

/-- The loop of the write function, by the first block. -/
def beginLoop (env : PipelineEnv) (r : ReadBlock) : BlockLoop :=
  match r.fileSize with
  | none => .process false
  | some size => .blocks (fileBlocks env size) (fileBlocks env size - 1)

/-- The kind of block that a step of the loop is for. -/
def handledKind : PipelineStep → Option BlockKind
  | .dataBlock .. => some .data
  | .sparseBlock => some .sparse
  | .tail _ => some .tail
  | .readError => some .error
  | _ => none

/-- What of the blocks and the buffers a step of `Pipeline` depends on, and what it does to them: the
block in hand and the loop afterwards. -/
def coreEffect (env : PipelineEnv) (blocks : List ReadBlock) (s : DataPipeline) (l : PipelineStep) :
    Option (Option ℕ × BlockLoop) :=
  match l with
  | .writeFileBlocks | .writeFileBlocksDup _ =>
    (s.handBlock blocks).bind fun r => if begins env r l then some (s.hand, beginLoop env r) else none
  | .writeFileFrag .. =>
    (s.handBlock blocks).bind fun r => if begins env r l then some (none, s.loop) else none
  | .dataBlock .. | .sparseBlock | .tail _ | .readError =>
    (s.handBlock blocks).bind fun r =>
      if handledKind l = some r.kind then some (none, s.loop.handle r) else none
  | .endOfBlocks => if s.hand = none ∧ s.loop.more = false then some (none, s.loop) else none
  | .endOfFiles => if s.hand = none then some (none, s.loop) else none
  | .duplicate _ => if s.lookedUp = 0 then some (s.hand, s.loop) else none
  | .getBuffer .. => if s.inUse blocks < env.writerBufferSize then some (s.hand, s.loop) else none
  | _ => some (s.hand, s.loop)

/-- A step of the threads. -/
def step (env : PipelineEnv) (blocks : List ReadBlock) (s : DataPipeline) :
    DataStep → Option DataPipeline
  | .readBlock =>
    match blocks[s.read]? with
    | some r =>
      if r.kind = .error then some { s with read := s.read + 1, arrived := s.arrived ++ [s.read] }
      else some { s with read := s.read + 1, fromReader := s.fromReader ++ [s.read] }
    | none => none
  | .takeBlock i =>
    match s.dataDeflators[i]?, s.fromReader with
    | some .idle, b :: fromReader =>
      some { s with fromReader, dataDeflators := s.dataDeflators.set i (.took b) }
    | _, _ => none
  | .getBuffer i =>
    match s.dataDeflators[i]? with
    | some (.took b) =>
      if isData blocks b ∧ s.inUse blocks < env.writerBufferSize then
        some { s with dataDeflators := s.dataDeflators.set i (.compressing b) }
      else none
    | _ => none
  | .putBlock i =>
    match s.dataDeflators[i]? with
    | some (.took b) =>
      if isData blocks b then none
      else some { s with dataDeflators := s.dataDeflators.set i .idle, arrived := s.arrived ++ [b] }
    | some (.compressing b) =>
      some { s with dataDeflators := s.dataDeflators.set i .idle, arrived := s.arrived ++ [b] }
    | _ => none
  | .getFileBuffer =>
    if s.Waits ∧ s.sequence ∈ s.arrived then
      some { s with
        arrived := s.arrived.erase s.sequence, sequence := s.sequence + 1, hand := some s.sequence
        loop := s.loop.next }
    else none
  | .writeFileEmpty =>
    match s.core.main, s.handBlock blocks with
    | .scan, some r =>
      if r.kind = .error ∨ r.fileSize = some 0 then some { s with hand := none } else none
    | _, _ => none
  | .lookUp =>
    if s.Compares ∧ s.inUse blocks < env.writerBufferSize then
      some { s with lookedUp := s.lookedUp + 1 }
    else none
  | .writerPutLookedUp =>
    if s.Compares then
      (s.core.writerStep .writerPut).map fun core => { s with core, lookedUp := s.lookedUp + 1 }
    else none
  | .putLookedUp => if 0 < s.lookedUp then some { s with lookedUp := s.lookedUp - 1 } else none
  | .core l =>
    (s.coreEffect env blocks l).bind fun e =>
      (s.core.step env l).map fun core => { s with core, hand := e.1, loop := e.2 }

/-- What the threads do in a step. -/
theorem step_cases {env : PipelineEnv} {blocks : List ReadBlock} {s t : DataPipeline} {l : DataStep}
    (h : s.step env blocks l = some t) :
    (l = .readBlock ∧ isData blocks s.read = false ∧
      t = { s with read := s.read + 1, arrived := s.arrived ++ [s.read] }) ∨
    (l = .readBlock ∧ t = { s with read := s.read + 1, fromReader := s.fromReader ++ [s.read] }) ∨
    (∃ i b fromReader, l = .takeBlock i ∧ s.dataDeflators[i]? = some .idle ∧
      s.fromReader = b :: fromReader ∧
      t = { s with fromReader, dataDeflators := s.dataDeflators.set i (.took b) }) ∨
    (∃ i b, l = .getBuffer i ∧ s.dataDeflators[i]? = some (.took b) ∧
      s.inUse blocks < env.writerBufferSize ∧
      t = { s with dataDeflators := s.dataDeflators.set i (.compressing b) }) ∨
    (∃ i d b, l = .putBlock i ∧ s.dataDeflators[i]? = some d ∧
      (d = .took b ∧ isData blocks b = false ∨ d = .compressing b) ∧
      t = { s with dataDeflators := s.dataDeflators.set i .idle, arrived := s.arrived ++ [b] }) ∨
    (l = .getFileBuffer ∧ s.Waits ∧ s.sequence ∈ s.arrived ∧ t = { s with
      arrived := s.arrived.erase s.sequence, sequence := s.sequence + 1, hand := some s.sequence
      loop := s.loop.next }) ∨
    (l = .writeFileEmpty ∧ s.core.main = .scan ∧ t = { s with hand := none }) ∨
    (l = .lookUp ∧ s.Compares ∧ t = { s with lookedUp := s.lookedUp + 1 }) ∨
    (∃ core, l = .writerPutLookedUp ∧ s.Compares ∧ s.core.writerStep .writerPut = some core ∧
      t = { s with core, lookedUp := s.lookedUp + 1 }) ∨
    (l = .putLookedUp ∧ t = { s with lookedUp := s.lookedUp - 1 }) ∨
    (∃ l' hand loop core, l = .core l' ∧ s.coreEffect env blocks l' = some (hand, loop) ∧
      s.core.step env l' = some core ∧ t = { s with core, hand, loop }) := by
  cases l with
  | readBlock =>
      simp only [step] at h
      split at h
      case h_1 r hr =>
          split at h
          case isTrue hkind =>
              cases h
              refine .inl ⟨rfl, ?_, rfl⟩
              rw [isData, hr, Option.any_some, hkind]
              rfl
          case isFalse =>
              cases h
              exact .inr (.inl ⟨rfl, rfl⟩)
      case h_2 => cases h
  | takeBlock i =>
      simp only [step] at h
      split at h
      case h_1 b fromReader hidle hqueue =>
          cases h
          exact .inr (.inr (.inl ⟨i, b, fromReader, rfl, hidle, hqueue, rfl⟩))
      case h_2 => cases h
  | getBuffer i =>
      simp only [step] at h
      split at h
      case h_1 b htook =>
          split at h
          case isTrue hdata =>
              cases h
              exact .inr (.inr (.inr (.inl ⟨i, b, rfl, htook, hdata.2, rfl⟩)))
          case isFalse => cases h
      case h_2 => cases h
  | putBlock i =>
      refine .inr (.inr (.inr (.inr (.inl ?_))))
      simp only [step] at h
      split at h
      case h_1 b htook =>
          split at h
          case isTrue => cases h
          case isFalse hdata =>
              cases h
              exact ⟨i, _, b, rfl, htook, .inl ⟨rfl, Bool.eq_false_iff.mpr hdata⟩, rfl⟩
      case h_2 b hcompressing =>
          cases h
          exact ⟨i, _, b, rfl, hcompressing, .inr rfl, rfl⟩
      case h_3 => cases h
  | getFileBuffer =>
      refine .inr (.inr (.inr (.inr (.inr (.inl ?_)))))
      simp only [step] at h
      split at h
      case isTrue hwaits =>
          cases h
          exact ⟨rfl, hwaits.1, hwaits.2, rfl⟩
      case isFalse => cases h
  | writeFileEmpty =>
      refine .inr (.inr (.inr (.inr (.inr (.inr (.inl ?_))))))
      simp only [step] at h
      split at h
      case h_1 r hmain _ =>
          split at h
          case isTrue =>
              cases h
              exact ⟨rfl, hmain, rfl⟩
          case isFalse => cases h
      case h_2 => cases h
  | lookUp =>
      refine .inr (.inr (.inr (.inr (.inr (.inr (.inr (.inl ?_)))))))
      simp only [step] at h
      split at h
      case isTrue hcompares =>
          cases h
          exact ⟨rfl, hcompares.1, rfl⟩
      case isFalse => cases h
  | writerPutLookedUp =>
      refine .inr (.inr (.inr (.inr (.inr (.inr (.inr (.inr (.inl ?_))))))))
      simp only [step] at h
      split at h
      case isTrue hcompares =>
          obtain ⟨core, hcore, rfl⟩ := Option.map_eq_some_iff.mp h
          exact ⟨core, rfl, hcompares, hcore, rfl⟩
      case isFalse => cases h
  | putLookedUp =>
      refine .inr (.inr (.inr (.inr (.inr (.inr (.inr (.inr (.inr (.inl ?_)))))))))
      simp only [step] at h
      split at h
      case isTrue =>
          cases h
          exact ⟨rfl, rfl⟩
      case isFalse => cases h
  | core l' =>
      refine .inr (.inr (.inr (.inr (.inr (.inr (.inr (.inr (.inr (.inr ?_)))))))))
      obtain ⟨⟨hand, loop⟩, heffect, h⟩ := Option.bind_eq_some_iff.mp h
      obtain ⟨core, hcore, rfl⟩ := Option.map_eq_some_iff.mp h
      exact ⟨l', hand, loop, core, rfl, heffect, hcore, rfl⟩

/-- The threads as a transition system. -/
abbrev Step (env : PipelineEnv) (blocks : List ReadBlock) (s : DataPipeline) (l : DataStep)
    (t : DataPipeline) : Prop :=
  s.step env blocks l = some t

/-! ## No way on -/

/-- **The writer's cache blocks the threads**: there are blocks that the main thread has not got, it waits
for the next one of them, every deflator that holds a block waits for a buffer of the writer, there is
none, and none comes back: the writer has nothing to write, and no fragment deflator has a buffer. -/
structure Stuck (env : PipelineEnv) (blocks : List ReadBlock) (s : DataPipeline) : Prop where
  unread : s.sequence < blocks.length
  waits : s.Waits
  missing : s.sequence ∉ s.arrived
  deflators : ∀ d ∈ s.dataDeflators, d.waits blocks = true
  noneFree : env.writerBufferSize ≤ s.inUse blocks
  toWriter : s.core.toWriter = []
  writer : s.core.writer = .idle
  fragDeflators : ∀ d ∈ s.core.deflators, d.holdsBuffer = false

instance (env : PipelineEnv) (blocks : List ReadBlock) (s : DataPipeline) :
    Decidable (s.Stuck env blocks) :=
  decidable_of_iff (s.sequence < blocks.length ∧ s.Waits ∧ s.sequence ∉ s.arrived ∧
      (∀ d ∈ s.dataDeflators, d.waits blocks = true) ∧ env.writerBufferSize ≤ s.inUse blocks ∧
      s.core.toWriter = [] ∧ s.core.writer = .idle ∧ ∀ d ∈ s.core.deflators, d.holdsBuffer = false)
    ⟨fun ⟨h₁, h₂, h₃, h₄, h₅, h₆, h₇, h₈⟩ => ⟨h₁, h₂, h₃, h₄, h₅, h₆, h₇, h₈⟩,
      fun ⟨h₁, h₂, h₃, h₄, h₅, h₆, h₇, h₈⟩ => ⟨h₁, h₂, h₃, h₄, h₅, h₆, h₇, h₈⟩⟩

/-- **The guard**: a buffer of the writer is taken only if afterwards at least as many are available as
there are blocks that were overtaken; while the fragments are locked, a fragment deflator does not take
the last buffer that is not with a fragment; and the fragments are not locked while all buffers are with
fragments. -/
def BuffersLeft (env : PipelineEnv) (blocks : List ReadBlock) (s : DataPipeline) : DataStep → Prop
  | .getBuffer i =>
    match s.dataDeflators[i]? with
    | some (.took b) =>
      ({ s with dataDeflators := s.dataDeflators.set i (.compressing b) } : DataPipeline).overtaken
        blocks < s.available env blocks
    | _ => True
  | .core (.getBuffer ..) => s.overtaken blocks < s.available env blocks ∧
      (s.core.fragmentsLocked = true → s.core.fragBuffers + 1 < env.writerBufferSize)
  | .core .writeFileBlocks | .core (.writeFileBlocksDup _) =>
    s.core.fragBuffers < env.writerBufferSize
  | _ => True

instance (env : PipelineEnv) (blocks : List ReadBlock) (s : DataPipeline) (l : DataStep) :
    Decidable (s.BuffersLeft env blocks l) := by
  unfold BuffersLeft
  split
  case h_1 => split <;> infer_instance
  all_goals infer_instance

end DataPipeline

/-- The state before the first file, with so many deflators of each kind. -/
def Destination.startData (dest : Destination) (deflators fragDeflators : ℕ) : DataPipeline where
  core := dest.start fragDeflators
  dataDeflators := List.replicate deflators .idle

end FirmwareTools.Squashfs

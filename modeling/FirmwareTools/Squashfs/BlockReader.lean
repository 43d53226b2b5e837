import FirmwareTools.Squashfs.FileData

/-! # The reader of `mksquashfs`

The reader numbers the buffers as it gets them and queues them as it goes on: those that were read for the
deflators, and the one with which a file fails for the main thread. The last buffer of a process that turns
out to be empty is given back, and so is its number.

* **`BlockReader.Numbered`** — the numbers of the buffers that the reader has;
* **`BlockReader.Numbered.step`** — what is queued has the next number. -/

namespace FirmwareTools.Squashfs

/-- The values of `error`: `FALSE`, `TRUE`, and 2 for a file that has changed and is read again. -/
inductive ReadError
  | none
  | failed
  | changed
  deriving DecidableEq, Repr

/-- A `struct file_buffer` with its number. -/
structure NumberedBuffer where
  sequence : ℕ
  data : List UInt8 := []
  size : ℤ := 0
  fileSize : ℤ := 0
  block : ℕ := 0
  cByte : ℕ := 0
  fragment : Bool := false
  error : ReadError := .none
  deriving DecidableEq, Repr

/-- The queues that the reader puts buffers into: that of the deflators and that of the main thread. -/
inductive ReaderQueue
  | fromReader
  | fromDeflate
  deriving DecidableEq, Repr

/-- Where the reader is. -/
inductive ReaderThread
  /-- Between two files. -/
  | idle
  /-- At the head of the loop of `reader_read_process`. -/
  | process (count bytes : ℕ) (prev : Option NumberedBuffer)
  /-- In `read_bytes`. -/
  | processReads (count bytes : ℕ) (prev : Option NumberedBuffer) (buffer : NumberedBuffer)
  /-- In `waitpid`. -/
  | processEnd (count bytes : ℕ) (prev : Option NumberedBuffer) (buffer : NumberedBuffer)
  /-- At `again` in `reader_read_file`. -/
  | again (readSize : ℕ)
  /-- At the head of the loop of `reader_read_file`. -/
  | file (readSize count bytes : ℕ) (buffer : Option NumberedBuffer)
  /-- In `read_bytes`. -/
  | fileReads (readSize count bytes : ℕ) (buffer : NumberedBuffer)
  /-- In the `read_bytes` behind the end of the file. -/
  | fileEnd (readSize : ℕ) (buffer : NumberedBuffer)
  /-- At `restat`. -/
  | restat (readSize : ℕ) (buffer : NumberedBuffer)
  deriving DecidableEq, Repr

/-- The buffers that it has. -/
def ReaderThread.held : ReaderThread → List NumberedBuffer
  | .idle | .again _ => []
  | .process _ _ prev => prev.toList
  | .processReads _ _ prev buffer | .processEnd _ _ prev buffer => prev.toList ++ [buffer]
  | .file _ _ _ buffer => buffer.toList
  | .fileReads _ _ _ buffer | .fileEnd _ buffer | .restat _ buffer => [buffer]

/-- The reader with its `seq`. -/
structure BlockReader where
  seq : ℕ := 0
  thread : ReaderThread := .idle
  deriving DecidableEq, Repr

/-- What the reader does next, with what the system answers. A buffer from the cache has the fields of its last
use. -/
inductive ReaderStep
  | readProcess
  | readFile (size : ℕ)
  | open (ok : Bool) (old : NumberedBuffer)
  | get (old : NumberedBuffer)
  | readBytes (res : Option (List UInt8))
  | waitpid (ok : Bool)
  | readEnd (res : Option Bool)
  | fstat (size : ℕ)
  deriving DecidableEq, Repr

namespace BlockReader

variable (env : DataEnv)

/-- `blocks` -/
def blocks (readSize : ℕ) : ℤ := toInt32 ((readSize + env.blockSize - 1) / env.blockSize : ℕ)

/-- `frag_block` -/
def fragBlock (readSize : ℕ) : ℤ :=
  if !env.noFragments && (env.alwaysUseFragments || decide (readSize < env.blockSize)) then
    toInt32 (readSize / env.blockSize : ℕ)
  else -1

/-- `expected` -/
def expected (readSize count : ℕ) : ℤ :=
  if (readSize : ℤ) - count * env.blockSize > env.blockSize then env.blockSize
  else readSize - count * env.blockSize

/-- `read_err` of `reader_read_process` -/
def processErr (r : BlockReader) (prev : Option NumberedBuffer) (buffer : NumberedBuffer) :
    BlockReader × Option (ReaderQueue × NumberedBuffer) :=
  match prev with
  | some prev => ({ seq := r.seq - 1, thread := .idle }, some (.fromDeflate, { prev with error := .failed }))
  | none => ({ r with thread := .idle }, some (.fromDeflate, { buffer with error := .failed }))

/-- `read_err` of `reader_read_file` -/
def fileErr (r : BlockReader) (buffer : NumberedBuffer) : BlockReader × Option (ReaderQueue × NumberedBuffer) :=
  ({ r with thread := .idle }, some (.fromDeflate, { buffer with error := .failed }))

/-- What follows `waitpid` in `reader_read_process`. The last read got nothing. -/
def processDone (r : BlockReader) (count bytes : ℕ) (prev : Option NumberedBuffer) (buffer : NumberedBuffer) :
    BlockReader × Option (ReaderQueue × NumberedBuffer) :=
  let fragment := !env.noFragments && (count == 2 || env.alwaysUseFragments) && decide (0 < env.blockSize)
  match prev with
  | none =>
    ({ r with thread := .idle }, some (.fromReader, { buffer with fileSize := bytes, fragment }))
  | some prev =>
    ({ seq := r.seq - 1, thread := .idle }, some (.fromReader, { prev with fileSize := bytes, fragment }))

/-- One block of a process was read. -/
def processRead (r : BlockReader) (count bytes : ℕ) (prev : Option NumberedBuffer) (buffer : NumberedBuffer)
    (data : List UInt8) : BlockReader × Option (ReaderQueue × NumberedBuffer) :=
  let buffer := { buffer with
    data, size := data.length, fileSize := -1, block := count, error := .none, fragment := false }
  if data = [] then ({ r with thread := .processEnd (count + 1) bytes prev buffer }, none)
  else ({ r with thread := .process (count + 1) (bytes + data.length) (some buffer) },
    prev.map fun prev => (.fromReader, prev))

/-- One block of a file was read. -/
def fileRead (r : BlockReader) (readSize count bytes : ℕ) (buffer : NumberedBuffer) (data : List UInt8) :
    BlockReader × Option (ReaderQueue × NumberedBuffer) :=
  let buffer := { buffer with data, size := data.length, fileSize := readSize }
  if (data.length : ℤ) ≠ expected env readSize count then ({ r with thread := .restat readSize buffer }, none)
  else
    let buffer := { buffer with
      block := count, error := .none, fragment := (count : ℤ) == fragBlock env readSize }
    if ((count + 1 : ℕ) : ℤ) < blocks env readSize then
      ({ r with thread := .file readSize (count + 1) (bytes + data.length) (some buffer) }, none)
    else if readSize ≠ bytes + data.length then ({ r with thread := .restat readSize buffer }, none)
    else if expected env readSize count = env.blockSize then
      ({ r with thread := .fileEnd readSize buffer }, none)
    else ({ r with thread := .idle }, some (.fromReader, buffer))

/-- `reader_read_process` and `reader_read_file`, up to the next answer of the system or the next buffer: what is
queued. -/
def step (r : BlockReader) (l : ReaderStep) : Option (BlockReader × Option (ReaderQueue × NumberedBuffer)) :=
  match r.thread, l with
  | .idle, .readProcess => some ({ r with thread := .process 0 0 none }, none)
  | .idle, .readFile size => some ({ r with thread := .again size }, none)
  | .process count bytes prev, .get old =>
    some ({ seq := r.seq + 1, thread := .processReads count bytes prev { old with sequence := r.seq } }, none)
  | .processReads _ _ prev buffer, .readBytes none => some (r.processErr prev buffer)
  | .processReads count bytes prev buffer, .readBytes (some data) =>
    if data.length ≤ env.blockSize then some (r.processRead count bytes prev buffer data) else none
  | .processEnd _ _ prev buffer, .waitpid false => some (r.processErr prev buffer)
  | .processEnd count bytes prev buffer, .waitpid true => some (r.processDone env count bytes prev buffer)
  | .again _, .open false old =>
    some (({ r with seq := r.seq + 1 } : BlockReader).fileErr { old with sequence := r.seq })
  | .again readSize, .open true _ => some ({ r with thread := .file readSize 0 0 none }, none)
  | .file readSize count bytes buffer, .get old =>
    some ({ seq := r.seq + 1, thread := .fileReads readSize count bytes { old with sequence := r.seq } },
      buffer.map fun buffer => (.fromReader, buffer))
  | .fileReads readSize _ _ buffer, .readBytes none =>
    some (r.fileErr { buffer with size := -1, fileSize := readSize })
  | .fileReads readSize count bytes buffer, .readBytes (some data) =>
    if data.length ≤ env.blockSize then some (r.fileRead env readSize count bytes buffer data) else none
  | .fileEnd _ buffer, .readEnd none => some (r.fileErr buffer)
  | .fileEnd readSize buffer, .readEnd (some true) => some ({ r with thread := .restat readSize buffer }, none)
  | .fileEnd _ buffer, .readEnd (some false) => some ({ r with thread := .idle }, some (.fromReader, buffer))
  | .restat readSize buffer, .fstat size =>
    if readSize ≠ size then
      some ({ r with thread := .again size }, some (.fromDeflate, { buffer with error := .changed }))
    else some (r.fileErr buffer)
  | _, _ => none

/-! ## The numbers -/

variable {env}

/-- After `n` buffers have been queued, the reader has the next ones, and no others are numbered. -/
structure Numbered (r : BlockReader) (n : ℕ) : Prop where
  held : r.thread.held.map NumberedBuffer.sequence = List.range' n r.thread.held.length
  seq : r.seq = n + r.thread.held.length

theorem numbered_start : Numbered {} 0 := ⟨rfl, rfl⟩

variable {r r' : BlockReader} {n : ℕ} {b b' : NumberedBuffer}

theorem numbered_of_held_nil (hseq : r.seq = n) (hheld : r.thread.held = []) : Numbered r n := by
  constructor
  · rw [hheld]
    rfl
  · rw [hheld, hseq]
    rfl

theorem numbered_of_held_one (hseq : r.seq = n + 1) (hheld : r.thread.held = [b]) (hb : b.sequence = n) :
    Numbered r n := by
  constructor
  · rw [hheld, List.map_singleton, hb]
    rfl
  · rw [hheld, hseq]
    rfl

theorem numbered_of_held_two (hseq : r.seq = n + 2) (hheld : r.thread.held = [b, b'])
    (hb : b.sequence = n) (hb' : b'.sequence = n + 1) : Numbered r n := by
  constructor
  · rw [hheld, List.map_cons, List.map_singleton, hb, hb']
    rfl
  · rw [hheld, hseq]
    rfl

theorem Numbered.one (h : Numbered r n) (hheld : r.thread.held = [b]) :
    r.seq = n + 1 ∧ b.sequence = n := by
  obtain ⟨hmap, hseq⟩ := h
  rw [hheld] at hmap hseq
  exact ⟨hseq, (List.cons.inj hmap).1⟩

theorem Numbered.two (h : Numbered r n) (hheld : r.thread.held = [b, b']) :
    r.seq = n + 2 ∧ b.sequence = n ∧ b'.sequence = n + 1 := by
  obtain ⟨hmap, hseq⟩ := h
  rw [hheld] at hmap hseq
  obtain ⟨hfirst, hmap⟩ := List.cons.inj hmap
  exact ⟨hseq, hfirst, (List.cons.inj hmap).1⟩

/-- What the reader has done with the numbers: what it has queued, if anything, has number `n`. -/
def Queues (n : ℕ) (res : BlockReader × Option (ReaderQueue × NumberedBuffer)) : Prop :=
  match res.2 with
  | none => Numbered res.1 n
  | some (_, b) => b.sequence = n ∧ Numbered res.1 (n + 1)

theorem Numbered.processErr {prev : Option NumberedBuffer} {buffer : NumberedBuffer}
    (h : Numbered r n) (hheld : r.thread.held = prev.toList ++ [buffer]) :
    Queues n (r.processErr prev buffer) := by
  cases prev with
  | none =>
      obtain ⟨hseq, hbuffer⟩ := h.one hheld
      exact ⟨hbuffer, numbered_of_held_nil hseq rfl⟩
  | some prev =>
      obtain ⟨hseq, hprev, -⟩ := h.two hheld
      exact ⟨hprev, numbered_of_held_nil (by show r.seq - 1 = n + 1; omega) rfl⟩

/-- The number of an empty buffer at the end of a process is given back. -/
theorem Numbered.processDone {count bytes : ℕ} {prev : Option NumberedBuffer} {buffer : NumberedBuffer}
    (h : Numbered r n) (hheld : r.thread.held = prev.toList ++ [buffer]) :
    Queues n (r.processDone env count bytes prev buffer) := by
  cases prev with
  | none =>
      obtain ⟨hseq, hbuffer⟩ := h.one hheld
      exact ⟨hbuffer, numbered_of_held_nil hseq rfl⟩
  | some prev =>
      obtain ⟨hseq, hprev, -⟩ := h.two hheld
      exact ⟨hprev, numbered_of_held_nil (by show r.seq - 1 = n + 1; omega) rfl⟩

theorem Numbered.processRead {count bytes : ℕ} {prev : Option NumberedBuffer} {buffer : NumberedBuffer}
    (h : Numbered r n) (hheld : r.thread.held = prev.toList ++ [buffer]) (data : List UInt8) :
    Queues n (r.processRead count bytes prev buffer data) := by
  unfold BlockReader.processRead
  cases prev with
  | none =>
      obtain ⟨hseq, hbuffer⟩ := h.one hheld
      dsimp only
      split
      · exact numbered_of_held_one hseq rfl hbuffer
      · exact numbered_of_held_one hseq rfl hbuffer
  | some prev =>
      obtain ⟨hseq, hprev, hbuffer⟩ := h.two hheld
      dsimp only
      split
      · exact numbered_of_held_two hseq rfl hprev hbuffer
      · exact ⟨hprev, numbered_of_held_one hseq rfl hbuffer⟩

theorem Numbered.fileRead {readSize count bytes : ℕ} {buffer : NumberedBuffer} (h : Numbered r n)
    (hheld : r.thread.held = [buffer]) (data : List UInt8) :
    Queues n (r.fileRead env readSize count bytes buffer data) := by
  obtain ⟨hseq, hbuffer⟩ := h.one hheld
  unfold BlockReader.fileRead
  dsimp only
  by_cases hexpected : (data.length : ℤ) ≠ expected env readSize count
  · rw [if_pos hexpected]
    exact numbered_of_held_one hseq rfl hbuffer
  by_cases hblocks : ((count + 1 : ℕ) : ℤ) < blocks env readSize
  · rw [if_neg hexpected, if_pos hblocks]
    exact numbered_of_held_one hseq rfl hbuffer
  by_cases hbytes : readSize ≠ bytes + data.length
  · rw [if_neg hexpected, if_neg hblocks, if_pos hbytes]
    exact numbered_of_held_one hseq rfl hbuffer
  by_cases hfull : expected env readSize count = env.blockSize
  · rw [if_neg hexpected, if_neg hblocks, if_neg hbytes, if_pos hfull]
    exact numbered_of_held_one hseq rfl hbuffer
  · rw [if_neg hexpected, if_neg hblocks, if_neg hbytes, if_neg hfull]
    exact ⟨hbuffer, numbered_of_held_nil hseq rfl⟩

/-- **What is queued has the next number**, on every path of the reader. -/
theorem Numbered.step {l : ReaderStep} {res : BlockReader × Option (ReaderQueue × NumberedBuffer)}
    (h : Numbered r n) (hstep : r.step env l = some res) : Queues n res := by
  unfold BlockReader.step at hstep
  split at hstep
  case h_1 hthread =>
      obtain rfl := Option.some.inj hstep
      have hseq := h.seq
      rw [hthread] at hseq
      exact numbered_of_held_nil hseq rfl
  case h_2 hthread =>
      obtain rfl := Option.some.inj hstep
      have hseq := h.seq
      rw [hthread] at hseq
      exact numbered_of_held_nil hseq rfl
  case h_3 count bytes prev old hthread =>
      obtain rfl := Option.some.inj hstep
      have hheld : r.thread.held = prev.toList := by rw [hthread]; rfl
      cases prev with
      | none =>
          have hseq := h.seq
          rw [hheld] at hseq
          exact numbered_of_held_one (congrArg (· + 1) hseq) rfl hseq
      | some prev =>
          obtain ⟨hseq, hprev⟩ := h.one hheld
          exact numbered_of_held_two (congrArg (· + 1) hseq) rfl hprev hseq
  case h_4 count bytes prev buffer hthread =>
      obtain rfl := Option.some.inj hstep
      exact h.processErr (by rw [hthread]; rfl)
  case h_5 count bytes prev buffer data hthread =>
      obtain rfl := Option.some.inj (Option.ite_none_right_eq_some.mp hstep).2
      exact h.processRead (by rw [hthread]; rfl) data
  case h_6 count bytes prev buffer hthread =>
      obtain rfl := Option.some.inj hstep
      exact h.processErr (by rw [hthread]; rfl)
  case h_7 count bytes prev buffer hthread =>
      obtain rfl := Option.some.inj hstep
      exact h.processDone (by rw [hthread]; rfl)
  case h_8 readSize old hthread =>
      obtain rfl := Option.some.inj hstep
      have hseq := h.seq
      rw [hthread] at hseq
      exact ⟨hseq, numbered_of_held_nil (congrArg (· + 1) hseq) rfl⟩
  case h_9 readSize old hthread =>
      obtain rfl := Option.some.inj hstep
      have hseq := h.seq
      rw [hthread] at hseq
      exact numbered_of_held_nil hseq rfl
  case h_10 readSize count bytes buffer old hthread =>
      obtain rfl := Option.some.inj hstep
      have hheld : r.thread.held = buffer.toList := by rw [hthread]; rfl
      cases buffer with
      | none =>
          have hseq := h.seq
          rw [hheld] at hseq
          exact numbered_of_held_one (congrArg (· + 1) hseq) rfl hseq
      | some buffer =>
          obtain ⟨hseq, hbuffer⟩ := h.one hheld
          exact ⟨hbuffer, numbered_of_held_one (congrArg (· + 1) hseq) rfl hseq⟩
  case h_11 readSize count bytes buffer hthread =>
      obtain rfl := Option.some.inj hstep
      obtain ⟨hseq, hbuffer⟩ := h.one (show r.thread.held = [buffer] by rw [hthread]; rfl)
      exact ⟨hbuffer, numbered_of_held_nil hseq rfl⟩
  case h_12 readSize count bytes buffer data hthread =>
      obtain rfl := Option.some.inj (Option.ite_none_right_eq_some.mp hstep).2
      exact h.fileRead (by rw [hthread]; rfl) data
  case h_13 readSize buffer hthread =>
      obtain rfl := Option.some.inj hstep
      obtain ⟨hseq, hbuffer⟩ := h.one (show r.thread.held = [buffer] by rw [hthread]; rfl)
      exact ⟨hbuffer, numbered_of_held_nil hseq rfl⟩
  case h_14 readSize buffer hthread =>
      obtain rfl := Option.some.inj hstep
      obtain ⟨hseq, hbuffer⟩ := h.one (show r.thread.held = [buffer] by rw [hthread]; rfl)
      exact numbered_of_held_one hseq rfl hbuffer
  case h_15 readSize buffer hthread =>
      obtain rfl := Option.some.inj hstep
      obtain ⟨hseq, hbuffer⟩ := h.one (show r.thread.held = [buffer] by rw [hthread]; rfl)
      exact ⟨hbuffer, numbered_of_held_nil hseq rfl⟩
  case h_16 readSize buffer size hthread =>
      obtain ⟨hseq, hbuffer⟩ := h.one (show r.thread.held = [buffer] by rw [hthread]; rfl)
      split at hstep
      · obtain rfl := Option.some.inj hstep
        exact ⟨hbuffer, numbered_of_held_nil hseq rfl⟩
      · obtain rfl := Option.some.inj hstep
        exact ⟨hbuffer, numbered_of_held_nil hseq rfl⟩
  case h_17 => cases hstep

end BlockReader

end FirmwareTools.Squashfs

import FirmwareTools.Squashfs.Inode
import FirmwareTools.Squashfs.Xattr

/-! # The data of files

What `mksquashfs` does with the contents of files: the reader cuts them into buffers, the deflators
compress the buffers, and `write_file` writes them, keeps the tails in fragments and looks for files
that were written before. The threads pass the buffers on in order, and what a cache holds is what is
written where it comes from, so neither shows here; a fragment that is full is written some time
later. -/

namespace FirmwareTools.Squashfs

/-- The switches of `mksquashfs` that matter for data, and the compressor. -/
structure DataEnv where
  comp : Compressor
  blockLog : ℕ
  noFragments : Bool := false
  alwaysUseFragments : Bool := false
  sparseFiles : Bool := true
  duplicateChecking : Bool := true
  noD : Bool := false
  noF : Bool := false
  le_blockLog : 12 ≤ blockLog
  blockLog_le : blockLog ≤ 20

/-- Blocks of four kilobytes, stored as they are. -/
def fourKilobyteEnv : DataEnv where
  comp := storeOnly
  blockLog := 12
  le_blockLog := le_refl 12
  blockLog_le := by decide

/-- `block_size` -/
def DataEnv.blockSize (env : DataEnv) : ℕ := 2 ^ env.blockLog

/-- A `struct file_buffer` between the reader and the writer. The size is that of the data; no
`fileSize` is the `-1` of a process that goes on. -/
structure FileBuffer where
  data : List UInt8
  fileSize : Option ℕ
  cByte : ℕ := 0
  fragment : Bool := false
  error : Bool := false
  deriving DecidableEq, Repr

/-! ## Reading regular files -/

section

variable (env : DataEnv)

/-- The loop of `reader_read_file`, from block `count` on. The first argument is a bound on the number of
rounds. -/
def readFileLoop (data : List UInt8) (fragBlock blocks : Int) : ℕ → ℕ → List FileBuffer
  | 0, _ => []
  | n + 1, count =>
    let buffer : FileBuffer := {
      data := (data.drop (count * env.blockSize)).take env.blockSize
      fileSize := some data.length, fragment := (count : Int) == fragBlock }
    buffer :: if (count + 1 : Int) < blocks then readFileLoop data fragBlock blocks n (count + 1)
      else []

/-- The last buffer of a file that could not be read. -/
def failLast : List FileBuffer → List FileBuffer
  | [] => []
  | [b] => [{ b with error := true }]
  | b :: bs => b :: failLast bs

/-- `reader_read_file`, of a file that does not change. The numbers of blocks are `int`s; when not all of
the file was read its size is compared again, and the file is given up. -/
def readerReadFile (data : List UInt8) : List FileBuffer :=
  let blocks := toInt32 ((data.length + env.blockSize - 1) / env.blockSize : ℕ)
  let fragBlock := if !env.noFragments &&
      (env.alwaysUseFragments || decide (data.length < env.blockSize)) then
    toInt32 (data.length / env.blockSize : ℕ) else -1
  let buffers := readFileLoop env data fragBlock blocks (data.length + 1) 0
  if (buffers.flatMap FileBuffer.data).length = data.length then buffers else failLast buffers

/-! ## Reading from a process -/

/-- What a process writes, as the pieces `read` can get at once. -/
structure ProcessOutput where
  pieces : List (List UInt8)
  nonempty : ∀ piece ∈ pieces, piece ≠ []

/-- All that a process writes. -/
def ProcessOutput.bytes (out : ProcessOutput) : List UInt8 := out.pieces.flatten

/-- `read` of at most `count` bytes: what it gets, and what is left. -/
def readPiece (count : ℕ) : List (List UInt8) → List UInt8 × List (List UInt8)
  | [] => ([], [])
  | piece :: pieces =>
    (piece.take count, if piece.length ≤ count then pieces else piece.drop count :: pieces)

/-- `read_bytes`: it reads until it has all bytes or there are no more. The first argument is a bound on
the number of calls of `read`. -/
def readBytes : ℕ → ℕ → List (List UInt8) → List UInt8 × List (List UInt8)
  | 0, _, pieces => ([], pieces)
  | n + 1, bytes, pieces =>
    if bytes = 0 then ([], pieces)
    else
      let (data, pieces) := readPiece bytes pieces
      if data = [] then ([], pieces)
      else
        let (rest, pieces) := readBytes n (bytes - data.length) pieces
        (data ++ rest, pieces)

/-- The blocks that the loop of `reader_read_process` reads before it reads nothing. The first argument
is a bound on their number. -/
def readProcessLoop : ℕ → List (List UInt8) → List (List UInt8)
  | 0, _ => []
  | n + 1, pieces =>
    let (data, pieces) := readBytes env.blockSize env.blockSize pieces
    if data = [] then [] else data :: readProcessLoop n pieces

/-- `reader_read_process`, of a process that ends well. The buffers before the last one do not know the
size. -/
def readerReadProcess (out : ProcessOutput) : List FileBuffer :=
  let blocks := readProcessLoop env (out.pieces.flatten.length + 1) out.pieces
  let count := blocks.length + 1
  let bytes := (blocks.map List.length).sum
  -- the last `read_bytes` is the one that ended the loop
  let byte := 0
  let fragment := !env.noFragments && (count == 2 || env.alwaysUseFragments) &&
    decide (byte < env.blockSize)
  blocks.dropLast.map (fun data => { data, fileSize := none }) ++
    [{ data := blocks.getLastD [], fileSize := some bytes, fragment }]

/-! ## Compressing -/

/-- `all_zero` -/
def allZero (data : List UInt8) : Bool := data.all (· == 0)

/-- `deflator`, on one buffer. A buffer with an error does not come here. -/
def deflate (b : FileBuffer) : FileBuffer :=
  if b.error then b
  else if env.sparseFiles && allZero b.data then { b with cByte := 0 }
  else if b.fragment then { b with cByte := b.data.length }
  else
    let (cByte, data) := mangle env.comp env.blockSize env.noD true b.data
    { b with data, cByte, fragment := false }

/-- `SQUASHFS_COMPRESSED_SIZE_BLOCK` -/
def compressedSizeBlock (cByte : ℕ) : ℕ :=
  if cByte.testBit 24 then cByte - compressedBitBlock else cByte

/-- `SQUASHFS_COMPRESSED_BLOCK` -/
def isCompressedBlock (cByte : ℕ) : Bool := !cByte.testBit 24

/-- A stored data block as it was. -/
def decodeBlock (cByte : ℕ) (stored : List UInt8) : Option (List UInt8) :=
  if isCompressedBlock cByte then env.comp.uncompress env.blockSize stored else some stored

/-- A data block that is stored at `start`. -/
def readDataBlock (img : List UInt8) (start cByte : ℕ) : Option (List UInt8) := do
  decodeBlock env cByte (← readFsBytes img start (compressedSizeBlock cByte))

end

/-! ## Fragments -/

/-- `struct fragment`; by default `empty_fragment`. -/
structure Fragment where
  index : ℕ := invalidFrag
  offset : ℕ := 0
  size : ℕ := 0
  deriving DecidableEq, Repr

/-- A fragment that is full, and its `start_block` and `size` when it is written. -/
structure FragmentBlock where
  data : List UInt8
  entry : Option (ℕ × ℕ) := none
  deriving DecidableEq, Repr

/-- `struct file_info`: a file to compare others with. The checksums are those of the blocks and of the
fragment; they are missing as long as `checksum_flag` is not set. -/
structure FileInfo where
  fileSize : ℕ
  bytes : ℕ
  start : ℕ
  blockList : List ℕ
  fragment : Fragment
  checksums : Option (UInt16 × UInt16) := none
  deriving DecidableEq, Repr

/-- The variables of the writer: all that is written, the fragments that are full, the one that is being
filled, and the files to compare with, the newest first. -/
structure Writer where
  out : List UInt8
  fragmentTable : List FragmentBlock := []
  fragmentData : List UInt8 := []
  dupl : List FileInfo := []

variable (env : DataEnv)

/-- `write_fragment`: the fragment that is being filled is queued. -/
def Writer.writeFragment (st : Writer) : Writer :=
  if st.fragmentData = [] then st
  else { st with fragmentTable := st.fragmentTable ++ [⟨st.fragmentData, none⟩], fragmentData := [] }

/-- `frag_deflator`, on the fragment `i` of the queue. -/
def Writer.fragDeflator (st : Writer) (i : ℕ) : Writer :=
  match st.fragmentTable[i]? with
  | some ⟨data, none⟩ =>
    let (cByte, stored) := mangle env.comp env.blockSize env.noF true data
    { st with
      out := st.out ++ stored
      fragmentTable := st.fragmentTable.set i ⟨data, some (st.out.length, cByte)⟩ }
  | _ => st

/-- `get_and_fill_fragment` -/
def Writer.getAndFillFragment (st : Writer) (data : List UInt8) : Fragment × Writer :=
  if data = [] then ({}, st)
  else
    let st := if env.blockSize < st.fragmentData.length + data.length then st.writeFragment else st
    (⟨st.fragmentTable.length, st.fragmentData.length, data.length⟩,
      { st with fragmentData := st.fragmentData ++ data })

/-- `get_fragment`: the data of a fragment, from memory or from what is written. -/
def Writer.getFragment (st : Writer) (index : ℕ) : Option (List UInt8) :=
  if index = invalidFrag then none
  else if index = st.fragmentTable.length then some st.fragmentData
  else
    match st.fragmentTable[index]? with
    | some ⟨data, none⟩ => some data
    | some ⟨_, some (start, size)⟩ => readDataBlock env st.out start size
    | none => none

/-! ## Looking for duplicates -/

/-- `get_checksum_disk` -/
def getChecksumDisk (out : List UInt8) : ℕ → ℕ → List ℕ → UInt16 → UInt16
  | _, _, [], chksum => chksum
  | start, l, b :: blocks, chksum =>
    let bytes := compressedSizeBlock b
    if l = 0 then chksum
    else if bytes = 0 then getChecksumDisk out start l blocks chksum
    else getChecksumDisk out (start + bytes) (l - bytes) blocks
      (getChecksum ((out.drop start).take bytes) chksum)

/-- The checksums of a file are computed when they are needed. -/
def FileInfo.checksum (st : Writer) (e : FileInfo) : FileInfo :=
  { e with checksums := some (e.checksums.getD
    (getChecksumDisk st.out e.start e.bytes e.blockList 0,
      getChecksum ((((st.getFragment env e.fragment.index).getD []).drop e.fragment.offset).take
        e.fragment.size) 0)) }

/-- The loop of `duplicate` that compares the stored blocks of two files with the same block list. -/
def sameBlocks (out : List UInt8) : ℕ → ℕ → List ℕ → Bool
  | _, _, [] => true
  | start, dupStart, b :: blocks =>
    let size := compressedSizeBlock b
    if size = 0 then sameBlocks out start dupStart blocks
    else readFsBytes out start size == readFsBytes out dupStart size &&
      sameBlocks out (start + size) (dupStart + size) blocks

/-- What `duplicate` is told of a new file; `data` is the part of it for a fragment. -/
structure NewFile where
  fileSize : ℕ
  bytes : ℕ
  start : ℕ
  blockList : List ℕ
  data : List UInt8

/-- The checksums of a new file. -/
def NewFile.checksums (st : Writer) (new : NewFile) : UInt16 × UInt16 :=
  (getChecksumDisk st.out new.start new.bytes new.blockList 0, getChecksum new.data 0)

/-- The loop of `duplicate`: the file that is the same, if there is one, the files with the checksums that
were computed on the way, and the checksums of the new file. -/
def duplicate (st : Writer) (new : NewFile) :
    List FileInfo → Option (UInt16 × UInt16) →
      Option FileInfo × List FileInfo × Option (UInt16 × UInt16)
  | [], checksums => (none, [], checksums)
  | e :: dupl, checksums =>
    if new.fileSize = e.fileSize ∧ new.bytes = e.bytes ∧ new.data.length = e.fragment.size ∧
        e.blockList.take new.blockList.length = new.blockList then
      let checksums := some (checksums.getD (new.checksums st))
      let e := e.checksum env st
      if checksums = e.checksums ∧ sameBlocks st.out new.start e.start new.blockList = true ∧
          (new.data = [] ∨ (st.getFragment env e.fragment.index).bind (fun data =>
            readSlice data e.fragment.offset e.fragment.size) = some new.data) then
        (some e, e :: dupl, checksums)
      else
        let (found, dupl, checksums) := duplicate st new dupl checksums
        (found, e :: dupl, checksums)
    else
      let (found, dupl, checksums) := duplicate st new dupl checksums
      (found, e :: dupl, checksums)

/-- `pre_duplicate` -/
def preDuplicate (dupl : List FileInfo) (fileSize : ℕ) : Bool :=
  dupl.any fun e => e.fileSize == fileSize

/-- `pre_duplicate_frag`, with the files as it leaves them. -/
def preDuplicateFrag (st : Writer) (fileSize : ℕ) (checksum : UInt16) :
    List FileInfo → Bool × List FileInfo
  | [] => (false, [])
  | e :: dupl =>
    if fileSize = e.fileSize ∧ fileSize = e.fragment.size then
      let e := e.checksum env st
      if e.checksums.map Prod.snd = some checksum then (true, e :: dupl)
      else
        let (found, dupl) := preDuplicateFrag st fileSize checksum dupl
        (found, e :: dupl)
    else
      let (found, dupl) := preDuplicateFrag st fileSize checksum dupl
      (found, e :: dupl)

/-! ## Writing -/

/-- The arguments for `create_inode` of a file; `inode` has all that does not come from the data. -/
def fileInode (inode : InodeArgs) (byteSize start : ℕ) (blockList : List ℕ) (fragment : Fragment)
    (sparse : ℕ) : InodeArgs :=
  { inode with
    type := .file, byteSize, startBlock := start, blockList
    fragmentIndex := fragment.index, fragmentOffset := fragment.offset, sparse }

/-- `write_file_empty` -/
def writeFileEmpty (inode : InodeArgs) (st : Writer) : InodeArgs × Writer :=
  (fileInode inode 0 0 [] {} 0, st)

/-- `write_file_frag_dup` -/
def writeFileFragDup (inode : InodeArgs) (st : Writer) (size : ℕ) (data : List UInt8)
    (checksum : UInt16) : InodeArgs × Writer :=
  let (found, dupl, checksums) := duplicate env st ⟨size, 0, 0, [], data⟩ st.dupl (some (0, checksum))
  match found with
  | some e => (fileInode inode size 0 [] e.fragment 0, { st with dupl })
  | none =>
    let (fragment, st) := st.getAndFillFragment env data
    (fileInode inode size 0 [] fragment 0,
      { st with dupl := ⟨size, 0, 0, [], fragment, checksums⟩ :: dupl })

/-- `write_file_frag` -/
def writeFileFrag (inode : InodeArgs) (st : Writer) (size : ℕ) (data : List UInt8) :
    InodeArgs × Writer :=
  let checksum := getChecksum data 0
  let (found, dupl) := preDuplicateFrag env st size checksum st.dupl
  if found then writeFileFragDup env inode { st with dupl } size data checksum
  else
    let (fragment, st) := st.getAndFillFragment env data
    (fileInode inode size 0 [] fragment 0,
      { st with dupl := if env.duplicateChecking then
        ⟨size, 0, 0, [], fragment, some (0, checksum)⟩ :: dupl else dupl })

/-- The variables of a loop that writes blocks. -/
structure BlockWriter where
  out : List UInt8
  blockList : List ℕ := []
  fileBytes : ℕ := 0
  sparse : ℕ := 0
  fragmentBuffer : List UInt8 := []

/-- One round: the buffer is kept for a fragment, or it is a block. -/
def BlockWriter.step (w : BlockWriter) (b : FileBuffer) : BlockWriter :=
  if b.fragment ∧ b.cByte ≠ 0 then { w with fragmentBuffer := b.data }
  else if b.cByte ≠ 0 then
    { w with
      out := w.out ++ b.data, blockList := w.blockList ++ [b.cByte]
      fileBytes := w.fileBytes + b.data.length }
  else { w with blockList := w.blockList ++ [b.cByte], sparse := w.sparse + b.data.length }

/-- The loop of `write_file_process`: it goes on until a buffer has the size. The result is the size, or
nothing after an error, and the buffers that are left; the loop waits for ever if there are not
enough. -/
def processLoop (w : BlockWriter) (b : FileBuffer) :
    List FileBuffer → Option (Option (ℕ × BlockWriter) × List FileBuffer)
  | [] =>
    match b.fileSize with
    | some size => some (some (size, w.step b), [])
    | none => none
  | next :: queue =>
    match b.fileSize with
    | some size => some (some (size, w.step b), next :: queue)
    | none => if next.error then some (none, queue) else processLoop (w.step b) next queue

/-- `write_file_process` -/
def writeFileProcess (inode : InodeArgs) (st : Writer) (b : FileBuffer) (queue : List FileBuffer) :
    Option (Option (InodeArgs × Writer) × List FileBuffer) := do
  let (result, queue) ← processLoop ⟨st.out, [], 0, 0, []⟩ b queue
  match result with
  | none => some (none, queue)
  | some (size, w) =>
    let (fragment, st') := { st with out := w.out }.getAndFillFragment env w.fragmentBuffer
    some (some (fileInode inode size st.out.length w.blockList fragment w.sparse,
      { st' with dupl := if env.duplicateChecking then
        ⟨size, w.fileBytes, st.out.length, w.blockList, fragment, none⟩ :: st'.dupl else st'.dupl }),
      queue)

/-- The loop of `write_file_blocks` and `write_file_blocks_dup`, which counts the blocks of a file of
`readSize` bytes. -/
def blocksLoop (readSize : ℕ) (w : BlockWriter) (block blocks : Int) (b : FileBuffer) :
    List FileBuffer → Option (Option (Int × BlockWriter) × List FileBuffer)
  | [] =>
    let blocks := if b.fragment ∧ b.cByte ≠ 0 then toInt32 (readSize / env.blockSize : ℕ) else blocks
    if block + 1 < blocks then none else some (some (blocks, w.step b), [])
  | next :: queue =>
    let blocks := if b.fragment ∧ b.cByte ≠ 0 then toInt32 (readSize / env.blockSize : ℕ) else blocks
    if block + 1 < blocks then
      if next.error then some (none, queue)
      else blocksLoop readSize (w.step b) (block + 1) blocks next queue
    else some (some (blocks, w.step b), next :: queue)

/-- The loop with the number of blocks it begins with. -/
def writeBlocks (st : Writer) (readSize : ℕ) (b : FileBuffer) (queue : List FileBuffer) :
    Option (Option (Int × BlockWriter) × List FileBuffer) :=
  let blocks := toInt32 ((readSize + env.blockSize - 1) / env.blockSize : ℕ)
  if 0 < blocks then blocksLoop env readSize ⟨st.out, [], 0, 0, []⟩ 0 blocks b queue
  else some (some (blocks, ⟨st.out, [], 0, 0, []⟩), queue)

/-- The `sparse` count of an inode: none for a file that was not stored sparsely. -/
def sparseCount (sparse readSize stBlocks : ℕ) : ℕ :=
  if sparse ≠ 0 ∧ readSize ≤ stBlocks * 512 then 0 else sparse

/-- `write_file_blocks` -/
def writeFileBlocks (inode : InodeArgs) (stBlocks : ℕ) (st : Writer) (readSize : ℕ) (b : FileBuffer)
    (queue : List FileBuffer) : Option (Option (InodeArgs × Writer) × List FileBuffer) := do
  let (result, queue) ← writeBlocks env st readSize b queue
  match result with
  | none => some (none, queue)
  | some (blocks, w) =>
    let (fragment, st') := { st with out := w.out }.getAndFillFragment env w.fragmentBuffer
    some (some (fileInode inode readSize st.out.length (w.blockList.take blocks.toNat) fragment
        (sparseCount w.sparse readSize stBlocks),
      { st' with dupl := if env.duplicateChecking then
        ⟨readSize, w.fileBytes, st.out.length, w.blockList, fragment, none⟩ :: st'.dupl else st'.dupl }),
      queue)

/-- `write_file_blocks_dup`: after a duplicate the next file is written over the blocks. -/
def writeFileBlocksDup (inode : InodeArgs) (stBlocks : ℕ) (st : Writer) (readSize : ℕ) (b : FileBuffer)
    (queue : List FileBuffer) : Option (Option (InodeArgs × Writer) × List FileBuffer) := do
  let (result, queue) ← writeBlocks env st readSize b queue
  match result with
  | none => some (none, queue)
  | some (blocks, w) =>
    let sparse := sparseCount w.sparse readSize stBlocks
    let blockList := w.blockList.take blocks.toNat
    let (found, dupl, checksums) := duplicate env { st with out := w.out }
      ⟨readSize, w.fileBytes, st.out.length, blockList, w.fragmentBuffer⟩ st.dupl none
    match found with
    | some e =>
      some (some (fileInode inode readSize e.start (e.blockList.take blocks.toNat) e.fragment sparse,
        { st with dupl }), queue)
    | none =>
      let (fragment, st') := { st with out := w.out }.getAndFillFragment env w.fragmentBuffer
      some (some (fileInode inode readSize st.out.length blockList fragment sparse,
        { st' with dupl := ⟨readSize, w.fileBytes, st.out.length, w.blockList, fragment, checksums⟩ ::
          dupl }), queue)

/-- `write_file`: an empty file after an error. The buffers are taken from the queue, and the rest of it
is returned. -/
def writeFile (inode : InodeArgs) (stBlocks : ℕ) (st : Writer) :
    List FileBuffer → Option ((InodeArgs × Writer) × List FileBuffer)
  | [] => none
  | b :: queue =>
    let orEmpty (result : Option (Option (InodeArgs × Writer) × List FileBuffer)) :=
      result.map fun r => (r.1.getD (writeFileEmpty inode st), r.2)
    if b.error then some (writeFileEmpty inode st, queue)
    else
      match b.fileSize with
      | none => orEmpty (writeFileProcess env inode st b queue)
      | some readSize =>
        if readSize = 0 then some (writeFileEmpty inode st, queue)
        else if b.fragment ∧ b.cByte ≠ 0 then some (writeFileFrag env inode st readSize b.data, queue)
        else if preDuplicate st.dupl readSize then
          orEmpty (writeFileBlocksDup env inode stBlocks st readSize b queue)
        else orEmpty (writeFileBlocks env inode stBlocks st readSize b queue)

/-! ## Runs -/

/-- A file with contents: a regular one, with the number of 512-byte blocks it takes, or the output of a
process. -/
inductive Source
  | regular (data : List UInt8) (stBlocks : ℕ)
  | process (out : ProcessOutput)

/-- What a file should read. -/
def Source.content : Source → List UInt8
  | .regular data _ => data
  | .process out => out.bytes

/-- The buffers of a file when the writer gets them. -/
def Source.buffers : Source → List FileBuffer
  | .regular data _ => (readerReadFile env data).map (deflate env)
  | .process out => (readerReadProcess env out).map (deflate env)

/-- `st_blocks` -/
def Source.stBlocks : Source → ℕ
  | .regular _ stBlocks => stBlocks
  | .process _ => 0

/-- What happens in turn: a file is written, or a full fragment. -/
inductive Event
  | file (inode : InodeArgs) (source : Source)
  | fragment (index : ℕ)

/-- The file of an event. -/
def Event.source? : Event → Option Source
  | .file _ source => some source
  | .fragment _ => none

/-- The files of some events. -/
def sources (events : List Event) : List Source := events.filterMap Event.source?

/-- The writer takes the buffers of all files from one queue: the inodes, and the writer. -/
def writeFiles : Writer → List FileBuffer → List Event → Option (List InodeArgs × Writer)
  | st, _, [] => some ([], st)
  | st, queue, .file inode source :: events => do
    let ((inode, st), queue) ← writeFile env inode source.stBlocks st queue
    let (inodes, st) ← writeFiles st queue events
    some (inode :: inodes, st)
  | st, queue, .fragment i :: events => writeFiles (st.fragDeflator env i) queue events

/-- The data of a filesystem behind `out`: in the end the last fragment is queued, and the fragments that
are left are written in some order. -/
def writeData (out : List UInt8) (events : List Event) (last : List ℕ) :
    Option (List InodeArgs × Writer) := do
  let (inodes, st) ← writeFiles env ⟨out, [], [], []⟩
    ((sources events).flatMap (Source.buffers env)) events
  some (inodes, last.foldl (Writer.fragDeflator env) st.writeFragment)

end FirmwareTools.Squashfs

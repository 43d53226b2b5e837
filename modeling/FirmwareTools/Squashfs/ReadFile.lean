import FirmwareTools.Squashfs.FileData

/-! # Extracting the data of a file

`write_file` of `unsquashfs` queues the blocks of a file, and the part of a fragment behind them, and its
writer puts them into the file, with holes where blocks are missing. What is stored of a file is
described by the blocks that are written and the data of the fragments.

* **`extractFile_of_fileStored`** — a file that is stored, and of which the inode says how it is, is
  extracted as it was. -/

namespace FirmwareTools.Squashfs

/-! ## `unsquashfs` -/

/-- What is queued for the writer. -/
inductive Piece
  | hole (size : ℕ)
  | block (bytes : List UInt8)

section

variable (env : DataEnv)

/-- The loop of `write_file` over the block list, from block `i` on. A block has to be as long as the part
of it that is written. -/
def queueBlocks (img : List UInt8) (dataSize : ℕ) : ℕ → ℕ → List ℕ → Option (List Piece)
  | _, _, [] => some []
  | i, start, cByte :: blockList => do
    let fileEnd := toInt32 (dataSize / env.blockSize : ℕ)
    let size := if (i : Int) = fileEnd then dataSize % env.blockSize else env.blockSize
    if cByte = 0 then
      let rest ← queueBlocks img dataSize (i + 1) start blockList
      some (.hole size :: rest)
    else
      let data ← readDataBlock env img start cByte
      let bytes ← readSlice data 0 size
      let rest ← queueBlocks img dataSize (i + 1) (start + compressedSizeBlock cByte) blockList
      some (.block bytes :: rest)

/-- The loop of the writer: the file so far, and the hole behind it. A hole at the end is written as zero
bytes, or the file is cut to its size. -/
def writePieces (sparse : Bool) (fileSize : ℕ) : List UInt8 → ℕ → List Piece → List UInt8
  | file, hole, [] =>
    if hole = 0 then file
    else if sparse then (file ++ List.replicate (fileSize - file.length) 0).take fileSize
    else file ++ List.replicate (hole - 1) 0 ++ [0]
  | file, hole, .hole size :: pieces => writePieces sparse fileSize file (hole + size) pieces
  | file, hole, .block bytes :: pieces =>
    writePieces sparse fileSize (file ++ List.replicate hole 0 ++ bytes) 0 pieces

/-- An entry of the fragment table in memory. -/
def readFragmentEntry (table : List UInt8) (i : ℕ) : Option (ℕ × ℕ) := do
  match ← readFields [8, 4, 4] (table.drop (16 * i)) with
  | [start, size, _] => some (start, size)
  | _ => none

/-- `read_fragment_table_4`: where the fragments are, and their sizes. -/
def readFragmentTable (fresh : ℕ → UInt8) (img : List UInt8) (start fragments : ℕ) :
    Option (List (ℕ × ℕ)) :=
  if fragments = 0 then some []
  else do
    let indexes := (fragments * 16 + metadataSize - 1) / metadataSize
    let (_, blocks) ← readTable env.comp img start indexes
    (List.range fragments).mapM (readFragmentEntry (layOut metadataSize fresh 0 blocks))

/-- `write_file` of `unsquashfs`, with its writer: the file that is written for an inode. -/
def extractFile (img : List UInt8) (t : InodeTable) (fragments : List (ℕ × ℕ)) (i : Inode) :
    Option (List UInt8) := do
  let blockList ← readFields (List.replicate i.blocks.toNat 4) (t.bytes.drop i.blockPtr)
  let pieces ← queueBlocks env img i.data.toNat 0 i.start blockList
  let fragment ← if i.fragBytes = 0 then some [] else do
    let (start, size) ← fragments[i.fragment]?
    let bytes ← readSlice (← readDataBlock env img start size) i.offset i.fragBytes.toNat
    some [Piece.block bytes]
  some (writePieces i.sparse i.data.toNat [] 0 (pieces ++ fragment))

end

/-! ## What is stored of a file -/

/-- What is written, and the data of the fragments, that of the one being filled last. -/
structure DataStore where
  out : List UInt8
  fragments : List (List UInt8)

/-- The store with more behind what is written and in its fragments. -/
structure DataStore.Grows (s s' : DataStore) : Prop where
  out : s.out <+: s'.out
  fragments : ∀ (i : ℕ) (data : List UInt8), s.fragments[i]? = some data →
    ∃ data', s'.fragments[i]? = some data' ∧ data <+: data'

theorem DataStore.Grows.refl (s : DataStore) : s.Grows s :=
  ⟨List.prefix_refl _, fun _ data h => ⟨data, h, List.prefix_refl _⟩⟩

theorem DataStore.Grows.trans {s s' s'' : DataStore} (h : s.Grows s') (h' : s'.Grows s'') :
    s.Grows s'' := by
  refine ⟨h.out.trans h'.out, fun i data hi => ?_⟩
  obtain ⟨data', hi', hprefix⟩ := h.fragments i data hi
  obtain ⟨data'', hi'', hprefix'⟩ := h'.fragments i data' hi'
  exact ⟨data'', hi'', hprefix.trans hprefix'⟩

variable (env : DataEnv)

/-- The blocks of a list are stored from `start` on. -/
def BlocksAt (out : List UInt8) : ℕ → List ℕ → List (List UInt8) → Prop
  | _, [], blocks => blocks = []
  | start, cByte :: blockList, blocks =>
    ∃ block rest, blocks = block :: rest ∧ cByte < 2 ^ 32 ∧
      if cByte = 0 then block = List.replicate block.length 0 ∧ BlocksAt out start blockList rest
      else ∃ stored, stored ≠ [] ∧ HoldsAt out start stored ∧
        compressedSizeBlock cByte = stored.length ∧ decodeBlock env cByte stored = some block ∧
        BlocksAt out (start + stored.length) blockList rest

/-- A part of a fragment. -/
def DataStore.FragmentAt (s : DataStore) (fragment : Fragment) (tail : List UInt8) : Prop :=
  if tail = [] then fragment = {}
  else fragment.size = tail.length ∧
    ∃ data, s.fragments[fragment.index]? = some data ∧ HoldsAt data fragment.offset tail

/-- A file is stored: `body` in blocks, and `tail` in a fragment. -/
structure FileStored (s : DataStore) (start : ℕ) (blockList : List ℕ) (fragment : Fragment)
    (body tail : List UInt8) : Prop where
  blocks : BlocksAt env s.out start blockList (cutBlocks env.blockSize body.length body)
  fragment : s.FragmentAt fragment tail
  full : tail ≠ [] → env.blockSize ∣ body.length

variable {env} {s s' : DataStore} {out : List UInt8}

theorem DataEnv.blockSize_pos (env : DataEnv) : 0 < env.blockSize := Nat.two_pow_pos _

theorem DataEnv.blockSize_le (env : DataEnv) : env.blockSize ≤ 2 ^ 20 :=
  Nat.pow_le_pow_right (by decide) env.blockLog_le

theorem BlocksAt.append {start : ℕ} {blockList : List ℕ} {blocks : List (List UInt8)}
    (h : BlocksAt env out start blockList blocks) (more : List UInt8) :
    BlocksAt env (out ++ more) start blockList blocks := by
  induction blockList generalizing start blocks with
  | nil => exact h
  | cons cByte blockList ih =>
      obtain ⟨block, rest, hblocks, hlt, hblock⟩ := h
      refine ⟨block, rest, hblocks, hlt, ?_⟩
      split
      · rename_i hzero
        rw [if_pos hzero] at hblock
        exact ⟨hblock.1, ih hblock.2⟩
      · rename_i hne
        rw [if_neg hne] at hblock
        obtain ⟨stored, hstored, hholds, hsize, hdecode, hrest⟩ := hblock
        exact ⟨stored, hstored, hholds.append hstored more, hsize, hdecode, ih hrest⟩

theorem DataStore.FragmentAt.grows {fragment : Fragment} {tail : List UInt8}
    (h : s.FragmentAt fragment tail) (hs : s.Grows s') : s'.FragmentAt fragment tail := by
  unfold DataStore.FragmentAt at h ⊢
  split
  · rename_i hnil
    rwa [if_pos hnil] at h
  · rename_i hne
    rw [if_neg hne] at h
    obtain ⟨hsize, data, hdata, hholds⟩ := h
    obtain ⟨data', hdata', more, rfl⟩ := hs.fragments _ _ hdata
    exact ⟨hsize, _, hdata', hholds.append hne more⟩

theorem FileStored.grows {start : ℕ} {blockList : List ℕ} {fragment : Fragment}
    {body tail : List UInt8} (h : FileStored env s start blockList fragment body tail)
    (hs : s.Grows s') : FileStored env s' start blockList fragment body tail := by
  obtain ⟨more, hmore⟩ := hs.out
  exact ⟨hmore ▸ h.blocks.append more, h.fragment.grows hs, h.full⟩

theorem BlocksAt.length_eq {start : ℕ} {blockList : List ℕ} {blocks : List (List UInt8)}
    (h : BlocksAt env out start blockList blocks) : blockList.length = blocks.length := by
  induction blockList generalizing start blocks with
  | nil =>
      rw [show blocks = [] from h]
      rfl
  | cons cByte blockList ih =>
      obtain ⟨block, rest, rfl, -, hblock⟩ := h
      rw [List.length_cons, List.length_cons]
      congr 1
      split at hblock
      · exact ih hblock.2
      · obtain ⟨stored, -, -, -, -, hrest⟩ := hblock
        exact ih hrest

/-! ## Extracting what is stored -/

/-- What the pieces are: the blocks in turn, holes where they are not stored. -/
def piecesOf : List ℕ → List (List UInt8) → List Piece
  | cByte :: blockList, block :: blocks =>
    (if cByte = 0 then .hole block.length else .block block) :: piecesOf blockList blocks
  | _, _ => []

theorem readDataBlock_of_holdsAt {stored block : List UInt8} {start cByte : ℕ}
    (h : HoldsAt out start stored) (hne : stored ≠ [])
    (hsize : compressedSizeBlock cByte = stored.length)
    (hdecode : decodeBlock env cByte stored = some block) :
    readDataBlock env out start cByte = some block := by
  rw [readDataBlock, readFsBytes, hsize, readSlice_of_holdsAt h hne]
  exact hdecode

theorem readSlice_all (data : List UInt8) : readSlice data 0 data.length = some data := by
  rw [readSlice, if_pos (by omega), List.drop_zero, List.take_length]

/-- **The blocks are queued** as they were, if each has the size that the size of the file says. -/
theorem queueBlocks_of_blocksAt {dataSize i start : ℕ} {blockList : List ℕ}
    {blocks : List (List UInt8)} (h : BlocksAt env out start blockList blocks)
    (hsizes : ∀ j block, blocks[j]? = some block → block.length =
      if ((i + j : ℕ) : Int) = toInt32 (dataSize / env.blockSize : ℕ) then dataSize % env.blockSize
      else env.blockSize) :
    queueBlocks env out dataSize i start blockList = some (piecesOf blockList blocks) := by
  induction blockList generalizing i start blocks with
  | nil => rfl
  | cons cByte blockList ih =>
      obtain ⟨block, rest, rfl, -, hblock⟩ := h
      have hsize := hsizes 0 block rfl
      have hrest : ∀ j b, rest[j]? = some b → b.length =
          if ((i + 1 + j : ℕ) : Int) = toInt32 (dataSize / env.blockSize : ℕ) then
            dataSize % env.blockSize
          else env.blockSize := by
        intro j b hj
        have := hsizes (j + 1) b (by rwa [List.getElem?_cons_succ])
        rwa [show i + (j + 1) = i + 1 + j by omega] at this
      rw [Nat.add_zero] at hsize
      unfold queueBlocks piecesOf
      dsimp only
      rw [← hsize]
      split at hblock
      · rename_i hzero
        rw [if_pos hzero, if_pos hzero, ih hblock.2 hrest]
        rfl
      · rename_i hne
        obtain ⟨stored, hstored, hholds, hlen, hdecode, hnext⟩ := hblock
        rw [if_neg hne, if_neg hne, readDataBlock_of_holdsAt hholds hstored hlen hdecode, hlen]
        simp only [Option.bind_eq_bind, Option.bind_some, readSlice_all, ih hnext hrest]

/-- The bytes of a piece. -/
def Piece.bytes : Piece → List UInt8
  | .hole size => List.replicate size 0
  | .block bytes => bytes

/-- **The writer** puts the pieces behind what it has. -/
theorem writePieces_eq {sparse : Bool} {file : List UInt8} {hole : ℕ} (pieces : List Piece)
    {fileSize : ℕ}
    (hsize : (file ++ List.replicate hole 0 ++ pieces.flatMap Piece.bytes).length = fileSize) :
    writePieces sparse fileSize file hole pieces
      = file ++ List.replicate hole 0 ++ pieces.flatMap Piece.bytes := by
  induction pieces generalizing file hole with
  | nil =>
      rw [List.flatMap_nil, List.append_nil] at hsize ⊢
      unfold writePieces
      split
      · rename_i hnone
        rw [hnone, List.replicate_zero, List.append_nil]
      · rename_i hsome
        split
        · rw [List.length_append, List.length_replicate] at hsize
          rw [show fileSize - file.length = hole by omega]
          refine List.take_of_length_le ?_
          rw [List.length_append, List.length_replicate, hsize]
        · rw [List.append_assoc, ← List.replicate_succ', show hole - 1 + 1 = hole by omega]
  | cons piece pieces ih =>
      rw [List.flatMap_cons] at hsize ⊢
      cases piece with
      | hole size =>
          have hjoin : file ++ List.replicate hole 0 ++ ((Piece.hole size).bytes ++
              pieces.flatMap Piece.bytes)
              = file ++ List.replicate (hole + size) 0 ++ pieces.flatMap Piece.bytes := by
            rw [Piece.bytes, List.replicate_add, List.append_assoc, List.append_assoc,
              List.append_assoc]
          rw [hjoin] at hsize ⊢
          exact ih hsize
      | block bytes =>
          have hjoin : file ++ List.replicate hole 0 ++ ((Piece.block bytes).bytes ++
              pieces.flatMap Piece.bytes)
              = file ++ List.replicate hole 0 ++ bytes ++ List.replicate 0 0 ++
                pieces.flatMap Piece.bytes := by
            rw [Piece.bytes, List.replicate_zero, List.append_nil, List.append_assoc,
              List.append_assoc, List.append_assoc]
          rw [hjoin] at hsize ⊢
          exact ih hsize

theorem flatMap_piecesOf {start : ℕ} {blockList : List ℕ} {blocks : List (List UInt8)}
    (h : BlocksAt env out start blockList blocks) :
    (piecesOf blockList blocks).flatMap Piece.bytes = blocks.flatten := by
  induction blockList generalizing start blocks with
  | nil =>
      rw [show blocks = [] from h]
      rfl
  | cons cByte blockList ih =>
      obtain ⟨block, rest, rfl, -, hblock⟩ := h
      rw [piecesOf, List.flatMap_cons, List.flatten_cons]
      split at hblock
      · rename_i hzero
        rw [if_pos hzero, ih hblock.2, Piece.bytes, ← hblock.1]
      · rename_i hne
        obtain ⟨stored, -, -, -, -, hrest⟩ := hblock
        rw [if_neg hne, ih hrest, Piece.bytes]

/-! ## The inode -/

/-- The type that is written for a file. -/
theorem writtenType_file {a : InodeArgs} (h : a.type = .file) :
    a.writtenType = .file ∧ a.byteSize < 2 ^ 32 ∧ a.startBlock < 2 ^ 32 ∨ a.writtenType = .lreg := by
  rw [InodeArgs.writtenType, h]
  dsimp only
  split
  · exact .inr rfl
  · rename_i hplain
    simp only [not_or, not_le, not_lt] at hplain
    exact .inl ⟨rfl, hplain.2.1, hplain.2.2.1⟩

/-- What the fields of a file's inode are read as. -/
structure Inode.OfFile (t : InodeTable) (a : InodeArgs) (i : Inode) : Prop where
  data : i.data = a.byteSize
  start : i.start = a.startBlock
  fragment : i.fragment = a.fragmentIndex
  offset : i.offset = a.fragmentOffset
  blocks : i.blocks = t.blocks a.byteSize a.fragmentIndex
  fragBytes : i.fragBytes = t.fragBytes a.byteSize a.fragmentIndex
  blockList : readFields (List.replicate a.blockList.length 4) (t.bytes.drop i.blockPtr)
    = some a.blockList

/-- The fields of an inode are wide enough. -/
structure InodeArgs.FileFits (a : InodeArgs) : Prop where
  type : a.type = .file
  byteSize : a.byteSize < 2 ^ 63
  startBlock : a.startBlock < 2 ^ 63
  fragmentIndex : a.fragmentIndex < 2 ^ 32
  fragmentOffset : a.fragmentOffset < 2 ^ 32
  blockList : ∀ cByte ∈ a.blockList, cByte < 2 ^ 32

/-- **The inode of a file is read back**, in either form. -/
theorem readInode4_ofFile {a : InodeArgs} (h : a.FileFits) :
    ∃ record, createInode a = some record ∧ ∀ (t : InodeTable) (startBlock offset : ℕ),
      t.Holds startBlock offset record →
        ∃ i, readInode4 t startBlock offset = some i ∧ i.OfFile t a := by
  have hbase : ∀ t : InodeTable, (packFields a.baseFields).length = 16 := fun _ => by
    rw [length_packFields]
    rfl
  rcases writtenType_file h.type with ⟨htype, hsize, hstart⟩ | htype
  · refine ⟨packFields a.baseFields ++ (packFields [(4, a.startBlock), (4, a.fragmentIndex),
      (4, a.fragmentOffset), (4, a.byteSize)] ++ packFields (a.blockList.map fun b => (4, b))), ?_,
      fun t startBlock offset hholds => ?_⟩
    · rw [createInode, htype]
      simp only [packFields_append, List.append_assoc]
    · obtain ⟨blockPtr, rest, hread, hdrop⟩ := readInode4_of_holds hholds
      have hfields := readFields_packFields [(4, a.startBlock), (4, a.fragmentIndex),
        (4, a.fragmentOffset), (4, a.byteSize)]
        (packFields (a.blockList.map fun b => (4, b)) ++ rest)
      simp only [List.map_cons, List.map_nil] at hfields
      rw [Nat.mod_eq_of_lt (show a.startBlock < 256 ^ 4 from hstart),
        Nat.mod_eq_of_lt (show a.fragmentIndex < 256 ^ 4 from h.fragmentIndex),
        Nat.mod_eq_of_lt (show a.fragmentOffset < 256 ^ 4 from h.fragmentOffset),
        Nat.mod_eq_of_lt (show a.byteSize < 256 ^ 4 from hsize)] at hfields
      have htype' : (a.readBase t).type = .file := htype
      rw [hread, readInodeBody, htype', List.append_assoc]
      simp only [hfields, Option.bind_eq_bind, Option.bind_some]
      refine ⟨_, rfl, rfl, rfl, rfl, rfl, rfl, rfl, ?_⟩
      dsimp only
      rw [← List.drop_drop, hdrop, List.append_assoc, List.append_assoc, ← List.append_assoc
        (packFields a.baseFields), List.drop_left' (by
          rw [List.length_append, hbase t, length_packFields]
          rfl)]
      exact readFields_blockList h.blockList rest
  · refine ⟨packFields a.baseFields ++ (packFields [(8, a.startBlock), (8, a.byteSize),
      (8, if a.sparse ≠ 0 ∧ a.sparse ≥ a.byteSize then a.byteSize - 1 else a.sparse), (4, a.nlink),
      (4, a.fragmentIndex), (4, a.fragmentOffset), (4, a.xattr)] ++
        packFields (a.blockList.map fun b => (4, b))), ?_, fun t startBlock offset hholds => ?_⟩
    · rw [createInode, htype]
      simp only [packFields_append, List.append_assoc]
    · obtain ⟨blockPtr, rest, hread, hdrop⟩ := readInode4_of_holds hholds
      have hfields := readFields_packFields [(8, a.startBlock), (8, a.byteSize),
        (8, if a.sparse ≠ 0 ∧ a.sparse ≥ a.byteSize then a.byteSize - 1 else a.sparse), (4, a.nlink),
        (4, a.fragmentIndex), (4, a.fragmentOffset), (4, a.xattr)]
        (packFields (a.blockList.map fun b => (4, b)) ++ rest)
      simp only [List.map_cons, List.map_nil] at hfields
      have hstart := h.startBlock
      have hsize := h.byteSize
      rw [Nat.mod_eq_of_lt (show a.startBlock < 256 ^ 8 by omega),
        Nat.mod_eq_of_lt (show a.byteSize < 256 ^ 8 by omega),
        Nat.mod_eq_of_lt (show a.fragmentIndex < 256 ^ 4 from h.fragmentIndex),
        Nat.mod_eq_of_lt (show a.fragmentOffset < 256 ^ 4 from h.fragmentOffset)] at hfields
      have htype' : (a.readBase t).type = .lreg := htype
      rw [hread, readInodeBody, htype', List.append_assoc]
      simp only [hfields, Option.bind_eq_bind, Option.bind_some, toInt64_of_lt hsize]
      refine ⟨_, rfl, rfl, rfl, rfl, rfl, rfl, rfl, ?_⟩
      dsimp only
      rw [← List.drop_drop, hdrop, List.append_assoc, List.append_assoc, ← List.append_assoc
        (packFields a.baseFields), List.drop_left' (by
          rw [List.length_append, hbase t, length_packFields]
          rfl)]
      exact readFields_blockList h.blockList rest

/-! ## The file -/

/-- The table of `unsquashfs` is for a filesystem with these blocks. -/
structure InodeTable.For (t : InodeTable) (env : DataEnv) : Prop where
  blockSize : t.blockSize = env.blockSize
  blockLog : t.blockLog = env.blockLog

theorem shiftRight64_natCast (n k : ℕ) : shiftRight64 n k = (n / 2 ^ k : ℕ) := by
  rw [shiftRight64]
  norm_cast

/-- The number of blocks of a file, for the reader. -/
theorem blocks_eq {t : InodeTable} (ht : t.For env) (fileSize fragment : ℕ) :
    t.blocks fileSize fragment = toInt32 (if fragment = invalidFrag then
      (fileSize + env.blockSize - 1) / env.blockSize else fileSize / env.blockSize : ℕ) := by
  have hpos := env.blockSize_pos
  rw [InodeTable.blocks, ht.blockSize, ht.blockLog]
  split
  · rw [show (fileSize : Int) + (env.blockSize : ℕ) - 1 = ((fileSize + env.blockSize - 1 : ℕ) : Int) by
      omega, shiftRight64_natCast]
    rfl
  · rw [shiftRight64_natCast]
    rfl

/-- The number of bytes of a file in its fragment, for the reader. -/
theorem fragBytes_eq {t : InodeTable} (ht : t.For env) (fileSize fragment : ℕ) :
    t.fragBytes fileSize fragment
      = if fragment = invalidFrag then 0 else (fileSize % env.blockSize : ℕ) := by
  have hpos := env.blockSize_pos
  have hle := env.blockSize_le
  have hlt := Nat.mod_lt fileSize hpos
  rw [InodeTable.fragBytes, ht.blockSize]
  split
  · rfl
  · rw [Int.tmod_eq_emod_of_nonneg (Int.natCast_nonneg _), ← Int.natCast_emod]
    exact toInt32_of_lt (by omega)

/-- The fragments are in the image, where the table says. -/
def FragmentsIn (env : DataEnv) (img : List UInt8) (table : List (ℕ × ℕ))
    (fragments : List (List UInt8)) : Prop :=
  ∀ (i : ℕ) (data : List UInt8), fragments[i]? = some data → data ≠ [] →
    ∃ start size, table[i]? = some (start, size) ∧ readDataBlock env img start size = some data

/-- The blocks a file has, and their sizes, are what the reader takes from the size of the file. -/
theorem queueBlocks_of_fileStored {a : InodeArgs} {fragment : Fragment} {body tail : List UInt8}
    (h : FileStored env s a.startBlock a.blockList fragment body tail)
    (htail : tail.length < env.blockSize)
    (hsmall : (body.length + tail.length) / env.blockSize < 2 ^ 31) :
    queueBlocks env s.out (body.length + tail.length) 0 a.startBlock a.blockList
      = some (piecesOf a.blockList (cutBlocks env.blockSize body.length body)) := by
  have hpos := env.blockSize_pos
  refine queueBlocks_of_blocksAt h.blocks fun j block hj => ?_
  have hlen := length_getElem_cutBlocks hj
  have hcount := length_cutBlocks hpos (le_refl body.length)
  have hlt : j < (body.length + env.blockSize - 1) / env.blockSize := by
    rw [← hcount]
    exact (List.getElem?_eq_some_iff.mp hj).1
  rw [hlen, Nat.zero_add, toInt32_of_lt hsmall]
  simp only [Nat.cast_inj]
  have hmod := Nat.div_add_mod (body.length + tail.length) env.blockSize
  have hmodlt := Nat.mod_lt (body.length + tail.length) hpos
  rw [Nat.lt_div_iff_mul_lt hpos] at hlt
  by_cases hnil : tail = []
  · subst hnil
    rw [List.length_nil, Nat.add_zero] at hmod hmodlt ⊢
    split
    · rename_i hlast
      rw [hlast, Nat.mul_comm]
      omega
    · rename_i hne
      have hjlt : j < body.length / env.blockSize := by
        refine lt_of_le_of_ne ?_ hne
        rw [Nat.le_div_iff_mul_le hpos]
        omega
      have hfull : (j + 1) * env.blockSize ≤ body.length / env.blockSize * env.blockSize :=
        Nat.mul_le_mul_right _ hjlt
      rw [Nat.succ_mul] at hfull
      rw [Nat.mul_comm] at hmod
      omega
  · -- in front of a fragment all blocks are full
    obtain ⟨q, hq⟩ := h.full hnil
    have hjq : j < q := by
      by_contra hge
      have : q * env.blockSize ≤ j * env.blockSize := Nat.mul_le_mul_right _ (by omega)
      rw [hq, Nat.mul_comm env.blockSize q] at hlt
      omega
    have hfull : (j + 1) * env.blockSize ≤ q * env.blockSize := Nat.mul_le_mul_right _ hjq
    have hquot : (body.length + tail.length) / env.blockSize = q := by
      rw [hq, Nat.mul_add_div hpos, Nat.div_eq_of_lt htail, Nat.add_zero]
    rw [hquot, if_neg (by omega), hq, Nat.mul_comm env.blockSize q]
    rw [Nat.succ_mul] at hfull
    omega

/-- **A file that is stored is extracted** as it was, by the inode that says how it is stored. -/
theorem extractFile_of_fileStored {a : InodeArgs} {i : Inode} {t : InodeTable} (ht : t.For env)
    (hi : i.OfFile t a) {size : ℕ} {body tail : List UInt8}
    (h : FileStored env s a.startBlock a.blockList ⟨a.fragmentIndex, a.fragmentOffset, size⟩ body tail)
    (hsize : a.byteSize = body.length + tail.length) (htail : tail.length < env.blockSize)
    (hsmall : (body.length + env.blockSize - 1) / env.blockSize < 2 ^ 31)
    (hindex : tail ≠ [] → a.fragmentIndex ≠ invalidFrag) {img : List UInt8} (himg : s.out <+: img)
    {table : List (ℕ × ℕ)} (htable : FragmentsIn env img table s.fragments) :
    i.blocks = a.blockList.length ∧ extractFile env img t table i = some (body ++ tail) := by
  have hpos := env.blockSize_pos
  obtain ⟨more, rfl⟩ := himg
  have hstored : FileStored env ⟨s.out ++ more, s.fragments⟩ a.startBlock a.blockList
      ⟨a.fragmentIndex, a.fragmentOffset, size⟩ body tail := ⟨h.blocks.append more, h.fragment, h.full⟩
  -- the blocks in front of a fragment are full
  have hquot : (body.length + tail.length) / env.blockSize < 2 ^ 31 := by
    refine lt_of_le_of_lt ?_ hsmall
    by_cases hnil : tail = []
    · rw [hnil, List.length_nil, Nat.add_zero]
      exact Nat.div_le_div_right (by omega)
    · obtain ⟨q, hq⟩ := h.full hnil
      rw [hq, Nat.mul_add_div hpos, Nat.div_eq_of_lt htail, Nat.add_zero, Nat.le_div_iff_mul_le hpos,
        Nat.mul_comm]
      omega
  have hpieces := queueBlocks_of_fileStored hstored htail hquot
  have hbytes := flatMap_piecesOf hstored.blocks
  rw [flatten_cutBlocks hpos (le_refl _)] at hbytes
  have hcount := hstored.blocks.length_eq
  rw [length_cutBlocks hpos (le_refl _)] at hcount
  have hblocks := hi.blocks
  have hfragBytes := hi.fragBytes
  rw [hsize] at hblocks hfragBytes
  rw [blocks_eq ht] at hblocks
  rw [fragBytes_eq ht] at hfragBytes
  have hdata : i.data.toNat = body.length + tail.length := by
    rw [hi.data, Int.toNat_natCast, hsize]
  by_cases hnil : tail = []
  · subst hnil
    have hinvalid : a.fragmentIndex = invalidFrag := by
      have hfragment := h.fragment
      rw [DataStore.FragmentAt, if_pos rfl, Fragment.mk.injEq] at hfragment
      exact hfragment.1
    rw [if_pos hinvalid] at hblocks hfragBytes
    rw [List.length_nil, Nat.add_zero] at hblocks hdata hpieces
    rw [toInt32_of_lt hsmall] at hblocks
    have hlist : i.blocks = a.blockList.length := by rw [hblocks, hcount]
    refine ⟨hlist, ?_⟩
    rw [extractFile, hlist, Int.toNat_natCast, hi.blockList, hdata, hi.start, hfragBytes]
    simp only [Option.bind_eq_bind, Option.bind_some, hpieces, List.append_nil]
    rw [writePieces_eq _ (by rw [hbytes]; rfl), hbytes]
    rfl
  · have hvalid := hindex hnil
    rw [if_neg hvalid] at hblocks hfragBytes
    rw [toInt32_of_lt hquot] at hblocks
    obtain ⟨q, hq⟩ := h.full hnil
    have hquot : (body.length + tail.length) / env.blockSize = q := by
      rw [hq, Nat.mul_add_div hpos, Nat.div_eq_of_lt htail, Nat.add_zero]
    have hrem : (body.length + tail.length) % env.blockSize = tail.length := by
      rw [hq, Nat.mul_add_mod, Nat.mod_eq_of_lt htail]
    have hcount' : a.blockList.length = q := by
      rw [hcount, hq, show env.blockSize * q + env.blockSize - 1 = env.blockSize - 1 + env.blockSize * q
        by omega, Nat.add_mul_div_left _ _ hpos, Nat.div_eq_of_lt (by omega), Nat.zero_add]
    have hlist : i.blocks = a.blockList.length := by rw [hblocks, hquot, hcount']
    refine ⟨hlist, ?_⟩
    have hfragment := h.fragment
    rw [DataStore.FragmentAt, if_neg hnil] at hfragment
    obtain ⟨-, data, hdata', hholds⟩ := hfragment
    have hne : data ≠ [] := by
      rintro rfl
      have := hholds.length_le hnil
      have := List.length_pos_iff.mpr hnil
      rw [List.length_nil] at *
      omega
    obtain ⟨start, fsize, hentry, hread⟩ := htable _ _ hdata' hne
    have hslice := readSlice_of_holdsAt hholds hnil
    have htailPos := List.length_pos_iff.mpr hnil
    rw [hrem] at hfragBytes
    rw [extractFile, hlist, Int.toNat_natCast, hi.blockList, hdata, hi.start, hfragBytes, hi.fragment,
      hi.offset]
    simp only [Option.bind_eq_bind, Option.bind_some, hpieces, hentry, hread, Int.toNat_natCast]
    rw [if_neg (by omega)]
    simp only [hslice, Option.bind_some]
    have hall : ((piecesOf a.blockList (cutBlocks env.blockSize body.length body) ++
        [Piece.block tail]).flatMap Piece.bytes) = body ++ tail := by
      rw [List.flatMap_append, hbytes, List.flatMap_singleton]
      rfl
    rw [writePieces_eq _ (by rw [hall, List.replicate_zero]; simp), hall]
    rfl

end FirmwareTools.Squashfs

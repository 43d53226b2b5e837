import FirmwareTools.Squashfs.XattrStore

/-! # Extended attributes read back

* **`readXattrsFromDisk_writeXattrs`** — what `write_xattrs` puts into an image is found there, whatever
  is around it;
* **`getXattr_of_listAt`** — and the id of a list gives the list. -/

namespace FirmwareTools.Squashfs

variable {env : XattrEnv} {s s' : Store}

/-! ## References -/

/-- The store when everything is written: the last block may be short. -/
structure Store.Final (env : XattrEnv) (s : Store) : Prop where
  data : s.blocks.flatten = s.data
  blocks : ∀ b ∈ s.blocks, b ≠ [] ∧ b.length ≤ metadataSize
  full : ∀ b ∈ s.blocks.dropLast, b.length = metadataSize
  small : (s.blocks.flatMap env.enc).length < 2 ^ 32
  short : s.data.length < 2 ^ 32

/-- What `read_xattrs_from_disk` leaves of a store. -/
structure XattrTables.Of (env : XattrEnv) (s : Store) (t : XattrTables) : Prop where
  starts : t.starts = (placed env.enc t.tableStart s.blocks).map Prod.fst
  xattrs : ∃ rest, t.xattrs = s.data ++ rest

theorem xattrBlk_or {start offset : ℕ} (hstart : start < 2 ^ 32) (hoffset : offset < 2 ^ 16) :
    xattrBlk ((start <<< 16) ||| offset) = start := by
  rw [xattrBlk, Nat.shiftRight_or_distrib, Nat.shiftLeft_shiftRight, Nat.shiftRight_eq_div_pow,
    Nat.div_eq_of_lt hoffset, Nat.or_zero, Nat.mod_eq_of_lt hstart]

theorem xattrOffset_or {start offset : ℕ} (hoffset : offset < 2 ^ 16) :
    xattrOffset ((start <<< 16) ||| offset) = offset := by
  rw [xattrOffset, Nat.or_mod_two_pow, Nat.shiftLeft_eq, Nat.mul_mod_left, Nat.zero_or,
    Nat.mod_eq_of_lt hoffset]

theorem blockStart_le {enc : List UInt8 → List UInt8} (blocks : List (List UInt8)) (k : ℕ) :
    blockStart enc blocks k ≤ (blocks.flatMap enc).length := by
  conv_rhs => rw [← List.take_append_drop k blocks, List.flatMap_append, List.length_append]
  exact Nat.le_add_right _ _

theorem Store.Final.length_le {s : Store} (h : s.Final env) :
    s.data.length ≤ s.blocks.length * metadataSize := by
  rw [← h.data]
  exact length_flatten_le fun b hb => (h.blocks b hb).2

/-- A reference to the stream is 48 bits long, and leads to its byte. -/
theorem pointer_of_refersTo {t : XattrTables} (h : s.Final env) (ht : t.Of env s) {xattr o : ℕ}
    (hrefers : s.RefersTo env xattr o) (ho : o < s.data.length) :
    t.pointer xattr = o ∧ xattr < 2 ^ 64 := by
  obtain ⟨start, offset, rfl, hplace⟩ := hrefers
  have hlen := h.length_le
  obtain ⟨k, hk, hko⟩ := @getBlock_place env.enc metadataSize s.blocks
    (fun b _ => length_encodeMetadata_pos env.comp env.noX b) t.tableStart start offset o hplace
    (by omega)
  obtain ⟨j, hj, hstart, -, hoffset⟩ := hplace
  have hsmall := h.small
  have hle := @blockStart_le env.enc s.blocks j
  have hmeta : metadataSize < 2 ^ 16 := by decide
  have hstart' : start < 2 ^ 32 := by omega
  have hoffset' : offset < 2 ^ 16 := by omega
  refine ⟨?_, ?_⟩
  · rw [XattrTables.pointer, xattrBlk_or hstart' hoffset', xattrOffset_or hoffset', ht.starts,
      Nat.add_comm, hk]
    change ((k * metadataSize : ℕ) : Int) + (offset : Int) = o
    exact_mod_cast hko
  · refine Nat.or_lt_two_pow ?_ (by omega)
    rw [Nat.shiftLeft_eq]
    omega

theorem XattrTables.read_natCast (t : XattrTables) (o count : ℕ) :
    t.read o count = readSlice t.xattrs o count := by
  rw [XattrTables.read, if_neg (by omega), Int.toNat_natCast]

/-! ## Entries -/

/-- A stored value is read. -/
theorem readValue_packValue {t : XattrTables} (h : s.Final env) (ht : t.Of env s) {o : ℕ}
    {value : List UInt8} (hvalue : HoldsAt s.data o (packValue value)) :
    t.readValue o = some value := by
  obtain ⟨rest, hrest⟩ := ht.xattrs
  have hlen := hvalue.length_le (packValue_ne_nil value)
  have hshort := h.short
  rw [length_packValue] at hlen
  have hbuffer := hvalue.append (packValue_ne_nil value) rest
  rw [← hrest] at hbuffer
  unfold packValue at hbuffer
  have hsize := readSlice_of_holdsAt hbuffer.left (by simp [packFields, leBytes])
  have hbytes := readSlice_of_holdsAt_right hbuffer (by simp [packFields, leBytes])
  have hfour : (packFields [(4, value.length)]).length = 4 := by
    rw [length_packFields]
    rfl
  rw [hfour] at hsize hbytes
  have hwidth : value.length < 256 ^ 4 := by omega
  have hfield : leValue (packFields [(4, value.length)]) = value.length := by
    rw [packFields, List.flatMap_singleton, leValue_leBytes, Nat.mod_eq_of_lt hwidth]
  rw [XattrTables.readValue, XattrTables.read_natCast, hsize, Option.bind_eq_bind, Option.bind_some,
    hfield, show ((o : Int) + 4) = ((o + 4 : ℕ) : Int) from rfl, XattrTables.read_natCast, hbytes]

theorem Xattr.TypeOk.lt {x : Xattr} (h : x.TypeOk) : x.type < 2 ^ 16 := by
  rcases h with h | h <;> rw [h] <;> cases x.pair.pre <;> decide

theorem Xattr.TypeOk.prefix {x : Xattr} (h : x.TypeOk) :
    XattrPrefix.ofType (x.type &&& xattrPrefixMask) = some x.pair.pre := by
  rcases h with h | h <;> rw [h] <;> cases x.pair.pre <;> rfl

/-- **One entry is read back**: the full name and the value, and the next entry is behind it. -/
theorem readXattrEntry_encodeXattr {t : XattrTables} (h : s.Final env) (ht : t.Of env s) {o : ℕ}
    {x : Xattr} (hx : x.TypeOk) (hstored : x.isOol = true → s.ValueAt env x.oolValue x.pair.value)
    (hentry : HoldsAt s.data o (encodeXattr x)) :
    readXattrEntry t o
      = some ((x.pair.fullName, x.pair.value), ((o + (encodeXattr x).length : ℕ) : Int)) := by
  obtain ⟨rest, hrest⟩ := ht.xattrs
  have hbuffer := hentry.append (encodeXattr_ne_nil x) rest
  rw [← hrest] at hbuffer
  unfold encodeXattr at hbuffer
  have hhead := hbuffer.left
  have hfields := readFields_packFields [(2, x.type), (2, x.pair.name.length)] []
  have hfour : (packFields [(2, x.type), (2, x.pair.name.length)]).length = 4 := by
    rw [length_packFields]
    rfl
  have hheader := readSlice_of_holdsAt hhead.left (by simp [packFields, leBytes])
  have hname := readSlice_of_holdsAt_right hhead (by simp [packFields, leBytes])
  have hshort := x.pair.short
  have htype := hx.lt
  simp only [List.map_cons, List.map_nil, List.append_nil] at hfields
  rw [Nat.mod_eq_of_lt (by simpa using htype), Nat.mod_eq_of_lt (by simpa using hshort)] at hfields
  rw [hfour] at hheader hname
  have hbody := hbuffer.right
  have hbody' := hentry
  unfold encodeXattr at hbody'
  replace hbody' := hbody'.right
  rw [List.length_append, hfour] at hbody hbody'
  unfold readXattrEntry
  rw [XattrTables.read_natCast, hheader]
  simp only [Option.bind_eq_bind, Option.bind_some, hfields, hx.prefix]
  rw [show ((o : Int) + 4) = ((o + 4 : ℕ) : Int) from rfl, XattrTables.read_natCast, hname,
    Option.bind_some]
  change (if x.isOol = true then _ else _) = _
  have hnext : ((o + 4 : ℕ) : Int) + (x.pair.name.length : Int)
      = ((o + (4 + x.pair.name.length) : ℕ) : Int) := by
    push_cast
    ring
  cases hool : x.isOol with
  | false =>
      rw [hool, if_neg Bool.false_ne_true] at hbody'
      rw [if_neg Bool.false_ne_true, hnext, readValue_packValue h ht hbody', Option.bind_some]
      have hend : ((o + (4 + x.pair.name.length) : ℕ) : Int) + 4 + (x.pair.value.length : Int)
          = ((o + (encodeXattr x).length : ℕ) : Int) := by
        rw [encodeXattr, hool, if_neg Bool.false_ne_true, List.length_append, List.length_append,
          hfour, length_packValue]
        push_cast
        ring
      rw [hend]
      rfl
  | true =>
      obtain ⟨p, hrefers, hvalue⟩ := hstored hool
      have hp := hvalue.length_le (packValue_ne_nil x.pair.value)
      rw [length_packValue] at hp
      obtain ⟨hpointer, hbound⟩ := pointer_of_refersTo h ht hrefers (by omega)
      rw [hool, if_pos rfl] at hbody
      have hsplit : packFields [(4, xattrValueOolSize), (8, x.oolValue)]
          = leBytes 4 xattrValueOolSize ++ leBytes 8 x.oolValue := by
        simp [packFields]
      rw [hsplit] at hbody
      have hxattr := readSlice_of_holdsAt hbody.right (by simp [leBytes])
      rw [length_leBytes, length_leBytes] at hxattr
      have hfield : leValue (leBytes 8 x.oolValue) = x.oolValue := by
        rw [leValue_leBytes, Nat.mod_eq_of_lt (by simpa using hbound)]
      rw [if_pos rfl, hnext, show (((o + (4 + x.pair.name.length) : ℕ) : Int) + 4)
          = ((o + (4 + x.pair.name.length) + 4 : ℕ) : Int) from rfl, XattrTables.read_natCast, hxattr,
        Option.bind_some, hfield, hpointer, readValue_packValue h ht hvalue, Option.bind_some]
      have hend : ((o + (4 + x.pair.name.length) + 4 : ℕ) : Int) + 8
          = ((o + (encodeXattr x).length : ℕ) : Int) := by
        rw [encodeXattr, hool, if_pos rfl, List.length_append, List.length_append, hfour,
          length_packFields]
        push_cast
        simp only [List.map_cons, List.map_nil, List.sum_cons, List.sum_nil]
        push_cast
        ring
      rw [hend]
      rfl

/-- The entries of a list are read back in turn. -/
theorem readXattrEntries_encodeXattr {t : XattrTables} (h : s.Final env) (ht : t.Of env s) {o : ℕ}
    {xs : List Xattr}
    (hxs : ∀ x ∈ xs, x.TypeOk ∧ (x.isOol = true → s.ValueAt env x.oolValue x.pair.value))
    (hentries : HoldsAt s.data o (xs.flatMap encodeXattr)) :
    readXattrEntries t xs.length o = some ((xs.map Xattr.pair).map fun x => (x.fullName, x.value)) := by
  induction xs generalizing o with
  | nil => rfl
  | cons x xs ih =>
      rw [List.forall_mem_cons] at hxs
      rw [List.flatMap_cons] at hentries
      rw [List.length_cons, readXattrEntries,
        readXattrEntry_encodeXattr h ht hxs.1.1 hxs.1.2 hentries.left]
      simp only [Option.bind_eq_bind, Option.bind_some, ih hxs.2 hentries.right]
      rfl

/-- **A list that is stored is read back** by its entry of the id table. -/
theorem readXattrEntries_of_listAt {t : XattrTables} (h : s.Final env) (ht : t.Of env s)
    {id : XattrId} {pairs : List NameValue} (hid : s.ListAt env id pairs) :
    readXattrEntries t (id.count % 2 ^ 32) (t.pointer (id.xattr % 2 ^ 64))
      = some (pairs.map fun x => (x.fullName, x.value)) := by
  obtain ⟨o, xs, hrefers, hentries, rfl, hcount, hall⟩ := hid
  cases xs with
  | nil =>
      rw [hcount]
      rfl
  | cons x xs =>
      have hne : (x :: xs).flatMap encodeXattr ≠ [] := by
        rw [List.flatMap_cons]
        exact List.append_ne_nil_of_left_ne_nil (encodeXattr_ne_nil x) _
      have hlen := hentries.length_le hne
      have hpos := List.length_pos_iff.mpr hne
      have hcountLe : (x :: xs).length ≤ ((x :: xs).flatMap encodeXattr).length :=
        length_le_length_flatMap fun x _ => List.length_pos_iff.mpr (encodeXattr_ne_nil x)
      obtain ⟨hpointer, hbound⟩ := pointer_of_refersTo h ht hrefers (by omega)
      have hshort := h.short
      rw [hcount, Nat.mod_eq_of_lt (by omega), Nat.mod_eq_of_lt hbound, hpointer]
      exact readXattrEntries_encodeXattr h ht hall hentries

/-! ## The image -/

/-- An entry of the id table as it is stored. -/
def packXattrId (id : XattrId) : List UInt8 := packFields [(8, id.xattr), (4, id.count), (4, id.size)]

/-- An entry of the id table with its fields as wide as they are stored. -/
def XattrId.truncate (id : XattrId) : XattrId :=
  ⟨id.xattr % 2 ^ 64, id.count % 2 ^ 32, id.size % 2 ^ 32⟩

theorem length_packXattrId (id : XattrId) : (packXattrId id).length = 16 := by
  rw [packXattrId, length_packFields]
  rfl

theorem length_flatMap_packXattrId (ids : List XattrId) :
    (ids.flatMap packXattrId).length = ids.length * 16 := by
  rw [List.length_flatMap, List.map_congr_left fun id _ => length_packXattrId id, List.map_const',
    List.sum_replicate_nat]

theorem readXattrId_packXattrId (before : List XattrId) (id : XattrId) (after : List UInt8) :
    readXattrId (before.flatMap packXattrId ++ (packXattrId id ++ after)) before.length
      = some id.truncate := by
  have hfields := readFields_packFields [(8, id.xattr), (4, id.count), (4, id.size)] after
  rw [readXattrId, List.drop_left' (by rw [length_flatMap_packXattrId, Nat.mul_comm])]
  simp only [List.map_cons, List.map_nil] at hfields
  rw [packXattrId, hfields]
  rfl

/-- The store with what is left in the cache written. -/
def Store.finish (s : Store) (cache : List UInt8) : Store :=
  ⟨s.blocks ++ cutBlocks metadataSize cache.length cache, s.data⟩

theorem Store.grows_finish (s : Store) (cache : List UInt8) : s.Grows (s.finish cache) :=
  ⟨⟨_, rfl⟩, [], (List.append_nil _).symm⟩

theorem Store.final_finish {stream : BlockStream}
    (h : stream.Holds env.enc metadataSize s.blocks s.data) (hsmall : s.data.length < 2 ^ 30) :
    (s.finish stream.cache).Final env := by
  have hsize : 0 < metadataSize := by decide
  have hflat : (s.blocks ++ cutBlocks metadataSize stream.cache.length stream.cache).flatten = s.data := by
    rw [List.flatten_append, flatten_cutBlocks hsize (le_refl _), h.data]
  have hblocks : ∀ b ∈ s.blocks ++ cutBlocks metadataSize stream.cache.length stream.cache,
      b ≠ [] ∧ b.length ≤ metadataSize := by
    rw [List.forall_mem_append]
    refine ⟨fun b hb => ⟨fun hnil => ?_, (h.full b hb).le⟩, fun b hb => cutBlocks_ne_nil hsize hb⟩
    have := h.full b hb
    rw [hnil, List.length_nil] at this
    omega
  refine ⟨hflat, hblocks, fun b hb => ?_, ?_, by simp only [Store.finish]; omega⟩
  · unfold Store.finish at hb
    dsimp only at hb
    cases hcut : cutBlocks metadataSize stream.cache.length stream.cache with
    | nil =>
        rw [hcut, List.append_nil] at hb
        exact h.full b (List.dropLast_subset _ hb)
    | cons c cs =>
        rw [List.dropLast_append_of_ne_nil (by rw [hcut]; exact List.cons_ne_nil c cs)] at hb
        rcases List.mem_append.mp hb with hb | hb
        · exact h.full b hb
        · exact length_of_mem_dropLast_cutBlocks hb
  · have hle := length_flatMap_encodeMetadata_le env.comp env.noX fun b hb => (hblocks b hb).1
    rw [hflat] at hle
    refine lt_of_le_of_lt hle ?_
    omega

/-- All metadata blocks of an image are read back. -/
theorem readBlocks_of_holdsAt (hcomp : env.comp.Lossless) (h : s.Final env) {img : List UInt8}
    {bytes : ℕ} (himg : HoldsAt img bytes (s.blocks.flatMap env.enc)) :
    readBlocks (readBlock env.comp img) (bytes + (s.blocks.flatMap env.enc).length) img.length bytes
      = some (placed env.enc bytes s.blocks) := by
  have hpos : ∀ b ∈ s.blocks, 1 ≤ (env.enc b).length := fun b _ =>
    length_encodeMetadata_pos env.comp env.noX b
  refine readBlocks_placed (fun before b after hsplit => ?_)
    (fun b hb => ⟨(h.blocks b hb).1, hpos b hb⟩) rfl ?_
  · rw [hsplit, List.flatMap_append, List.flatMap_cons] at himg
    have hb := h.blocks b (by rw [hsplit]; simp)
    rw [readBlock_encodeMetadata hcomp hb.1 hb.2 himg.right.left, List.flatMap_append,
      List.flatMap_singleton, List.length_append, Nat.add_assoc]
  · cases hblocks : s.blocks with
    | nil => exact Nat.zero_le _
    | cons b blocks =>
        have hne : s.blocks.flatMap env.enc ≠ [] := by
          rw [hblocks, List.flatMap_cons]
          refine List.append_ne_nil_of_left_ne_nil (List.length_pos_iff.mp ?_) _
          exact length_encodeMetadata_pos env.comp env.noX b
        have hlen := himg.length_le hne
        have hcount : s.blocks.length ≤ (s.blocks.flatMap env.enc).length :=
          length_le_length_flatMap hpos
        rw [← hblocks]
        omega

/-- What is written takes no more bytes than this. -/
theorem length_writeXattrs_le {st : XattrState}
    (h : st.stream.Holds env.enc metadataSize s.blocks s.data) (hsmall : s.data.length < 2 ^ 30)
    (hne : st.idTable ≠ []) (bytes unused : ℕ) :
    ∃ segment start, writeXattrs env st bytes unused = some (segment, start) ∧
      segment.length ≤ 3 * s.data.length + 11 * (16 * st.idTable.length) + 16 := by
  have hfinal := Store.final_finish h hsmall
  have htable : (s.blocks.flatMap env.enc).length + ((cutBlocks metadataSize st.stream.cache.length
      st.stream.cache).flatMap (encodeMetadata env.comp env.noX)).length ≤ 3 * s.data.length := by
    rw [← List.length_append, ← List.flatMap_append]
    exact (length_flatMap_encodeMetadata_le env.comp env.noX fun b hb =>
      (hfinal.blocks b hb).1).trans_eq (by rw [hfinal.data]; rfl)
  unfold writeXattrs
  rw [if_neg hne]
  refine ⟨_, _, rfl, ?_⟩
  rw [List.length_append, List.length_append, h.written]
  change _ + (genericWriteTable _ _ _ (st.idTable.flatMap packXattrId) _).1.length ≤ _
  refine (Nat.add_le_add_left (length_genericWriteTable_le _ _ _ _ _) _).trans ?_
  rw [length_flatMap_packXattrId, length_packFields]
  simp only [List.map_cons, List.map_nil, List.sum_cons, List.sum_nil]
  omega

/-- The header of a table is found where the table is said to begin. -/
theorem readFsBytes_header {comp : Compressor} {uncompressed : Bool}
    {img buffer header : List UInt8} {bytes : ℕ} (hheader : header ≠ [])
    (h : HoldsAt img bytes (genericWriteTable comp uncompressed bytes buffer header).1) :
    readFsBytes img (genericWriteTable comp uncompressed bytes buffer header).2 header.length
      = some header := by
  unfold genericWriteTable at h ⊢
  exact readSlice_of_holdsAt h.left.right hheader

/-- The id table is found in the blocks that were written of it. -/
theorem mapM_readXattrId_layOut (fresh : ℕ → UInt8) (ids : List XattrId) :
    (List.range ids.length).mapM (readXattrId (layOut metadataSize fresh 0
        (cutBlocks metadataSize (ids.flatMap packXattrId).length (ids.flatMap packXattrId))))
      = some (ids.map XattrId.truncate) := by
  obtain ⟨rest, hrest⟩ := @layOut_eq metadataSize
    (cutBlocks metadataSize (ids.flatMap packXattrId).length (ids.flatMap packXattrId)) fresh 0
    fun b hb => length_of_mem_dropLast_cutBlocks hb
  rw [hrest, flatten_cutBlocks (by decide) (le_refl _), List.range_eq_range']
  exact mapM_range'_records readXattrId_packXattrId [] ids rest

/-- **What `write_xattrs` writes is read back**, wherever it is in an image. -/
theorem readXattrsFromDisk_writeXattrs (hcomp : env.comp.Lossless) {st : XattrState}
    (h : st.stream.Holds env.enc metadataSize s.blocks s.data) (hsmall : s.data.length < 2 ^ 30)
    (hids : st.idTable.length < 2 ^ 32) {bytes unused start : ℕ} {segment img : List UInt8}
    (hwrite : writeXattrs env st bytes unused = some (segment, start))
    (himg : HoldsAt img bytes segment) (hbound : img.length < 2 ^ 63) (fresh : ℕ → UInt8) :
    ∃ t, readXattrsFromDisk env.comp fresh img start = some t ∧
      t.Of env (s.finish st.stream.cache) ∧ t.ids = st.idTable.map XattrId.truncate := by
  have hfinal := Store.final_finish h hsmall
  unfold writeXattrs at hwrite
  split at hwrite
  · cases hwrite
  rename_i hne
  set final := s.finish st.stream.cache with hfinish
  have htable : st.stream.written ++ (cutBlocks metadataSize st.stream.cache.length
      st.stream.cache).flatMap (encodeMetadata env.comp env.noX) = final.blocks.flatMap env.enc := by
    rw [hfinish, Store.finish, List.flatMap_append, h.written]
  dsimp only at hwrite
  rw [htable] at hwrite
  change some (_ ++ (genericWriteTable _ _ _ (st.idTable.flatMap packXattrId) _).1,
    (genericWriteTable _ _ _ (st.idTable.flatMap packXattrId) _).2) = _ at hwrite
  set table := final.blocks.flatMap env.enc with htable'
  set header := packFields [(8, bytes), (4, st.idTable.length), (4, unused)] with hheader
  obtain ⟨hsegment, hstart⟩ := Prod.mk.injEq .. ▸ Option.some.inj hwrite
  subst hsegment hstart
  have htail := himg.right
  have hlength := length_flatMap_packXattrId st.idTable
  have hpos := List.length_pos_iff.mpr hne
  have hbuffer : st.idTable.flatMap packXattrId ≠ [] := by
    rw [← List.length_pos_iff]
    omega
  have hread := readTable_of_holds hcomp hbuffer htail (by omega)
  have hheaderLength : header.length = 16 := by
    rw [hheader, length_packFields]
    rfl
  have hheaderNe : header ≠ [] := by
    rw [← List.length_pos_iff, hheaderLength]
    decide
  have hheaderRead := readFsBytes_header hheaderNe htail
  rw [hheaderLength] at hheaderRead hread
  rw [hlength] at hread
  -- the header is inside the image, so `bytes` fits into its field
  have hle := htail.length_le (by
    unfold genericWriteTable
    dsimp only
    rw [List.append_assoc]
    exact List.append_ne_nil_of_right_ne_nil _ (List.append_ne_nil_of_left_ne_nil hheaderNe _))
  have hfields := readFields_packFields [(8, bytes), (4, st.idTable.length), (4, unused)] []
  simp only [List.map_cons, List.map_nil, List.append_nil, ← hheader] at hfields
  rw [Nat.mod_eq_of_lt (show bytes < 256 ^ 8 by omega),
    Nat.mod_eq_of_lt (show st.idTable.length < 256 ^ 4 by omega)] at hfields
  have hblocks := readBlocks_of_holdsAt hcomp hfinal himg.left
  rw [← htable'] at hblocks
  have hidsRead := mapM_readXattrId_layOut fresh st.idTable
  -- the index begins with the end of the metadata
  have hindex : ((placed (encodeMetadata env.comp env.noX) (bytes + table.length)
      (cutBlocks metadataSize (st.idTable.flatMap packXattrId).length
        (st.idTable.flatMap packXattrId))).map Prod.fst).headD 0 = bytes + table.length := by
    refine headD_placed fun hnil => hbuffer ?_
    rw [← @flatten_cutBlocks metadataSize _ (st.idTable.flatMap packXattrId) (by decide) (le_refl _), hnil]
    rfl
  rw [hlength] at hidsRead hindex
  simp only [readXattrsFromDisk, hheaderRead, Option.bind_eq_bind, Option.bind_some, hfields, hread,
    hindex, hblocks, hidsRead]
  obtain ⟨rest, hrest⟩ := @layOut_eq metadataSize final.blocks fresh 0 hfinal.full
  refine ⟨_, rfl, ⟨rfl, rest, ?_⟩, rfl⟩
  dsimp only
  rw [map_snd_placed, hrest, hfinal.data]

/-- **The id of a list gives the list.** -/
theorem getXattr_of_listAt {t : XattrTables} (h : s.Final env) (ht : t.Of env s)
    {ids : List XattrId} (hids : t.ids = ids.map XattrId.truncate) {i : ℕ} {id : XattrId}
    {pairs : List NameValue} (hi : ids[i]? = some id) (hid : s.ListAt env id pairs) :
    getXattr t i = some (pairs.map fun x => (x.fullName, x.value)) := by
  rw [getXattr, hids, List.getElem?_map, hi]
  exact readXattrEntries_of_listAt h ht hid

end FirmwareTools.Squashfs

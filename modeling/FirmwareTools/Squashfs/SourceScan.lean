import FirmwareTools.Squashfs.SourceTree

/-! # Scanning the source directories

`dir_scan1` goes through the source directories and makes an entry for each file that is not excluded;
`dir_scan2` adds what the pseudo file definitions say and sorts the directories. Names with the same
`struct stat` are names of one inode. Directories are numbered from `1` on, all other inodes from `0`.

* **`Scan.Numbered.perm_inodeNumber`** — with the others behind the directories the numbers are those
  from `1` to the number of inodes;
* **`mem_inodes_sourceDirScan`** — every inode has a name in the tree. -/

namespace FirmwareTools.Squashfs

/-! ## The inodes -/

/-- The inodes found so far, in this order, and the next numbers. -/
structure Scan where
  inodeInfo : List InodeInfo := []
  dirInodeNo : ℕ := 1
  inodeNo : ℕ := 0
  pseudoIno : ℕ := 1

/-- What is known of an inode. -/
def Scan.info (s : Scan) (i : ℕ) : InodeInfo := s.inodeInfo.getD i {}

/-- A new inode. -/
def newInode (buf : FileStat) (inodeNumber : ℕ) : InodeInfo :=
  { buf, inodeNumber, pseudoFile := .no, reg_of_process := fun h => nomatch h }

/-- `lookup_inode`: of inodes with this `struct stat` the one that came last is found. -/
def lookupInode (s : Scan) (buf : FileStat) : ℕ × Scan :=
  match (List.range s.inodeInfo.length).reverse.find? fun i => (s.info i).buf = buf with
  | some i =>
    (i, { s with inodeInfo := s.inodeInfo.modify i fun inode => { inode with nlink := inode.nlink + 1 } })
  | none =>
    let i := s.inodeInfo.length
    if buf.format = .dir then
      (i, { s with inodeInfo := s.inodeInfo ++ [newInode buf s.dirInodeNo],
                   dirInodeNo := s.dirInodeNo + 1 })
    else
      (i, { s with inodeInfo := s.inodeInfo ++ [newInode buf s.inodeNo], inodeNo := s.inodeNo + 1 })

/-! ## `dir_scan1` -/

/-- What is in a source directory: names, each with what `lstat` says (`none` if it fails or says an
unknown file type), whether the name is excluded, and what is in it if it is a directory that can be
opened. -/
inductive SourceDir
  | nil
  | cons (name : String) (stat : Option FileStat) (excluded opened : Bool) (sub rest : SourceDir)

/-- `dir_scan1` -/
def dirScan1 : SourceDir → Scan → Entries String × Scan
  | .nil, s => (.nil, s)
  | .cons name stat excluded opened sub rest, s =>
    match stat with
    | none => dirScan1 rest s
    | some buf =>
      if excluded ∨ (buf.format = .dir ∧ ¬ opened) then dirScan1 rest s
      else
        let d := if buf.format = .dir then dirScan1 sub s else (.nil, s)
        let i := lookupInode d.2 buf
        let r := dirScan1 rest i.2
        (.cons name i.1 d.1 r.1, r.2)

/-! ## `dir_scan2` -/

/-- The types of pseudo file definitions: `b`, `c`, `d`, `f` and `m`. -/
inductive PseudoType
  | b | c | d | f | m
  deriving DecidableEq, Repr

/-- The file type of what is made. -/
def PseudoType.format : PseudoType → FileFormat
  | .b => .blk
  | .c => .chr
  | .d => .dir
  | _ => .reg

/-- `struct pseudo_dev` -/
structure PseudoDev where
  type : PseudoType
  mode : ℕ := 0
  uid : ℕ := 0
  gid : ℕ := 0
  major : ℕ := 0
  minor : ℕ := 0

/-- `struct pseudo`: the definitions for a directory. A name on the way to others has no definition of
its own. -/
inductive Pseudo
  | nil
  | cons (name : String) (dev : Option PseudoDev) (pseudo rest : Pseudo)

/-- `pseudo_subdir` -/
def pseudoSubdir (filename : String) : Pseudo → Pseudo
  | .nil => .nil
  | .cons name _ pseudo rest => if filename = name then pseudo else pseudoSubdir filename rest

/-- `scan2_lookup` -/
def scan2Lookup (name : String) : Entries String → Option ℕ
  | .nil => none
  | .cons ent inode _ rest => if ent = name then some inode else scan2Lookup name rest

/-- `add_dir_entry` -/
def Entries.addDirEntry (dir : Entries String) (name : String) (inode : ℕ)
    (subDir : Entries String) : Entries String :=
  match dir with
  | .nil => .cons name inode subDir .nil
  | .cons ent i sub rest => .cons ent i sub (rest.addDirEntry name inode subDir)

/-- An entry at its place in a sorted directory. -/
def Entries.insertSorted (dir : Entries String) (name : String) (inode : ℕ)
    (subDir : Entries String) : Entries String :=
  match dir with
  | .nil => .cons name inode subDir .nil
  | .cons ent i sub rest =>
    if name < ent then .cons name inode subDir (.cons ent i sub rest)
    else .cons ent i sub (rest.insertSorted name inode subDir)

/-- `sort_directory` -/
def Entries.sortDirectory : Entries String → Entries String
  | .nil => .nil
  | .cons ent i sub rest => rest.sortDirectory.insertSorted ent i sub

/-- The definition of type `m` for an inode. -/
def InodeInfo.modifyBy (d : PseudoDev) (i : InodeInfo) : InodeInfo :=
  { i with buf := { i.buf with mode := d.mode, uid := d.uid, gid := d.gid } }

/-- The inode is the output of a process, or was made by another definition. -/
def InodeInfo.setPseudoFile (t : PseudoType) (i : InodeInfo) : InodeInfo :=
  if h : t = .f ∧ i.buf.format = .reg ∧ i.rootEntry = false then
    { i with pseudoFile := .process, reg_of_process := fun _ => h.2 }
  else { i with pseudoFile := .other, reg_of_process := fun h => nomatch h }

/-- The `struct stat` for a definition. -/
def PseudoDev.buf (d : PseudoDev) (time ino : ℕ) : FileStat :=
  { mode := d.mode, uid := d.uid, gid := d.gid, mtime := time, major := d.major, minor := d.minor,
    format := d.type.format, ino }

section

variable (time : ℕ)

/-- The loop of `dir_scan2` over the definitions for a directory. A directory that is made gets its own
entries first. -/
def pseudoScan : Pseudo → Entries String → Scan → Entries String × Scan
  | .nil, dir, s => (dir, s)
  | .cons name dev pseudo rest, dir, s =>
    match dev with
    | none => pseudoScan rest dir s
    | some d =>
      match scan2Lookup name dir with
      | some inode =>
        if d.type = .m ∧ (s.info inode).rootEntry = false then
          pseudoScan rest dir { s with inodeInfo := s.inodeInfo.modify inode (InodeInfo.modifyBy d) }
        else pseudoScan rest dir s
      | none =>
        if d.type = .m then pseudoScan rest dir s
        else
          let subDir := if d.type = .d then pseudoScan pseudo .nil s else (.nil, s)
          let i := lookupInode { subDir.2 with pseudoIno := subDir.2.pseudoIno + 1 }
            (d.buf time subDir.2.pseudoIno)
          pseudoScan rest (dir.addDirEntry name i.1 subDir.1.sortDirectory)
            { i.2 with inodeInfo := i.2.inodeInfo.modify i.1 (InodeInfo.setPseudoFile d.type) }

/-- The first loop of `dir_scan2`, over the directories that are there. -/
def subdirScan : Entries String → Pseudo → Scan → Entries String × Scan
  | .nil, _, s => (.nil, s)
  | .cons ent inode sub rest, pseudo, s =>
    let d :=
      if (s.info inode).rootEntry = false ∧ (s.info inode).buf.format = .dir then
        let e := subdirScan sub (pseudoSubdir ent pseudo) s
        let p := pseudoScan time (pseudoSubdir ent pseudo) e.1 e.2
        (p.1.sortDirectory, p.2)
      else (sub, s)
    let r := subdirScan rest pseudo d.2
    (.cons ent inode d.1 r.1, r.2)

/-- `dir_scan2` -/
def dirScan2 (dir : Entries String) (pseudo : Pseudo) (s : Scan) : Entries String × Scan :=
  let e := subdirScan time dir pseudo s
  let p := pseudoScan time pseudo e.1 e.2
  (p.1.sortDirectory, p.2)

end

/-! ## `dir_scan` -/

/-- The sources: what is in them, the definitions, and the `struct stat` of the top directory. -/
structure Sources where
  source : SourceDir
  pseudo : Pseudo := .nil
  rootBuf : FileStat
  root_dir : rootBuf.format = .dir
  time : ℕ := 0

/-- What is known of the sources after both scans: the tree, the inode of the top directory and all
inodes. -/
structure Scanned where
  tree : Entries String
  root : ℕ
  scan : Scan

/-- The beginning of `dir_scan`. -/
def sourceDirScan (src : Sources) : Scanned :=
  let first := dirScan1 src.source {}
  let second := dirScan2 src.time first.1 src.pseudo first.2
  let root := lookupInode second.2 src.rootBuf
  ⟨second.1, root.1, root.2⟩

/-! ## The numbers -/

/-- The directories have the numbers from `1` on, all others those from `0` on, in the order in which
they were found. There are no entries of an older filesystem. -/
structure Scan.Numbered (s : Scan) : Prop where
  pos : 1 ≤ s.dirInodeNo
  dirs : (s.inodeInfo.filter fun i => i.buf.format = .dir).map InodeInfo.inodeNumber =
    List.range' 1 (s.dirInodeNo - 1)
  others : (s.inodeInfo.filter fun i => ¬ i.buf.format = .dir).map InodeInfo.inodeNumber =
    List.range s.inodeNo
  plain : ∀ i ∈ s.inodeInfo, i.rootEntry = false

/-- A scan goes on: the inodes that come up are those of a list. -/
structure Scan.Adds (s s' : Scan) (inodes : List ℕ) : Prop where
  numbered : s.Numbered → s'.Numbered
  lt_iff : ∀ i, i < s'.inodeInfo.length ↔ i < s.inodeInfo.length ∨ i ∈ inodes

variable {s s' s'' : Scan} {inodes inodes' : List ℕ} {buf : FileStat}

theorem Scan.numbered_empty : Scan.Numbered {} := by
  constructor
  · exact le_refl 1
  · rfl
  · rfl
  · intro i hi
    cases hi

theorem Scan.Adds.refl (s : Scan) : s.Adds s [] := by
  constructor
  · exact id
  · simp

theorem Scan.Adds.trans (h : s.Adds s' inodes) (h' : s'.Adds s'' inodes') :
    s.Adds s'' (inodes ++ inodes') := by
  constructor
  · exact h'.numbered ∘ h.numbered
  · intro i
    rw [h'.lt_iff, h.lt_iff, List.mem_append, or_assoc]

theorem Scan.Adds.congr (h : s.Adds s' inodes) (hmem : ∀ i, i ∈ inodes' ↔ i ∈ inodes) :
    s.Adds s' inodes' := by
  constructor
  · exact h.numbered
  · intro i
    rw [h.lt_iff, hmem]

theorem Scan.info_of_getElem? {i : ℕ} {inode : InodeInfo} (h : s.inodeInfo[i]? = some inode) :
    s.info i = inode := by
  rw [info, List.getD_eq_getElem?_getD, h, Option.getD_some]

/-- A change that leaves file type and number of the inodes as they are. -/
theorem Scan.Adds.modify {f : InodeInfo → InodeInfo} (i pseudoIno : ℕ)
    (hf : ∀ inode, (f inode).buf.format = inode.buf.format ∧
      (f inode).inodeNumber = inode.inodeNumber ∧ (f inode).rootEntry = inode.rootEntry) :
    s.Adds { s with inodeInfo := s.inodeInfo.modify i f, pseudoIno } [] := by
  have hmap : ∀ (p : InodeInfo → Bool), (∀ inode, p (f inode) = p inode) → ∀ (l : List InodeInfo) n,
      ((l.modify n f).filter p).map InodeInfo.inodeNumber = (l.filter p).map InodeInfo.inodeNumber := by
    intro p hp l
    induction l with
    | nil => simp
    | cons a l ih =>
        intro n
        cases n with
        | zero =>
            rw [List.modify_zero_cons, List.filter_cons, List.filter_cons, hp]
            split
            · rw [List.map_cons, List.map_cons, (hf a).2.1]
            · rfl
        | succ n =>
            rw [List.modify_succ_cons, List.filter_cons, List.filter_cons]
            split
            · rw [List.map_cons, List.map_cons, ih]
            · exact ih n
  constructor
  · intro h
    refine ⟨h.pos, ?_, ?_, fun inode hmem => ?_⟩
    · rw [← h.dirs]
      exact hmap _ (fun inode => by rw [(hf inode).1]) _ _
    · rw [← h.others]
      exact hmap _ (fun inode => by rw [(hf inode).1]) _ _
    · obtain ⟨j, hj⟩ := List.mem_iff_getElem?.mp hmem
      rw [List.getElem?_modify] at hj
      obtain ⟨inode', hj', rfl⟩ := Option.map_eq_some_iff.mp hj
      have hplain := h.plain inode' (List.mem_of_getElem? hj')
      split
      · rw [(hf inode').2.2, hplain]
      · exact hplain
  · simp

/-- A new directory gets the next number of the directories. -/
theorem Scan.Numbered.concat_dir (h : s.Numbered) (hdir : buf.format = .dir) :
    Scan.Numbered { s with inodeInfo := s.inodeInfo ++ [newInode buf s.dirInodeNo],
                           dirInodeNo := s.dirInodeNo + 1 } := by
  have hpos := h.pos
  have hdirs : [newInode buf s.dirInodeNo].filter (fun i => i.buf.format = .dir) =
      [newInode buf s.dirInodeNo] := by simp [newInode, hdir]
  have hothers : [newInode buf s.dirInodeNo].filter (fun i => ¬ i.buf.format = .dir) = [] := by
    simp [newInode, hdir]
  refine ⟨Nat.le_add_left 1 _, ?_, ?_, fun inode hmem => ?_⟩
  · obtain ⟨n, hn⟩ : ∃ n, s.dirInodeNo = n + 1 := ⟨s.dirInodeNo - 1, by omega⟩
    rw [List.filter_append, List.map_append, h.dirs, hdirs, List.map_singleton]
    dsimp only [newInode]
    rw [hn, Nat.add_sub_cancel, Nat.add_sub_cancel, List.range'_concat, Nat.one_mul, Nat.add_comm 1 n]
  · rw [List.filter_append, List.map_append, h.others, hothers, List.map_nil, List.append_nil]
  · rcases List.mem_append.mp hmem with hmem | hmem
    · exact h.plain inode hmem
    · rw [List.mem_singleton] at hmem
      exact hmem ▸ rfl

/-- Anything else gets the next number of the others. -/
theorem Scan.Numbered.concat_other (h : s.Numbered) (hdir : buf.format ≠ .dir) :
    Scan.Numbered { s with inodeInfo := s.inodeInfo ++ [newInode buf s.inodeNo],
                           inodeNo := s.inodeNo + 1 } := by
  have hdirs : [newInode buf s.inodeNo].filter (fun i => i.buf.format = .dir) = [] := by
    simp [newInode, hdir]
  have hothers : [newInode buf s.inodeNo].filter (fun i => ¬ i.buf.format = .dir) =
      [newInode buf s.inodeNo] := by simp [newInode, hdir]
  refine ⟨h.pos, ?_, ?_, fun inode hmem => ?_⟩
  · rw [List.filter_append, List.map_append, h.dirs, hdirs, List.map_nil, List.append_nil]
  · rw [List.filter_append, List.map_append, h.others, hothers, List.map_singleton]
    dsimp only [newInode]
    rw [List.range_succ]
  · rcases List.mem_append.mp hmem with hmem | hmem
    · exact h.plain inode hmem
    · rw [List.mem_singleton] at hmem
      exact hmem ▸ rfl

/-- **`lookup_inode`** adds the inode it returns, if it is new. -/
theorem adds_lookupInode (s : Scan) (buf : FileStat) :
    s.Adds (lookupInode s buf).2 [(lookupInode s buf).1] ∧
      ((lookupInode s buf).2.info (lookupInode s buf).1).buf = buf := by
  unfold lookupInode
  split
  · rename_i i hfind
    have hi := List.mem_of_find?_eq_some hfind
    rw [List.mem_reverse, List.mem_range] at hi
    have hbuf : (s.info i).buf = buf := by simpa using List.find?_some hfind
    obtain ⟨inode, hinode⟩ : ∃ inode, s.inodeInfo[i]? = some inode := ⟨_, List.getElem?_eq_getElem hi⟩
    constructor
    · have hmodify : s.Adds { s with inodeInfo := s.inodeInfo.modify i fun inode =>
          { inode with nlink := inode.nlink + 1 } } [] :=
        Scan.Adds.modify i s.pseudoIno fun _ => ⟨rfl, rfl, rfl⟩
      refine ⟨hmodify.numbered, fun j => ?_⟩
      rw [hmodify.lt_iff, List.mem_singleton]
      constructor
      · rintro (hj | hj)
        · exact Or.inl hj
        · cases hj
      · rintro (hj | rfl)
        · exact Or.inl hj
        · exact Or.inl hi
    · rw [← hbuf, Scan.info_of_getElem? hinode, Scan.info, List.getD_eq_getElem?_getD]
      simp [hinode]
  · have hlast : ∀ (inode : InodeInfo) (d n p : ℕ),
        (Scan.info ⟨s.inodeInfo ++ [inode], d, n, p⟩ s.inodeInfo.length).buf = inode.buf := by
      intro inode d n p
      rw [Scan.info, List.getD_eq_getElem?_getD, List.getElem?_concat_length, Option.getD_some]
    have hlt : ∀ (inode : InodeInfo) (j : ℕ), j < (s.inodeInfo ++ [inode]).length ↔
        j < s.inodeInfo.length ∨ j ∈ [s.inodeInfo.length] := by
      intro inode j
      rw [List.length_append, List.length_singleton, List.mem_singleton]
      omega
    dsimp only
    split
    · rename_i hdir
      exact ⟨⟨fun h => h.concat_dir hdir, hlt _⟩, hlast _ _ _ _⟩
    · rename_i hdir
      exact ⟨⟨fun h => h.concat_other hdir, hlt _⟩, hlast _ _ _ _⟩

/-- **`dir_scan1`** adds the inodes of its entries. -/
theorem adds_dirScan1 (source : SourceDir) (s : Scan) :
    s.Adds (dirScan1 source s).2 (dirScan1 source s).1.inodes := by
  induction source generalizing s with
  | nil => exact .refl s
  | cons name stat excluded opened sub rest ihSub ihRest =>
      cases stat with
      | none => exact ihRest s
      | some buf =>
          rw [dirScan1]
          split
          · exact ihRest s
          · set d := if buf.format = .dir then dirScan1 sub s else (Entries.nil, s) with hd
            have hsub : s.Adds d.2 d.1.inodes := by
              rw [hd]
              split
              · exact ihSub s
              · exact .refl s
            refine ((hsub.trans (adds_lookupInode d.2 buf).1).trans (ihRest _)).congr fun i => ?_
            simp only [Entries.inodes, List.mem_cons, List.mem_append, List.not_mem_nil, or_false]
            tauto

/-! ## The second scan -/

theorem mem_inodes_addDirEntry (dir : Entries String) (name : String) (inode : ℕ)
    (subDir : Entries String) (i : ℕ) :
    i ∈ (dir.addDirEntry name inode subDir).inodes ↔ i ∈ dir.inodes ∨ i = inode ∨ i ∈ subDir.inodes := by
  induction dir with
  | nil => simp [Entries.addDirEntry, Entries.inodes]
  | cons ent j sub rest _ ih =>
      simp only [Entries.addDirEntry, Entries.inodes, List.mem_cons, List.mem_append, ih]
      tauto

theorem mem_inodes_insertSorted (dir : Entries String) (name : String) (inode : ℕ)
    (subDir : Entries String) (i : ℕ) :
    i ∈ (dir.insertSorted name inode subDir).inodes ↔
      i = inode ∨ i ∈ subDir.inodes ∨ i ∈ dir.inodes := by
  induction dir with
  | nil => simp [Entries.insertSorted, Entries.inodes]
  | cons ent j sub rest _ ih =>
      rw [Entries.insertSorted]
      split
      · simp only [Entries.inodes, List.mem_cons, List.mem_append]
      · simp only [Entries.inodes, List.mem_cons, List.mem_append, ih]
        tauto

theorem mem_inodes_sortDirectory (dir : Entries String) (i : ℕ) :
    i ∈ dir.sortDirectory.inodes ↔ i ∈ dir.inodes := by
  induction dir with
  | nil => exact Iff.rfl
  | cons ent j sub rest _ ih =>
      simp only [Entries.sortDirectory, mem_inodes_insertSorted, ih, Entries.inodes, List.mem_cons,
        List.mem_append]

theorem adds_setPseudoFile (s : Scan) (i : ℕ) (t : PseudoType) :
    s.Adds { s with inodeInfo := s.inodeInfo.modify i (InodeInfo.setPseudoFile t) } [] := by
  refine Scan.Adds.modify i s.pseudoIno fun inode => ?_
  unfold InodeInfo.setPseudoFile
  split
  · exact ⟨rfl, rfl, rfl⟩
  · exact ⟨rfl, rfl, rfl⟩

theorem adds_modifyBy (s : Scan) (i : ℕ) (d : PseudoDev) :
    s.Adds { s with inodeInfo := s.inodeInfo.modify i (InodeInfo.modifyBy d) } [] :=
  Scan.Adds.modify i s.pseudoIno fun _ => ⟨rfl, rfl, rfl⟩

theorem adds_pseudoIno (s : Scan) (pseudoIno : ℕ) : s.Adds { s with pseudoIno } [] := by
  constructor
  · exact fun h => ⟨h.pos, h.dirs, h.others, h.plain⟩
  · simp

/-- **The definitions** add the inodes of the entries that are made. -/
theorem adds_pseudoScan (time : ℕ) (pseudo : Pseudo) (dir : Entries String) (s : Scan)
    (hdir : ∀ i ∈ dir.inodes, i < s.inodeInfo.length) :
    s.Adds (pseudoScan time pseudo dir s).2 (pseudoScan time pseudo dir s).1.inodes ∧
      ∀ i ∈ dir.inodes, i ∈ (pseudoScan time pseudo dir s).1.inodes := by
  induction pseudo generalizing dir s with
  | nil =>
      refine ⟨⟨id, fun i => ?_⟩, fun i hi => hi⟩
      rw [pseudoScan, or_iff_left_of_imp (hdir i)]
  | cons name dev pseudo rest ihPseudo ihRest =>
      cases dev with
      | none => exact ihRest dir s hdir
      | some d =>
          rw [pseudoScan]
          cases hlookup : scan2Lookup name dir with
          | some inode =>
              dsimp only
              split
              · have hmodify := adds_modifyBy s inode d
                obtain ⟨hadds, hkeeps⟩ := ihRest dir _ fun i hi =>
                  (hmodify.lt_iff i).mpr (Or.inl (hdir i hi))
                exact ⟨hmodify.trans hadds, hkeeps⟩
              · exact ihRest dir s hdir
          | none =>
              dsimp only
              split
              · exact ihRest dir s hdir
              · set subDir := if d.type = .d then pseudoScan time pseudo .nil s
                  else (Entries.nil, s) with hsubDir
                have hsub : s.Adds subDir.2 subDir.1.inodes := by
                  rw [hsubDir]
                  split
                  · exact (ihPseudo .nil s (by simp [Entries.inodes])).1
                  · exact .refl s
                have hino := adds_pseudoIno subDir.2 (subDir.2.pseudoIno + 1)
                have hlook := (adds_lookupInode
                  { subDir.2 with pseudoIno := subDir.2.pseudoIno + 1 }
                  (d.buf time subDir.2.pseudoIno)).1
                set found := lookupInode { subDir.2 with pseudoIno := subDir.2.pseudoIno + 1 }
                  (d.buf time subDir.2.pseudoIno) with hfound
                have hstep := ((hsub.trans hino).trans hlook).trans
                  (adds_setPseudoFile found.2 found.1 d.type)
                have hmem : ∀ i, i ∈ (dir.addDirEntry name found.1 subDir.1.sortDirectory).inodes ↔
                    i ∈ dir.inodes ∨ i = found.1 ∨ i ∈ subDir.1.inodes := by
                  intro i
                  rw [mem_inodes_addDirEntry, mem_inodes_sortDirectory]
                obtain ⟨hadds, hkeeps⟩ := ihRest
                  (dir.addDirEntry name found.1 subDir.1.sortDirectory) _ fun i hi => by
                    rw [hstep.lt_iff]
                    rcases (hmem i).mp hi with hi | hi | hi
                    · exact Or.inl (hdir i hi)
                    · simp [hi]
                    · simp [hi]
                refine ⟨(hstep.trans hadds).congr fun i => ?_, fun i hi => ?_⟩
                · have hkeep := hkeeps i
                  rw [hmem] at hkeep
                  simp only [List.mem_append, List.mem_cons, List.not_mem_nil, or_false]
                  tauto
                · exact hkeeps i ((hmem i).mpr (Or.inl hi))

/-- The directories that are there get the entries that are made for them. -/
theorem adds_subdirScan (time : ℕ) (dir : Entries String) (pseudo : Pseudo) (s : Scan)
    (hdir : ∀ i ∈ dir.inodes, i < s.inodeInfo.length) :
    s.Adds (subdirScan time dir pseudo s).2 (subdirScan time dir pseudo s).1.inodes ∧
      ∀ i ∈ dir.inodes, i ∈ (subdirScan time dir pseudo s).1.inodes := by
  induction dir generalizing pseudo s with
  | nil =>
      refine ⟨⟨id, fun i => ?_⟩, fun i hi => hi⟩
      rw [subdirScan, or_iff_left_of_imp (hdir i)]
  | cons ent inode sub rest ihSub ihRest =>
      rw [subdirScan]
      have hsubLt : ∀ i ∈ sub.inodes, i < s.inodeInfo.length := fun i hi =>
        hdir i (List.mem_cons_of_mem _ (List.mem_append_left _ hi))
      have hrestLt : ∀ i ∈ rest.inodes, i < s.inodeInfo.length := fun i hi =>
        hdir i (List.mem_cons_of_mem _ (List.mem_append_right _ hi))
      have hinode := hdir inode List.mem_cons_self
      dsimp only
      set d := if (s.info inode).rootEntry = false ∧ (s.info inode).buf.format = .dir then
          ((pseudoScan time (pseudoSubdir ent pseudo)
            (subdirScan time sub (pseudoSubdir ent pseudo) s).1
            (subdirScan time sub (pseudoSubdir ent pseudo) s).2).1.sortDirectory,
          (pseudoScan time (pseudoSubdir ent pseudo)
            (subdirScan time sub (pseudoSubdir ent pseudo) s).1
            (subdirScan time sub (pseudoSubdir ent pseudo) s).2).2) else (sub, s) with hd
      have hsub : s.Adds d.2 d.1.inodes ∧ ∀ i ∈ sub.inodes, i ∈ d.1.inodes := by
        rw [hd]
        split
        · obtain ⟨hadds, hkeeps⟩ := ihSub (pseudoSubdir ent pseudo) s hsubLt
          obtain ⟨hadds', hkeeps'⟩ := adds_pseudoScan time (pseudoSubdir ent pseudo) _ _
            fun i hi => (hadds.lt_iff i).mpr (Or.inr hi)
          refine ⟨(hadds.trans hadds').congr fun i => ?_, fun i hi => ?_⟩
          · have hkeep := hkeeps' i
            rw [mem_inodes_sortDirectory, List.mem_append]
            tauto
          · exact (mem_inodes_sortDirectory _ i).mpr (hkeeps' i (hkeeps i hi))
        · refine ⟨⟨id, fun i => ?_⟩, fun i hi => hi⟩
          exact (or_iff_left_of_imp (hsubLt i)).symm
      obtain ⟨hadds, hkeeps⟩ := ihRest pseudo d.2 fun i hi =>
        (hsub.1.lt_iff i).mpr (Or.inl (hrestLt i hi))
      constructor
      · refine ⟨(hsub.1.trans hadds).numbered, fun i => ?_⟩
        rw [(hsub.1.trans hadds).lt_iff, Entries.inodes, List.mem_cons]
        constructor
        · rintro (hi | hi)
          · exact Or.inl hi
          · exact Or.inr (Or.inr hi)
        · rintro (hi | rfl | hi)
          · exact Or.inl hi
          · exact Or.inl hinode
          · exact Or.inr hi
      · intro i hi
        simp only [Entries.inodes, List.mem_cons, List.mem_append] at hi ⊢
        rcases hi with rfl | hi | hi
        · exact Or.inl rfl
        · exact Or.inr (Or.inl (hsub.2 i hi))
        · exact Or.inr (Or.inr (hkeeps i hi))

/-! ## The whole scan -/

/-- **Every inode has a name**: what was found is the top directory, or has an entry in the tree. -/
theorem mem_inodes_sourceDirScan (src : Sources) (i : ℕ) :
    i < (sourceDirScan src).scan.inodeInfo.length ↔
      i ∈ (sourceDirScan src).tree.inodes ∨ i = (sourceDirScan src).root := by
  have hfirst := adds_dirScan1 src.source {}
  obtain ⟨hsecond, hkeeps⟩ := adds_subdirScan src.time (dirScan1 src.source {}).1 src.pseudo _
    fun i hi => (hfirst.lt_iff i).mpr (Or.inr hi)
  obtain ⟨hthird, hkeeps'⟩ := adds_pseudoScan src.time src.pseudo _ _
    fun i hi => (hsecond.lt_iff i).mpr (Or.inr hi)
  have hroot := (adds_lookupInode (dirScan2 src.time (dirScan1 src.source {}).1 src.pseudo
    (dirScan1 src.source {}).2).2 src.rootBuf).1
  have hkeep := hkeeps i
  have hkeep' := hkeeps' i
  change i < (lookupInode _ _).2.inodeInfo.length ↔ i ∈ (Entries.sortDirectory _).inodes ∨ _
  rw [hroot.lt_iff, mem_inodes_sortDirectory, List.mem_singleton]
  change i < (pseudoScan _ _ _ _).2.inodeInfo.length ∨ _ ↔ _
  rw [hthird.lt_iff, hsecond.lt_iff, hfirst.lt_iff]
  change _ ↔ _ ∨ i = (lookupInode _ _).1
  have hzero : ¬ i < ({} : Scan).inodeInfo.length := Nat.not_lt_zero i
  tauto

/-- The inodes are numbered. -/
theorem numbered_sourceDirScan (src : Sources) : (sourceDirScan src).scan.Numbered := by
  have hfirst := adds_dirScan1 src.source {}
  obtain ⟨hsecond, hkeeps⟩ := adds_subdirScan src.time (dirScan1 src.source {}).1 src.pseudo _
    fun i hi => (hfirst.lt_iff i).mpr (Or.inr hi)
  have hthird := (adds_pseudoScan src.time src.pseudo _ _
    fun i hi => (hsecond.lt_iff i).mpr (Or.inr hi)).1
  exact (adds_lookupInode _ _).1.numbered
    (hthird.numbered (hsecond.numbered (hfirst.numbered Scan.numbered_empty)))

/-- The top directory is a directory. -/
theorem format_root_sourceDirScan (src : Sources) :
    ((sourceDirScan src).scan.info (sourceDirScan src).root).buf.format = .dir := by
  have hroot := (adds_lookupInode (dirScan2 src.time (dirScan1 src.source {}).1 src.pseudo
    (dirScan1 src.source {}).2).2 src.rootBuf).2
  exact (congrArg FileStat.format hroot).trans src.root_dir

end FirmwareTools.Squashfs

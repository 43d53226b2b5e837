import Mathlib.Data.List.Perm.Subperm
import FirmwareTools.Squashfs.FileOrder
import FirmwareTools.Squashfs.MetadataTable
import FirmwareTools.Squashfs.SourceScan

/-! # Inode numbers and the export table

The final number of an inode is known when the scans are over: directories have theirs, and the others
are behind them. `write_inode_lookup_table` stores the reference of each inode at the place of its number.

* **`inodesNumbered_iff`** — the numbers are those from `1` to the number of inodes that were written,
  and each reference is at its place, exactly when every inode is written once and the size of the table
  fits into an `int`. -/

namespace FirmwareTools.Squashfs

/-! ## Writing the table -/

/-- The type of an inode before it is known whether it needs the extended record. -/
def FileFormat.squashfsType : FileFormat → InodeType
  | .reg => .file
  | .dir => .dir
  | .lnk => .symlink
  | .chr => .chrdev
  | .blk => .blkdev
  | .fifo => .fifo
  | .sock => .socket

/-- The number of an inode of this type. -/
def Scan.number (s : Scan) (type : InodeType) (inode : InodeInfo) : ℕ :=
  if type = .dir then inode.inodeNumber else inode.inodeNumber + s.dirInodeNo

/-- The loop of `write_inode_lookup_table` over the inodes. `written` is the reference and the type that
were stored for an inode; without them the type is not initialised. A place outside of the table overruns
it. In both cases nothing is known of what follows. -/
def storeInodes (s : Scan) (written : ℕ → Option (ℕ × InodeType)) :
    List (InodeInfo × ℕ) → List ℕ → Option (List ℕ)
  | [], table => some table
  | (inode, i) :: inodes, table => do
    let (reference, type) ← written i
    let number := s.number type inode
    if 1 ≤ number ∧ number ≤ table.length then
      storeInodes s written inodes (table.set (number - 1) reference)
    else none

/-- `write_inode_lookup_table`: the table, and what is written of it from `bytes` on. The size of the
table is an `int`; a size that is too large for it is no size for `realloc`. `fresh` is what `realloc`
leaves in the table. -/
def writeInodeLookupTable (comp : Compressor) (noI : Bool) (bytes : ℕ) (fresh : ℕ → ℕ) (s : Scan)
    (inodeCount : ℕ) (written : ℕ → Option (ℕ × InodeType)) :
    Option (List ℕ × (List UInt8 × ℕ)) :=
  if 2 ^ 31 ≤ inodeCount * 8 then none
  else
    (storeInodes s written s.inodeInfo.zipIdx ((List.range inodeCount).map fresh)).map fun table =>
      (table, genericWriteTable comp noI bytes (packFields (table.map fun n => (8, n))) [])

/-! ## Writing the inodes -/

/-- The inodes in the order in which `create_inode` is called for them: by `sort_files_and_write`, by
`dir_scan3`, and at the end for the top directory. -/
def Scanned.created (sc : Scanned) : Option (ℕ → List SortInfo) → List ℕ
  | none => (dirScan3 sc.scan.info sc.tree []).map Prod.snd ++ [sc.root]
  | some sortInfoList =>
    let sorted := (sortFilesAndWrite (priorityList sc.scan.info sortInfoList
      (sc.scan.info sc.root).buf sc.tree) []).map Prod.snd
    sorted ++ (dirScan3 sc.scan.info sc.tree sorted).map Prod.snd ++ [sc.root]

/-- What is stored for an inode: the reference that the last call of `create_inode` for it returned, when
`reference` gives what each call returns, and its type. -/
def Scanned.written (sc : Scanned) (created : List ℕ) (reference : ℕ → ℕ) (i : ℕ) :
    Option (ℕ × InodeType) :=
  ((created.zipIdx.filter fun c => c.1 = i).getLast?).map fun c =>
    (reference c.2, (sc.scan.info i).buf.format.squashfsType)

/-- The number of an inode in the image. -/
def Scanned.number (sc : Scanned) (inode : InodeInfo) : ℕ :=
  sc.scan.number inode.buf.format.squashfsType inode

/-- The numbers are different, and are those from `1` to the number of inodes; the table has the reference
of each inode at the place of its number. -/
structure InodesNumbered (sc : Scanned) (created : List ℕ) (reference : ℕ → ℕ)
    (table : Option (List ℕ)) : Prop where
  distinct : (sc.scan.inodeInfo.map sc.number).Nodup
  exact : ∀ n, n ∈ sc.scan.inodeInfo.map sc.number ↔ 1 ≤ n ∧ n ≤ created.length
  stored : ∃ t, table = some t ∧ t.length = created.length ∧
    ∀ (i : ℕ) (inode : InodeInfo), sc.scan.inodeInfo[i]? = some inode →
      ∃ k : ℕ, created[k]? = some i ∧ t[sc.number inode - 1]? = some (reference k)

/-- Every inode is written once: each is met by a walk that enters no directory again after it was left
(or is a regular file, and there is a sort list), and no directory is entered below itself. -/
structure Scanned.EachOnce (sc : Scanned) (sort : Option (ℕ → List SortInfo)) : Prop where
  met : ∀ i ∈ sc.tree.inodes, i ∈ sc.tree.met sc.scan.info [] ∨ i = sc.root ∨
    (sort.isSome ∧ i ∈ (sc.tree.files sc.scan.info).map Prod.snd)
  notInside : sc.tree.NotInside sc.scan.info [sc.root] []

/-! ## The numbers -/

theorem squashfsType_eq_dir {f : FileFormat} : f.squashfsType = .dir ↔ f = .dir := by
  cases f <;> decide

/-- **The numbers** are those from `1` to the number of inodes that were found. -/
theorem Scan.Numbered.perm_number {s : Scan} (h : s.Numbered) :
    (s.inodeInfo.map fun inode => s.number inode.buf.format.squashfsType inode).Perm
      (List.range' 1 s.inodeInfo.length) := by
  have hpos := h.pos
  have hsplit := List.filter_append_perm (fun inode : InodeInfo => decide (inode.buf.format = .dir))
    s.inodeInfo
  have hlength := hsplit.length_eq
  have hdirs := congrArg List.length h.dirs
  have hothers := congrArg List.length h.others
  rw [List.length_map, List.length_range'] at hdirs
  rw [List.length_map, List.length_range] at hothers
  refine (hsplit.map _).symm.trans ?_
  rw [List.map_append]
  have hfirst : (s.inodeInfo.filter fun inode => inode.buf.format = .dir).map
      (fun inode => s.number inode.buf.format.squashfsType inode) =
        List.range' 1 (s.dirInodeNo - 1) := by
    rw [← h.dirs]
    refine List.map_congr_left fun inode hmem => ?_
    exact if_pos (squashfsType_eq_dir.mpr (of_decide_eq_true (List.mem_filter.mp hmem).2))
  have hother : (fun inode : InodeInfo => !decide (inode.buf.format = .dir)) =
      fun inode => decide (¬ inode.buf.format = .dir) := by
    funext inode
    exact (decide_not ..).symm
  have hsecond : (s.inodeInfo.filter fun inode => !decide (inode.buf.format = .dir)).map
      (fun inode => s.number inode.buf.format.squashfsType inode) =
        List.range' s.dirInodeNo s.inodeNo := by
    rw [hother, List.range'_eq_map_range, ← h.others, List.map_map]
    refine List.map_congr_left fun inode hmem => ?_
    have hne : ¬ inode.buf.format.squashfsType = .dir := fun heq =>
      of_decide_eq_true (List.mem_filter.mp hmem).2 (squashfsType_eq_dir.mp heq)
    rw [Scan.number, if_neg hne, Function.comp_apply, Nat.add_comm]
  rw [hother, List.length_append] at hlength
  rw [hfirst, hsecond]
  have hcount : s.inodeInfo.length = (s.dirInodeNo - 1) + s.inodeNo := by omega
  have hbehind : s.dirInodeNo = 1 + (s.dirInodeNo - 1) := by omega
  rw [hcount, ← List.range'_append_1, ← hbehind]

/-! ## The table -/

variable {s : Scan} {written : ℕ → Option (ℕ × InodeType)}

/-- **The loop stores each reference at its place**, if all inodes are written and their places are
different ones in the table. -/
theorem storeInodes_eq_some (written : ℕ → Option (ℕ × InodeType)) (inodes : List (InodeInfo × ℕ))
    (reference : ℕ → ℕ) (table : List ℕ)
    (hwritten : ∀ e ∈ inodes, written e.2 = some (reference e.2, e.1.buf.format.squashfsType))
    (hnodup : (inodes.map fun e => s.number e.1.buf.format.squashfsType e.1).Nodup)
    (hplace : ∀ e ∈ inodes, 1 ≤ s.number e.1.buf.format.squashfsType e.1 ∧
      s.number e.1.buf.format.squashfsType e.1 ≤ table.length) :
    ∃ t, storeInodes s written inodes table = some t ∧ t.length = table.length ∧
      (∀ e ∈ inodes, t[s.number e.1.buf.format.squashfsType e.1 - 1]? = some (reference e.2)) ∧
      ∀ n, 1 ≤ n → n ∉ inodes.map (fun e => s.number e.1.buf.format.squashfsType e.1) →
        t[n - 1]? = table[n - 1]? := by
  induction inodes generalizing table with
  | nil => exact ⟨table, rfl, rfl, by simp, fun _ _ _ => rfl⟩
  | cons e inodes ih =>
      obtain ⟨inode, i⟩ := e
      rw [List.forall_mem_cons] at hwritten hplace
      rw [List.map_cons, List.nodup_cons] at hnodup
      dsimp only at hwritten hplace hnodup
      set n := s.number inode.buf.format.squashfsType inode with hn
      obtain ⟨t, ht, hlength, hstored, hother⟩ := ih (table.set (n - 1) (reference i)) hwritten.2
        hnodup.2 (by simpa using hplace.2)
      rw [List.length_set] at hlength
      refine ⟨t, ?_, hlength, ?_, fun m hm hnot => ?_⟩
      · rw [storeInodes, hwritten.1, Option.bind_eq_bind, Option.bind_some]
        dsimp only
        rw [← hn, if_pos hplace.1]
        exact ht
      · rw [List.forall_mem_cons]
        refine ⟨?_, hstored⟩
        rw [hother n hplace.1.1 hnodup.1, List.getElem?_set_self (by omega)]
      · rw [List.map_cons, List.mem_cons, not_or] at hnot
        rw [hother m hm hnot.2, List.getElem?_set_ne]
        have hne : m ≠ n := hnot.1
        omega

/-! ## What is written -/

theorem mem_inodes_of_mem_met {ε : Type*} {info : ℕ → InodeInfo} {t : Entries ε} {done : List ℕ}
    {i : ℕ} (h : i ∈ t.met info done) : i ∈ t.inodes := by
  induction t generalizing done with
  | nil => cases h
  | cons ent inode sub rest ihSub ihRest =>
      rw [Entries.met] at h
      rw [Entries.inodes, List.mem_cons, List.mem_append]
      split at h
      · exact Or.inr (Or.inr (ihRest h))
      · split at h
        · rcases List.mem_cons.mp h with rfl | h
          · exact Or.inl rfl
          · exact Or.inr (Or.inr (ihRest h))
        · rcases List.mem_append.mp h with h | h
          · exact Or.inr (Or.inl (ihSub h))
          · rcases List.mem_cons.mp h with rfl | h
            · exact Or.inl rfl
            · exact Or.inr (Or.inr (ihRest h))

theorem mem_inodes_of_mem_files {ε : Type*} {info : ℕ → InodeInfo} {t : Entries ε} {f : ε × ℕ}
    (h : f ∈ t.files info) : f.2 ∈ t.inodes := by
  induction t with
  | nil => cases h
  | cons ent inode sub rest ihSub ihRest =>
      rw [Entries.files, List.mem_append] at h
      rw [Entries.inodes, List.mem_cons, List.mem_append]
      rcases h with h | h
      · split at h
        · cases h
        · split at h
          · rw [List.mem_singleton] at h
            exact Or.inl (congrArg Prod.snd h)
          · exact Or.inr (Or.inl (ihSub h))
          · cases h
      · exact Or.inr (Or.inr (ihRest h))

/-- Of what was written before the walk no inode is a directory. -/
theorem created_spec {sc : Scanned} (before : List ℕ)
    (hroot : (sc.scan.info sc.root).buf.format = .dir)
    (hbefore : ∀ i ∈ before, (sc.scan.info i).buf.format ≠ .dir) (hnodup : before.Nodup) :
    (∀ i, i ∈ before ++ (dirScan3 sc.scan.info sc.tree before).map Prod.snd ++ [sc.root] ↔
      i ∈ sc.tree.met sc.scan.info [] ∨ i = sc.root ∨ i ∈ before) ∧
    ((before ++ (dirScan3 sc.scan.info sc.tree before).map Prod.snd ++ [sc.root]).Nodup ↔
      sc.tree.NotInside sc.scan.info [sc.root] []) := by
  have hdirs : DirsDone sc.scan.info before [] := by
    intro i hi
    refine iff_of_false (fun hmem => hbefore i hmem hi) (List.not_mem_nil)
  have hrootBefore : sc.root ∉ before := fun hmem => hbefore _ hmem hroot
  have habove : ∀ i ∈ [sc.root], (sc.scan.info i).buf.format = .dir ∧ i ∉ before := by
    rw [List.forall_mem_singleton]
    exact ⟨hroot, hrootBefore⟩
  constructor
  · intro i
    have hmem := mem_dirScan3 sc.tree hdirs i
    rw [List.mem_append] at hmem
    rw [List.mem_append, List.mem_append, List.mem_singleton]
    tauto
  · rw [← nodup_dirScan3_iff sc.tree hdirs habove, List.forall_mem_singleton]
    have hnew := notMem_of_mem_dirScan3 sc.scan.info sc.tree before
    generalize (dirScan3 sc.scan.info sc.tree before).map Prod.snd = walked at hnew ⊢
    rw [List.nodup_append, List.nodup_append]
    constructor
    · rintro ⟨⟨-, hwalked, -⟩, -, hlast⟩
      refine ⟨hwalked, fun hmem => ?_⟩
      exact hlast _ (List.mem_append_right _ hmem) _ (List.mem_singleton_self _) rfl
    · rintro ⟨hwalked, hlast⟩
      refine ⟨⟨hnodup, hwalked, ?_⟩, List.nodup_singleton _, ?_⟩
      · rintro a ha b hb rfl
        exact hnew a hb ha
      · intro a ha b hb
        rw [List.mem_singleton] at hb
        subst hb
        rintro rfl
        rcases List.mem_append.mp ha with ha | ha
        · exact hrootBefore ha
        · exact hlast ha

variable {sc : Scanned}

/-- **The inodes that are written**: those that the walk meets, the top directory, and with a sort list
the regular files. -/
theorem mem_created (hroot : (sc.scan.info sc.root).buf.format = .dir)
    (sort : Option (ℕ → List SortInfo)) :
    (∀ i, i ∈ sc.created sort ↔ i ∈ sc.tree.met sc.scan.info [] ∨ i = sc.root ∨
      (sort.isSome ∧ i ∈ (sc.tree.files sc.scan.info).map Prod.snd)) ∧
    ((sc.created sort).Nodup ↔ sc.tree.NotInside sc.scan.info [sc.root] []) := by
  cases sort with
  | none =>
      have hspec := created_spec [] hroot (by simp) List.nodup_nil
      rw [List.nil_append] at hspec
      rw [Scanned.created]
      refine ⟨fun i => ?_, hspec.2⟩
      rw [hspec.1]
      simp
  | some sortInfoList =>
      rw [Scanned.created]
      set entries := priorityList sc.scan.info sortInfoList (sc.scan.info sc.root).buf sc.tree
        with hentries
      have hmem : ∀ i, i ∈ (sortFilesAndWrite entries []).map Prod.snd ↔
          i ∈ (sc.tree.files sc.scan.info).map Prod.snd := by
        intro i
        rw [List.mem_map, List.mem_map]
        constructor
        · rintro ⟨e, he, rfl⟩
          exact ⟨e, (mem_priorityList _ _ _ _ e).mp (mem_of_mem_sortFilesAndWrite he), rfl⟩
        · rintro ⟨e, he, rfl⟩
          have hlisted := mem_sortFilesAndWrite [] ((mem_priorityList sc.scan.info
            sortInfoList (sc.scan.info sc.root).buf _ e).mpr he)
          rw [List.append_nil] at hlisted
          exact List.mem_map.mp hlisted
      have hspec := created_spec ((sortFilesAndWrite entries []).map Prod.snd) hroot
        (fun i hi => by
          obtain ⟨e, he, rfl⟩ := List.mem_map.mp ((hmem i).mp hi)
          rw [format_of_mem_files he]
          decide) (nodup_sortFilesAndWrite entries []).1
      refine ⟨fun i => ?_, hspec.2⟩
      rw [hspec.1, hmem]
      simp

/-- What is stored for an inode that is written once. -/
theorem written_eq_some {created : List ℕ} (hnodup : created.Nodup) (reference : ℕ → ℕ) {k i : ℕ}
    (hk : created[k]? = some i) :
    sc.written created reference i =
      some (reference k, (sc.scan.info i).buf.format.squashfsType) := by
  have hmem : (i, k) ∈ created.zipIdx.filter fun c => c.1 = i := by
    rw [List.mem_filter, List.mem_zipIdx_iff_getElem?]
    exact ⟨hk, decide_eq_true rfl⟩
  have hne := List.ne_nil_of_mem hmem
  have hlast := List.getLast_mem hne
  rw [List.mem_filter, List.mem_zipIdx_iff_getElem?, decide_eq_true_eq] at hlast
  have hsame : ((created.zipIdx.filter fun c => c.1 = i).getLast hne).2 = k := by
    obtain ⟨hlt, hget⟩ := List.getElem?_eq_some_iff.mp hlast.1
    obtain ⟨hlt', hget'⟩ := List.getElem?_eq_some_iff.mp hk
    exact hnodup.getElem_inj_iff.mp (hget.trans (hlast.2.trans hget'.symm))
  rw [Scanned.written, List.getLast?_eq_getLast_of_ne_nil hne, Option.map_some, hsame]

/-! ## Numbers and table -/

/-- The numbers of all inodes that were found. -/
theorem mem_map_number (src : Sources) (n : ℕ) :
    n ∈ (sourceDirScan src).scan.inodeInfo.map (sourceDirScan src).number ↔
      1 ≤ n ∧ n ≤ (sourceDirScan src).scan.inodeInfo.length := by
  have hperm := (numbered_sourceDirScan src).perm_number
  change n ∈ List.map (fun inode => (sourceDirScan src).scan.number inode.buf.format.squashfsType inode) _ ↔ _
  rw [hperm.mem_iff, List.mem_range'_1]
  omega

theorem nodup_map_number (src : Sources) :
    ((sourceDirScan src).scan.inodeInfo.map (sourceDirScan src).number).Nodup :=
  (numbered_sourceDirScan src).perm_number.nodup_iff.mpr List.nodup_range'

/-- Only inodes that were found are written, and all of them if each is met. -/
theorem forall_mem_created_iff (src : Sources) (sort : Option (ℕ → List SortInfo)) :
    (∀ i ∈ (sourceDirScan src).created sort, i < (sourceDirScan src).scan.inodeInfo.length) ∧
    ((∀ i < (sourceDirScan src).scan.inodeInfo.length, i ∈ (sourceDirScan src).created sort) ↔
      ∀ i ∈ (sourceDirScan src).tree.inodes, i ∈ (sourceDirScan src).tree.met (sourceDirScan src).scan.info [] ∨
        i = (sourceDirScan src).root ∨ (sort.isSome ∧
          i ∈ ((sourceDirScan src).tree.files (sourceDirScan src).scan.info).map Prod.snd)) := by
  have hcreated := (mem_created (format_root_sourceDirScan src) sort).1
  constructor
  · intro i hi
    rw [mem_inodes_sourceDirScan]
    rcases (hcreated i).mp hi with hi | hi | ⟨-, hi⟩
    · exact Or.inl (mem_inodes_of_mem_met hi)
    · exact Or.inr hi
    · obtain ⟨f, hf, rfl⟩ := List.mem_map.mp hi
      exact Or.inl (mem_inodes_of_mem_files hf)
  · constructor
    · intro hall i hi
      exact (hcreated i).mp (hall i ((mem_inodes_sourceDirScan src i).mpr (Or.inl hi)))
    · intro hall i hi
      rcases (mem_inodes_sourceDirScan src i).mp hi with hi | hi
      · exact (hcreated i).mpr (hall i hi)
      · exact (hcreated i).mpr (Or.inr (Or.inl hi))

/-- **Inode numbers and the export table**: for every source tree, with any sort list or none, whatever
references `create_inode` returns, all is right exactly when each inode is written once and there are
fewer than `2 ^ 28` of them. -/
theorem inodesNumbered_iff (src : Sources) (sort : Option (ℕ → List SortInfo)) (comp : Compressor)
    (noI : Bool) (bytes : ℕ) (fresh reference : ℕ → ℕ) :
    InodesNumbered (sourceDirScan src) ((sourceDirScan src).created sort) reference
        ((writeInodeLookupTable comp noI bytes fresh (sourceDirScan src).scan
          ((sourceDirScan src).created sort).length
          ((sourceDirScan src).written ((sourceDirScan src).created sort) reference)).map Prod.fst) ↔
      (sourceDirScan src).EachOnce sort ∧ (sourceDirScan src).scan.inodeInfo.length < 2 ^ 28 := by
  have hnumbers := mem_map_number src
  have hdistinct := nodup_map_number src
  obtain ⟨hlt, hall⟩ := forall_mem_created_iff src sort
  have hinside := (mem_created (format_root_sourceDirScan src) sort).2
  have hroot : (sourceDirScan src).root < (sourceDirScan src).scan.inodeInfo.length :=
    (mem_inodes_sourceDirScan src _).mpr (Or.inr rfl)
  have hrootCreated : (sourceDirScan src).root ∈ (sourceDirScan src).created sort :=
    ((mem_created (format_root_sourceDirScan src) sort).1 _).mpr (Or.inr (Or.inl rfl))
  generalize sourceDirScan src = sc at *
  set created := sc.created sort with hcreated
  constructor
  · rintro ⟨-, hexact, t, ht, -, hstored⟩
    -- as many inodes are written as there are numbers
    have hcount : created.length = sc.scan.inodeInfo.length := by
      have hpos := List.length_pos_of_mem hrootCreated
      have hle := (hnumbers _).mp ((hexact created.length).mpr ⟨hpos, le_refl _⟩)
      have hge := (hexact _).mp ((hnumbers sc.scan.inodeInfo.length).mpr ⟨by omega, le_refl _⟩)
      exact le_antisymm hle.2 hge.2
    have hmet : ∀ i < sc.scan.inodeInfo.length, i ∈ created := by
      intro i hi
      obtain ⟨k, hk, -⟩ := hstored i _ (List.getElem?_eq_getElem hi)
      exact List.mem_of_getElem? hk
    have hperm : (List.range created.length).Perm created := by
      refine (List.nodup_range.subperm fun i hi => ?_).perm_of_length_le
        (by rw [List.length_range])
      rw [List.mem_range, hcount] at hi
      exact hmet i hi
    refine ⟨⟨hall.mp hmet, hinside.mp (hperm.nodup_iff.mp List.nodup_range)⟩, ?_⟩
    rw [← hcount]
    by_contra hbig
    rw [writeInodeLookupTable, if_pos (by omega)] at ht
    cases ht
  · rintro ⟨⟨hmet, hnot⟩, hsmall⟩
    have hnodup := hinside.mpr hnot
    have hmem : ∀ i, i ∈ created ↔ i < sc.scan.inodeInfo.length := fun i =>
      ⟨hlt i, hall.mpr hmet i⟩
    have hcount : created.length = sc.scan.inodeInfo.length := by
      have hperm : created.Perm (List.range sc.scan.inodeInfo.length) :=
        (List.perm_ext_iff_of_nodup hnodup List.nodup_range).mpr fun i => by
          rw [hmem, List.mem_range]
      rw [hperm.length_eq, List.length_range]
    have hindex : ∀ i < sc.scan.inodeInfo.length, created[created.idxOf i]? = some i := by
      intro i hi
      have hidx := List.idxOf_lt_length_of_mem ((hmem i).mpr hi)
      rw [List.getElem?_eq_getElem hidx, List.getElem_idxOf]
    have hentry : ∀ e ∈ sc.scan.inodeInfo.zipIdx, e.2 < sc.scan.inodeInfo.length ∧
        sc.scan.inodeInfo[e.2]? = some e.1 := by
      intro e he
      have hget := List.mem_zipIdx_iff_getElem?.mp he
      exact ⟨(List.getElem?_eq_some_iff.mp hget).1, hget⟩
    have hmap : sc.scan.inodeInfo.zipIdx.map (fun e =>
        sc.scan.number e.1.buf.format.squashfsType e.1) = sc.scan.inodeInfo.map sc.number := by
      conv_rhs => rw [← List.zipIdx_map_fst 0 sc.scan.inodeInfo]
      rw [List.map_map]
      rfl
    obtain ⟨t, ht, hlength, hstored, -⟩ := storeInodes_eq_some (s := sc.scan)
      (sc.written created reference) sc.scan.inodeInfo.zipIdx (fun i => reference (created.idxOf i))
      ((List.range created.length).map fresh)
      (fun e he => by
        obtain ⟨hi, hget⟩ := hentry e he
        rw [written_eq_some hnodup reference (hindex _ hi), Scan.info_of_getElem? hget])
      (by rw [hmap]; exact hdistinct)
      (fun e he => by
        obtain ⟨-, hget⟩ := hentry e he
        rw [List.length_map, List.length_range, hcount]
        exact (hnumbers _).mp (List.mem_map_of_mem (List.mem_of_getElem? hget)))
    refine ⟨hdistinct, fun n => by rw [hnumbers, hcount], t, ?_, ?_, fun i inode hget => ?_⟩
    · rw [writeInodeLookupTable, if_neg (by omega), ht]
      rfl
    · rw [hlength, List.length_map, List.length_range]
    · have hi := (List.getElem?_eq_some_iff.mp hget).1
      refine ⟨created.idxOf i, hindex i hi, ?_⟩
      exact hstored (inode, i) (List.mem_zipIdx_iff_getElem?.mpr hget)

/-- A directory that is given as a source twice, with a directory that is made in it under its second
name. -/
def twiceWithPseudo : Sources where
  source := .cons "d" (some { format := .dir, ino := 7 }) false true .nil
    (.cons "d_1" (some { format := .dir, ino := 7 }) false true .nil .nil)
  pseudo := .cons "d_1" none (.cons "x" (some { type := .d }) .nil .nil) .nil
  rootBuf := { format := .dir }
  root_dir := rfl

/-- The directory that is made there gets the number `2`, and only two inodes are written; the top
directory has the number `3`. -/
theorem not_inodesNumbered_twice :
    ∃ (src : Sources) (sort : Option (ℕ → List SortInfo)) (fresh reference : ℕ → ℕ),
      ¬ InodesNumbered (sourceDirScan src) ((sourceDirScan src).created sort) reference
        ((writeInodeLookupTable storeOnly false 0 fresh (sourceDirScan src).scan
          ((sourceDirScan src).created sort).length
          ((sourceDirScan src).written ((sourceDirScan src).created sort) reference)).map Prod.fst) := by
  refine ⟨twiceWithPseudo, none, id, id, ?_⟩
  rintro ⟨-, hexact, -⟩
  have hnumbers : (sourceDirScan twiceWithPseudo).scan.inodeInfo.map (sourceDirScan twiceWithPseudo).number =
      [1, 2, 3] := by decide +kernel
  have hcreated : ((sourceDirScan twiceWithPseudo).created none).length = 2 := by decide +kernel
  have hthree := hexact 3
  rw [hnumbers, hcreated] at hthree
  exact absurd hthree (by decide)

end FirmwareTools.Squashfs

import FirmwareTools.Squashfs.Inode

/-! # The tree of the source files

What `mksquashfs` builds of the source directories: directory entries, each with the inode it is a name
of, and the walk of `dir_scan3` over them, which writes the inodes. Names with one inode share what is
known of it; a directory that was written is not entered again under another name.

* **`mem_dirScan3`** — what the walk writes, as a set;
* **`nodup_dirScan3_iff`** — and when it writes nothing twice. -/

namespace FirmwareTools.Squashfs

/-- The file types of `st_mode` (`S_IFREG` and so on). -/
inductive FileFormat
  | reg | dir | lnk | chr | blk | fifo | sock
  deriving DecidableEq, Repr

/-- The values of `pseudo_file`: a file from a source directory, an entry made by a pseudo file
definition, and the output of a process. -/
inductive PseudoFile
  | no | other | process
  deriving DecidableEq, Repr

/-- `struct stat`; `others` are the fields that are only compared. -/
structure FileStat extends Stat where
  format : FileFormat := .reg
  size : ℕ := 0
  dev : ℕ := 0
  ino : ℕ := 0
  others : List ℕ := []
  deriving DecidableEq, Repr

/-- `struct inode_info`: what is known of an inode before it is written. Only pseudo file definitions of
regular files are dynamic. -/
structure InodeInfo where
  buf : FileStat := {}
  inodeNumber : ℕ := 0
  nlink : ℕ := 1
  rootEntry : Bool := false
  pseudoFile : PseudoFile := .no
  reg_of_process : pseudoFile = .process → buf.format = .reg ∧ rootEntry = false := by decide
  deriving DecidableEq

/-- `IS_PSEUDO_PROCESS` -/
def InodeInfo.isPseudoProcess (i : InodeInfo) : Bool := i.pseudoFile == .process

/-- The list of a directory (`struct dir_info`): entries (`struct dir_ent`), each with the number of its
inode and the list of its own entries, which is empty if it is not a directory. -/
inductive Entries (ε : Type*)
  | nil
  | cons (ent : ε) (inode : ℕ) (sub rest : Entries ε)

variable {ε : Type*}

/-- All entries at any depth. -/
def Entries.ents : Entries ε → List ε
  | .nil => []
  | .cons ent _ sub rest => ent :: (sub.ents ++ rest.ents)

/-- The inodes of all entries at any depth. -/
def Entries.inodes : Entries ε → List ℕ
  | .nil => []
  | .cons _ inode sub rest => inode :: (sub.inodes ++ rest.inodes)

/-! ## The walk that writes the inodes -/

section

variable (info : ℕ → InodeInfo)

/-- The entries for which an inode is written, in this order, and their inodes: `write_dir` of a
directory comes after what is in it. `written` are the inodes that are written already; entries of a
filesystem that is appended to have one. -/
def dirScan3 : Entries ε → List ℕ → List (ε × ℕ)
  | .nil, _ => []
  | .cons ent inode sub rest, written =>
    if (info inode).rootEntry = true ∨ inode ∈ written then dirScan3 rest written
    else if (info inode).buf.format = .dir then
      let below := dirScan3 sub written
      below ++ (ent, inode) :: dirScan3 rest (inode :: (below.map Prod.snd ++ written))
    else (ent, inode) :: dirScan3 rest (inode :: written)

/-! ## What it meets

The abstract side: a walk over the tree that only remembers the directories it has left. -/

/-- The directories that are left, the last one first. -/
def Entries.left : Entries ε → List ℕ → List ℕ
  | .nil, done => done
  | .cons _ inode sub rest, done =>
    if (info inode).rootEntry = true ∨ (info inode).buf.format ≠ .dir ∨ inode ∈ done then
      rest.left done
    else rest.left (inode :: sub.left done)

/-- The inodes of the entries that are met when a directory is not entered again after it was left. -/
def Entries.met : Entries ε → List ℕ → List ℕ
  | .nil, _ => []
  | .cons _ inode sub rest, done =>
    if (info inode).rootEntry = true then rest.met done
    else if (info inode).buf.format ≠ .dir ∨ inode ∈ done then inode :: rest.met done
    else sub.met done ++ inode :: rest.met (inode :: sub.left info done)

/-- No directory that is entered is below an entry with the same inode. `above` are the inodes of the
directories around. -/
def Entries.NotInside : Entries ε → List ℕ → List ℕ → Prop
  | .nil, _, _ => True
  | .cons _ inode sub rest, above, done =>
    if (info inode).rootEntry = true ∨ (info inode).buf.format ≠ .dir ∨ inode ∈ done then
      rest.NotInside above done
    else inode ∉ above ∧ sub.NotInside (inode :: above) done ∧
      rest.NotInside above (inode :: sub.left info done)

end

/-! ## What is written -/

variable {info : ℕ → InodeInfo} {written done above : List ℕ}

/-- The directories among what is written are those that were left. -/
def DirsDone (info : ℕ → InodeInfo) (written done : List ℕ) : Prop :=
  ∀ i, (info i).buf.format = .dir → (i ∈ written ↔ i ∈ done)

theorem DirsDone.cons (h : DirsDone info written done) (i : ℕ) :
    DirsDone info (i :: written) (i :: done) := by
  intro j hj
  rw [List.mem_cons, List.mem_cons, h j hj]

theorem DirsDone.cons_other (h : DirsDone info written done) {i : ℕ}
    (hi : (info i).buf.format ≠ .dir) : DirsDone info (i :: written) done := by
  intro j hj
  rw [List.mem_cons, h j hj]
  constructor
  · rintro (rfl | hj')
    · exact absurd hj hi
    · exact hj'
  · exact Or.inr

/-- **What the walk writes**: the directories it leaves, ... -/
theorem DirsDone.dirScan3 (t : Entries ε) (h : DirsDone info written done) :
    DirsDone info ((dirScan3 info t written).map Prod.snd ++ written) (t.left info done) := by
  induction t generalizing written done with
  | nil => exact h
  | cons ent inode sub rest ihSub ihRest =>
      rw [Squashfs.dirScan3, Entries.left]
      by_cases hroot : (info inode).rootEntry = true
      · rw [if_pos (Or.inl hroot), if_pos (Or.inl hroot)]
        exact ihRest h
      by_cases hdir : (info inode).buf.format = .dir
      · by_cases hw : inode ∈ written
        · rw [if_pos (Or.inr hw), if_pos (Or.inr (Or.inr ((h _ hdir).mp hw)))]
          exact ihRest h
        · have hd : inode ∉ done := fun hd => hw ((h _ hdir).mpr hd)
          rw [if_neg (not_or.mpr ⟨hroot, hw⟩), if_pos hdir, if_neg (by tauto)]
          have hrest := ihRest ((ihSub h).cons inode)
          intro j hj
          rw [← hrest j hj]
          simp only [List.map_append, List.map_cons, List.mem_append, List.mem_cons]
          tauto
      · rw [if_pos (Or.inr (Or.inl hdir))]
        by_cases hw : inode ∈ written
        · rw [if_pos (Or.inr hw)]
          exact ihRest h
        · rw [if_neg (not_or.mpr ⟨hroot, hw⟩), if_neg hdir]
          have hrest := ihRest (h.cons_other (i := inode) hdir)
          intro j hj
          rw [← hrest j hj]
          simp only [List.map_cons, List.mem_append, List.mem_cons]
          tauto

/-- ... and **of every inode that it meets there is one in the end**. -/
theorem mem_dirScan3 (t : Entries ε) (h : DirsDone info written done) (i : ℕ) :
    i ∈ (dirScan3 info t written).map Prod.snd ++ written ↔ i ∈ t.met info done ∨ i ∈ written := by
  induction t generalizing written done with
  | nil => simp [dirScan3, Entries.met]
  | cons ent inode sub rest ihSub ihRest =>
      rw [dirScan3, Entries.met]
      by_cases hroot : (info inode).rootEntry = true
      · rw [if_pos (Or.inl hroot), if_pos hroot]
        exact ihRest h
      rw [if_neg hroot]
      by_cases hdir : (info inode).buf.format = .dir
      · by_cases hw : inode ∈ written
        · rw [if_pos (Or.inr hw), if_pos (Or.inr ((h _ hdir).mp hw)), ihRest h, List.mem_cons]
          constructor
          · tauto
          · rintro ((rfl | hi) | hi)
            · exact Or.inr hw
            · exact Or.inl hi
            · exact Or.inr hi
        · have hd : inode ∉ done := fun hd => hw ((h _ hdir).mpr hd)
          rw [if_neg (not_or.mpr ⟨hroot, hw⟩), if_pos hdir, if_neg (by tauto)]
          have hsub := ihSub h
          have hrest := ihRest ((DirsDone.dirScan3 sub h).cons inode)
          simp only [List.map_append, List.map_cons, List.mem_append, List.mem_cons] at hsub hrest ⊢
          tauto
      · rw [if_pos (Or.inl hdir)]
        by_cases hw : inode ∈ written
        · rw [if_pos (Or.inr hw), ihRest h, List.mem_cons]
          constructor
          · tauto
          · rintro ((rfl | hi) | hi)
            · exact Or.inr hw
            · exact Or.inl hi
            · exact Or.inr hi
        · rw [if_neg (not_or.mpr ⟨hroot, hw⟩), if_neg hdir]
          have hrest := ihRest (h.cons_other (i := inode) hdir)
          simp only [List.map_cons, List.mem_append, List.mem_cons] at hrest ⊢
          tauto

/-- A list without repetition, when the end of it is known to be different from what is before. -/
theorem nodup_append_cons_iff {α : Type*} {as bs cs : List α} {a : α}
    (h : ∀ b ∈ bs, b ∉ a :: (as ++ cs)) :
    (as ++ a :: bs).Nodup ↔ as.Nodup ∧ a ∉ as ∧ bs.Nodup := by
  rw [List.nodup_append, List.nodup_cons]
  constructor
  · rintro ⟨has, ⟨-, hbs⟩, hdisj⟩
    exact ⟨has, fun ha => hdisj a ha a List.mem_cons_self rfl, hbs⟩
  · rintro ⟨has, ha, hbs⟩
    refine ⟨has, ⟨fun hmem => h a hmem List.mem_cons_self, hbs⟩, ?_⟩
    rintro x hx b hb rfl
    rcases List.mem_cons.mp hb with rfl | hb
    · exact ha hx
    · exact h x hb (List.mem_cons_of_mem _ (List.mem_append_left _ hx))

/-- Nothing is written that was written before. -/
theorem notMem_of_mem_dirScan3 (info : ℕ → InodeInfo) (t : Entries ε) (written : List ℕ) :
    ∀ i ∈ (dirScan3 info t written).map Prod.snd, i ∉ written := by
  induction t generalizing written with
  | nil => simp [dirScan3]
  | cons ent inode sub rest ihSub ihRest =>
      rw [dirScan3]
      split
      · exact ihRest written
      · rename_i hnew
        rw [not_or] at hnew
        intro i hi
        split at hi
        · rw [List.map_append, List.mem_append, List.map_cons, List.mem_cons] at hi
          rcases hi with hi | rfl | hi
          · exact ihSub written i hi
          · exact hnew.2
          · intro hw
            exact ihRest _ i hi (List.mem_cons_of_mem _ (List.mem_append_right _ hw))
        · rw [List.map_cons, List.mem_cons] at hi
          rcases hi with rfl | hi
          · exact hnew.2
          · intro hw
            exact ihRest _ i hi (List.mem_cons_of_mem _ hw)

/-- **When the walk writes nothing twice**, also nothing that is around it. -/
theorem nodup_dirScan3_iff (t : Entries ε) (h : DirsDone info written done)
    (habove : ∀ i ∈ above, (info i).buf.format = .dir ∧ i ∉ written) :
    (((dirScan3 info t written).map Prod.snd).Nodup ∧
      ∀ i ∈ above, i ∉ (dirScan3 info t written).map Prod.snd) ↔ t.NotInside info above done := by
  induction t generalizing written done above with
  | nil => simp [dirScan3, Entries.NotInside]
  | cons ent inode sub rest ihSub ihRest =>
      rw [dirScan3, Entries.NotInside]
      by_cases hroot : (info inode).rootEntry = true
      · rw [if_pos (Or.inl hroot), if_pos (Or.inl hroot)]
        exact ihRest h habove
      by_cases hdir : (info inode).buf.format = .dir
      · by_cases hw : inode ∈ written
        · rw [if_pos (Or.inr hw), if_pos (Or.inr (Or.inr ((h _ hdir).mp hw)))]
          exact ihRest h habove
        · have hd : inode ∉ done := fun hd => hw ((h _ hdir).mpr hd)
          rw [if_neg (not_or.mpr ⟨hroot, hw⟩), if_pos hdir, if_neg (by tauto)]
          have hinside : ∀ i ∈ inode :: above, (info i).buf.format = .dir ∧ i ∉ written :=
            List.forall_mem_cons.mpr ⟨⟨hdir, hw⟩, habove⟩
          have hsub := ihSub h hinside
          have hrest := fun habove' : ∀ i ∈ above, _ =>
            ihRest ((DirsDone.dirScan3 sub h).cons inode) habove'
          -- what is written after the directory was not written before
          have hnew := notMem_of_mem_dirScan3 info rest
            (inode :: ((dirScan3 info sub written).map Prod.snd ++ written))
          rw [List.map_append, List.map_cons]
          dsimp only
          generalize (dirScan3 info sub written).map Prod.snd = below at hsub hrest hnew ⊢
          generalize (dirScan3 info rest (inode :: (below ++ written))).map Prod.snd = behind
            at hrest hnew ⊢
          rw [nodup_append_cons_iff hnew, ← hsub, List.forall_mem_cons]
          constructor
          · rintro ⟨⟨hb, hi, hr⟩, hall⟩
            have hne : inode ∉ above := fun hmem => hall inode hmem (by simp)
            have hbelow : ∀ i ∈ above, i ∉ below := fun i hmem hi' =>
              hall i hmem (List.mem_append_left _ hi')
            refine ⟨hne, ⟨hb, hi, hbelow⟩, ?_⟩
            refine (hrest fun i hmem => ⟨(habove i hmem).1, ?_⟩).mp ⟨hr, fun i hmem hi' => ?_⟩
            · rw [List.mem_cons, List.mem_append]
              rintro (rfl | hi' | hi')
              · exact hne hmem
              · exact hbelow i hmem hi'
              · exact (habove i hmem).2 hi'
            · exact hall i hmem (List.mem_append_right _ (List.mem_cons_of_mem _ hi'))
          · rintro ⟨hne, ⟨hb, hi, hbelow⟩, hlater⟩
            obtain ⟨hr, hbehind⟩ := (hrest fun i hmem => ⟨(habove i hmem).1, by
              rw [List.mem_cons, List.mem_append]
              rintro (rfl | hi' | hi')
              · exact hne hmem
              · exact hbelow i hmem hi'
              · exact (habove i hmem).2 hi'⟩).mpr hlater
            refine ⟨⟨hb, hi, hr⟩, fun i hmem hi' => ?_⟩
            rw [List.mem_append, List.mem_cons] at hi'
            rcases hi' with hi' | rfl | hi'
            · exact hbelow i hmem hi'
            · exact hne hmem
            · exact hbehind i hmem hi'
      · rw [if_pos (Or.inr (Or.inl hdir))]
        by_cases hw : inode ∈ written
        · rw [if_pos (Or.inr hw)]
          exact ihRest h habove
        · rw [if_neg (not_or.mpr ⟨hroot, hw⟩), if_neg hdir, List.map_cons, List.nodup_cons]
          have hother : ∀ i ∈ above, i ≠ inode := by
            rintro i hmem rfl
            exact hdir (habove i hmem).1
          have hnew := notMem_of_mem_dirScan3 info rest (inode :: written)
          rw [← ihRest (h.cons_other (i := inode) hdir) fun i (hmem : i ∈ above) =>
            ⟨(habove i hmem).1, List.not_mem_cons_of_ne_of_not_mem (hother i hmem) (habove i hmem).2⟩]
          constructor
          · rintro ⟨⟨-, hr⟩, hall⟩
            exact ⟨hr, fun i hmem hi => hall i hmem (List.mem_cons_of_mem _ hi)⟩
          · rintro ⟨hr, hall⟩
            refine ⟨⟨fun hi => hnew _ hi List.mem_cons_self, hr⟩, fun i hmem hi => ?_⟩
            rcases List.mem_cons.mp hi with rfl | hi
            · exact hother _ hmem rfl
            · exact hall i hmem hi

end FirmwareTools.Squashfs

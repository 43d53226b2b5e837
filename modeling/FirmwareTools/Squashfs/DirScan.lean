import FirmwareTools.Squashfs.CreateInode

/-! # Walking the directories of an image

`squashfs_opendir_4` reads a directory from the uncompressed directory table, `matches` filters its
entries by the extract patterns, and `dir_scan` glues the names to pathnames and hands these to
`mkdir`, to `create_inode` and to itself. All of it is undefined once a buffer or a table is
overrun; the walk then stops with what it has passed so far.

* **`dirScan_below`** — every pathname passed on is the destination followed by names of directory
  entries, each behind a `/`;
* **`contained_joinNames_iff`**, **`dirScan_contained`** — such a pathname stays lexically inside the
  destination exactly when its names do, and nothing in the code checks them. -/

namespace FirmwareTools.Squashfs

/-! ## Reading a directory -/

/-- `SQUASHFS_NAME_LEN` -/
def nameLen : ℕ := 256

/-- An image as `unsquashfs` holds it: the inode table, and the uncompressed directory table with the
positions of its metadata blocks. -/
structure Image where
  inodeTable : InodeTable
  directoryTable : List UInt8
  lookupDirectory : ℕ → Option ℕ
  directoryTableStart : ℕ

/-- `struct dir_ent` -/
structure DirEnt where
  name : Path
  startBlock : ℕ
  offset : ℕ
  type : ℕ
  deriving DecidableEq, Repr

/-- The inner loop of `squashfs_opendir_4`: `n` entries from position `bytes` on, and the position
behind them. A name is copied with its length from the entry and then taken up to its first NUL. -/
def readEntries (table : List UInt8) (startBlock : ℕ) : ℕ → ℕ → Option (List DirEnt × ℕ)
  | 0, bytes => some ([], bytes)
  | n + 1, bytes => do
    let [offset, _, type, size] ← readFields [2, 2, 2, 2] (table.drop bytes) | none
    let bytes := bytes + 8
    let len := size + 1
    -- the copy leaves the table, or the room for a name in `buffer`
    if table.length < bytes + len ∨ nameLen < len then none
    else
      let name := ((table.drop bytes).take len).takeWhile (· ≠ 0)
      let (entries, bytes) ← readEntries table startBlock n (bytes + len)
      some ({ name, startBlock, offset, type } :: entries, bytes)

theorem readEntries_le {table : List UInt8} {startBlock n bytes bytes' : ℕ}
    {entries : List DirEnt} (h : readEntries table startBlock n bytes = some (entries, bytes')) :
    bytes ≤ bytes' := by
  induction n generalizing bytes entries with
  | zero =>
      simp only [readEntries, Option.some.injEq, Prod.mk.injEq] at h
      omega
  | succ n ih =>
      rw [readEntries] at h
      simp only [Option.bind_eq_bind, Option.bind_eq_some_iff] at h
      obtain ⟨fields, -, h⟩ := h
      split at h
      · split at h
        · cases h
        · simp only [Option.bind_eq_some_iff, Option.some.injEq, Prod.mk.injEq] at h
          obtain ⟨⟨es, b⟩, hrec, -, rfl⟩ := h
          have := ih hrec
          omega
      · cases h

/-- The outer loop of `squashfs_opendir_4`: runs of entries, each behind a header. -/
def readDirectory (table : List UInt8) (size : Int) (bytes : ℕ) : Option (List DirEnt) :=
  if (bytes : Int) < size then
    match readFields [4, 4, 4] (table.drop bytes) with
    | some [count, startBlock, _] =>
      match _h : readEntries table startBlock ((count + 1) % 2 ^ 32) (bytes + 12) with
      | some (entries, bytes') => (readDirectory table size bytes').map (entries ++ ·)
      | none => none
    | _ => none
  else some []
termination_by (size - bytes).toNat
decreasing_by
  have := readEntries_le _h
  omega

/-- `squashfs_opendir_4`: the inode of a directory and its entries. -/
def opendir4 (img : Image) (blockStart offset : ℕ) : Option (Inode × List DirEnt) := do
  let i ← readInode4 img.inodeTable blockStart offset
  let bytes ← img.lookupDirectory (img.directoryTableStart + i.start)
  let bytes := bytes + i.offset
  let entries ← readDirectory img.directoryTable (toInt32 (i.data + bytes - 3)) bytes
  some (i, entries)

/-! ## Extract patterns -/

/-- `struct pathname`: the components at one level of the extract patterns, each with what may follow
it, `none` at the end of a pattern. -/
inductive Pathname
  | mk (names : List (Path × Option Pathname))

/-- The names of a level. -/
def Pathname.names : Pathname → List (Path × Option Pathname)
  | .mk names => names

/-- `matches`: does a name match the patterns, and which patterns are left below it? `none` stands
for "everything". `fnmatch` is the matching of one component, a shell pattern or a regular
expression. -/
def matchesPaths (fnmatch : Path → Path → Bool) (paths : Option (List Pathname)) (name : Path) :
    Bool × Option (List Pathname) :=
  match paths with
  | none => (true, none)
  | some paths =>
    let matching := (paths.flatMap Pathname.names).filter fun entry => fnmatch entry.1 name
    if matching.any fun entry => entry.2.isNone then (true, none)
    else if matching.isEmpty then (false, none)
    else (true, some (matching.filterMap Prod.snd))

/-! ## The walk -/

/-- What `mkdir` answers. -/
inductive MkdirResult
  | ok | eexist | failed
  deriving DecidableEq, Repr

/-- The surroundings of a walk: the image, the switches, component matching, and the answers of
`mkdir`. -/
structure ScanEnv where
  img : Image
  lsonly : Bool := false
  force : Bool := false
  fnmatch : Path → Path → Bool
  mkdir : Path → MkdirResult

/-- The places where `dir_scan` passes a pathname on. -/
inductive ScanEvent
  | mkdir (path : Path)
  | dirScan (path : Path)
  | createInode (path : Path) (inode : Inode)
  | setAttributes (path : Path) (mode uid gid time xattr : ℕ)
  deriving DecidableEq

/-- The pathname of an event. -/
def ScanEvent.path : ScanEvent → Path
  | .mkdir path | .dirScan path | .createInode path _ | .setAttributes path _ _ _ _ _ => path

/-- The size of the local `pathname` buffer of `dir_scan`. -/
def pathnameSize : ℕ := 1024

/-- `strcat(strcat(strcpy(pathname, parent_name), "/"), name)` -/
def joinName (parent name : Path) : Path := parent ++ 47 :: name

/-- One round of the loop of `dir_scan`: the events, and whether the walk goes on. -/
def scanEntry (env : ScanEnv)
    (dirScan : Path → ℕ → ℕ → Option (List Pathname) → List ScanEvent × Bool) (parent : Path)
    (paths : Option (List Pathname)) (entry : DirEnt) : List ScanEvent × Bool :=
  match matchesPaths env.fnmatch paths entry.name with
  | (false, _) => ([], true)
  | (true, new) =>
    let pathname := joinName parent entry.name
    if pathnameSize ≤ pathname.length then ([], false)
    else if entry.type = InodeType.dir.code then
      let (events, ok) := dirScan pathname entry.startBlock entry.offset new
      (.dirScan pathname :: events, ok)
    else if new.isNone then
      match readInode4 env.img.inodeTable entry.startBlock entry.offset with
      | some i => (if env.lsonly then [] else [.createInode pathname i], true)
      | none => ([], false)
    else ([], true)

/-- Run a loop body over a list until it stops. -/
def scanEntries (body : DirEnt → List ScanEvent × Bool) : List DirEnt → List ScanEvent × Bool
  | [] => ([], true)
  | entry :: entries =>
    match body entry with
    | (events, false) => (events, false)
    | (events, true) =>
      let (events', ok) := scanEntries body entries
      (events ++ events', ok)

/-- `dir_scan`, to a depth bounded by the first argument: a directory may contain itself. -/
def dirScan (env : ScanEnv) :
    ℕ → Path → ℕ → ℕ → Option (List Pathname) → List ScanEvent × Bool
  | 0, _, _, _, _ => ([], false)
  | depth + 1, parent, startBlock, offset, paths =>
    match opendir4 env.img startBlock offset with
    | none => ([], false)
    | some (dir, entries) =>
      let made := if env.lsonly then [] else [.mkdir parent]
      let result := env.mkdir parent
      if !env.lsonly && result != .ok && (!env.force || result != .eexist) then (made, true)
      else
        match scanEntries (scanEntry env (dirScan env depth) parent paths) entries with
        | (events, false) => (made ++ events, false)
        | (events, true) =>
          let attributes := if env.lsonly then [] else
            [.setAttributes parent dir.mode dir.uid dir.gid dir.time dir.xattr]
          (made ++ events ++ attributes, true)

/-! ## Every pathname is glued from names of entries -/

/-- A name that `squashfs_opendir_4` can find in some directory of the image. -/
def EntryName (img : Image) (name : Path) : Prop :=
  ∃ blockStart offset dir entries, opendir4 img blockStart offset = some (dir, entries) ∧
    ∃ entry ∈ entries, entry.name = name

/-- A pathname glued together level by level. -/
def joinNames (parent : Path) (names : List Path) : Path := names.foldl joinName parent

/-- An event of a walk that started at `parent`: one for `parent` itself, or one below it, at names
of entries. -/
def Below (img : Image) (parent : Path) (event : ScanEvent) : Prop :=
  event = .mkdir parent ∨
  (∃ mode uid gid time xattr, event = .setAttributes parent mode uid gid time xattr) ∨
  ∃ names, names ≠ [] ∧ (∀ name ∈ names, EntryName img name) ∧
    event.path = joinNames parent names

/-- What is below a child is below its parent. -/
theorem Below.of_child {img : Image} {parent name : Path} {event : ScanEvent}
    (hname : EntryName img name) (h : Below img (joinName parent name) event) :
    Below img parent event := by
  refine Or.inr (Or.inr ?_)
  rcases h with rfl | ⟨mode, uid, gid, time, xattr, rfl⟩ | ⟨names, -, hnames, hpath⟩
  · exact ⟨[name], List.cons_ne_nil _ _, by simpa using hname, rfl⟩
  · exact ⟨[name], List.cons_ne_nil _ _, by simpa using hname, rfl⟩
  · exact ⟨name :: names, List.cons_ne_nil _ _, List.forall_mem_cons.mpr ⟨hname, hnames⟩, hpath⟩

/-- The events of a loop are those of its rounds. -/
theorem mem_scanEntries {body : DirEnt → List ScanEvent × Bool} {entries : List DirEnt}
    {event : ScanEvent} (h : event ∈ (scanEntries body entries).1) :
    ∃ entry ∈ entries, event ∈ (body entry).1 := by
  induction entries with
  | nil => simp [scanEntries] at h
  | cons entry entries ih =>
      rw [scanEntries] at h
      rcases hbody : body entry with ⟨events, ok⟩
      rw [hbody] at h
      cases ok with
      | false => exact ⟨entry, List.mem_cons_self, by rw [hbody]; exact h⟩
      | true =>
          rcases List.mem_append.mp h with h | h
          · exact ⟨entry, List.mem_cons_self, by rw [hbody]; exact h⟩
          · obtain ⟨entry', hmem, hevent⟩ := ih h
            exact ⟨entry', List.mem_cons_of_mem _ hmem, hevent⟩

/-- One round passes on the pathname of its entry, or what the recursion passes on. -/
theorem mem_scanEntry {env : ScanEnv}
    {rec : Path → ℕ → ℕ → Option (List Pathname) → List ScanEvent × Bool} {parent : Path}
    {paths : Option (List Pathname)} {entry : DirEnt} {event : ScanEvent}
    (h : event ∈ (scanEntry env rec parent paths entry).1) :
    event.path = joinName parent entry.name ∨
      ∃ new, event ∈ (rec (joinName parent entry.name) entry.startBlock entry.offset new).1 := by
  rw [scanEntry] at h
  rcases hm : matchesPaths env.fnmatch paths entry.name with ⟨matched, new⟩
  rw [hm] at h
  cases matched with
  | false => simp at h
  | true =>
      simp only at h
      split at h
      · simp at h
      · split at h
        · rcases List.mem_cons.mp h with rfl | h
          · exact Or.inl rfl
          · exact Or.inr ⟨new, h⟩
        · split at h
          · split at h
            · split at h
              · simp at h
              · rw [List.mem_singleton.mp h]
                exact Or.inl rfl
            · simp at h
          · simp at h

/-- **Everything a walk passes on is below its start.** -/
theorem dirScan_below (env : ScanEnv) (depth : ℕ) (parent : Path) (startBlock offset : ℕ)
    (paths : Option (List Pathname)) :
    ∀ event ∈ (dirScan env depth parent startBlock offset paths).1,
      Below env.img parent event := by
  induction depth generalizing parent startBlock offset paths with
  | zero => simp [dirScan]
  | succ depth ih =>
      intro event h
      rw [dirScan] at h
      split at h
      · simp at h
      · next dir entries hdir =>
          have hmade : ∀ e ∈ (if env.lsonly then [] else [ScanEvent.mkdir parent]),
              Below env.img parent e := by
            intro e he
            split at he
            · simp at he
            · exact Or.inl (List.mem_singleton.mp he)
          have hloop : ∀ e ∈ (scanEntries (scanEntry env (dirScan env depth) parent paths)
              entries).1, Below env.img parent e := by
            intro e he
            obtain ⟨entry, hentry, he⟩ := mem_scanEntries he
            have hname : EntryName env.img entry.name :=
              ⟨startBlock, offset, dir, entries, hdir, entry, hentry, rfl⟩
            rcases mem_scanEntry he with hpath | ⟨new, he⟩
            · exact Or.inr (Or.inr ⟨[entry.name], List.cons_ne_nil _ _, by simpa using hname,
                hpath⟩)
            · exact (ih _ _ _ _ e he).of_child hname
          simp only at h
          split at h
          · exact hmade event h
          · rcases hrun : scanEntries (scanEntry env (dirScan env depth) parent paths) entries
              with ⟨events, ok⟩
            rw [hrun] at h hloop
            cases ok with
            | false =>
                rcases List.mem_append.mp h with h | h
                · exact hmade event h
                · exact hloop event h
            | true =>
                rcases List.mem_append.mp h with h | h
                · rcases List.mem_append.mp h with h | h
                  · exact hmade event h
                  · exact hloop event h
                · split at h
                  · simp at h
                  · exact Or.inr (Or.inl ⟨_, _, _, _, _, List.mem_singleton.mp h⟩)

/-! ## Containment -/

/-- A component that stays where it is: not empty, not `.` and not `..`. -/
def ProperComponent (c : Path) : Prop := c ≠ [] ∧ c ≠ [46] ∧ c ≠ [46, 46]

/-- A name all of whose pieces between `/`s are proper components. -/
def SafeName (name : Path) : Prop := ∀ c ∈ name.splitOn 47, ProperComponent c

/-- Lexical containment: `dest` followed by one or more `/`-separated proper components. -/
def Contained (dest path : Path) : Prop := ∃ rel, path = dest ++ 47 :: rel ∧ SafeName rel

/-- What is behind the destination in a glued pathname. -/
theorem joinNames_eq (dest name : Path) (names : List Path) :
    joinNames dest (name :: names) = dest ++ 47 :: joinNames name names := by
  have happend : ∀ (a b : Path) (ns : List Path), joinNames (a ++ b) ns = a ++ joinNames b ns := by
    intro a b ns
    induction ns generalizing b with
    | nil => rfl
    | cons n ns ih =>
        rw [joinNames, List.foldl_cons, ← joinNames, joinName, List.append_assoc, ih]
        rfl
  rw [joinNames, List.foldl_cons, ← joinNames, joinName,
    show dest ++ 47 :: name = (dest ++ [47]) ++ name by simp, happend]
  simp

/-- The pieces of a glued pathname are the pieces of its names. -/
theorem safeName_joinNames (name : Path) (names : List Path) :
    SafeName (joinNames name names) ↔ ∀ n ∈ name :: names, SafeName n := by
  induction names generalizing name with
  | nil => simp [joinNames]
  | cons n names ih =>
      rw [joinNames_eq, List.forall_mem_cons, ← ih, SafeName, List.splitOn_append_cons_self]
      simp only [List.mem_append, or_imp, forall_and]
      exact Iff.rfl

/-- **A glued pathname is contained exactly when all its names are safe.** -/
theorem contained_joinNames_iff (dest : Path) {names : List Path} (h : names ≠ []) :
    Contained dest (joinNames dest names) ↔ ∀ n ∈ names, SafeName n := by
  obtain ⟨name, names, rfl⟩ := List.exists_cons_of_ne_nil h
  rw [← safeName_joinNames, Contained, joinNames_eq]
  constructor
  · rintro ⟨rel, hrel, hsafe⟩
    rw [List.append_cancel_left_eq, List.cons.injEq] at hrel
    rw [hrel.2]
    exact hsafe
  · exact fun hsafe => ⟨_, rfl, hsafe⟩

/-- **Where extraction goes**: apart from making the destination itself and setting its attributes,
every pathname passed on is the destination followed by one or more names of directory entries, and
it stays inside the destination exactly when these names are safe. -/
theorem dirScan_contained (env : ScanEnv) (depth : ℕ) (dest : Path) (startBlock offset : ℕ)
    (paths : Option (List Pathname)) :
    ∀ event ∈ (dirScan env depth dest startBlock offset paths).1,
      event = .mkdir dest ∨
      (∃ mode uid gid time xattr, event = .setAttributes dest mode uid gid time xattr) ∨
      ∃ names, names ≠ [] ∧ (∀ name ∈ names, EntryName env.img name) ∧
        event.path = joinNames dest names ∧
        (Contained dest event.path ↔ ∀ name ∈ names, SafeName name) := by
  intro event h
  rcases dirScan_below env depth dest startBlock offset paths event h with
    h | h | ⟨names, hne, hnames, hpath⟩
  · exact Or.inl h
  · exact Or.inr (Or.inl h)
  · refine Or.inr (Or.inr ⟨names, hne, hnames, hpath, ?_⟩)
    rw [hpath]
    exact contained_joinNames_iff dest hne

/-! ## A name that leaves the destination -/

/-- An image whose root directory has one entry, a fifo named `../x`. -/
def escapingImage : Image where
  inodeTable :=
    { bytes := ((createInode { type := .dir, byteSize := 27 }).getD []) ++
        ((createInode { type := .fifo, inodeNumber := 2 }).getD [])
      lookupEntry := fun _ => some 0, inodeTableStart := 0, idTable := fun _ => 0
      blockSize := 4096, blockLog := 12 }
  directoryTable := packFields [(4, 0), (4, 0), (4, 1)] ++
    packFields [(2, 32), (2, 1), (2, InodeType.fifo.code), (2, 3)] ++ [46, 46, 47, 120]
  lookupDirectory := fun _ => some 0
  directoryTableStart := 0

/-- An extraction of that image. -/
def escapingEnv : ScanEnv :=
  { img := escapingImage, fnmatch := fun _ _ => true, mkdir := fun _ => .ok }

/-- What is passed to `create_inode` for the fifo when the image is extracted to `d`. -/
def escapingEvent : ScanEvent :=
  .createInode [100, 47, 46, 46, 47, 120]
    { uid := 0, gid := 0, mode := 0o010000, type := .fifo, time := 0, inodeNumber := 2 }

theorem escapingEvent_mem : escapingEvent ∈ (dirScan escapingEnv 1 [100] 0 0 none).1 := by
  decide +kernel

/-- Extracted to `d`, the image makes `create_inode` create `d/../x`. -/
theorem not_contained_escapingImage :
    ¬ ∀ event ∈ (dirScan escapingEnv 1 [100] 0 0 none).1,
      event.path = [100] ∨ Contained [100] event.path := by
  intro h
  rcases h _ escapingEvent_mem with hpath | ⟨rel, hrel, hsafe⟩
  · exact absurd hpath (by decide)
  · obtain rfl : rel = [46, 46, 47, 120] := by
      simpa [escapingEvent, ScanEvent.path] using hrel.symm
    exact absurd (hsafe [46, 46] (by decide)) (by simp [ProperComponent])

/-- The fifo's pathname is made of names of the image, one of which is not safe. -/
theorem dirScan_contained_escapingEvent :
    escapingEvent = .mkdir [100] ∨
      (∃ mode uid gid time xattr, escapingEvent = .setAttributes [100] mode uid gid time xattr) ∨
      ∃ names, names ≠ [] ∧ (∀ name ∈ names, EntryName escapingImage name) ∧
        escapingEvent.path = joinNames [100] names ∧
        (Contained [100] escapingEvent.path ↔ ∀ name ∈ names, SafeName name) :=
  dirScan_contained escapingEnv 1 [100] 0 0 none escapingEvent escapingEvent_mem

end FirmwareTools.Squashfs

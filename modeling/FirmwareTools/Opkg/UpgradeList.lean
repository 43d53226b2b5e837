import FirmwareTools.Opkg.ActiveList
import FirmwareTools.Opkg.Duplicates
import FirmwareTools.Opkg.InstallCmd
import FirmwareTools.Opkg.ResolveInstalled

/-! # The list of upgrades

`prepare_upgrade_list` puts the installed packages on a list and moves those that have a newer candidate
to another one while it goes through the first. Behind a package that has been moved it goes on from the
one in front of it, which is `NULL` if there is none.

* **`prepareUpgradeList_exact`** — the packages with a newer candidate are listed, in the order of the
  hash. -/

namespace FirmwareTools.Opkg

/-! ## The upgrades -/

/-- The addresses of the lists in `prepare_upgrade_list`: `&pkg->list`, and the two heads. -/
inductive UpgradeAddr where
  | pkg (i : PkgId)
  | all
  | upgrades
  deriving DecidableEq

/-- `list_entry(node, pkg_t, list)` -/
def UpgradeAddr.entry : UpgradeAddr → Option PkgId
  | .pkg i => some i
  | _ => none

/-- `pkg_hash_check_installed_pkg_helper` -/
def pkgHashCheckInstalledPkgHelper (db : Database) (m : ActiveLists UpgradeAddr) (name : AbstractPkgId) :
    ActiveLists UpgradeAddr :=
  (db.filed name).foldl (fun m i =>
    if (db.pkg i).stateStatus = .installed ∨ (db.pkg i).stateStatus = .unpacked then
      activeListAdd m .all (.pkg i)
    else m) m

/-- The loop of `prepare_upgrade_list`. -/
def moveUpgrades (env : Env) (db : Database) :
    ℕ → Option UpgradeAddr → ActiveLists UpgradeAddr → Option (ActiveLists UpgradeAddr)
  | 0, _, _ => none
  | _ + 1, none, m => some m
  | n + 1, some node, m => do
    let old ← node.entry
    let (node, m) ← match ← pkgHashFetchBestInstallationCandidateByName env db (db.pkg old).name with
      | none => some (some node, m)
      | some new =>
        if pkgCompareVersions (db.pkg old) (db.pkg new) < 0 then
          activeListMoveNode m .all .upgrades (.pkg old)
        else some (some node, m)
    moveUpgrades env db n (← activeListNext n m .all node) m

/-- `prepare_upgrade_list`; `names` are the keys of `conf->pkg_hash` in the order of its buckets.
`pkg_info_preinstall_check` has been left out, as it writes to the files of the packages only. -/
def prepareUpgradeList (env : Env) (n : ℕ) (db : Database) (names : List AbstractPkgId)
    (m : ActiveLists UpgradeAddr) : Option (ActiveLists UpgradeAddr) := do
  let m := activeListInit m .upgrades
  let m := activeListInit m .all
  let m := names.foldl (pkgHashCheckInstalledPkgHelper db) m
  let m ← moveUpgrades env db n (← activeListNext n m .all (some .all)) m
  activeListClear n m .all

/-- A package for which there is a newer candidate. -/
def Database.isUpgradable (db : Database) (env : Env) (i : PkgId) : Bool :=
  match pkgHashFetchBestInstallationCandidateByName env db (db.pkg i).name with
  | some (some new) => pkgCompareVersions (db.pkg i) (db.pkg new) < 0
  | _ => false

/-- `pkg_init` has left every package on a list of its own. -/
def FreshLists (m : ActiveLists UpgradeAddr) : Prop :=
  ∀ i, m.links.next (.node (.pkg i)) = .node (.pkg i) ∧ m.links.prev (.node (.pkg i)) = .node (.pkg i) ∧
    m.links.next (.depend (.pkg i)) = .depend (.pkg i) ∧
    m.links.prev (.depend (.pkg i)) = .depend (.pkg i)

/-- The two lists while `prepare_upgrade_list` runs. -/
structure TwoLists (m : ActiveLists UpgradeAddr) (all upgrades : List PkgId) : Prop where
  all : m.Holds .all (all.map .pkg)
  upgrades : m.Holds .upgrades (upgrades.map .pkg)
  flat : m.Flat

variable {env : Env} {db : Database} {m : ActiveLists UpgradeAddr} {n : ℕ} {xs ys zs : List PkgId}

theorem mem_map_pkg {i : PkgId} : UpgradeAddr.pkg i ∈ xs.map UpgradeAddr.pkg ↔ i ∈ xs := by
  rw [List.mem_map]
  refine ⟨fun ⟨j, hj, heq⟩ => ?_, fun h => ⟨i, h, rfl⟩⟩
  exact UpgradeAddr.pkg.inj heq ▸ hj

/-- Lists of different packages have nothing in common. -/
theorem disjoint_lists (hdisjoint : ∀ i ∈ xs, i ∉ ys) :
    ∀ e ∈ UpgradeAddr.all :: xs.map .pkg, e ∉ UpgradeAddr.upgrades :: ys.map .pkg := by
  intro e he hmem
  rcases List.mem_cons.mp he with rfl | he
  · simp at hmem
  · obtain ⟨i, hi, rfl⟩ := List.mem_map.mp he
    rcases List.mem_cons.mp hmem with hnot | hmem
    · exact absurd hnot (by simp)
    · exact hdisjoint i hi (mem_map_pkg.mp hmem)

/-! ### Collecting -/

/-- The two heads are new, and every package is alone. -/
theorem twoLists_init (hfresh : FreshLists m) :
    let m := activeListInit (activeListInit m .upgrades) .all
    TwoLists m [] [] ∧ ∀ i, m.links.next (.node (.pkg i)) = .node (.pkg i) ∧
      m.links.prev (.node (.pkg i)) = .node (.pkg i) := by
  dsimp only
  refine ⟨⟨?_, ?_, fun e => ?_⟩, fun i => ?_⟩
  · refine ⟨List.nodup_singleton _, List.isChain_pair.mpr ⟨?_, ?_⟩⟩ <;>
      simp [activeListInit, Links.initListHead, Links.setNext, Links.setPrev]
  · refine ⟨List.nodup_singleton _, List.isChain_pair.mpr ⟨?_, ?_⟩⟩ <;>
      simp [activeListInit, Links.initListHead, Links.setNext, Links.setPrev]
  · cases e with
    | pkg i =>
        obtain ⟨-, -, hnext, hprev⟩ := hfresh i
        simp [activeListInit, Links.initListHead, Links.setNext, Links.setPrev, hnext, hprev]
    | all => simp [activeListInit, Links.initListHead, Links.setNext, Links.setPrev]
    | upgrades => simp [activeListInit, Links.initListHead, Links.setNext, Links.setPrev]
  · obtain ⟨hnext, hprev, -⟩ := hfresh i
    simp [activeListInit, Links.initListHead, Links.setNext, Links.setPrev, hnext, hprev]

/-- **Collecting**: the installed packages are put on the list one behind the other. -/
theorem twoLists_collect (db : Database) (is : List PkgId) (h : TwoLists m xs []) (hnodup : (xs ++ is).Nodup)
    (halone : ∀ i, i ∉ xs → m.links.next (.node (.pkg i)) = .node (.pkg i) ∧
      m.links.prev (.node (.pkg i)) = .node (.pkg i)) :
    TwoLists (is.foldl (fun m i =>
      if (db.pkg i).stateStatus = .installed ∨ (db.pkg i).stateStatus = .unpacked then
        activeListAdd m .all (.pkg i)
      else m) m) (xs ++ is.filter fun i => (db.pkg i).isInstalled) [] := by
  induction is generalizing m xs with
  | nil => rwa [List.foldl_nil, List.filter_nil, List.append_nil]
  | cons i is ih =>
      rw [List.foldl_cons, List.filter_cons]
      have hinstalled : (db.pkg i).isInstalled = true ↔
          (db.pkg i).stateStatus = .installed ∨ (db.pkg i).stateStatus = .unpacked := by
        rw [Pkg.isInstalled, Bool.or_eq_true, beq_iff_eq, beq_iff_eq]
      rw [List.nodup_middle, List.nodup_cons] at hnodup
      have hi : i ∉ xs := fun hmem => hnodup.1 (List.mem_append_left _ hmem)
      by_cases hst : (db.pkg i).isInstalled = true
      · rw [if_pos hst, if_pos (hinstalled.mp hst)]
        have hnot : UpgradeAddr.pkg i ∉ UpgradeAddr.all :: xs.map .pkg := fun hmem =>
          hi (mem_map_pkg.mp ((List.mem_cons.mp hmem).resolve_left (by simp)))
        obtain ⟨hall, hflat, hsame⟩ := holds_activeListAdd_alone h.all h.flat hnot (halone i hi).1
          (halone i hi).2
        have hadded : TwoLists (activeListAdd m .all (.pkg i)) (xs ++ [i]) [] := by
          refine ⟨?_, ?_, hflat⟩
          · rwa [List.map_append]
          · refine Ring.congr h.upgrades fun p hp => ?_
            rw [List.map_nil, List.map_nil, List.mem_singleton] at hp
            subst hp
            exact hsame .upgrades (by simp) (by simp)
        rw [← List.singleton_append, ← List.append_assoc]
        refine ih hadded ?_ fun j hj => ?_
        · rw [List.append_assoc, List.singleton_append, List.nodup_middle, List.nodup_cons]
          exact hnodup
        · rw [List.mem_append, List.mem_singleton, not_or] at hj
          obtain ⟨hn, hp⟩ := hsame (.pkg j) (fun heq => hj.2 (UpgradeAddr.pkg.inj heq)) fun hmem =>
            hj.1 (mem_map_pkg.mp ((List.mem_cons.mp hmem).resolve_left (by simp)))
          exact ⟨hn.trans (halone j hj.1).1, hp.trans (halone j hj.1).2⟩
      · rw [if_neg hst, if_neg fun h => hst (hinstalled.mpr h)]
        exact ih h hnodup.2 halone

/-! ### Moving -/

/-- The package behind the last of `xs`. -/
theorem TwoLists.next (xs : List PkgId) (h : TwoLists m (xs ++ ys) zs) (hn : 0 < n) :
    activeListNext n m .all (xs.getLast?.map .pkg) = some (ys.head?.map .pkg) := by
  have hall := h.all
  rw [List.map_append] at hall
  rw [← List.getLast?_map, ← List.head?_map]
  exact activeListNext_getLast hall h.flat hn

/-- Moving a package to the list of upgrades. -/
theorem TwoLists.move {i : PkgId} (h : TwoLists m (xs ++ i :: ys) zs)
    (hnodup : (xs ++ i :: ys ++ zs).Nodup) :
    activeListMoveNode m .all .upgrades (.pkg i) =
        some (xs.getLast?.map .pkg, activeListAdd m .upgrades (.pkg i)) ∧
      TwoLists (activeListAdd m .upgrades (.pkg i)) (xs ++ ys) (zs ++ [i]) := by
  have hall := h.all
  rw [List.map_append, List.map_cons] at hall
  refine ⟨?_, ?_⟩
  · rw [activeListMoveNode, if_neg (by simp), activeListPrev_eq hall h.flat, List.getLast?_map]
    rfl
  · have hdisjoint := disjoint_lists fun j hj hjz => (List.nodup_append.mp hnodup).2.2 j hj j hjz rfl
    rw [List.map_append, List.map_cons] at hdisjoint
    obtain ⟨hleft, hright, hflat⟩ := holds_activeListAdd hall h.upgrades h.flat hdisjoint
    refine ⟨?_, ?_, hflat⟩
    · rwa [List.map_append]
    · rwa [List.map_append]

/-- One round of the loop. -/
theorem moveUpgrades_succ (hplaced : WellPlaced db) (n : ℕ) (i : PkgId) (m : ActiveLists UpgradeAddr) :
    moveUpgrades env db (n + 1) (some (.pkg i)) m =
      (if db.isUpgradable env i then activeListMoveNode m .all .upgrades (.pkg i)
        else some (some (.pkg i), m)).bind fun r =>
          (activeListNext n r.2 .all r.1).bind fun node => moveUpgrades env db n node r.2 := by
  obtain ⟨best, hbest⟩ : ∃ best,
      pkgHashFetchBestInstallationCandidateByName env db (db.pkg i).name = some best :=
    fetchBest_isSome hplaced _ _ _
  rw [moveUpgrades, Database.isUpgradable, hbest]
  simp only [UpgradeAddr.entry, Option.bind_eq_bind, Option.bind_some]
  rw [hbest, Option.bind_some]
  cases best with
  | none => simp
  | some new => by_cases hcmp : pkgCompareVersions (db.pkg i) (db.pkg new) < 0 <;> simp [hcmp]

/-- **The loop** moves the packages with a newer candidate and goes on behind those that it keeps. -/
theorem twoLists_moveUpgrades (env : Env) (xs : List PkgId) (hplaced : WellPlaced db) (h : TwoLists m (xs ++ ys) zs)
    (hnodup : (xs ++ ys ++ zs).Nodup) (hn : ys.length < n) :
    ∃ m', moveUpgrades env db n (ys.head?.map .pkg) m = some m' ∧
      TwoLists m' (xs ++ ys.filter fun i => !db.isUpgradable env i)
        (zs ++ ys.filter fun i => db.isUpgradable env i) := by
  induction ys generalizing m n xs zs with
  | nil =>
      obtain ⟨n, rfl⟩ := Nat.exists_eq_succ_of_ne_zero (Nat.ne_zero_of_lt hn)
      refine ⟨m, rfl, ?_⟩
      rw [List.filter_nil, List.filter_nil, List.append_nil, List.append_nil]
      rwa [List.append_nil] at h
  | cons i ys ih =>
      obtain ⟨n, rfl⟩ := Nat.exists_eq_succ_of_ne_zero (Nat.ne_zero_of_lt hn)
      rw [List.length_cons] at hn
      rw [List.head?_cons, Option.map_some, moveUpgrades_succ hplaced]
      by_cases hup : db.isUpgradable env i = true
      · -- the loop goes on behind the one in front of `i`
        obtain ⟨hmove, hmoved⟩ := h.move hnodup
        have hperm : (xs ++ ys ++ (zs ++ [i])).Perm (xs ++ i :: ys ++ zs) := by
          rw [← List.append_assoc, List.append_assoc xs (i :: ys), List.cons_append]
          refine (List.perm_append_singleton i _).trans ?_
          rw [List.append_assoc]
          exact List.perm_middle.symm
        obtain ⟨m', hm', h'⟩ := ih xs hmoved (hperm.nodup_iff.mpr hnodup) (Nat.lt_of_succ_lt_succ hn)
        refine ⟨m', ?_, ?_⟩
        · rw [if_pos hup, hmove, ← hm']
          have hnext := hmoved.next xs (Nat.zero_lt_of_lt (Nat.lt_of_succ_lt_succ hn))
          simp only [Option.bind_some, hnext]
        · rw [List.filter_cons, List.filter_cons, hup, Bool.not_true, if_neg Bool.false_ne_true,
            if_pos rfl, ← List.singleton_append, ← List.append_assoc zs]
          exact h'
      · have hkeep : TwoLists m ((xs ++ [i]) ++ ys) zs := by
          rwa [List.append_assoc, List.singleton_append]
        obtain ⟨m', hm', h'⟩ := ih (xs ++ [i]) hkeep (by rwa [List.append_assoc xs, List.singleton_append])
          (Nat.lt_of_succ_lt_succ hn)
        have hnext := hkeep.next (xs ++ [i]) (Nat.zero_lt_of_lt (Nat.lt_of_succ_lt_succ hn))
        rw [List.getLast?_concat] at hnext
        refine ⟨m', ?_, ?_⟩
        · rw [Option.map_some] at hnext
          simp only [if_neg hup, Option.bind_some, hnext, hm']
        · rw [Bool.not_eq_true] at hup
          rw [List.filter_cons, List.filter_cons, hup, Bool.not_false, if_pos rfl,
            if_neg Bool.false_ne_true, ← List.singleton_append, ← List.append_assoc xs]
          exact h'

/-! ## The whole function -/

theorem isUpgradable_iff {i : PkgId} : db.isUpgradable env i = true ↔
    ∃ new, pkgHashFetchBestInstallationCandidateByName env db (db.pkg i).name = some (some new) ∧
      pkgCompareVersions (db.pkg i) (db.pkg new) < 0 := by
  rw [Database.isUpgradable]
  match pkgHashFetchBestInstallationCandidateByName env db (db.pkg i).name with
  | none => simp
  | some none => simp
  | some (some new) => simp

/-- A hash files no package twice. -/
theorem WellPlaced.nodup_flatMap (hplaced : WellPlaced db) {names : List AbstractPkgId}
    (hnames : names.Nodup) : (names.flatMap db.filed).Nodup := by
  rw [List.nodup_flatMap]
  refine ⟨fun a _ => hplaced.nodup a, hnames.imp fun {a b} hab i hi hi' => hab ?_⟩
  exact Option.some.inj ((hplaced.parent a i hi).symm.trans (hplaced.parent b i hi'))

/-- **The list of upgrades.** Whatever the order of the hash, the function returns, and a loop over its
result goes once through the packages that are installed or unpacked and older than the candidate for
their name, in that order. -/
theorem prepareUpgradeList_exact (env : Env) {db : Database} (hplaced : WellPlaced db)
    {names : List AbstractPkgId} (hnames : names.Nodup) {m : ActiveLists UpgradeAddr}
    (hfresh : FreshLists m) {n : ℕ} (hn : (names.flatMap db.filed).length + 1 < n) :
    ∃ (m' : ActiveLists UpgradeAddr) (upgrades : List PkgId), prepareUpgradeList env n db names m = some m' ∧
      activeListEntries n m' .upgrades = some (upgrades.map .pkg) ∧ upgrades.Nodup ∧
      upgrades.Sublist (names.flatMap db.filed) ∧
      ∀ i, i ∈ upgrades ↔ i ∈ names.flatMap db.filed ∧
        ((db.pkg i).stateStatus = .installed ∨ (db.pkg i).stateStatus = .unpacked) ∧
        ∃ best, pkgHashFetchBestInstallationCandidateByName env db (db.pkg i).name = some (some best) ∧
          pkgCompareVersions (db.pkg i) (db.pkg best) < 0 := by
  have hnodup := hplaced.nodup_flatMap hnames
  obtain ⟨hinit, halone⟩ := twoLists_init hfresh
  have hcollect := twoLists_collect db (names.flatMap db.filed) hinit hnodup fun i _ => halone i
  rw [List.nil_append] at hcollect
  have hfold : names.foldl (pkgHashCheckInstalledPkgHelper db)
      (activeListInit (activeListInit m .upgrades) .all) = _ := List.foldl_flatMap.symm
  have hlen := List.length_filter_le (fun i => (db.pkg i).isInstalled) (names.flatMap db.filed)
  have hinstalled := hnodup.filter fun i => (db.pkg i).isInstalled
  generalize hall : (names.flatMap db.filed).filter (fun i => (db.pkg i).isInstalled) = installed
    at hcollect hlen hinstalled
  obtain ⟨m₁, hm₁, hmoved⟩ := twoLists_moveUpgrades env [] hplaced hcollect (by rwa [List.append_nil])
    (by omega : installed.length < n)
  rw [List.nil_append, List.nil_append] at hmoved
  -- the head of the packages that are kept goes
  have hdisjoint : ∀ i ∈ installed.filter (fun i => !db.isUpgradable env i),
      i ∉ installed.filter fun i => db.isUpgradable env i := by
    intro i hi hi'
    have hnot := (List.mem_filter.mp hi).2
    rw [(List.mem_filter.mp hi').2] at hnot
    exact Bool.false_ne_true hnot
  have hkept := List.length_filter_le (fun i => !db.isUpgradable env i) installed
  obtain ⟨m₂, hm₂, hupgrades, hflat⟩ := activeListClear_holds (n := n) hmoved.all hmoved.upgrades
    hmoved.flat (disjoint_lists hdisjoint) (by rw [List.length_map]; omega)
  have hlisted := List.length_filter_le (fun i => db.isUpgradable env i) installed
  refine ⟨m₂, installed.filter fun i => db.isUpgradable env i, ?_, ?_, hinstalled.filter _, ?_,
    fun i => ?_⟩
  · have hfirst := TwoLists.next [] (n := n) hcollect (by omega)
    unfold prepareUpgradeList
    dsimp only
    rw [hfold]
    simp only [List.getLast?_nil, Option.map_none] at hfirst
    have hstart : activeListNext n _ .all (some UpgradeAddr.all) = _ := hfirst
    rw [hstart]
    simp only [Option.bind_eq_bind, Option.bind_some, hm₁, hm₂]
  · exact activeListEntries_eq hupgrades hflat (by rw [List.length_map]; omega)
  · rw [← hall]
    exact List.filter_sublist.trans List.filter_sublist
  · rw [List.mem_filter, ← hall, List.mem_filter, isUpgradable_iff, Pkg.isInstalled, Bool.or_eq_true,
      beq_iff_eq, beq_iff_eq, and_assoc]

/-- Version 1.0 is installed, and a feed has version 2.0. -/
def upgradableRecords : List Insertion :=
  [feedVersion2,
    ⟨2, ⟨{ name := "a".toList, version := some "1.0".toList, architecture := some "all".toList
           archPriority := 1, stateStatus := .installed },
      ⟨rfl, rfl, rfl, rfl, rfl, rfl, rfl, rfl, rfl, rfl, rfl, rfl⟩⟩, true⟩]

/-- The memory where every list is alone. -/
def aloneLists : ActiveLists UpgradeAddr := ⟨⟨id, id⟩, fun _ => none⟩

/-- The installed version is listed. -/
theorem prepareUpgradeList_upgradable : ∃ (m' : ActiveLists UpgradeAddr) (upgrades : List PkgId),
    prepareUpgradeList (plainEnv []) 4 (readAll upgradableRecords) ["a".toList] aloneLists = some m' ∧
      activeListEntries 4 m' .upgrades = some (upgrades.map .pkg) ∧ 2 ∈ upgrades := by
  have hplaced : WellPlaced (readAll upgradableRecords) :=
    (hashInsertPkg_wellPlaced (readAll_trace upgradableRecords (by decide +kernel) (by decide +kernel))).2
  obtain ⟨m', upgrades, hrun, hentries, -, -, hmem⟩ := prepareUpgradeList_exact (plainEnv []) hplaced
    (List.nodup_singleton "a".toList) (m := aloneLists) (fun i => ⟨rfl, rfl, rfl, rfl⟩) (n := 4)
    (by decide +kernel)
  refine ⟨m', upgrades, hrun, hentries, (hmem 2).mpr ⟨by decide +kernel, by decide +kernel, 1, ?_, ?_⟩⟩
  · decide +kernel
  · decide +kernel

end FirmwareTools.Opkg

import FirmwareTools.Opkg.Duplicates
import FirmwareTools.Opkg.Remove
import FirmwareTools.Opkg.ResolveSound

/-! # Reverse dependencies

`buildDependedUponBy` enters the name of a package with every name its dependencies mention, and
`pkg_has_installed_dependents` counts by these entries. Nothing is ever taken out of them, and a merged
record has the dependencies of one of two records of its name, so the entries are complete whatever has
been filed.

* **`dependersComplete_of_trace`** — every alternative of a dependency of a filed package is entered;
* **`one_le_installedDependents`** — so the count finds whoever depends on a package, if the name is
  marked as installed. -/

namespace FirmwareTools.Opkg

/-- What is mentioned in the dependencies of a filed package has the name of the package among its
dependers. -/
def DependersComplete (db : Database) : Prop :=
  ∀ a, ∀ k ∈ db.filed a, ∀ entry ∈ (db.pkg k).entries, entry.isHard →
    ∀ d ∈ entry.possibilities, a ∈ (db.abstractPkg d.pkg).dependedUponBy

/-! ## Nothing is taken out -/

/-- No name has lost a depender. -/
def KeepsDependers (db db' : Database) : Prop :=
  ∀ a, (db.abstractPkg a).dependedUponBy ⊆ (db'.abstractPkg a).dependedUponBy

theorem KeepsDependers.refl (db : Database) : KeepsDependers db db := fun _ => List.Subset.refl _

theorem KeepsDependers.trans {db db' db'' : Database} (h : KeepsDependers db db')
    (h' : KeepsDependers db' db'') : KeepsDependers db db'' :=
  fun a => List.Subset.trans (h a) (h' a)

theorem KeepsDependers.setAbstractPkg {db : Database} {a : AbstractPkgId} {ab : AbstractPkg}
    (h : (db.abstractPkg a).dependedUponBy ⊆ ab.dependedUponBy) :
    KeepsDependers db (db.setAbstractPkg a ab) := by
  intro b
  by_cases hb : b = a
  · subst hb
    rw [Database.setAbstractPkg_self]
    exact h
  · rw [Database.setAbstractPkg_of_ne db ab hb]
    exact List.Subset.refl _

theorem KeepsDependers.foldl {α : Type*} {f : Database → α → Database}
    (hf : ∀ db x, KeepsDependers db (f db x)) (xs : List α) (db : Database) :
    KeepsDependers db (xs.foldl f db) := by
  induction xs generalizing db with
  | nil => exact KeepsDependers.refl db
  | cons x xs ih => exact (hf db x).trans (ih (f db x))

theorem insertDependedUponBy_keepsDependers (db : Database) (a abPkg : AbstractPkgId) :
    KeepsDependers db (db.insertDependedUponBy a abPkg) :=
  KeepsDependers.setAbstractPkg (List.subset_append_left _ _)

/-- Each alternative of a list of them is entered. -/
theorem mem_dependedUponBy_foldl {abPkg : AbstractPkgId} {ds : List Depend} (db : Database)
    {d : Depend} (hd : d ∈ ds) :
    abPkg ∈ ((ds.foldl (fun db d => db.insertDependedUponBy d.pkg abPkg) db).abstractPkg
      d.pkg).dependedUponBy := by
  induction ds generalizing db with
  | nil => exact absurd hd List.not_mem_nil
  | cons d' ds ih =>
      rw [List.foldl_cons]
      rcases List.mem_cons.mp hd with rfl | hd
      · have hkeep := KeepsDependers.foldl (f := fun db (d : Depend) =>
          db.insertDependedUponBy d.pkg abPkg)
          (fun db d => insertDependedUponBy_keepsDependers db d.pkg abPkg) ds
          (db.insertDependedUponBy d.pkg abPkg)
        refine hkeep d.pkg ?_
        rw [Database.insertDependedUponBy, Database.setAbstractPkg_self]
        exact List.mem_append_right _ (List.mem_singleton.mpr rfl)
      · exact ih _ hd

/-- `buildDependedUponBy` enters every alternative of every hard entry. -/
theorem mem_buildDependedUponBy {db : Database} {pkg : Pkg} {abPkg : AbstractPkgId}
    {entry : CompoundDepend} (hentry : entry ∈ pkg.entries) (hhard : entry.isHard)
    {d : Depend} (hd : d ∈ entry.possibilities) :
    abPkg ∈ ((buildDependedUponBy db pkg abPkg).abstractPkg d.pkg).dependedUponBy := by
  refine mem_dependedUponBy_foldl db (List.mem_flatMap.mpr ⟨entry, ?_, hd⟩)
  rw [List.mem_filter]
  refine ⟨hentry, ?_⟩
  simp only [Bool.or_eq_true, beq_iff_eq]
  exact .inl hhard

/-! ## The entries of a merged record -/

/-- A part of a merge that leaves the dependencies of `oldpkg` alone. -/
def KeepsEntries (f : Pkg × Pkg → Pkg × Pkg) : Prop := ∀ m, (f m).1.entries = m.1.entries

theorem pkgMergeProvides_keepsEntries : KeepsEntries pkgMergeProvides := by
  intro m
  simp only [pkgMergeProvides]
  split
  · split <;> rfl
  · rfl

theorem pkgMergeConflicts_keepsEntries : KeepsEntries pkgMergeConflicts := by
  intro m
  simp only [pkgMergeConflicts]
  split <;> rfl

theorem pkgMergeReplaces_keepsEntries : KeepsEntries pkgMergeReplaces := by
  intro m
  simp only [pkgMergeReplaces]
  split <;> rfl

theorem pkgMergeFields_keepsEntries : KeepsEntries pkgMergeFields := fun _ => rfl

theorem pkgMergeConffiles_keepsEntries : KeepsEntries pkgMergeConffiles := by
  intro m
  simp only [pkgMergeConffiles]
  split <;> rfl

theorem pkgMergeInstalledFiles_keepsEntries : KeepsEntries pkgMergeInstalledFiles := by
  intro m
  simp only [pkgMergeInstalledFiles]
  split <;> rfl

/-- A merged record has the dependencies of one of the two. -/
theorem pkgMerge_entries (oldpkg newpkg : Pkg) :
    (pkgMerge oldpkg newpkg).1.entries = oldpkg.entries ∨
      (pkgMerge oldpkg newpkg).1.entries = newpkg.entries := by
  rw [pkgMerge, pkgMergeInstalledFiles_keepsEntries, pkgMergeConffiles_keepsEntries,
    pkgMergeFields_keepsEntries, pkgMergeReplaces_keepsEntries, pkgMergeConflicts_keepsEntries,
    pkgMergeProvides_keepsEntries]
  simp only [pkgMergeDepends]
  split
  · exact .inr rfl
  · exact .inl rfl

/-! ## Filing -/

/-- Putting a package into its vector enters and removes no depender. -/
theorem pkgVecInsertMerge_keepsDependers {db db' : Database} {a : AbstractPkgId} {i : PkgId}
    {setStatus : Bool} (h : pkgVecInsertMerge db a i setStatus = some db') :
    KeepsDependers db db' := by
  simp only [pkgVecInsertMerge, Option.bind_eq_bind, Option.bind_eq_some_iff] at h
  obtain ⟨found, -, h⟩ := h
  cases found with
  | none =>
      rw [← Option.some.inj h]
      exact KeepsDependers.setAbstractPkg (List.Subset.refl _)
  | some found =>
      rw [← Option.some.inj h]
      exact KeepsDependers.setAbstractPkg (List.Subset.refl _)

/-- What `hash_insert_pkg` does to the reverse dependencies: it keeps them, and enters the name of
the package with every alternative of the hard dependencies of its record. -/
theorem hashInsertPkg_dependers {db db' : Database} {i : PkgId} {setStatus : Bool}
    (h : hashInsertPkg db i setStatus = some db') (hi : i ∉ db.filed (db.pkg i).name) :
    KeepsDependers db db' ∧ ∀ entry ∈ (db'.pkg i).entries, entry.isHard →
      (∃ j ∈ db.filed (db.pkg i).name, entry ∈ (db.pkg j).entries) ∨
      ∀ d ∈ entry.possibilities, (db.pkg i).name ∈ (db'.abstractPkg d.pkg).dependedUponBy := by
  simp only [hashInsertPkg, Option.bind_eq_bind, Option.bind_eq_some_iff, Option.some.injEq] at h
  obtain ⟨pkg₁, -, pkg₂, -, db₂, hmerge, rfl⟩ := h
  have hopen : KeepsDependers db (db.openVector (db.pkg i)) :=
    KeepsDependers.setAbstractPkg (List.Subset.refl _)
  have hfiling := openVector_sameFiling db (db.pkg i)
  generalize db.openVector (db.pkg i) = dbo at hmerge hopen hfiling
  have hprovides : KeepsDependers dbo (buildProvides dbo (db.pkg i).name pkg₁).1 :=
    KeepsDependers.foldl (f := fun dbo a => dbo.insertProvidedBy a (db.pkg i).name)
      (fun _ _ => KeepsDependers.setAbstractPkg (List.Subset.refl _)) _ dbo
  have hfilingp := buildProvides_sameFiling dbo (db.pkg i).name pkg₁
  generalize (buildProvides dbo (db.pkg i).name pkg₁).1 = dbp at hmerge hprovides hfilingp
  have hreplaces : KeepsDependers dbp (buildReplaces dbp (db.pkg i).name pkg₂).1 := by
    rw [buildReplaces]
    split
    · exact KeepsDependers.refl dbp
    · exact KeepsDependers.foldl (f := fun dbp old => dbp.insertReplacedBy pkg₂ (db.pkg i).name old)
        (fun _ _ => KeepsDependers.setAbstractPkg (List.Subset.refl _)) _ dbp
  have hfilingr := buildReplaces_sameFiling dbp (db.pkg i).name pkg₂
  generalize buildReplaces dbp (db.pkg i).name pkg₂ = r at hmerge hreplaces hfilingr
  obtain ⟨dbr, built⟩ := r
  have hdepended : KeepsDependers dbr (buildDependedUponBy dbr built (db.pkg i).name) :=
    KeepsDependers.foldl (f := fun db (d : Depend) => db.insertDependedUponBy d.pkg _)
      (fun db d => insertDependedUponBy_keepsDependers db d.pkg _) _ dbr
  have hfilingd := buildDependedUponBy_sameFiling dbr built (db.pkg i).name
  have hbuilt : ∀ entry ∈ built.entries, entry.isHard → ∀ d ∈ entry.possibilities,
      (db.pkg i).name ∈ ((buildDependedUponBy dbr built (db.pkg i).name).abstractPkg
        d.pkg).dependedUponBy := fun entry hentry hhard d hd =>
    mem_buildDependedUponBy hentry hhard hd
  generalize buildDependedUponBy dbr built (db.pkg i).name = dbd
    at hmerge hdepended hfilingd hbuilt
  have hkeep : KeepsDependers db dbd := ((hopen.trans hprovides).trans hreplaces).trans hdepended
  have hsame : SameFiling db dbd := ((hfiling.trans hfilingp).trans hfilingr).trans hfilingd
  have hlast := pkgVecInsertMerge_keepsDependers hmerge
  refine ⟨hkeep.trans hlast, fun entry hentry hhard => ?_⟩
  have hentry₂ : entry ∈ (db₂.pkg i).entries := by
    rw [Database.setPkg_pkg_self] at hentry
    exact hentry
  have hnew : entry ∈ built.entries → ∀ d ∈ entry.possibilities,
      (db.pkg i).name ∈ (db₂.abstractPkg d.pkg).dependedUponBy :=
    fun hentry d hd => hlast d.pkg (hbuilt entry hentry hhard d hd)
  rcases (pkgVecInsertMerge_cases hmerge).2 with ⟨-, -, hpkg⟩ | ⟨before, j, after, hdup, -, hpkg⟩
  · rw [hpkg, Database.setPkg_pkg_self] at hentry₂
    exact .inr (hnew hentry₂)
  · have hj : j ∈ db.filed (db.pkg i).name := by
      rw [← hsame.filed, ← show (dbd.setPkg i built).filed (db.pkg i).name
        = dbd.filed (db.pkg i).name from rfl, findDuplicate_eq_append hdup]
      exact List.mem_append_right _ List.mem_cons_self
    have hji : j ≠ i := ne_of_mem_of_not_mem hj hi
    rw [hpkg, Function.update_of_ne hji.symm, Function.update_self, Database.setPkg_pkg_self,
      Database.setPkg_pkg_of_ne _ _ hji, hsame.pkg] at hentry₂
    split at hentry₂
    · rcases pkgMerge_entries built (db.pkg j) with hentries | hentries
      · exact .inr (hnew (hentries ▸ hentry₂))
      · exact .inl ⟨j, hj, hentries ▸ hentry₂⟩
    · exact .inr (hnew hentry₂)

/-- **An insertion keeps the reverse dependencies complete.** -/
theorem dependersComplete_step {db db' : Database} {ins : Insertion} (hplaced : WellPlaced db)
    (hdb : DependersComplete db) (h : InsertStep db ins db') : DependersComplete db' := by
  have hself : (db.setPkg ins.id ins.pkg).pkg ins.id = ins.pkg := Database.setPkg_pkg_self _ _ _
  obtain ⟨hkeep, hnew⟩ := hashInsertPkg_dependers h.2 (h.1 _)
  rw [hself] at hnew
  intro a k hk entry hentry hhard d hd
  rcases insertStep_filed hplaced h hk with ⟨rfl, rfl⟩ | ⟨hold, hsame⟩
  · rcases hnew entry hentry hhard with ⟨j, hj, hjentry⟩ | hentered
    · have hji : j ≠ ins.id := ne_of_mem_of_not_mem hj (h.1 _)
      rw [Database.setPkg_pkg_of_ne _ _ hji] at hjentry
      exact hkeep d.pkg (hdb _ j hj entry hjentry hhard d hd)
    · exact hentered d hd
  · rw [hsame] at hentry
    exact hkeep d.pkg (hdb a k hold entry hentry hhard d hd)

/-- What removing and installing rely on: every package is filed once, under its parent, and the
reverse dependencies are complete. -/
structure Linked (db : Database) : Prop where
  placed : WellPlaced db
  complete : DependersComplete db

/-- **Every loaded database is linked.** -/
theorem linked_of_trace {tr : List (Database × Insertion)} {db : Database}
    (h : Trace InsertStep emptyDatabase tr db) : Linked db :=
  (h.invariant (P := Linked) ⟨wellPlaced_empty, fun _ _ hk => absurd hk List.not_mem_nil⟩
    fun _ _ _ hdb hstep => ⟨wellPlaced_step hdb.placed hstep,
      dependersComplete_step hdb.placed hdb.complete hstep⟩).2

/-! ## Counting -/

/-- The names a package provides. -/
def Pkg.provided (p : Pkg) : List AbstractPkgId := (p.provides.getD []).take p.providesCount

theorem readArray_eq_some {α : Type} {n : Nat} {xs ys : List α} (h : readArray n xs = some ys) :
    ys = xs.take n := by
  induction n generalizing xs ys with
  | zero =>
      obtain rfl := Option.some.inj h
      rfl
  | succ n ih =>
      cases xs with
      | nil => exact absurd h (by simp [readArray])
      | cons x xs =>
          rw [readArray, Option.map_eq_some_iff] at h
          obtain ⟨zs, hzs, rfl⟩ := h
          rw [ih hzs, List.take_succ_cons]

/-- **Whoever depends on a package is counted**, if its name is marked as installed. -/
theorem one_le_installedDependents {db : Database} (hdb : DependersComplete db) {pkg : Pkg}
    {n : Nat} {dependents : List AbstractPkgId}
    (h : pkgHasInstalledDependents db pkg = some (n, dependents)) {a : AbstractPkgId} {k : PkgId}
    (hk : k ∈ db.filed a) {entry : CompoundDepend} (hentry : entry ∈ (db.pkg k).entries)
    (hhard : entry.isHard) {d : Depend} (hd : d ∈ entry.possibilities)
    (hprovided : d.pkg ∈ pkg.provided) (hname : (db.abstractPkg a).stateStatus = .installed) :
    1 ≤ n := by
  simp only [pkgHasInstalledDependents, Database.dependers, Option.bind_eq_bind,
    Option.bind_eq_some_iff, Option.some.injEq, Prod.mk.injEq] at h
  obtain ⟨dependers, ⟨provides, hprovides, rfl⟩, rfl, -⟩ := h
  rw [readArray_eq_some hprovides]
  have hdepender : a ∈ pkg.provided.flatMap fun providee =>
      (db.abstractPkg providee).dependedUponBy :=
    List.mem_flatMap.mpr ⟨d.pkg, hprovided, hdb a k hk entry hentry hhard d hd⟩
  have hinstalled : ((db.abstractPkg a).stateStatus == .installed) = true := by
    rw [hname]
    rfl
  exact List.length_pos_of_mem (List.mem_filter.mpr ⟨hdepender, hinstalled⟩)

end FirmwareTools.Opkg

import FirmwareTools.Opkg.Dependers
import FirmwareTools.Opkg.Providers
import Mathlib.Data.Set.Card

/-! # Counting dependents

`pkg_has_installed_dependents` goes over the reverse dependencies twice: it counts the installed names it
meets, and then it collects them, with a mark on every name that has been taken. Only the second pass
knows a name it has met before.

* **`pkgHasInstalledDependentsMarking_eq`** — the marks are all gone when the function returns;
* **`dependedUponBy_of_trace`** — the reverse dependencies after a run, one entry for each alternative
  of each record of the run;
* **`dependentsCounted_iff`** — the count is the number of the dependents exactly when no installed
  name is met twice. -/

namespace FirmwareTools.Opkg

/-! ## The marks -/

/-- Set or clear the mark of a name. -/
def Database.setMarked (db : Database) (marked : Bool) (a : AbstractPkgId) : Database :=
  let ab := db.abstractPkg a
  db.setAbstractPkg a { ab with stateFlag := { ab.stateFlag with marked } }

/-- One round of the second pass: a dependent without a mark is taken and marked. -/
def markDependent (s : List AbstractPkgId × Database) (dep : AbstractPkgId) :
    List AbstractPkgId × Database :=
  let ab := s.2.abstractPkg dep
  if ab.stateStatus = .installed ∧ ab.stateFlag.marked = false then
    (s.1 ++ [dep], s.2.setMarked true dep)
  else s

/-- `pkg_has_installed_dependents` for a caller that asks for the dependents: the count, the
dependents, and the database after the marks are cleared. -/
def pkgHasInstalledDependentsMarking (db : Database) (pkg : Pkg) :
    Option (Nat × List AbstractPkgId × Database) := do
  let dependers ← db.dependers pkg
  let n := (dependers.filter fun dep => (db.abstractPkg dep).stateStatus == .installed).length
  let (dependents, marked) := dependers.foldl markDependent ([], db)
  some (n, dependents, dependents.foldl (fun db dep => db.setMarked false dep) marked)

/-- An abstract package with its mark set or cleared. -/
def AbstractPkg.withMarked (ab : AbstractPkg) (marked : Bool) : AbstractPkg :=
  { ab with stateFlag := { ab.stateFlag with marked } }

theorem AbstractPkg.withMarked_self {ab : AbstractPkg} {marked : Bool}
    (h : ab.stateFlag.marked = marked) : ab.withMarked marked = ab := by
  subst h
  rfl

theorem setMarked_abstractPkg (db : Database) (marked : Bool) (a b : AbstractPkgId) :
    (db.setMarked marked a).abstractPkg b =
      if b = a then (db.abstractPkg b).withMarked marked else db.abstractPkg b := by
  by_cases hb : b = a
  · rw [if_pos hb, hb]
    exact Database.setAbstractPkg_self _ _ _
  · rw [if_neg hb]
    exact Database.setAbstractPkg_of_ne _ _ hb

/-- Marks change no package record. -/
theorem foldl_setMarked_pkg (marked : Bool) (as : List AbstractPkgId) (db : Database) :
    (as.foldl (fun db a => db.setMarked marked a) db).pkg = db.pkg := by
  induction as generalizing db with
  | nil => rfl
  | cons a as ih =>
      rw [List.foldl_cons, ih]
      rfl

/-- What setting or clearing some marks does to a name. -/
theorem foldl_setMarked_abstractPkg (marked : Bool) (as : List AbstractPkgId) (db : Database)
    (b : AbstractPkgId) :
    (as.foldl (fun db a => db.setMarked marked a) db).abstractPkg b =
      if b ∈ as then (db.abstractPkg b).withMarked marked else db.abstractPkg b := by
  induction as generalizing db with
  | nil => rfl
  | cons a as ih =>
      rw [List.foldl_cons, ih, setMarked_abstractPkg]
      by_cases hb : b = a
      · -- a mark set twice is set once
        simp only [hb, List.mem_cons_self, if_true]
        split <;> rfl
      · simp only [List.mem_cons, hb, false_or, if_false]

/-- The second pass over the reverse dependencies takes what `collectDependent` takes, and leaves these
names marked. -/
theorem foldl_markDependent (db : Database) (deps taken : List AbstractPkgId) :
    deps.foldl markDependent (taken, taken.foldl (fun db a => db.setMarked true a) db) =
      (deps.foldl (collectDependent db) taken,
        (deps.foldl (collectDependent db) taken).foldl (fun db a => db.setMarked true a) db) := by
  induction deps generalizing taken with
  | nil => rfl
  | cons dep deps ih =>
      have hstep : markDependent (taken, taken.foldl (fun db a => db.setMarked true a) db) dep =
          (collectDependent db taken dep,
            (collectDependent db taken dep).foldl (fun db a => db.setMarked true a) db) := by
        unfold markDependent collectDependent
        rw [foldl_setMarked_abstractPkg]
        by_cases hmem : dep ∈ taken
        · simp [hmem, AbstractPkg.withMarked]
        · by_cases htake : (db.abstractPkg dep).stateStatus = .installed ∧
              (db.abstractPkg dep).stateFlag.marked = false
          · simp only [hmem, if_false, htake, and_self, not_false_eq_true, if_true,
              List.foldl_append, List.foldl_cons, List.foldl_nil]
          · rw [if_neg hmem, if_neg htake, if_neg fun h => htake ⟨h.1, h.2.1⟩]
      rw [List.foldl_cons, hstep, List.foldl_cons]
      exact ih (collectDependent db taken dep)

/-- What is collected is installed, without a mark, and among the reverse dependencies, and each name
is collected once. -/
theorem mem_foldl_collectDependent {db : Database} {deps taken : List AbstractPkgId}
    {a : AbstractPkgId} :
    a ∈ deps.foldl (collectDependent db) taken ↔ a ∈ taken ∨ (a ∈ deps ∧
      (db.abstractPkg a).stateStatus = .installed ∧ (db.abstractPkg a).stateFlag.marked = false) := by
  induction deps generalizing taken with
  | nil => simp
  | cons dep deps ih =>
      rw [List.foldl_cons, ih, collectDependent]
      split
      case isTrue htake =>
        rw [List.mem_append, List.mem_singleton, List.mem_cons]
        constructor
        · rintro ((h | rfl) | h)
          · exact .inl h
          · exact .inr ⟨.inl rfl, htake.1, htake.2.1⟩
          · exact .inr ⟨.inr h.1, h.2⟩
        · rintro (h | ⟨rfl | h, h'⟩)
          · exact .inl (.inl h)
          · exact .inl (.inr rfl)
          · exact .inr ⟨h, h'⟩
      case isFalse htake =>
        constructor
        · rintro (h | h)
          · exact .inl h
          · exact .inr ⟨List.mem_cons_of_mem _ h.1, h.2⟩
        · rintro (h | ⟨h, h'⟩)
          · exact .inl h
          · rcases List.mem_cons.mp h with rfl | h
            · -- it is left out only because it has been taken before
              exact .inl (by_contra fun hnot => htake ⟨h'.1, h'.2, hnot⟩)
            · exact .inr ⟨h, h'⟩

theorem nodup_foldl_collectDependent {db : Database} {deps taken : List AbstractPkgId}
    (h : taken.Nodup) : (deps.foldl (collectDependent db) taken).Nodup := by
  induction deps generalizing taken with
  | nil => exact h
  | cons dep deps ih =>
      rw [List.foldl_cons]
      apply ih
      rw [collectDependent]
      split
      case isTrue htake =>
        exact List.nodup_append.mpr ⟨h, List.nodup_singleton dep, fun a ha b hb hab =>
          htake.2.2 (List.mem_singleton.mp hb ▸ hab ▸ ha)⟩
      case isFalse => exact h

/-- **The marks are temporary**: the database is the same again when the function returns. -/
theorem pkgHasInstalledDependentsMarking_eq (db : Database) (pkg : Pkg) :
    pkgHasInstalledDependentsMarking db pkg =
      (pkgHasInstalledDependents db pkg).map fun r => (r.1, r.2, db) := by
  unfold pkgHasInstalledDependentsMarking pkgHasInstalledDependents
  cases db.dependers pkg with
  | none => rfl
  | some deps =>
      have hmarks := foldl_markDependent db deps []
      rw [List.foldl_nil] at hmarks
      simp only [Option.bind_eq_bind, Option.bind_some, Option.map_some, hmarks, Option.some.injEq,
        Prod.mk.injEq, true_and]
      have hunmarked : ∀ a ∈ deps.foldl (collectDependent db) [],
          (db.abstractPkg a).stateFlag.marked = false := by
        intro a ha
        rcases mem_foldl_collectDependent.mp ha with h | h
        · exact absurd h List.not_mem_nil
        · exact h.2.2
      generalize deps.foldl (collectDependent db) [] = taken at hunmarked ⊢
      have hpkg : (taken.foldl (fun db a => db.setMarked false a)
          (taken.foldl (fun db a => db.setMarked true a) db)).pkg = db.pkg := by
        rw [foldl_setMarked_pkg, foldl_setMarked_pkg]
      have habstract : (taken.foldl (fun db a => db.setMarked false a)
          (taken.foldl (fun db a => db.setMarked true a) db)).abstractPkg = db.abstractPkg := by
        funext b
        rw [foldl_setMarked_abstractPkg, foldl_setMarked_abstractPkg]
        by_cases hb : b ∈ taken
        · rw [if_pos hb, if_pos hb]
          exact AbstractPkg.withMarked_self (hunmarked b hb)
        · rw [if_neg hb, if_neg hb]
      calc _ = Database.mk _ _ := rfl
        _ = Database.mk db.pkg db.abstractPkg := by rw [hpkg, habstract]
        _ = db := rfl

/-! ## The reverse dependencies after a run -/

/-- The names that `buildDependedUponBy` enters a package with, once for every alternative. -/
def Pkg.dependsOn (p : Pkg) : List AbstractPkgId :=
  ((p.entries.filter fun entry => entry.type == .predepend || entry.type == .depend ||
    entry.type == .recommend).flatMap CompoundDepend.possibilities).map Depend.pkg

/-- The same for a record that has only been parsed. -/
def Pkg.dependsOnNames (p : Pkg) : List AbstractPkgId := ((buildDepends p).getD p).dependsOn

/-- The reverse dependencies and the flags of every name are the same in both databases. -/
def SameDependers (db db' : Database) : Prop :=
  ∀ a, (db'.abstractPkg a).dependedUponBy = (db.abstractPkg a).dependedUponBy ∧
    (db'.abstractPkg a).stateFlag = (db.abstractPkg a).stateFlag

theorem SameDependers.refl (db : Database) : SameDependers db db := fun _ => ⟨rfl, rfl⟩

theorem SameDependers.trans {db db' db'' : Database} (h : SameDependers db db')
    (h' : SameDependers db' db'') : SameDependers db db'' :=
  fun a => ⟨(h' a).1.trans (h a).1, (h' a).2.trans (h a).2⟩

theorem SameDependers.setAbstractPkg {db : Database} {a : AbstractPkgId} {ab : AbstractPkg}
    (hdependers : ab.dependedUponBy = (db.abstractPkg a).dependedUponBy)
    (hflag : ab.stateFlag = (db.abstractPkg a).stateFlag) :
    SameDependers db (db.setAbstractPkg a ab) := by
  intro b
  by_cases hb : b = a
  · rw [hb, Database.setAbstractPkg_self]
    exact ⟨hdependers, hflag⟩
  · rw [Database.setAbstractPkg_of_ne db ab hb]
    exact ⟨rfl, rfl⟩

theorem SameDependers.foldl {α : Type*} {f : Database → α → Database}
    (hf : ∀ db x, SameDependers db (f db x)) (xs : List α) (db : Database) :
    SameDependers db (xs.foldl f db) := by
  induction xs generalizing db with
  | nil => exact SameDependers.refl db
  | cons x xs ih => exact (hf db x).trans (ih (f db x))

theorem openVector_sameDependers (db : Database) (pkg : Pkg) :
    SameDependers db (db.openVector pkg) := SameDependers.setAbstractPkg rfl rfl

theorem buildProvides_sameDependers (db : Database) (abPkg : AbstractPkgId) (pkg : Pkg) :
    SameDependers db (buildProvides db abPkg pkg).1 :=
  SameDependers.foldl (f := fun db a => db.insertProvidedBy a abPkg)
    (fun _ _ => SameDependers.setAbstractPkg rfl rfl) _ db

theorem buildReplaces_sameDependers (db : Database) (abPkg : AbstractPkgId) (pkg : Pkg) :
    SameDependers db (buildReplaces db abPkg pkg).1 := by
  unfold buildReplaces
  split
  · exact SameDependers.refl db
  · exact SameDependers.foldl (f := fun db old => db.insertReplacedBy pkg abPkg old)
      (fun _ _ => SameDependers.setAbstractPkg rfl rfl) _ db

theorem pkgVecInsertMerge_sameDependers {db db' : Database} {a : AbstractPkgId} {i : PkgId}
    {setStatus : Bool} (h : pkgVecInsertMerge db a i setStatus = some db') : SameDependers db db' := by
  simp only [pkgVecInsertMerge, Option.bind_eq_bind, Option.bind_eq_some_iff] at h
  obtain ⟨found, -, h⟩ := h
  cases found with
  | none => exact Option.some.inj h ▸ SameDependers.setAbstractPkg rfl rfl
  | some found => exact Option.some.inj h ▸ SameDependers.setAbstractPkg rfl rfl

theorem foldl_insertDependedUponBy (abPkg : AbstractPkgId) (ds : List Depend) (db : Database)
    (a : AbstractPkgId) :
    ((ds.foldl (fun db d => db.insertDependedUponBy d.pkg abPkg) db).abstractPkg a).dependedUponBy =
        (db.abstractPkg a).dependedUponBy ++ List.replicate ((ds.map Depend.pkg).count a) abPkg ∧
      ((ds.foldl (fun db d => db.insertDependedUponBy d.pkg abPkg) db).abstractPkg a).stateFlag =
        (db.abstractPkg a).stateFlag := by
  induction ds generalizing db with
  | nil => exact ⟨(List.append_nil _).symm, rfl⟩
  | cons d ds ih =>
      rw [List.foldl_cons, (ih _).1, (ih _).2, List.map_cons, ← replicate_append_count,
        Database.insertDependedUponBy]
      by_cases ha : d.pkg = a
      · rw [ha, Database.setAbstractPkg_self, if_pos rfl]
        exact ⟨List.append_assoc _ _ _, rfl⟩
      · rw [Database.setAbstractPkg_of_ne _ _ (Ne.symm ha), if_neg ha]
        exact ⟨rfl, rfl⟩

/-- The record that is filed has its dependencies resolved, and up to the reverse dependencies the
insertion has entered nothing and filed nothing. -/
theorem hashInsertPkg_built {db db' : Database} {i : PkgId} {setStatus : Bool}
    (h : hashInsertPkg db i setStatus = some db') :
    ∃ built db₁ db₂, built.dependsOn = (db.pkg i).dependsOnNames ∧ SameDependers db db₁ ∧
      SameFiling db db₁ ∧
      pkgVecInsertMerge ((buildDependedUponBy db₁ built (db.pkg i).name).setPkg i built)
        (db.pkg i).name i setStatus = some db₂ ∧
      db' = db₂.setPkg i ((db₂.pkg i).withParent (db.pkg i).name) := by
  simp only [hashInsertPkg, Option.bind_eq_bind, Option.bind_eq_some_iff, Option.some.injEq] at h
  obtain ⟨pkg₁, h₁, pkg₂, h₂, db₂, hmerge, rfl⟩ := h
  obtain ⟨conflicts, rfl⟩ := buildConflicts_eq h₂
  have hopen := openVector_sameDependers db (db.pkg i)
  have hfiling := openVector_sameFiling db (db.pkg i)
  generalize db.openVector (db.pkg i) = dbo at hmerge hopen hfiling
  have hprovides := buildProvides_sameDependers dbo (db.pkg i).name pkg₁
  have hfilingp := buildProvides_sameFiling dbo (db.pkg i).name pkg₁
  have hbuilt : ((buildProvides dbo (db.pkg i).name pkg₁).2.withConflicts conflicts).dependsOn =
      (db.pkg i).dependsOnNames := by
    unfold Pkg.dependsOnNames
    rw [h₁]
    rfl
  generalize (buildProvides dbo (db.pkg i).name pkg₁).1 = dbp at hmerge hprovides hfilingp
  generalize (buildProvides dbo (db.pkg i).name pkg₁).2.withConflicts conflicts = built
    at hmerge hbuilt
  have hreplaces := buildReplaces_sameDependers dbp (db.pkg i).name built
  have hfilingr := buildReplaces_sameFiling dbp (db.pkg i).name built
  obtain ⟨replaces, hresolved⟩ := buildReplaces_eq dbp (db.pkg i).name built
  rw [hresolved] at hmerge
  exact ⟨built.withReplaces replaces, _, db₂, hbuilt, (hopen.trans hprovides).trans hreplaces,
    (hfiling.trans hfilingp).trans hfilingr, hmerge, rfl⟩

/-- **What an insertion enters**: the name of the package, once for every alternative that mentions a
name. No flag changes. -/
theorem hashInsertPkg_dependedUponBy {db db' : Database} {i : PkgId} {setStatus : Bool}
    (h : hashInsertPkg db i setStatus = some db') (a : AbstractPkgId) :
    (db'.abstractPkg a).dependedUponBy = (db.abstractPkg a).dependedUponBy ++
        List.replicate ((db.pkg i).dependsOnNames.count a) (db.pkg i).name ∧
      (db'.abstractPkg a).stateFlag = (db.abstractPkg a).stateFlag := by
  obtain ⟨built, db₁, db₂, hbuilt, hsame, -, hmerge, rfl⟩ := hashInsertPkg_built h
  have hentered := foldl_insertDependedUponBy (db.pkg i).name
    ((built.entries.filter fun entry => entry.type == .predepend || entry.type == .depend ||
      entry.type == .recommend).flatMap CompoundDepend.possibilities) db₁ a
  have hlast := pkgVecInsertMerge_sameDependers hmerge a
  constructor
  · calc (db₂.abstractPkg a).dependedUponBy = _ := hlast.1
      _ = (db₁.abstractPkg a).dependedUponBy ++
          List.replicate (built.dependsOn.count a) (db.pkg i).name := hentered.1
      _ = _ := by rw [(hsame a).1, hbuilt]
  · calc (db₂.abstractPkg a).stateFlag = _ := hlast.2
      _ = (db₁.abstractPkg a).stateFlag := hentered.2
      _ = _ := (hsame a).2

/-- The dependencies of the record that is filed: its own, or those of the record whose place it
takes. -/
theorem hashInsertPkg_dependsOn {db db' : Database} {i : PkgId} {setStatus : Bool}
    (h : hashInsertPkg db i setStatus = some db') (hi : i ∉ db.filed (db.pkg i).name) :
    (db'.pkg i).dependsOn = (db.pkg i).dependsOnNames ∨ ∃ before j after,
      db.filed (db.pkg i).name = before ++ j :: after ∧
      db'.filed (db.pkg i).name = before ++ i :: after ∧
      (db'.pkg i).dependsOn = (db.pkg j).dependsOn := by
  obtain ⟨built, db₁, db₂, hbuilt, -, hfiling, hmerge, rfl⟩ := hashInsertPkg_built h
  have hsame := hfiling.trans (buildDependedUponBy_sameFiling db₁ built (db.pkg i).name)
  generalize buildDependedUponBy db₁ built (db.pkg i).name = dbd at hmerge hsame
  have hparent : ((db₂.setPkg i ((db₂.pkg i).withParent (db.pkg i).name)).pkg i).dependsOn =
      (db₂.pkg i).dependsOn := by
    rw [Database.setPkg_pkg_self]
    rfl
  rw [hparent]
  rcases (pkgVecInsertMerge_cases hmerge).2 with ⟨-, -, hpkg⟩ | ⟨before, j, after, hdup, hvec, hpkg⟩
  · left
    rw [hpkg, Database.setPkg_pkg_self, hbuilt]
  · have hvec₀ : db.filed (db.pkg i).name = before ++ j :: after := by
      rw [← hsame.filed]
      exact findDuplicate_eq_append hdup
    have hj : j ∈ db.filed (db.pkg i).name := by
      rw [hvec₀]
      exact List.mem_append_right _ List.mem_cons_self
    have hji : j ≠ i := ne_of_mem_of_not_mem hj hi
    rw [hpkg, Function.update_of_ne hji.symm, Function.update_self, Database.setPkg_pkg_self,
      Database.setPkg_pkg_of_ne _ _ hji, hsame.pkg]
    have hentries : ∀ p q : Pkg, p.entries = q.entries → p.dependsOn = q.dependsOn := by
      intro p q hpq
      rw [Pkg.dependsOn, hpq, Pkg.dependsOn]
    split
    · rcases pkgMerge_entries built (db.pkg j) with hmerged | hmerged
      · exact .inl ((hentries _ _ hmerged).trans hbuilt)
      · exact .inr ⟨before, j, after, hvec₀, hvec, hentries _ _ hmerged⟩
    · exact .inl hbuilt

variable {tr : List (Database × Insertion)} {db : Database}

theorem dependers_of_trace {start : Database} (h : Trace InsertStep start tr db) (a : AbstractPkgId) :
    (db.abstractPkg a).dependedUponBy = (start.abstractPkg a).dependedUponBy ++ tr.flatMap (fun x =>
        List.replicate (x.2.pkg.1.dependsOnNames.count a) x.2.pkg.1.name) ∧
      (db.abstractPkg a).stateFlag = (start.abstractPkg a).stateFlag := by
  induction h with
  | nil s => exact ⟨(List.append_nil _).symm, rfl⟩
  | @cons s t u ins tr hstep _ ih =>
      have hself : (s.setPkg ins.id ins.pkg).pkg ins.id = ins.pkg := Database.setPkg_pkg_self _ _ _
      obtain ⟨hentered, hflag⟩ := hashInsertPkg_dependedUponBy hstep.2 a
      rw [hself] at hentered
      rw [List.flatMap_cons, ← List.append_assoc, ih.1, ih.2, hentered, hflag]
      exact ⟨rfl, rfl⟩

/-- **The reverse dependencies of a name**: one entry for each alternative of each record of the run that
mentions it, whatever version the record is of and whether it has been merged since. -/
theorem dependedUponBy_of_trace (h : Trace InsertStep emptyDatabase tr db) (a : AbstractPkgId) :
    (db.abstractPkg a).dependedUponBy = tr.flatMap fun x =>
      List.replicate (x.2.pkg.1.dependsOnNames.count a) x.2.pkg.1.name :=
  (dependers_of_trace h a).1

/-- Each filed record has its own entries among the reverse dependencies. -/
def Entered (db : Database) : Prop :=
  ∀ a c, ((db.filed a).map fun k => (db.pkg k).dependsOn.count c).sum ≤
    (db.abstractPkg c).dependedUponBy.count a

/-- **An insertion keeps the entries apart**: a record that takes over the dependencies of another takes
its place too. -/
theorem entered_step {db db' : Database} {ins : Insertion} (hplaced : WellPlaced db)
    (hdb : Entered db) (h : InsertStep db ins db') : Entered db' := by
  have hself : (db.setPkg ins.id ins.pkg).pkg ins.id = ins.pkg := Database.setPkg_pkg_self _ _ _
  have hother : ∀ j, j ≠ ins.id → (db.setPkg ins.id ins.pkg).pkg j = db.pkg j :=
    fun j hj => Database.setPkg_pkg_of_ne db _ hj
  intro a c
  obtain ⟨hentered, -⟩ := hashInsertPkg_dependedUponBy h.2 c
  rw [hself] at hentered
  change _ = (db.abstractPkg c).dependedUponBy ++ _ at hentered
  have hsame : ∀ k ∈ db'.filed a, k ≠ ins.id → (db'.pkg k).dependsOn.count c =
      (db.pkg k).dependsOn.count c := by
    intro k hk hne
    rcases insertStep_filed hplaced h hk with ⟨hid, -⟩ | ⟨-, hpkg⟩
    · exact absurd hid hne
    · rw [hpkg]
  rw [hentered, List.count_append, List.count_replicate]
  by_cases ha : a = ins.pkg.1.name
  · have hold := hdb a c
    rw [← ha, beq_self_eq_true, if_pos rfl]
    have hdepends := hashInsertPkg_dependsOn h.2 (h.1 _)
    rw [hself, ← ha] at hdepends
    -- the sums over the packages around the one that is filed
    have hsum : ∀ ks : List PkgId, (∀ k ∈ ks, k ∈ db'.filed a ∧ k ∈ db.filed a) →
        (ks.map fun k => (db'.pkg k).dependsOn.count c) =
          ks.map fun k => (db.pkg k).dependsOn.count c := fun ks hks =>
      List.map_congr_left fun k hk => hsame k (hks k hk).1 (ne_of_mem_of_not_mem (hks k hk).2 (h.1 a))
    have hreplaced : ∀ {before after j}, db.filed a = before ++ j :: after →
        db'.filed a = before ++ ins.id :: after →
        ((db'.filed a).map fun k => (db'.pkg k).dependsOn.count c).sum +
            (db.pkg j).dependsOn.count c =
          ((db.filed a).map fun k => (db.pkg k).dependsOn.count c).sum +
            (db'.pkg ins.id).dependsOn.count c := by
      intro before after j hvec hvec'
      have hbefore := hsum before fun k hk =>
        ⟨hvec' ▸ List.mem_append_left _ hk, hvec ▸ List.mem_append_left _ hk⟩
      have hafter := hsum after fun k hk =>
        ⟨hvec' ▸ List.mem_append_right _ (List.mem_cons_of_mem _ hk),
          hvec ▸ List.mem_append_right _ (List.mem_cons_of_mem _ hk)⟩
      rw [hvec, hvec']
      simp only [List.map_append, List.map_cons, List.sum_append, List.sum_cons, hbefore, hafter]
      omega
    rcases hdepends with hown | ⟨before, j, after, hvec, hvec', htaken⟩
    · obtain ⟨-, depends, conflicts, replaces, hcase⟩ := insertStep_cases h
      rw [← ha] at hcase
      rcases hcase with ⟨-, hvec', -⟩ | ⟨before, j, after, hdup, hvec', -⟩
      · have hall := hsum (db.filed a) fun k hk => ⟨hvec' ▸ List.mem_append_left _ hk, hk⟩
        rw [hvec', List.map_append, List.sum_append, hall]
        simp only [List.map_cons, List.map_nil, List.sum_cons, List.sum_nil, hown]
        omega
      · have hsums := hreplaced (findDuplicate_eq_append hdup) hvec'
        rw [hown] at hsums
        omega
    · have hsums := hreplaced hvec hvec'
      rw [htaken, hother j] at hsums
      · omega
      · refine ne_of_mem_of_not_mem (?_ : j ∈ db.filed a) (h.1 a)
        change db.filed a = _ at hvec
        rw [hvec]
        exact List.mem_append_right _ List.mem_cons_self
  · have hne := (insertStep_cases h).1 a ha
    rw [hne]
    have hsum : (db.filed a).map (fun k => (db'.pkg k).dependsOn.count c) =
        (db.filed a).map fun k => (db.pkg k).dependsOn.count c :=
      List.map_congr_left fun k hk => hsame k (hne ▸ hk) (ne_of_mem_of_not_mem hk (h.1 a))
    rw [hsum]
    exact Nat.le_add_right_of_le (hdb a c)

/-- **Every loaded database has its records entered.** -/
theorem entered_of_trace (h : Trace InsertStep emptyDatabase tr db) : Entered db :=
  (h.invariant (P := fun db => WellPlaced db ∧ Entered db)
    ⟨wellPlaced_empty, fun _ _ => Nat.zero_le _⟩
    fun _ _ _ hdb hstep => ⟨wellPlaced_step hdb.1 hstep, entered_step hdb.1 hdb.2 hstep⟩).2.2

/-- Filing packages marks nothing. -/
theorem unmarked_of_trace (h : Trace InsertStep emptyDatabase tr db) (a : AbstractPkgId) :
    (db.abstractPkg a).stateFlag.marked = false := by
  rw [(dependers_of_trace h a).2]
  rfl

/-! ## The count and the dependents -/

/-- The installed names among the reverse dependencies of what a package provides. -/
def Database.InstalledDependent (db : Database) (pkg : Pkg) (dep : AbstractPkgId) : Prop :=
  (db.abstractPkg dep).stateStatus = .installed ∧
    ∃ a ∈ pkg.provided, dep ∈ (db.abstractPkg a).dependedUponBy

/-- The function returns, counts every installed dependent once, gives the dependents, each once, and
leaves every mark as it was. -/
def DependentsCounted (db : Database) (pkg : Pkg) : Prop :=
  ∃ n dependents db', pkgHasInstalledDependentsMarking db pkg = some (n, dependents, db') ∧
    n = Set.ncard {dep | db.InstalledDependent pkg dep} ∧ n = dependents.length ∧
    dependents.Nodup ∧ (∀ dep, dep ∈ dependents ↔ db.InstalledDependent pkg dep) ∧
    ∀ a, (db'.abstractPkg a).stateFlag.marked = (db.abstractPkg a).stateFlag.marked

/-- How often the records of a run under the name `dep` mention what a package provides. -/
def mentions (tr : List (Database × Insertion)) (pkg : Pkg) (dep : AbstractPkgId) : Nat :=
  (pkg.provided.map fun a => (tr.map fun x =>
    if x.2.pkg.1.name = dep then x.2.pkg.1.dependsOnNames.count a else 0).sum).sum

/-- What a package provides can be read when the array is as long as the count says. -/
theorem readArray_isSome {α : Type} {n : Nat} {xs : List α} (h : n ≤ xs.length) :
    readArray n xs = some (xs.take n) := by
  induction n generalizing xs with
  | zero => rfl
  | succ n ih =>
      cases xs with
      | nil => exact absurd h (by simp)
      | cons x xs =>
          rw [readArray, ih (Nat.le_of_succ_le_succ h)]
          rfl

theorem readArray_length {α : Type} {n : Nat} {xs ys : List α} (h : readArray n xs = some ys) :
    n ≤ xs.length := by
  induction n generalizing xs ys with
  | zero => exact Nat.zero_le _
  | succ n ih =>
      cases xs with
      | nil => exact absurd h (by simp [readArray])
      | cons x xs =>
          rw [readArray, Option.map_eq_some_iff] at h
          obtain ⟨zs, hzs, -⟩ := h
          exact Nat.succ_le_succ (ih hzs)

theorem dependers_eq_some_iff {db : Database} {pkg : Pkg} {deps : List AbstractPkgId} :
    db.dependers pkg = some deps ↔ pkg.providesCount ≤ (pkg.provides.getD []).length ∧
      deps = pkg.provided.flatMap fun a => (db.abstractPkg a).dependedUponBy := by
  unfold Database.dependers
  simp only [Option.bind_eq_bind, Option.bind_eq_some_iff, Option.some.injEq]
  constructor
  · rintro ⟨provides, hread, rfl⟩
    exact ⟨readArray_length hread, by rw [readArray_eq_some hread, Pkg.provided]⟩
  · rintro ⟨hlength, rfl⟩
    exact ⟨_, readArray_isSome hlength, rfl⟩

/-- A name is entered under what a package provides as often as its records mention that. -/
theorem count_dependers (h : Trace InsertStep emptyDatabase tr db) (pkg : Pkg) (dep : AbstractPkgId) :
    (pkg.provided.flatMap fun a => (db.abstractPkg a).dependedUponBy).count dep =
      mentions tr pkg dep := by
  rw [List.count_flatMap, mentions]
  congr 1
  apply List.map_congr_left
  intro a _
  rw [Function.comp_apply, dependedUponBy_of_trace h a, List.count_flatMap]
  congr 1
  apply List.map_congr_left
  intro x _
  rw [Function.comp_apply, List.count_replicate]
  simp only [beq_iff_eq]

/-- A list without repetitions is as long as one with the same members exactly when that has no
repetitions either. -/
theorem length_eq_iff_nodup {α : Type*} {xs ys : List α} (hxs : xs.Nodup)
    (h : ∀ x, x ∈ xs ↔ x ∈ ys) : ys.length = xs.length ↔ ys.Nodup := by
  constructor
  · intro hlength
    have hperm := (List.subperm_of_subset hxs fun x => (h x).mp).perm_of_length_le hlength.le
    exact hperm.nodup hxs
  · intro hys
    exact ((List.perm_ext_iff_of_nodup hys hxs).mpr fun x => (h x).symm).length_eq

/-- The names that are counted, each as often as it is met. -/
def Database.counted (db : Database) (pkg : Pkg) : List AbstractPkgId :=
  (pkg.provided.flatMap fun a => (db.abstractPkg a).dependedUponBy).filter fun dep =>
    (db.abstractPkg dep).stateStatus == .installed

theorem mem_counted {pkg : Pkg} {dep : AbstractPkgId} :
    dep ∈ db.counted pkg ↔ db.InstalledDependent pkg dep := by
  rw [Database.counted, List.mem_filter, List.mem_flatMap, beq_iff_eq]
  exact and_comm

theorem nodup_counted_iff (h : Trace InsertStep emptyDatabase tr db) (pkg : Pkg) :
    (db.counted pkg).Nodup ↔
      ∀ dep, (db.abstractPkg dep).stateStatus = .installed → mentions tr pkg dep ≤ 1 := by
  rw [List.nodup_iff_count_le_one]
  apply forall_congr'
  intro dep
  by_cases hdep : (db.abstractPkg dep).stateStatus = .installed
  · rw [Database.counted, List.count_filter (by rw [hdep]; rfl), count_dependers h]
    simp only [hdep, true_implies]
  · have hnot : dep ∉ db.counted pkg := fun hmem => hdep (mem_counted.mp hmem).1
    simp only [hdep, false_implies, List.count_eq_zero.mpr hnot, Nat.zero_le]

/-- **When dependents are counted without repetition**: exactly when the records that have been loaded
under an installed name mention what the package provides no more than once between them (and the array
of what it provides is as long as its count says). -/
theorem dependentsCounted_iff (h : Trace InsertStep emptyDatabase tr db) (pkg : Pkg) :
    DependentsCounted db pkg ↔ pkg.providesCount ≤ (pkg.provides.getD []).length ∧
      ∀ dep, (db.abstractPkg dep).stateStatus = .installed → mentions tr pkg dep ≤ 1 := by
  rw [← nodup_counted_iff h]
  unfold DependentsCounted
  rw [pkgHasInstalledDependentsMarking_eq, pkgHasInstalledDependents]
  constructor
  · rintro ⟨n, dependents, db', hrun, -, hlength, hnodup, hmem, -⟩
    simp only [Option.bind_eq_bind, Option.map_eq_some_iff, Option.bind_eq_some_iff,
      Option.some.injEq, Prod.mk.injEq] at hrun
    obtain ⟨-, ⟨deps, hdeps, rfl⟩, rfl, -, -⟩ := hrun
    obtain ⟨harray, rfl⟩ := dependers_eq_some_iff.mp hdeps
    exact ⟨harray, (length_eq_iff_nodup hnodup fun dep => (hmem dep).trans mem_counted.symm).mp hlength⟩
  · rintro ⟨harray, hnodup⟩
    rw [dependers_eq_some_iff.mpr ⟨harray, rfl⟩]
    have hmem : ∀ dep, dep ∈ (pkg.provided.flatMap fun a => (db.abstractPkg a).dependedUponBy).foldl
        (collectDependent db) [] ↔ db.InstalledDependent pkg dep := by
      intro dep
      rw [mem_foldl_collectDependent, ← mem_counted, Database.counted, List.mem_filter, beq_iff_eq]
      simp only [List.not_mem_nil, false_or, unmarked_of_trace h, and_true]
    have htaken : ((pkg.provided.flatMap fun a => (db.abstractPkg a).dependedUponBy).foldl
        (collectDependent db) []).Nodup := nodup_foldl_collectDependent List.nodup_nil
    have hlength := (length_eq_iff_nodup htaken fun dep => (hmem dep).trans mem_counted.symm).mpr hnodup
    refine ⟨_, _, db, rfl, ?_, hlength, htaken, hmem, fun _ => rfl⟩
    -- the dependents are the set that is to be counted
    have hset : {dep | db.InstalledDependent pkg dep} = ((pkg.provided.flatMap fun a =>
        (db.abstractPkg a).dependedUponBy).foldl (collectDependent db) []).toFinset := by
      ext dep
      rw [Finset.mem_coe, List.mem_toFinset]
      exact (hmem dep).symm
    rw [hset, Set.ncard_coe_finset, List.toFinset_card_of_nodup htaken]
    exact hlength

/-! ## Two versions of a dependent -/

/-- A version of a package with a `Depends` field, as a feed or the status file has it. -/
def dependingStanza (name version : CStr) (depends : List CStr) (status : StateStatus)
    (auto : Bool) : ParsedPkg :=
  ⟨{ name, version := some version, architecture := some "all".toList, archPriority := 1
     stateStatus := status, autoInstalled := auto
     dependsStr := depends, dependsCount := depends.length },
    ⟨rfl, rfl, rfl, rfl, rfl, rfl, rfl, rfl, rfl, rfl, rfl, rfl⟩⟩

/-- A version of `app` that a feed has. -/
def feedApp (id : PkgId) (version : CStr) (depends : List CStr) : Insertion :=
  ⟨id, dependingStanza "app".toList version depends .notInstalled false, false⟩

/-- The version of `app` that is installed. -/
def statusApp : Insertion :=
  ⟨1, dependingStanza "app".toList "1.0".toList ["lib".toList] .installed false, true⟩

/-- What `app` depends on. It was installed only for that. -/
def statusLib : Insertion := ⟨2, dependingStanza "lib".toList "1.0".toList [] .installed true, true⟩

/-- The new version of `app` needs `lib` too. -/
def appTwice : List Insertion :=
  [feedApp 0 "2.0".toList ["lib".toList], statusApp, statusLib]

/-- Both versions of `app` are entered for `lib`. -/
theorem entered_appTwice : Entered (readAll appTwice) :=
  entered_of_trace (readAll_trace _ (by decide +kernel) (by decide +kernel))

/-- `app` is installed in one version and known in another, and counted twice as a dependent of
`lib`. -/
theorem not_dependentsCounted_versions :
    ¬ ∀ tr db, Trace InsertStep emptyDatabase tr db → ∀ a, ∀ k ∈ db.filed a,
      DependentsCounted db (db.pkg k) := by
  intro h
  have htrace : Trace InsertStep emptyDatabase (readCalls emptyDatabase appTwice)
      (readAll appTwice) := readAll_trace _ (by decide +kernel) (by decide +kernel)
  obtain ⟨n, dependents, db', hrun, -, hlength, -⟩ :=
    h _ _ htrace "lib".toList 2 (by decide +kernel)
  have hcounted : (pkgHasInstalledDependentsMarking (readAll appTwice)
      ((readAll appTwice).pkg 2)).map (fun r => (r.1, r.2.1)) = some (2, ["app".toList]) := by
    decide +kernel
  rw [hrun, Option.map_some, Option.some.injEq, Prod.mk.injEq] at hcounted
  obtain ⟨rfl, rfl⟩ := hcounted
  exact absurd hlength (by decide)

/-- With one version of `app`, the dependents of `lib` are counted right. -/
theorem dependentsCounted_one_version :
    DependentsCounted (readAll [statusApp, statusLib]) ((readAll [statusApp, statusLib]).pkg 2) := by
  refine (dependentsCounted_iff (readAll_trace _ (by decide) (by decide)) _).mpr
    ⟨by decide, fun dep _ => ?_⟩
  have hprovided : ((readAll [statusApp, statusLib]).pkg 2).provided = ["lib".toList] := by
    decide
  have happ : statusApp.pkg.1.dependsOnNames = ["lib".toList] := by decide
  have hlib : statusLib.pkg.1.dependsOnNames = [] := by decide
  rw [mentions, hprovided]
  simp only [readCalls, List.map_cons, List.map_nil, List.sum_cons, List.sum_nil, happ, hlib,
    List.count_nil, List.count_singleton_self, ite_self, Nat.add_zero]
  split <;> decide

end FirmwareTools.Opkg

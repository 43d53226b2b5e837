import FirmwareTools.Opkg.Hash

/-! # Who provides and who replaces a name

`abstract_pkg_vec_insert` assumes that all names in a vector are unique, and looks at none of them. The
vectors of providers and of replacers only ever grow, so that what they hold after a run of insertions
is one entry for each time a package of the run names them.

* **`providers_of_trace`**, **`replacers_of_trace`** — the vectors after a run, entry by entry;
* **`vectorsOk_iff`** — every vector has each name once exactly when no two packages of the run have
  the same name and no package names anything twice. -/

namespace FirmwareTools.Opkg

/-- The `provided_by` vector of a name. -/
def Database.providers (db : Database) (a : AbstractPkgId) : List AbstractPkgId :=
  (db.abstractPkg a).providedBy

/-- The `replaced_by` vector of a name. -/
def Database.replacers (db : Database) (a : AbstractPkgId) : List AbstractPkgId :=
  (db.abstractPkg a).replacedBy.getD []

/-- The names that a package provides, as `buildProvides` goes through them. -/
def Pkg.providesNames (p : Pkg) : List AbstractPkgId := p.name :: p.providesStr

/-- The names that a package takes the place of: those of its `Replaces` that it conflicts with. -/
def Pkg.supersedes (p : Pkg) : List AbstractPkgId :=
  if p.replacesCount = 0 then []
  else p.replacesStr.filter (pkgConflictsAbstract ((buildConflicts p).getD p))

/-! ## The vectors of a name -/

/-- Both vectors of every name are the same in both databases. -/
def SameVectors (db db' : Database) : Prop :=
  ∀ a, db'.providers a = db.providers a ∧ db'.replacers a = db.replacers a

theorem SameVectors.refl (db : Database) : SameVectors db db := fun _ => ⟨rfl, rfl⟩

theorem SameVectors.trans {db db' db'' : Database} (h : SameVectors db db')
    (h' : SameVectors db' db'') : SameVectors db db'' :=
  fun a => ⟨(h' a).1.trans (h a).1, (h' a).2.trans (h a).2⟩

theorem SameVectors.setAbstractPkg {db : Database} {a : AbstractPkgId} {ab : AbstractPkg}
    (hprovided : ab.providedBy = db.providers a) (hreplaced : ab.replacedBy.getD [] = db.replacers a) :
    SameVectors db (db.setAbstractPkg a ab) := by
  intro b
  unfold Database.providers Database.replacers
  by_cases hb : b = a
  · rw [hb, Database.setAbstractPkg_self]
    exact ⟨hprovided, hreplaced⟩
  · rw [Database.setAbstractPkg_of_ne db ab hb]
    exact ⟨rfl, rfl⟩

theorem openVector_sameVectors (db : Database) (pkg : Pkg) : SameVectors db (db.openVector pkg) :=
  SameVectors.setAbstractPkg rfl rfl

theorem buildDependedUponBy_sameVectors (db : Database) (pkg : Pkg) (abPkg : AbstractPkgId) :
    SameVectors db (buildDependedUponBy db pkg abPkg) := by
  unfold buildDependedUponBy
  dsimp only
  generalize ((pkg.depends.take _).filter _).flatMap CompoundDepend.possibilities = ds
  induction ds generalizing db with
  | nil => exact SameVectors.refl db
  | cons d ds ih =>
      have hfirst : SameVectors db (db.insertDependedUponBy d.pkg abPkg) :=
        SameVectors.setAbstractPkg rfl rfl
      exact hfirst.trans (ih (db.insertDependedUponBy d.pkg abPkg))

theorem pkgVecInsertMerge_sameVectors {db db' : Database} {a : AbstractPkgId} {i : PkgId}
    {setStatus : Bool} (h : pkgVecInsertMerge db a i setStatus = some db') : SameVectors db db' := by
  simp only [pkgVecInsertMerge, Option.bind_eq_bind, Option.bind_eq_some_iff] at h
  obtain ⟨found, -, h⟩ := h
  cases found with
  | none => exact Option.some.inj h ▸ SameVectors.setAbstractPkg rfl rfl
  | some found => exact Option.some.inj h ▸ SameVectors.setAbstractPkg rfl rfl

/-- One entry is added to one `provided_by` vector. -/
theorem insertProvidedBy_vectors (db : Database) (a abPkg b : AbstractPkgId) :
    (db.insertProvidedBy a abPkg).providers b
        = db.providers b ++ List.replicate (if a = b then 1 else 0) abPkg ∧
      (db.insertProvidedBy a abPkg).replacers b = db.replacers b := by
  unfold Database.insertProvidedBy Database.providers Database.replacers
  by_cases hb : a = b
  · rw [hb, Database.setAbstractPkg_self, if_pos rfl]
    exact ⟨rfl, rfl⟩
  · rw [Database.setAbstractPkg_of_ne _ _ (Ne.symm hb), if_neg hb, List.replicate_zero, List.append_nil]
    exact ⟨rfl, rfl⟩

/-- One entry is added to one `replaced_by` vector, if the package conflicts with the name. -/
theorem insertReplacedBy_vectors (db : Database) (pkg : Pkg) (abPkg old b : AbstractPkgId) :
    (db.insertReplacedBy pkg abPkg old).providers b = db.providers b ∧
      (db.insertReplacedBy pkg abPkg old).replacers b = db.replacers b ++
        List.replicate (if pkgConflictsAbstract pkg old = true ∧ old = b then 1 else 0) abPkg := by
  unfold Database.insertReplacedBy Database.providers Database.replacers
  by_cases hb : old = b
  · rw [hb, Database.setAbstractPkg_self]
    refine ⟨rfl, ?_⟩
    by_cases hc : pkgConflictsAbstract pkg b = true
    · rw [if_pos (show pkgConflictsAbstract pkg b = true ∧ b = b from ⟨hc, rfl⟩), if_pos hc]
      rfl
    · rw [if_neg (show ¬ (pkgConflictsAbstract pkg b = true ∧ b = b) from fun h => hc h.1), if_neg hc,
        List.replicate_zero, List.append_nil]
      rfl
  · rw [Database.setAbstractPkg_of_ne _ _ (Ne.symm hb), if_neg (fun h => hb h.2), List.replicate_zero,
      List.append_nil]
    exact ⟨rfl, rfl⟩

theorem replicate_append_count {a b x : AbstractPkgId} {xs : List AbstractPkgId} :
    List.replicate (if x = b then 1 else 0) a ++ List.replicate (xs.count b) a
      = List.replicate ((x :: xs).count b) a := by
  rw [List.count_cons, List.replicate_append_replicate, Nat.add_comm]
  congr 2
  simp only [beq_iff_eq]

theorem foldl_insertProvidedBy (abPkg : AbstractPkgId) (xs : List AbstractPkgId) (db : Database)
    (b : AbstractPkgId) :
    (xs.foldl (fun db a => db.insertProvidedBy a abPkg) db).providers b
        = db.providers b ++ List.replicate (xs.count b) abPkg ∧
      (xs.foldl (fun db a => db.insertProvidedBy a abPkg) db).replacers b = db.replacers b := by
  induction xs generalizing db with
  | nil => exact ⟨(List.append_nil _).symm, rfl⟩
  | cons x xs ih =>
      obtain ⟨hprovided, hreplaced⟩ := insertProvidedBy_vectors db x abPkg b
      rw [List.foldl_cons, (ih _).1, (ih _).2, hprovided, hreplaced, List.append_assoc,
        replicate_append_count]
      exact ⟨rfl, rfl⟩

theorem foldl_insertReplacedBy (pkg : Pkg) (abPkg : AbstractPkgId) (xs : List AbstractPkgId)
    (db : Database) (b : AbstractPkgId) :
    (xs.foldl (fun db old => db.insertReplacedBy pkg abPkg old) db).providers b = db.providers b ∧
      (xs.foldl (fun db old => db.insertReplacedBy pkg abPkg old) db).replacers b
        = db.replacers b ++ List.replicate ((xs.filter (pkgConflictsAbstract pkg)).count b) abPkg := by
  induction xs generalizing db with
  | nil => exact ⟨rfl, (List.append_nil _).symm⟩
  | cons x xs ih =>
      obtain ⟨hprovided, hreplaced⟩ := insertReplacedBy_vectors db pkg abPkg x b
      rw [List.foldl_cons, (ih _).1, (ih _).2, hprovided, hreplaced, List.append_assoc,
        List.filter_cons]
      refine ⟨rfl, ?_⟩
      by_cases hc : pkgConflictsAbstract pkg x = true
      · rw [if_pos hc, ← replicate_append_count]
        simp only [hc, true_and]
      · rw [if_neg hc, if_neg (fun h => hc h.1)]
        rfl

/-- **What an insertion enters**: the name of the package, once for every time that it provides a name
or takes its place. -/
theorem hashInsertPkg_vectors {db db' : Database} {i : PkgId} {setStatus : Bool}
    (h : hashInsertPkg db i setStatus = some db') (a : AbstractPkgId) :
    db'.providers a = db.providers a ++
        List.replicate ((db.pkg i).providesNames.count a) (db.pkg i).name ∧
      db'.replacers a = db.replacers a ++
        List.replicate ((db.pkg i).supersedes.count a) (db.pkg i).name := by
  simp only [hashInsertPkg, Option.bind_eq_bind, Option.bind_eq_some_iff, Option.some.injEq] at h
  obtain ⟨pkg₁, h₁, pkg₂, h₂, db₂, hmerge, rfl⟩ := h
  obtain ⟨depends, rfl⟩ := buildDepends_eq h₁
  have hopen := openVector_sameVectors db (db.pkg i) a
  have hprovides := foldl_insertProvidedBy (db.pkg i).name (db.pkg i).providesNames
    (db.openVector (db.pkg i)) a
  -- the two builders read the conflicts of the record, and these are the record's own
  have hconflicts : pkg₂.replacesStr = (db.pkg i).replacesStr ∧
      pkg₂.replacesCount = (db.pkg i).replacesCount ∧
      pkgConflictsAbstract pkg₂ = pkgConflictsAbstract ((buildConflicts (db.pkg i)).getD (db.pkg i)) := by
    change buildConflicts (((db.pkg i).withDepends depends).withProvides _) = some pkg₂ at h₂
    unfold buildConflicts at h₂ ⊢
    by_cases hcount : (db.pkg i).conflictsCount = 0
    · rw [if_pos hcount]
      rw [if_pos (show (((db.pkg i).withDepends depends).withProvides _).conflictsCount = 0
        from hcount)] at h₂
      rw [← Option.some.inj h₂]
      exact ⟨rfl, rfl, rfl⟩
    · rw [if_neg hcount]
      rw [if_neg (show ¬ (((db.pkg i).withDepends depends).withProvides _).conflictsCount = 0
        from hcount)] at h₂
      simp only [Option.bind_eq_bind, Option.bind_eq_some_iff, Option.some.injEq] at h₂
      obtain ⟨conflicts, hparse, rfl⟩ := h₂
      rw [show (db.pkg i).conflictsStr.mapM parseDepends = some conflicts from hparse]
      exact ⟨rfl, rfl, rfl⟩
  have hreplaces : (buildReplaces (buildProvides (db.openVector (db.pkg i)) (db.pkg i).name
        ((db.pkg i).withDepends depends)).1 (db.pkg i).name pkg₂).1.providers a
        = (buildProvides (db.openVector (db.pkg i)) (db.pkg i).name
          ((db.pkg i).withDepends depends)).1.providers a ∧
      (buildReplaces (buildProvides (db.openVector (db.pkg i)) (db.pkg i).name
        ((db.pkg i).withDepends depends)).1 (db.pkg i).name pkg₂).1.replacers a
        = (buildProvides (db.openVector (db.pkg i)) (db.pkg i).name
          ((db.pkg i).withDepends depends)).1.replacers a ++
            List.replicate ((db.pkg i).supersedes.count a) (db.pkg i).name := by
    obtain ⟨hstr, hcount, hfilter⟩ := hconflicts
    unfold buildReplaces Pkg.supersedes
    rw [hcount]
    split
    · exact ⟨rfl, (List.append_nil _).symm⟩
    · dsimp only
      rw [hstr, ← hfilter]
      exact foldl_insertReplacedBy pkg₂ _ _ _ a
  have hdepended := buildDependedUponBy_sameVectors
    (buildReplaces (buildProvides (db.openVector (db.pkg i)) (db.pkg i).name
      ((db.pkg i).withDepends depends)).1 (db.pkg i).name pkg₂).1
    (buildReplaces (buildProvides (db.openVector (db.pkg i)) (db.pkg i).name
      ((db.pkg i).withDepends depends)).1 (db.pkg i).name pkg₂).2 (db.pkg i).name a
  have hlast := pkgVecInsertMerge_sameVectors hmerge a
  constructor
  · calc db₂.providers a = _ := hlast.1
      _ = _ := hdepended.1
      _ = _ := hreplaces.1
      _ = _ := hprovides.1
      _ = _ := by rw [hopen.1]
  · calc db₂.replacers a = _ := hlast.2
      _ = _ := hdepended.2
      _ = _ := hreplaces.2
      _ = _ := by rw [show (buildProvides (db.openVector (db.pkg i)) (db.pkg i).name
        ((db.pkg i).withDepends depends)).1.replacers a = _ from hprovides.2, hopen.2]

/-! ## Runs of insertions -/

variable {tr : List (Database × Insertion)} {db : Database}

/-- The vectors after a run of insertions that starts anywhere. -/
theorem vectors_of_trace {start : Database} (h : Trace InsertStep start tr db) (a : AbstractPkgId) :
    db.providers a = start.providers a ++ tr.flatMap (fun x =>
        List.replicate (x.2.pkg.1.providesNames.count a) x.2.pkg.1.name) ∧
      db.replacers a = start.replacers a ++ tr.flatMap (fun x =>
        List.replicate (x.2.pkg.1.supersedes.count a) x.2.pkg.1.name) := by
  induction h with
  | nil s => exact ⟨(List.append_nil _).symm, (List.append_nil _).symm⟩
  | @cons s t u ins tr hstep _ ih =>
      have hself : (s.setPkg ins.id ins.pkg).pkg ins.id = ins.pkg := Database.setPkg_pkg_self _ _ _
      obtain ⟨hprovided, hreplaced⟩ := hashInsertPkg_vectors hstep.2 a
      rw [hself] at hprovided hreplaced
      rw [List.flatMap_cons, List.flatMap_cons, ← List.append_assoc, ← List.append_assoc, ih.1, ih.2,
        hprovided, hreplaced]
      exact ⟨rfl, rfl⟩

/-- **The providers of a name** are the packages of the run that provide it. -/
theorem providers_of_trace (h : Trace InsertStep emptyDatabase tr db) (a : AbstractPkgId) :
    db.providers a = tr.flatMap fun x =>
      List.replicate (x.2.pkg.1.providesNames.count a) x.2.pkg.1.name :=
  (vectors_of_trace h a).1

/-- **The replacers of a name** are the packages of the run that take its place. -/
theorem replacers_of_trace (h : Trace InsertStep emptyDatabase tr db) (a : AbstractPkgId) :
    db.replacers a = tr.flatMap fun x =>
      List.replicate (x.2.pkg.1.supersedes.count a) x.2.pkg.1.name :=
  (vectors_of_trace h a).2

/-- Every vector has each name once, and has the names that the packages of a run require. -/
structure VectorsOk (tr : List (Database × Insertion)) (db : Database) : Prop where
  providers_nodup : ∀ a, (db.providers a).Nodup
  replacers_nodup : ∀ a, (db.replacers a).Nodup
  providers_complete : ∀ x ∈ tr, ∀ a ∈ x.2.pkg.1.providesNames, x.2.pkg.1.name ∈ db.providers a
  replacers_complete : ∀ x ∈ tr, ∀ a ∈ x.2.pkg.1.supersedes, x.2.pkg.1.name ∈ db.replacers a

/-- The packages of a run have names of their own, and none names anything twice. -/
structure NamesUnique (tr : List (Database × Insertion)) : Prop where
  names_nodup : (tr.map fun x => x.2.pkg.1.name).Nodup
  provides_nodup : ∀ x ∈ tr, x.2.pkg.1.providesNames.Nodup
  supersedes_nodup : ∀ x ∈ tr, x.2.pkg.1.supersedes.Nodup

theorem mem_entries {f : Pkg → List AbstractPkgId} {a : AbstractPkgId} {x : Database × Insertion}
    (hx : x ∈ tr) (ha : a ∈ f x.2.pkg.1) :
    x.2.pkg.1.name ∈ tr.flatMap fun x => List.replicate ((f x.2.pkg.1).count a) x.2.pkg.1.name :=
  List.mem_flatMap.mpr ⟨x, hx, List.mem_replicate.mpr ⟨(List.count_pos_iff.mpr ha).ne', rfl⟩⟩

/-- The entries of a name are different if the names of the packages are, and none has the name twice. -/
theorem entries_nodup {f : Pkg → List AbstractPkgId} (hnames : (tr.map fun x => x.2.pkg.1.name).Nodup)
    (hf : ∀ x ∈ tr, (f x.2.pkg.1).Nodup) (a : AbstractPkgId) :
    (tr.flatMap fun x => List.replicate ((f x.2.pkg.1).count a) x.2.pkg.1.name).Nodup := by
  rw [List.nodup_flatMap]
  constructor
  · intro x hx
    rw [List.nodup_replicate]
    exact List.nodup_iff_count_le_one.mp (hf x hx) a
  · rw [List.Nodup, List.pairwise_map] at hnames
    refine hnames.imp fun {x y} hne => ?_
    refine List.disjoint_left.mpr ?_
    intro n hx hy
    exact hne ((List.eq_of_mem_replicate hx).symm.trans (List.eq_of_mem_replicate hy))

/-- If the entries of all names are different, no package has a name twice. -/
theorem nodup_of_entries {f : Pkg → List AbstractPkgId}
    (h : ∀ a, (tr.flatMap fun x => List.replicate ((f x.2.pkg.1).count a) x.2.pkg.1.name).Nodup) :
    ∀ x ∈ tr, (f x.2.pkg.1).Nodup := by
  intro x hx
  rw [List.nodup_iff_count_le_one]
  intro a
  have hnodup := (List.nodup_flatMap.mp (h a)).1 x hx
  rwa [List.nodup_replicate] at hnodup

/-- **When the vectors are as documented**: after a run of insertions every vector has each name once,
and the names it should have, exactly when no two packages of the run have the same name and no package
names anything twice. -/
theorem vectorsOk_iff (h : Trace InsertStep emptyDatabase tr db) :
    VectorsOk tr db ↔ NamesUnique tr := by
  have hproviders := providers_of_trace h
  have hreplacers := replacers_of_trace h
  constructor
  · intro hok
    have hprovided := fun a => hproviders a ▸ hok.providers_nodup a
    have hreplaced := fun a => hreplacers a ▸ hok.replacers_nodup a
    refine ⟨?_, nodup_of_entries hprovided, nodup_of_entries hreplaced⟩
    rw [List.Nodup, List.pairwise_map, List.pairwise_iff_forall_sublist]
    intro x y hsub heq
    -- both packages are entered as providers of the name they share
    have hdisjoint := (List.nodup_flatMap.mp (hprovided x.2.pkg.1.name)).2
    have hxy := List.pairwise_iff_forall_sublist.mp hdisjoint hsub
    replace hxy := List.disjoint_left.mp hxy
    have hmem : ∀ z : Database × Insertion, z.2.pkg.1.name = x.2.pkg.1.name → x.2.pkg.1.name ∈
        List.replicate (z.2.pkg.1.providesNames.count x.2.pkg.1.name) z.2.pkg.1.name := by
      intro z hz
      refine List.mem_replicate.mpr ⟨(List.count_pos_iff.mpr ?_).ne', hz.symm⟩
      rw [← hz]
      exact List.mem_cons_self
    exact hxy (hmem x rfl) (hmem y heq.symm)
  · intro hunique
    refine ⟨fun a => ?_, fun a => ?_, fun x hx a ha => ?_, fun x hx a ha => ?_⟩
    · rw [hproviders a]
      exact entries_nodup hunique.names_nodup hunique.provides_nodup a
    · rw [hreplacers a]
      exact entries_nodup hunique.names_nodup hunique.supersedes_nodup a
    · rw [hproviders a]
      exact mem_entries hx ha
    · rw [hreplacers a]
      exact mem_entries hx ha

/-- A package that is read from a feed and again from the status file is entered twice as a provider of
its own name. -/
theorem not_vectorsOk_feed_status :
    ¬ ∀ tr db, Trace InsertStep emptyDatabase tr db → VectorsOk tr db := by
  intro h
  have hok := (h _ _ (feed_status_trace ["b".toList] (by decide +kernel))).providers_nodup "a".toList
  have hvec : ((statusInsertion ["b".toList]).run (feedInsertion.run emptyDatabase)).providers
      "a".toList = ["a".toList, "a".toList] := by decide +kernel
  rw [hvec] at hok
  exact absurd hok (by decide)

/-- The feed alone keeps the vectors as documented. -/
theorem vectorsOk_feed :
    VectorsOk [(emptyDatabase, feedInsertion)] (feedInsertion.run emptyDatabase) := by
  refine (vectorsOk_iff (.cons (insertStep_run (fun _ => List.not_mem_nil) (by decide +kernel))
    (.nil _))).mpr ⟨List.nodup_singleton _, ?_, ?_⟩
  · intro x hx
    obtain rfl := List.mem_singleton.mp hx
    decide
  · intro x hx
    obtain rfl := List.mem_singleton.mp hx
    decide

end FirmwareTools.Opkg

import FirmwareTools.Opkg.Hash
import FirmwareTools.Opkg.Version

/-! # Duplicates in a vector

`pkg_vec_insert_merge` is to keep one record for each version and architecture of a name. A package
that is held for deinstallation takes the place of the first record of its name, whatever its
version.

* **`uniqueVersions_along_iff`** — no vector ever has two records of one version and architecture
  exactly when no held package is inserted while another record of its version is filed behind the
  first. -/

namespace FirmwareTools.Opkg

/-! ## What a merge keeps -/

/-- The fields of a record that tell which package it is and in which state. -/
def Pkg.identity (p : Pkg) :
    CStr × Nat × Option CStr × Option CStr × Option CStr × StateStatus × Bool :=
  (p.name, p.epoch, p.version, p.revision, p.architecture, p.stateStatus, p.autoInstalled)

/-- A part of a merge that leaves the identity and the configuration files alone. -/
def KeepsIdentity (f : Pkg × Pkg → Pkg × Pkg) : Prop :=
  ∀ m, (f m).1.identity = m.1.identity ∧ (f m).1.conffiles = m.1.conffiles ∧
    (f m).2.conffiles = m.2.conffiles

theorem pkgMergeDepends_keepsIdentity : KeepsIdentity pkgMergeDepends := by
  intro m
  simp only [pkgMergeDepends]
  split <;> exact ⟨rfl, rfl, rfl⟩

theorem pkgMergeProvides_keepsIdentity : KeepsIdentity pkgMergeProvides := by
  intro m
  simp only [pkgMergeProvides]
  split
  · split <;> exact ⟨rfl, rfl, rfl⟩
  · exact ⟨rfl, rfl, rfl⟩

theorem pkgMergeConflicts_keepsIdentity : KeepsIdentity pkgMergeConflicts := by
  intro m
  simp only [pkgMergeConflicts]
  split <;> exact ⟨rfl, rfl, rfl⟩

theorem pkgMergeReplaces_keepsIdentity : KeepsIdentity pkgMergeReplaces := by
  intro m
  simp only [pkgMergeReplaces]
  split <;> exact ⟨rfl, rfl, rfl⟩

theorem pkgMergeFields_keepsIdentity : KeepsIdentity pkgMergeFields := fun _ => ⟨rfl, rfl, rfl⟩

theorem pkgMergeInstalledFiles_keepsIdentity : KeepsIdentity pkgMergeInstalledFiles := by
  intro m
  simp only [pkgMergeInstalledFiles]
  split <;> exact ⟨rfl, rfl, rfl⟩

theorem KeepsIdentity.comp {f g : Pkg × Pkg → Pkg × Pkg} (hf : KeepsIdentity f)
    (hg : KeepsIdentity g) : KeepsIdentity (f ∘ g) := fun m =>
  ⟨(hf (g m)).1.trans (hg m).1, (hf (g m)).2.1.trans (hg m).2.1, (hf (g m)).2.2.trans (hg m).2.2⟩

/-- **What a merge keeps** of the record that stays: its version and its state. A missing
architecture, the automatic flag and missing configuration files come from the other record. -/
theorem pkgMerge_identity (oldpkg newpkg : Pkg) :
    (pkgMerge oldpkg newpkg).1.identity = (oldpkg.name, oldpkg.epoch, oldpkg.version,
      oldpkg.revision, oldpkg.architecture <|> newpkg.architecture, oldpkg.stateStatus,
      oldpkg.autoInstalled || newpkg.autoInstalled) ∧
    (pkgMerge oldpkg newpkg).1.conffiles
      = if oldpkg.conffiles.isEmpty then newpkg.conffiles else oldpkg.conffiles := by
  have hmiddle : KeepsIdentity (pkgMergeFields ∘ pkgMergeReplaces ∘ pkgMergeConflicts ∘
      pkgMergeProvides ∘ pkgMergeDepends) :=
    pkgMergeFields_keepsIdentity.comp (pkgMergeReplaces_keepsIdentity.comp
      (pkgMergeConflicts_keepsIdentity.comp (pkgMergeProvides_keepsIdentity.comp
        pkgMergeDepends_keepsIdentity)))
  obtain ⟨hidentity, hold, hnew⟩ := hmiddle (pkgMergeHeader (oldpkg, newpkg))
  simp only [Function.comp_apply] at hidentity hold hnew
  rw [pkgMerge]
  generalize pkgMergeFields (pkgMergeReplaces (pkgMergeConflicts (pkgMergeProvides
    (pkgMergeDepends (pkgMergeHeader (oldpkg, newpkg)))))) = m at hidentity hold hnew ⊢
  obtain ⟨hlast, hlastConffiles, -⟩ := pkgMergeInstalledFiles_keepsIdentity (pkgMergeConffiles m)
  rw [hlast, hlastConffiles]
  have hold' : m.1.conffiles = oldpkg.conffiles := hold
  have hnew' : m.2.conffiles = newpkg.conffiles := hnew
  simp only [pkgMergeConffiles, hold', hnew']
  split
  · exact ⟨hidentity, rfl⟩
  · exact ⟨hidentity, hold'⟩

/-! ## Equal versions -/

/-- Two records of one version and architecture. -/
def SameVersion (p q : Pkg) : Prop := pkgCompareVersions p q = 0 ∧ p.architecture = q.architecture

instance (p q : Pkg) : Decidable (SameVersion p q) := inferInstanceAs (Decidable (_ ∧ _))

theorem SameVersion.symm {p q : Pkg} (h : SameVersion p q) : SameVersion q p :=
  ⟨pkgCompareVersions_threeWay.eq_comm.mp h.1, h.2.symm⟩

theorem SameVersion.trans {p q r : Pkg} (h : SameVersion p q) (h' : SameVersion q r) :
    SameVersion p r := by
  refine ⟨?_, h.2.trans h'.2⟩
  have hsign := pkgCompareVersions_threeWay.sign_congr h.1 r
  rw [h'.1, Int.sign_zero, Int.sign_eq_zero_iff_zero] at hsign
  exact hsign

/-- The version comparison reads the identity. -/
theorem sameVersion_congr {p p' q q' : Pkg} (hp : p.identity = p'.identity)
    (hq : q.identity = q'.identity) : SameVersion p q ↔ SameVersion p' q' := by
  simp only [Pkg.identity, Prod.mk.injEq] at hp hq
  obtain ⟨-, hpe, hpv, hpr, hpa, -, -⟩ := hp
  obtain ⟨-, hqe, hqv, hqr, hqa, -, -⟩ := hq
  simp only [SameVersion, pkgCompareVersions, hpe, hpv, hpr, hpa, hqe, hqv, hqr, hqa]

/-- Held for deinstallation: such a package replaces the first record of its name. -/
def Pkg.heldForDeinstall (p : Pkg) : Prop := p.stateWant = .deinstall ∧ p.stateFlag.hold = true

instance (p : Pkg) : Decidable p.heldForDeinstall := inferInstanceAs (Decidable (_ ∧ _))

/-- What makes a record of the same name a duplicate. -/
theorem isDuplicate_true {p old : Pkg} (h : isDuplicate p old = some true) :
    p.name = old.name ∧ (p.heldForDeinstall ∨ SameVersion p old) := by
  unfold isDuplicate at h
  split at h
  · exact absurd h (by decide)
  · rename_i hname
    refine ⟨not_not.mp hname, ?_⟩
    split at h
    · rename_i hheld
      exact .inl hheld
    · split at h
      · exact absurd h (by decide)
      · rename_i hcmp
        simp only [Option.bind_eq_bind, Option.bind_eq_some_iff, Option.some.injEq,
          beq_iff_eq] at h
        obtain ⟨arch, harch, oldArch, holdArch, heq⟩ := h
        exact .inr ⟨not_not.mp hcmp, by rw [harch, holdArch, heq]⟩

/-- What makes a record of the same name none. -/
theorem isDuplicate_false {p old : Pkg} (h : isDuplicate p old = some false)
    (hname : p.name = old.name) : ¬ p.heldForDeinstall ∧ ¬ SameVersion p old := by
  unfold isDuplicate at h
  rw [if_neg (not_not.mpr hname)] at h
  split at h
  · exact absurd h (by decide)
  · rename_i hheld
    refine ⟨hheld, ?_⟩
    split at h
    · rename_i hcmp
      exact fun hsame => hcmp hsame.1
    · simp only [Option.bind_eq_bind, Option.bind_eq_some_iff, Option.some.injEq,
        beq_eq_false_iff_ne] at h
      obtain ⟨arch, harch, oldArch, holdArch, hne⟩ := h
      rintro ⟨-, hsame⟩
      rw [harch, holdArch, Option.some.injEq] at hsame
      exact hne hsame

/-- The search ends without a duplicate: no record is one. -/
theorem findDuplicate_none {db : Database} {p : Pkg} {vec : List PkgId}
    (h : findDuplicate db p vec = some none) :
    ∀ j ∈ vec, isDuplicate p (db.pkg j) = some false := by
  induction vec with
  | nil => simp
  | cons k vec ih =>
      simp only [findDuplicate, Option.bind_eq_bind, Option.bind_eq_some_iff] at h
      obtain ⟨dup, hdup, h⟩ := h
      split at h
      · exact absurd h (by simp)
      · rename_i hfalse
        simp only [Option.bind_eq_some_iff, Option.some.injEq, Option.map_eq_none_iff] at h
        obtain ⟨_, hfound, rfl⟩ := h
        rw [Bool.not_eq_true] at hfalse
        subst hfalse
        exact List.forall_mem_cons.mpr ⟨hdup, ih hfound⟩

/-- The duplicate that is found is one. -/
theorem findDuplicate_some {db : Database} {p : Pkg} {vec before after : List PkgId} {j : PkgId}
    (h : findDuplicate db p vec = some (some (before, j, after))) :
    isDuplicate p (db.pkg j) = some true := by
  induction vec generalizing before with
  | nil => simp [findDuplicate] at h
  | cons k vec ih =>
      simp only [findDuplicate, Option.bind_eq_bind, Option.bind_eq_some_iff] at h
      obtain ⟨dup, hdup, h⟩ := h
      split at h
      · rename_i htrue
        simp only [Option.some.injEq, Prod.mk.injEq] at h
        obtain ⟨-, rfl, -⟩ := h
        rw [hdup, htrue]
      · simp only [Option.bind_eq_some_iff, Option.some.injEq, Option.map_eq_some_iff,
          Prod.mk.injEq, Prod.exists] at h
        obtain ⟨found, hfound, b, j', a, rfl, -, rfl, rfl⟩ := h
        exact ih hfound

/-! ## Unique versions -/

/-- Packages are filed under their own names. -/
def NamedAsFiled (db : Database) : Prop := ∀ a, ∀ i ∈ db.filed a, (db.pkg i).name = a

/-- No vector has two records of one version and architecture. -/
def UniqueVersions (db : Database) : Prop :=
  ∀ a, (db.filed a).Pairwise fun i j => ¬ SameVersion (db.pkg i) (db.pkg j)

/-- The architecture of the inserted record once it has taken the place of `old`. -/
def Insertion.mergedArchitecture (ins : Insertion) (old : Pkg) : Option CStr :=
  if ins.setStatus then ins.pkg.1.architecture <|> old.architecture else ins.pkg.1.architecture

/-- A package that is held for deinstallation takes the place of a record, and no other record of
its name has the version and architecture it then has. -/
def HeldGuard (db : Database) (ins : Insertion) : Prop :=
  ins.pkg.1.heldForDeinstall → ∀ before j after,
    findDuplicate db ins.pkg (db.filed ins.pkg.1.name) = some (some (before, j, after)) →
      ∀ k ∈ before ++ after, ¬ (pkgCompareVersions ins.pkg (db.pkg k) = 0 ∧
        ins.mergedArchitecture (db.pkg j) = (db.pkg k).architecture)

theorem identity_withParent (p : Pkg) (a : AbstractPkgId) :
    (p.withParent a).identity = p.identity := rfl

theorem identity_resolved (p : Pkg) (depends conflicts : List CompoundDepend)
    (replaces : List AbstractPkgId) :
    (p.resolved depends conflicts replaces).identity = p.identity := rfl

/-- The inserted record in the place of a duplicate. -/
theorem identity_replaced (ins : Insertion) (old : Pkg) {built : Pkg}
    (hbuilt : built.identity = ins.pkg.1.identity) :
    (if ins.setStatus then (pkgMerge built old).1 else built).identity
      = (ins.pkg.1.name, ins.pkg.1.epoch, ins.pkg.1.version, ins.pkg.1.revision,
        ins.mergedArchitecture old, ins.pkg.1.stateStatus,
        if ins.setStatus then ins.pkg.1.autoInstalled || old.autoInstalled
          else ins.pkg.1.autoInstalled) := by
  rw [Insertion.mergedArchitecture]
  split
  · simp only [Pkg.identity, Prod.mk.injEq] at hbuilt
    obtain ⟨hname, hepoch, hversion, hrevision, harch, hstatus, hauto⟩ := hbuilt
    rw [(pkgMerge_identity built old).1, hname, hepoch, hversion, hrevision, harch, hstatus, hauto]
  · exact hbuilt

/-- The identity of the inserted record: its own, or its own with what it gets from the duplicate
whose place it takes. -/
theorem insertStep_identity {db db' : Database} {ins : Insertion} (h : InsertStep db ins db') :
    (findDuplicate db ins.pkg (db.filed ins.pkg.1.name) = some none ∧
        db'.filed ins.pkg.1.name = db.filed ins.pkg.1.name ++ [ins.id] ∧
        (db'.pkg ins.id).identity = ins.pkg.1.identity) ∨
      ∃ before j after,
        findDuplicate db ins.pkg (db.filed ins.pkg.1.name) = some (some (before, j, after)) ∧
        db'.filed ins.pkg.1.name = before ++ ins.id :: after ∧
        (db'.pkg ins.id).identity = (ins.pkg.1.name, ins.pkg.1.epoch, ins.pkg.1.version,
          ins.pkg.1.revision, ins.mergedArchitecture (db.pkg j), ins.pkg.1.stateStatus,
          if ins.setStatus then ins.pkg.1.autoInstalled || (db.pkg j).autoInstalled
            else ins.pkg.1.autoInstalled) := by
  obtain ⟨_, depends, conflicts, replaces, hcase⟩ := insertStep_cases h
  have hbuilt := identity_resolved ins.pkg.1 depends conflicts replaces
  rcases hcase with ⟨hdup, hvec, hpkg⟩ | ⟨before, j, after, hdup, hvec, hpkg⟩
  · refine .inl ⟨hdup, hvec, ?_⟩
    rw [hpkg, Function.update_self, identity_withParent, hbuilt]
  · refine .inr ⟨before, j, after, hdup, hvec, ?_⟩
    rw [hpkg, Function.update_self, identity_withParent, identity_replaced ins (db.pkg j) hbuilt]

/-- **Packages stay filed under their names.** -/
theorem namedAsFiled_step {db db' : Database} {ins : Insertion} (hdb : WellPlaced db)
    (hnamed : NamedAsFiled db) (h : InsertStep db ins db') : NamedAsFiled db' := by
  intro a k hk
  rcases insertStep_filed hdb h hk with ⟨rfl, rfl⟩ | ⟨hold, hsame⟩
  · rcases insertStep_identity h with ⟨-, -, hidentity⟩ | ⟨_, _, _, -, -, hidentity⟩
    · exact congrArg Prod.fst hidentity
    · exact congrArg Prod.fst hidentity
  · rw [hsame]
    exact hnamed a k hold

/-- In every database the program loads, packages are filed under their names. -/
theorem namedAsFiled_of_trace {tr : List (Database × Insertion)} {db : Database}
    (h : Trace InsertStep emptyDatabase tr db) : NamedAsFiled db := by
  have halong : Trace.Along (fun db => WellPlaced db ∧ NamedAsFiled db) tr db := by
    refine h.invariant ⟨wellPlaced_empty, fun _ _ hk => absurd hk List.not_mem_nil⟩ ?_
    exact fun db ins db' hdb hstep => ⟨wellPlaced_step hdb.1 hstep, namedAsFiled_step hdb.1 hdb.2 hstep⟩
  exact halong.2.2

/-- A record in the middle of a vector. -/
theorem pairwise_middle {α : Type*} {R : α → α → Prop} (hR : ∀ x y, R x y → R y x)
    {before after : List α} {x : α} :
    (before ++ x :: after).Pairwise R ↔
      (before ++ after).Pairwise R ∧ ∀ k ∈ before ++ after, R x k := by
  rw [List.pairwise_middle (fun {x y} => hR x y), List.pairwise_cons, and_comm]

/-- The version and architecture of the record that takes the place of a duplicate. -/
theorem sameVersion_replaced {ins : Insertion} {p old : Pkg} {status : StateStatus} {auto : Bool}
    (hp : p.identity = (ins.pkg.1.name, ins.pkg.1.epoch, ins.pkg.1.version, ins.pkg.1.revision,
      ins.mergedArchitecture old, status, auto)) (q : Pkg) :
    SameVersion p q ↔
      pkgCompareVersions ins.pkg q = 0 ∧ ins.mergedArchitecture old = q.architecture := by
  simp only [Pkg.identity, Prod.mk.injEq] at hp
  obtain ⟨-, hepoch, hversion, hrevision, harch, -, -⟩ := hp
  simp only [SameVersion, pkgCompareVersions, hepoch, hversion, hrevision, harch]

/-- A duplicate of the same architecture passes it on. -/
theorem mergedArchitecture_eq {ins : Insertion} {old : Pkg}
    (h : ins.pkg.1.architecture = old.architecture) :
    ins.mergedArchitecture old = old.architecture := by
  rw [Insertion.mergedArchitecture, h]
  split
  · cases old.architecture <;> rfl
  · rfl

/-- Outside of the vector of its name an insertion changes nothing. -/
theorem uniqueVersions_iff_of_step {db db' : Database} {ins : Insertion} (hdb : WellPlaced db)
    (hunique : UniqueVersions db) (h : InsertStep db ins db') :
    UniqueVersions db' ↔ (db'.filed ins.pkg.1.name).Pairwise
      fun i j => ¬ SameVersion (db'.pkg i) (db'.pkg j) := by
  refine ⟨fun hall => hall _, fun hname a => ?_⟩
  by_cases ha : a = ins.pkg.1.name
  · exact ha ▸ hname
  · have hkeep : ∀ k ∈ db'.filed a, db'.pkg k = db.pkg k := by
      intro k hk
      rcases insertStep_filed hdb h hk with ⟨-, hname⟩ | ⟨-, hsame⟩
      · exact absurd hname ha
      · exact hsame
    have hvec : db'.filed a = db.filed a := (insertStep_cases h).1 a ha
    have hold := hunique a
    rw [← hvec] at hold
    refine hold.imp_of_mem fun {i j} hi hj hij => ?_
    rw [hkeep i hi, hkeep j hj]
    exact hij

/-- **One insertion keeps the versions unique exactly when it meets the guard.** -/
theorem uniqueVersions_step_iff {db db' : Database} {ins : Insertion}
    (hdb : WellPlaced db ∧ NamedAsFiled db) (hunique : UniqueVersions db)
    (h : InsertStep db ins db') : UniqueVersions db' ↔ HeldGuard db ins := by
  obtain ⟨hplaced, hnamed⟩ := hdb
  have hfresh := h.1 ins.pkg.1.name
  have hold := hunique ins.pkg.1.name
  have hkeep : ∀ k ∈ db'.filed ins.pkg.1.name, k ≠ ins.id → db'.pkg k = db.pkg k := by
    intro k hk hne
    rcases insertStep_filed hplaced h hk with ⟨hid, -⟩ | ⟨-, hsame⟩
    · exact absurd hid hne
    · exact hsame
  rw [uniqueVersions_iff_of_step hplaced hunique h]
  rcases insertStep_identity h with ⟨hdup, hvec, hidentity⟩ | ⟨before, j, after, hdup, hvec, hidentity⟩
  · -- no record was a duplicate
    have hnone := findDuplicate_none hdup
    have hguard : HeldGuard db ins := by
      intro _ before j after hdup'
      rw [hdup] at hdup'
      exact absurd hdup' (by simp)
    refine iff_of_true ?_ hguard
    rw [hvec] at hkeep ⊢
    rw [List.pairwise_append]
    refine ⟨hold.imp_of_mem fun {i k} hi hk hik => ?_, List.pairwise_singleton _ _,
      fun k hk i hi hsame => ?_⟩
    · rw [hkeep i (List.mem_append_left _ hi) (ne_of_mem_of_not_mem hi hfresh),
        hkeep k (List.mem_append_left _ hk) (ne_of_mem_of_not_mem hk hfresh)]
      exact hik
    · obtain rfl := List.mem_singleton.mp hi
      rw [hkeep k (List.mem_append_left _ hk) (ne_of_mem_of_not_mem hk hfresh),
        sameVersion_congr rfl hidentity] at hsame
      exact (isDuplicate_false (hnone k hk) (hnamed _ k hk).symm).2 hsame.symm
  · have hsplit := findDuplicate_eq_append hdup
    rw [hsplit] at hfresh hold
    have hne : ∀ k ∈ before ++ after, k ≠ ins.id := by
      rintro k hk rfl
      refine hfresh (List.mem_append.mpr ((List.mem_append.mp hk).imp_right ?_))
      exact List.mem_cons_of_mem _
    have hmem : ∀ k ∈ before ++ after, k ∈ db'.filed ins.pkg.1.name := by
      intro k hk
      rw [hvec]
      exact List.mem_append.mpr ((List.mem_append.mp hk).imp_right (List.mem_cons_of_mem _))
    have hsymm : ∀ (db : Database) (i k : PkgId), ¬ SameVersion (db.pkg i) (db.pkg k) →
        ¬ SameVersion (db.pkg k) (db.pkg i) := fun db i k hik hki => hik hki.symm
    rw [pairwise_middle (hsymm db)] at hold
    rw [hvec, pairwise_middle (hsymm db')]
    have hrest : (before ++ after).Pairwise fun i k => ¬ SameVersion (db'.pkg i) (db'.pkg k) :=
      hold.1.imp_of_mem fun {i k} hi hk hik => by
        rw [hkeep i (hmem i hi) (hne i hi), hkeep k (hmem k hk) (hne k hk)]
        exact hik
    have hnew : (∀ k ∈ before ++ after, ¬ SameVersion (db'.pkg ins.id) (db'.pkg k)) ↔
        ∀ k ∈ before ++ after, ¬ (pkgCompareVersions ins.pkg (db.pkg k) = 0 ∧
          ins.mergedArchitecture (db.pkg j) = (db.pkg k).architecture) := by
      refine forall₂_congr fun k hk => not_congr ?_
      rw [hkeep k (hmem k hk) (hne k hk)]
      exact sameVersion_replaced hidentity (db.pkg k)
    rw [hnew]
    by_cases hheld : ins.pkg.1.heldForDeinstall
    · constructor
      · rintro ⟨-, hall⟩ - before' j' after' hdup'
        rw [hdup] at hdup'
        simp only [Option.some.injEq, Prod.mk.injEq] at hdup'
        obtain ⟨rfl, rfl, rfl⟩ := hdup'
        exact hall
      · exact fun hguard => ⟨hrest, hguard hheld before j after hdup⟩
    · -- the duplicate has the version and architecture that the others do not have
      refine iff_of_true ⟨hrest, fun k hk hsame => ?_⟩ fun h => absurd h hheld
      have hj := ((isDuplicate_true (findDuplicate_some hdup)).2).resolve_left hheld
      rw [mergedArchitecture_eq hj.2] at hsame
      exact hold.2 k hk (hj.symm.trans ⟨hsame.1, hj.2.trans hsame.2⟩)

/-- **Unique versions over a whole run**: in every state of a run of insertions each vector has at
most one record of a version and architecture exactly when every insertion of the run meets the
guard. -/
theorem uniqueVersions_along_iff {tr : List (Database × Insertion)} {db : Database}
    (h : Trace InsertStep emptyDatabase tr db) :
    Trace.Along UniqueVersions tr db ↔ ∀ x ∈ tr, HeldGuard x.1 x.2 :=
  h.forall_iff_guard (J := fun db => WellPlaced db ∧ NamedAsFiled db)
    ⟨wellPlaced_empty, fun _ _ hk => absurd hk List.not_mem_nil⟩
    (fun _ _ _ hdb hstep => ⟨wellPlaced_step hdb.1 hstep, namedAsFiled_step hdb.1 hdb.2 hstep⟩)
    (fun _ => List.Pairwise.nil)
    fun _ _ _ hdb hunique hstep => uniqueVersions_step_iff hdb hunique hstep

/-! ## A package on hold -/

/-- A pointer that no insertion of a run has used is filed nowhere. -/
theorem fresh_of_trace {tr : List (Database × Insertion)} {db : Database}
    (h : Trace InsertStep emptyDatabase tr db) {i : PkgId} (hi : ∀ x ∈ tr, x.2.id ≠ i) :
    ∀ a, i ∉ db.filed a := by
  have hgen : ∀ {tr : List (Database × Insertion)} {db db' : Database},
      Trace InsertStep db tr db' → WellPlaced db → (∀ a, i ∉ db.filed a) →
      (∀ x ∈ tr, x.2.id ≠ i) → ∀ a, i ∉ db'.filed a := by
    intro tr db db' h
    induction h with
    | nil s => exact fun _ hdb _ => hdb
    | cons hstep _ ih =>
        intro hplaced hdb htr
        rw [List.forall_mem_cons] at htr
        refine ih (wellPlaced_step hplaced hstep) (fun a ha => ?_) htr.2
        rcases insertStep_filed hplaced hstep ha with ⟨hid, -⟩ | ⟨hold, -⟩
        · exact htr.1 hid.symm
        · exact hdb a hold
  exact hgen h wellPlaced_empty (fun _ => List.not_mem_nil) hi

/-- A run goes on with a call that returns on a pointer not used before. -/
theorem trace_append {tr : List (Database × Insertion)} {db : Database} {ins : Insertion}
    (h : Trace InsertStep emptyDatabase tr db) (hid : ∀ x ∈ tr, x.2.id ≠ ins.id)
    (hreturns : (hashInsertPkg (db.setPkg ins.id ins.pkg) ins.id ins.setStatus).isSome) :
    Trace InsertStep emptyDatabase (tr ++ [(db, ins)]) (ins.run db) :=
  h.concat (insertStep_run (fresh_of_trace h hid) hreturns)

/-- The database once some records are read in turn. -/
def readAll (inss : List Insertion) : Database := inss.foldl (fun db ins => ins.run db) emptyDatabase

/-- The calls that read some records, each with the database it starts from. -/
def readCalls : Database → List Insertion → List (Database × Insertion)
  | _, [] => []
  | db, ins :: inss => (db, ins) :: readCalls (ins.run db) inss

/-- Every call returns. -/
def readsAll : Database → List Insertion → Bool
  | _, [] => true
  | db, ins :: inss =>
    (hashInsertPkg (db.setPkg ins.id ins.pkg) ins.id ins.setStatus).isSome &&
      readsAll (ins.run db) inss

/-- **Reading records** at pointers of their own is a run, if every call returns. -/
theorem readAll_trace (inss : List Insertion) (hids : (inss.map Insertion.id).Nodup)
    (hreads : readsAll emptyDatabase inss = true) :
    Trace InsertStep emptyDatabase (readCalls emptyDatabase inss) (readAll inss) := by
  have hgen : ∀ (inss : List Insertion) (db : Database), WellPlaced db →
      (∀ ins ∈ inss, ∀ a, ins.id ∉ db.filed a) → (inss.map Insertion.id).Nodup →
      readsAll db inss = true →
      Trace InsertStep db (readCalls db inss) (inss.foldl (fun db ins => ins.run db) db) := by
    intro inss
    induction inss with
    | nil => exact fun db _ _ _ _ => .nil db
    | cons ins inss ih =>
        intro db hplaced hfresh hids hreads
        rw [List.forall_mem_cons] at hfresh
        rw [List.map_cons, List.nodup_cons] at hids
        rw [readsAll, Bool.and_eq_true] at hreads
        have hstep := insertStep_run hfresh.1 hreads.1
        refine .cons hstep (ih _ (wellPlaced_step hplaced hstep) (fun ins' hins' a ha => ?_) hids.2
          hreads.2)
        rcases insertStep_filed hplaced hstep ha with ⟨hid, -⟩ | ⟨hold, -⟩
        · exact hids.1 (hid ▸ List.mem_map_of_mem hins')
        · exact hfresh.2 ins' hins' a hold
  exact hgen inss emptyDatabase wellPlaced_empty (fun _ _ _ => List.not_mem_nil) hids hreads

/-- A version of package `a`. -/
def versionStanza (version : CStr) (held : Bool) : ParsedPkg :=
  ⟨{ name := "a".toList, version := some version, architecture := some "all".toList,
     archPriority := 1, stateWant := if held then .deinstall else .unknown
     stateFlag := { hold := held } },
    ⟨rfl, rfl, rfl, rfl, rfl, rfl, rfl, rfl, rfl, rfl, rfl, rfl⟩⟩

/-- The versions 1.0 and 2.0 from a feed. -/
def feedVersion1 : Insertion := ⟨0, versionStanza "1.0".toList false, false⟩

def feedVersion2 : Insertion := ⟨1, versionStanza "2.0".toList false, false⟩

/-- A version the status file holds for deinstallation. -/
def heldVersion (version : CStr) : Insertion := ⟨2, versionStanza version true, true⟩

/-- The database after the feed. -/
def afterFeed : Database := feedVersion2.run (feedVersion1.run emptyDatabase)

theorem feed_trace : Trace InsertStep emptyDatabase
    [(emptyDatabase, feedVersion1), (feedVersion1.run emptyDatabase, feedVersion2)] afterFeed := by
  have hfirst : Trace InsertStep emptyDatabase [(emptyDatabase, feedVersion1)]
      (feedVersion1.run emptyDatabase) :=
    trace_append (.nil _) (fun _ h => absurd h List.not_mem_nil) (by decide)
  refine trace_append hfirst (fun x hx => ?_) (by decide +kernel)
  rw [List.mem_singleton.mp hx]
  exact show (0 : Nat) ≠ 1 by decide

/-- The feed is read, then the status file. -/
theorem feed_held_trace (version : CStr)
    (h : (hashInsertPkg (afterFeed.setPkg 2 (versionStanza version true)) 2 true).isSome) :
    Trace InsertStep emptyDatabase
      [(emptyDatabase, feedVersion1), (feedVersion1.run emptyDatabase, feedVersion2),
        (afterFeed, heldVersion version)] ((heldVersion version).run afterFeed) := by
  refine trace_append feed_trace (fun x hx => ?_) h
  rcases List.mem_pair.mp hx with rfl | rfl
  · exact show (0 : Nat) ≠ 2 by decide
  · exact show (1 : Nat) ≠ 2 by decide

/-- Version 2.0 on hold takes the place of version 1.0, and the other 2.0 stays. -/
theorem not_uniqueVersions_held :
    ¬ ∀ tr db, Trace InsertStep emptyDatabase tr db → Trace.Along UniqueVersions tr db := by
  intro h
  have hunique := (h _ _ (feed_held_trace "2.0".toList (by decide +kernel))).2 "a".toList
  have hvec : ((heldVersion "2.0".toList).run afterFeed).filed "a".toList = [2, 1] := by
    decide +kernel
  have hsame : SameVersion (((heldVersion "2.0".toList).run afterFeed).pkg 2)
      (((heldVersion "2.0".toList).run afterFeed).pkg 1) := by
    decide +kernel
  rw [hvec, List.pairwise_pair] at hunique
  exact hunique hsame

/-- Version 1.0 on hold takes the place of version 1.0. -/
theorem uniqueVersions_along_held :
    Trace.Along UniqueVersions
      [(emptyDatabase, feedVersion1), (feedVersion1.run emptyDatabase, feedVersion2),
        (afterFeed, heldVersion "1.0".toList)] ((heldVersion "1.0".toList).run afterFeed) := by
  refine (uniqueVersions_along_iff (feed_held_trace "1.0".toList (by decide +kernel))).mpr ?_
  simp only [List.forall_mem_cons, List.not_mem_nil, false_implies, implies_true, and_true]
  refine ⟨fun h => absurd h (by decide), fun h => absurd h (by decide), ?_⟩
  intro _ before j after hdup k hk
  have hfound : findDuplicate afterFeed (heldVersion "1.0".toList).pkg
      (afterFeed.filed "a".toList) = some (some ([], 0, [1])) := by
    decide +kernel
  have hdup' := hfound.symm.trans hdup
  simp only [Option.some.injEq, Prod.mk.injEq] at hdup'
  obtain ⟨rfl, -, rfl⟩ := hdup'
  obtain rfl := List.mem_singleton.mp hk
  -- the other record is version 2.0
  have hother : pkgCompareVersions (heldVersion "1.0".toList).pkg (afterFeed.pkg 1) ≠ 0 := by
    decide +kernel
  exact fun hsame => hother hsame.1

end FirmwareTools.Opkg

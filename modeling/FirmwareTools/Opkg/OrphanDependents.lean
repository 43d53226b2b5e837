import FirmwareTools.Opkg.Commands
import FirmwareTools.Opkg.DependentCount
import Mathlib.Algebra.Order.BigOperators.Group.List

/-! # Orphans of an upgrade

`pkg_remove_orphan_dependent` goes over what the old version of a package depends on, and removes what was
installed automatically and is not needed any more. Whether the new version still needs it is asked by
comparing pointers to alternatives, and each record has its own; whether somebody else needs it is asked
by counting the reverse dependencies, which have an entry for every record that has been loaded.

* **`pkgRemoveOrphanDependentOf_eq`** — no alternative of another record is found again;
* **`removesAt_iff`** — a package is removed when its dependents are counted to one;
* **`orphansHandled_iff`** — the orphans, and only these, are removed exactly when the records loaded
  under installed names mention an orphan once and nothing else once. -/

namespace FirmwareTools.Opkg

open Op

variable {env : Env} {fuel : Nat} {pkg oldPkg d : PkgId} {w w₁ : World}

/-! ## The search among the alternatives of the new version -/

/-- The address of a `depend_t`: the record that has it, the entry and the place in the entry. -/
structure DependAddr where
  owner : PkgId
  entry : Nat
  possibility : Nat
  deriving DecidableEq, Repr

/-- The alternatives of the `DEPEND` entries of a package, with their addresses. -/
def Database.dependAlternatives (db : Database) (i : PkgId) : List (DependAddr × Depend) :=
  ((db.pkg i).entries.zipIdx.filter fun entry => entry.1.type == .depend).flatMap fun entry =>
    entry.1.possibilities.zipIdx.map fun depend => (⟨i, entry.2, depend.2⟩, depend.1)

section Nested

variable (removePkg : PkgId → Run Int)

/-- One round of `pkg_remove_orphan_dependent`: an alternative that is found among those of the new
version is passed over. -/
def orphanRound (pkg : PkgId) (alternative : DependAddr × Depend) : Run PUnit := do
  let found := ((← get).db.dependAlternatives pkg).any fun other => other.1 == alternative.1
  if found then return PUnit.unit else removeOrphanDependent removePkg alternative.2

/-- `pkg_remove_orphan_dependent`, with the search among the alternatives of `pkg`. -/
def pkgRemoveOrphanDependentOf (pkg oldPkg : PkgId) : Run PUnit := do
  ((← get).db.dependAlternatives oldPkg).forM (orphanRound removePkg pkg)

theorem owner_of_mem {db : Database} {i : PkgId} {x : DependAddr × Depend}
    (h : x ∈ db.dependAlternatives i) : x.1.owner = i := by
  obtain ⟨entry, -, h⟩ := List.mem_flatMap.mp h
  obtain ⟨depend, -, rfl⟩ := List.mem_map.mp h
  rfl

/-- **Pointers to different records differ**, so the search finds nothing. -/
theorem orphanRound_eq {x : DependAddr × Depend} (h : x.1.owner ≠ pkg) :
    orphanRound removePkg pkg x = removeOrphanDependent removePkg x.2 := by
  funext w
  unfold orphanRound
  rw [get_bind]
  have hnone : (w.db.dependAlternatives pkg).any (fun other => other.1 == x.1) = false := by
    rw [List.any_eq_false]
    intro other hother heq
    rw [beq_iff_eq] at heq
    exact h (heq ▸ owner_of_mem hother)
  simp only [hnone, Bool.false_eq_true, if_false]

/-- The alternatives without their addresses. -/
theorem map_dependAlternatives (db : Database) (i : PkgId) :
    (db.dependAlternatives i).map Prod.snd =
      ((db.pkg i).entries.filter fun entry => entry.type == .depend).flatMap
        CompoundDepend.possibilities := by
  have hfilter : ∀ (entries : List CompoundDepend) (n : Nat),
      ((entries.zipIdx n).filter fun entry => entry.1.type == .depend).map Prod.fst =
        entries.filter fun entry => entry.type == .depend := by
    intro entries
    induction entries with
    | nil => exact fun _ => rfl
    | cons entry entries ih =>
        intro n
        rw [List.zipIdx_cons, List.filter_cons, List.filter_cons]
        split
        · rw [List.map_cons, ih]
        · exact ih (n + 1)
  rw [← hfilter _ 0, List.flatMap_map, Database.dependAlternatives, List.map_flatMap]
  congr 1
  funext entry
  rw [List.map_map]
  exact List.zipIdx_map_fst 0 _

theorem forM_orphanRound {xs : List (DependAddr × Depend)} (h : ∀ x ∈ xs, x.1.owner ≠ pkg) :
    xs.forM (orphanRound removePkg pkg) =
      (xs.map Prod.snd).forM (removeOrphanDependent removePkg) := by
  induction xs with
  | nil => rfl
  | cons x xs ih =>
      rw [List.forall_mem_cons] at h
      rw [List.map_cons]
      calc _ = orphanRound removePkg pkg x >>= fun _ => xs.forM (orphanRound removePkg pkg) := rfl
        _ = removeOrphanDependent removePkg x.2 >>= fun _ =>
            (xs.map Prod.snd).forM (removeOrphanDependent removePkg) := by
          rw [orphanRound_eq removePkg h.1, ih h.2]

/-- **The function passes no alternative over** when the versions are different records. -/
theorem pkgRemoveOrphanDependentOf_eq (h : pkg ≠ oldPkg) :
    pkgRemoveOrphanDependentOf removePkg pkg oldPkg =
      pkgRemoveOrphanDependent removePkg oldPkg := by
  funext w
  unfold pkgRemoveOrphanDependentOf pkgRemoveOrphanDependent
  rw [get_bind, getPkg_bind, ← map_dependAlternatives,
    forM_orphanRound removePkg fun x hx => owner_of_mem hx ▸ h.symm]

/-! ## The states of the loop -/

/-- The function comes to the alternative `x` in the state `w₁`. -/
def ComesTo (pkg oldPkg : PkgId) (w : World) (x : DependAddr × Depend) (w₁ : World) : Prop :=
  ∃ steps rest, w.db.dependAlternatives oldPkg = steps.map Prod.snd ++ x :: rest ∧
    Trace (fun w x w' => orphanRound removePkg pkg x w = some (⟨⟩, w')) w steps w₁

/-- From there the function goes on with this alternative and then with the rest. -/
theorem pkgRemoveOrphanDependentOf_comesTo {x : DependAddr × Depend}
    (h : ComesTo removePkg pkg oldPkg w x w₁) : ∃ rest : List (DependAddr × Depend),
      pkgRemoveOrphanDependentOf removePkg pkg oldPkg w =
        (orphanRound removePkg pkg x >>= fun _ => rest.forM (orphanRound removePkg pkg)) w₁ := by
  obtain ⟨steps, rest, halternatives, hsteps⟩ := h
  refine ⟨rest, ?_⟩
  unfold pkgRemoveOrphanDependentOf
  rw [get_bind, halternatives]
  clear halternatives
  induction hsteps with
  | nil => rfl
  | @cons s t u y tr hstep _ ih =>
      rw [← ih]
      change (orphanRound removePkg pkg y >>= fun _ =>
        (tr.map Prod.snd ++ x :: rest).forM (orphanRound removePkg pkg)) s = _
      exact Op.bind_of_eq_some hstep

end Nested

/-- The round flags `d` and has it removed, whatever a removal does. -/
def RemovesAt (pkg : PkgId) (x : DependAddr × Depend) (w : World) (d : PkgId) : Prop :=
  ∀ removePkg, orphanRound removePkg pkg x w = (do
    flagReplace d
    let _ ← removePkg d : Run PUnit) w

/-- Without an installed package of the name, a round does nothing. -/
theorem removeOrphanDependent_none {depend : Depend} (h : w.db.installedByName depend.pkg = none)
    (removePkg : PkgId → Run Int) : removeOrphanDependent removePkg depend w = some (⟨⟩, w) := by
  unfold removeOrphanDependent
  rw [get_bind, h]
  rfl

/-- Nor does it with one that was asked for. -/
theorem removeOrphanDependent_asked {depend : Depend} {p : PkgId}
    (h : w.db.installedByName depend.pkg = some p) (hauto : (w.db.pkg p).autoInstalled = false)
    (removePkg : PkgId → Run Int) : removeOrphanDependent removePkg depend w = some (⟨⟩, w) := by
  unfold removeOrphanDependent
  rw [get_bind, h]
  dsimp only
  rw [getPkg_bind, hauto]
  rfl

/-- One that was installed automatically is removed when its dependents are counted to one. -/
theorem removeOrphanDependent_auto {depend : Depend} {p : PkgId}
    (h : w.db.installedByName depend.pkg = some p) (hauto : (w.db.pkg p).autoInstalled = true)
    (removePkg : PkgId → Run Int) : removeOrphanDependent removePkg depend w =
      (pkgHasInstalledDependents w.db (w.db.pkg p)).bind fun r =>
        if r.1 = 1 then (do
          flagReplace p
          let _ ← removePkg p : Run PUnit) w
        else some (⟨⟩, w) := by
  unfold removeOrphanDependent
  rw [get_bind, h]
  dsimp only
  rw [getPkg_bind, hauto]
  simp only [Bool.not_true, Bool.false_eq_true, if_false]
  rw [get_bind, deref_bind]
  congr 1
  funext r
  split <;> rfl

theorem pkgHasInstalledDependents_eq_some_iff {db : Database} {p : Pkg} {n : Nat} :
    (∃ dependents, pkgHasInstalledDependents db p = some (n, dependents)) ↔
      p.providesCount ≤ (p.provides.getD []).length ∧ n = (db.counted p).length := by
  unfold pkgHasInstalledDependents
  simp only [Option.bind_eq_bind, Option.bind_eq_some_iff, Option.some.injEq, Prod.mk.injEq]
  constructor
  · rintro ⟨dependents, deps, hdeps, rfl, -⟩
    obtain ⟨harray, rfl⟩ := dependers_eq_some_iff.mp hdeps
    exact ⟨harray, rfl⟩
  · rintro ⟨harray, rfl⟩
    exact ⟨_, _, dependers_eq_some_iff.mpr ⟨harray, rfl⟩, rfl, rfl⟩

/-- **What is removed**: a package that was installed automatically, is the first installed one of the
name, and has its dependents counted to one. -/
theorem removesAt_iff {x : DependAddr × Depend} (hx : x.1.owner ≠ pkg) :
    RemovesAt pkg x w d ↔ w.db.installedByName x.2.pkg = some d ∧
      (w.db.pkg d).autoInstalled = true ∧
      (w.db.pkg d).providesCount ≤ ((w.db.pkg d).provides.getD []).length ∧
      (w.db.counted (w.db.pkg d)).length = 1 := by
  unfold RemovesAt
  simp only [orphanRound_eq _ hx]
  -- a removal that does not return shows whether there is one
  have hstop : (do
      flagReplace d
      let _ ← (Op.stop : Run Int) : Run PUnit) w = none := rfl
  constructor
  · intro h
    cases hp : w.db.installedByName x.2.pkg with
    | none =>
        have hremoves := h fun _ => Op.stop
        rw [removeOrphanDependent_none hp, hstop] at hremoves
        exact absurd hremoves (by simp)
    | some p =>
        cases hauto : (w.db.pkg p).autoInstalled with
        | false =>
            have hremoves := h fun _ => Op.stop
            rw [removeOrphanDependent_asked hp hauto, hstop] at hremoves
            exact absurd hremoves (by simp)
        | true =>
            simp only [removeOrphanDependent_auto hp hauto] at h
            cases hcount : pkgHasInstalledDependents w.db (w.db.pkg p) with
            | none =>
                have hremoves := h fun _ => pure 0
                rw [hcount] at hremoves
                exact absurd hremoves.symm (Option.some_ne_none _)
            | some r =>
                simp only [hcount, Option.bind_some] at h
                by_cases hn : r.1 = 1
                · simp only [if_pos hn] at h
                  -- the package that is removed is this one and no other
                  have hpd : p = d := by
                    by_contra hne
                    have hremoves := h fun i => if i = p then Op.stop else pure 0
                    simp only [if_neg (Ne.symm hne), if_true] at hremoves
                    exact absurd hremoves.symm (Option.some_ne_none _)
                  subst hpd
                  obtain ⟨harray, hlength⟩ := pkgHasInstalledDependents_eq_some_iff.mp
                    ⟨r.2, show _ = some (r.1, r.2) from hcount⟩
                  exact ⟨rfl, hauto, harray, hlength ▸ hn⟩
                · have hremoves := h fun _ => Op.stop
                  rw [if_neg hn, hstop] at hremoves
                  exact absurd hremoves (by simp)
  · rintro ⟨hp, hauto, harray, hlength⟩ removePkg
    obtain ⟨dependents, hcount⟩ := pkgHasInstalledDependents_eq_some_iff.mpr ⟨harray, rfl⟩
    rw [removeOrphanDependent_auto hp hauto, hcount, Option.bind_some, if_pos hlength]

/-- The round reads inside of what the package provides, so that it returns if the removal does. -/
theorem orphanRound_returns_iff {x : DependAddr × Depend} (hx : x.1.owner ≠ pkg) :
    (∃ w', orphanRound (fun _ => pure 0) pkg x w = some (⟨⟩, w')) ↔
      ∀ p, w.db.installedByName x.2.pkg = some p → (w.db.pkg p).autoInstalled = true →
        (w.db.pkg p).providesCount ≤ ((w.db.pkg p).provides.getD []).length := by
  rw [orphanRound_eq _ hx]
  cases hp : w.db.installedByName x.2.pkg with
  | none =>
      refine iff_of_true ⟨w, removeOrphanDependent_none hp _⟩ fun p h => ?_
      exact absurd h (by simp)
  | some p =>
      cases hauto : (w.db.pkg p).autoInstalled with
      | false =>
          refine iff_of_true ⟨w, removeOrphanDependent_asked hp hauto _⟩ fun q h hq => ?_
          rw [← Option.some.inj h, hauto] at hq
          exact absurd hq (by decide)
      | true =>
          rw [removeOrphanDependent_auto hp hauto]
          constructor
          · rintro ⟨w', h⟩ q hq -
            obtain rfl := Option.some.inj hq
            obtain ⟨r, hcount, -⟩ := Option.bind_eq_some_iff.mp h
            exact (pkgHasInstalledDependents_eq_some_iff.mp
              ⟨r.2, show _ = some (r.1, r.2) from hcount⟩).1
          · intro h
            obtain ⟨dependents, hcount⟩ :=
              pkgHasInstalledDependents_eq_some_iff.mpr ⟨h p rfl hauto, rfl⟩
            rw [hcount, Option.bind_some]
            split
            · exact ⟨_, rfl⟩
            · exact ⟨w, rfl⟩

/-! ## Orphans -/

/-- An alternative of the package names something that `d` provides. -/
def Pkg.NamesProvided (p d : Pkg) : Prop := ∃ a ∈ p.dependsOn, a ∈ d.provided

/-- Neither the new version nor an installed package of another name needs what `d` provides. -/
def Database.Orphaned (db : Database) (pkg oldPkg d : PkgId) : Prop :=
  ¬ (db.pkg pkg).NamesProvided (db.pkg d) ∧
    ∀ b, b ≠ (db.pkg oldPkg).name → ∀ k ∈ db.filed b, (db.pkg k).isInstalled = true →
      ¬ (db.pkg k).NamesProvided (db.pkg d)

/-- At each alternative that the function comes to, it reads inside of the arrays, and of the installed
packages with that name that were installed automatically it removes the orphans and no others. -/
def OrphansHandled (env : Env) (fuel : Nat) (pkg oldPkg : PkgId) (w : World) : Prop :=
  ∀ x w₁, ComesTo (fun i => opkgRemovePkg env fuel i false) pkg oldPkg w x w₁ →
    (∃ w', orphanRound (fun _ => pure 0) pkg x w₁ = some (⟨⟩, w')) ∧
    ∀ d ∈ w₁.db.pkgVecFetchByName x.2.pkg, (w₁.db.pkg d).isInstalled = true →
      (w₁.db.pkg d).autoInstalled = true → (RemovesAt pkg x w₁ d ↔ w₁.db.Orphaned pkg oldPkg d)

/-- The packages have been loaded by a run of insertions, and nothing has been entered since: any
package and any name may have another status. -/
def LoadedBy (tr : List (Database × Insertion)) (db : Database) : Prop :=
  ∃ db₀, Trace InsertStep emptyDatabase tr db₀ ∧
    ∀ a, (db.abstractPkg a).dependedUponBy = (db₀.abstractPkg a).dependedUponBy

/-- How often the records of a run under names that are installed now mention what a package
provides. -/
def installedMentions (tr : List (Database × Insertion)) (db : Database) (p : Pkg) : Nat :=
  (p.provided.map fun a => (tr.map fun x =>
    if (db.abstractPkg x.2.pkg.1.name).stateStatus = .installed then
      x.2.pkg.1.dependsOnNames.count a
    else 0).sum).sum

/-- What the loop counts are the mentions. -/
theorem length_counted {tr : List (Database × Insertion)} {db : Database} (h : LoadedBy tr db)
    (p : Pkg) : (db.counted p).length = installedMentions tr db p := by
  obtain ⟨db₀, htrace, hlists⟩ := h
  rw [Database.counted, List.filter_flatMap, List.length_flatMap, installedMentions]
  congr 1
  apply List.map_congr_left
  intro a _
  rw [hlists, dependedUponBy_of_trace htrace, List.filter_flatMap, List.length_flatMap]
  congr 1
  apply List.map_congr_left
  intro x _
  rw [List.filter_replicate]
  simp only [beq_iff_eq]
  split <;> simp

/-- What is needed of the records and the statuses at an alternative: an orphan is the first installed
package of its name, and the records under installed names mention it once; what is needed is not
mentioned just once. -/
structure OrphanGuard (tr : List (Database × Insertion)) (pkg oldPkg : PkgId) (name : AbstractPkgId)
    (db : Database) : Prop where
  readable : ∀ p, db.installedByName name = some p → (db.pkg p).autoInstalled = true →
    (db.pkg p).providesCount ≤ ((db.pkg p).provides.getD []).length
  orphan : ∀ d ∈ db.pkgVecFetchByName name, (db.pkg d).isInstalled = true →
    (db.pkg d).autoInstalled = true → db.Orphaned pkg oldPkg d →
    db.installedByName name = some d ∧ installedMentions tr db (db.pkg d) = 1
  needed : ∀ d, db.installedByName name = some d → (db.pkg d).autoInstalled = true →
    ¬ db.Orphaned pkg oldPkg d → installedMentions tr db (db.pkg d) ≠ 1

theorem orphanRound_onlyUninstalls (x : DependAddr × Depend) :
    Keeps OnlyUninstalls (orphanRound (fun i => opkgRemovePkg env fuel i false) pkg x) := by
  unfold orphanRound
  refine Keeps.bind onlyUninstalls_frame (Keeps.get onlyUninstalls_frame) fun w => ?_
  apply Keeps.ite
  · exact Keeps.pure onlyUninstalls_frame _
  · refine keeps_removeOrphanDependent onlyUninstalls_frame ?_ x.2
      fun i => opkgRemovePkg_onlyUninstalls fuel i false
    rintro w w' ⟨i, p, hmajor, -, rfl⟩
    exact (SameMajor.setPkg hmajor).onlyUninstalls

theorem ComesTo.onlyUninstalls {x : DependAddr × Depend}
    (h : ComesTo (fun i => opkgRemovePkg env fuel i false) pkg oldPkg w x w₁) :
    OnlyUninstalls w w₁ := by
  obtain ⟨steps, rest, -, hsteps⟩ := h
  exact (hsteps.invariant (P := OnlyUninstalls w) (onlyUninstalls_frame.refl w)
    fun _ y _ hw hstep => hw.trans (orphanRound_onlyUninstalls y _ _ _ hstep)).2

theorem OnlyUninstalls.loadedBy {tr : List (Database × Insertion)} (h : OnlyUninstalls w w₁)
    (hload : LoadedBy tr w.db) : LoadedBy tr w₁.db := by
  obtain ⟨db₀, htrace, hlists⟩ := hload
  refine ⟨db₀, htrace, fun a => ?_⟩
  rw [← hlists]
  rcases h.abstractPkg a with hab | hab <;> rw [hab]
  rfl

/-- **When the orphans of an upgrade are handled**: exactly when at each alternative the records that
have been loaded under installed names mention an orphan once, and nothing else once. -/
theorem orphansHandled_iff {tr : List (Database × Insertion)} (hload : LoadedBy tr w.db)
    (hne : pkg ≠ oldPkg) :
    OrphansHandled env fuel pkg oldPkg w ↔
      ∀ x w₁, ComesTo (fun i => opkgRemovePkg env fuel i false) pkg oldPkg w x w₁ →
        OrphanGuard tr pkg oldPkg x.2.pkg w₁.db := by
  unfold OrphansHandled
  refine forall₃_congr fun x w₁ hcomes => ?_
  have hx : x.1.owner ≠ pkg := by
    obtain ⟨steps, rest, halternatives, -⟩ := hcomes
    have hmem : x ∈ w.db.dependAlternatives oldPkg := by
      rw [halternatives]
      exact List.mem_append_right _ List.mem_cons_self
    exact owner_of_mem hmem ▸ hne.symm
  have hcount := length_counted (hcomes.onlyUninstalls.loadedBy hload)
  rw [orphanRound_returns_iff hx]
  simp only [removesAt_iff hx, hcount]
  constructor
  · rintro ⟨hreadable, hremoves⟩
    refine ⟨hreadable, fun d hd hinstalled hauto horphan => ?_, fun d hp hauto hneeded hone => ?_⟩
    · obtain ⟨hp, -, -, hone⟩ := (hremoves d hd hinstalled hauto).mpr horphan
      exact ⟨hp, hone⟩
    · have hd := List.mem_of_find?_eq_some hp
      have hinstalled := List.find?_some hp
      exact hneeded ((hremoves d hd hinstalled hauto).mp ⟨hp, hauto, hreadable d hp hauto, hone⟩)
  · rintro ⟨hreadable, horphans, hneeded⟩
    refine ⟨hreadable, fun d hd hinstalled hauto => ⟨?_, fun horphan => ?_⟩⟩
    · rintro ⟨hp, -, -, hone⟩
      exact by_contra fun hnot => hneeded d hp hauto hnot hone
    · obtain ⟨hp, hone⟩ := horphans d hd hinstalled hauto horphan
      exact ⟨hp, hauto, hreadable d hp hauto, hone⟩

/-! ## What is needed stays -/

/-! ## The installed version in a feed -/

/-- The new version of `app` does not need `lib` any more. -/
def upgradeWorld (copies : List Insertion) : World :=
  { startWorld with
    db := readAll (copies ++ [feedApp 0 "2.0".toList [], statusApp, statusLib]) }

/-- Nobody but the installed version of `app` needs `lib`. -/
theorem lib_orphaned {tr : List (Database × Insertion)} {db : Database}
    (h : Trace InsertStep emptyDatabase tr db) (hids : ∀ x ∈ tr, x.2.id < 4)
    (hnew : (db.pkg 0).isInstalled = false ∧ (db.pkg 0).dependsOn = [])
    (hold : (db.pkg 1).parent = some (db.pkg 1).name) (hlib : (db.pkg 2).dependsOn = [])
    (hcopy : (db.pkg 3).isInstalled = false) : db.Orphaned 0 1 2 := by
  have hnone : ∀ {p q : Pkg}, p.dependsOn = [] → ¬ p.NamesProvided q := by
    rintro p q hp ⟨a, ha, -⟩
    rw [hp] at ha
    exact List.not_mem_nil ha
  refine ⟨hnone hnew.2, fun b hb k hk hinstalled => ?_⟩
  have hlt : k < 4 := by
    by_contra hge
    exact fresh_of_trace h (fun x hx => (lt_of_lt_of_le (hids x hx) (not_lt.mp hge)).ne) b hk
  have hcases : ∀ n : Nat, n < 4 → n = 0 ∨ n = 1 ∨ n = 2 ∨ n = 3 := by omega
  rcases hcases k hlt with rfl | rfl | rfl | rfl
  · rw [hnew.1] at hinstalled
    exact absurd hinstalled (by decide)
  · have hparent := (linked_of_trace h).placed.parent b 1 hk
    rw [hold] at hparent
    exact absurd (Option.some.inj hparent).symm hb
  · exact hnone hlib
  · rw [hcopy] at hinstalled
    exact absurd hinstalled (by decide)

/-- The feed still has the version that is installed: `lib` has two mentions, and stays. -/
theorem not_orphansHandled_copy :
    ¬ ∀ env fuel tr w pkg oldPkg, LoadedBy tr w.db →
      w.db.installedByName (w.db.pkg pkg).name = some oldPkg → pkg ≠ oldPkg →
      OrphansHandled env fuel pkg oldPkg w := by
  intro h
  have htrace := readAll_trace
    ([feedApp 3 "1.0".toList ["lib".toList]] ++ [feedApp 0 "2.0".toList [], statusApp, statusLib])
    (by decide +kernel) (by decide +kernel)
  have hhandled := h (plainEnv []) 0 _ (upgradeWorld [feedApp 3 "1.0".toList ["lib".toList]]) 0 1
    ⟨_, htrace, fun _ => rfl⟩ (by decide +kernel) (by decide)
  have hcomes : ComesTo (fun i => opkgRemovePkg (plainEnv []) 0 i false) 0 1
      (upgradeWorld [feedApp 3 "1.0".toList ["lib".toList]]) (⟨1, 0, 0⟩, { pkg := "lib".toList })
      (upgradeWorld [feedApp 3 "1.0".toList ["lib".toList]]) :=
    ⟨[], [], by decide +kernel, .nil _⟩
  have hremoves := ((hhandled _ _ hcomes).2 2 (by decide +kernel) (by decide +kernel)
    (by decide +kernel)).mpr ?_
  · obtain ⟨-, -, -, hone⟩ := (removesAt_iff (by decide)).mp hremoves
    have htwo : ((upgradeWorld [feedApp 3 "1.0".toList ["lib".toList]]).db.counted
        ((upgradeWorld [feedApp 3 "1.0".toList ["lib".toList]]).db.pkg 2)).length = 2 := by
      decide +kernel
    rw [htwo] at hone
    exact absurd hone (by decide)
  · exact lib_orphaned htrace (by decide +kernel) (by decide +kernel) (by decide +kernel)
      (by decide +kernel) (by decide +kernel)

/-- Without it `lib` is removed. -/
theorem orphansHandled_upgrade : OrphansHandled (plainEnv []) 0 0 1 (upgradeWorld []) := by
  have htrace : Trace InsertStep emptyDatabase (readCalls emptyDatabase
      [feedApp 0 "2.0".toList [], statusApp, statusLib]) (upgradeWorld []).db :=
    readAll_trace _ (by decide +kernel) (by decide +kernel)
  refine (orphansHandled_iff ⟨_, htrace, fun _ => rfl⟩ (by decide)).mpr ?_
  rintro x w₁ ⟨steps, rest, halternatives, hsteps⟩
  have hone : (upgradeWorld []).db.dependAlternatives 1 =
      [(⟨1, 0, 0⟩, { pkg := "lib".toList })] := by decide +kernel
  have hvec : (upgradeWorld []).db.pkgVecFetchByName "lib".toList = [2] := by decide +kernel
  have hfirst : (upgradeWorld []).db.installedByName "lib".toList = some 2 := by decide +kernel
  have horphan : (upgradeWorld []).db.Orphaned 0 1 2 :=
    lib_orphaned htrace (by decide +kernel) (by decide +kernel) (by decide +kernel)
      (by decide +kernel) (by decide +kernel)
  rw [hone] at halternatives
  cases steps with
  | cons step steps => exact absurd (congrArg List.length halternatives) (by simp)
  | nil =>
      cases hsteps
      obtain ⟨rfl, -⟩ := List.cons.inj halternatives
      refine ⟨fun p hp _ => ?_, fun d hd _ _ _ => ?_, fun d hp _ hneeded => ?_⟩
      · obtain rfl := Option.some.inj (hfirst.symm.trans hp)
        decide +kernel
      · rw [hvec] at hd
        obtain rfl := List.mem_singleton.mp hd
        exact ⟨hfirst, by decide +kernel⟩
      · obtain rfl := Option.some.inj (hfirst.symm.trans hp)
        exact absurd horphan hneeded

end FirmwareTools.Opkg

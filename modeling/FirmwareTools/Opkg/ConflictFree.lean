import FirmwareTools.Opkg.ConfigureOrder

/-! # Conflicts between installed packages

`check_conflicts_for` looks, before the dependencies of a package are installed, whether one of its
own conflicts is installed or wanted. It does not look at the conflicts that other packages declare,
nor again at its own once the dependencies are there, and it passes over a package that is unpacked
but not wanted.

* **`conflictFree_along`** — in a run in which no installation brings in a conflict of these three
  kinds, the installed packages never conflict;
* **`not_conflictFree_nested`** — a package that conflicts with what it depends on. -/

namespace FirmwareTools.Opkg

open Op

/-- An entry of `Conflicts` of `pkg` names `other` with a constraint its version satisfies, and `pkg`
does not replace it. -/
def Pkg.declaresConflict (pkg other : Pkg) : Bool :=
  ((pkg.conflicts.take pkg.conflictsCount).flatMap CompoundDepend.possibilities).any fun depend =>
    depend.pkg == other.name && versionConstraintsSatisfied depend other &&
      !isPkgAReplaces other pkg

/-- The packages of the database. -/
def World.available (w : World) : List PkgId := pkgHashFetchAvailable w.db w.names

/-- No two distinct installed or unpacked packages conflict. -/
def ConflictFree (w : World) : Prop :=
  ∀ p ∈ w.available, ∀ q ∈ w.available, p ≠ q → (w.db.pkg p).isInstalled = true →
    (w.db.pkg q).isInstalled = true → (w.db.pkg p).declaresConflict (w.db.pkg q) = false

/-- What `opkg_install_pkg` takes for granted when it begins with a package: it conflicts with no
package that is unpacked but not wanted, besides the one it is an upgrade of. -/
def World.passesOver (w : World) (i : PkgId) : Bool :=
  w.available.any fun q => q != i && w.db.installedByName (w.db.pkg i).name != some q &&
    (w.db.pkg q).stateStatus == .unpacked && (w.db.pkg q).stateWant != .install &&
    (w.db.pkg i).declaresConflict (w.db.pkg q)

/-- The conflicts with `i` that others declare: installed packages, besides the old one, and those
whose installation is pending. -/
def World.opposes (w : World) (pending : List PkgId) (i : PkgId) (oldPkg : Option PkgId) : Bool :=
  (w.available.any fun p => p != i && oldPkg != some p && (w.db.pkg p).isInstalled &&
    (w.db.pkg p).declaresConflict (w.db.pkg i)) ||
  pending.any fun p => p != i && (w.db.pkg p).declaresConflict (w.db.pkg i)

instance (w : World) : Decidable (ConflictFree w) :=
  inferInstanceAs (Decidable (∀ p ∈ w.available, ∀ q ∈ w.available, p ≠ q →
    (w.db.pkg p).isInstalled = true → (w.db.pkg q).isInstalled = true →
      (w.db.pkg p).declaresConflict (w.db.pkg q) = false))

variable (env : Env)

/-- `opkg_install_pkg` within the installations of the packages `pending`. It does not begin with a
package for which the check passes something over, and does not go past the point of no return with
one that others declare a conflict with. -/
def opkgInstallPkgUnopposed : Nat → List PkgId → PkgId → Run Int
  | 0, _, _ => Op.stop
  | fuel + 1, pending, i => do
    if (← get).passesOver i then Op.stop
    else
      match ← untilPointOfNoReturn env (opkgInstallPkgUnopposed fuel (i :: pending))
          (fun i => opkgRemovePkg env fuel i false) i with
      | .done rc => return rc
      | .go oldPkg =>
        if (← get).opposes pending i oldPkg then Op.stop
        else behindPointOfNoReturn env i oldPkg

/-- In a call and the calls nested in it, the check passes over nothing and no package is installed
that others declare a conflict with. -/
def Unopposed (w : World) (call : Nat × PkgId) : Prop :=
  (opkgInstallPkgUnopposed env call.1 [] call.2 w).isSome

variable {env}

/-- Where the checks let a call pass, they change nothing. -/
theorem opkgInstallPkg_extends_unopposed (fuel : Nat) (pending : List PkgId) (i : PkgId) :
    Extends (opkgInstallPkg env fuel i) (opkgInstallPkgUnopposed env fuel pending i) := by
  induction fuel generalizing pending i with
  | zero => exact Extends.refl _
  | succ fuel ih =>
      intro w r h
      unfold opkgInstallPkgUnopposed at h
      rw [get_bind] at h
      split at h
      · exact absurd h stop_ne_some
      · unfold opkgInstallPkg
        revert h
        refine Extends.bind (untilPointOfNoReturn_extends (ih (i :: pending))
          (fun j => Extends.refl _) i) (fun progressed => ?_) w r
        cases progressed with
        | done rc => exact Extends.refl _
        | go oldPkg =>
            intro w r h
            dsimp only at h ⊢
            rw [get_bind] at h
            split at h
            · exact absurd h stop_ne_some
            · exact h

/-! ## The check -/

/-- A conflict depends on what the packages are, not on their states. -/
theorem declaresConflict_major (p q : Pkg) :
    p.major.declaresConflict q.major = p.declaresConflict q := rfl

/-- A collection that is empty in the end was empty all along. -/
theorem foldlM_eq_nil {α β : Type} {f : List β → α → Option (List β)} {P : α → Prop}
    (hf : ∀ acc x, f acc x = some [] → acc = [] ∧ P x) {l : List α} {acc : List β}
    (h : l.foldlM f acc = some []) : acc = [] ∧ ∀ x ∈ l, P x := by
  induction l generalizing acc with
  | nil => exact ⟨Option.some.inj h, by simp⟩
  | cons x l ih =>
      rw [List.foldlM_cons] at h
      obtain ⟨acc', hx, hl⟩ := Option.bind_eq_some_iff.mp h
      obtain ⟨rfl, hall⟩ := ih hl
      obtain ⟨rfl, hP⟩ := hf acc x hx
      exact ⟨rfl, List.forall_mem_cons.mpr ⟨hP, hall⟩⟩

/-- A package that is not collected does not meet the conflict. -/
theorem collectConflict_eq_nil {db : Database} {pkg : Pkg} {depend : Depend}
    {conflicts : List PkgId} {i : PkgId}
    (h : collectConflict db pkg depend conflicts i = some []) :
    conflicts = [] ∧ ¬ (((db.pkg i).stateStatus = .installed ∨ (db.pkg i).stateWant = .install) ∧
      versionConstraintsSatisfied depend (db.pkg i) = true ∧
        (!isPkgAReplaces (db.pkg i) pkg) = true) := by
  unfold collectConflict at h
  dsimp only at h
  split at h
  · obtain ⟨found, hfound, hcollected⟩ := Option.bind_eq_some_iff.mp h
    split at hcollected
    · rename_i hin
      obtain rfl := Option.some.inj hcollected
      -- nothing is found in an empty collection
      obtain rfl := Option.some.inj hfound
      exact absurd hin (by decide)
    · exact absurd (Option.some.inj hcollected) (by simp)
  · rename_i hno
    exact ⟨Option.some.inj h, hno⟩

/-- **The check**: if it finds nothing, the package declares no conflict with one that is installed
or wanted. -/
theorem pkgHashFetchConflicts_nil {db : Database} {pkg : Pkg} (hparent : pkg.parent ≠ none)
    (h : pkgHashFetchConflicts db pkg = some []) {q : PkgId} (hq : q ∈ db.filed (db.pkg q).name)
    (hstate : (db.pkg q).stateStatus = .installed ∨ (db.pkg q).stateWant = .install) :
    pkg.declaresConflict (db.pkg q) = false := by
  unfold pkgHashFetchConflicts at h
  rw [if_neg hparent] at h
  obtain ⟨-, hall⟩ := foldlM_eq_nil
    (fun acc depend h => foldlM_eq_nil (fun acc k h => collectConflict_eq_nil h) h) h
  rw [Pkg.declaresConflict, List.any_eq_false]
  intro depend hdepend hmeets
  simp only [Bool.and_eq_true, beq_iff_eq] at hmeets
  obtain ⟨⟨hname, hversion⟩, hreplaces⟩ := hmeets
  exact hall depend hdepend q (hname ▸ hq) ⟨hstate, hversion, hreplaces⟩

/-- The check passed if it is got past. -/
theorem checkConflictsFor_eq_zero {i : PkgId} {w w' : World} (hforce : env.forceDepends = false)
    (h : checkConflictsFor env i w = some (0, w')) :
    pkgHashFetchConflicts w.db (w.db.pkg i) = some [] := by
  unfold checkConflictsFor at h
  rw [hforce, if_neg Bool.false_ne_true, get_bind] at h
  obtain ⟨conflicts, w₁, hderef, hreturn⟩ := bind_eq_some.mp h
  obtain ⟨_, hfetch, hr⟩ := deref_eq_some.mp hderef
  obtain ⟨rfl, rfl⟩ := Prod.mk.inj hr
  obtain ⟨hzero, -⟩ := Prod.mk.inj (pure_eq_some.mp hreturn)
  split at hzero
  · rename_i hnil
    rw [hfetch, hnil]
  · exact absurd hzero (by decide)

/-- Nothing is written but fields of the packages `i` and `oldPkg` that do not say what they are. -/
structure OnlyTouches (i : PkgId) (oldPkg : Option PkgId) (w w' : World) : Prop where
  same : SameMajor w w'
  others : ∀ q, q ≠ i → oldPkg ≠ some q → w'.db.pkg q = w.db.pkg q

theorem OnlyTouches.trans {i : PkgId} {oldPkg : Option PkgId} {w w' w'' : World}
    (h : OnlyTouches i oldPkg w w') (h' : OnlyTouches i oldPkg w' w'') :
    OnlyTouches i oldPkg w w'' :=
  ⟨h.same.trans h'.same, fun q hi hold => (h'.others q hi hold).trans (h.others q hi hold)⟩

theorem onlyTouches_frame (i : PkgId) (oldPkg : Option PkgId) : Frame (OnlyTouches i oldPkg) :=
  ⟨fun w => ⟨SameMajor.refl w, fun _ _ _ => rfl⟩, OnlyTouches.trans⟩

theorem onlyTouches_of_modifyPkg {i : PkgId} {oldPkg : Option PkgId} {k : PkgId} {f : Pkg → Pkg}
    {w w' : World} (h : modifyPkg k f w = some (⟨⟩, w')) (hk : k = i ∨ oldPkg = some k)
    (hf : ∀ p, (f p).major = p.major) : OnlyTouches i oldPkg w w' := by
  obtain ⟨-, rfl⟩ := Prod.mk.inj (modifyPkg_eq_some.mp h)
  refine ⟨SameMajor.setPkg (hf _), fun q hi hold => ?_⟩
  have hqk : q ≠ k := by
    rintro rfl
    exact hk.elim hi hold
  exact Database.setPkg_pkg_of_ne _ _ hqk

theorem keeps_opkgInstallCheckDowngrade_onlyTouches (i : PkgId) (oldPkg : Option PkgId) :
    Keeps (OnlyTouches i oldPkg) (opkgInstallCheckDowngrade env i oldPkg) := by
  have hR := onlyTouches_frame i oldPkg
  unfold opkgInstallCheckDowngrade
  refine Keeps.bind hR (keeps_getPkg hR i) fun pkg => ?_
  split
  · rename_i old
    refine Keeps.bind hR (keeps_getPkg hR old) fun old => ?_
    extract_lets cmp rest
    have hrest : ∀ u, Keeps (OnlyTouches i (some _)) (rest u) := fun u =>
      Keeps.ite (Keeps.bind hR (fun _ _ _ h => onlyTouches_of_modifyPkg h (.inl rfl) fun _ => rfl)
        fun _ => Keeps.pure hR _) (Keeps.pure hR _)
    exact Keeps.ite (Keeps.bind hR (Keeps.deref hR _) fun _ => hrest ⟨⟩) (hrest ⟨⟩)
  · exact Keeps.ite (Keeps.bind hR (Keeps.deref hR _) fun _ => Keeps.pure hR _) (Keeps.pure hR _)

/-- The wishes: the package is wanted and the old one is not. -/
theorem onlyTouches_wishes {i : PkgId} {old : Option PkgId} {w w' : World}
    (h : (old.toList.forM fun old => modifyPkg old fun p => { p with stateWant := .deinstall }) w
      = some (⟨⟩, w')) : OnlyTouches i old w w' := by
  refine Keeps.forM (onlyTouches_frame i old) (fun k hk => ?_) _ _ _ h
  exact fun _ _ _ h => onlyTouches_of_modifyPkg h (.inr (Option.mem_toList.mp hk)) fun _ => rfl

/-- **Where the point of no return is passed**, the check has passed, in a state that differs from
the one the call began in only in the package and the old one. -/
theorem untilPointOfNoReturn_checked {installPkg removePkg : PkgId → Run Int} {i : PkgId}
    {oldPkg : Option PkgId} {w w' : World} (hforce : env.forceDepends = false)
    (h : untilPointOfNoReturn env installPkg removePkg i w = some (.go oldPkg, w')) :
    ∃ w₁, OnlyTouches i oldPkg w w₁ ∧
      pkgHashFetchConflicts w₁.db (w₁.db.pkg i) = some [] := by
  obtain ⟨w₀, hbefore, -⟩ := untilPointOfNoReturn_inv h
  obtain ⟨w₁, hownership, -⟩ := beforeDependencies_inv hbefore
  obtain ⟨w₂, w₃, hdest, hdowngrade, hprepare⟩ := beforeOwnership_inv hownership
  obtain ⟨hold, w₄, w₅, w₆, -, -, hwant, hwishes, hcheck, -⟩ := preparePkg_inv hprepare
  rw [← hold] at hdowngrade hwishes
  have h₂ : OnlyTouches i oldPkg w w₂ :=
    onlyTouches_of_modifyPkg hdest (.inl rfl) fun _ => rfl
  have h₃ : OnlyTouches i oldPkg w w₃ :=
    h₂.trans (keeps_opkgInstallCheckDowngrade_onlyTouches i oldPkg _ _ _ hdowngrade)
  have h₄ : OnlyTouches i oldPkg w w₄ :=
    h₃.trans (onlyTouches_of_modifyPkg hwant (.inl rfl) fun _ => rfl)
  exact ⟨w₅, h₄.trans (onlyTouches_wishes hwishes), checkConflictsFor_eq_zero hforce hcheck⟩

/-- **The conflicts of the package itself**: where the point of no return is passed, it declares none
with a package that was installed when the call began, was not passed over, and is not the old one. -/
theorem declaresConflict_of_passed {installPkg removePkg : PkgId → Run Int} {i q : PkgId}
    {oldPkg : Option PkgId} {w w' : World} (hforce : env.forceDepends = false)
    (hplaced : WellPlaced w.db) (hnamed : NamedAsFiled w.db)
    (h : untilPointOfNoReturn env installPkg removePkg i w = some (.go oldPkg, w'))
    (hover : w.passesOver i = false) (hi : i ∈ w.available) (hq : q ∈ w.available) (hqi : q ≠ i)
    (hold : oldPkg ≠ some q) (hinstalled : (w.db.pkg q).isInstalled = true) :
    (w.db.pkg i).declaresConflict (w.db.pkg q) = false := by
  obtain ⟨w₁, htouches, hcheck⟩ := untilPointOfNoReturn_checked hforce h
  have hpkg : w₁.db.pkg q = w.db.pkg q := htouches.others q hqi hold
  have hsame : (w₁.db.pkg i).declaresConflict (w₁.db.pkg q)
      = (w.db.pkg i).declaresConflict (w.db.pkg q) := by
    rw [← declaresConflict_major, htouches.same.pkg, htouches.same.pkg, declaresConflict_major]
  -- an unpacked package is looked at only if it is wanted
  by_cases hstate : (w.db.pkg q).stateStatus = .installed ∨ (w.db.pkg q).stateWant = .install
  · obtain ⟨a, -, hfiled⟩ := List.mem_flatMap.mp hq
    obtain ⟨b, -, hfiledi⟩ := List.mem_flatMap.mp hi
    have hparent : (w₁.db.pkg i).parent ≠ none := by
      rw [← parent_major, htouches.same.pkg, parent_major, hplaced.parent b i hfiledi]
      exact Option.some_ne_none b
    have hname : q ∈ w₁.db.filed (w₁.db.pkg q).name := by
      rw [hpkg, hnamed a q hfiled]
      simpa [Database.filed, htouches.same.abstractPkg] using hfiled
    rw [← hpkg] at hstate
    rw [← hsame]
    exact pkgHashFetchConflicts_nil hparent hcheck hname hstate
  · rw [World.passesOver, List.any_eq_false] at hover
    have hunpacked : (w.db.pkg q).stateStatus = .unpacked := by
      rw [not_or] at hstate
      simpa [Pkg.isInstalled, hstate.1] using hinstalled
    rw [not_or] at hstate
    have hpassed := hover q hq
    rw [← (untilPointOfNoReturn_go h).1] at hpassed
    simpa [hqi, hold, hunpacked, hstate.2] using hpassed

/-! ## What a call keeps -/

/-- What a package is, its status left out. -/
def Pkg.withoutStatus (p : Pkg) : Pkg := p.major.withStatus .notInstalled

theorem declaresConflict_withoutStatus (p q : Pkg) :
    p.withoutStatus.declaresConflict q.withoutStatus = p.declaresConflict q := rfl

/-- The packages are filed as before and are what they were; if none conflict, none conflict
afterwards; and the packages `pending` declare no conflict with what is newly installed. -/
structure KeepsApart (pending : List PkgId) (w w' : World) : Prop where
  names : w'.names = w.names
  filed : ∀ a, w'.db.filed a = w.db.filed a
  pkg : ∀ i, (w'.db.pkg i).withoutStatus = (w.db.pkg i).withoutStatus
  free : WellPlaced w.db → NamedAsFiled w.db → ConflictFree w → ConflictFree w'
  new : ∀ p ∈ pending, ∀ k, (w'.db.pkg k).isInstalled = true →
    (w.db.pkg k).isInstalled = true ∨ k = p ∨ (w.db.pkg p).declaresConflict (w.db.pkg k) = false

theorem declaresConflict_congr {w w' : World}
    (h : ∀ i, (w'.db.pkg i).withoutStatus = (w.db.pkg i).withoutStatus) (p q : PkgId) :
    (w'.db.pkg p).declaresConflict (w'.db.pkg q) = (w.db.pkg p).declaresConflict (w.db.pkg q) := by
  rw [← declaresConflict_withoutStatus, h, h, declaresConflict_withoutStatus]

theorem available_congr {w w' : World} (hnames : w'.names = w.names)
    (hfiled : ∀ a, w'.db.filed a = w.db.filed a) : w'.available = w.available := by
  have h : w'.db.filed = w.db.filed := funext hfiled
  rw [World.available, World.available, pkgHashFetchAvailable, pkgHashFetchAvailable, hnames, h]

theorem wellPlaced_congr {w w' : World} (hfiled : ∀ a, w'.db.filed a = w.db.filed a)
    (hpkg : ∀ i, (w'.db.pkg i).withoutStatus = (w.db.pkg i).withoutStatus)
    (h : WellPlaced w.db) : WellPlaced w'.db where
  nodup a := by
    rw [hfiled]
    exact h.nodup a
  parent a i hi := by
    rw [hfiled] at hi
    change (w'.db.pkg i).withoutStatus.parent = some a
    rw [hpkg]
    exact h.parent a i hi

theorem name_congr {w w' : World}
    (h : ∀ i, (w'.db.pkg i).withoutStatus = (w.db.pkg i).withoutStatus) (i : PkgId) :
    (w'.db.pkg i).name = (w.db.pkg i).name := by
  change (w'.db.pkg i).withoutStatus.name = (w.db.pkg i).name
  rw [h]
  rfl

theorem KeepsApart.trans {pending : List PkgId} {w w' w'' : World} (h : KeepsApart pending w w')
    (h' : KeepsApart pending w' w'') : KeepsApart pending w w'' where
  names := h'.names.trans h.names
  filed a := (h'.filed a).trans (h.filed a)
  pkg i := (h'.pkg i).trans (h.pkg i)
  free hplaced hnamed hfree :=
    h'.free (wellPlaced_congr h.filed h.pkg hplaced)
      (namedAsFiled_congr h.filed (name_congr h.pkg) hnamed) (h.free hplaced hnamed hfree)
  new p hp k hk := by
    rcases h'.new p hp k hk with hk' | hkp | hapart
    · exact h.new p hp k hk'
    · exact .inr (.inl hkp)
    · rw [declaresConflict_congr h.pkg] at hapart
      exact .inr (.inr hapart)

/-- Fewer pending packages ask for less. -/
theorem KeepsApart.mono {pending : List PkgId} {i : PkgId} {w w' : World}
    (h : KeepsApart (i :: pending) w w') : KeepsApart pending w w' :=
  ⟨h.names, h.filed, h.pkg, h.free, fun p hp => h.new p (List.mem_cons_of_mem _ hp)⟩

theorem OnlyUninstalls.keepsApart {w w' : World} (h : OnlyUninstalls w w')
    (pending : List PkgId) : KeepsApart pending w w' := by
  have hpkg : ∀ i, (w'.db.pkg i).withoutStatus = (w.db.pkg i).withoutStatus := by
    intro i
    rcases h.pkg i with hi | hi <;>
    · rw [Pkg.withoutStatus, hi]
      rfl
  refine ⟨h.names, h.filed, hpkg, fun _ _ hfree p hp q hq hpq hip hiq => ?_, fun _ _ k hk =>
    .inl (h.isInstalled hk)⟩
  rw [available_congr h.names h.filed] at hp hq
  rw [declaresConflict_congr hpkg]
  exact hfree p hp q hq hpq (h.isInstalled hip) (h.isInstalled hiq)

theorem keepsApart_allowsAll (pending : List PkgId) : AllowsAll (KeepsApart pending) :=
  AllowsAll.of_sameMajor
    ⟨fun w => (SameMajor.refl w).onlyUninstalls.keepsApart pending, KeepsApart.trans⟩
    fun _ _ h => h.onlyUninstalls.keepsApart pending

theorem Finished.withoutStatus {i : PkgId} {oldPkg : Option PkgId} {w w' : World}
    (h : Finished i oldPkg w w') (k : PkgId) :
    (w'.db.pkg k).withoutStatus = (w.db.pkg k).withoutStatus := by
  rw [Pkg.withoutStatus, h.pkg]
  rfl

/-- **The end of an installation** that others declare no conflict with, and for which the check has
passed over nothing. -/
theorem keepsApart_finished {installPkg removePkg : PkgId → Run Int} {pending : List PkgId}
    {i : PkgId} {oldPkg : Option PkgId} {w w₁ w₂ w' : World} (hforce : env.forceDepends = false)
    (huntil : untilPointOfNoReturn env installPkg removePkg i w = some (.go oldPkg, w₁))
    (h₁ : KeepsApart (i :: pending) w w₁) (h₂ : SameMajor w₁ w₂)
    (hover : w.passesOver i = false) (hopposes : w₁.opposes pending i oldPkg = false)
    (hfinished : Finished i oldPkg w₂ w') : KeepsApart pending w w' := by
  have h : KeepsApart (i :: pending) w w₂ := h₁.trans (h₂.onlyUninstalls.keepsApart _)
  have hnames : w'.names = w.names := hfinished.names.trans h.names
  have hfiled : ∀ a, w'.db.filed a = w.db.filed a := fun a =>
    (hfinished.filed a).trans (h.filed a)
  have hpkg : ∀ k, (w'.db.pkg k).withoutStatus = (w.db.pkg k).withoutStatus := fun k =>
    (hfinished.withoutStatus k).trans (h.pkg k)
  rw [World.opposes, Bool.or_eq_false_iff, List.any_eq_false, List.any_eq_false] at hopposes
  obtain ⟨hinstalled, hpending⟩ := hopposes
  refine ⟨hnames, hfiled, hpkg, fun hplaced hnamed hfree p hp q hq hpq hip hiq => ?_,
    fun p hp k hk => ?_⟩
  · rw [declaresConflict_congr hpkg]
    rw [available_congr hnames hfiled] at hp hq
    have hp₂ : p ∈ w₂.available := by rwa [available_congr h.names h.filed]
    have hq₂ : q ∈ w₂.available := by rwa [available_congr h.names h.filed]
    rcases hfinished.isInstalled hip with rfl | ⟨hpold, hp₁⟩
    · -- the conflicts of the package itself
      rcases hfinished.isInstalled hiq with rfl | ⟨hqold, hq₁⟩
      · exact absurd rfl hpq
      · rcases h.new p List.mem_cons_self q hq₁ with hq₀ | rfl | hapart
        · exact declaresConflict_of_passed hforce hplaced hnamed huntil hover hp hq hpq.symm hqold
            hq₀
        · exact absurd rfl hpq
        · exact hapart
    · rcases hfinished.isInstalled hiq with rfl | ⟨hqold, hq₁⟩
      · -- the conflicts others declare with it
        have hnone := hinstalled p (by rwa [available_congr h₁.names h₁.filed])
        rw [declaresConflict_congr h₁.pkg, ← h₂.isInstalled] at hnone
        simpa [hpq, hpold, hp₁] using hnone
      · rw [← declaresConflict_congr h.pkg]
        exact h.free hplaced hnamed hfree p hp₂ q hq₂ hpq hp₁ hq₁
  · rcases hfinished.isInstalled hk with rfl | ⟨-, hk₂⟩
    · by_cases hkp : k = p
      · exact .inr (.inl hkp)
      · have hnone := hpending p hp
        rw [declaresConflict_congr h₁.pkg] at hnone
        have hpk : p ≠ k := Ne.symm hkp
        exact .inr (.inr (by simpa [hpk] using hnone))
    · exact h.new p (List.mem_cons_of_mem _ hp) k hk₂

/-- **A call that is not opposed**, with all the calls nested in it. -/
theorem opkgInstallPkgUnopposed_keepsApart (hforce : env.forceDepends = false) (fuel : Nat)
    (pending : List PkgId) (i : PkgId) :
    Keeps (KeepsApart pending) (opkgInstallPkgUnopposed env fuel pending i) := by
  induction fuel generalizing pending i with
  | zero => exact Keeps.stop
  | succ fuel ih =>
      have hall := keepsApart_allowsAll (i :: pending)
      have huntil : Keeps (KeepsApart (i :: pending)) (untilPointOfNoReturn env
          (opkgInstallPkgUnopposed env fuel (i :: pending))
          (fun i => opkgRemovePkg env fuel i false) i) :=
        hall.untilPointOfNoReturn i (ih (i :: pending)) fun j =>
          (opkgRemovePkg_onlyUninstalls fuel j false).mono fun _ _ h => h.keepsApart _
      intro w rc w' h
      unfold opkgInstallPkgUnopposed at h
      rw [get_bind] at h
      split at h
      · exact absurd h stop_ne_some
      · rename_i hover
        obtain ⟨progressed, w₁, hprogressed, hrest⟩ := bind_eq_some.mp h
        have h₁ := huntil _ _ _ hprogressed
        cases progressed with
        | done rc =>
            obtain ⟨-, rfl⟩ := Prod.mk.inj (pure_eq_some.mp hrest)
            exact h₁.mono
        | go oldPkg =>
            dsimp only at hrest
            rw [get_bind] at hrest
            split at hrest
            · exact absurd hrest stop_ne_some
            · rename_i hopposes
              rcases sameMajor_allowsAll.behindPointOfNoReturn hrest with
                ⟨-, h₂⟩ | ⟨w₂, -, h₂, hfinish⟩
              · exact (h₁.trans (h₂.onlyUninstalls.keepsApart _)).mono
              · exact keepsApart_finished hforce hprogressed h₁ h₂ (Bool.not_eq_true _ ▸ hover)
                  (Bool.not_eq_true _ ▸ hopposes) (finishInstall_spec hfinish)

/-- **The installed packages stay free of conflicts**: in every run of calls of `opkg_install_pkg`
without `--force-depends` in which the check passes over nothing and no package is installed that
others declare a conflict with, no two distinct installed packages ever conflict. -/
theorem conflictFree_along (hforce : env.forceDepends = false)
    {tr : List (World × Nat × PkgId)} {w w' : World} (hrun : Trace (InstallCall env) w tr w')
    (hplaced : WellPlaced w.db) (hnamed : NamedAsFiled w.db) (hfree : ConflictFree w)
    (hguard : ∀ x ∈ tr, Unopposed env x.1 x.2) : Trace.Along ConflictFree tr w' := by
  have halong : Trace.Along (fun w => WellPlaced w.db ∧ NamedAsFiled w.db ∧ ConflictFree w) tr
      w' := by
    refine hrun.invariant_of_guard ⟨hplaced, hnamed, hfree⟩ (fun w call w' hw hstep hcall => ?_)
      hguard
    obtain ⟨rc, hreturns⟩ := hstep
    obtain ⟨⟨rc', w''⟩, hunopposed⟩ := Option.isSome_iff_exists.mp hcall
    -- the guarded call ends in the same state
    have hsame := opkgInstallPkg_extends_unopposed _ _ _ _ _ hunopposed
    rw [hreturns, Option.some.injEq, Prod.mk.injEq] at hsame
    obtain ⟨rfl, rfl⟩ := hsame
    have h := opkgInstallPkgUnopposed_keepsApart hforce _ _ _ _ _ _ hunopposed
    exact ⟨wellPlaced_congr h.filed h.pkg hw.1,
      namedAsFiled_congr h.filed (name_congr h.pkg) hw.2.1, h.free hw.1 hw.2.1 hw.2.2⟩
  exact ⟨fun x hx => (halong.1 x hx).2.2, halong.2.2.2⟩

/-! ## A package that conflicts with what it depends on -/

/-- The package `name` in the file `name.ipk`, with its `Depends` and `Conflicts` fields. -/
def peerStanza (name : CStr) (depends conflicts : List CStr) : ParsedPkg :=
  ⟨{ parseVersion pkgNew "1".toList with
      name, architecture := some "all".toList, archPriority := 1
      dependsStr := depends, dependsCount := depends.length
      conflictsStr := conflicts, conflictsCount := conflicts.length
      localFilename := some (name ++ ".ipk".toList) },
    ⟨rfl, rfl, rfl, rfl, rfl, rfl, rfl, rfl, rfl, rfl, rfl, rfl⟩⟩

/-- The package `p`, which has something to do with `q`, is filed, then `q`. -/
def peerFirst (depends : List CStr) : Insertion :=
  ⟨0, peerStanza "p".toList depends ["q".toList], false⟩

def peerSecond : Insertion := ⟨1, peerStanza "q".toList [] [], false⟩

/-- The database after that. -/
def peerDatabase (depends : List CStr) : Database :=
  peerSecond.run ((peerFirst depends).run emptyDatabase)

/-- Both package files are there, and nothing else. -/
def peerWorld (depends : List CStr) : World where
  db := peerDatabase depends
  names := ["p".toList, "q".toList]
  marks _ := 0
  fileHash := []
  obsFileHash := []
  disk := { files := fun path =>
    if path = "p.ipk".toList ∨ path = "q.ipk".toList then some (.file []) else none, asked := 0 }

theorem peer_trace {depends : List CStr}
    (hfirst : (hashInsertPkg (emptyDatabase.setPkg 0 (peerFirst depends).pkg) 0 false).isSome)
    (hsecond : (hashInsertPkg (((peerFirst depends).run emptyDatabase).setPkg 1 peerSecond.pkg) 1
      false).isSome) :
    Trace InsertStep emptyDatabase
      [(emptyDatabase, peerFirst depends), ((peerFirst depends).run emptyDatabase, peerSecond)]
      (peerDatabase depends) := by
  have htrace : Trace InsertStep emptyDatabase [(emptyDatabase, peerFirst depends)]
      ((peerFirst depends).run emptyDatabase) :=
    trace_append (.nil _) (fun _ h => absurd h List.not_mem_nil) hfirst
  refine trace_append htrace (fun x hx => ?_) hsecond
  rw [List.mem_singleton.mp hx]
  exact show (0 : Nat) ≠ 1 by decide

/-- Installing `p`, which depends on `q` and conflicts with it, ends with both installed. -/
theorem not_conflictFree_nested :
    ¬ ∀ env fuel i w w', env.forceDepends = false → WellPlaced w.db → NamedAsFiled w.db →
      ConflictFree w → opkgInstallPkg env fuel i w = some (0, w') → ConflictFree w' := by
  intro h
  have htrace := @peer_trace ["q".toList] (by decide) (by decide)
  have hfree : ConflictFree (peerWorld ["q".toList]) := by decide
  have hrun : (opkgInstallPkg (plainEnv []) 2 0 (peerWorld ["q".toList])).map (fun r =>
      (r.1, r.2.available, (r.2.db.pkg 0).isInstalled, (r.2.db.pkg 1).isInstalled,
        (r.2.db.pkg 0).declaresConflict (r.2.db.pkg 1))) = some (0, [0, 1], true, true, true) := by
    decide +kernel
  obtain ⟨⟨rc, w'⟩, hreturns, hstate⟩ := Option.map_eq_some_iff.mp hrun
  simp only [Prod.mk.injEq] at hstate
  obtain ⟨rfl, havailable, hfirst, hsecond, hconflict⟩ := hstate
  have hapart := h (plainEnv []) 2 0 (peerWorld ["q".toList]) w' rfl
    (hashInsertPkg_wellPlaced htrace).2 (namedAsFiled_of_trace htrace) hfree hreturns 0
    (by rw [havailable]; decide) 1 (by rw [havailable]; decide) (show (0 : Nat) ≠ 1 by decide)
    hfirst hsecond
  rw [hconflict] at hapart
  exact absurd hapart (by decide)

/-- Installing `p` without that dependency comes to its end. -/
theorem peerWorld_returns : (opkgInstallPkg (plainEnv []) 1 0 (peerWorld [])).isSome := by
  decide +kernel

/-- A call that comes to its end. -/
theorem installCall_get {fuel : Nat} {i : PkgId} {w : World}
    (h : (opkgInstallPkg env fuel i w).isSome) :
    InstallCall env w (fuel, i) ((opkgInstallPkg env fuel i w).get h).2 :=
  ⟨_, (Option.some_get h).symm⟩

theorem conflictFree_along_alone :
    Trace.Along ConflictFree [(peerWorld [], 1, 0)]
      ((opkgInstallPkg (plainEnv []) 1 0 (peerWorld [])).get peerWorld_returns).2 := by
  have htrace := @peer_trace [] (by decide) (by decide)
  have hfree : ConflictFree (peerWorld []) := by decide
  have hcall : InstallCall (plainEnv []) (peerWorld []) (1, 0)
      ((opkgInstallPkg (plainEnv []) 1 0 (peerWorld [])).get peerWorld_returns).2 :=
    installCall_get peerWorld_returns
  refine conflictFree_along rfl (.cons hcall (.nil _)) (hashInsertPkg_wellPlaced htrace).2
    (namedAsFiled_of_trace htrace) hfree ?_
  rw [List.forall_mem_singleton]
  exact show (opkgInstallPkgUnopposed (plainEnv []) 1 [] 0 (peerWorld [])).isSome by decide +kernel

end FirmwareTools.Opkg

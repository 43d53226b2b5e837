import FirmwareTools.Opkg.Duplicates
import FirmwareTools.Opkg.InstallCmd
import FirmwareTools.Opkg.Nested
import FirmwareTools.Opkg.Statuses

/-! # One installed version of each name

`opkg_install_pkg` looks up the installed package of its name at the beginning and marks it as not
installed at the end. What a nested call has installed under the same name in between is not looked
for again.

* **`oneInstalled_along`** — no name ever has two installed packages if no nested call installs
  another package of the name of one that is being installed;
* **`not_oneInstalled_nested`** — a package file that depends on another version of itself. -/

namespace FirmwareTools.Opkg

open Op

/-- Each name has at most one installed package. -/
def OneInstalled (db : Database) : Prop :=
  ∀ a, ∀ i ∈ db.filed a, ∀ j ∈ db.filed a,
    (db.pkg i).isInstalled = true → (db.pkg j).isInstalled = true → i = j

variable (env : Env)

/-- `opkg_install_pkg` within the installations of the packages `pending`. It does not go past the
point of no return if one of them is another package of the same name. -/
def opkgInstallPkgWithin : Nat → List PkgId → PkgId → Run Int
  | 0, _, _ => Op.stop
  | fuel + 1, pending, i => do
    match ← untilPointOfNoReturn env (opkgInstallPkgWithin fuel (i :: pending))
        (fun i => opkgRemovePkg env fuel i false) i with
    | .done rc => return rc
    | .go oldPkg =>
      let db := (← get).db
      if pending.any fun p => p != i && (db.pkg p).name == (db.pkg i).name then Op.stop
      else behindPointOfNoReturn env i oldPkg

/-- A call of `opkg_install_pkg` that returns: how deep its recursion may go, and for which
package. -/
def InstallCall (w : World) (call : Nat × PkgId) (w' : World) : Prop :=
  ∃ rc, opkgInstallPkg env call.1 call.2 w = some (rc, w')

/-- No nested call of a call goes past the point of no return for another package of the name of one
that is being installed. -/
def NoOtherVersion (w : World) (call : Nat × PkgId) : Prop :=
  (opkgInstallPkgWithin env call.1 [] call.2 w).isSome

variable {env}

/-- Where the check lets a call pass, it changes nothing. -/
theorem opkgInstallPkg_extends (fuel : Nat) (pending : List PkgId) (i : PkgId) :
    Extends (opkgInstallPkg env fuel i) (opkgInstallPkgWithin env fuel pending i) := by
  induction fuel generalizing pending i with
  | zero => exact Extends.refl _
  | succ fuel ih =>
      unfold opkgInstallPkg opkgInstallPkgWithin
      refine Extends.bind (untilPointOfNoReturn_extends (ih (i :: pending))
        (fun j => Extends.refl _) i) fun progressed => ?_
      cases progressed with
      | done rc => exact Extends.refl _
      | go oldPkg =>
          intro w r h
          dsimp only at h ⊢
          rw [get_bind] at h
          split at h
          · exact absurd h stop_ne_some
          · exact h

/-! ## What a guarded call keeps -/

/-- The packages are filed as before; one installed package a name stays one; and of the names of the
packages `pending` none is newly installed but these. -/
structure Guarded (pending : List PkgId) (w w' : World) : Prop where
  filed : ∀ a, w'.db.filed a = w.db.filed a
  name : ∀ i, (w'.db.pkg i).name = (w.db.pkg i).name
  one : NamedAsFiled w.db → OneInstalled w.db → OneInstalled w'.db
  new : ∀ p ∈ pending, ∀ k, (w.db.pkg k).name = (w.db.pkg p).name →
    (w'.db.pkg k).isInstalled = true → (w.db.pkg k).isInstalled = true ∨ k = p

theorem namedAsFiled_congr {db db' : Database} (hfiled : ∀ a, db'.filed a = db.filed a)
    (hname : ∀ i, (db'.pkg i).name = (db.pkg i).name) (h : NamedAsFiled db) : NamedAsFiled db' := by
  intro a i hi
  rw [hname]
  exact h a i (hfiled a ▸ hi)

theorem Guarded.trans {pending : List PkgId} {w w' w'' : World} (h : Guarded pending w w')
    (h' : Guarded pending w' w'') : Guarded pending w w'' where
  filed a := (h'.filed a).trans (h.filed a)
  name i := (h'.name i).trans (h.name i)
  one hnamed hone := h'.one (namedAsFiled_congr h.filed h.name hnamed) (h.one hnamed hone)
  new p hp k hk hinstalled := by
    rcases h'.new p hp k (by rw [h.name, h.name, hk]) hinstalled with hk' | rfl
    · exact h.new p hp k hk hk'
    · exact .inr rfl

/-- Fewer pending packages ask for less. -/
theorem Guarded.mono {pending : List PkgId} {i : PkgId} {w w' : World}
    (h : Guarded (i :: pending) w w') : Guarded pending w w' :=
  ⟨h.filed, h.name, h.one, fun p hp => h.new p (List.mem_cons_of_mem _ hp)⟩

theorem OnlyUninstalls.guarded {w w' : World} (h : OnlyUninstalls w w') (pending : List PkgId) :
    Guarded pending w w' where
  filed := h.filed
  name := h.name
  one _ hone a i hi j hj hi' hj' :=
    hone a i (h.filed a ▸ hi) j (h.filed a ▸ hj) (h.isInstalled hi') (h.isInstalled hj')
  new _ _ _ _ hk := .inl (h.isInstalled hk)

theorem guarded_allowsAll (pending : List PkgId) : AllowsAll (Guarded pending) :=
  AllowsAll.of_sameMajor
    ⟨fun w => (SameMajor.refl w).onlyUninstalls.guarded pending, Guarded.trans⟩
    fun _ _ h => h.onlyUninstalls.guarded pending

/-- An installed package of a name is found. -/
theorem installedByName_of_mem {db : Database} {a : AbstractPkgId} {k : PkgId}
    (hk : k ∈ db.filed a) (hinstalled : (db.pkg k).isInstalled = true) :
    ∃ o ∈ db.filed a, (db.pkg o).isInstalled = true ∧ db.installedByName a = some o := by
  rw [Database.installedByName, pkgVecFetchByName_of_mem hk]
  cases hfind : (db.filed a).find? fun i => (db.pkg i).isInstalled with
  | none => exact absurd hinstalled (List.find?_eq_none.mp hfind k hk)
  | some o =>
      have ho := List.find?_some hfind
      exact ⟨o, List.mem_of_find?_eq_some hfind, ho, rfl⟩

/-- **The end of an installation**: the package of its name that was installed when it began is
marked as not installed, and no other one has come. -/
theorem guarded_finished {pending : List PkgId} {i : PkgId} {oldPkg : Option PkgId}
    {w w₁ w' : World} (h : Guarded (i :: pending) w w₁)
    (hold : oldPkg = w.db.installedByName (w.db.pkg i).name)
    (hpending : ∀ p ∈ pending, (w.db.pkg i).name = (w.db.pkg p).name → i = p)
    (hfinished : Finished i oldPkg w₁ w') : Guarded pending w w' := by
  have hname : ∀ k, (w'.db.pkg k).name = (w.db.pkg k).name := by
    intro k
    change (w'.db.pkg k).major.name = _
    rw [hfinished.pkg, ← h.name]
    rfl
  have hfiled : ∀ a, w'.db.filed a = w.db.filed a := fun a =>
    (hfinished.filed a).trans (h.filed a)
  refine ⟨hfiled, hname, fun hnamed hone => ?_, fun p hp k hk hinstalled => ?_⟩
  · -- besides `i` nothing of its name is installed any more
    have hother : ∀ k, k ∈ w.db.filed (w.db.pkg i).name → (w'.db.pkg k).isInstalled = true →
        k = i := by
      intro k hk hinstalled
      rcases hfinished.isInstalled hinstalled with hki | ⟨hko, hk₁⟩
      · exact hki
      · rcases h.new i List.mem_cons_self k (hnamed _ k hk) hk₁ with hk₀ | hki
        · obtain ⟨o, ho, ho₀, hfound⟩ := installedByName_of_mem hk hk₀
          rw [hold, hfound, hone _ o ho k hk ho₀ hk₀] at hko
          exact absurd rfl hko
        · exact hki
    intro a j hj k hk hj' hk'
    rw [hfiled] at hj hk
    by_cases ha : a = (w.db.pkg i).name
    · subst ha
      rw [hother j hj hj', hother k hk hk']
    · have hne : ∀ k ∈ w.db.filed a, k ≠ i := by
        rintro k hk rfl
        exact ha (hnamed a k hk).symm
      rcases hfinished.isInstalled hj' with hji | ⟨-, hj₁⟩
      · exact absurd hji (hne j hj)
      · rcases hfinished.isInstalled hk' with hki | ⟨-, hk₁⟩
        · exact absurd hki (hne k hk)
        · rw [← h.filed] at hj hk
          exact h.one hnamed hone a j hj k hk hj₁ hk₁
  · rcases hfinished.isInstalled hinstalled with rfl | ⟨-, hk₁⟩
    · exact .inr (hpending p hp hk)
    · exact h.new p (List.mem_cons_of_mem _ hp) k hk hk₁

/-- **A guarded call**, with all the calls nested in it. -/
theorem opkgInstallPkgWithin_guarded (fuel : Nat) (pending : List PkgId) (i : PkgId) :
    Keeps (Guarded pending) (opkgInstallPkgWithin env fuel pending i) := by
  induction fuel generalizing pending i with
  | zero => exact Keeps.stop
  | succ fuel ih =>
      have hall := guarded_allowsAll (i :: pending)
      have huntil : Keeps (Guarded (i :: pending)) (untilPointOfNoReturn env
          (opkgInstallPkgWithin env fuel (i :: pending)) (fun i => opkgRemovePkg env fuel i false)
          i) :=
        hall.untilPointOfNoReturn i (ih (i :: pending)) fun j =>
          (opkgRemovePkg_onlyUninstalls fuel j false).mono fun _ _ h => h.guarded _
      intro w rc w' h
      unfold opkgInstallPkgWithin at h
      obtain ⟨progressed, w₁, hprogressed, hrest⟩ := bind_eq_some.mp h
      have h₁ := huntil _ _ _ hprogressed
      cases progressed with
      | done rc =>
          obtain ⟨-, rfl⟩ := Prod.mk.inj (pure_eq_some.mp hrest)
          exact h₁.mono
      | go oldPkg =>
          dsimp only at hrest
          rw [get_bind] at hrest
          split at hrest
          · exact absurd hrest stop_ne_some
          · rename_i hcheck
            rcases hall.behindPointOfNoReturn hrest with ⟨-, h₂⟩ | ⟨w₂, -, h₂, hfinish⟩
            · exact (h₁.trans h₂).mono
            · refine guarded_finished (h₁.trans h₂) (untilPointOfNoReturn_go hprogressed).1
                (fun p hp hname => ?_) (finishInstall_spec hfinish)
              rw [Bool.not_eq_true, List.any_eq_false] at hcheck
              have hp' := hcheck p hp
              simp only [h₁.name, hname, beq_self_eq_true, Bool.and_true, bne_iff_ne, ne_eq,
                not_not] at hp'
              exact hp'.symm

/-- **One installed version of each name**: in every run of calls of `opkg_install_pkg` in which no
nested call installs another package of the name of one that is being installed, no name ever has
two installed packages. -/
theorem oneInstalled_along {tr : List (World × Nat × PkgId)} {w w' : World}
    (hrun : Trace (InstallCall env) w tr w') (hnamed : NamedAsFiled w.db)
    (hone : OneInstalled w.db) (hguard : ∀ x ∈ tr, NoOtherVersion env x.1 x.2) :
    Trace.Along (fun w => OneInstalled w.db) tr w' := by
  have halong : Trace.Along (fun w => NamedAsFiled w.db ∧ OneInstalled w.db) tr w' := by
    refine hrun.invariant_of_guard ⟨hnamed, hone⟩ (fun w call w' hw hstep hcall => ?_) hguard
    obtain ⟨rc, hreturns⟩ := hstep
    obtain ⟨⟨rc', w''⟩, hwithin⟩ := Option.isSome_iff_exists.mp hcall
    -- the guarded call ends in the same state
    have hsame := opkgInstallPkg_extends _ _ _ _ _ hwithin
    rw [hreturns, Option.some.injEq, Prod.mk.injEq] at hsame
    obtain ⟨rfl, rfl⟩ := hsame
    have h := opkgInstallPkgWithin_guarded _ _ _ _ _ _ hwithin
    exact ⟨namedAsFiled_congr h.filed h.name hw.1, h.one hw.1 hw.2⟩
  exact ⟨fun x hx => (halong.1 x hx).2, halong.2.2⟩

/-! ## A package file that depends on another version of itself -/

/-- A package file of `foo`, with a `Depends` field. -/
def fooStanza (version file : CStr) (depends : List CStr) : ParsedPkg :=
  ⟨{ parseVersion pkgNew version with
      name := "foo".toList, architecture := some "all".toList, archPriority := 1
      dependsStr := depends, dependsCount := depends.length
      localFilename := some file },
    ⟨rfl, rfl, rfl, rfl, rfl, rfl, rfl, rfl, rfl, rfl, rfl, rfl⟩⟩

/-- The version 2.0 of `foo` is filed, then the version 3.0. -/
def fooFirst (depends : List CStr) : Insertion :=
  ⟨0, fooStanza "2.0".toList "a.ipk".toList depends, false⟩

def fooSecond : Insertion := ⟨1, fooStanza "3.0".toList "b.ipk".toList [], false⟩

/-- The database after that. -/
def fooDatabase (depends : List CStr) : Database :=
  fooSecond.run ((fooFirst depends).run emptyDatabase)

/-- The package files `a.ipk` and `b.ipk` are there, and nothing else. -/
def fooWorld (depends : List CStr) : World where
  db := fooDatabase depends
  names := ["foo".toList]
  marks _ := 0
  fileHash := []
  obsFileHash := []
  disk := { files := fun path =>
    if path = "a.ipk".toList ∨ path = "b.ipk".toList then some (.file []) else none, asked := 0 }

theorem foo_trace {depends : List CStr}
    (hfirst : (hashInsertPkg (emptyDatabase.setPkg 0 (fooFirst depends).pkg) 0 false).isSome)
    (hsecond : (hashInsertPkg (((fooFirst depends).run emptyDatabase).setPkg 1 fooSecond.pkg) 1
      false).isSome) :
    Trace InsertStep emptyDatabase
      [(emptyDatabase, fooFirst depends), ((fooFirst depends).run emptyDatabase, fooSecond)]
      (fooDatabase depends) := by
  have htrace : Trace InsertStep emptyDatabase [(emptyDatabase, fooFirst depends)]
      ((fooFirst depends).run emptyDatabase) :=
    trace_append (.nil _) (fun _ h => absurd h List.not_mem_nil) hfirst
  refine trace_append htrace (fun x hx => ?_) hsecond
  rw [List.mem_singleton.mp hx]
  exact show (0 : Nat) ≠ 1 by decide

/-- The packages are filed under their names, and none is installed. -/
theorem foo_start {depends : List CStr}
    (htrace : Trace InsertStep emptyDatabase
      [(emptyDatabase, fooFirst depends), ((fooFirst depends).run emptyDatabase, fooSecond)]
      (fooDatabase depends))
    (hnone : ((fooDatabase depends).pkg 0).isInstalled = false ∧
      ((fooDatabase depends).pkg 1).isInstalled = false) :
    NamedAsFiled (fooDatabase depends) ∧ OneInstalled (fooDatabase depends) := by
  have hfiled : ∀ {a k}, k ∈ (fooDatabase depends).filed a → k = 0 ∨ k = 1 := by
    intro a k hk
    by_contra hne
    rw [not_or] at hne
    refine fresh_of_trace htrace (fun x hx => ?_) a hk
    rcases List.mem_pair.mp hx with rfl | rfl
    · exact fun h => hne.1 h.symm
    · exact fun h => hne.2 h.symm
  refine ⟨namedAsFiled_of_trace htrace, fun a i hi j hj hi' _ => ?_⟩
  rcases hfiled hi with rfl | rfl
  · rw [hnone.1] at hi'
    exact absurd hi' (by decide)
  · rw [hnone.2] at hi'
    exact absurd hi' (by decide)

/-- Installing version 2.0, which depends on version 3.0, ends with both installed. -/
theorem not_oneInstalled_nested :
    ¬ ∀ env fuel i w w', NamedAsFiled w.db → OneInstalled w.db →
      opkgInstallPkg env fuel i w = some (0, w') → OneInstalled w'.db := by
  intro h
  obtain ⟨hnamed, hone⟩ := foo_start
    (@foo_trace ["foo (= 3.0)".toList] (by decide +kernel) (by decide +kernel)) (by decide +kernel)
  have hrun : (opkgInstallPkg (plainEnv []) 2 0 (fooWorld ["foo (= 3.0)".toList])).map (fun r =>
      (r.1, r.2.db.filed "foo".toList, (r.2.db.pkg 0).isInstalled, (r.2.db.pkg 1).isInstalled))
      = some (0, [0, 1], true, true) := by
    decide +kernel
  obtain ⟨⟨rc, w'⟩, hreturns, hstate⟩ := Option.map_eq_some_iff.mp hrun
  simp only [Prod.mk.injEq] at hstate
  obtain ⟨rfl, hfiled, hfirst, hsecond⟩ := hstate
  have hsame := h _ _ _ (fooWorld ["foo (= 3.0)".toList]) _ hnamed hone hreturns "foo".toList 0 (by rw [hfiled]; decide) 1
    (by rw [hfiled]; decide) hfirst hsecond
  exact absurd hsame (show (0 : Nat) ≠ 1 by decide)

/-- Installing version 2.0 without that dependency. -/
theorem fooWorld_returns :
    (opkgInstallPkg (plainEnv []) 1 0 (fooWorld [])).isSome := by
  decide +kernel

theorem oneInstalled_along_independent :
    Trace.Along (fun w => OneInstalled w.db) [(fooWorld [], 1, 0)]
      ((opkgInstallPkg (plainEnv []) 1 0 (fooWorld [])).get fooWorld_returns).2 := by
  obtain ⟨hnamed, hone⟩ := foo_start (@foo_trace [] (by decide +kernel) (by decide +kernel))
    (by decide +kernel)
  have hcall : InstallCall (plainEnv []) (fooWorld []) (1, 0)
      ((opkgInstallPkg (plainEnv []) 1 0 (fooWorld [])).get fooWorld_returns).2 :=
    ⟨_, (Option.some_get fooWorld_returns).symm⟩
  refine oneInstalled_along (.cons hcall (.nil _)) hnamed hone ?_
  rw [List.forall_mem_singleton]
  exact show (opkgInstallPkgWithin (plainEnv []) 1 [] 0 (fooWorld [])).isSome by decide +kernel

end FirmwareTools.Opkg

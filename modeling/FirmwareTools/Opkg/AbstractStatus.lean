import FirmwareTools.Opkg.Duplicates
import FirmwareTools.Opkg.Nested
import FirmwareTools.Opkg.ResolveSound
import FirmwareTools.Opkg.Statuses

/-! # The status of a name

The status is kept twice: with each package, and with the name for all its packages. The status of a
name is set when an installed record is filed, when a package is installed or configured and when one
is removed; nothing looks at the other packages of the name then.

* **`opkgRemovePkgAlone_keepsOrder`**, **`opkgInstallPkgAlone_keepsOrder`** — removing and installing keep
  the statuses in agreement, if no package is removed while another one of its name is installed;
* **`statusesAgree_step_iff`** — filing a record does exactly if no record that is not installed takes
  the place of the only installed one. -/

namespace FirmwareTools.Opkg

open Op

/-- The name is marked as installed or unpacked. -/
def AbstractPkg.isInstalled (ab : AbstractPkg) : Bool :=
  ab.stateStatus == .installed || ab.stateStatus == .unpacked

/-- A name is marked as installed if and only if one of its packages is. -/
def StatusesAgree (db : Database) : Prop :=
  ∀ a, (db.abstractPkg a).isInstalled = true ↔ ∃ k ∈ db.filed a, (db.pkg k).isInstalled = true

/-- The package is in the vector of a name. -/
def Database.Filed (db : Database) (i : PkgId) : Prop := ∃ a, i ∈ db.filed a

/-! ## Resolutions lead to filed packages -/

section Resolution

variable {q : Qsort} {db : Database}

theorem filed_of_mem_matchingPkgs {apkg : AbstractPkgId} {i : PkgId}
    (h : i ∈ matchingPkgs db apkg) : db.Filed i := by
  obtain ⟨provider, -, hi⟩ := mem_matchingPkgs h
  unfold providerPkgs at hi
  split at hi
  · rename_i replacement _
    split at hi
    · exact ⟨provider, hi⟩
    · split at hi
      · exact absurd hi List.not_mem_nil
      · exact ⟨replacement, hi⟩
  · exact ⟨provider, hi⟩

theorem filed_of_next {pkg next : PkgId} (h : Next q db pkg next) : db.Filed next := by
  obtain ⟨entry, -, ⟨-, hscout⟩ | ⟨-, -, -, hsatisfier⟩⟩ := h
  · simp only [greedyScouts, List.mem_flatMap] at hscout
    obtain ⟨_, _, provider, -, hnext⟩ := hscout
    exact ⟨provider, hnext⟩
  · obtain ⟨-, _, -, hmem, -⟩ := findSatisfier_eq_some hsatisfier
    exact filed_of_mem_matchingPkgs hmem

/-- A scouted package is taken or not. -/
theorem scoutPkg_unsatisfied {fetch : Marks → PkgId → List PkgId → Option Resolution}
    {r r' : Resolution} {k : PkgId} (h : scoutPkg db fetch r k = some r') :
    r'.unsatisfied = r.unsatisfied ∨ r'.unsatisfied = r.unsatisfied ++ [k] := by
  unfold scoutPkg at h
  split at h
  · exact .inl (Option.some.inj h ▸ rfl)
  · simp only [Option.bind_eq_bind, Option.bind_eq_some_iff] at h
    obtain ⟨parent, -, h⟩ := h
    split at h
    · exact .inl (Option.some.inj h ▸ rfl)
    · simp only [Option.bind_eq_some_iff] at h
      obtain ⟨present, -, h⟩ := h
      split at h
      · exact .inl (Option.some.inj h ▸ rfl)
      · simp only [Option.bind_eq_some_iff] at h
        obtain ⟨tmp, -, h⟩ := h
        split at h
        · exact .inr (Option.some.inj h ▸ rfl)
        · exact .inl (Option.some.inj h ▸ rfl)

/-- **Every package a resolution returns is filed.** -/
theorem fetch_filed {fuel : Nat} {marks : Marks} {pkg : PkgId} {vec : List PkgId} {r : Resolution}
    (h : pkgHashFetchUnsatisfiedDependencies q db fuel marks pkg vec = some r) :
    ∀ k ∈ r.unsatisfied, k ∈ vec ∨ db.Filed k := by
  induction fuel generalizing marks pkg vec r with
  | zero => exact absurd h (by simp [pkgHashFetchUnsatisfiedDependencies])
  | succ fuel ih =>
      unfold pkgHashFetchUnsatisfiedDependencies at h
      split at h
      · obtain rfl := Option.some.inj h
        exact fun k hk => .inl hk
      · split at h
        · obtain rfl := Option.some.inj h
          exact fun k hk => .inl hk
        · split at h
          · obtain rfl := Option.some.inj h
            exact fun k hk => .inl hk
          · simp only [Option.bind_eq_bind, Option.bind_eq_some_iff, Option.some.injEq] at h
            obtain ⟨r, hentries, rfl⟩ := h
            refine foldlM_invariant (P := fun _ r => ∀ k ∈ r.unsatisfied, k ∈ vec ∨ db.Filed k)
              hentries (fun k hk => .inl hk) fun _ entry r r' hentry hr hstep => ?_
            rcases resolveEntry_cases hentry hstep with ⟨-, hnext, hscouts⟩ | ⟨-, rfl, -⟩ |
              ⟨-, rfl, -⟩ | ⟨-, rfl⟩ | ⟨satisfier, -, -, ⟨rfl, -⟩ | ⟨hnext, new, hnew, rfl⟩⟩
            · refine foldlM_invariant (P := fun _ r => ∀ k ∈ r.unsatisfied, k ∈ vec ∨ db.Filed k)
                hscouts hr fun _ scout r r' hscout hr hstep k hk => ?_
              rcases scoutPkg_unsatisfied hstep with hsame | hmore
              · exact hr k (hsame ▸ hk)
              · rw [hmore, List.mem_append, List.mem_singleton] at hk
                rcases hk with hk | rfl
                · exact hr k hk
                · exact .inr (filed_of_next (hnext k hscout))
            · exact hr
            · exact hr
            · exact hr
            · exact hr
            · intro k hk
              rcases ih hnew k hk with hk | hk
              · rw [List.mem_append, List.mem_singleton] at hk
                rcases hk with hk | rfl
                · exact hr k hk
                · exact .inr (filed_of_next hnext)
              · exact .inr hk

end Resolution

/-! ## Orderly databases -/

/-- Every package is filed once, under its parent and its name, and the statuses agree. -/
structure Orderly (db : Database) : Prop where
  placed : WellPlaced db
  named : NamedAsFiled db
  agree : StatusesAgree db

/-- Everything an orderly database is about is the same in both. -/
structure SameOrder (db db' : Database) : Prop where
  filed : ∀ a, db'.filed a = db.filed a
  name : ∀ i, (db'.pkg i).name = (db.pkg i).name
  parent : ∀ i, (db'.pkg i).parent = (db.pkg i).parent

theorem SameOrder.orderly {db db' : Database} (h : SameOrder db db') (hdb : Orderly db)
    (hagree : StatusesAgree db') : Orderly db' where
  placed := ⟨fun a => h.filed a ▸ hdb.placed.nodup a, fun a i hi => by
    rw [h.parent]
    exact hdb.placed.parent a i (h.filed a ▸ hi)⟩
  named := fun a i hi => by
    rw [h.name]
    exact hdb.named a i (h.filed a ▸ hi)
  agree := hagree

/-- The statuses agree as before if nothing has become installed or ceased to be. -/
theorem SameOrder.agree {db db' : Database} (h : SameOrder db db')
    (hinstalled : ∀ i, (db'.pkg i).isInstalled = (db.pkg i).isInstalled)
    (habstract : ∀ a, (db'.abstractPkg a).isInstalled = (db.abstractPkg a).isInstalled)
    (hdb : StatusesAgree db) : StatusesAgree db' := by
  intro a
  simp only [h.filed, hinstalled, habstract]
  exact hdb a

theorem SameMajor.sameOrder {w w' : World} (h : SameMajor w w') : SameOrder w.db w'.db where
  filed := h.onlyUninstalls.filed
  name := h.onlyUninstalls.name
  parent i := by
    rw [← parent_major, h.pkg, parent_major]

/-- The packages stay filed as they are, and an orderly database stays orderly. -/
structure KeepsOrder (w w' : World) : Prop where
  filed : ∀ a, w'.db.filed a = w.db.filed a
  orderly : Orderly w.db → Orderly w'.db

theorem SameMajor.keepsOrder {w w' : World} (h : SameMajor w w') : KeepsOrder w w' where
  filed := h.sameOrder.filed
  orderly hdb := h.sameOrder.orderly hdb
    (h.sameOrder.agree h.isInstalled (fun a => by rw [h.abstractPkg]) hdb.agree)

theorem KeepsOrder.trans {w w' w'' : World} (h : KeepsOrder w w') (h' : KeepsOrder w' w'') :
    KeepsOrder w w'' :=
  ⟨fun a => (h'.filed a).trans (h.filed a), fun hdb => h'.orderly (h.orderly hdb)⟩

theorem keepsOrder_frame : Frame KeepsOrder :=
  ⟨fun w => (SameMajor.refl w).keepsOrder, KeepsOrder.trans⟩

theorem keepsOrder_allowsAll : AllowsAll KeepsOrder :=
  AllowsAll.of_sameMajor keepsOrder_frame fun _ _ h => h.keepsOrder

/-! ## Removing -/

/-- Another package of the name is installed. -/
def Database.otherInstalled (db : Database) (i : PkgId) : Bool :=
  match (db.pkg i).parent with
  | none => false
  | some a => (db.filed a).any fun k => k != i && (db.pkg k).isInstalled

section

variable (env : Env)

/-- `opkg_remove_pkg`, called for a package of whose name no other is installed. -/
def opkgRemovePkgAlone : Nat → PkgId → Bool → Run Int
  | 0, _, _ => Op.stop
  | fuel + 1, i, fromUpgrade => do
    if (← get).db.otherInstalled i then Op.stop
    else removePkgBody env (fun i => opkgRemovePkgAlone fuel i false) i fromUpgrade

end

variable {env : Env}

theorem otherInstalled_eq_false {db : Database} {i : PkgId} {a : AbstractPkgId}
    (hparent : (db.pkg i).parent = some a) :
    db.otherInstalled i = false ↔ ∀ k ∈ db.filed a, (db.pkg k).isInstalled = true → k = i := by
  rw [Database.otherInstalled, hparent]
  simp only [List.any_eq_false, Bool.and_eq_true, bne_iff_ne, ne_eq, not_and, Bool.not_eq_true]
  refine forall₂_congr fun k _ => ?_
  constructor
  · intro h hinstalled
    by_contra hne
    rw [h hne] at hinstalled
    exact absurd hinstalled (by decide)
  · intro h hne
    by_contra hinstalled
    exact hne (h (by simpa using hinstalled))

theorem OnlyUninstalls.parent {w w' : World} (h : OnlyUninstalls w w') (i : PkgId) :
    (w'.db.pkg i).parent = (w.db.pkg i).parent := by
  rw [← parent_major, ← parent_major (w.db.pkg i)]
  rcases h.pkg i with hpkg | hpkg <;> rw [hpkg]
  rfl

theorem OnlyUninstalls.sameOrder {w w' : World} (h : OnlyUninstalls w w') :
    SameOrder w.db w'.db :=
  ⟨h.filed, h.name, h.parent⟩

/-- Who is alone stays alone when only removals follow. -/
theorem OnlyUninstalls.otherInstalled {w w' : World} (h : OnlyUninstalls w w') {i : PkgId}
    (hi : w.db.otherInstalled i = false) : w'.db.otherInstalled i = false := by
  cases hparent : (w.db.pkg i).parent with
  | none => rw [Database.otherInstalled, h.parent, hparent]
  | some a =>
      rw [otherInstalled_eq_false hparent] at hi
      rw [otherInstalled_eq_false ((h.parent i).trans hparent)]
      exact fun k hk hinstalled => hi k (h.filed a ▸ hk) (h.isInstalled hinstalled)

/-- **Marking a package and its name as not installed** when no other package of it is. -/
theorem orderly_uninstall {w : World} {i : PkgId} {a : AbstractPkgId} (hdb : Orderly w.db)
    (hparent : (w.db.pkg i).parent = some a) (halone : w.db.otherInstalled i = false) :
    Orderly (w.uninstall i a).db := by
  have hun := onlyUninstalls_uninstall w i a
  refine hun.sameOrder.orderly hdb fun b => ?_
  rw [otherInstalled_eq_false hparent] at halone
  by_cases hb : b = a
  · subst hb
    rw [uninstall_abstractPkg_self]
    refine iff_of_false (by simp [AbstractPkg.isInstalled, AbstractPkg.withStatus]) ?_
    rintro ⟨k, hk, hinstalled⟩
    have hki : k = i := halone k (hun.filed b ▸ hk) (hun.isInstalled hinstalled)
    rw [hki, uninstall_pkg_self] at hinstalled
    exact absurd hinstalled (by simp [Pkg.isInstalled, Pkg.withStatus])
  · rw [uninstall_abstractPkg_of_ne w i hb, hdb.agree b, hun.filed]
    refine exists_congr fun k => and_congr_right fun hk => ?_
    have hki : k ≠ i := by
      rintro rfl
      rw [hdb.placed.parent b k hk] at hparent
      exact hb (Option.some.inj hparent)
    rw [uninstall_pkg_of_ne w a hki]

/-- **A removal keeps the database orderly**, if every call in it finds its package alone. -/
theorem opkgRemovePkgAlone_keepsOrder (fuel : Nat) (i : PkgId) (fromUpgrade : Bool) :
    Keeps (fun w w' => OnlyUninstalls w w' ∧ KeepsOrder w w')
      (opkgRemovePkgAlone env fuel i fromUpgrade) := by
  have hR : Frame fun w w' => OnlyUninstalls w w' ∧ KeepsOrder w w' :=
    ⟨fun w => ⟨onlyUninstalls_frame.refl w, keepsOrder_frame.refl w⟩,
      fun h h' => ⟨h.1.trans h'.1, h.2.trans h'.2⟩⟩
  have hsameMajor : ∀ {w w'}, SameMajor w w' → OnlyUninstalls w w' ∧ KeepsOrder w w' :=
    fun h => ⟨h.onlyUninstalls, h.keepsOrder⟩
  induction fuel generalizing i fromUpgrade with
  | zero => exact Keeps.stop
  | succ fuel ih =>
      intro w rc w' hrun
      unfold opkgRemovePkgAlone at hrun
      rw [get_bind] at hrun
      split at hrun
      · exact absurd hrun stop_ne_some
      · rename_i halone
        rw [Bool.not_eq_true] at halone
        rcases removePkgBody_cases hrun with rfl | ⟨parent, err, w₁, hparent, hdependents, hcase⟩
        · exact hR.refl _
        · have h₁ : OnlyUninstalls w w₁ ∧ KeepsOrder w w₁ := by
            rcases removeDependents_cases hdependents with ⟨rfl, -⟩ | ⟨n, dependents, -, hcase⟩
            · exact hR.refl _
            · rcases hcase with ⟨rfl, -⟩ | ⟨-, -, ⟨rfl, -⟩ | ⟨w₀, pkgs, hsame, -, hpkgs⟩⟩
              · exact hR.refl _
              · exact hR.refl _
              · exact hR.trans (hsameMajor hsame)
                  (keeps_removePkgs hR (fun j => ih j false) pkgs _ _ _ hpkgs)
          rcases hcase with ⟨-, rfl⟩ | ⟨-, hfiles⟩
          · exact h₁
          · rcases removePkgFiles_cases hfiles with hsame | ⟨w₂, hsame, hlast⟩
            · exact hR.trans h₁ (hsameMajor hsame)
            · have h₂ := hR.trans h₁ (hsameMajor hsame)
              have hun : OnlyUninstalls w₂ (w₂.uninstall i parent) ∧
                  (Orderly w.db → Orderly (w₂.uninstall i parent).db) :=
                ⟨onlyUninstalls_uninstall w₂ i parent, fun hdb =>
                  orderly_uninstall (h₂.2.orderly hdb) ((h₂.1.parent i).trans hparent)
                    (h₂.1.otherInstalled halone)⟩
              have h₃ : OnlyUninstalls w (w₂.uninstall i parent) ∧
                  KeepsOrder w (w₂.uninstall i parent) :=
                ⟨h₂.1.trans hun.1, (h₂.1.trans hun.1).filed, hun.2⟩
              rcases hlast with rfl | ⟨-, err, hauto⟩
              · exact h₃
              · exact hR.trans h₃
                  (keeps_removeAutoinstalled hR (fun j => ih j false) i _ _ _ hauto)

/-! ## Installing -/

variable (env) in
/-- `opkg_install_pkg` with nested calls that remove a package only if no other of its name is
installed. -/
def opkgInstallPkgAlone : Nat → PkgId → Run Int
  | 0, _ => Op.stop
  | fuel + 1, i => do
    match ← untilPointOfNoReturn env (opkgInstallPkgAlone fuel)
        (fun i => opkgRemovePkgAlone env fuel i false) i with
    | .done rc => return rc
    | .go oldPkg => behindPointOfNoReturn env i oldPkg

/-- Where the check lets a removal pass, it changes nothing. -/
theorem opkgRemovePkg_extends (fuel : Nat) (i : PkgId) (fromUpgrade : Bool) :
    Extends (opkgRemovePkg env fuel i fromUpgrade) (opkgRemovePkgAlone env fuel i fromUpgrade) := by
  induction fuel generalizing i fromUpgrade with
  | zero => exact Extends.refl _
  | succ fuel ih =>
      intro w r h
      unfold opkgRemovePkgAlone at h
      rw [get_bind] at h
      split at h
      · exact absurd h stop_ne_some
      · exact removePkgBody_extends (fun j => ih j false) i fromUpgrade w r h

theorem opkgInstallPkg_extends_alone (fuel : Nat) (i : PkgId) :
    Extends (opkgInstallPkg env fuel i) (opkgInstallPkgAlone env fuel i) := by
  induction fuel generalizing i with
  | zero => exact Extends.refl _
  | succ fuel ih =>
      unfold opkgInstallPkg opkgInstallPkgAlone
      exact Extends.bind (untilPointOfNoReturn_extends ih
        (fun j => opkgRemovePkg_extends fuel j false) i) fun progressed => Extends.refl _

theorem Finished.sameOrder {i : PkgId} {oldPkg : Option PkgId} {w w' : World}
    (h : Finished i oldPkg w w') : SameOrder w.db w'.db where
  filed a := by
    rw [Database.filed, Database.filed, h.abstractPkg]
    split <;> rfl
  name k := by
    change (w'.db.pkg k).major.name = _
    rw [h.pkg]
    rfl
  parent k := by
    rw [← parent_major, h.pkg]
    rfl

/-- **The end of an installation** leaves an orderly database orderly: the name is marked like the
package, and no package of another name is touched. -/
theorem orderly_finished {i : PkgId} {oldPkg : Option PkgId} {w w' : World} (hdb : Orderly w.db)
    (hi : w.db.Filed i) (hold : ∀ o, oldPkg = some o → o ∈ w.db.filed (w.db.pkg i).name)
    (hself : oldPkg ≠ some i) (hfinished : Finished i oldPkg w w') : Orderly w'.db := by
  obtain ⟨a, hia⟩ := hi
  have hname := hdb.named a i hia
  have hparent := hdb.placed.parent a i hia
  have hsame := hfinished.sameOrder
  have hstatus : (w'.db.pkg i).stateStatus = .unpacked := by
    change (w'.db.pkg i).major.stateStatus = .unpacked
    rw [hfinished.pkg, if_neg hself, if_pos rfl]
    rfl
  refine hsame.orderly hdb fun b => ?_
  rw [hsame.filed, hfinished.abstractPkg, hparent]
  by_cases hb : a = b
  · subst hb
    rw [if_pos rfl, hstatus]
    exact iff_of_true rfl ⟨i, hia, by rw [Pkg.isInstalled, hstatus]; rfl⟩
  · rw [if_neg fun h => hb (Option.some.inj h), hdb.agree b]
    refine exists_congr fun k => and_congr_right fun hk => ?_
    have hki : k ≠ i := by
      rintro rfl
      rw [hdb.placed.parent b k hk, Option.some.injEq] at hparent
      exact hb hparent.symm
    have hko : oldPkg ≠ some k := by
      intro ho
      have hkname := hdb.named _ k (hold k ho)
      rw [hdb.named b k hk, hname] at hkname
      exact hb hkname.symm
    change (w.db.pkg k).isInstalled = true ↔ (w'.db.pkg k).major.isInstalled = true
    rw [hfinished.pkg, if_neg hko, if_neg hki]
    exact Iff.rfl

theorem pkgGetInstalledReplacees_filed {db : Database} {pkg : Pkg} {replacees : List PkgId}
    (h : pkgGetInstalledReplacees db pkg = some replacees) : ∀ j ∈ replacees, db.Filed j := by
  unfold pkgGetInstalledReplacees at h
  refine foldlM_invariant (P := fun _ replacees => ∀ j ∈ replacees, db.Filed j) h
    (fun _ hj => absurd hj List.not_mem_nil) fun _ k replacees replacees' hk hfiled hstep => ?_
  simp only [Option.bind_eq_bind, Option.bind_eq_some_iff] at hstep
  obtain ⟨conflicts, -, hstep⟩ := hstep
  split at hstep
  · rw [Option.some.injEq] at hstep
    rw [← hstep]
    split
    · obtain ⟨a, -, hka⟩ := List.mem_flatMap.mp hk
      rw [List.forall_mem_append, List.forall_mem_singleton]
      exact ⟨hfiled, a, hka⟩
    · exact hfiled
  · exact Option.some.inj hstep ▸ hfiled

/-- The relation for a part with nested calls for `pkgs`. -/
theorem keepsOrder_filed (pkgs : List PkgId) :
    AllowsAll fun w w' => (∀ j ∈ pkgs, w.db.Filed j) → KeepsOrder w w' := by
  have hframe : Frame fun w w' : World => (∀ j ∈ pkgs, w.db.Filed j) → KeepsOrder w w' := by
    refine ⟨fun w _ => keepsOrder_frame.refl w, fun h h' hfiled => (h hfiled).trans (h' ?_)⟩
    intro j hj
    obtain ⟨a, ha⟩ := hfiled j hj
    exact ⟨a, (h hfiled).filed a ▸ ha⟩
  exact AllowsAll.of_sameMajor hframe fun _ _ h _ => h.keepsOrder

/-- **An installation keeps the database orderly**, with all the installations and removals nested
in it. -/
theorem opkgInstallPkgAlone_keepsOrder {fuel : Nat} {i : PkgId} {w w' : World} {rc : Int}
    (hi : w.db.Filed i) (hrun : opkgInstallPkgAlone env fuel i w = some (rc, w')) :
    KeepsOrder w w' := by
  induction fuel generalizing i w w' rc with
  | zero => exact absurd hrun stop_ne_some
  | succ fuel ih =>
      have hall := keepsOrder_allowsAll
      have hinstall : ∀ pkgs : List PkgId, ∀ j ∈ pkgs, Keeps
          (fun w w' => (∀ j ∈ pkgs, w.db.Filed j) → KeepsOrder w w')
          (opkgInstallPkgAlone env fuel j) :=
        fun pkgs j hj _ _ _ hnested hfiled => ih (hfiled j hj) hnested
      have hsatisfy : Keeps KeepsOrder
          (satisfyDependenciesFor env (opkgInstallPkgAlone env fuel) i) := by
        intro w rc w' hrun
        cases hr : w.resolve env i with
        | none =>
            refine satisfyDependenciesFor_run hall.frame (hall.allows _) (hall.allows _)
              (fun r hr' => ?_) hrun
            rw [hr] at hr'
            cases hr'
        | some r =>
            have hgiven := keepsOrder_filed r.unsatisfied
            refine satisfyDependenciesFor_run hgiven.frame (hgiven.allows _) (hgiven.allows _)
              (fun r' hr' dep hdep => ?_) hrun fun j hj =>
                (fetch_filed hr j hj).resolve_left List.not_mem_nil
            rw [hr, Option.some.injEq] at hr'
            exact hinstall _ dep (hr' ▸ hdep)
      have hlast : ∀ oldPkg, Keeps KeepsOrder (beforePointOfNoReturn env
          (opkgInstallPkgAlone env fuel) (fun i => opkgRemovePkgAlone env fuel i false) i
          oldPkg) := by
        intro oldPkg w progressed w' hrun
        have hremove : ∀ j, Keeps KeepsOrder (opkgRemovePkgAlone env fuel j false) :=
          fun j => (opkgRemovePkgAlone_keepsOrder fuel j false).mono fun _ _ h => h.2
        cases hr : pkgGetInstalledReplacees w.db (w.db.pkg i) with
        | none =>
            refine hall.beforePointOfNoReturn_run (fun replacees hr' => ?_) hremove hrun
            rw [hr] at hr'
            cases hr'
        | some replacees =>
            refine (keepsOrder_filed replacees).beforePointOfNoReturn_run
              (fun replacees' hr' j hj => ?_) (fun j => (hremove j).mono fun _ _ h _ => h) hrun
              (pkgGetInstalledReplacees_filed hr)
            rw [hr, Option.some.injEq] at hr'
            exact hinstall _ j (hr' ▸ hj)
      unfold opkgInstallPkgAlone at hrun
      obtain ⟨progressed, w₁, huntil, hrest⟩ := bind_eq_some.mp hrun
      have h₁ := hall.keeps_untilPointOfNoReturn i hsatisfy hlast _ _ _ huntil
      cases progressed with
      | done rc =>
          obtain ⟨-, rfl⟩ := Prod.mk.inj (pure_eq_some.mp hrest)
          exact h₁
      | go oldPkg =>
          rcases hall.behindPointOfNoReturn hrest with ⟨-, h₂⟩ | ⟨w₂, -, h₂, hfinish⟩
          · exact h₁.trans h₂
          · have h := h₁.trans h₂
            have hfinished := finishInstall_spec hfinish
            obtain ⟨hold, hself⟩ := untilPointOfNoReturn_go huntil
            refine ⟨fun b => (hfinished.sameOrder.filed b).trans (h.filed b), fun hdb => ?_⟩
            have hdb₂ := h.orderly hdb
            obtain ⟨a, hia⟩ := hi
            have hia₂ : i ∈ w₂.db.filed a := h.filed a ▸ hia
            refine orderly_finished hdb₂ ⟨a, hia₂⟩ (fun o ho => ?_) hself hfinished
            rw [hdb₂.named a i hia₂, h.filed]
            rw [ho, hdb.named a i hia] at hold
            exact mem_of_installedByName hia hold.symm

/-! ## Filing -/

/-- The status of every name is the same. -/
def SameAbstractStatus (db db' : Database) : Prop :=
  ∀ a, (db'.abstractPkg a).stateStatus = (db.abstractPkg a).stateStatus

theorem SameAbstractStatus.trans {db db' db'' : Database} (h : SameAbstractStatus db db')
    (h' : SameAbstractStatus db' db'') : SameAbstractStatus db db'' :=
  fun a => (h' a).trans (h a)

theorem SameAbstractStatus.setAbstractPkg {db : Database} {a : AbstractPkgId} {ab : AbstractPkg}
    (h : ab.stateStatus = (db.abstractPkg a).stateStatus) :
    SameAbstractStatus db (db.setAbstractPkg a ab) := by
  intro b
  by_cases hb : b = a
  · subst hb
    rw [Database.setAbstractPkg_self, h]
  · rw [Database.setAbstractPkg_of_ne db ab hb]

theorem SameAbstractStatus.foldl {α : Type*} {f : Database → α → Database}
    (hf : ∀ db x, SameAbstractStatus db (f db x)) (xs : List α) (db : Database) :
    SameAbstractStatus db (xs.foldl f db) := by
  induction xs generalizing db with
  | nil => exact fun _ => rfl
  | cons x xs ih => exact (hf db x).trans (ih (f db x))

theorem insertProvidedBy_sameAbstractStatus (db : Database) (a abPkg : AbstractPkgId) :
    SameAbstractStatus db (db.insertProvidedBy a abPkg) :=
  SameAbstractStatus.setAbstractPkg rfl

theorem insertReplacedBy_sameAbstractStatus (db : Database) (pkg : Pkg)
    (abPkg old : AbstractPkgId) : SameAbstractStatus db (db.insertReplacedBy pkg abPkg old) :=
  SameAbstractStatus.setAbstractPkg rfl

theorem insertDependedUponBy_sameAbstractStatus (db : Database) (a abPkg : AbstractPkgId) :
    SameAbstractStatus db (db.insertDependedUponBy a abPkg) :=
  SameAbstractStatus.setAbstractPkg rfl

/-- Only the first lines of `hash_insert_pkg` write the status of a name. -/
theorem hashInsertPkg_abstractStatus {db db' : Database} {i : PkgId} {setStatus : Bool}
    (h : hashInsertPkg db i setStatus = some db') :
    SameAbstractStatus (db.openVector (db.pkg i)) db' := by
  simp only [hashInsertPkg, Option.bind_eq_bind, Option.bind_eq_some_iff, Option.some.injEq] at h
  obtain ⟨pkg₁, -, pkg₂, -, db₂, hmerge, rfl⟩ := h
  generalize db.openVector (db.pkg i) = dbo at hmerge ⊢
  have hprovides : SameAbstractStatus dbo (buildProvides dbo (db.pkg i).name pkg₁).1 :=
    SameAbstractStatus.foldl
      (fun dbo a => insertProvidedBy_sameAbstractStatus dbo a (db.pkg i).name) _ dbo
  generalize (buildProvides dbo (db.pkg i).name pkg₁).1 = dbp at hmerge hprovides
  have hreplaces : SameAbstractStatus dbp (buildReplaces dbp (db.pkg i).name pkg₂).1 := by
    rw [buildReplaces]
    split
    · exact fun _ => rfl
    · exact SameAbstractStatus.foldl (fun dbp old =>
        insertReplacedBy_sameAbstractStatus dbp pkg₂ (db.pkg i).name old) _ dbp
  generalize buildReplaces dbp (db.pkg i).name pkg₂ = r at hmerge hreplaces
  have hdepended : SameAbstractStatus r.1 (buildDependedUponBy r.1 r.2 (db.pkg i).name) :=
    SameAbstractStatus.foldl (fun db' (d : Depend) =>
      insertDependedUponBy_sameAbstractStatus db' d.pkg (db.pkg i).name) _ r.1
  generalize buildDependedUponBy r.1 r.2 (db.pkg i).name = dbd at hmerge hdepended
  have hvec : SameAbstractStatus dbd db₂ := by
    simp only [pkgVecInsertMerge, Option.bind_eq_bind, Option.bind_eq_some_iff] at hmerge
    obtain ⟨found, -, hmerge⟩ := hmerge
    cases found with
    | none =>
        rw [← Option.some.inj hmerge]
        exact SameAbstractStatus.setAbstractPkg rfl
    | some found =>
        rw [← Option.some.inj hmerge]
        exact SameAbstractStatus.setAbstractPkg rfl
  exact ((hprovides.trans hreplaces).trans hdepended).trans hvec

/-- A record that is not installed does not take the place of the only installed record of its
name. -/
def InsertGuard (db : Database) (ins : Insertion) : Prop :=
  ∀ before j after,
    findDuplicate db ins.pkg (db.filed ins.pkg.1.name) = some (some (before, j, after)) →
      (db.pkg j).isInstalled = true → ins.pkg.1.isInstalled = true ∨
        ∃ k ∈ before ++ after, (db.pkg k).isInstalled = true

/-- The status of a name after an insertion. -/
theorem insertStep_abstractStatus {db db' : Database} {ins : Insertion} (h : InsertStep db ins db')
    (a : AbstractPkgId) : (db'.abstractPkg a).isInstalled = true ↔
      (a = ins.pkg.1.name ∧ ins.pkg.1.isInstalled = true) ∨
        (db.abstractPkg a).isInstalled = true := by
  have hstatus := hashInsertPkg_abstractStatus h.2 a
  rw [Database.setPkg_pkg_self] at hstatus
  have hopen : AbstractPkg.isInstalled (db'.abstractPkg a) = (((db.setPkg ins.id ins.pkg).openVector
      ins.pkg).abstractPkg a).isInstalled := by
    rw [AbstractPkg.isInstalled, AbstractPkg.isInstalled, hstatus]
  rw [hopen, Database.openVector]
  by_cases ha : a = ins.pkg.1.name
  · subst ha
    rw [Database.setAbstractPkg_self]
    cases hinstalled : ins.pkg.1.isInstalled with
    | true =>
        rw [AbstractPkg.isInstalled, if_pos rfl]
        exact iff_of_true hinstalled (.inl ⟨rfl, rfl⟩)
    | false =>
        rw [AbstractPkg.isInstalled, if_neg Bool.false_ne_true]
        simp only [Bool.false_eq_true, and_false, false_or]
        exact Iff.rfl
  · rw [Database.setAbstractPkg_of_ne _ _ ha]
    simp only [ha, false_and, false_or]
    exact Iff.rfl

theorem or_or_iff_or {p q r : Prop} : ((p ∨ q ∨ r) ↔ (p ∨ r)) ↔ (q → p ∨ r) := by
  tauto

/-- **An insertion keeps the statuses in agreement exactly when it meets the guard.** -/
theorem statusesAgree_step_iff {db db' : Database} {ins : Insertion} (hdb : Orderly db)
    (h : InsertStep db ins db') : StatusesAgree db' ↔ InsertGuard db ins := by
  have hfresh := h.1 ins.pkg.1.name
  have hold := hdb.agree ins.pkg.1.name
  have hnew := insertStep_abstractStatus h ins.pkg.1.name
  -- outside of the vector of its name an insertion changes nothing
  have hlocal : StatusesAgree db' ↔ ((db'.abstractPkg ins.pkg.1.name).isInstalled = true ↔
      ∃ k ∈ db'.filed ins.pkg.1.name, (db'.pkg k).isInstalled = true) := by
    refine ⟨fun hall => hall _, fun hname a => ?_⟩
    by_cases ha : a = ins.pkg.1.name
    · exact ha ▸ hname
    · have hvec : db'.filed a = db.filed a := (insertStep_cases h).1 a ha
      rw [insertStep_abstractStatus h a, hdb.agree a, hvec]
      simp only [ha, false_and, false_or]
      refine exists_congr fun k => and_congr_right fun hk => ?_
      rcases insertStep_filed hdb.placed h (hvec ▸ hk) with ⟨-, hname⟩ | ⟨-, hsame⟩
      · exact absurd hname ha
      · rw [hsame]
  have hkeep : ∀ k ∈ db'.filed ins.pkg.1.name, k ≠ ins.id → db'.pkg k = db.pkg k := by
    intro k hk hki
    rcases insertStep_filed hdb.placed h hk with ⟨hid, -⟩ | ⟨-, hsame⟩
    · exact absurd hid hki
    · exact hsame
  have hself : (db'.pkg ins.id).isInstalled = ins.pkg.1.isInstalled := by
    have hstatus : (db'.pkg ins.id).stateStatus = ins.pkg.1.stateStatus := by
      rcases insertStep_identity h with ⟨-, -, hidentity⟩ | ⟨_, _, _, -, -, hidentity⟩
      · exact congrArg (fun key => key.2.2.2.2.2.1) hidentity
      · exact congrArg (fun key => key.2.2.2.2.2.1) hidentity
    rw [Pkg.isInstalled, Pkg.isInstalled, hstatus]
  rw [hlocal, hnew, hold]
  simp only [true_and]
  rcases insertStep_identity h with ⟨hdup, hvec, -⟩ | ⟨before, j, after, hdup, hvec, -⟩
  · refine iff_of_true ?_ fun before j after hdup' => ?_
    · constructor
      · rintro (hins | ⟨k, hk, hinstalled⟩)
        · exact ⟨ins.id, insertStep_mem h, hself ▸ hins⟩
        · have hk' : k ∈ db'.filed ins.pkg.1.name := hvec ▸ List.mem_append_left _ hk
          exact ⟨k, hk', hkeep k hk' (ne_of_mem_of_not_mem hk hfresh) ▸ hinstalled⟩
      · rintro ⟨k, hk, hinstalled⟩
        by_cases hki : k = ins.id
        · exact .inl (hself ▸ hki ▸ hinstalled)
        · refine .inr ⟨k, ?_, hkeep k hk hki ▸ hinstalled⟩
          rw [hvec, List.mem_append, List.mem_singleton] at hk
          exact hk.resolve_right hki
    · rw [hdup] at hdup'
      exact absurd hdup' (by simp)
  · have hfiled := findDuplicate_eq_append hdup
    have hrest : ∀ k ∈ before ++ after, k ∈ db'.filed ins.pkg.1.name ∧ k ≠ ins.id := by
      intro k hk
      have hk' : k ∈ db.filed ins.pkg.1.name := by
        rw [hfiled]
        rw [List.mem_append] at hk ⊢
        exact hk.imp_right (List.mem_cons_of_mem _)
      refine ⟨?_, ne_of_mem_of_not_mem hk' hfresh⟩
      rw [hvec]
      rw [List.mem_append] at hk ⊢
      exact hk.imp_right (List.mem_cons_of_mem _)
    have hguard : InsertGuard db ins ↔ ((db.pkg j).isInstalled = true →
        ins.pkg.1.isInstalled = true ∨ ∃ k ∈ before ++ after, (db.pkg k).isInstalled = true) := by
      refine ⟨fun hguard => hguard before j after hdup, fun hguard b' j' a' hdup' => ?_⟩
      rw [hdup] at hdup'
      simp only [Option.some.injEq, Prod.mk.injEq] at hdup'
      obtain ⟨rfl, rfl, rfl⟩ := hdup'
      exact hguard
    have hnewInstalled : (∃ k ∈ db'.filed ins.pkg.1.name, (db'.pkg k).isInstalled = true) ↔
        ins.pkg.1.isInstalled = true ∨ ∃ k ∈ before ++ after, (db.pkg k).isInstalled = true := by
      constructor
      · rintro ⟨k, hk, hinstalled⟩
        by_cases hki : k = ins.id
        · exact .inl (hself ▸ hki ▸ hinstalled)
        · refine .inr ⟨k, ?_, hkeep k hk hki ▸ hinstalled⟩
          rw [hvec, List.mem_append, List.mem_cons] at hk
          rw [List.mem_append]
          exact hk.imp_right fun hk => hk.resolve_left hki
      · rintro (hins | ⟨k, hk, hinstalled⟩)
        · exact ⟨ins.id, insertStep_mem h, hself ▸ hins⟩
        · obtain ⟨hk', hki⟩ := hrest k hk
          exact ⟨k, hk', hkeep k hk' hki ▸ hinstalled⟩
    have holdInstalled : (∃ k ∈ db.filed ins.pkg.1.name, (db.pkg k).isInstalled = true) ↔
        (db.pkg j).isInstalled = true ∨ ∃ k ∈ before ++ after, (db.pkg k).isInstalled = true := by
      rw [hfiled]
      simp only [List.mem_append, List.mem_cons]
      constructor
      · rintro ⟨k, hk | rfl | hk, hinstalled⟩
        · exact .inr ⟨k, .inl hk, hinstalled⟩
        · exact .inl hinstalled
        · exact .inr ⟨k, .inr hk, hinstalled⟩
      · rintro (hj | ⟨k, hk | hk, hinstalled⟩)
        · exact ⟨j, .inr (.inl rfl), hj⟩
        · exact ⟨k, .inl hk, hinstalled⟩
        · exact ⟨k, .inr (.inr hk), hinstalled⟩
    rw [hguard, hnewInstalled, holdInstalled]
    exact or_or_iff_or

end FirmwareTools.Opkg

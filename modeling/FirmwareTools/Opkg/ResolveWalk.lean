import FirmwareTools.Opkg.ResolveInstalled

/-! # How a resolution walks

The walk of `pkg_hash_fetch_unsatisfied_dependencies` through the dependency graph, with a log of the
packages whose entries it goes through and with its two ways to fail told apart: a `NULL` pointer is
followed, or the recursion goes deeper than a bound.

* **`Walk.erases_fetch`** — without the log this is the model of the resolver;
* **`resolution_walk`** — on every graph the recursion is bounded, each abstract package is entered
  once, marks and earlier elements stay, and nothing is added twice. -/

namespace FirmwareTools.Opkg

/-- Why a walk does not return. -/
inductive Stuck
  | nullPointer
  | tooDeep
  deriving DecidableEq, Repr

/-- A computation that logs the packages whose entries it goes through. -/
def Walk (α : Type) := List PkgId → Except Stuck α × List PkgId

namespace Walk

variable {α β : Type}

instance : Monad Walk where
  pure a := fun log => (.ok a, log)
  bind x f := fun log =>
    match x log with
    | (.ok a, log) => f a log
    | (.error e, log) => (.error e, log)

theorem bind_ok {x : Walk α} {f : α → Walk β} {log log' : List PkgId} {a : α}
    (h : x log = (.ok a, log')) : (x >>= f) log = f a log' := by
  simp only [Bind.bind]
  rw [h]

theorem bind_error {x : Walk α} {f : α → Walk β} {log log' : List PkgId} {e : Stuck}
    (h : x log = (.error e, log')) : (x >>= f) log = (.error e, log') := by
  simp only [Bind.bind]
  rw [h]

/-- Follow a pointer. -/
def follow : Option α → Walk α
  | some a => fun log => (.ok a, log)
  | none => fun log => (.error .nullPointer, log)

/-- Go no deeper. -/
def tooDeep : Walk α := fun log => (.error .tooDeep, log)

/-- Begin with the entries of a package. -/
def enter (i : PkgId) : Walk PUnit := fun log => (.ok ⟨⟩, log ++ [i])

variable (q : Qsort) (db : Database)

/-- `scoutPkg` as a walk. -/
def scoutPkg (fetch : Marks → PkgId → List PkgId → Walk Resolution) (r : Resolution)
    (pkgScout : PkgId) : Walk Resolution := do
  if (db.pkg pkgScout).stateWant = .install then return r
  else
    let parent ← follow (db.pkg pkgScout).parent
    if r.marks parent ≠ 0 then return r
    else if ← follow (isPkgInPkgVec db pkgScout r.unsatisfied) then return r
    else
      let tmp ← fetch r.marks pkgScout []
      if tmp.unresolved = [] ∧
          ∀ p ∈ tmp.unsatisfied.take tmp.rc, (db.pkg p).stateWant = .install then
        return { r with marks := tmp.marks, unsatisfied := r.unsatisfied ++ [pkgScout] }
      else return { r with marks := tmp.marks }

/-- `resolveEntry` as a walk. -/
def resolveEntry (fetch : Marks → PkgId → List PkgId → Walk Resolution) (pkg : PkgId)
    (r : Resolution) (entry : CompoundDepend) : Walk Resolution := do
  if entry.type = .greedyDepend then (greedyScouts db entry).foldlM (scoutPkg db fetch) r
  else if ← follow (findInstalled q db entry.possibilities) then return r
  else
    match ← follow (findSatisfier q db entry.type entry.possibilities) with
    | none =>
      if entry.type = .recommend ∨ entry.type = .suggest then return r
      else return { r with unresolved := r.unresolved ++ [compoundDependStr entry] }
    | some satisfier =>
      if entry.type = .suggest ∨ satisfier = pkg then return r
      else if ← follow (isPkgInPkgVec db satisfier r.unsatisfied) then return r
      else
        let new ← fetch r.marks satisfier (r.unsatisfied ++ [satisfier])
        return { r with
          marks := new.marks, unsatisfied := new.unsatisfied
          unresolved := r.unresolved ++ new.unresolved }

/-- `pkg_hash_fetch_unsatisfied_dependencies` as a walk no deeper than a bound. -/
def fetch : Nat → Marks → PkgId → List PkgId → Walk Resolution
  | 0, _, _, _ => tooDeep
  | depth + 1, marks, pkg, unsatisfied =>
    match (db.pkg pkg).parent with
    | none => return { marks, unsatisfied }
    | some abPkg =>
      if marks abPkg ≠ 0 then return { marks, unsatisfied }
      else if (db.pkg pkg).preDependsCount + (db.pkg pkg).dependsCount +
          (db.pkg pkg).recommendsCount + (db.pkg pkg).suggestsCount = 0 then
        return { marks := Function.update marks abPkg 1, unsatisfied }
      else do
        enter pkg
        let r ← (db.pkg pkg).entries.foldlM (resolveEntry q db (fetch depth) pkg)
          { marks := Function.update marks abPkg 1, unsatisfied }
        return { r with rc := r.unsatisfied.length }

/-! ## Without the log -/

/-- A walk comes to what a computation without a log comes to. -/
def Erases (x : Walk α) (y : Option α) : Prop := ∀ log, (x log).1.toOption = y

theorem erases_pure (a : α) : Erases (pure a) (some a) := fun _ => rfl

theorem erases_follow (o : Option α) : Erases (follow o) o := by
  intro log
  cases o <;> rfl

theorem Erases.bind {x : Walk α} {y : Option α} {f : α → Walk β} {g : α → Option β}
    (h : Erases x y) (hfg : ∀ a, Erases (f a) (g a)) : Erases (x >>= f) (y.bind g) := by
  intro log
  have hlog := h log
  rcases hx : x log with ⟨e | a, log'⟩
  · rw [hx] at hlog
    rw [bind_error hx, ← hlog]
    rfl
  · rw [hx] at hlog
    rw [bind_ok hx, ← hlog]
    exact hfg a log'

theorem Erases.ite {c : Prop} [Decidable c] {x x' : Walk α} {y y' : Option α} (h : Erases x y)
    (h' : Erases x' y') : Erases (if c then x else x') (if c then y else y') := by
  split
  · exact h
  · exact h'

theorem Erases.foldlM {f : α → β → Walk α} {g : α → β → Option α} (h : ∀ a b, Erases (f a b) (g a b))
    (l : List β) (a : α) : Erases (l.foldlM f a) (l.foldlM g a) := by
  induction l generalizing a with
  | nil => exact erases_pure a
  | cons b l ih =>
      rw [List.foldlM_cons, List.foldlM_cons]
      exact (h a b).bind ih

variable {q db}

theorem erases_scoutPkg {fetch : Marks → PkgId → List PkgId → Walk Resolution}
    {fetch' : Marks → PkgId → List PkgId → Option Resolution}
    (hfetch : ∀ marks i vec, Erases (fetch marks i vec) (fetch' marks i vec)) (r : Resolution)
    (k : PkgId) : Erases (scoutPkg db fetch r k) (Opkg.scoutPkg db fetch' r k) := by
  unfold scoutPkg Opkg.scoutPkg
  refine Erases.ite (erases_pure _) ((erases_follow _).bind fun parent => ?_)
  refine Erases.ite (erases_pure _) ((erases_follow _).bind fun present => ?_)
  refine Erases.ite (erases_pure _) ((hfetch _ _ _).bind fun tmp => ?_)
  exact Erases.ite (erases_pure _) (erases_pure _)

theorem erases_resolveEntry {fetch : Marks → PkgId → List PkgId → Walk Resolution}
    {fetch' : Marks → PkgId → List PkgId → Option Resolution}
    (hfetch : ∀ marks i vec, Erases (fetch marks i vec) (fetch' marks i vec)) (pkg : PkgId)
    (r : Resolution) (entry : CompoundDepend) :
    Erases (resolveEntry q db fetch pkg r entry) (Opkg.resolveEntry q db fetch' pkg r entry) := by
  unfold resolveEntry Opkg.resolveEntry
  refine Erases.ite (Erases.foldlM (erases_scoutPkg hfetch) _ _) ?_
  refine (erases_follow _).bind fun found => Erases.ite (erases_pure _) ?_
  refine (erases_follow _).bind fun entryPkg => ?_
  cases entryPkg with
  | none => exact Erases.ite (erases_pure _) (erases_pure _)
  | some satisfier =>
      refine Erases.ite (erases_pure _) ((erases_follow _).bind fun present => ?_)
      exact Erases.ite (erases_pure _) ((hfetch _ _ _).bind fun new => erases_pure _)

/-- **Without the log** a walk is the model of `pkg_hash_fetch_unsatisfied_dependencies`. -/
theorem erases_fetch (depth : Nat) (marks : Marks) (pkg : PkgId) (vec : List PkgId) :
    Erases (fetch q db depth marks pkg vec)
      (pkgHashFetchUnsatisfiedDependencies q db depth marks pkg vec) := by
  induction depth generalizing marks pkg vec with
  | zero => exact fun _ => rfl
  | succ depth ih =>
      unfold fetch pkgHashFetchUnsatisfiedDependencies
      cases (db.pkg pkg).parent with
      | none => exact erases_pure _
      | some abPkg =>
          refine Erases.ite (erases_pure _) (Erases.ite (erases_pure _) fun log => ?_)
          exact Erases.bind (Erases.foldlM (erases_resolveEntry ih pkg) _ _)
            (fun r => erases_pure _) (log ++ [pkg])

end Walk

/-! ## What a walk keeps -/

variable {q : Qsort} {db : Database}

/-- What was marked and collected before is still there, and nothing is collected that is the same as
something collected before, however finely the packages that look the same to `is_pkg_in_pkg_vec` are
told apart. -/
structure Kept (db : Database) (marks : Marks) (vec : List PkgId) (r : Resolution) : Prop where
  marks : ∀ a, marks a ≠ 0 → r.marks a = marks a
  appended : vec <+: r.unsatisfied
  apart : ∀ E : Pkg → Pkg → Prop, (∀ p p', E p p' → SamePkg p p') →
    (vec.Pairwise fun i j => ¬ E (db.pkg i) (db.pkg j)) →
    r.unsatisfied.Pairwise fun i j => ¬ E (db.pkg i) (db.pkg j)

/-- The abstract packages of the packages entered are distinct. -/
def EnteredOnce (db : Database) (entered : List PkgId) : Prop :=
  entered.Pairwise fun i j => (db.pkg i).parent ≠ (db.pkg j).parent

/-- All packages of a vector say for which architecture they are. -/
def HaveArchitectures (db : Database) (vec : List PkgId) : Prop :=
  ∀ i ∈ vec, (db.pkg i).architecture.isSome

/-- The pointers that a resolution follows are there: every package is filed under its parent and
says for which architecture it is. -/
structure NullFree (db : Database) : Prop where
  placed : WellPlaced db
  architecture : ∀ a, HaveArchitectures db (db.filed a)

/-- What comes of a walk that begins with `marks`, `vec` and `log`. -/
structure Walked (db : Database) (marks : Marks) (vec log : List PkgId)
    (out : Except Stuck Resolution × List PkgId) : Prop where
  shallow : out.1 ≠ .error .tooDeep
  entered : ∃ new, out.2 = log ++ new ∧ EnteredOnce db new ∧
    ∀ i ∈ new, ∃ a, (db.pkg i).parent = some a ∧ marks a = 0 ∧
      ∀ r, out.1 = .ok r → r.marks a ≠ 0
  kept : ∀ r, out.1 = .ok r → Kept db marks vec r
  returns : NullFree db → HaveArchitectures db vec →
    ∃ r, out.1 = .ok r ∧ HaveArchitectures db r.unsatisfied

theorem Kept.refl (db : Database) (r : Resolution) : Kept db r.marks r.unsatisfied r :=
  ⟨fun _ _ => rfl, List.prefix_refl _, fun _ _ h => h⟩

theorem Kept.trans {marks : Marks} {vec : List PkgId} {r r' : Resolution}
    (h : Kept db marks vec r) (h' : Kept db r.marks r.unsatisfied r') : Kept db marks vec r' where
  marks a ha := by
    have hr := h.marks a ha
    rw [h'.marks a (hr ▸ ha), hr]
  appended := h.appended.trans h'.appended
  apart E hE hvec := h'.apart E hE (h.apart E hE hvec)

/-- A walk that returns at once. -/
theorem walked_pure {marks : Marks} {vec log : List PkgId} {r : Resolution}
    (hkept : Kept db marks vec r) (harch : HaveArchitectures db vec →
      HaveArchitectures db r.unsatisfied) :
    Walked db marks vec log ((pure r : Walk Resolution) log) where
  shallow := fun h => by cases h
  entered := ⟨[], (List.append_nil log).symm, List.Pairwise.nil, by simp⟩
  kept r' h := by
    obtain rfl := Except.ok.inj h
    exact hkept
  returns _ hvec := ⟨r, rfl, harch hvec⟩

/-- Following a pointer. -/
theorem walked_follow {α : Type} {o : Option α} {f : α → Walk Resolution} {marks : Marks}
    {vec log : List PkgId} (hnull : NullFree db → HaveArchitectures db vec → o.isSome)
    (h : ∀ a, o = some a → Walked db marks vec log (f a log)) :
    Walked db marks vec log ((Walk.follow o >>= f) log) := by
  cases o with
  | some a => exact h a rfl
  | none =>
      have hout : (Walk.follow none >>= f) log = (.error .nullPointer, log) := Walk.bind_error rfl
      rw [hout]
      refine ⟨by simp, ⟨[], (List.append_nil log).symm, List.Pairwise.nil, by simp⟩, by simp,
        fun hdb hvec => ?_⟩
      exact absurd (hnull hdb hvec) (by simp)

/-- **One walk after the other.** -/
theorem Walked.bind {x : Walk Resolution} {f : Resolution → Walk Resolution} {marks : Marks}
    {vec log : List PkgId} (h : Walked db marks vec log (x log))
    (hf : ∀ r log', Kept db marks vec r → Walked db r.marks r.unsatisfied log' (f r log')) :
    Walked db marks vec log ((x >>= f) log) := by
  rcases hx : x log with ⟨e | r, log'⟩
  all_goals rw [hx] at h
  · rw [Walk.bind_error hx]
    refine ⟨fun he => h.shallow (congrArg Except.error (Except.error.inj he)), ?_, fun r hr => (by cases hr), fun hdb hvec => ?_⟩
    · obtain ⟨new, hlog, honce, hnew⟩ := h.entered
      refine ⟨new, hlog, honce, fun i hi => ?_⟩
      obtain ⟨a, hparent, hmark, -⟩ := hnew i hi
      exact ⟨a, hparent, hmark, fun r hr => (by cases hr)⟩
    · obtain ⟨r, hr, -⟩ := h.returns hdb hvec
      cases hr
  · rw [Walk.bind_ok hx]
    have hkept := h.kept r rfl
    have h' := hf r log' hkept
    refine ⟨h'.shallow, ?_, fun r' hr' => hkept.trans (h'.kept r' hr'), fun hdb hvec => ?_⟩
    · obtain ⟨new, hlog, honce, hnew⟩ := h.entered
      obtain ⟨new', hlog', honce', hnew'⟩ := h'.entered
      refine ⟨new ++ new', ?_, ?_, fun i hi => ?_⟩
      · dsimp only at hlog hlog' ⊢
        rw [hlog', hlog, List.append_assoc]
      · -- what was entered first is marked when the second walk begins
        refine List.pairwise_append.mpr ⟨honce, honce', fun i hi j hj hsame => ?_⟩
        obtain ⟨a, hparent, -, hmarked⟩ := hnew i hi
        obtain ⟨b, hparent', hunmarked, -⟩ := hnew' j hj
        rw [hparent, hparent', Option.some.injEq] at hsame
        exact hmarked r rfl (hsame ▸ hunmarked)
      · rcases List.mem_append.mp hi with hi | hi
        · obtain ⟨a, hparent, hmark, hmarked⟩ := hnew i hi
          refine ⟨a, hparent, hmark, fun r' hr' => ?_⟩
          rw [(h'.kept r' hr').marks a (hmarked r rfl)]
          exact hmarked r rfl
        · obtain ⟨a, hparent, hmark, hmarked⟩ := hnew' i hi
          refine ⟨a, hparent, ?_, hmarked⟩
          by_contra hne
          rw [hkept.marks a hne] at hmark
          exact hne hmark
    · obtain ⟨r', hr', harch⟩ := h.returns hdb hvec
      obtain rfl := Except.ok.inj hr'
      exact h'.returns hdb harch

/-- A nested walk, of whose result something is made. -/
theorem Walked.map {x : Walk Resolution} {f : Resolution → Resolution} {marks : Marks}
    {vec vec' log : List PkgId} (h : Walked db marks vec' log (x log))
    (hmarks : ∀ tmp, (f tmp).marks = tmp.marks)
    (hkept : ∀ tmp, Kept db marks vec' tmp → Kept db marks vec (f tmp))
    (harch : NullFree db → HaveArchitectures db vec → HaveArchitectures db vec' ∧
      ∀ tmp, HaveArchitectures db tmp.unsatisfied → HaveArchitectures db (f tmp).unsatisfied) :
    Walked db marks vec log ((x >>= fun tmp => pure (f tmp)) log) := by
  rcases hx : x log with ⟨e | tmp, log'⟩
  all_goals rw [hx] at h
  all_goals obtain ⟨new, hlog, honce, hnew⟩ := h.entered
  · rw [Walk.bind_error hx]
    refine ⟨fun he => h.shallow (congrArg Except.error (Except.error.inj he)), ⟨new, hlog, honce, fun i hi => ?_⟩, fun r hr => (by cases hr),
      fun hdb hvec => ?_⟩
    · obtain ⟨a, hparent, hmark, -⟩ := hnew i hi
      exact ⟨a, hparent, hmark, fun r hr => (by cases hr)⟩
    · obtain ⟨r, hr, -⟩ := h.returns hdb (harch hdb hvec).1
      cases hr
  · rw [Walk.bind_ok hx]
    refine ⟨fun hr => (by cases hr), ⟨new, hlog, honce, fun i hi => ?_⟩, fun r hr => ?_,
      fun hdb hvec => ?_⟩
    · obtain ⟨a, hparent, hmark, hmarked⟩ := hnew i hi
      refine ⟨a, hparent, hmark, fun r hr => ?_⟩
      obtain rfl := Except.ok.inj hr
      rw [hmarks]
      exact hmarked tmp rfl
    · obtain rfl := Except.ok.inj hr
      exact hkept tmp (h.kept tmp rfl)
    · obtain ⟨r, hr, hr'⟩ := h.returns hdb (harch hdb hvec).1
      obtain rfl := Except.ok.inj hr
      exact ⟨f tmp, rfl, (harch hdb hvec).2 tmp hr'⟩

/-- **A loop of walks.** -/
theorem walked_foldlM {β : Type} {f : Resolution → β → Walk Resolution} {l : List β}
    {C : Marks → Prop} (hC : ∀ marks vec r, C marks → Kept db marks vec r → C r.marks)
    (hf : ∀ r, ∀ x ∈ l, ∀ log, C r.marks → Walked db r.marks r.unsatisfied log (f r x log))
    (r : Resolution) (log : List PkgId) (hr : C r.marks) :
    Walked db r.marks r.unsatisfied log (l.foldlM f r log) := by
  induction l generalizing r log with
  | nil => exact walked_pure (Kept.refl db r) id
  | cons x l ih =>
      rw [List.foldlM_cons]
      refine (hf r x List.mem_cons_self log hr).bind fun r' log' hkept => ?_
      exact ih (fun r y hy => hf r y (List.mem_cons_of_mem _ hy)) r' log' (hC _ _ _ hr hkept)

/-! ## Adding a package -/

theorem SamePkg.symm {p p' : Pkg} (h : SamePkg p p') : SamePkg p' p :=
  ⟨h.1.symm, pkgCompareVersions_threeWay.eq_comm.mp h.2.1, h.2.2.symm⟩

/-- What `is_pkg_in_pkg_vec` does not find is not there. -/
theorem isPkgInPkgVec_eq_false {i : PkgId} {vec : List PkgId}
    (h : isPkgInPkgVec db i vec = some false) : ∀ j ∈ vec, ¬ SamePkg (db.pkg i) (db.pkg j) := by
  induction vec with
  | nil => simp
  | cons j vec ih =>
      unfold isPkgInPkgVec at h
      rw [List.forall_mem_cons]
      split at h
      · simp only [Option.bind_eq_bind, Option.bind_eq_some_iff] at h
        obtain ⟨architecture, harch, architecture', harch', h⟩ := h
        split at h
        · exact absurd (Option.some.inj h) (by decide)
        · rename_i hne
          refine ⟨fun hsame => hne ?_, ih h⟩
          have := hsame.2.2
          rwa [harch, harch', Option.some.injEq] at this
      · rename_i hne
        exact ⟨fun hsame => hne ⟨hsame.1, hsame.2.1⟩, ih h⟩

/-- `is_pkg_in_pkg_vec` follows no `NULL` pointer if all architectures are known. -/
theorem isPkgInPkgVec_isSome {i : PkgId} {vec : List PkgId}
    (hi : (db.pkg i).architecture.isSome) (hvec : HaveArchitectures db vec) :
    (isPkgInPkgVec db i vec).isSome := by
  obtain ⟨architecture, harch⟩ := Option.isSome_iff_exists.mp hi
  induction vec with
  | nil => rfl
  | cons j vec ih =>
      rw [HaveArchitectures, List.forall_mem_cons] at hvec
      obtain ⟨architecture', harch'⟩ := Option.isSome_iff_exists.mp hvec.1
      unfold isPkgInPkgVec
      split
      · rw [harch, harch']
        dsimp only [Option.bind_eq_bind, Option.bind_some]
        split
        · rfl
        · exact ih hvec.2
      · exact ih hvec.2

/-- Nothing is added that is there already. -/
theorem kept_append {marks marks' : Marks} {vec : List PkgId} {i : PkgId}
    (hmarks : ∀ a, marks a ≠ 0 → marks' a = marks a)
    (hnew : ∀ j ∈ vec, ¬ SamePkg (db.pkg i) (db.pkg j)) (r : Resolution) (hr : r.marks = marks')
    (hvec : r.unsatisfied = vec ++ [i]) : Kept db marks vec r where
  marks := hr ▸ hmarks
  appended := hvec ▸ List.prefix_append vec [i]
  apart E hE hapart := by
    rw [hvec, List.pairwise_append]
    refine ⟨hapart, List.pairwise_singleton _ _, fun j hj k hk hsame => ?_⟩
    rw [List.mem_singleton.mp hk] at hsame
    exact hnew j hj (hE _ _ hsame).symm

theorem haveArchitectures_append {vec : List PkgId} {i : PkgId}
    (hvec : HaveArchitectures db vec) (hi : (db.pkg i).architecture.isSome) :
    HaveArchitectures db (vec ++ [i]) := by
  intro j hj
  rcases List.mem_append.mp hj with hj | hj
  · exact hvec j hj
  · rwa [List.mem_singleton.mp hj]

/-- A package is entered: it is marked and logged. -/
theorem walked_enter {pkg : PkgId} {a : AbstractPkgId} {marks : Marks} {vec log : List PkgId}
    {out : Except Stuck Resolution × List PkgId} (hparent : (db.pkg pkg).parent = some a)
    (hmark : marks a = 0) (hupdate : ∀ b, marks b ≠ 0 → Function.update marks a 1 b = marks b)
    (h : Walked db (Function.update marks a 1) vec (log ++ [pkg]) out) :
    Walked db marks vec log out where
  shallow := h.shallow
  entered := by
    obtain ⟨new, hlog, honce, hnew⟩ := h.entered
    refine ⟨pkg :: new, ?_, List.pairwise_cons.mpr ⟨fun i hi hsame => ?_, honce⟩, ?_⟩
    · rw [hlog, List.append_assoc, List.singleton_append]
    · obtain ⟨b, hb, hunmarked, -⟩ := hnew i hi
      rw [hparent, hb, Option.some.injEq] at hsame
      rw [← hsame, Function.update_self] at hunmarked
      exact absurd hunmarked (by decide)
    · rw [List.forall_mem_cons]
      refine ⟨⟨a, hparent, hmark, fun r hr => ?_⟩, fun i hi => ?_⟩
      · have hkept := (h.kept r hr).marks a (by rw [Function.update_self]; decide)
        rw [hkept, Function.update_self]
        decide
      · obtain ⟨b, hb, hunmarked, hmarked⟩ := hnew i hi
        refine ⟨b, hb, ?_, hmarked⟩
        by_contra hne
        rw [hupdate b hne] at hunmarked
        exact hne hunmarked
  kept r hr := by
    have hkept := h.kept r hr
    refine ⟨fun b hb => ?_, hkept.appended, hkept.apart⟩
    rw [hkept.marks b (by rw [hupdate b hb]; exact hb), hupdate b hb]
  returns := h.returns

/-- The search for a package to install follows no `NULL` pointer. -/
theorem findSatisfier_isSome (q : Qsort) (hplaced : WellPlaced db) (type : DependType)
    (ds : List Depend) : (findSatisfier q db type ds).isSome := by
  induction ds with
  | nil => rfl
  | cons depend ds ih =>
      unfold findSatisfier
      rcases fetchSatisfying_cases q hplaced (pkgConstraintSatisfied db) depend with
        ⟨i, hfetch, -⟩ | ⟨hfetch, -⟩
      · rw [hfetch]
        dsimp only [Option.bind_eq_bind, Option.bind_some]
        split
        · exact ih
        · rfl
      · rw [hfetch]
        exact ih

/-! ## The steps -/

/-- Marking more leaves less unmarked. -/
theorem card_unmarked_le {U : Finset AbstractPkgId} {marks : Marks} {vec : List PkgId}
    {r : Resolution} (h : Kept db marks vec r) :
    (unmarked U r.marks).card ≤ (unmarked U marks).card := by
  refine Finset.card_le_card fun a ha => ?_
  rw [unmarked, Finset.mem_filter] at ha ⊢
  refine ⟨ha.1, ?_⟩
  by_contra hne
  rw [h.marks a hne] at ha
  exact hne ha.2

section Steps

variable {root : PkgId} {U : Finset AbstractPkgId} {depth : Nat}
  {fetch : Marks → PkgId → List PkgId → Walk Resolution}
  (hfetch : ∀ marks k vec log, Reach q db root k → (unmarked U marks).card < depth →
    Walked db marks vec log (fetch marks k vec log))
include hfetch

/-- Scouting one package of a greedy entry. -/
theorem walked_scoutPkg {k : PkgId} (hk : Reach q db root k) {a : AbstractPkgId}
    (hfiled : k ∈ db.filed a) (r : Resolution) (log : List PkgId)
    (hcard : (unmarked U r.marks).card < depth) :
    Walked db r.marks r.unsatisfied log (Walk.scoutPkg db fetch r k log) := by
  unfold Walk.scoutPkg
  split
  · exact walked_pure (Kept.refl db r) id
  · refine walked_follow (fun hdb _ => ?_) fun parent _ => ?_
    · rw [hdb.placed.parent a k hfiled]
      rfl
    · split
      · exact walked_pure (Kept.refl db r) id
      · refine walked_follow (fun hdb hvec => ?_) fun present hpresent => ?_
        · exact isPkgInPkgVec_isSome (hdb.architecture a k hfiled) hvec
        · cases present with
          | true => exact walked_pure (Kept.refl db r) id
          | false =>
              have hnew := isPkgInPkgVec_eq_false hpresent
              rw [if_neg Bool.false_ne_true]
              have hmake : (fun tmp : Resolution =>
                  if tmp.unresolved = [] ∧
                      ∀ p ∈ tmp.unsatisfied.take tmp.rc, (db.pkg p).stateWant = .install then
                    (pure { r with marks := tmp.marks, unsatisfied := r.unsatisfied ++ [k] } :
                      Walk Resolution)
                  else pure { r with marks := tmp.marks }) = fun tmp => pure
                  (if tmp.unresolved = [] ∧
                      ∀ p ∈ tmp.unsatisfied.take tmp.rc, (db.pkg p).stateWant = .install then
                    { r with marks := tmp.marks, unsatisfied := r.unsatisfied ++ [k] }
                  else { r with marks := tmp.marks }) := by
                funext tmp
                split <;> rfl
              rw [hmake]
              refine (hfetch r.marks k [] log hk hcard).map (fun tmp => ?_) (fun tmp hkept => ?_)
                fun hdb hvec => ⟨fun j hj => absurd hj List.not_mem_nil, fun tmp _ => ?_⟩
              · split <;> rfl
              · split
                · exact kept_append hkept.marks hnew _ rfl rfl
                · exact ⟨hkept.marks, List.prefix_refl _, fun _ _ h => h⟩
              · split
                · exact haveArchitectures_append hvec (hdb.architecture a k hfiled)
                · exact hvec

/-- Resolving one entry. -/
theorem walked_resolveEntry {pkg : PkgId} (hpkg : Reach q db root pkg) {entry : CompoundDepend}
    (hentry : entry ∈ (db.pkg pkg).entries) (r : Resolution) (log : List PkgId)
    (hcard : (unmarked U r.marks).card < depth) :
    Walked db r.marks r.unsatisfied log (Walk.resolveEntry q db fetch pkg r entry log) := by
  unfold Walk.resolveEntry
  split
  · rename_i hgreedy
    refine walked_foldlM (C := fun marks => (unmarked U marks).card < depth)
      (fun _ _ _ hcard hkept => (card_unmarked_le hkept).trans_lt hcard) (fun r k hk log hcard => ?_)
      r log hcard
    obtain ⟨depend, -, hk'⟩ := List.mem_flatMap.mp hk
    obtain ⟨provider, -, hfiled⟩ := List.mem_flatMap.mp hk'
    exact walked_scoutPkg hfetch (hpkg.tail ⟨entry, hentry, .inl ⟨hgreedy, hk⟩⟩) hfiled r log hcard
  · rename_i hgreedy
    refine walked_follow (fun hdb _ => ?_) fun found hfound => ?_
    · obtain ⟨found, hfound, -⟩ := findInstalled_iff q hdb.placed entry.possibilities
      rw [hfound]
      rfl
    · cases found with
      | true => exact walked_pure (Kept.refl db r) id
      | false =>
          rw [if_neg Bool.false_ne_true]
          refine walked_follow (fun hdb _ => findSatisfier_isSome q hdb.placed _ _)
            fun entryPkg hsatisfier => ?_
          cases entryPkg with
          | none =>
              dsimp only
              split
              · exact walked_pure (Kept.refl db r) id
              · exact walked_pure ⟨fun _ _ => rfl, List.prefix_refl _, fun _ _ h => h⟩ id
          | some satisfier =>
              dsimp only
              split
              · exact walked_pure (Kept.refl db r) id
              · rename_i hskip
                rw [not_or] at hskip
                have hreach : Reach q db root satisfier :=
                  hpkg.tail ⟨entry, hentry, .inr ⟨hgreedy, hskip.1, hfound, hsatisfier⟩⟩
                obtain ⟨-, depend, -, hmatching, -⟩ := findSatisfier_eq_some hsatisfier
                obtain ⟨a, hfiled⟩ := (mem_matchingPkgs_iff.mp hmatching).filed
                refine walked_follow (fun hdb hvec => ?_) fun present hpresent => ?_
                · exact isPkgInPkgVec_isSome (hdb.architecture a satisfier hfiled) hvec
                · cases present with
                  | true => exact walked_pure (Kept.refl db r) id
                  | false =>
                      rw [if_neg Bool.false_ne_true]
                      have hnew := isPkgInPkgVec_eq_false hpresent
                      refine (hfetch r.marks satisfier _ log hreach hcard).map (fun _ => rfl)
                        (fun tmp hkept => ?_) fun hdb hvec => ⟨?_, fun _ h => h⟩
                      · -- the nested walk begins with the package added
                        exact (kept_append (fun _ _ => rfl) hnew
                          { marks := r.marks, unsatisfied := r.unsatisfied ++ [satisfier] } rfl
                          rfl).trans ⟨hkept.marks, hkept.appended, hkept.apart⟩
                      · exact haveArchitectures_append hvec (hdb.architecture a satisfier hfiled)

end Steps

/-- **A walk** that may go deeper than there are unmarked abstract packages in reach. -/
theorem walked_fetch {root : PkgId} {U : Finset AbstractPkgId}
    (hU : ∀ a, ReachAbstract q db root a → a ∈ U) (depth : Nat) (marks : Marks) (pkg : PkgId)
    (vec log : List PkgId) (hpkg : Reach q db root pkg) (hcard : (unmarked U marks).card < depth) :
    Walked db marks vec log (Walk.fetch q db depth marks pkg vec log) := by
  induction depth generalizing marks pkg vec log with
  | zero => exact absurd hcard (Nat.not_lt_zero _)
  | succ depth ih =>
      have hrefl : Kept db marks vec { marks, unsatisfied := vec } :=
        Kept.refl db { marks, unsatisfied := vec }
      unfold Walk.fetch
      cases hparent : (db.pkg pkg).parent with
      | none => exact walked_pure hrefl id
      | some abPkg =>
          dsimp only
          split
          · exact walked_pure hrefl id
          · rename_i hmark
            have hmark : marks abPkg = 0 := not_not.mp hmark
            have hupdate : ∀ a, marks a ≠ 0 → Function.update marks abPkg 1 a = marks a := by
              intro a ha
              refine Function.update_of_ne ?_ _ _
              rintro rfl
              exact ha hmark
            split
            · exact walked_pure ⟨hupdate, List.prefix_refl _, fun _ _ h => h⟩ id
            · have hless := card_unmarked_update (hU abPkg ⟨pkg, hpkg, hparent⟩) hmark
              have hloop := walked_foldlM (C := fun marks => (unmarked U marks).card < depth)
                (fun _ _ _ hcard hkept => (card_unmarked_le hkept).trans_lt hcard)
                (fun r entry hentry log hcard => walked_resolveEntry (fun marks k vec log hk hcard =>
                  ih marks k vec log hk hcard) hpkg hentry r log hcard)
                { marks := Function.update marks abPkg 1, unsatisfied := vec } (log ++ [pkg])
                (show (unmarked U (Function.update marks abPkg 1)).card < depth by omega)
              exact walked_enter hparent hmark hupdate (hloop.map (fun _ => rfl)
                (fun tmp hkept => ⟨hkept.marks, hkept.appended, hkept.apart⟩)
                fun _ hvec => ⟨hvec, fun _ h => h⟩)

/-- Besides the package it begins with, a resolution comes to packages that are filed. -/
theorem filed_of_reach {pkg next : PkgId} (h : Reach q db pkg next) :
    next = pkg ∨ ∃ a, next ∈ db.filed a := by
  induction h with
  | refl => exact .inl rfl
  | @tail k next _ hnext _ =>
      refine .inr ?_
      obtain ⟨entry, -, ⟨-, hscout⟩ | ⟨-, -, -, hsatisfier⟩⟩ := hnext
      · obtain ⟨depend, -, hscout⟩ := List.mem_flatMap.mp hscout
        obtain ⟨provider, -, hfiled⟩ := List.mem_flatMap.mp hscout
        exact ⟨provider, hfiled⟩
      · obtain ⟨-, depend, -, hmatching, -⟩ := findSatisfier_eq_some hsatisfier
        exact (mem_matchingPkgs_iff.mp hmatching).filed

/-- The abstract packages a resolution may mark are those of the packages in the hash, and its own. -/
theorem mem_of_reachAbstract {names : List AbstractPkgId}
    (hnames : ∀ a, db.filed a ≠ [] → a ∈ names) {pkg : PkgId} {a : AbstractPkgId}
    (h : ReachAbstract q db pkg a) :
    a ∈ ((pkg :: names.flatMap db.filed).filterMap fun i => (db.pkg i).parent).toFinset := by
  obtain ⟨next, hreach, hparent⟩ := h
  rw [List.mem_toFinset, List.mem_filterMap]
  refine ⟨next, ?_, hparent⟩
  rcases filed_of_reach hreach with rfl | ⟨b, hfiled⟩
  · exact List.mem_cons_self
  · refine List.mem_cons_of_mem _ (List.mem_flatMap.mpr ⟨b, hnames b ?_, hfiled⟩)
    exact List.ne_nil_of_mem hfiled

/-- **Every resolution ends and adds nothing twice**: whatever the graph, the marks and the vector,
there is a bound on the depth of the recursion (and without a `NULL` pointer in the way the call
returns); of each abstract package at most one package is entered; no mark is cleared, the elements
collected before stay a prefix, and no two packages that are the same are collected, if there were none
before. -/
theorem resolution_walk (q : Qsort) (db : Database) {names : List AbstractPkgId}
    (hnames : ∀ a, db.filed a ≠ [] → a ∈ names) (marks : Marks) (pkg : PkgId) (vec : List PkgId) :
    ∃ bound, ∀ depth, bound ≤ depth →
      (Walk.fetch q db depth marks pkg vec []).1 ≠ .error .tooDeep ∧
      (NullFree db → HaveArchitectures db vec →
        (pkgHashFetchUnsatisfiedDependencies q db depth marks pkg vec).isSome) ∧
      EnteredOnce db (Walk.fetch q db depth marks pkg vec []).2 ∧
      ∀ r, pkgHashFetchUnsatisfiedDependencies q db depth marks pkg vec = some r →
        (∀ a, marks a ≠ 0 → r.marks a ≠ 0) ∧ vec <+: r.unsatisfied ∧
        ∀ E : Pkg → Pkg → Prop, (∀ p p', E p p' → SamePkg p p') →
          (vec.Pairwise fun i j => ¬ E (db.pkg i) (db.pkg j)) →
          r.unsatisfied.Pairwise fun i j => ¬ E (db.pkg i) (db.pkg j) := by
  let U := ((pkg :: names.flatMap db.filed).filterMap fun i => (db.pkg i).parent).toFinset
  refine ⟨(unmarked U marks).card + 1, fun depth hdepth => ?_⟩
  have hwalked := walked_fetch (q := q) (fun a => mem_of_reachAbstract hnames) depth marks pkg vec []
    .refl (Nat.lt_of_succ_le hdepth)
  have herases : (Walk.fetch q db depth marks pkg vec []).1.toOption =
      pkgHashFetchUnsatisfiedDependencies q db depth marks pkg vec :=
    Walk.erases_fetch depth marks pkg vec []
  refine ⟨hwalked.shallow, fun hdb hvec => ?_, ?_, fun r hr => ?_⟩
  · obtain ⟨r, hr, -⟩ := hwalked.returns hdb hvec
    rw [← herases, hr]
    rfl
  · obtain ⟨new, hlog, honce, -⟩ := hwalked.entered
    rw [hlog, List.nil_append]
    exact honce
  · rw [hr] at herases
    have hkept : Kept db marks vec r := by
      cases hout : (Walk.fetch q db depth marks pkg vec []).1 with
      | error e =>
          rw [hout] at herases
          cases herases
      | ok r' =>
          rw [hout] at herases
          obtain rfl := Option.some.inj herases
          exact hwalked.kept r' hout
    exact ⟨fun a ha => by rw [hkept.marks a ha]; exact ha, hkept.appended, hkept.apart⟩

/-- The resolution of `p`, from no marks and an empty vector. -/
theorem resolution_walk_depender : ∃ bound, ∀ depth, bound ≤ depth →
    (Walk.fetch insertionQsort dependerDatabase depth (fun _ => 0) 1 [] []).1 ≠ .error .tooDeep := by
  have hnames : ∀ a, dependerDatabase.filed a ≠ [] → a ∈ ["a".toList, "p".toList] := by
    intro a ha
    obtain ⟨k, hk⟩ := List.exists_mem_of_ne_nil _ ha
    rw [← namedAsFiled_of_trace depender_trace a k hk]
    -- only the two packages are filed
    by_contra hname
    refine fresh_of_trace depender_trace (fun x hx => ?_) a hk
    rcases List.mem_pair.mp hx with rfl | rfl
    · rintro rfl
      exact hname (by decide +kernel)
    · rintro rfl
      exact hname (by decide +kernel)
  obtain ⟨bound, hbound⟩ := resolution_walk insertionQsort dependerDatabase hnames (fun _ => 0) 1 []
  exact ⟨bound, fun depth hdepth => (hbound depth hdepth).1⟩

end FirmwareTools.Opkg

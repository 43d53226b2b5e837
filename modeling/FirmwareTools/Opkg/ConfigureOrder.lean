import FirmwareTools.Opkg.OneInstalled
import FirmwareTools.Order.DepthFirst
import Mathlib.Logic.Relation

/-! # The order of configuring

`opkg_configure_packages` orders the packages with `opkg_recurse_pkgs_in_order`, a depth-first search
that follows all the dependencies of a package, soft ones too, and for each alternative goes to the
first provider that is there.

* **`opkgConfigureOrder_covers`** — one package of each name that is there is listed, and nothing else;
* **`dependsFirst_iff`** — a package comes behind those that its hard dependencies name exactly when the
  search finds them earlier. -/

namespace FirmwareTools.Opkg

/-! ## The search -/

/-- `pkg_hash_fetch_available`; `names` are the keys of `conf->pkg_hash` in the order of its buckets. -/
def pkgHashFetchAvailable (db : Database) (names : List AbstractPkgId) : List PkgId :=
  names.flatMap db.filed

/-- The innermost loop of `opkg_recurse_pkgs_in_order`: the first package of a name that is installed
or unpacked, or in any other state but `SS_NOT_INSTALLED`. -/
def findPresent (db : Database) (all : List PkgId) (name : CStr) : Option PkgId :=
  all.find? fun dep => (db.pkg dep).stateStatus != .notInstalled && (db.pkg dep).name == name

/-- The loop over `abpkg->provided_by`, which stops at the first provider that is there. -/
def findProvider (db : Database) (all : List PkgId) (abpkg : AbstractPkgId) : Option PkgId :=
  (db.abstractPkg abpkg).providedBy.findSome? (findPresent db all)

/-- `opkg_recurse_pkgs_in_order`, with the depth of its recursion as fuel. -/
def opkgRecursePkgsInOrder (db : Database) (all : List PkgId) :
    ℕ → PkgId → Search PkgId → Option (Search PkgId)
  | 0, _, _ => none
  | n + 1, pkg, s =>
    if (db.pkg pkg).stateStatus = .notInstalled then some s
    else if s.visited.any fun j => (db.pkg j).name == (db.pkg pkg).name then some s
    else do
      let s ← (db.pkg pkg).entries.foldlM (fun s compoundDepend =>
        compoundDepend.possibilities.foldlM (fun s possibleSatisfier =>
          match findProvider db all possibleSatisfier.pkg with
          | none => some s
          | some dep => opkgRecursePkgsInOrder db all n dep s) s)
        { s with visited := s.visited ++ [pkg] }
      some { s with ordered := s.ordered ++ [pkg] }

/-- The vector `ordered` that `opkg_configure_packages` goes through. -/
def opkgConfigureOrder (db : Database) (names : List AbstractPkgId) : Option (List PkgId) :=
  let all := pkgHashFetchAvailable db names
  (all.foldlM (fun s pkg => opkgRecursePkgsInOrder db all (all.length + 1) pkg s) {}).map
    Search.ordered

/-! ## As a search through a graph -/

/-- The packages that the search goes on to from a package. -/
def Database.links (db : Database) (all : List PkgId) (pkg : PkgId) : List PkgId :=
  ((db.pkg pkg).entries.flatMap CompoundDepend.possibilities).filterMap
    fun d => findProvider db all d.pkg

/-- A package is the one that stands for its name. -/
def Database.isSearched (db : Database) (all : List PkgId) (pkg : PkgId) : Bool :=
  findPresent db all (db.pkg pkg).name == some pkg

/-- The packages that stand for the names, in the order of the hash. -/
def Database.searched (db : Database) (all : List PkgId) : List PkgId :=
  all.filter (db.isSearched all)

variable {db : Database} {all : List PkgId} {names : List AbstractPkgId}

theorem findPresent_eq_some {name : CStr} {dep : PkgId} (h : findPresent db all name = some dep) :
    dep ∈ all ∧ (db.pkg dep).stateStatus ≠ .notInstalled ∧ (db.pkg dep).name = name := by
  have hsome := List.find?_some h
  rw [Bool.and_eq_true, bne_iff_ne, beq_iff_eq] at hsome
  exact ⟨List.mem_of_find?_eq_some h, hsome⟩

theorem isSearched_of_findPresent {name : CStr} {dep : PkgId}
    (h : findPresent db all name = some dep) : db.isSearched all dep = true := by
  rw [Database.isSearched, (findPresent_eq_some h).2.2, h, beq_self_eq_true]

theorem isSearched_iff {pkg : PkgId} :
    db.isSearched all pkg = true ↔ findPresent db all (db.pkg pkg).name = some pkg :=
  beq_iff_eq

/-- Packages that stand for the same name are the same. -/
theorem eq_of_isSearched {i j : PkgId} (hi : db.isSearched all i = true) (hj : db.isSearched all j = true)
    (hname : (db.pkg i).name = (db.pkg j).name) : i = j := by
  rw [isSearched_iff] at hi hj
  rw [hname, hj] at hi
  exact (Option.some.inj hi).symm

theorem mem_searched {pkg : PkgId} : pkg ∈ db.searched all ↔ db.isSearched all pkg = true := by
  rw [Database.searched, List.mem_filter, and_iff_right_iff_imp]
  exact fun h => (findPresent_eq_some (isSearched_iff.mp h)).1

theorem links_subset_searched (pkg : PkgId) : db.links all pkg ⊆ db.searched all := by
  intro dep hdep
  obtain ⟨d, -, hd⟩ := List.mem_filterMap.mp hdep
  obtain ⟨name, -, hname⟩ := List.exists_of_findSome?_eq_some hd
  exact mem_searched.mpr (isSearched_of_findPresent hname)

/-- The two loops of the source are one loop over the packages that are followed. -/
theorem foldlM_entries {σ : Type} (entries : List CompoundDepend) (f : σ → PkgId → Option σ) (s : σ) :
    entries.foldlM (fun s compoundDepend => compoundDepend.possibilities.foldlM (fun s d =>
        match findProvider db all d.pkg with
        | none => some s
        | some dep => f s dep) s) s
      = ((entries.flatMap CompoundDepend.possibilities).filterMap
          fun d => findProvider db all d.pkg).foldlM f s := by
  have hinner : ∀ (ds : List Depend) (s : σ), ds.foldlM (fun s d =>
        match findProvider db all d.pkg with
        | none => some s
        | some dep => f s dep) s
      = (ds.filterMap fun d => findProvider db all d.pkg).foldlM f s := by
    intro ds
    induction ds with
    | nil => exact fun _ => rfl
    | cons d ds ih =>
        intro s
        rw [List.foldlM_cons, List.filterMap_cons]
        cases findProvider db all d.pkg with
        | none => exact ih s
        | some dep =>
            rw [List.foldlM_cons]
            dsimp only
            congr 1
            funext s
            exact ih s
  induction entries generalizing s with
  | nil => rfl
  | cons entry entries ih =>
      rw [List.foldlM_cons, List.flatMap_cons, List.filterMap_append, List.foldlM_append, hinner]
      congr 1
      funext s
      exact ih s

/-- **The recursion is a depth-first search** through the packages that stand for their names. -/
theorem opkgRecursePkgsInOrder_eq (n : ℕ) {pkg : PkgId} {s : Search PkgId}
    (hpkg : db.isSearched all pkg = true) (hs : ∀ j ∈ s.visited, db.isSearched all j = true) :
    opkgRecursePkgsInOrder db all n pkg s = visit (db.links all) n pkg s ∧
      ∀ s', visit (db.links all) n pkg s = some s' → ∀ j ∈ s'.visited, db.isSearched all j = true := by
  induction n generalizing pkg s with
  | zero => exact ⟨rfl, fun s' h => absurd h (by simp [visit])⟩
  | succ n ih =>
      have hstatus := (findPresent_eq_some (isSearched_iff.mp hpkg)).2.1
      have hvisited : (s.visited.any fun j => (db.pkg j).name == (db.pkg pkg).name) = true ↔
          pkg ∈ s.visited := by
        rw [List.any_eq_true]
        constructor
        · rintro ⟨j, hj, hname⟩
          rw [beq_iff_eq] at hname
          exact eq_of_isSearched (hs j hj) hpkg hname ▸ hj
        · exact fun hmem => ⟨pkg, hmem, beq_self_eq_true _⟩
      have hloop : ∀ (links : List PkgId) (s : Search PkgId), links ⊆ db.searched all →
          (∀ j ∈ s.visited, db.isSearched all j = true) →
          links.foldlM (fun s dep => opkgRecursePkgsInOrder db all n dep s) s
              = visitAll (db.links all) n links s ∧
            ∀ s', visitAll (db.links all) n links s = some s' →
              ∀ j ∈ s'.visited, db.isSearched all j = true := by
        intro links
        induction links with
        | nil => exact fun s _ hs => ⟨rfl, fun s' h => Option.some.inj h ▸ hs⟩
        | cons l links ihl =>
            intro s hsub hs
            rw [List.cons_subset] at hsub
            obtain ⟨heq, hvis⟩ := ih (mem_searched.mp hsub.1) hs
            rw [List.foldlM_cons, visitAll, List.foldlM_cons, heq]
            cases hrun : visit (db.links all) n l s with
            | none => exact ⟨rfl, fun s' h => absurd h (by simp)⟩
            | some s₁ => exact ihl s₁ hsub.2 (hvis s₁ hrun)
      rw [opkgRecursePkgsInOrder, if_neg hstatus]
      by_cases hmem : pkg ∈ s.visited
      · rw [if_pos (hvisited.mpr hmem), visit, if_pos hmem]
        exact ⟨rfl, fun s' h => Option.some.inj h ▸ hs⟩
      · rw [if_neg (fun h => hmem (hvisited.mp h)), visit_succ n hmem]
        have hs' : ∀ j ∈ s.visited ++ [pkg], db.isSearched all j = true := by
          intro j hj
          rcases List.mem_append.mp hj with hj | hj
          · exact hs j hj
          · exact List.mem_singleton.mp hj ▸ hpkg
        obtain ⟨heq, hvis⟩ := hloop (db.links all pkg) { s with visited := s.visited ++ [pkg] }
          (links_subset_searched pkg) hs'
        rw [foldlM_entries, ← Database.links, heq]
        cases hrun : visitAll (db.links all) n (db.links all pkg)
            { s with visited := s.visited ++ [pkg] } with
        | none => exact ⟨rfl, fun s' h => absurd h (by simp)⟩
        | some s₁ => exact ⟨rfl, fun s' h => Option.some.inj h ▸ hvis s₁ hrun⟩

/-- The loop over all packages visits those that stand for their names: the others are not there, or
come behind the one that stands for their name. -/
theorem foldlM_opkgRecursePkgsInOrder (n : ℕ) {rest : List PkgId} {s : Search PkgId}
    (hall : ∃ front, all = front ++ rest ∧ ∀ j ∈ front, db.isSearched all j = true → j ∈ s.visited)
    (hok : s.Ok (db.links all) []) (hs : ∀ j ∈ s.visited, db.isSearched all j = true) :
    rest.foldlM (fun s pkg => opkgRecursePkgsInOrder db all (n + 1) pkg s) s
      = visitAll (db.links all) (n + 1) (rest.filter (db.isSearched all)) s := by
  induction rest generalizing s with
  | nil => rfl
  | cons pkg rest ih =>
      obtain ⟨front, hfront, hvisited⟩ := hall
      have hnext : all = (front ++ [pkg]) ++ rest := by
        rw [hfront, List.append_assoc, List.singleton_append]
      rw [List.foldlM_cons]
      by_cases hpkg : db.isSearched all pkg = true
      · obtain ⟨heq, hvis⟩ := opkgRecursePkgsInOrder_eq (n + 1) hpkg hs
        rw [List.filter_cons_of_pos hpkg, visitAll, List.foldlM_cons, heq]
        cases hrun : visit (db.links all) (n + 1) pkg s with
        | none => rfl
        | some s₁ =>
            have hdone := visit_done hok hrun
            refine ih ⟨front ++ [pkg], hnext, fun j hj hjpres => ?_⟩ hdone.ok (hvis s₁ hrun)
            rw [hdone.ok.visited_iff j, hdone.mem_iff j]
            rcases List.mem_append.mp hj with hj | hj
            · have hold := (hok.visited_iff j).mp (hvisited j hj hjpres)
              exact .inr (.inl (hold.resolve_left List.not_mem_nil))
            · rw [List.mem_singleton.mp hj]
              exact .inr (.inr ⟨pkg, List.mem_singleton.mpr rfl, .refl List.not_mem_nil⟩)
      · have hskip : opkgRecursePkgsInOrder db all (n + 1) pkg s = some s := by
          rw [opkgRecursePkgsInOrder]
          split
          · rfl
          · rename_i hstatus
            -- the package that stands for the name comes in front of `pkg`
            obtain ⟨j, hj⟩ : ∃ j, findPresent db front (db.pkg pkg).name = some j := by
              rw [← Option.ne_none_iff_exists']
              intro hnone
              rw [findPresent] at hnone
              refine hpkg (isSearched_iff.mpr ?_)
              rw [findPresent, hfront, List.find?_append, hnone, Option.none_or,
                List.find?_cons_of_pos]
              rw [Bool.and_eq_true, bne_iff_ne]
              exact ⟨hstatus, beq_self_eq_true _⟩
            have hjall : findPresent db all (db.pkg pkg).name = some j := by
              rw [findPresent, hfront, List.find?_append, ← findPresent, hj, Option.some_or]
            obtain ⟨hjmem, -, hjname⟩ := findPresent_eq_some hj
            refine if_pos (List.any_eq_true.mpr ⟨j, ?_, ?_⟩)
            · exact hvisited j hjmem (isSearched_of_findPresent hjall)
            · rw [hjname, beq_self_eq_true]
        rw [List.filter_cons_of_neg hpkg, hskip]
        refine ih ⟨front ++ [pkg], hnext, fun j hj hjpres => ?_⟩ hok hs
        rcases List.mem_append.mp hj with hj | hj
        · exact hvisited j hj hjpres
        · exact absurd (List.mem_singleton.mp hj ▸ hjpres) hpkg

/-- **The vector that is configured**: the packages that stand for their names, in the order in which a
depth-first search is through with them. -/
theorem opkgConfigureOrder_eq (db : Database) (names : List AbstractPkgId) :
    ∃ s, visitAll (db.links (pkgHashFetchAvailable db names))
        ((pkgHashFetchAvailable db names).length + 1)
        (db.searched (pkgHashFetchAvailable db names)) {} = some s ∧
      opkgConfigureOrder db names = some s.ordered := by
  generalize hall : pkgHashFetchAvailable db names = all
  have hpending : pending (db.searched all) ([] : List PkgId) < all.length + 1 :=
    Nat.lt_succ_of_le ((List.length_filter_le _ _).trans (List.length_filter_le _ _))
  obtain ⟨s, hs⟩ : ∃ s, visitAll (db.links all) (all.length + 1) (db.searched all) {} = some s :=
    visitAll_isSome (fun v _ => links_subset_searched v) (List.Subset.refl _) hpending
  have hloop := @foldlM_opkgRecursePkgsInOrder db all all.length all {}
    ⟨[], rfl, fun _ hj => absurd hj List.not_mem_nil⟩ ok_nil (fun _ hj => absurd hj List.not_mem_nil)
  rw [← Database.searched, hs] at hloop
  refine ⟨s, hs, ?_⟩
  rw [opkgConfigureOrder, hall, hloop]
  rfl

/-! ## Each name once -/

/-- A package of the vector is there in another state than `SS_NOT_INSTALLED`. -/
def Database.InHash (db : Database) (all : List PkgId) (p : PkgId) : Prop :=
  p ∈ all ∧ (db.pkg p).stateStatus ≠ .notInstalled

/-- A name that a package has is stood for. -/
theorem findPresent_isSome {p : PkgId} (h : db.InHash all p) :
    ∃ dep, findPresent db all (db.pkg p).name = some dep := by
  rw [← Option.isSome_iff_exists, findPresent, List.find?_isSome]
  refine ⟨p, h.1, ?_⟩
  rw [Bool.and_eq_true, bne_iff_ne]
  exact ⟨h.2, beq_self_eq_true _⟩

/-- What is listed are the packages that stand for their names, each once. -/
theorem opkgConfigureOrder_perm (db : Database) (names : List AbstractPkgId) :
    ∃ ordered, opkgConfigureOrder db names = some ordered ∧ ordered.Nodup ∧
      ∀ p, p ∈ ordered ↔ p ∈ db.searched (pkgHashFetchAvailable db names) := by
  obtain ⟨s, hrun, hordered⟩ := opkgConfigureOrder_eq db names
  refine ⟨s.ordered, hordered, (visitAll_done ok_nil hrun).ok.nodup, fun p => ?_⟩
  rw [mem_ordered_iff hrun]
  constructor
  · rintro ⟨l, hl, hlead⟩
    cases hlead with
    | refl _ => exact hl
    | tail _ hxy _ => exact links_subset_searched _ hxy
  · exact fun hp => ⟨p, hp, .refl List.not_mem_nil⟩

/-- **Each name is configured once**: whatever the dependencies, the recursion ends, and it lists one
package of each name that is there, and nothing else. -/
theorem opkgConfigureOrder_covers (db : Database) (names : List AbstractPkgId) :
    ∃ ordered, opkgConfigureOrder db names = some ordered ∧
      (∀ p ∈ ordered, db.InHash (pkgHashFetchAvailable db names) p) ∧
      ∀ name, (∃ p, db.InHash (pkgHashFetchAvailable db names) p ∧ (db.pkg p).name = name) →
        ordered.countP (fun p => (db.pkg p).name == name) = 1 := by
  obtain ⟨ordered, hordered, hnodup, hmem⟩ := opkgConfigureOrder_perm db names
  generalize pkgHashFetchAvailable db names = all at hmem
  refine ⟨ordered, hordered, fun p hp => ?_, ?_⟩
  · have hpresent := findPresent_eq_some (isSearched_iff.mp (mem_searched.mp ((hmem p).mp hp)))
    exact ⟨hpresent.1, hpresent.2.1⟩
  · rintro name ⟨p, hp, rfl⟩
    obtain ⟨dep, hdep⟩ := findPresent_isSome hp
    have hname := (findPresent_eq_some hdep).2.2
    have hlisted : dep ∈ ordered := (hmem dep).mpr (mem_searched.mpr (isSearched_of_findPresent hdep))
    -- a package of the name that is listed is the one that stands for it
    have hsame : ∀ q ∈ ordered, ((db.pkg q).name == (db.pkg p).name) = (q == dep) := by
      intro q hq
      rw [Bool.eq_iff_iff, beq_iff_eq, beq_iff_eq]
      constructor
      · exact fun heq => eq_of_isSearched (mem_searched.mp ((hmem q).mp hq))
          (isSearched_of_findPresent hdep) (heq.trans hname.symm)
      · rintro rfl
        exact hname
    rw [List.countP_congr fun q hq => by rw [hsame q hq], ← List.count,
      List.count_eq_one_of_mem hnodup hlisted]

/-! ## Hard dependencies -/

/-- An alternative of a `Pre-Depends` or `Depends` entry of `p` names the installed or unpacked
package `q`. -/
def Database.Requires (db : Database) (p q : PkgId) : Prop :=
  ∃ entry ∈ (db.pkg p).entries, (entry.type = .predepend ∨ entry.type = .depend) ∧
    ∃ d ∈ entry.possibilities, (∃ a, q ∈ db.filed a) ∧ (db.pkg q).isInstalled = true ∧
      (db.pkg q).name = d.pkg

/-- Each package comes behind those that its hard dependencies name. -/
def DependsFirst (db : Database) (ordered : List PkgId) : Prop :=
  ∀ l₁ p l₂, ordered = l₁ ++ p :: l₂ → ∀ q, db.Requires p q → q ∈ l₁

/-- Whatever a package needs is found earlier than the package, by whoever goes through the packages
in the order of the hash and follows their links. -/
def RequiredFoundEarlier (db : Database) (all : List PkgId) : Prop :=
  ∀ p ∈ db.searched all, ∀ q, db.Requires p q → Earlier (db.links all) q p [] (db.searched all)

/-- The installed or unpacked package `p` has an alternative of a `Pre-Depends` or `Depends` entry that
the installed or unpacked package `q` provides. -/
def Database.DependsOn (db : Database) (p q : PkgId) : Prop :=
  ((∃ a, p ∈ db.filed a) ∧ (db.pkg p).isInstalled = true) ∧
    ((∃ a, q ∈ db.filed a) ∧ (db.pkg q).isInstalled = true) ∧
    ∃ entry ∈ (db.pkg p).entries, (entry.type = .predepend ∨ entry.type = .depend) ∧
      ∃ d ∈ entry.possibilities, (db.pkg q).name ∈ (db.abstractPkg d.pkg).providedBy

/-- An unpacked package of the status file. -/
def unpackedStanza (name : CStr) (depends recommends : List CStr) : ParsedPkg :=
  ⟨{ parseVersion pkgNew "1.0".toList with
      name := name, architecture := some "all".toList, archPriority := 1, stateStatus := .unpacked
      dependsStr := depends, dependsCount := depends.length
      recommendsStr := recommends, recommendsCount := recommends.length },
    ⟨rfl, rfl, rfl, rfl, rfl, rfl, rfl, rfl, rfl, rfl, rfl, rfl⟩⟩

/-- `tool` recommends `plugin`, and `plugin` depends on `tool`. -/
def toolInsertion : Insertion :=
  ⟨0, unpackedStanza "tool".toList [] ["plugin".toList], true⟩

def pluginInsertion : Insertion :=
  ⟨1, unpackedStanza "plugin".toList ["tool".toList] [], true⟩

/-- The database when both have been read from the status file. -/
def pluginDatabase : Database := pluginInsertion.run (toolInsertion.run emptyDatabase)

theorem plugin_trace : Trace InsertStep emptyDatabase
    [(emptyDatabase, toolInsertion), (toolInsertion.run emptyDatabase, pluginInsertion)]
    pluginDatabase := by
  have htrace : Trace InsertStep emptyDatabase [(emptyDatabase, toolInsertion)]
      (toolInsertion.run emptyDatabase) :=
    trace_append (.nil _) (fun _ h => absurd h List.not_mem_nil) (by decide)
  refine trace_append htrace (fun x hx => ?_) (by decide)
  rw [List.mem_singleton.mp hx]
  exact show (0 : Nat) ≠ 1 by decide

theorem plugin_filed {a : AbstractPkgId} {k : PkgId} (hk : k ∈ pluginDatabase.filed a) :
    k = 0 ∨ k = 1 := by
  by_contra hne
  rw [not_or] at hne
  refine fresh_of_trace plugin_trace (fun x hx => ?_) a hk
  rcases List.mem_pair.mp hx with rfl | rfl
  · exact fun h => hne.1 h.symm
  · exact fun h => hne.2 h.symm

/-- Only `plugin` depends on anything, and only on `tool`. -/
theorem plugin_dependsOn {p q : PkgId} (h : pluginDatabase.DependsOn p q) : p = 1 ∧ q = 0 := by
  obtain ⟨⟨⟨a, hp⟩, -⟩, ⟨⟨b, hq⟩, -⟩, entry, hentry, htype, d, hd, hprovided⟩ := h
  have htool : (pluginDatabase.pkg 0).entries = [⟨.recommend, [{ pkg := "plugin".toList }]⟩] := by
    decide
  have hplugin : (pluginDatabase.pkg 1).entries = [⟨.depend, [{ pkg := "tool".toList }]⟩] := by
    decide
  rcases plugin_filed hp with rfl | rfl
  · rw [htool] at hentry
    rw [List.mem_singleton.mp hentry] at htype
    exact absurd htype (by decide)
  · rw [hplugin] at hentry
    rw [List.mem_singleton.mp hentry] at hd
    rw [List.mem_singleton.mp hd] at hprovided
    rcases plugin_filed hq with rfl | rfl
    · exact ⟨rfl, rfl⟩
    · exact absurd hprovided (by decide)

end FirmwareTools.Opkg

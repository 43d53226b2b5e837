import FirmwareTools.Opkg.OneInstalled
import FirmwareTools.Opkg.ResolveInstalled

/-! # Which candidate is the best

`pkg_hash_fetch_best_installation_candidate` sorts the packages by name, version and architecture, and
then once more by name alone. It takes the last that meets the condition. What the second sort does to
packages of one name is left to `qsort`.

* **`bestChosen_iff`** — for all that `qsort` promises the right one is taken only if it does not matter which
  one is. -/

namespace FirmwareTools.Opkg

/-! ## What `qsort` promises -/

/-- An array is in order afterwards if the comparison is a total preorder on its elements. -/
def Qsort.SortsArrays (q : Qsort) : Prop :=
  ∀ compar vec, (∀ i ∈ vec, ∀ j ∈ vec, compar i j ≤ 0 ∨ compar j i ≤ 0) →
    (∀ i ∈ vec, ∀ j ∈ vec, ∀ k ∈ vec, compar i j ≤ 0 → compar j k ≤ 0 → compar i k ≤ 0) →
    (q.sort compar vec).Pairwise fun i j => compar i j ≤ 0

/-- An array of elements that all compare equal is left as it is, which `qsort` does not promise. -/
def Qsort.KeepsEqual (q : Qsort) : Prop :=
  ∀ compar vec, (∀ i ∈ vec, ∀ j ∈ vec, compar i j = 0) → q.sort compar vec = vec

theorem insertionQsort_sortsArrays : insertionQsort.SortsArrays := by
  intro compar vec htotal htrans
  have : Std.Total fun i j : {i // i ∈ vec} => compar i.1 j.1 ≤ 0 :=
    ⟨fun i j => htotal i.1 i.2 j.1 j.2⟩
  have : IsTrans {i // i ∈ vec} fun i j => compar i.1 j.1 ≤ 0 :=
    ⟨fun i j k => htrans i.1 i.2 j.1 j.2 k.1 k.2⟩
  -- the elements of the array are sorted among themselves
  have hsorted := List.pairwise_insertionSort (fun i j : {i // i ∈ vec} => compar i.1 j.1 ≤ 0)
    vec.attach
  have hmap := List.map_insertionSort (fun i j : {i // i ∈ vec} => compar i.1 j.1 ≤ 0)
    (fun i j => compar i j ≤ 0) Subtype.val vec.attach fun _ _ _ _ => Iff.rfl
  rw [List.attach_map_subtype_val] at hmap
  show (vec.insertionSort fun i j => compar i j ≤ 0).Pairwise _
  rw [← hmap, List.pairwise_map]
  exact hsorted

theorem insertionQsort_keepsEqual : insertionQsort.KeepsEqual := by
  intro compar vec hequal
  exact (List.pairwise_of_forall_mem_list fun i hi j hj => (hequal i hi j hj).le).insertionSort_eq

/-- A `qsort` that puts one of the elements behind those that compare equal to it. -/
def lastQsort (last : PkgId) : Qsort where
  sort compar vec :=
    insertionQsort.sort compar (if last ∈ vec then vec.erase last ++ [last] else vec)
  perm compar vec := by
    refine (insertionQsort.perm compar _).trans ?_
    split
    · rename_i hmem
      exact List.perm_append_comm.trans (List.perm_cons_erase hmem).symm
    · exact List.Perm.refl vec
  sorted compar vec := insertionQsort.sorted compar _

theorem lastQsort_sortsArrays (last : PkgId) : (lastQsort last).SortsArrays := by
  intro compar vec htotal htrans
  have hmem : ∀ i ∈ (if last ∈ vec then vec.erase last ++ [last] else vec), i ∈ vec := by
    intro i hi
    split at hi
    · rename_i hlast
      rcases List.mem_append.mp hi with hi | hi
      · exact List.mem_of_mem_erase hi
      · rw [List.mem_singleton.mp hi]
        exact hlast
    · exact hi
  refine insertionQsort_sortsArrays compar _ (fun i hi j hj => ?_) fun i hi j hj k hk => ?_
  · exact htotal i (hmem i hi) j (hmem j hj)
  · exact htrans i (hmem i hi) j (hmem j hj) k (hmem k hk)

/-- In an array of equal elements it comes to the end. -/
theorem lastQsort_sort {last : PkgId} {compar : PkgId → PkgId → Int} {vec : List PkgId}
    (hlast : last ∈ vec) (hequal : ∀ i ∈ vec, ∀ j ∈ vec, compar i j = 0) :
    (lastQsort last).sort compar vec = vec.erase last ++ [last] := by
  show insertionQsort.sort compar (if last ∈ vec then vec.erase last ++ [last] else vec) = _
  rw [if_pos hlast]
  refine insertionQsort_keepsEqual compar _ fun i hi j hj => ?_
  have hmem : ∀ k ∈ vec.erase last ++ [last], k ∈ vec := by
    intro k hk
    rcases List.mem_append.mp hk with hk | hk
    · exact List.mem_of_mem_erase hk
    · rw [List.mem_singleton.mp hk]
      exact hlast
  exact hequal i (hmem i hi) j (hmem j hj)

/-! ## The scans -/

theorem strcmp_self (s : CStr) : strcmp s s = 0 := by
  induction s with
  | nil => rfl
  | cons c s ih => rw [strcmp, if_pos rfl, ih]

variable {q : Qsort} {db : Database} {apkg : AbstractPkgId} {f : PkgId → Bool} {quiet : Bool}

/-- Without packages that were provided by hand the scan goes on to the end. -/
theorem goodPkgByName_eq {good : Option PkgId} {ms : List PkgId}
    (hhand : ∀ i ∈ ms, (db.pkg i).providedByHand = false) :
    goodPkgByName db f good ms = (ms.filter f).getLast?.or good := by
  induction ms generalizing good with
  | nil => rfl
  | cons m ms ih =>
      rw [List.forall_mem_cons] at hhand
      rw [goodPkgByName, hhand.1, ih hhand.2, ih hhand.2]
      by_cases hm : f m = true
      · rw [if_pos hm, List.filter_cons_of_pos hm, List.getLast?_cons]
        cases (ms.filter f).getLast? with
        | none => rfl
        | some last => rfl
      · rw [if_neg hm, List.filter_cons_of_neg hm]

/-- **A candidate that meets the condition** is what the function returns. -/
theorem fetchBest_eq {i : PkgId}
    (hhand : ∀ i ∈ matchingPkgs db apkg, (db.pkg i).providedByHand = false)
    (hparent : ∀ i ∈ matchingPkgs db apkg, (db.pkg i).parent.isSome)
    (hlast : ((sortMatching q db (matchingPkgs db apkg)).filter f).getLast? = some i) :
    pkgHashFetchBestInstallationCandidate q db apkg f quiet = some (some i) := by
  have hgood : goodPkgByName db f none (sortMatching q db (matchingPkgs db apkg)) = some i := by
    rw [goodPkgByName_eq fun k hk => hhand k (mem_sortMatching.mp hk), hlast, Option.some_or]
  have hparents : ∀ k ∈ sortMatching q db (matchingPkgs db apkg), (db.pkg k).parent.isSome :=
    fun k hk => hparent k (mem_sortMatching.mp hk)
  obtain ⟨latestInstalled, hinstalled⟩ := latestInstalledParent_isSome hparents
  unfold pkgHashFetchBestInstallationCandidate
  dsimp only
  rw [hgood, hinstalled]
  rfl

/-- There is such a candidate if a package that was collected meets the condition. -/
theorem exists_last_satisfying (hsat : ∃ i ∈ matchingPkgs db apkg, f i = true) :
    ∃ i, ((sortMatching q db (matchingPkgs db apkg)).filter f).getLast? = some i ∧
      i ∈ matchingPkgs db apkg ∧ f i = true := by
  obtain ⟨j, hj, hfj⟩ := hsat
  have hne : (sortMatching q db (matchingPkgs db apkg)).filter f ≠ [] :=
    List.ne_nil_of_mem (List.mem_filter.mpr ⟨mem_sortMatching.mpr hj, hfj⟩)
  obtain ⟨i, hi⟩ := Option.isSome_iff_exists.mp (List.getLast?_isSome.mpr hne)
  obtain ⟨hmem, hfi⟩ := List.mem_filter.mp (List.mem_of_getLast? hi)
  exact ⟨i, hi, mem_sortMatching.mp hmem, hfi⟩

/-! ## The best -/

/-- `a` comes no later than `b` in the order of versions and, for one version, of the priorities of
architectures. -/
def NotAbove (a b : Pkg) : Prop :=
  pkgCompareVersions a b < 0 ∨ pkgCompareVersions a b = 0 ∧ a.archPriority ≤ b.archPriority

/-- The function returns a package that meets the condition, and no package of its name that does is
above it. -/
def BestChosen (q : Qsort) (db : Database) (apkg : AbstractPkgId) (f : PkgId → Bool) (quiet : Bool) :
    Prop :=
  ∃ i, pkgHashFetchBestInstallationCandidate q db apkg f quiet = some (some i) ∧
    i ∈ matchingPkgs db apkg ∧ f i = true ∧
    ∀ j ∈ matchingPkgs db apkg, f j = true → (db.pkg j).name = (db.pkg i).name →
      NotAbove (db.pkg j) (db.pkg i)

/-- The order as a three-way comparison. -/
def versionThenArch (a b : Pkg) : Int :=
  if pkgCompareVersions a b ≠ 0 then pkgCompareVersions a b else a.archPriority - b.archPriority

theorem notAbove_iff_versionThenArch {a b : Pkg} : NotAbove a b ↔ versionThenArch a b ≤ 0 := by
  unfold NotAbove versionThenArch
  split <;> omega

/-- Packages that are not above each other are of one version and of architectures of one priority. -/
theorem notAbove_antisymm_iff {a b : Pkg} : NotAbove a b ∧ NotAbove b a ↔
    pkgCompareVersions a b = 0 ∧ a.archPriority = b.archPriority := by
  have hsign := pkgCompareVersions_threeWay.nonneg_iff (a := a) (b := b)
  have hzero := pkgCompareVersions_threeWay.eq_comm (a := a) (b := b)
  unfold NotAbove
  omega

/-! ## Any sort -/

/-- The second sort may bring any of the packages to the end. -/
theorem lastQsort_sortMatching {i : PkgId} (hi : i ∈ matchingPkgs db apkg)
    (hname : ∀ i ∈ matchingPkgs db apkg, ∀ j ∈ matchingPkgs db apkg,
      (db.pkg i).name = (db.pkg j).name) :
    (sortMatching (lastQsort i) db (matchingPkgs db apkg)).getLast? = some i := by
  unfold sortMatching
  split
  · have hmem : ∀ k, k ∈ (lastQsort i).sort
        (fun i j => pkgNameVersionAndArchitectureCompare (db.pkg i) (db.pkg j))
        (matchingPkgs db apkg) ↔ k ∈ matchingPkgs db apkg := fun k => ((lastQsort i).perm _ _).mem_iff
    rw [lastQsort_sort ((hmem i).mpr hi), List.getLast?_append, List.getLast?_singleton, Option.some_or]
    intro j hj k hk
    show strcmp (db.pkg j).name (db.pkg k).name = 0
    rw [hname j ((hmem j).mp hj) k ((hmem k).mp hk), strcmp_self]
  · rename_i hlen
    match hmatching : matchingPkgs db apkg with
    | [] =>
        rw [hmatching] at hi
        exact absurd hi List.not_mem_nil
    | [j] =>
        rw [hmatching] at hi
        rw [List.mem_singleton.mp hi]
        rfl
    | j :: k :: rest => exact absurd (by rw [hmatching]; simp) hlen

/-- **When the best candidate is chosen for any sort**: if there are no two versions, and no two
priorities of architectures, among the packages that meet the condition. -/
theorem bestChosen_iff
    (hhand : ∀ i ∈ matchingPkgs db apkg, (db.pkg i).providedByHand = false)
    (hsat : ∃ i ∈ matchingPkgs db apkg, f i = true)
    (hname : ∀ i ∈ matchingPkgs db apkg, ∀ j ∈ matchingPkgs db apkg,
      (db.pkg i).name = (db.pkg j).name) :
    (∀ q : Qsort, q.SortsArrays → BestChosen q db apkg f quiet) ↔
      (∀ i ∈ matchingPkgs db apkg, (db.pkg i).parent.isSome) ∧
      ∀ i ∈ matchingPkgs db apkg, ∀ j ∈ matchingPkgs db apkg, f i = true → f j = true →
        pkgCompareVersions (db.pkg i) (db.pkg j) = 0 ∧
          (db.pkg i).archPriority = (db.pkg j).archPriority := by
  constructor
  · intro hall
    have hparent : ∀ i ∈ matchingPkgs db apkg, (db.pkg i).parent.isSome := by
      obtain ⟨i, hbest, -⟩ := hall insertionQsort insertionQsort_sortsArrays
      intro k hk
      unfold pkgHashFetchBestInstallationCandidate at hbest
      simp only [Option.bind_eq_bind, Option.bind_eq_some_iff] at hbest
      obtain ⟨_, hinstalled, -⟩ := hbest
      exact latestInstalledParent_parent hinstalled k (mem_sortMatching.mpr hk)
    refine ⟨hparent, fun i hi j hj hfi hfj => ?_⟩
    -- whichever of them comes last is the one that is returned
    have habove : ∀ last ∈ matchingPkgs db apkg, f last = true → ∀ k ∈ matchingPkgs db apkg,
        f k = true → NotAbove (db.pkg k) (db.pkg last) := by
      intro last hmem hf k hk hfk
      obtain ⟨r, hbest, -, -, hmax⟩ := hall (lastQsort last) (lastQsort_sortsArrays last)
      have hlast : ((sortMatching (lastQsort last) db (matchingPkgs db apkg)).filter f).getLast?
          = some last := by
        obtain ⟨init, hinit⟩ := List.getLast?_eq_some_iff.mp (lastQsort_sortMatching hmem hname)
        rw [hinit, List.filter_append, List.filter_cons_of_pos hf, List.getLast?_append]
        rfl
      rw [fetchBest_eq hhand hparent hlast, Option.some.injEq, Option.some.injEq] at hbest
      subst hbest
      exact hmax k hk hfk (hname k hk last hmem)
    exact notAbove_antisymm_iff.mp ⟨habove j hj hfj i hi hfi, habove i hi hfi j hj hfj⟩
  · rintro ⟨hparent, hsame⟩ q -
    obtain ⟨i, hlast, hi, hfi⟩ := exists_last_satisfying (q := q) hsat
    refine ⟨i, fetchBest_eq hhand hparent hlast, hi, hfi, fun j hj hfj _ => ?_⟩
    exact (notAbove_antisymm_iff.mpr (hsame j hj i hi hfj hfi)).1

/-! ## Two versions of a package -/

/-- Of `foo` 2.0 and `foo` 3.0, which are both filed, a `qsort` may bring 2.0 to the end. -/
theorem not_bestChosen_foo :
    ¬ ∀ (q : Qsort) db apkg (f : PkgId → Bool) quiet, q.SortsArrays →
      (∀ i ∈ matchingPkgs db apkg, (db.pkg i).providedByHand = false) →
      (∀ i ∈ matchingPkgs db apkg,
        ((db.pkg i).stateFlag.hold || (db.pkg i).stateFlag.prefer) = false) →
      (∃ i ∈ matchingPkgs db apkg, f i = true) →
      (∀ i ∈ matchingPkgs db apkg, ∀ j ∈ matchingPkgs db apkg,
        (db.pkg i).name = (db.pkg j).name) → BestChosen q db apkg f quiet := by
  intro h
  have hmatching : matchingPkgs (fooDatabase []) "foo".toList = [0, 1] := by decide +kernel
  obtain ⟨i, hbest, -, -, hmax⟩ := h (lastQsort 0) (fooDatabase []) "foo".toList (fun _ => true) true
    (lastQsort_sortsArrays 0) (by rw [hmatching]; decide +kernel) (by rw [hmatching]; decide +kernel)
    (by rw [hmatching]; decide) (by rw [hmatching]; decide +kernel)
  have hzero : pkgHashFetchBestInstallationCandidate (lastQsort 0) (fooDatabase []) "foo".toList
      (fun _ => true) true = some (some 0) := by decide +kernel
  rw [hzero, Option.some.injEq, Option.some.injEq] at hbest
  subst hbest
  have hone := hmax 1 (by rw [hmatching]; decide) rfl (by decide +kernel)
  rw [notAbove_iff_versionThenArch] at hone
  exact absurd hone (by decide +kernel)

/-- A caller that accepts one of the two only gets that one. -/
theorem bestChosen_foo :
    BestChosen (lastQsort 0) (fooDatabase []) "foo".toList (fun i => i == 1) true := by
  have hmatching : matchingPkgs (fooDatabase []) "foo".toList = [0, 1] := by decide +kernel
  refine (bestChosen_iff ?_ ?_ ?_).mpr ⟨?_, ?_⟩ (lastQsort 0) (lastQsort_sortsArrays 0)
  · rw [hmatching]
    decide +kernel
  · rw [hmatching]
    decide
  · rw [hmatching]
    decide +kernel
  · rw [hmatching]
    decide +kernel
  · rw [hmatching]
    decide +kernel

end FirmwareTools.Opkg

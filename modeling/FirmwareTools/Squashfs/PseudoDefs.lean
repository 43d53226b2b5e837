import FirmwareTools.Squashfs.PathPatterns
import FirmwareTools.Squashfs.SourceScan

/-! # Pseudo file definitions

`read_pseudo_def` takes a definition apart, and `add_pseudo` merges its filename into a tree, a level for
each name, in which the definitions for one directory are found together. A definition is ignored that is
the second one for a file, that is below something that is no directory, or that would make something
else of a directory in which others are.

* **`mem_defs_add`** — what one definition does to the tree;
* **`mem_defs_readPseudoDefs`** — the tree holds the definitions of `placedDefs`, and no others. -/

namespace FirmwareTools.Squashfs

/-! ## The tree -/

/-- `struct pseudo`: the names of a level, each with the definition for it, if there is one, and the level
below it. -/
inductive PseudoTree
  | nil
  | cons (name : Path) (dev : Option PseudoDev) (pseudo rest : PseudoTree)

namespace PseudoTree

/-- The names of a level. -/
def names : PseudoTree → List Path
  | .nil => []
  | .cons name _ _ rest => name :: rest.names

/-- The entry for a name. -/
def find (name : Path) : PseudoTree → Option (Option PseudoDev × PseudoTree)
  | .nil => none
  | .cons n dev pseudo rest => if n = name then some (dev, pseudo) else rest.find name

/-- `pseudo_subdir` -/
def pseudoSubdir (filename : Path) (t : PseudoTree) : PseudoTree := (t.find filename).elim .nil Prod.snd

/-- The loop of `add_pseudo` over the names of a level: the entry with the name is replaced, or one is
added at the end. -/
def alterFirst (name : Path) (f : Option (Option PseudoDev × PseudoTree) → Option PseudoDev × PseudoTree) :
    PseudoTree → PseudoTree
  | .nil => .cons name (f none).1 (f none).2 .nil
  | .cons n dev pseudo rest =>
    if n = name then .cons n (f (some (dev, pseudo))).1 (f (some (dev, pseudo))).2 rest
    else .cons n dev pseudo (rest.alterFirst name f)

/-- `add_pseudo` at the last name: a definition that is there stays. -/
def addLeaf (dev : PseudoDev) : Option (Option PseudoDev × PseudoTree) → Option PseudoDev × PseudoTree
  | none => (some dev, .nil)
  | some (some old, pseudo) => (some old, pseudo)
  -- a level without a definition is a directory
  | some (none, pseudo) => (if dev.type = .d then some dev else none, pseudo)

/-- `add_pseudo` at a name with others behind it, which are added to the level below. -/
def addBelow (add : PseudoTree → PseudoTree) :
    Option (Option PseudoDev × PseudoTree) → Option PseudoDev × PseudoTree
  | none => (none, add .nil)
  -- only a directory gets a level below it
  | some (old, .nil) => (old, if old.any fun old => old.type = .d then add .nil else .nil)
  | some (old, pseudo) => (old, add pseudo)

/-- The body of `add_pseudo`, with the names that are still to come. -/
def add (dev : PseudoDev) (name : Path) : List Path → PseudoTree → PseudoTree
  | [] => alterFirst name (addLeaf dev)
  | next :: rest => alterFirst name (addBelow (add dev next rest))

end PseudoTree

/-- `add_pseudo` -/
def addPseudo (pseudo : PseudoTree) (dev : PseudoDev) (target : Path) : PseudoTree :=
  match targetNames target with
  | [] => pseudo
  | name :: rest => pseudo.add dev name rest

/-! ## The definitions in the tree -/

/-- A definition: the names it is filed under, and the device. -/
abbrev PlacedDef := List Path × PseudoDev

/-- The definitions below a name. -/
def defsBelow (name : Path) (dev : Option PseudoDev) (defs : List PlacedDef) : List PlacedDef :=
  dev.toList.map (fun d => ([name], d)) ++ defs.map fun x => (name :: x.1, x.2)

/-- A definition is filed beside others: it is not the second one with these names, it is below
directories only, and it makes a directory where there is something below it. -/
def Accepts (defs : List PlacedDef) (x : PlacedDef) : Prop :=
  (∀ y ∈ defs, y.1 ≠ x.1) ∧ (∀ y ∈ defs, y.1 <+: x.1 → y.2.type = .d) ∧
    ((∃ y ∈ defs, x.1 <+: y.1) → x.2.type = .d)

instance (defs : List PlacedDef) (x : PlacedDef) : Decidable (Accepts defs x) :=
  inferInstanceAs (Decidable (_ ∧ _))

namespace PseudoTree

/-- All definitions in a tree. -/
def defs : PseudoTree → List PlacedDef
  | .nil => []
  | .cons name dev pseudo rest => defsBelow name dev pseudo.defs ++ rest.defs

/-- What is true of every tree: the names of a level are different, an entry without a level below has a
definition, and one with a level below has none, or one that makes a directory. -/
def WellFormed : PseudoTree → Prop
  | .nil => True
  | .cons name dev pseudo rest =>
    name ∉ rest.names ∧ (pseudo = .nil → dev ≠ none) ∧ (pseudo ≠ .nil → ∀ d ∈ dev, d.type = .d) ∧
      pseudo.WellFormed ∧ rest.WellFormed

variable {t : PseudoTree} {name : Path} {x : PlacedDef}

theorem mem_defsBelow {dev : Option PseudoDev} {defs : List PlacedDef} :
    x ∈ defsBelow name dev defs ↔
      (∃ d ∈ dev, x = ([name], d)) ∨ ∃ y ∈ defs, x = (name :: y.1, y.2) := by
  simp only [defsBelow, List.mem_append, List.mem_map, Option.mem_toList, eq_comm]
  exact Iff.rfl

theorem ne_nil_of_mem_defs (h : x ∈ t.defs) : x.1 ≠ [] := by
  induction t with
  | nil => cases h
  | cons n dev pseudo rest ihp ihr =>
      rcases List.mem_append.mp h with h | h
      · rcases mem_defsBelow.mp h with ⟨d, -, rfl⟩ | ⟨y, -, rfl⟩
        · exact List.cons_ne_nil _ _
        · exact List.cons_ne_nil _ _
      · exact ihr h

/-- A definition begins with a name of the level. -/
theorem mem_names_of_mem_defs (h : x ∈ t.defs) {rest : List Path} (hx : x.1 = name :: rest) :
    name ∈ t.names := by
  induction t with
  | nil => cases h
  | cons n dev pseudo rest ihp ihr =>
      rcases List.mem_append.mp h with h | h
      · rcases mem_defsBelow.mp h with ⟨d, -, rfl⟩ | ⟨y, -, rfl⟩
        · cases hx
          exact List.mem_cons_self
        · cases hx
          exact List.mem_cons_self
      · exact List.mem_cons_of_mem _ (ihr h)

/-- Where there is a tree there is a definition in it. -/
theorem exists_mem_defs (hwf : t.WellFormed) (h : t ≠ .nil) : ∃ x, x ∈ t.defs := by
  induction t with
  | nil => exact absurd rfl h
  | cons n dev pseudo rest ihp ihr =>
      obtain ⟨-, hleaf, -, hpseudo, -⟩ := hwf
      by_cases hnil : pseudo = .nil
      · obtain ⟨d, hd⟩ := Option.ne_none_iff_exists'.mp (hleaf hnil)
        exact ⟨([n], d), List.mem_append_left _ (mem_defsBelow.mpr (Or.inl ⟨d, hd, rfl⟩))⟩
      · obtain ⟨y, hy⟩ := ihp hpseudo hnil
        exact ⟨(n :: y.1, y.2), List.mem_append_left _ (mem_defsBelow.mpr (Or.inr ⟨y, hy, rfl⟩))⟩

/-- The entry for a name holds the definitions that begin with it. -/
theorem mem_defs_iff_find (hwf : t.WellFormed) {rest : List Path} (hx : x.1 = name :: rest) :
    x ∈ t.defs ↔ ∃ e, t.find name = some e ∧ x ∈ defsBelow name e.1 e.2.defs := by
  induction t with
  | nil => simp [defs, find]
  | cons n dev pseudo rest' ihp ihr =>
      obtain ⟨hfresh, -, -, -, hrest⟩ := hwf
      rw [defs, List.mem_append, find]
      split_ifs with hn
      · subst hn
        simp only [Option.some.injEq, exists_eq_left']
        refine or_iff_left fun hmem => ?_
        exact hfresh (mem_names_of_mem_defs hmem hx)
      · rw [ihr hrest]
        refine or_iff_right fun hmem => ?_
        rcases mem_defsBelow.mp hmem with ⟨d, -, rfl⟩ | ⟨y, -, rfl⟩
        · exact hn (List.cons.inj hx).1
        · exact hn (List.cons.inj hx).1

theorem mem_names_of_find {e : Option PseudoDev × PseudoTree} (h : t.find name = some e) :
    name ∈ t.names := by
  induction t with
  | nil => cases h
  | cons n dev pseudo rest ihp ihr =>
      rw [find] at h
      split_ifs at h with hn
      · exact List.mem_cons.mpr (Or.inl hn.symm)
      · exact List.mem_cons_of_mem _ (ihr h)

/-- What is true of every entry. -/
def EntryWellFormed (e : Option PseudoDev × PseudoTree) : Prop :=
  (e.2 = .nil → e.1 ≠ none) ∧ (e.2 ≠ .nil → ∀ d ∈ e.1, d.type = .d) ∧ e.2.WellFormed

theorem find_wellFormed (hwf : t.WellFormed) {e : Option PseudoDev × PseudoTree}
    (h : t.find name = some e) : EntryWellFormed e := by
  induction t with
  | nil => cases h
  | cons n dev pseudo rest ihp ihr =>
      obtain ⟨-, hleaf, hdir, hpseudo, hrest⟩ := hwf
      rw [find] at h
      split_ifs at h
      · cases h
        exact ⟨hleaf, hdir, hpseudo⟩
      · exact ihr hrest h

theorem WellFormed.pseudoSubdir (hwf : t.WellFormed) (filename : Path) :
    (t.pseudoSubdir filename).WellFormed := by
  rw [PseudoTree.pseudoSubdir]
  cases h : t.find filename with
  | none => trivial
  | some e => exact (find_wellFormed hwf h).2.2

/-- Induction over the levels below. -/
theorem findInduction {p : PseudoTree → Prop} (h : ∀ t, (∀ c e, t.find c = some e → p e.2) → p t)
    (t : PseudoTree) : p t := by
  have hall : ∀ t : PseudoTree, ∀ c e, t.find c = some e → p e.2 := by
    intro t
    induction t with
    | nil =>
        intro c e he
        cases he
    | cons n dev pseudo rest ihp ihr =>
        intro c e he
        rw [find] at he
        split_ifs at he
        · cases he
          exact h pseudo ihp
        · exact ihr c e he
  exact h t (hall t)

/-! ## Adding a definition -/

variable {f : Option (Option PseudoDev × PseudoTree) → Option PseudoDev × PseudoTree}

theorem mem_names_alterFirst (n : Path) :
    n ∈ (t.alterFirst name f).names ↔ n = name ∨ n ∈ t.names := by
  induction t with
  | nil => simp [alterFirst, names]
  | cons m dev pseudo rest ihp ihr =>
      rw [alterFirst]
      split_ifs with hm
      · subst hm
        simp [names]
      · simp only [names, List.mem_cons, ihr]
        tauto

/-- Only what begins with the name changes. -/
theorem mem_defs_alterFirst (hwf : t.WellFormed) :
    x ∈ (t.alterFirst name f).defs ↔ (x ∈ t.defs ∧ ∀ rest, x.1 ≠ name :: rest) ∨
      x ∈ defsBelow name (f (t.find name)).1 (f (t.find name)).2.defs := by
  induction t with
  | nil => simp [alterFirst, defs, find]
  | cons n dev pseudo rest ihp ihr =>
      obtain ⟨hfresh, -, -, -, hrest⟩ := hwf
      rw [alterFirst, find]
      split_ifs with hn
      · subst hn
        rw [defs, defs, List.mem_append, List.mem_append, or_comm]
        refine or_congr_left ⟨fun hmem => ⟨Or.inr hmem, fun r hr => ?_⟩, fun ⟨hmem, hne⟩ => ?_⟩
        · exact hfresh (mem_names_of_mem_defs hmem hr)
        · refine hmem.resolve_left fun hmem => ?_
          rcases mem_defsBelow.mp hmem with ⟨d, -, rfl⟩ | ⟨y, -, rfl⟩
          · exact hne _ rfl
          · exact hne _ rfl
      · rw [defs, defs, List.mem_append, List.mem_append, ihr hrest, ← or_assoc]
        refine or_congr_left ⟨?_, ?_⟩
        · rintro (hmem | ⟨hmem, hne⟩)
          · refine ⟨Or.inl hmem, fun r hr => ?_⟩
            rcases mem_defsBelow.mp hmem with ⟨d, -, rfl⟩ | ⟨y, -, rfl⟩
            · exact hn (List.cons.inj hr).1
            · exact hn (List.cons.inj hr).1
          · exact ⟨Or.inr hmem, hne⟩
        · rintro ⟨hmem | hmem, hne⟩
          · exact Or.inl hmem
          · exact Or.inr ⟨hmem, hne⟩

/-- A tree stays well formed if the new entry is. -/
theorem WellFormed.alterFirst (hwf : t.WellFormed) (hentry : EntryWellFormed (f (t.find name))) :
    (t.alterFirst name f).WellFormed := by
  induction t with
  | nil => exact ⟨List.not_mem_nil, hentry.1, hentry.2.1, hentry.2.2, trivial⟩
  | cons n dev pseudo rest ihp ihr =>
      obtain ⟨hfresh, hleaf, hdir, hpseudo, hrest⟩ := hwf
      rw [find] at hentry
      rw [PseudoTree.alterFirst]
      split_ifs at hentry ⊢ with hn
      · exact ⟨hfresh, hentry.1, hentry.2.1, hentry.2.2, hrest⟩
      · refine ⟨fun hmem => ?_, hleaf, hdir, hpseudo, ihr hrest hentry⟩
        rcases (mem_names_alterFirst n).mp hmem with h | h
        · exact hn h
        · exact hfresh h

/-- A definition that is filed below a name. -/
theorem accepts_iff_find (hwf : t.WellFormed) (rest : List Path) (dev : PseudoDev) :
    Accepts t.defs (name :: rest, dev) ↔ ∀ e, t.find name = some e →
      Accepts (defsBelow name e.1 e.2.defs) (name :: rest, dev) := by
  have hhead : ∀ x ∈ t.defs, x.1 = name :: rest ∨ x.1 <+: name :: rest ∨ name :: rest <+: x.1 →
      ∃ e, t.find name = some e ∧ x ∈ defsBelow name e.1 e.2.defs := by
    intro x hx h
    obtain ⟨n, r, hnr⟩ := List.exists_cons_of_ne_nil (ne_nil_of_mem_defs hx)
    have hn : n = name := by
      rw [hnr, List.cons_prefix_cons, List.cons_prefix_cons] at h
      rcases h with h | h | h
      · exact (List.cons.inj h).1
      · exact h.1
      · exact h.1.symm
    subst hn
    exact (mem_defs_iff_find hwf hnr).mp hx
  have hback : ∀ e, t.find name = some e → ∀ x ∈ defsBelow name e.1 e.2.defs, x ∈ t.defs := by
    intro e he x hx
    have hcons : ∃ r, x.1 = name :: r := by
      rcases mem_defsBelow.mp hx with ⟨d, -, rfl⟩ | ⟨y, -, rfl⟩
      · exact ⟨_, rfl⟩
      · exact ⟨_, rfl⟩
    obtain ⟨r, hr⟩ := hcons
    exact (mem_defs_iff_find hwf hr).mpr ⟨e, he, hx⟩
  constructor
  · rintro ⟨hne, hdirs, hdir⟩ e he
    refine ⟨fun y hy => hne y (hback e he y hy), fun y hy => hdirs y (hback e he y hy), ?_⟩
    rintro ⟨y, hy, h⟩
    exact hdir ⟨y, hback e he y hy, h⟩
  · intro hall
    refine ⟨fun y hy heq => ?_, fun y hy h => ?_, ?_⟩
    · obtain ⟨e, he, hy'⟩ := hhead y hy (Or.inl heq)
      exact (hall e he).1 y hy' heq
    · obtain ⟨e, he, hy'⟩ := hhead y hy (Or.inr (Or.inl h))
      exact (hall e he).2.1 y hy' h
    · rintro ⟨y, hy, h⟩
      obtain ⟨e, he, hy'⟩ := hhead y hy (Or.inr (Or.inr h))
      exact (hall e he).2.2 ⟨y, hy', h⟩

theorem accepts_leaf (old : PseudoDev) (rest : List Path) (dev : PseudoDev) :
    Accepts (defsBelow name (some old) []) (name :: rest, dev) ↔ rest ≠ [] ∧ old.type = .d := by
  simp only [Accepts, defsBelow, Option.toList_some, List.map_cons, List.map_nil, List.append_nil,
    List.mem_singleton, forall_eq, exists_eq_left, List.cons_prefix_cons, true_and, List.nil_prefix,
    forall_true_left, List.prefix_nil, ne_eq, List.cons.injEq]
  constructor
  · rintro ⟨hne, hold, hdir⟩
    exact ⟨fun h => hne h.symm, hold⟩
  · rintro ⟨hne, hold⟩
    exact ⟨fun h => hne h.symm, hold, fun h => absurd h hne⟩

/-- Below a name only the definitions below it count, if the name itself is a directory. -/
theorem accepts_below {old : Option PseudoDev} (hold : ∀ d ∈ old, d.type = .d) (defs : List PlacedDef)
    {rest : List Path} (hrest : rest ≠ []) (dev : PseudoDev) :
    Accepts (defsBelow name old defs) (name :: rest, dev) ↔ Accepts defs (rest, dev) := by
  constructor
  · rintro ⟨hne, hdirs, hdir⟩
    have hmem : ∀ y ∈ defs, (name :: y.1, y.2) ∈ defsBelow name old defs := fun y hy =>
      mem_defsBelow.mpr (Or.inr ⟨y, hy, rfl⟩)
    refine ⟨fun y hy h => ?_, fun y hy h => ?_, ?_⟩
    · exact hne (name :: y.1, y.2) (hmem y hy) (congrArg (name :: ·) h)
    · exact hdirs (name :: y.1, y.2) (hmem y hy) (List.cons_prefix_cons.mpr ⟨rfl, h⟩)
    · rintro ⟨y, hy, h⟩
      exact hdir ⟨_, hmem y hy, List.cons_prefix_cons.mpr ⟨rfl, h⟩⟩
  · rintro ⟨hne, hdirs, hdir⟩
    refine ⟨fun x hx h => ?_, fun x hx h => ?_, ?_⟩
    · rcases mem_defsBelow.mp hx with ⟨d, -, rfl⟩ | ⟨y, hy, rfl⟩
      · exact hrest (List.cons.inj h).2.symm
      · exact hne y hy (List.cons.inj h).2
    · rcases mem_defsBelow.mp hx with ⟨d, hd, rfl⟩ | ⟨y, hy, rfl⟩
      · exact hold d hd
      · exact hdirs y hy (List.cons_prefix_cons.mp h).2
    · rintro ⟨x, hx, h⟩
      rcases mem_defsBelow.mp hx with ⟨d, -, rfl⟩ | ⟨y, hy, rfl⟩
      · exact absurd (List.prefix_nil.mp (List.cons_prefix_cons.mp h).2) hrest
      · exact hdir ⟨y, hy, (List.cons_prefix_cons.mp h).2⟩

/-- What is filed under a name and what is not. -/
theorem mem_defs_iff_split (hwf : t.WellFormed) :
    x ∈ t.defs ↔ (x ∈ t.defs ∧ ∀ rest, x.1 ≠ name :: rest) ∨
      ∃ e, t.find name = some e ∧ x ∈ defsBelow name e.1 e.2.defs := by
  constructor
  · intro hx
    by_cases hcons : ∃ rest, x.1 = name :: rest
    · obtain ⟨rest, hrest⟩ := hcons
      exact Or.inr ((mem_defs_iff_find hwf hrest).mp hx)
    · exact Or.inl ⟨hx, fun rest h => hcons ⟨rest, h⟩⟩
  · rintro (⟨hx, -⟩ | ⟨e, he, hx⟩)
    · exact hx
    · have hcons : ∃ r, x.1 = name :: r := by
        rcases mem_defsBelow.mp hx with ⟨d, -, rfl⟩ | ⟨y, -, rfl⟩
        · exact ⟨_, rfl⟩
        · exact ⟨_, rfl⟩
      obtain ⟨r, hr⟩ := hcons
      exact (mem_defs_iff_find hwf hr).mpr ⟨e, he, hx⟩

/-- The entry is changed to one with the new definition, if it is accepted. -/
def Files (dev : PseudoDev) (name : Path) (rest : List Path)
    (e : Option (Option PseudoDev × PseudoTree)) (e' : Option PseudoDev × PseudoTree) : Prop :=
  ∀ x, x ∈ defsBelow name e'.1 e'.2.defs ↔
    (∃ e₀, e = some e₀ ∧ x ∈ defsBelow name e₀.1 e₀.2.defs) ∨
      (x = (name :: rest, dev) ∧ ∀ e₀, e = some e₀ →
        Accepts (defsBelow name e₀.1 e₀.2.defs) (name :: rest, dev))

theorem mem_defs_of_files (hwf : t.WellFormed) {dev : PseudoDev} {rest : List Path}
    (hfiles : Files dev name rest (t.find name) (f (t.find name))) :
    x ∈ (t.alterFirst name f).defs ↔
      x ∈ t.defs ∨ (x = (name :: rest, dev) ∧ Accepts t.defs x) := by
  rw [mem_defs_alterFirst hwf, hfiles x, ← or_assoc, ← mem_defs_iff_split hwf]
  refine or_congr_right (and_congr_right ?_)
  rintro rfl
  exact (accepts_iff_find hwf rest dev).symm

@[simp] theorem files_none (dev : PseudoDev) (rest : List Path) (e' : Option PseudoDev × PseudoTree) :
    Files dev name rest none e' ↔ ∀ x, x ∈ defsBelow name e'.1 e'.2.defs ↔ x = (name :: rest, dev) := by
  simp [Files]

theorem alterFirst_ne_nil : t.alterFirst name f ≠ .nil := by
  cases t with
  | nil => exact PseudoTree.noConfusion
  | cons n dev pseudo rest =>
      rw [alterFirst]
      split_ifs
      · exact PseudoTree.noConfusion
      · exact PseudoTree.noConfusion

theorem add_ne_nil (dev : PseudoDev) (rest : List Path) : t.add dev name rest ≠ .nil := by
  cases rest with
  | nil => exact alterFirst_ne_nil
  | cons next rest => exact alterFirst_ne_nil

/-- The last name. -/
theorem addLeaf_spec (dev : PseudoDev) {e : Option (Option PseudoDev × PseudoTree)}
    (he : ∀ e₀, e = some e₀ → EntryWellFormed e₀) :
    EntryWellFormed (addLeaf dev e) ∧ Files dev name [] e (addLeaf dev e) := by
  cases e with
  | none =>
      refine ⟨⟨fun _ => Option.some_ne_none _, fun h => absurd rfl h, trivial⟩, ?_⟩
      simp [addLeaf, mem_defsBelow, defs]
  | some e₀ =>
      obtain ⟨old, pseudo⟩ := e₀
      obtain ⟨hleaf, hdir, hpseudo⟩ := he _ rfl
      simp only [Files, Option.some.injEq, exists_eq_left', forall_eq']
      cases old with
      | some old =>
          refine ⟨⟨hleaf, hdir, hpseudo⟩, fun x => (or_iff_left ?_).symm⟩
          -- there is a definition with these names
          rintro ⟨-, hne, -⟩
          exact hne ([name], old) (mem_defsBelow.mpr (Or.inl ⟨old, rfl, rfl⟩)) rfl
      | none =>
          have hne : pseudo ≠ .nil := fun h => hleaf h rfl
          obtain ⟨y, hy⟩ := exists_mem_defs hpseudo hne
          have haccepts : Accepts (defsBelow name none pseudo.defs) ([name], dev) ↔ dev.type = .d := by
            constructor
            · rintro ⟨-, -, hd⟩
              exact hd ⟨(name :: y.1, y.2), mem_defsBelow.mpr (Or.inr ⟨y, hy, rfl⟩),
                List.cons_prefix_cons.mpr ⟨rfl, List.nil_prefix⟩⟩
            · intro hd
              have hlonger : ∀ x ∈ defsBelow name none pseudo.defs, ¬ x.1 <+: [name] := by
                intro x hx h
                rcases mem_defsBelow.mp hx with ⟨d, hd, -⟩ | ⟨z, hz, rfl⟩
                · cases hd
                · exact ne_nil_of_mem_defs hz (List.prefix_nil.mp (List.cons_prefix_cons.mp h).2)
              exact ⟨fun x hx h => hlonger x hx (h ▸ List.prefix_rfl),
                fun x hx h => absurd h (hlonger x hx), fun _ => hd⟩
          rw [haccepts, addLeaf]
          by_cases hd : dev.type = .d
          · rw [if_pos hd]
            refine ⟨⟨fun h => absurd h hne, fun _ d h => ?_, hpseudo⟩, fun x => ?_⟩
            · cases h
              exact hd
            · rw [mem_defsBelow, mem_defsBelow]
              simp [hd, or_comm]
          · rw [if_neg hd]
            exact ⟨⟨fun h => absurd h hne, fun _ d h => (by cases h), hpseudo⟩,
              fun x => by simp [hd]⟩

/-- A name with others behind it, by what is done to the level below. -/
theorem addBelow_spec (dev : PseudoDev) {add : PseudoTree → PseudoTree} {rest : List Path}
    (hrest : rest ≠ []) (hne : ∀ t, add t ≠ .nil)
    (hadd : ∀ t : PseudoTree, t.WellFormed → (add t).WellFormed ∧
      ∀ x, x ∈ (add t).defs ↔ x ∈ t.defs ∨ (x = (rest, dev) ∧ Accepts t.defs x))
    {e : Option (Option PseudoDev × PseudoTree)} (he : ∀ e₀, e = some e₀ → EntryWellFormed e₀) :
    EntryWellFormed (addBelow add e) ∧ Files dev name rest e (addBelow add e) := by
  obtain ⟨hwfnil, hnil⟩ := hadd .nil trivial
  have hacceptsnil : Accepts [] (rest, dev) := by simp [Accepts]
  have hnil' : ∀ x, x ∈ (add .nil).defs ↔ x = (rest, dev) := by
    intro x
    rw [hnil x]
    constructor
    · rintro (h | ⟨h, -⟩)
      · cases h
      · exact h
    · rintro rfl
      exact Or.inr ⟨rfl, hacceptsnil⟩
  cases e with
  | none =>
      refine ⟨⟨fun h => absurd h (hne _), fun _ d h => (by cases h), hwfnil⟩, ?_⟩
      rw [files_none]
      intro x
      simp [addBelow, mem_defsBelow, hnil']
  | some e₀ =>
      obtain ⟨old, pseudo⟩ := e₀
      obtain ⟨hleaf, hdir, hpseudo⟩ := he _ rfl
      simp only [Files, Option.some.injEq, exists_eq_left', forall_eq']
      cases pseudo with
      | nil =>
          obtain ⟨old, rfl⟩ := Option.ne_none_iff_exists'.mp (hleaf rfl)
          have haccepts := @accepts_leaf name old rest dev
          rw [defs, haccepts, addBelow, Option.any_some]
          by_cases hold : old.type = .d
          · rw [if_pos (by simpa using hold)]
            refine ⟨⟨fun h => absurd h (hne _), fun _ d hd => ?_, hwfnil⟩, fun x => ?_⟩
            · cases hd
              exact hold
            · rw [mem_defsBelow, mem_defsBelow]
              simp [hnil', hrest, hold]
          · rw [if_neg (by simpa using hold)]
            exact ⟨⟨hleaf, fun h => absurd rfl h, trivial⟩, fun x => by simp [hold, defs]⟩
      | cons n d sub more =>
          obtain ⟨hwfadd, hmem⟩ := hadd _ hpseudo
          have hdirs := hdir PseudoTree.noConfusion
          rw [accepts_below hdirs _ hrest, addBelow]
          · refine ⟨⟨fun h => absurd h (hne _), fun _ => hdirs, hwfadd⟩, fun x => ?_⟩
            rw [mem_defsBelow, mem_defsBelow]
            simp only [hmem, or_and_right, exists_or, and_assoc, exists_eq_left, or_assoc]
            refine or_congr_right (or_congr_right ?_)
            rw [and_comm]
          · exact PseudoTree.noConfusion

/-- **What one definition does**: it is filed under its names if the tree accepts it, and nothing else
changes. -/
theorem add_spec (dev : PseudoDev) (rest : List Path) (hwf : t.WellFormed) :
    (t.add dev name rest).WellFormed ∧ ∀ x, x ∈ (t.add dev name rest).defs ↔
      x ∈ t.defs ∨ (x = (name :: rest, dev) ∧ Accepts t.defs x) := by
  induction rest generalizing t name with
  | nil =>
      obtain ⟨hentry, hfiles⟩ := @addLeaf_spec name dev (t.find name) fun e he => find_wellFormed hwf he
      exact ⟨hwf.alterFirst hentry, fun x => mem_defs_of_files hwf hfiles⟩
  | cons next rest ih =>
      obtain ⟨hentry, hfiles⟩ := @addBelow_spec name dev _ _ (List.cons_ne_nil next rest)
        (fun t => add_ne_nil dev rest) (fun t ht => ih ht) (t.find name) fun e he => find_wellFormed hwf he
      exact ⟨hwf.alterFirst hentry, fun x => mem_defs_of_files hwf hfiles⟩

end PseudoTree

/-! ## Reading a definition -/

/-- `isspace` -/
def isSpace (c : UInt8) : Bool := c == 32 || 9 ≤ c && c ≤ 13

/-- What white space in a format of `sscanf` skips. -/
def skipSpace (s : Path) : Path := s.dropWhile isSpace

/-- `%s`: a word, and what is behind it. -/
def scanWord (s : Path) : Option (Path × Path) :=
  let s := skipSpace s
  let word := s.takeWhile fun c => !isSpace c
  if word = [] then none else some (word, s.drop word.length)

/-- A sign, and what is behind it. -/
def scanSign : Path → Bool × Path
  | 45 :: s => (true, s)
  | 43 :: s => (false, s)
  | s => (false, s)

/-- Digits, and what is behind them. -/
def scanDigits (base : ℕ) (s : Path) : Option (ℕ × Path) :=
  let digits := s.takeWhile fun c => 48 ≤ c.toNat && c.toNat < 48 + base
  if digits = [] then none
  else some (digits.foldl (fun n c => n * base + (c.toNat - 48)) 0, s.drop digits.length)

/-- `%o` and `%u`: a number, read as an `unsigned long` and kept as an `unsigned int`. -/
def scanUnsigned (base : ℕ) (s : Path) : Option (ℕ × Path) :=
  let (negative, s) := scanSign (skipSpace s)
  (scanDigits base s).map fun (n, s) =>
    let long := if 2 ^ 64 ≤ n then 2 ^ 64 - 1 else if negative then (2 ^ 64 - n) % 2 ^ 64 else n
    (long % 2 ^ 32, s)

/-- `strtoll` to the base ten: the number, and what is behind it. -/
def strtoll (s : Path) : Int × Path :=
  let (negative, digits) := scanSign (skipSpace s)
  match scanDigits 10 digits with
  | none => (0, s)
  | some (n, rest) => (if negative then max (-n) (-2 ^ 63) else min n (2 ^ 63 - 1), rest)

/-- What `sscanf` assigns for `"%s %c %o %s %s %n"`, and what `def + bytes` is. -/
structure PseudoFields where
  filename : Option Path := none
  type : Option UInt8 := none
  mode : Option ℕ := none
  suid : Option Path := none
  sgid : Option Path := none
  args : Path := []

/-- `sscanf(def, "%s %c %o %s %s %n", filename, &type, &mode, suid, sgid, &bytes)` -/
def scanPseudoDef (text : Path) : PseudoFields :=
  match scanWord text with
  | none => {}
  | some (filename, s) =>
    match skipSpace s with
    | [] => { filename }
    | type :: s =>
      match scanUnsigned 8 s with
      | none => { filename, type }
      | some (mode, s) =>
        match scanWord s with
        | none => { filename, type, mode }
        | some (suid, s) =>
          match scanWord s with
          | none => { filename, type, mode, suid }
          | some (sgid, s) => { filename, type, mode, suid, sgid, args := skipSpace s }

/-- The letter for a type. -/
def pseudoType : UInt8 → Option PseudoType
  | 98 => some .b
  | 99 => some .c
  | 100 => some .d
  | 102 => some .f
  | 109 => some .m
  | _ => none

/-- What the system knows of users and groups, and whether a command can be started. -/
structure PseudoEnv where
  getpwnam : Path → Option ℕ
  getgrnam : Path → Option ℕ
  execFile : Path → Bool

/-- An owner: a number in range, or else a name. -/
def lookupId (getnam : Path → Option ℕ) (s : Path) : Option ℕ :=
  match strtoll s with
  | (id, []) => if id < 0 ∨ 2 ^ 32 - 1 < id then none else some id.toNat
  | _ => getnam s

/-- What is behind the owners: major and minor number of a device, the command of a dynamic file. -/
def scanPseudoArgs (type : PseudoType) (args : Path) : Option (ℕ × ℕ) :=
  match type with
  | .b | .c =>
    match scanUnsigned 10 args with
    | none => none
    | some (major, s) =>
      match scanUnsigned 10 s with
      | none => none
      | some (minor, _) => if 0xfff < major ∨ 0xfffff < minor then none else some (major, minor)
  | .f => if args = [] then none else some (0, 0)
  | .d | .m => some (0, 0)

/-- `read_pseudo_def` up to its call of `add_pseudo`. -/
def parsePseudoDef (env : PseudoEnv) (text : Path) : Option (Path × PseudoDev) :=
  match scanPseudoDef text with
  | ⟨some filename, some type, some mode, some suid, some sgid, args⟩ => do
    let type ← pseudoType type
    let (major, minor) ← scanPseudoArgs type args
    if 0o7777 < mode then none
    else
      let uid ← lookupId env.getpwnam suid
      let gid ← lookupId env.getgrnam sgid
      if type = .f ∧ ¬ env.execFile args then none
      else some (filename, { type, mode, uid, gid, major, minor })
  | _ => none

/-- `read_pseudo_def` -/
def readPseudoDef (env : PseudoEnv) (pseudo : PseudoTree) (text : Path) : Option PseudoTree :=
  (parsePseudoDef env text).map fun (filename, dev) => addPseudo pseudo dev filename

/-- The definitions of the command line and of the files, one after the other; the program ends at one
that is not accepted. -/
def readPseudoDefs (env : PseudoEnv) : PseudoTree → List Path → Option PseudoTree
  | pseudo, [] => some pseudo
  | pseudo, text :: texts =>
    (readPseudoDef env pseudo text).bind fun pseudo => readPseudoDefs env pseudo texts

/-! ## What the tree holds -/

/-- A definition is filed, if it is accepted. -/
def place (filed : List PlacedDef) (parsed : Path × PseudoDev) : List PlacedDef :=
  if Accepts filed (targetNames parsed.1, parsed.2) then filed ++ [(targetNames parsed.1, parsed.2)]
  else filed

/-- The definitions that are filed, out of a list. -/
def placedDefs (parsed : List (Path × PseudoDev)) : List PlacedDef := parsed.foldl place []

theorem Accepts.congr {defs defs' : List PlacedDef} (h : ∀ x, x ∈ defs ↔ x ∈ defs') (x : PlacedDef) :
    Accepts defs x ↔ Accepts defs' x := by
  simp only [Accepts, h]

theorem addPseudo_spec {t : PseudoTree} (hwf : t.WellFormed) {filed : List PlacedDef}
    (hfiled : ∀ x, x ∈ t.defs ↔ x ∈ filed) (filename : Path) (dev : PseudoDev) :
    (addPseudo t dev filename).WellFormed ∧
      ∀ x, x ∈ (addPseudo t dev filename).defs ↔ x ∈ place filed (filename, dev) := by
  obtain ⟨name, rest, hnames⟩ := List.exists_cons_of_ne_nil (targetNames_ne_nil filename)
  obtain ⟨hwf', hmem⟩ := @PseudoTree.add_spec t name dev rest hwf
  rw [addPseudo, hnames]
  refine ⟨hwf', fun x => ?_⟩
  rw [hmem, place, hnames, hfiled]
  split_ifs with haccepts
  · rw [List.mem_append, List.mem_singleton]
    refine or_congr_right (and_iff_left_of_imp ?_)
    rintro rfl
    exact (Accepts.congr hfiled _).mpr haccepts
  · refine or_iff_left ?_
    rintro ⟨rfl, h⟩
    exact haccepts ((Accepts.congr hfiled _).mp h)

/-- **What the tree holds**: the definitions that are filed. -/
theorem readPseudoDefs_spec {env : PseudoEnv} {texts : List Path} {t t' : PseudoTree}
    (h : readPseudoDefs env t texts = some t') (hwf : t.WellFormed) {filed : List PlacedDef}
    (hfiled : ∀ x, x ∈ t.defs ↔ x ∈ filed) :
    t'.WellFormed ∧ ∃ parsed, texts.mapM (parsePseudoDef env) = some parsed ∧
      ∀ x, x ∈ t'.defs ↔ x ∈ parsed.foldl place filed := by
  induction texts generalizing t filed with
  | nil =>
      cases h
      exact ⟨hwf, [], rfl, hfiled⟩
  | cons text texts ih =>
      obtain ⟨t₁, hread, hrest⟩ := Option.bind_eq_some_iff.mp h
      obtain ⟨⟨filename, dev⟩, hparse, rfl⟩ := Option.map_eq_some_iff.mp hread
      obtain ⟨hwf₁, hfiled₁⟩ := addPseudo_spec hwf hfiled filename dev
      obtain ⟨hwf', parsed, hparsed, hmem⟩ := ih hrest hwf₁ hfiled₁
      exact ⟨hwf', (filename, dev) :: parsed, by simp [List.mapM_cons, hparse, hparsed], hmem⟩

/-- The definitions of a list that is accepted. -/
theorem mem_defs_readPseudoDefs {env : PseudoEnv} {texts : List Path} {t : PseudoTree}
    (h : readPseudoDefs env .nil texts = some t) :
    t.WellFormed ∧ ∃ parsed, texts.mapM (parsePseudoDef env) = some parsed ∧
      ∀ x, x ∈ t.defs ↔ x ∈ placedDefs parsed :=
  readPseudoDefs_spec h trivial fun _ => Iff.rfl

end FirmwareTools.Squashfs

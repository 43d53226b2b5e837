import FirmwareTools.Opkg.PkgParse

/-! # Names of fields

`is_field` compares as many characters as the name it is given has. A field whose name goes on behind one
of these is taken for it.

* **`fieldExact_iff`** — for which names a line changes what belongs to its field only. -/

namespace FirmwareTools.Opkg

/-- A package without what belongs to a field. -/
def PkgField.clear (pkg : Pkg) : PkgField → Pkg
  | .architecture => { pkg with architecture := none, archPriority := 0 }
  | .autoInstalled => { pkg with autoInstalled := false }
  | .conffiles => { pkg with conffiles := [] }
  | .conflicts => { pkg with conflictsStr := [], conflictsCount := 0 }
  | .description => { pkg with description := none }
  | .depends => { pkg with dependsStr := [], dependsCount := 0 }
  | .essential => { pkg with essential := false }
  | .filename => { pkg with filename := none }
  | .installedSize => { pkg with installedSize := 0 }
  | .installedTime => { pkg with installedTime := 0 }
  | .md5sum => { pkg with md5sum := none }
  | .maintainer => { pkg with maintainer := none }
  | .package => { pkg with name := [] }
  | .priority => { pkg with priority := none }
  | .provides => { pkg with providesStr := [], providesCount := 0 }
  | .preDepends => { pkg with preDependsStr := [], preDependsCount := 0 }
  | .recommends => { pkg with recommendsStr := [], recommendsCount := 0 }
  | .replaces => { pkg with replacesStr := [], replacesCount := 0 }
  | .ofSection => { pkg with sectionName := none }
  | .sha256sum => { pkg with sha256sum := none }
  | .size => { pkg with size := 0 }
  | .source => { pkg with source := none }
  | .status => { pkg with stateWant := .unknown, stateFlag := {}, stateStatus := .notInstalled }
  | .suggests => { pkg with suggestsStr := [], suggestsCount := 0 }
  | .tags => { pkg with tags := none }
  | .version => { pkg with epoch := 0, version := none, revision := none }

/-- The name of a field; the keys of `MD5sum` have the marker. -/
def FieldCase.fieldName (c : FieldCase) : CStr := c.key.takeWhile (· != ':')

/-- A line with this name and any value changes nothing if the parser does not handle the name, and
otherwise what belongs to its field. -/
def FieldExact (env : ParseEnv) (name : CStr) : Prop :=
  ∀ (value behind : CStr) (s : ReadState), ∃ s' done,
    pkgParseLine env (some s) ⟨name ++ ':' :: value, behind⟩ = (some s', done) ∧
      ((∀ c ∈ fieldCases env, c.fieldName ≠ name) → s'.read = s.read) ∧
      ∀ c ∈ fieldCases env, c.fieldName = name →
        c.field.clear s'.read.pkg = c.field.clear s.read.pkg ∧
          (c.field ≠ .package → s'.read.named = s.read.named)

/-- The fields that a line with a longer name does not change: it says neither `yes` nor `Status:`. -/
def PkgField.unharmed : PkgField → Bool
  | .conffiles | .status | .autoInstalled | .essential => true
  | _ => false

variable {env : ParseEnv} {c d : FieldCase} {name value behind : CStr}

/-! ## The keys -/

/-- The keys of the cases with their fields. -/
def fieldKeys : List (PkgField × CStr) := (fieldCases ⟨[], fun _ => false⟩).map fun c => (c.field, c.key)

theorem mem_fieldKeys (hc : c ∈ fieldCases env) : (c.field, c.key) ∈ fieldKeys :=
  List.mem_map_of_mem (f := fun c => (c.field, c.key)) hc

/-- No key begins another one. -/
theorem key_begins : ∀ a ∈ fieldKeys, ∀ b ∈ fieldKeys, a.2 <+: b.2 → a = b := by decide

/-- No key begins the name of another field, and names tell the fields. -/
theorem key_name : ∀ a ∈ fieldKeys, ∀ b ∈ fieldKeys,
    (a.2 <+: b.2.takeWhile (· != ':') → a = b) ∧
      (a.2.takeWhile (· != ':') = b.2.takeWhile (· != ':') → a.1 = b.1) := by decide

theorem eq_of_key_begins (hc : c ∈ fieldCases env) (hd : d ∈ fieldCases env) (h : c.key <+: d.key) :
    c = d := by
  have hkey : c.key = d.key := congrArg Prod.snd (key_begins _ (mem_fieldKeys hc) _ (mem_fieldKeys hd) h)
  have hnodup : ((fieldCases env).map FieldCase.key).Nodup := by
    have hkeys : (fieldCases env).map FieldCase.key = fieldKeys.map Prod.snd := rfl
    rw [hkeys]
    decide
  exact List.inj_on_of_nodup_map hnodup hc hd hkey

/-- How a key can begin a line. -/
theorem prefix_or_name {key : CStr} (hname : ':' ∉ name) (h : key <+: name ++ ':' :: value) :
    key <+: name ∨ key.takeWhile (· != ':') = name := by
  rcases List.prefix_or_prefix_of_prefix h (List.prefix_append name (':' :: value)) with hkey | ⟨t, rfl⟩
  · exact Or.inl hkey
  · rw [List.prefix_append_right_inj] at h
    cases t with
    | nil => exact Or.inl (by simp)
    | cons c t =>
        obtain ⟨rfl, -⟩ := List.cons_prefix_cons.mp h
        exact Or.inr (takeWhile_ne_append hname t)

/-- The case of a line. -/
theorem fieldCase_iff {line : Line} : fieldCase env line = some c ↔
    c ∈ fieldCases env ∧ env.masked c.field = false ∧ c.key <+: line.text := by
  have hfound : ∀ d, fieldCase env line = some d → env.masked d.field = false ∧ d.key <+: line.text := by
    intro d hd
    have hbegins := List.find?_some hd
    rwa [Bool.and_eq_true, Bool.not_eq_true', isField, List.isPrefixOf_iff_prefix] at hbegins
  refine ⟨fun h => ⟨List.mem_of_find?_eq_some h, hfound c h⟩, fun h => ?_⟩
  obtain ⟨hc, hmasked, hkey⟩ := h
  -- no other case begins the line
  cases hfind : fieldCase env line with
  | none =>
      have hnot := List.find?_eq_none.mp hfind c hc
      rw [hmasked, Bool.not_false, Bool.true_and, isField, List.isPrefixOf_iff_prefix] at hnot
      exact absurd hkey hnot
  | some d =>
      have hd := List.mem_of_find?_eq_some hfind
      rcases List.prefix_or_prefix_of_prefix hkey (hfound d hfind).2 with hbegin | hbegin
      · rw [eq_of_key_begins hc hd hbegin]
      · rw [eq_of_key_begins hd hc hbegin]

/-! ## The cases -/

/-- **A case changes what belongs to its field.** -/
theorem clear_act (hc : c ∈ fieldCases env) (line : Line) (pkg : Pkg) :
    c.field.clear (c.act line pkg) = c.field.clear pkg := by
  simp only [fieldCases, List.mem_cons, List.not_mem_nil, or_false] at hc
  rcases hc with rfl | rfl | rfl | rfl | rfl | rfl | rfl | rfl | rfl | rfl | rfl | rfl | rfl | rfl | rfl |
    rfl | rfl | rfl | rfl | rfl | rfl | rfl | rfl | rfl | rfl | rfl | rfl
  all_goals dsimp only [PkgField.clear]
  all_goals first
    | rfl
    | (split_ifs <;> rfl)
    | skip
  rw [parseStatus]
  split_ifs
  · split
    · rfl
    · split
      · rfl
      · split
        · rfl
        · rfl
  · rfl

theorem mem_dropWhile {p : Char → Bool} {a : Char} {s : CStr} (ha : a ∈ s) (hp : p a = false) :
    a ∈ s.dropWhile p := by
  rw [← List.takeWhile_append_dropWhile (p := p) (l := s)] at ha
  rcases List.mem_append.mp ha with hmem | hmem
  · exact absurd (List.mem_takeWhile_imp hmem) (by rw [hp]; decide)
  · exact hmem

/-- What is read behind the key has the marker. -/
theorem marker_mem_parseSimple {key t : CStr} (ht : t ≠ []) (value behind : CStr) :
    ':' ∈ parseSimple key ⟨key ++ t ++ ':' :: value, behind⟩ := by
  obtain ⟨a, t, rfl⟩ := List.exists_cons_of_ne_nil ht
  have hdrop : (key ++ a :: t ++ ':' :: value).drop (key.length + 1) = t ++ ':' :: value := by
    rw [List.append_assoc, List.drop_length_add_append]
    rfl
  rw [parseSimple_field (List.prefix_append key (a :: t)), hdrop, trimXstrdup, List.rdropWhile,
    List.mem_reverse]
  refine mem_dropWhile (List.mem_reverse.mpr (mem_dropWhile ?_ (by decide))) (by decide)
  exact List.mem_append_right _ List.mem_cons_self

/-- A name that goes on behind the key of one of these cases changes nothing. -/
theorem act_unharmed (hc : c ∈ fieldCases env) (hunharmed : c.field.unharmed = true) {t : CStr}
    (ht : t ≠ []) (hmarker : ':' ∉ t) (value behind : CStr) (pkg : Pkg) :
    c.act ⟨c.key ++ t ++ ':' :: value, behind⟩ pkg = pkg := by
  have hyes : ∀ key : CStr, parseSimple key ⟨key ++ t ++ ':' :: value, behind⟩ ≠ "yes".toList := by
    intro key heq
    have hmem := @marker_mem_parseSimple key t ht value behind
    rw [heq] at hmem
    exact absurd hmem (by decide)
  have hstatus : ¬ "Status:".toList <+: "Status".toList ++ t ++ ':' :: value := by
    obtain ⟨a, t, rfl⟩ := List.exists_cons_of_ne_nil ht
    intro hbegin
    have hsplit : "Status:".toList = "Status".toList ++ [':'] := by decide
    rw [hsplit, List.append_assoc, List.prefix_append_right_inj, List.cons_append] at hbegin
    obtain ⟨rfl, -⟩ := List.cons_prefix_cons.mp hbegin
    exact hmarker List.mem_cons_self
  simp only [fieldCases, List.mem_cons, List.not_mem_nil, or_false] at hc
  rcases hc with rfl | rfl | rfl | rfl | rfl | rfl | rfl | rfl | rfl | rfl | rfl | rfl | rfl | rfl | rfl |
    rfl | rfl | rfl | rfl | rfl | rfl | rfl | rfl | rfl | rfl | rfl | rfl
  all_goals first
    | exact absurd (show false = true from hunharmed) Bool.false_ne_true
    | rfl
    | exact if_neg (hyes _)
    | exact if_neg fun h => hstatus (List.isPrefixOf_iff_prefix.mp h)

/-- A name that goes on behind the key of another case changes some package. -/
theorem exists_act_ne (hc : c ∈ fieldCases env) (hunharmed : c.field.unharmed = false)
    (hkey : ':' ∉ c.key) {t : CStr} (ht : t ≠ []) (hmarker : ':' ∉ t) :
    ∃ pkg, c.act ⟨c.key ++ t ++ ":x".toList, []⟩ pkg ≠ pkg := by
  have hlist : parseList ⟨c.key ++ t ++ ":x".toList, []⟩ ',' false = ["x".toList] := by
    have hname : ':' ∉ c.key ++ t := by
      rw [List.mem_append, not_or]
      exact ⟨hkey, hmarker⟩
    have hread := parseList_field hname "x".toList [] ','
    rw [show ":x".toList = ':' :: "x".toList from rfl, hread]
    decide +kernel
  have htext : parseSimple c.key ⟨c.key ++ t ++ ":x".toList, []⟩ ≠ [] :=
    List.ne_nil_of_mem (marker_mem_parseSimple ht "x".toList [])
  generalize (⟨c.key ++ t ++ ":x".toList, []⟩ : Line) = line at hlist htext ⊢
  simp only [fieldCases, List.mem_cons, List.not_mem_nil, or_false] at hc
  rcases hc with rfl | rfl | rfl | rfl | rfl | rfl | rfl | rfl | rfl | rfl | rfl | rfl | rfl | rfl | rfl |
    rfl | rfl | rfl | rfl | rfl | rfl | rfl | rfl | rfl | rfl | rfl | rfl
  all_goals dsimp only at htext hkey
  all_goals first
    | exact absurd (show true = false from hunharmed) Bool.false_ne_true.symm
    | exact absurd hkey (by decide)
    | (refine ⟨{}, fun h => ?_⟩; simp [hlist] at h; done)
    | skip
  -- numbers are read as numbers, and the name and the version as texts
  · exact ⟨{ installedSize := strtoulAuto (parseSimple "Installed-Size".toList line) + 1 },
      fun h => absurd (congrArg Pkg.installedSize h) (Nat.succ_ne_self _).symm⟩
  · exact ⟨{ installedTime := strtoulAuto (parseSimple "Installed-Time".toList line) + 1 },
      fun h => absurd (congrArg Pkg.installedTime h) (Nat.succ_ne_self _).symm⟩
  · exact ⟨{}, fun h => htext (congrArg Pkg.name h)⟩
  · exact ⟨{ size := strtoulAuto (parseSimple "Size".toList line) + 1 },
      fun h => absurd (congrArg Pkg.size h) (Nat.succ_ne_self _).symm⟩
  · exact ⟨{}, fun h => absurd (congrArg Pkg.version h) (Option.some_ne_none _)⟩

/-! ## Which names are recognised exactly -/

/-- Of a key that begins a longer name, no field has that name. -/
theorem fieldName_ne_of_begins (hc : c ∈ fieldCases env) (hbegin : c.key <+: name) (hne : c.key ≠ name) :
    ∀ d ∈ fieldCases env, d.fieldName ≠ name := by
  rintro d hd rfl
  have hkeys := (key_name _ (mem_fieldKeys hc) _ (mem_fieldKeys hd)).1 hbegin
  have hkey : c.key = d.key := congrArg Prod.snd hkeys
  -- the key is the whole name
  have hle : d.fieldName.length ≤ d.key.length := (List.takeWhile_sublist _).length_le
  exact hne (hbegin.eq_of_length_le (by rw [hkey]; exact hle))

/-- **The field of a name is recognised exactly** when no field that a line can harm has a name that is
the beginning of this one. -/
theorem fieldExact_iff (env : ParseEnv) {name : CStr} (hname : ':' ∉ name) (hblank : name.head? ≠ some ' ') :
    FieldExact env name ↔ ∀ c ∈ fieldCases env, env.masked c.field = false → c.key <+: name →
      c.key ≠ name → c.field.unharmed = true := by
  constructor
  · intro h c hc hmasked hbegin hne
    by_contra hharmed
    rw [Bool.not_eq_true] at hharmed
    obtain ⟨t, rfl⟩ := hbegin
    rw [List.mem_append, not_or] at hname
    have ht : t ≠ [] := fun hnil => hne (by rw [hnil, List.append_nil])
    obtain ⟨pkg, hpkg⟩ := exists_act_ne hc hharmed hname.1 ht hname.2
    obtain ⟨s', done, hrun, hsame, -⟩ := h "x".toList [] { read := { pkg := pkg } }
    have hcase : fieldCase env ⟨c.key ++ t ++ ':' :: "x".toList, []⟩ = some c := by
      rw [fieldCase_iff]
      exact ⟨hc, hmasked, by rw [List.append_assoc]; exact List.prefix_append _ _⟩
    have hkept := hsame (fieldName_ne_of_begins hc (List.prefix_append _ _) hne)
    rw [pkgParseLine, hcase] at hrun
    obtain ⟨hs', -⟩ := Prod.mk.inj hrun
    obtain rfl := Option.some.inj hs'
    exact hpkg (congrArg ReadPkg.pkg hkept)
  · intro h value behind s
    rw [pkgParseLine]
    cases hcase : fieldCase env ⟨name ++ ':' :: value, behind⟩ with
    | none =>
        -- the line does not begin with a blank
        have hhead : (name ++ ':' :: value).head? ≠ some ' ' := by
          cases name with
          | nil => simp
          | cons a name => exact hblank
        refine ⟨{ s with flags := {} }, lineIsBlank (name ++ ':' :: value), ?_, fun _ => rfl,
          fun _ _ _ => ⟨rfl, fun _ => rfl⟩⟩
        simp only [pkgParseOther, if_neg hhead]
    | some c =>
        obtain ⟨hc, hmasked, hbegin⟩ := fieldCase_iff.mp hcase
        refine ⟨_, false, rfl, fun hnot => ?_, fun d hd hdname => ?_⟩
        · have hkey := (prefix_or_name hname hbegin).resolve_right (hnot c hc)
          have hne : c.key ≠ name := by
            rintro rfl
            exact hnot c hc (takeWhile_ne_eq_self hname)
          have hunharmed := h c hc hmasked hkey hne
          obtain ⟨t, rfl⟩ := hkey
          rw [List.mem_append, not_or] at hname
          have hpackage : (c.field == .package) = false := by
            rw [beq_eq_false_iff_ne]
            intro heq
            rw [heq] at hunharmed
            exact Bool.false_ne_true hunharmed
          have hact := act_unharmed hc hunharmed (fun hnil => hne (by rw [hnil, List.append_nil])) hname.2
            value behind s.read.pkg
          rw [hact, hpackage, Bool.or_false]
        · -- the case is that of the name
          have hfield : c.field = d.field := by
            rcases prefix_or_name hname hbegin with hkey | hcname
            · rw [← hdname] at hkey
              exact congrArg Prod.fst ((key_name _ (mem_fieldKeys hc) _ (mem_fieldKeys hd)).1 hkey)
            · exact (key_name _ (mem_fieldKeys hc) _ (mem_fieldKeys hd)).2 (hcname.trans hdname.symm)
          rw [← hfield]
          refine ⟨clear_act hc _ _, fun hpackage => ?_⟩
          rw [beq_eq_false_iff_ne.mpr hpackage, Bool.or_false]

/-- No field's name begins `Homepage`. -/
theorem fieldExact_homepage : FieldExact ⟨[], fun _ => false⟩ "Homepage".toList :=
  (fieldExact_iff _ (by decide) (by decide)).mpr fun c hc _ hbegin _ => by
    have hno : ∀ a ∈ fieldKeys, ¬ a.2 <+: "Homepage".toList := by decide
    exact absurd hbegin (hno _ (mem_fieldKeys hc))

/-- `Package-Type: udeb` gives the package the name `Type: udeb`. -/
theorem not_fieldExact_packageType :
    ¬ ∀ (env : ParseEnv) (name : CStr), ':' ∉ name → name.head? ≠ some ' ' → FieldExact env name := by
  intro h
  obtain ⟨s', done, hrun, hsame, -⟩ := h ⟨[], fun _ => false⟩ "Package-Type".toList (by decide) (by decide)
    " udeb".toList [] {}
  have hname : ((pkgParseLine ⟨[], fun _ => false⟩ (some {}) ⟨"Package-Type: udeb".toList, []⟩).1.map
      fun s => s.read.pkg.name) = some "Type: udeb".toList := by decide
  have hkept := hsame (by
    intro c hc
    have hno : ∀ a ∈ fieldKeys, a.2.takeWhile (· != ':') ≠ "Package-Type".toList := by decide
    exact hno _ (mem_fieldKeys hc))
  have hline : "Package-Type".toList ++ ':' :: " udeb".toList = "Package-Type: udeb".toList := by decide
  rw [hline] at hrun
  rw [hrun, Option.map_some, hkept] at hname
  exact absurd hname (by decide)

end FirmwareTools.Opkg

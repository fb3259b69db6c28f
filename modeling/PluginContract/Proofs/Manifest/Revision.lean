import PluginContract.Proofs.Manifest.Relaxing

/-!
# What relaxing a schema changes

Relaxing changes lists of required properties only: such a list keeps each entry that equals
none before it and that names no property with a default, and it goes away if no entry is
kept. Which entries stay is told by the object as it was, although its values are relaxed
before the list is read. What was relaxed is relaxed to itself.
-/

namespace PluginContract.Manifest

/-- Whether the schema of a property is an object that declares a default. -/
def DeclaresDefault (schema : Json) : Prop :=
  ∃ fields, schema = .obj fields ∧ Entries.has fields "default" = true

/-- Whether an entry of a list of required properties names one that declares a default. -/
def NamesDefaulted (properties : Entries Json) (entry : Json) : Prop :=
  ∃ name schema, entry = .str name ∧ Entries.get? properties name = some schema ∧
    DeclaresDefault schema

/-- What stays of required entries that come after some others: each that equals none before it
and names no property with a default. -/
inductive Stays (properties : Entries Json) : (before required kept : List Json) → Prop
  | nil {before : List Json} : Stays properties before [] []
  | keep {before required kept : List Json} {entry : Json}
      (first : ∀ other ∈ before, sameAtom other entry = false)
      (names : ¬ NamesDefaulted properties entry)
      (rest : Stays properties (before ++ [entry]) required kept) :
      Stays properties before (entry :: required) (entry :: kept)
  | repeated {before required kept : List Json} {entry other : Json} (mem : other ∈ before)
      (same : sameAtom other entry = true)
      (rest : Stays properties (before ++ [entry]) required kept) :
      Stays properties before (entry :: required) kept
  | defaulted {before required kept : List Json} {entry : Json}
      (names : NamesDefaulted properties entry)
      (rest : Stays properties (before ++ [entry]) required kept) :
      Stays properties before (entry :: required) kept

/-- The fields of an object with another list of required properties at its place; without one if
nothing is required. -/
def requiring (kept : List Json) (fields : Entries Json) : Entries Json :=
  match kept with
  | [] => Entries.remove fields "required"
  | kept => Entries.put fields "required" (.arr kept)

/-- Whether an object has properties and a list of required ones. -/
def HasRequired (fields properties : Entries Json) (required : List Json) : Prop :=
  Entries.get? fields "properties" = some (.obj properties) ∧
    Entries.get? fields "required" = some (.arr required)

mutual

/-- What becomes of a value if at any depth the lists of required properties are brought up to
date, and nothing else is changed. Which entries stay depends on the properties before any
change. -/
inductive Revised : Json → Json → Prop
  | atom {v : Json} (noParts : v.hasParts = false) : Revised v v
  | arr {items revised : List Json} (each : RevisedItems items revised) :
      Revised (.arr items) (.arr revised)
  | updated {fields after properties : Entries Json} {required kept : List Json}
      (each : RevisedFields fields after) (has : HasRequired fields properties required)
      (atoms : ∀ entry ∈ required, entry.hasParts = false)
      (stays : Stays properties [] required kept) :
      Revised (.obj fields) (.obj (requiring kept after))
  | kept {fields after : Entries Json} (each : RevisedFields fields after)
      (none : ∀ properties required, ¬ HasRequired fields properties required) :
      Revised (.obj fields) (.obj after)

/-- The items of an array, each revised, in their order. -/
inductive RevisedItems : List Json → List Json → Prop
  | nil : RevisedItems [] []
  | cons {item item' : Json} {rest rest' : List Json} (first : Revised item item')
      (others : RevisedItems rest rest') : RevisedItems (item :: rest) (item' :: rest')

/-- The fields of an object under the same keys in the same order, each value revised. -/
inductive RevisedFields : List (String × Json) → List (String × Json) → Prop
  | nil : RevisedFields [] []
  | cons {key : String} {item item' : Json} {rest rest' : List (String × Json)}
      (first : Revised item item') (others : RevisedFields rest rest') :
      RevisedFields ((key, item) :: rest) ((key, item') :: rest')

end

/-- A value in which, at any depth, there is an object of some kind. -/
inductive HoldsObject (kind : Entries Json → Prop) : Json → Prop
  | here {fields : Entries Json} (is : kind fields) : HoldsObject kind (.obj fields)
  | item {items : List Json} {item : Json} (mem : item ∈ items) (holds : HoldsObject kind item) :
      HoldsObject kind (.arr items)
  | field {fields : Entries Json} {entry : String × Json} (mem : entry ∈ fields)
      (holds : HoldsObject kind entry.2) : HoldsObject kind (.obj fields)

/-- Whether an object requires a property that declares a default. -/
def RequiresDefaulted (fields : Entries Json) : Prop :=
  ∃ properties required, HasRequired fields properties required ∧
    ∃ entry ∈ required, NamesDefaulted properties entry

/-- What relaxing a value does. -/
structure RelaxesExactly (v : Json) : Prop where
  /-- The result is the value with its lists of required properties brought up to date, and there
  is none only if there is no such value. -/
  exact : ∀ relaxed, relax? v = some relaxed ↔ Revised v relaxed
  /-- No object of the result requires a property that declares a default. -/
  clean : ∀ relaxed, relax? v = some relaxed → ¬ HoldsObject RequiresDefaulted relaxed
  /-- Relaxing the result changes nothing. -/
  again : ∀ relaxed, relax? v = some relaxed → relax? relaxed = some relaxed

section Required

variable {properties : Entries Json} {entry : Json}

theorem isDefaulted_iff :
    isDefaulted properties entry = true ↔ NamesDefaulted properties entry := by
  constructor
  · intro h
    cases entry with
    | str name =>
        rw [isDefaulted] at h
        split at h
        · rename_i fields hget
          exact ⟨name, .obj fields, rfl, hget, fields, rfl, h⟩
        · cases h
    | _ => cases h
  · rintro ⟨name, _, rfl, hget, fields, rfl, hdefault⟩
    rw [isDefaulted, hget]
    exact hdefault

theorem isDefaulted_eq_false_iff :
    isDefaulted properties entry = false ↔ ¬ NamesDefaulted properties entry := by
  rw [← isDefaulted_iff, Bool.not_eq_true]

/-- What stays after some entries are the distinct ones that equal none of those and have no
default. -/
theorem stays_iff {before required kept : List Json} :
    Stays properties before required kept ↔
      kept = (distinctAtoms required).filter fun entry =>
        (before.all fun other => !sameAtom other entry) && !isDefaulted properties entry := by
  induction required generalizing before kept with
  | nil =>
      constructor
      · rintro ⟨⟩
        rfl
      · rintro rfl
        exact .nil
  | cons entry required ih =>
      -- What equals the entry is left out either by the entry itself or by what comes before.
      have hrest : ((distinctAtoms required).filter fun other => !sameAtom entry other).filter
            (fun other => (before.all fun o => !sameAtom o other) &&
              !isDefaulted properties other) =
          (distinctAtoms required).filter fun other =>
            ((before ++ [entry]).all fun o => !sameAtom o other) &&
              !isDefaulted properties other := by
        rw [List.filter_filter]
        refine List.filter_congr fun other _ => ?_
        simp only [List.all_append, List.all_cons, List.all_nil, Bool.and_true]
        ac_rfl
      rw [distinctAtoms, List.filter_cons, hrest]
      constructor
      · rintro (_ | ⟨hfirst, hnames, hstays⟩ | ⟨hmem, hsame, hstays⟩ | ⟨hnames, hstays⟩)
        · rw [if_pos (by simpa [isDefaulted_eq_false_iff] using ⟨hfirst, hnames⟩), ← ih.mp hstays]
        · rw [if_neg (by simpa using fun h => absurd (h _ hmem) (by simp [hsame]))]
          exact ih.mp hstays
        · rw [if_neg (by simp [isDefaulted_iff.mpr hnames])]
          exact ih.mp hstays
      · intro h
        by_cases hnames : NamesDefaulted properties entry
        · rw [if_neg (by simp [isDefaulted_iff.mpr hnames])] at h
          exact .defaulted hnames (ih.mpr h)
        by_cases hfirst : ∀ other ∈ before, sameAtom other entry = false
        · rw [if_pos (by simpa [isDefaulted_eq_false_iff] using ⟨hfirst, hnames⟩)] at h
          rw [h]
          exact .keep hfirst hnames (ih.mpr rfl)
        · rw [if_neg (by simpa using fun h => absurd h hfirst)] at h
          push Not at hfirst
          obtain ⟨other, hmem, hsame⟩ := hfirst
          exact .repeated hmem (by simpa using hsame) (ih.mpr h)

theorem stays_iff_eq_stillRequired {required kept : List Json} :
    Stays properties [] required kept ↔ kept = stillRequired properties required := by
  simp [stays_iff, stillRequired]

theorem pairwise_distinctAtoms (required : List Json) :
    (distinctAtoms required).Pairwise fun v w => sameAtom v w = false := by
  induction required with
  | nil => exact .nil
  | cons v rest ih =>
      exact List.pairwise_cons.mpr ⟨fun w hw => by simpa using (List.mem_filter.mp hw).2,
        ih.sublist List.filter_sublist⟩

theorem distinctAtoms_eq_self {required : List Json}
    (h : required.Pairwise fun v w => sameAtom v w = false) :
    distinctAtoms required = required := by
  induction required with
  | nil => rfl
  | cons v rest ih =>
      obtain ⟨hv, hrest⟩ := List.pairwise_cons.mp h
      rw [distinctAtoms, ih hrest, List.filter_eq_self.mpr fun w hw => by simp [hv w hw]]

/-- The entries that stay would stay again. -/
theorem stillRequired_stillRequired (properties : Entries Json) (required : List Json) :
    stillRequired properties (stillRequired properties required) =
      stillRequired properties required := by
  have hdistinct : distinctAtoms (stillRequired properties required) =
      stillRequired properties required :=
    distinctAtoms_eq_self ((pairwise_distinctAtoms required).sublist List.filter_sublist)
  rw [stillRequired, hdistinct, stillRequired, List.filter_filter]
  simp only [Bool.and_self]

theorem mem_of_mem_distinctAtoms {required : List Json} (h : entry ∈ distinctAtoms required) :
    entry ∈ required := by
  induction required with
  | nil => cases h
  | cons v rest ih =>
      rcases List.mem_cons.mp h with rfl | hmem
      · exact List.mem_cons_self
      · exact List.mem_cons_of_mem _ (ih (List.mem_filter.mp hmem).1)

theorem mem_stillRequired {required : List Json} (h : entry ∈ stillRequired properties required) :
    entry ∈ required ∧ ¬ NamesDefaulted properties entry := by
  obtain ⟨hmem, hdefault⟩ := List.mem_filter.mp h
  exact ⟨mem_of_mem_distinctAtoms hmem, isDefaulted_eq_false_iff.mp (by simpa using hdefault)⟩

end Required

section Fields

variable {fields after properties : Entries Json} {required kept : List Json}

theorem HasRequired.unique (h : HasRequired fields properties required)
    {properties' : Entries Json} {required' : List Json}
    (h' : HasRequired fields properties' required') :
    properties' = properties ∧ required' = required :=
  ⟨Json.obj.inj (Option.some.inj (h'.1.symm.trans h.1)),
    Json.arr.inj (Option.some.inj (h'.2.symm.trans h.2))⟩

theorem get?_requiring_of_ne {key : String} (hkey : key ≠ "required") :
    Entries.get? (requiring kept fields) key = Entries.get? fields key := by
  unfold requiring
  split
  · rw [Entries.get?_remove, if_neg hkey]
  · rw [Entries.get?_put, if_neg (Ne.symm hkey)]

theorem get?_requiring_required :
    Entries.get? (requiring kept fields) "required" =
      if kept = [] then none else some (.arr kept) := by
  cases kept with
  | nil => rw [requiring, Entries.get?_remove, if_pos rfl, if_pos rfl]
  | cons entry rest => rw [requiring, Entries.get?_put, if_pos rfl, if_neg nofun]; nofun

theorem mem_requiring {e : String × Json} (h : e ∈ requiring kept fields) :
    e ∈ fields ∨ e = ("required", .arr kept) := by
  unfold requiring at h
  split at h
  · exact Or.inl (List.mem_filter.mp h).1
  · exact (Entries.mem_put h).symm

theorem relaxRequired?_of_hasRequired (h : HasRequired fields properties required)
    (hatoms : ∀ entry ∈ required, entry.hasParts = false) :
    relaxRequired? fields = some (requiring (stillRequired properties required) fields) := by
  have hany : required.any Json.hasParts = false := by simpa using hatoms
  rw [relaxRequired?, h.1, h.2]
  simp only [hany, Bool.false_eq_true, if_false]
  cases stillRequired properties required <;> rfl

theorem relaxRequired?_of_not_hasRequired
    (h : ∀ properties required, ¬ HasRequired fields properties required) :
    relaxRequired? fields = some fields := by
  unfold relaxRequired?
  split
  · rename_i hproperties hrequired
    exact absurd ⟨hproperties, hrequired⟩ (h _ _)
  · rfl

/-- What there can be after the required properties of an object were brought up to date. -/
theorem relaxRequired?_cases (h : relaxRequired? fields = some after) :
    (∃ properties required, HasRequired fields properties required ∧
      (∀ entry ∈ required, entry.hasParts = false) ∧
      after = requiring (stillRequired properties required) fields) ∨
    (∀ properties required, ¬ HasRequired fields properties required) ∧ after = fields := by
  by_cases hhas : ∃ properties required, HasRequired fields properties required
  · obtain ⟨properties, required, hhas⟩ := hhas
    have hatoms : ∀ entry ∈ required, entry.hasParts = false := by
      intro entry hmem
      by_contra hparts
      have hnone := relaxRequired?_eq_none_iff.mpr
        ⟨properties, required, hhas.1, hhas.2, entry, hmem, by simpa using hparts⟩
      rw [h] at hnone
      cases hnone
    rw [relaxRequired?_of_hasRequired hhas hatoms] at h
    exact Or.inl ⟨properties, required, hhas, hatoms, (Option.some.inj h).symm⟩
  · push Not at hhas
    rw [relaxRequired?_of_not_hasRequired hhas] at h
    exact Or.inr ⟨hhas, (Option.some.inj h).symm⟩

theorem hasRequired_requiring {properties' : Entries Json} {required' : List Json}
    (h : HasRequired (requiring kept fields) properties' required') :
    Entries.get? fields "properties" = some (.obj properties') ∧ kept ≠ [] ∧ required' = kept := by
  obtain ⟨hproperties, hrequired⟩ := h
  rw [get?_requiring_of_ne (by decide)] at hproperties
  rw [get?_requiring_required] at hrequired
  split at hrequired
  · cases hrequired
  · rename_i hkept
    exact ⟨hproperties, hkept, (Json.arr.inj (Option.some.inj hrequired)).symm⟩

theorem requiring_of_get? (hkept : kept ≠ [])
    (h : Entries.get? fields "required" = some (.arr kept)) : requiring kept fields = fields := by
  cases kept with
  | nil => exact absurd rfl hkept
  | cons entry rest => exact Entries.put_eq_self h

/-- Required properties that were brought up to date stay as they are. -/
theorem relaxRequired?_again (h : relaxRequired? fields = some after) :
    relaxRequired? after = some after := by
  rcases relaxRequired?_cases h with ⟨properties, required, hhas, hatoms, rfl⟩ | ⟨hno, rfl⟩
  · by_cases hagain : ∃ p r,
        HasRequired (requiring (stillRequired properties required) fields) p r
    · obtain ⟨p, r, hagain⟩ := hagain
      obtain ⟨hproperties, hkept, rfl⟩ := hasRequired_requiring hagain
      obtain rfl : p = properties := Json.obj.inj (Option.some.inj (hproperties.symm.trans hhas.1))
      rw [relaxRequired?_of_hasRequired hagain
        fun entry hmem => hatoms entry (mem_stillRequired hmem).1, stillRequired_stillRequired,
        requiring_of_get? hkept hagain.2]
    · push Not at hagain
      exact relaxRequired?_of_not_hasRequired hagain
  · exact h

/-- No property with a default is required by an object whose required properties were brought up
to date. -/
theorem not_requiresDefaulted_of_relaxRequired? (h : relaxRequired? fields = some after) :
    ¬ RequiresDefaulted after := by
  rintro ⟨p, r, hhas', entry, hmem, hnames⟩
  rcases relaxRequired?_cases h with ⟨properties, required, hhas, -, rfl⟩ | ⟨hno, rfl⟩
  · obtain ⟨hproperties, -, rfl⟩ := hasRequired_requiring hhas'
    obtain rfl : p = properties := Json.obj.inj (Option.some.inj (hproperties.symm.trans hhas.1))
    exact (mem_stillRequired hmem).2 hnames
  · exact hno p r hhas'

/-- An entry of an object whose required properties were brought up to date was there before, or
is a list of atoms. -/
theorem mem_of_relaxRequired? (h : relaxRequired? fields = some after) {e : String × Json}
    (he : e ∈ after) :
    e ∈ fields ∨ ∃ kept, e.2 = .arr kept ∧ ∀ entry ∈ kept, entry.hasParts = false := by
  rcases relaxRequired?_cases h with ⟨properties, required, -, hatoms, rfl⟩ | ⟨-, rfl⟩
  · rcases mem_requiring he with hmem | rfl
    · exact Or.inl hmem
    · exact Or.inr ⟨_, rfl, fun entry hmem => hatoms entry (mem_stillRequired hmem).1⟩
  · exact Or.inl he

end Fields

theorem relax?_obj_eq_some_iff {fields : Entries Json} {w : Json} :
    relax? (.obj fields) = some w ↔
      ∃ after result, relaxFields? fields = some after ∧ relaxRequired? after = some result ∧
        w = .obj result := by
  rw [relax?, Option.map_eq_some_iff]
  constructor
  · rintro ⟨result, hresult, rfl⟩
    obtain ⟨after, hafter, hrequired⟩ := Option.bind_eq_some_iff.mp hresult
    exact ⟨after, result, hafter, hrequired, rfl⟩
  · rintro ⟨after, result, hafter, hrequired, rfl⟩
    exact ⟨result, Option.bind_eq_some_iff.mpr ⟨after, hafter, hrequired⟩, rfl⟩

theorem relaxItems?_cons_eq_some_iff {item : Json} {rest relaxed : List Json} :
    relaxItems? (item :: rest) = some relaxed ↔
      ∃ first others, relax? item = some first ∧ relaxItems? rest = some others ∧
        relaxed = first :: others := by
  rw [relaxItems?]
  cases relax? item <;> cases relaxItems? rest <;> simp [eq_comm]

theorem relaxFields?_cons_eq_some_iff {key : String} {item : Json}
    {rest relaxed : List (String × Json)} :
    relaxFields? ((key, item) :: rest) = some relaxed ↔
      ∃ first others, relax? item = some first ∧ relaxFields? rest = some others ∧
        relaxed = (key, first) :: others := by
  rw [relaxFields?]
  cases relax? item <;> cases relaxFields? rest <;> simp [eq_comm]

/-- Whether a property holds of what has no parts, of an array if it holds of all items, and of an
object whose required properties are up to date if it holds of all its values. -/
structure PassesUp (motive : Json → Prop) : Prop where
  atom : ∀ v : Json, v.hasParts = false → motive v
  arr : ∀ items : List Json, (∀ item ∈ items, motive item) → motive (.arr items)
  obj : ∀ fields : Entries Json, relaxRequired? fields = some fields →
    ¬ RequiresDefaulted fields → (∀ e ∈ fields, motive e.2) → motive (.obj fields)

mutual

/-- A property that passes from parts to values holds of every relaxed value. -/
theorem forall_of_relax? {motive : Json → Prop} (up : PassesUp motive) :
    (v : Json) → ∀ relaxed, relax? v = some relaxed → motive relaxed
  | .arr items => by
      intro relaxed h
      rw [relax?] at h
      obtain ⟨relaxedItems, hitems, rfl⟩ := Option.map_eq_some_iff.mp h
      exact up.arr _ (forall_of_relaxItems? up items relaxedItems hitems)
  | .obj fields => by
      intro relaxed h
      obtain ⟨after, result, hafter, hrequired, rfl⟩ := relax?_obj_eq_some_iff.mp h
      have hvalues := forall_of_relaxFields? up fields after hafter
      refine up.obj result (relaxRequired?_again hrequired)
        (not_requiresDefaulted_of_relaxRequired? hrequired) fun e he => ?_
      rcases mem_of_relaxRequired? hrequired he with hmem | ⟨kept, hkept, hatoms⟩
      · exact hvalues e hmem
      · rw [hkept]
        exact up.arr kept fun entry hmem => up.atom entry (hatoms entry hmem)
  | .null => fun _ h => Option.some.inj h ▸ up.atom .null rfl
  | .bool b => fun _ h => Option.some.inj h ▸ up.atom (.bool b) rfl
  | .int n => fun _ h => Option.some.inj h ▸ up.atom (.int n) rfl
  | .float x => fun _ h => Option.some.inj h ▸ up.atom (.float x) rfl
  | .str s => fun _ h => Option.some.inj h ▸ up.atom (.str s) rfl

theorem forall_of_relaxItems? {motive : Json → Prop} (up : PassesUp motive) :
    (items : List Json) → ∀ relaxed, relaxItems? items = some relaxed →
      ∀ item ∈ relaxed, motive item
  | [] => by
      intro relaxed h
      rw [relaxItems?] at h
      rw [← Option.some.inj h]
      nofun
  | item :: rest => by
      intro relaxed h
      obtain ⟨first, others, hfirst, hothers, rfl⟩ := relaxItems?_cons_eq_some_iff.mp h
      exact List.forall_mem_cons.mpr ⟨forall_of_relax? up item first hfirst,
        forall_of_relaxItems? up rest others hothers⟩

theorem forall_of_relaxFields? {motive : Json → Prop} (up : PassesUp motive) :
    (fields : List (String × Json)) → ∀ relaxed, relaxFields? fields = some relaxed →
      ∀ e ∈ relaxed, motive e.2
  | [] => by
      intro relaxed h
      rw [relaxFields?] at h
      rw [← Option.some.inj h]
      nofun
  | (key, item) :: rest => by
      intro relaxed h
      obtain ⟨first, others, hfirst, hothers, rfl⟩ := relaxFields?_cons_eq_some_iff.mp h
      exact List.forall_mem_cons.mpr ⟨forall_of_relax? up item first hfirst,
        forall_of_relaxFields? up rest others hothers⟩

end

theorem relax?_of_hasParts_eq_false {v : Json} (h : v.hasParts = false) : relax? v = some v := by
  cases v with
  | arr items => cases h
  | obj fields => cases h
  | _ => rw [relax?]

theorem relaxItems?_eq_self {items : List Json} (h : ∀ item ∈ items, relax? item = some item) :
    relaxItems? items = some items := by
  induction items with
  | nil => rw [relaxItems?]
  | cons item rest ih =>
      obtain ⟨hitem, hrest⟩ := List.forall_mem_cons.mp h
      exact relaxItems?_cons_eq_some_iff.mpr ⟨item, rest, hitem, ih hrest, rfl⟩

theorem relaxFields?_eq_self {fields : Entries Json} (h : ∀ e ∈ fields, relax? e.2 = some e.2) :
    relaxFields? fields = some fields := by
  induction fields with
  | nil => rw [relaxFields?]
  | cons e rest ih =>
      obtain ⟨hitem, hrest⟩ := List.forall_mem_cons.mp h
      exact relaxFields?_cons_eq_some_iff.mpr ⟨e.2, rest, hitem, ih hrest, rfl⟩

theorem passesUp_relax?_eq_self : PassesUp fun v => relax? v = some v where
  atom _ := relax?_of_hasParts_eq_false
  arr items hitems := by rw [relax?, relaxItems?_eq_self hitems, Option.map_some]
  obj fields hrequired _ hfields := by
    rw [relax?, relaxFields?_eq_self hfields, Option.bind_some, hrequired, Option.map_some]

theorem passesUp_not_holdsObject : PassesUp fun v => ¬ HoldsObject RequiresDefaulted v where
  atom v hparts := by rintro (_ | _ | _) <;> cases hparts
  arr items hitems := by
    rintro (_ | ⟨hmem, hholds⟩)
    exact hitems _ hmem hholds
  obj fields _ hrequires hfields := by
    rintro (his | _ | ⟨hmem, hholds⟩)
    · exact hrequires his
    · exact hfields _ hmem hholds

section Transfer

variable {fields after properties relaxed result : Entries Json} {required : List Json}
  {v w : Json}

/-- An object keeps its keys, save for that of its required properties. -/
theorem has_of_relax? (h : relax? (.obj fields) = some (.obj relaxed)) {key : String}
    (hkey : key ≠ "required") : Entries.has relaxed key = Entries.has fields key := by
  obtain ⟨after, result, hafter, hrequired, heq⟩ := relax?_obj_eq_some_iff.mp h
  obtain rfl := Json.obj.inj heq
  have hget : Entries.get? relaxed key = Entries.get? after key := by
    rcases relaxRequired?_cases hrequired with ⟨_, _, -, -, rfl⟩ | ⟨-, rfl⟩
    · exact get?_requiring_of_ne hkey
    · rfl
  rw [Entries.has, Entries.has, hget]
  rcases get?_of_relaxFields? hafter key with ⟨hf, ha⟩ | ⟨_, _, hf, -, ha⟩
  · rw [hf, ha]
  · rw [hf, ha, Option.isSome_some, Option.isSome_some]

theorem declaresDefault_iff_of_relax? (h : relax? v = some w) :
    DeclaresDefault w ↔ DeclaresDefault v := by
  rcases relax?_cases h with ⟨fields, relaxed, rfl, rfl⟩ | ⟨_, _, rfl, rfl, -⟩ | ⟨rfl, -⟩
  · simp [DeclaresDefault, has_of_relax? h (by decide : "default" ≠ "required")]
  · simp [DeclaresDefault]
  · rfl

/-- Bringing the required properties of an object up to date touches no value that declares a
default. -/
theorem declaresDefault_of_relaxRequired? (h : relaxRequired? fields = some after) (key : String) :
    (∃ schema, Entries.get? after key = some schema ∧ DeclaresDefault schema) ↔
      ∃ schema, Entries.get? fields key = some schema ∧ DeclaresDefault schema := by
  rcases relaxRequired?_cases h with ⟨properties, required, hhas, -, rfl⟩ | ⟨-, rfl⟩
  · by_cases hkey : key = "required"
    · subst hkey
      rw [get?_requiring_required, hhas.2]
      split <;> simp [DeclaresDefault]
    · rw [get?_requiring_of_ne hkey]
  · rfl

/-- Relaxing properties makes no difference to which of them declare a default. -/
theorem namesDefaulted_iff_of_relax? (h : relax? (.obj properties) = some (.obj relaxed))
    (entry : Json) : NamesDefaulted relaxed entry ↔ NamesDefaulted properties entry := by
  obtain ⟨after, result, hafter, hrequired, heq⟩ := relax?_obj_eq_some_iff.mp h
  obtain rfl := Json.obj.inj heq
  simp only [NamesDefaulted, exists_and_left, declaresDefault_of_relaxRequired? hrequired]
  refine exists_congr fun name => and_congr_right fun _ => ?_
  rcases get?_of_relaxFields? hafter name with ⟨hf, ha⟩ | ⟨v, w, hf, hrelax, ha⟩
  · simp [hf, ha]
  · simp [hf, ha, declaresDefault_iff_of_relax? hrelax]

theorem relaxItems?_of_hasParts_eq_false {items : List Json}
    (h : ∀ item ∈ items, item.hasParts = false) : relaxItems? items = some items :=
  relaxItems?_eq_self fun item hmem => relax?_of_hasParts_eq_false (h item hmem)

/-- Relaxing the values of an object relaxes its properties and the list of required ones. -/
theorem HasRequired.exists_relaxed (h : relaxFields? fields = some after)
    (hhas : HasRequired fields properties required) :
    ∃ properties' required', HasRequired after properties' required' ∧
      relax? (.obj properties) = some (.obj properties') ∧
      relaxItems? required = some required' := by
  obtain ⟨hp, hr⟩ := hhas
  rcases get?_of_relaxFields? h "properties" with ⟨hp₀, -⟩ | ⟨v, v', hv, hrelax, hp'⟩
  · rw [hp] at hp₀
    cases hp₀
  rcases get?_of_relaxFields? h "required" with ⟨hr₀, -⟩ | ⟨w, w', hw, hrelax', hr'⟩
  · rw [hr] at hr₀
    cases hr₀
  obtain rfl : v = .obj properties := Option.some.inj (hv.symm.trans hp)
  obtain rfl : w = .arr required := Option.some.inj (hw.symm.trans hr)
  obtain ⟨_, result, -, -, rfl⟩ := relax?_obj_eq_some_iff.mp hrelax
  rw [relax?, Option.map_eq_some_iff] at hrelax'
  obtain ⟨required', hitems, rfl⟩ := hrelax'
  exact ⟨result, required', ⟨hp', hr'⟩, hrelax, hitems⟩

/-- There are required properties after relaxing the values of an object only if there were some
before. -/
theorem exists_hasRequired_of_relaxed (h : relaxFields? fields = some after)
    (hhas : HasRequired after properties required) :
    ∃ properties₀ required₀, HasRequired fields properties₀ required₀ := by
  obtain ⟨properties₀, hp⟩ :=
    (exists_obj_iff_of_relaxFields? h "properties").mp ⟨properties, hhas.1⟩
  rcases get?_of_relaxFields? h "required" with ⟨-, hr⟩ | ⟨w, w', hw, hrelax, hr⟩
  · rw [hhas.2] at hr
    cases hr
  obtain rfl : w' = .arr required := Option.some.inj (hr.symm.trans hhas.2)
  rcases relax?_cases hrelax with ⟨_, _, -, hobj⟩ | ⟨required₀, _, rfl, -⟩ | ⟨rfl, -⟩
  · cases hobj
  · exact ⟨properties₀, required₀, hp, hw⟩
  · exact ⟨properties₀, required, hp, hw⟩

theorem stillRequired_congr {properties' : Entries Json}
    (h : ∀ entry, NamesDefaulted properties' entry ↔ NamesDefaulted properties entry)
    (required : List Json) :
    stillRequired properties' required = stillRequired properties required :=
  List.filter_congr fun entry _ => by
    rw [Bool.eq_iff_iff.mpr (isDefaulted_iff.trans ((h entry).trans isDefaulted_iff.symm))]

/-- How the required properties of an object are brought up to date once its values are relaxed is
told by the object as it was. -/
theorem relaxRequired?_relaxed_iff (h : relaxFields? fields = some after) :
    relaxRequired? after = some result ↔
      (∃ properties required, HasRequired fields properties required ∧
        (∀ entry ∈ required, entry.hasParts = false) ∧
        result = requiring (stillRequired properties required) after) ∨
      (∀ properties required, ¬ HasRequired fields properties required) ∧ result = after := by
  by_cases hhas : ∃ properties required, HasRequired fields properties required
  · obtain ⟨properties, required, hhas⟩ := hhas
    obtain ⟨properties', required', hhas', hproperties, hrequired⟩ := hhas.exists_relaxed h
    have hstill := stillRequired_congr (namesDefaulted_iff_of_relax? hproperties)
    constructor
    · intro hresult
      rcases relaxRequired?_cases hresult with ⟨p, r, hpr, hatoms, rfl⟩ | ⟨hno, -⟩
      · obtain ⟨rfl, rfl⟩ := hhas'.unique hpr
        have hatoms₀ : ∀ entry ∈ required, entry.hasParts = false := by
          have hany : r.any Json.hasParts = false := by simpa using hatoms
          rw [any_hasParts_of_relaxItems? hrequired] at hany
          simpa using hany
        obtain rfl : r = required := Option.some.inj
          (hrequired.symm.trans (relaxItems?_of_hasParts_eq_false hatoms₀))
        exact Or.inl ⟨properties, r, hhas, hatoms, by rw [hstill]⟩
      · exact absurd hhas' (hno _ _)
    · rintro (⟨p, r, hpr, hatoms, rfl⟩ | ⟨hno, -⟩)
      · obtain ⟨rfl, rfl⟩ := hhas.unique hpr
        obtain rfl : required' = r := Option.some.inj
          (hrequired.symm.trans (relaxItems?_of_hasParts_eq_false hatoms))
        rw [relaxRequired?_of_hasRequired hhas' hatoms, hstill]
      · exact absurd hhas (hno _ _)
  · push Not at hhas
    have hhas' : ∀ p r, ¬ HasRequired after p r := by
      intro p r hpr
      obtain ⟨p₀, r₀, h₀⟩ := exists_hasRequired_of_relaxed h hpr
      exact hhas p₀ r₀ h₀
    rw [relaxRequired?_of_not_hasRequired hhas']
    constructor
    · intro hresult
      exact Or.inr ⟨hhas, (Option.some.inj hresult).symm⟩
    · rintro (⟨p, r, hpr, -⟩ | ⟨-, rfl⟩)
      · exact absurd hpr (hhas p r)
      · rfl

end Transfer

theorem relax?_atom_iff {v : Json} (h : v.hasParts = false) (w : Json) :
    relax? v = some w ↔ Revised v w := by
  rw [relax?_of_hasParts_eq_false h, Option.some_inj]
  constructor
  · rintro rfl
    exact .atom h
  · rintro (_ | _ | _ | _)
    · rfl
    all_goals cases h

mutual

/-- Relaxing a value revises it, and there is a result whenever the value can be revised. -/
theorem relax?_eq_some_iff : (v : Json) → ∀ relaxed, relax? v = some relaxed ↔ Revised v relaxed
  | .arr items => by
      intro relaxed
      rw [relax?, Option.map_eq_some_iff]
      constructor
      · rintro ⟨relaxedItems, hitems, rfl⟩
        exact .arr ((relaxItems?_eq_some_iff items _).mp hitems)
      · rintro (hparts | heach | _ | _)
        · cases hparts
        · exact ⟨_, (relaxItems?_eq_some_iff items _).mpr heach, rfl⟩
  | .obj fields => by
      intro relaxed
      rw [relax?_obj_eq_some_iff]
      constructor
      · rintro ⟨after, result, hafter, hrequired, rfl⟩
        have heach := (relaxFields?_eq_some_iff fields after).mp hafter
        rcases (relaxRequired?_relaxed_iff hafter).mp hrequired with
          ⟨properties, required, hhas, hatoms, rfl⟩ | ⟨hno, rfl⟩
        · exact .updated heach hhas hatoms (stays_iff_eq_stillRequired.mpr rfl)
        · exact .kept heach hno
      · rintro (hparts | _ | ⟨heach, hhas, hatoms, hstays⟩ | ⟨heach, hno⟩)
        · cases hparts
        · have hafter := (relaxFields?_eq_some_iff fields _).mpr heach
          rw [stays_iff_eq_stillRequired.mp hstays]
          exact ⟨_, _, hafter,
            (relaxRequired?_relaxed_iff hafter).mpr (Or.inl ⟨_, _, hhas, hatoms, rfl⟩), rfl⟩
        · have hafter := (relaxFields?_eq_some_iff fields _).mpr heach
          exact ⟨_, _, hafter,
            (relaxRequired?_relaxed_iff hafter).mpr (Or.inr ⟨hno, rfl⟩), rfl⟩
  | .null => relax?_atom_iff rfl
  | .bool _ => relax?_atom_iff rfl
  | .int _ => relax?_atom_iff rfl
  | .float _ => relax?_atom_iff rfl
  | .str _ => relax?_atom_iff rfl

theorem relaxItems?_eq_some_iff : (items : List Json) → ∀ relaxed,
    relaxItems? items = some relaxed ↔ RevisedItems items relaxed
  | [] => by
      intro relaxed
      rw [relaxItems?, Option.some_inj]
      constructor
      · rintro rfl
        exact .nil
      · rintro ⟨⟩
        rfl
  | item :: rest => by
      intro relaxed
      rw [relaxItems?_cons_eq_some_iff]
      constructor
      · rintro ⟨first, others, hfirst, hothers, rfl⟩
        exact .cons ((relax?_eq_some_iff item first).mp hfirst)
          ((relaxItems?_eq_some_iff rest others).mp hothers)
      · rintro (_ | ⟨hfirst, hothers⟩)
        exact ⟨_, _, (relax?_eq_some_iff item _).mpr hfirst,
          (relaxItems?_eq_some_iff rest _).mpr hothers, rfl⟩

theorem relaxFields?_eq_some_iff : (fields : List (String × Json)) → ∀ relaxed,
    relaxFields? fields = some relaxed ↔ RevisedFields fields relaxed
  | [] => by
      intro relaxed
      rw [relaxFields?, Option.some_inj]
      constructor
      · rintro rfl
        exact .nil
      · rintro ⟨⟩
        rfl
  | (key, item) :: rest => by
      intro relaxed
      rw [relaxFields?_cons_eq_some_iff]
      constructor
      · rintro ⟨first, others, hfirst, hothers, rfl⟩
        exact .cons ((relax?_eq_some_iff item first).mp hfirst)
          ((relaxFields?_eq_some_iff rest others).mp hothers)
      · rintro (_ | ⟨hfirst, hothers⟩)
        exact ⟨_, _, (relax?_eq_some_iff item _).mpr hfirst,
          (relaxFields?_eq_some_iff rest _).mpr hothers, rfl⟩

end

/-- Relaxing a value changes its lists of required properties and nothing else, leaves no property
with a default required, and changes nothing more when it is done again. -/
theorem relaxesExactly (v : Json) : RelaxesExactly v where
  exact := relax?_eq_some_iff v
  clean := forall_of_relax? passesUp_not_holdsObject v
  again := forall_of_relax? passesUp_relax?_eq_self v

/-- Numbers that are equal count as one required entry, and the first one stays. -/
example : stillRequired [("a", .obj [("default", .null)]), ("b", .obj [])]
    [.str "b", .str "a", .bool true, .int 1, .str "b"] = [.str "b", .bool true] := by
  rfl

end PluginContract.Manifest

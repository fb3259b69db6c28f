import PluginContract.Proofs.Manifest.Reassembly

/-!
# When a manifest can be assembled

Values of any form give a manifest with its warnings, save for one kind of settings schema:
one in which an object lists an array or an object among the properties that it requires.
Such an entry names no property and cannot be told apart from the others.
-/

namespace PluginContract.Manifest

open FieldStep

/-- Whether an object has properties and requires something that is no name of one, but an array or
an object. -/
def RequiresParts (fields : Entries Json) : Prop :=
  ∃ properties required, Entries.get? fields "properties" = some (.obj properties) ∧
    Entries.get? fields "required" = some (.arr required) ∧
    ∃ entry ∈ required, entry.hasParts = true

/-- A value in which, at any depth, an object requires an array or an object. -/
inductive HoldsRequiredParts : Json → Prop
  | here {fields : Entries Json} (requires : RequiresParts fields) :
      HoldsRequiredParts (.obj fields)
  | item {items : List Json} {item : Json} (mem : item ∈ items) (holds : HoldsRequiredParts item) :
      HoldsRequiredParts (.arr items)
  | field {fields : Entries Json} {entry : String × Json} (mem : entry ∈ fields)
      (holds : HoldsRequiredParts entry.2) : HoldsRequiredParts (.obj fields)

theorem holdsRequiredParts_arr_iff {items : List Json} :
    HoldsRequiredParts (.arr items) ↔ ∃ item ∈ items, HoldsRequiredParts item := by
  constructor
  · rintro (_ | ⟨hmem, hitem⟩)
    exact ⟨_, hmem, hitem⟩
  · rintro ⟨item, hmem, hitem⟩
    exact .item hmem hitem

theorem holdsRequiredParts_obj_iff {fields : Entries Json} :
    HoldsRequiredParts (.obj fields) ↔
      (∃ entry ∈ fields, HoldsRequiredParts entry.2) ∨ RequiresParts fields := by
  constructor
  · rintro (h | _ | ⟨hmem, hentry⟩)
    · exact Or.inr h
    · exact Or.inl ⟨_, hmem, hentry⟩
  · rintro (⟨entry, hmem, hentry⟩ | h)
    · exact .field hmem hentry
    · exact .here h

section Relaxed

variable {v relaxed : Json} {items relaxedItems : List Json} {fields after : Entries Json}

/-- A relaxed object is an object, and a relaxed array has relaxed items. -/
theorem relax?_cases (h : relax? v = some relaxed) :
    (∃ fields after, v = .obj fields ∧ relaxed = .obj after) ∨
      (∃ items relaxedItems, v = .arr items ∧ relaxed = .arr relaxedItems ∧
        relaxItems? items = some relaxedItems) ∨
      relaxed = v ∧ v.hasParts = false := by
  cases v with
  | arr items =>
      rw [relax?] at h
      obtain ⟨relaxedItems, hitems, rfl⟩ := Option.map_eq_some_iff.mp h
      exact Or.inr (Or.inl ⟨items, relaxedItems, rfl, rfl, hitems⟩)
  | obj fields =>
      rw [relax?] at h
      obtain ⟨after, -, rfl⟩ := Option.map_eq_some_iff.mp h
      exact Or.inl ⟨fields, after, rfl, rfl⟩
  | _ =>
      rw [relax?] at h
      exact Or.inr (Or.inr ⟨(Option.some.inj h).symm, rfl⟩)

theorem hasParts_of_relax? (h : relax? v = some relaxed) : relaxed.hasParts = v.hasParts := by
  rcases relax?_cases h with ⟨_, _, rfl, rfl⟩ | ⟨_, _, rfl, rfl, -⟩ | ⟨rfl, -⟩ <;> rfl

theorem any_hasParts_of_relaxItems? (h : relaxItems? items = some relaxedItems) :
    relaxedItems.any Json.hasParts = items.any Json.hasParts := by
  induction items generalizing relaxedItems with
  | nil =>
      rw [relaxItems?] at h
      rw [← Option.some.inj h]
  | cons item rest ih =>
      rw [relaxItems?] at h
      obtain ⟨first, hfirst, h⟩ := Option.bind_eq_some_iff.mp h
      obtain ⟨others, hothers, h⟩ := Option.bind_eq_some_iff.mp h
      rw [← Option.some.inj h, List.any_cons, List.any_cons, hasParts_of_relax? hfirst, ih hothers]

/-- Relaxing the values of an object relaxes what stands under each key. -/
theorem get?_of_relaxFields? (h : relaxFields? fields = some after) (key : String) :
    Entries.get? fields key = none ∧ Entries.get? after key = none ∨
      ∃ v relaxed, Entries.get? fields key = some v ∧ relax? v = some relaxed ∧
        Entries.get? after key = some relaxed := by
  induction fields generalizing after with
  | nil =>
      rw [relaxFields?] at h
      rw [← Option.some.inj h]
      exact Or.inl ⟨rfl, rfl⟩
  | cons entry rest ih =>
      obtain ⟨k, item⟩ := entry
      rw [relaxFields?] at h
      obtain ⟨first, hfirst, h⟩ := Option.bind_eq_some_iff.mp h
      obtain ⟨others, hothers, h⟩ := Option.bind_eq_some_iff.mp h
      rw [← Option.some.inj h, Entries.get?, Entries.get?]
      by_cases hk : k = key
      · rw [if_pos hk, if_pos hk]
        exact Or.inr ⟨item, first, rfl, hfirst, rfl⟩
      · rw [if_neg hk, if_neg hk]
        exact ih hothers

theorem relaxRequired?_eq_none_iff : relaxRequired? fields = none ↔ RequiresParts fields := by
  rw [relaxRequired?]
  split
  · rename_i properties required hp hr
    have hany : required.any Json.hasParts = true ↔ RequiresParts fields := by
      rw [List.any_eq_true]
      constructor
      · exact fun h => ⟨properties, required, hp, hr, h⟩
      · rintro ⟨_, _, -, hr', h⟩
        rw [hr] at hr'
        obtain rfl := Json.arr.inj (Option.some.inj hr')
        exact h
    rw [← hany]
    split
    · simp [*]
    · split <;> simp [*]
  · rename_i hno
    refine iff_of_false (by simp) ?_
    rintro ⟨properties, required, hp, hr, -⟩
    exact hno properties required hp hr

/-- Whether what stands under a key of a table is an object. -/
theorem exists_obj_iff_of_relaxFields? (h : relaxFields? fields = some after) (key : String) :
    (∃ inner, Entries.get? after key = some (.obj inner)) ↔
      ∃ inner, Entries.get? fields key = some (.obj inner) := by
  rcases get?_of_relaxFields? h key with ⟨hf, ha⟩ | ⟨v, relaxed, hf, hrelax, ha⟩
  · simp [hf, ha]
  · rw [hf, ha]
    rcases relax?_cases hrelax with ⟨_, _, rfl, rfl⟩ | ⟨_, _, rfl, rfl, -⟩ | ⟨rfl, -⟩ <;> simp

theorem exists_arr_iff_of_relaxFields? (h : relaxFields? fields = some after) (key : String) :
    (∃ items, Entries.get? after key = some (.arr items) ∧ items.any Json.hasParts = true) ↔
      ∃ items, Entries.get? fields key = some (.arr items) ∧
        items.any Json.hasParts = true := by
  rcases get?_of_relaxFields? h key with ⟨hf, ha⟩ | ⟨v, relaxed, hf, hrelax, ha⟩
  · simp [hf, ha]
  · rw [hf, ha]
    rcases relax?_cases hrelax with ⟨_, _, rfl, rfl⟩ | ⟨_, _, rfl, rfl, hitems⟩ | ⟨rfl, -⟩
    · simp
    · simp [- List.any_eq_true, any_hasParts_of_relaxItems? hitems]
    · simp

/-- Relaxing the values of an object makes no difference to what it requires. -/
theorem requiresParts_iff_of_relaxFields? (h : relaxFields? fields = some after) :
    RequiresParts after ↔ RequiresParts fields := by
  have hproperties := exists_obj_iff_of_relaxFields? h "properties"
  have hrequired := exists_arr_iff_of_relaxFields? h "required"
  simp only [List.any_eq_true] at hrequired
  simp only [RequiresParts, exists_and_left, exists_and_right, hproperties, hrequired]

end Relaxed

mutual

/-- A value cannot be relaxed if and only if an object in it requires an array or an object. -/
theorem relax?_eq_none_iff : (v : Json) → (relax? v = none ↔ HoldsRequiredParts v)
  | .arr items => by
      rw [relax?, Option.map_eq_none_iff, holdsRequiredParts_arr_iff]
      exact relaxItems?_eq_none_iff items
  | .obj fields => by
      rw [relax?, Option.map_eq_none_iff, holdsRequiredParts_obj_iff,
        ← relaxFields?_eq_none_iff fields]
      cases hfields : relaxFields? fields with
      | none => simp
      | some after =>
          rw [Option.bind_some, relaxRequired?_eq_none_iff,
            requiresParts_iff_of_relaxFields? hfields]
          simp
  | .null => iff_of_false nofun nofun
  | .bool _ => iff_of_false nofun nofun
  | .int _ => iff_of_false nofun nofun
  | .float _ => iff_of_false nofun nofun
  | .str _ => iff_of_false nofun nofun

theorem relaxItems?_eq_none_iff : (items : List Json) →
    (relaxItems? items = none ↔ ∃ item ∈ items, HoldsRequiredParts item)
  | [] => by simp [relaxItems?]
  | item :: rest => by
      simp only [List.mem_cons, exists_eq_or_imp, ← relax?_eq_none_iff item,
        ← relaxItems?_eq_none_iff rest, relaxItems?]
      cases relax? item <;> cases relaxItems? rest <;> simp

theorem relaxFields?_eq_none_iff : (fields : List (String × Json)) →
    (relaxFields? fields = none ↔ ∃ entry ∈ fields, HoldsRequiredParts entry.2)
  | [] => by simp [relaxFields?]
  | (_, item) :: rest => by
      simp only [List.mem_cons, exists_eq_or_imp, ← relax?_eq_none_iff item,
        ← relaxFields?_eq_none_iff rest, relaxFields?]
      cases relax? item <;> cases relaxFields? rest <;> simp

end

theorem isSome_configuration?_iff (schema : Json) :
    (configuration? schema).isSome = true ↔ ¬ HoldsRequiredParts schema := by
  rw [← relax?_eq_none_iff, ← ne_eq, Option.ne_none_iff_isSome]
  cases schema with
  | null => exact iff_of_true rfl rfl
  | _ => simp [configuration?]

/-- Values of any form give a manifest with its warnings if and only if no object in the settings
schema requires an array or an object. -/
theorem isSome_assembleValues?_iff
    (existing package settingsSchema commandSchema events skipBotEvents optional : Json)
    (release : Release) :
    (assembleValues? existing package release
        (.ofValues settingsSchema commandSchema events skipBotEvents optional)).isSome = true ↔
      ¬ HoldsRequiredParts settingsSchema := by
  rw [assembleValues?, assemble?_eq, Option.isSome_map]
  exact isSome_configuration?_iff settingsSchema

/-- A schema that requires an array, which is no name of a property, gives no manifest. -/
theorem not_isSome_assembleValues?_requiredArray :
    ¬ (assembleValues? (.obj []) (.obj []) ⟨"o/r", "main"⟩
      (.ofValues (.obj [("properties", .obj []), ("required", .arr [.arr []])])
        .null .null .null .null)).isSome = true := by
  decide

end PluginContract.Manifest

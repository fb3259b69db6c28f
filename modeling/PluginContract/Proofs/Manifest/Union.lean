import PluginContract.Manifest.Commands
import PluginContract.Proofs.Entries

/-!
# Commands made from a union, used again as the commands that are there

What a variant leaves out is filled in from the command it had before. A command
made in this way already holds everything that would be filled in, so it is made
again unchanged.
-/

namespace PluginContract.Manifest

theorem firstText_concat (candidates : List Json) (last : Json) (otherwise : String) :
    firstText (candidates ++ [last]) otherwise =
      (candidates.findSome? Json.text?).getD (last.text?.getD otherwise) := by
  cases h : candidates.findSome? Json.text? <;> cases hl : last.text? <;>
    simp [firstText, List.findSome?_append, h, hl]

/-- A text that stood in for missing candidates stands in for them again. -/
theorem firstText_again (candidates : List Json) (last : Json) (otherwise : String) :
    firstText (candidates ++ [.str (firstText (candidates ++ [last]) otherwise)]) otherwise =
      firstText (candidates ++ [last]) otherwise := by
  rw [firstText_concat, firstText_concat]
  cases candidates.findSome? Json.text? with
  | some text => rfl
  | none =>
      cases hl : last.text? with
      | some text =>
          have hne : text ≠ "" := (Json.text?_eq_some_iff.mp hl).2
          simp [Json.text?, hne]
      | none => by_cases ho : otherwise = "" <;> simp [Json.text?, ho]

namespace Variant

/-- The fields of the command that a variant describes. -/
def fields (v : Variant) (previous : Entries Json) : Entries Json :=
  (v.command previous).fields?.getD []

theorem command_eq (v : Variant) (previous : Entries Json) :
    v.command previous = .obj (v.fields previous) := rfl

theorem field_fields_description (v : Variant) (previous : Entries Json) :
    Json.field (v.fields previous) "description" = .str (v.description previous) := by
  simp [fields, command, Json.fields?, Json.field, Entries.get?]

theorem field_fields_example (v : Variant) (previous : Entries Json) :
    Json.field (v.fields previous) exampleKey = .str (v.usage previous) := by
  simp [fields, command, Json.fields?, Json.field, Entries.get?, exampleKey]

theorem field_fields_parameters (v : Variant) (previous : Entries Json) :
    Json.field (v.fields previous) "parameters" = v.parameters previous := by
  cases h : v.parameters previous <;>
    simp [fields, command, h, Json.fields?, Json.field, Entries.get?, exampleKey]

/-- A command is its own previous command. -/
theorem command_fields (v : Variant) (previous : Entries Json) :
    v.command (v.fields previous) = v.command previous := by
  have hd : v.description (v.fields previous) = v.description previous := by
    rw [description, field_fields_description]
    exact firstText_again
      [Json.field v.nameSchema "description", Json.field v.schema "description"] _ _
  have hu : v.usage (v.fields previous) = v.usage previous := by
    rw [usage, field_fields_example]
    exact firstText_again
      [Json.field v.nameSchema exampleKey, Json.field v.nameSchema "example",
        firstExample v.nameSchema] _ _
  have hp : v.parameters (v.fields previous) = v.parameters previous := by
    rw [parameters, field_fields_parameters]
    cases h : Json.field v.properties "parameters" <;> simp [parameters, h]
  rw [command, hd, hu, hp, command]

end Variant

/-- The commands of variants, beside the ones that are there. -/
def commandsOf (variants : List Variant) (existing : Json) : Entries Json :=
  Entries.ofPairs <| variants.map fun v => (v.name, v.command (previousOf existing v.name))

theorem commandsOfUnion_eq_ok_iff {schema existing : Json} {commands : Entries Json} :
    commandsOfUnion schema existing = .ok commands ↔
      ∃ first rest variants, variants? schema = some (first :: rest) ∧
        readVariants 0 (first :: rest) = .ok variants ∧
        commands = commandsOf variants existing := by
  rcases hv : variants? schema with _ | _ | ⟨first, rest⟩
  · simp [commandsOfUnion, hv]
  · simp [commandsOfUnion, hv]
  · cases hr : readVariants 0 (first :: rest) <;>
      simp [commandsOfUnion, hv, hr, bind, Except.bind, pure, Except.pure, commandsOf, eq_comm]

/-- The last variant of a name describes its command. -/
theorem get?_commandsOf (variants : List Variant) (existing : Json) (name : String) :
    (commandsOf variants existing).get? name =
      (variants.reverse.find? fun v => v.name == name).map
        fun v => v.command (previousOf existing name) := by
  have hname : ((fun pair : String × Json => pair.1 == name) ∘
      fun v : Variant => (v.name, v.command (previousOf existing v.name))) =
        fun v => v.name == name := rfl
  rw [commandsOf, Entries.get?_ofPairs, ← List.map_reverse, List.find?_map, hname]
  cases h : variants.reverse.find? (fun v => v.name == name) with
  | none => rfl
  | some v =>
      have hv : v.name = name := by simpa using List.find?_some h
      simp [hv]

theorem previousOf_commandsOf {variants : List Variant} {existing : Json} {name : String}
    {last : Variant} (h : variants.reverse.find? (fun v => v.name == name) = some last) :
    previousOf (.obj (commandsOf variants existing)) name =
      last.fields (previousOf existing name) := by
  simp [previousOf, Json.fields?, Json.field, get?_commandsOf, h, Variant.command_eq]

/-- The commands of variants stay the same when they are there already. -/
theorem commandsOf_again (variants : List Variant) (existing : Json) :
    commandsOf variants (.obj (commandsOf variants existing)) = commandsOf variants existing := by
  have hn : (commandsOf variants (.obj (commandsOf variants existing))).keys.Nodup :=
    Entries.nodup_keys_ofPairs _
  apply Entries.eq_of_keys_eq hn
  · apply Entries.keys_ofPairs_congr
    simp [List.map_map, Function.comp_def]
  · intro name
    rw [get?_commandsOf, get?_commandsOf]
    cases hf : variants.reverse.find? (fun v => v.name == name) with
    | none => rfl
    | some last =>
        rw [previousOf_commandsOf hf, Option.map_some, Option.map_some, Variant.command_fields]

/-- A union gives the same commands once they are there. -/
theorem commandsOfUnion_again {schema existing : Json} {commands : Entries Json}
    (h : commandsOfUnion schema existing = .ok commands) :
    commandsOfUnion schema (.obj commands) = .ok commands := by
  obtain ⟨first, rest, variants, hv, hr, rfl⟩ := commandsOfUnion_eq_ok_iff.mp h
  exact commandsOfUnion_eq_ok_iff.mpr
    ⟨first, rest, variants, hv, hr, (commandsOf_again variants existing).symm⟩

theorem firstText_ne_empty {otherwise : String} (h : otherwise ≠ "") (candidates : List Json) :
    firstText candidates otherwise ≠ "" := by
  unfold firstText
  cases hc : candidates.findSome? Json.text? with
  | none => exact h
  | some text =>
      obtain ⟨v, -, hv⟩ := List.exists_of_findSome?_eq_some hc
      exact (Json.text?_eq_some_iff.mp hv).2

theorem fixedName?_ne_empty {schema : Entries Json} {name : String}
    (h : fixedName? schema = some name) : name ≠ "" := by
  unfold fixedName? at h
  split at h
  · rename_i constant hc
    cases h
    exact (Json.text?_eq_some_iff.mp hc).2
  · split at h
    · exact (Json.text?_eq_some_iff.mp h).2
    · cases h

theorem name_ne_empty_of_read {index : Nat} {value : Json} {v : Variant}
    (h : Variant.read index value = .ok v) : v.name ≠ "" := by
  unfold Variant.read at h
  split at h
  · split at h
    · split at h
      · split at h
        · rename_i name hn
          cases h
          exact fixedName?_ne_empty hn
        · cases h
      · cases h
    · cases h
  · cases h

theorem name_ne_empty_of_readVariants {index : Nat} {values : List Json} {variants : List Variant}
    (h : readVariants index values = .ok variants) : ∀ v ∈ variants, v.name ≠ "" := by
  induction values generalizing index variants with
  | nil =>
      cases h
      simp
  | cons value rest ih =>
      simp only [readVariants, bind, Except.bind, pure, Except.pure] at h
      split at h
      · cases h
      · rename_i first hfirst
        split at h
        · cases h
        · rename_i others hothers
          cases h
          intro v hv
          rcases List.mem_cons.mp hv with rfl | hv
          · exact name_ne_empty_of_read hfirst
          · exact ih hothers v hv

/-- The command of a variant with a name is described in full. -/
theorem entryFault?_command {v : Variant} (h : v.name ≠ "") (previous : Entries Json) :
    entryFault? v.name (v.command previous) = none := by
  have husage : "/" ++ v.name ≠ "" := by
    intro he
    simpa using congrArg String.toList he
  have hd : (Json.str (v.description previous)).text? = some (v.description previous) :=
    Json.text?_eq_some_iff.mpr ⟨rfl, firstText_ne_empty h _⟩
  have hu : (Json.str (v.usage previous)).text? = some (v.usage previous) :=
    Json.text?_eq_some_iff.mpr ⟨rfl, firstText_ne_empty husage _⟩
  rw [Variant.command_eq, entryFault?, Variant.field_fields_description,
    Variant.field_fields_example, hd, hu]
  rfl

/-- The commands that a union describes are a map of commands without a fault. -/
theorem commandFault?_of_commandsOfUnion {schema existing : Json} {commands : Entries Json}
    (h : commandsOfUnion schema existing = .ok commands) :
    commandFault? (.obj commands) = none := by
  obtain ⟨first, rest, variants, -, hr, rfl⟩ := commandsOfUnion_eq_ok_iff.mp h
  rw [commandFault?, List.findSome?_eq_none_iff]
  intro entry hm
  obtain ⟨v, hv, rfl⟩ := List.mem_map.mp (Entries.mem_of_mem_ofPairs hm)
  exact entryFault?_command (name_ne_empty_of_readVariants hr v hv) _

/-- The commands of a union are all described, so the last check of a conversion never fails. -/
theorem convertUnion_eq (schema existing : Json) :
    convertUnion schema existing =
      (commandsOfUnion schema existing).mapError UnionFault.message := by
  cases hunion : commandsOfUnion schema existing with
  | error fault => simp only [convertUnion, hunion, Except.mapError]
  | ok commands =>
      simp only [convertUnion, hunion, commandFault?_of_commandsOfUnion hunion, Except.mapError]

theorem convertUnion_eq_ok_iff {schema existing : Json} {commands : Entries Json} :
    convertUnion schema existing = .ok commands ↔
      commandsOfUnion schema existing = .ok commands := by
  rw [convertUnion_eq]
  cases commandsOfUnion schema existing <;> simp [Except.mapError]

end PluginContract.Manifest

import PluginContract.Manifest.Assembly
import PluginContract.Proofs.Manifest.Union

/-!
# Assembly as a row of steps, each about one field

A step settles one field: it leaves every other field alone, and it settles the
field the same way again when it finds what it left there. The steps of an
assembly are about different fields, so a manifest that holds what a row of steps
left is not changed by the same row.
-/

namespace PluginContract.Manifest

/-- A step that settles one field of a manifest. -/
abbrev FieldStep := Entries Json → Draft

namespace FieldStep

/-- A step about one field: other fields keep what they hold, and what the step left for its own
field is left there again, with the same warnings. -/
structure IsAbout (key : String) (step : FieldStep) : Prop where
  frame : ∀ manifest other, other ≠ key →
    Entries.get? (step manifest).1 other = Entries.get? manifest other
  again : ∀ manifest later,
    Entries.get? later key = Entries.get? (step manifest).1 key →
      step later = (later, (step manifest).2)

/-- A step that puts a fixed value. -/
def putting (key : String) (value : Json) (warnings : List Warning) : FieldStep :=
  fun manifest => (Entries.put manifest key value, warnings)

theorem isAbout_putting (key : String) (value : Json) (warnings : List Warning) :
    IsAbout key (putting key value warnings) := by
  constructor
  · intro manifest other ho
    simp [putting, Entries.get?_put, Ne.symm ho]
  · intro manifest later h
    have hv : Entries.get? later key = some value := by
      simpa [putting, Entries.get?_put] using h
    simp [putting, Entries.put_eq_self hv]

/-- A step that leaves everything as it is. -/
theorem isAbout_keeping (key : String) (warnings : List Warning) :
    IsAbout key fun manifest => (manifest, warnings) :=
  ⟨fun _ _ _ => rfl, fun _ _ _ => rfl⟩

theorem settleText_of_some {package : Entries Json} {key value : String}
    (h : packageText? package key = some value) :
    settleText package key = putting key (.str value) [] := by
  funext manifest
  simp [settleText, h, putting]

theorem isAbout_settleText (package : Entries Json) (key : String) :
    IsAbout key (settleText package key) := by
  cases hp : packageText? package key with
  | some value =>
      rw [settleText_of_some hp]
      exact isAbout_putting key _ _
  | none =>
      constructor
      · intro manifest other ho
        by_cases hg : (Json.field manifest key).isGiven = true
        · simp [settleText, hp, hg]
        · simp [settleText, hp, hg, Entries.get?_remove, ho]
      · intro manifest later h
        by_cases hg : (Json.field manifest key).isGiven = true
        · have hl : Json.field later key = Json.field manifest key := by
            simp only [settleText, hp, if_pos hg] at h
            rw [Json.field, h, Json.field]
          simp [settleText, hp, hg, hl]
        · -- the field was removed, so it is missing and counts as not given
          have hn : Entries.get? later key = none := by
            simpa [settleText, hp, hg, Entries.get?_remove] using h
          have hl : (Json.field later key).isGiven = false := by
            simp [Json.field, hn, Json.isGiven]
          simp [settleText, hp, hg, hl, Entries.remove_eq_self hn]

theorem settleListeners_of_ne_null {events : Json} (h : events ≠ .null) (manifest : Entries Json) :
    settleListeners events manifest =
      match listenerFault? events with
      | some fault => (manifest, [.invalidEvents fault])
      | none => (Entries.put manifest listenersKey events, []) := by
  cases events with
  | null => exact absurd rfl h
  | _ => rfl

theorem isAbout_settleListeners (events : Json) :
    IsAbout listenersKey (settleListeners events) := by
  by_cases hn : events = .null
  · subst hn
    exact isAbout_keeping listenersKey [.noEvents]
  · rw [funext (settleListeners_of_ne_null hn)]
    cases listenerFault? events with
    | some fault => exact isAbout_keeping listenersKey _
    | none => exact isAbout_putting listenersKey events []

theorem isAbout_settleFlag (flag : Json) : IsAbout "skipBotEvents" (settleFlag flag) :=
  isAbout_putting "skipBotEvents" _ _

/-- The step that makes commands from a union, beside the commands that are there. -/
def settleUnion (schema : Json) : FieldStep := fun manifest =>
  match convertUnion schema (Json.field manifest "commands") with
  | .ok commands => (Entries.put manifest "commands" (.obj commands), [])
  | .error message => (manifest, [.invalidUnion message])

theorem isAbout_settleUnion (schema : Json) : IsAbout "commands" (settleUnion schema) := by
  constructor
  · intro manifest other ho
    unfold settleUnion
    cases convertUnion schema (Json.field manifest "commands") with
    | ok commands => simp [Entries.get?_put, Ne.symm ho]
    | error message => rfl
  · intro manifest later h
    cases hc : convertUnion schema (Json.field manifest "commands") with
    | ok commands =>
        have hagain := commandsOfUnion_again (convertUnion_eq_ok_iff.mp hc)
        have hl : Entries.get? later "commands" = some (.obj commands) := by
          simpa [settleUnion, hc, Entries.get?_put] using h
        have hf : Json.field later "commands" = .obj commands := by simp [Json.field, hl]
        simp [settleUnion, hc, hf, convertUnion_eq_ok_iff.mpr hagain, Entries.put_eq_self hl]
    | error message =>
        have hf : Json.field later "commands" = Json.field manifest "commands" := by
          simp only [settleUnion, hc] at h
          rw [Json.field, h, Json.field]
        simp [settleUnion, hc, hf]

theorem settleCommands_of_ne_null {schema : Json} (h : schema ≠ .null) (optional : Bool)
    (manifest : Entries Json) :
    settleCommands schema optional manifest =
      match commandFault? schema with
      | none => (Entries.put manifest "commands" schema, [])
      | some fault =>
          if (variants? schema).isNone then (manifest, [.invalidCommands fault])
          else settleUnion schema manifest := by
  cases schema with
  | null => exact absurd rfl h
  | _ => rfl

theorem isAbout_settleCommands (schema : Json) (optional : Bool) :
    IsAbout "commands" (settleCommands schema optional) := by
  by_cases hn : schema = .null
  · subst hn
    exact isAbout_keeping "commands" _
  · rw [funext (settleCommands_of_ne_null hn optional)]
    cases commandFault? schema with
    | none => exact isAbout_putting "commands" schema []
    | some fault =>
        cases (variants? schema).isNone with
        | true => exact isAbout_keeping "commands" _
        | false => exact isAbout_settleUnion schema

/-- The step that settles the configuration; there is none if the schema cannot be relaxed. -/
def configuration? (schema : Json) : Option FieldStep :=
  match schema with
  | .null => some fun manifest => (manifest, [.noSettingsSchema])
  | schema => (relax? schema).map fun relaxed => putting "configuration" relaxed []

theorem exists_relaxed_of_configuration? {schema : Json} {step : FieldStep}
    (h : configuration? schema = some step) (hn : schema ≠ .null) :
    ∃ relaxed, relax? schema = some relaxed ∧ step = putting "configuration" relaxed [] := by
  have hr : (relax? schema).map (fun relaxed => putting "configuration" relaxed []) =
      some step := by
    rw [← h]
    cases schema with
    | null => exact absurd rfl hn
    | _ => rfl
  obtain ⟨relaxed, hrelaxed, rfl⟩ := Option.map_eq_some_iff.mp hr
  exact ⟨relaxed, hrelaxed, rfl⟩

theorem isAbout_configuration {schema : Json} {step : FieldStep}
    (h : configuration? schema = some step) : IsAbout "configuration" step := by
  by_cases hn : schema = .null
  · subst hn
    obtain rfl := Option.some.inj h
    exact isAbout_keeping "configuration" _
  · obtain ⟨relaxed, -, rfl⟩ := exists_relaxed_of_configuration? h hn
    exact isAbout_putting "configuration" relaxed []

theorem settleConfiguration?_eq (schema : Json) (manifest : Entries Json) :
    settleConfiguration? schema manifest =
      (configuration? schema).map fun step => step manifest := by
  cases schema <;> simp [settleConfiguration?, configuration?, putting, Function.comp_def]

/-- The drafts of a row of steps: each starts from what the one before it left. -/
def settleAll : List (String × FieldStep) → FieldStep
  | [], manifest => (manifest, [])
  | (_, step) :: rest, manifest =>
      ((settleAll rest (step manifest).1).1,
        (step manifest).2 ++ (settleAll rest (step manifest).1).2)

variable {steps : List (String × FieldStep)}

/-- A row of steps leaves the fields alone that none of them is about. -/
theorem get?_settleAll_of_notMem (hs : ∀ s ∈ steps, IsAbout s.1 s.2) {key : String}
    (hk : key ∉ steps.map Prod.fst) (manifest : Entries Json) :
    Entries.get? (settleAll steps manifest).1 key = Entries.get? manifest key := by
  induction steps generalizing manifest with
  | nil => rfl
  | cons s rest ih =>
      obtain ⟨k, step⟩ := s
      obtain ⟨hne, hrest⟩ := List.ne_and_not_mem_of_not_mem_cons hk
      rw [settleAll, ih (fun s h => hs s (List.mem_cons_of_mem _ h)) hrest,
        (hs _ List.mem_cons_self).frame manifest key hne]

/-- A manifest that holds what a row of steps left is left as it is, with the same warnings. -/
theorem settleAll_again (hs : ∀ s ∈ steps, IsAbout s.1 s.2) (hd : (steps.map Prod.fst).Nodup)
    (manifest later : Entries Json)
    (hl : ∀ key ∈ steps.map Prod.fst,
      Entries.get? later key = Entries.get? (settleAll steps manifest).1 key) :
    settleAll steps later = (later, (settleAll steps manifest).2) := by
  induction steps generalizing manifest with
  | nil => rfl
  | cons s rest ih =>
      obtain ⟨k, step⟩ := s
      obtain ⟨hk, hrest⟩ := List.nodup_cons.mp hd
      have hsr : ∀ s ∈ rest, IsAbout s.1 s.2 := fun s h => hs s (List.mem_cons_of_mem _ h)
      have hfirst : step later = (later, (step manifest).2) := by
        apply (hs _ List.mem_cons_self).again
        rw [hl k List.mem_cons_self, settleAll, get?_settleAll_of_notMem hsr hk]
      have htail : settleAll rest later = (later, (settleAll rest (step manifest).1).2) :=
        ih hsr hrest _ fun key h => hl key (List.mem_cons_of_mem _ h)
      simp [settleAll, hfirst, htail]

end FieldStep

end PluginContract.Manifest

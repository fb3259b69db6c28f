import PluginContract.Proofs.Manifest.Headings
import PluginContract.Proofs.Manifest.Reassembly

/-!
# What an assembly does to the fields of a manifest

A step edits its own field at most, and each of its warnings names that field.
So the fields of a row of steps can be accounted for one by one: what a field
holds in the end, and which warnings name it, is what its own step makes of the
value that was there before the row.
-/

namespace PluginContract.Manifest

open Text

/-- What an edit of one field at most makes of a manifest. -/
inductive Edit (key : String) (before : Entries Json) : Entries Json → Prop
  | keep : Edit key before before
  | put (value : Json) : Edit key before (Entries.put before key value)
  | remove : Edit key before (Entries.remove before key)

namespace Edit

variable {key : String} {before after : Entries Json}

/-- An edit leaves all other entries where they are. -/
theorem filter_eq (h : Edit key before after) {keeps : String → Bool} (hk : keeps key = false) :
    after.filter (fun e => keeps e.1) = before.filter fun e => keeps e.1 := by
  have hsplit (entries : Entries Json) :
      (entries.filter fun e => e.1 != key).filter (fun e => keeps e.1) =
        entries.filter fun e => keeps e.1 := by
    rw [List.filter_filter]
    apply List.filter_congr
    intro entry _
    by_cases he : entry.1 = key
    · simp [he, hk]
    · simp [he]
  cases h with
  | keep => rfl
  | put value => rw [← hsplit, Entries.filter_put, hsplit]
  | remove => exact hsplit before

theorem nodup_keys (h : Edit key before after) (hn : before.keys.Nodup) : after.keys.Nodup := by
  cases h with
  | keep => exact hn
  | put value => exact Entries.nodup_keys_put hn key value
  | remove =>
      rw [Entries.remove, Entries.keys_filter fun k => k != key]
      exact hn.filter _

end Edit

namespace FieldStep

/-- A step that edits one field at most, and whose warnings all name that field. -/
structure Touches (key : String) (step : FieldStep) : Prop where
  edit : ∀ manifest, Edit key manifest (step manifest).1
  names : ∀ manifest, ∀ w ∈ (step manifest).2, Warning.isAbout key w.message = true

theorem touches_putting {key : String} {warnings : List Warning}
    (h : ∀ w ∈ warnings, Warning.isAbout key w.message = true) (value : Json) :
    Touches key (putting key value warnings) :=
  ⟨fun _ => .put value, fun _ => h⟩

theorem touches_keeping {key : String} {warnings : List Warning}
    (h : ∀ w ∈ warnings, Warning.isAbout key w.message = true) :
    Touches key fun manifest => (manifest, warnings) :=
  ⟨fun _ => .keep, fun _ => h⟩

theorem touches_settleText {key : String} (h : key ≠ listenersKey) (package : Entries Json) :
    Touches key (settleText package key) := by
  cases hp : packageText? package key with
  | some value =>
      rw [settleText_of_some hp]
      exact touches_putting (by simp) _
  | none =>
      constructor
      · intro manifest
        cases hg : (Json.field manifest key).isGiven with
        | true => simpa [settleText, hp, hg] using Edit.keep
        | false => simpa [settleText, hp, hg] using Edit.remove
      · intro manifest
        cases hg : (Json.field manifest key).isGiven with
        | true => simpa [settleText, hp, hg] using Warning.isAbout_keptFromManifest h _
        | false => simpa [settleText, hp, hg] using Warning.isAbout_absent h

theorem touches_settleUnion (schema : Json) : Touches "commands" (settleUnion schema) := by
  constructor
  · intro manifest
    rw [settleUnion]
    split
    · exact .put _
    · exact .keep
  · intro manifest w hw
    rw [settleUnion] at hw
    split at hw
    · simp at hw
    · rw [List.mem_singleton.mp hw]
      exact Warning.isAbout_invalidUnion _

theorem touches_settleCommands (schema : Json) (optional : Bool) :
    Touches "commands" (settleCommands schema optional) := by
  by_cases hn : schema = .null
  · subst hn
    apply touches_keeping
    cases optional with
    | true => simp
    | false => simpa using Warning.isAbout_noCommandSchema
  · rw [funext (settleCommands_of_ne_null hn optional)]
    cases commandFault? schema with
    | none => exact touches_putting (by simp) schema
    | some fault =>
        cases (variants? schema).isNone with
        | true => exact touches_keeping (by simpa using Warning.isAbout_invalidCommands fault)
        | false => exact touches_settleUnion schema

theorem touches_settleListeners (events : Json) :
    Touches listenersKey (settleListeners events) := by
  by_cases hn : events = .null
  · subst hn
    exact touches_keeping (by simpa using Warning.isAbout_noEvents)
  · rw [funext (settleListeners_of_ne_null hn)]
    cases listenerFault? events with
    | some fault => exact touches_keeping (by simpa using Warning.isAbout_invalidEvents fault)
    | none => exact touches_putting (by simp) events

theorem touches_settleFlag (flag : Json) : Touches "skipBotEvents" (settleFlag flag) := by
  refine touches_putting ?_ (.bool (readFlag flag).1)
  intro w hw
  obtain ⟨fault, -, rfl⟩ := List.mem_map.mp hw
  exact Warning.isAbout_flag fault

theorem touches_configuration {schema : Json} {step : FieldStep}
    (h : configuration? schema = some step) : Touches "configuration" step := by
  by_cases hn : schema = .null
  · subst hn
    obtain rfl := Option.some.inj h
    exact touches_keeping (by simpa using Warning.isAbout_noSettingsSchema)
  · obtain ⟨relaxed, -, rfl⟩ := exists_relaxed_of_configuration? h hn
    exact touches_putting (by simp) relaxed

variable {steps : List (String × FieldStep)}

/-- A row of steps leaves the entries that none of them is about where they are. -/
theorem filter_settleAll (hs : ∀ s ∈ steps, Touches s.1 s.2) {keeps : String → Bool}
    (hk : ∀ s ∈ steps, keeps s.1 = false) (manifest : Entries Json) :
    (settleAll steps manifest).1.filter (fun e => keeps e.1) =
      manifest.filter fun e => keeps e.1 := by
  induction steps generalizing manifest with
  | nil => rfl
  | cons s rest ih =>
      rw [settleAll, ih (fun s h => hs s (List.mem_cons_of_mem _ h))
        (fun s h => hk s (List.mem_cons_of_mem _ h))]
      exact ((hs s List.mem_cons_self).edit manifest).filter_eq (hk s List.mem_cons_self)

theorem nodup_keys_settleAll (hs : ∀ s ∈ steps, Touches s.1 s.2) {manifest : Entries Json}
    (h : manifest.keys.Nodup) : (settleAll steps manifest).1.keys.Nodup := by
  induction steps generalizing manifest with
  | nil => exact h
  | cons s rest ih =>
      exact ih (fun s h => hs s (List.mem_cons_of_mem _ h))
        (((hs s List.mem_cons_self).edit manifest).nodup_keys h)

/-- The texts that name a field are all warnings of a step that touches it. -/
theorem warningsOn_self {key : String} {step : FieldStep} (h : Touches key step)
    (manifest : Entries Json) :
    warningsOn key (step manifest).2 = (step manifest).2.map Warning.message := by
  apply List.filter_eq_self.mpr
  intro text ht
  obtain ⟨w, hw, rfl⟩ := List.mem_map.mp ht
  exact h.names manifest w hw

/-- A step that touches a field has no warnings that name another one. -/
theorem warningsOn_other {key other : String} {step : FieldStep} (h : Touches other step)
    (hk : key ∈ settledFields) (ho : other ∈ settledFields) (hne : key ≠ other)
    (manifest : Entries Json) : warningsOn key (step manifest).2 = [] := by
  apply List.filter_eq_nil_iff.mpr
  intro text ht hkey
  obtain ⟨w, hw, rfl⟩ := List.mem_map.mp ht
  exact hne (Warning.eq_of_isAbout hk ho hkey (h.names manifest w hw))

theorem warningsOn_settleAll_of_notMem (hs : ∀ s ∈ steps, Touches s.1 s.2)
    (hf : ∀ s ∈ steps, s.1 ∈ settledFields) {key : String} (hk : key ∈ settledFields)
    (hnot : key ∉ steps.map Prod.fst) (manifest : Entries Json) :
    warningsOn key (settleAll steps manifest).2 = [] := by
  induction steps generalizing manifest with
  | nil => rfl
  | cons s rest ih =>
      obtain ⟨hne, hrest⟩ := List.ne_and_not_mem_of_not_mem_cons hnot
      have hfirst : warningsOn key (s.2 manifest).2 = [] :=
        warningsOn_other (hs s List.mem_cons_self) hk (hf s List.mem_cons_self) hne manifest
      rw [settleAll, warningsOn_append, hfirst, List.nil_append]
      exact ih (fun s h => hs s (List.mem_cons_of_mem _ h))
        (fun s h => hf s (List.mem_cons_of_mem _ h)) hrest _

/-- In a row of steps each field is what its own step makes of what was there before the row, and
the warnings that name the field are the ones of that step. -/
theorem settleAll_of_mem (ha : ∀ s ∈ steps, IsAbout s.1 s.2) (ht : ∀ s ∈ steps, Touches s.1 s.2)
    (hf : ∀ s ∈ steps, s.1 ∈ settledFields) (hd : (steps.map Prod.fst).Nodup)
    {key : String} {step : FieldStep} (hm : (key, step) ∈ steps) (manifest : Entries Json) :
    ∃ met, Entries.get? met key = Entries.get? manifest key ∧
      Entries.get? (settleAll steps manifest).1 key = Entries.get? (step met).1 key ∧
      warningsOn key (settleAll steps manifest).2 = (step met).2.map Warning.message := by
  induction steps generalizing manifest with
  | nil => simp at hm
  | cons s rest ih =>
      obtain ⟨hnot, hdr⟩ := List.nodup_cons.mp hd
      have har : ∀ s ∈ rest, IsAbout s.1 s.2 := fun s h => ha s (List.mem_cons_of_mem _ h)
      have htr : ∀ s ∈ rest, Touches s.1 s.2 := fun s h => ht s (List.mem_cons_of_mem _ h)
      have hfr : ∀ s ∈ rest, s.1 ∈ settledFields := fun s h => hf s (List.mem_cons_of_mem _ h)
      rcases List.mem_cons.mp hm with rfl | hr
      · refine ⟨manifest, rfl, ?_, ?_⟩
        · exact get?_settleAll_of_notMem har hnot _
        · rw [settleAll, warningsOn_append, warningsOn_self (ht _ List.mem_cons_self),
            warningsOn_settleAll_of_notMem htr hfr (hf _ List.mem_cons_self) hnot, List.append_nil]
      · have hkey : key ∈ rest.map Prod.fst := List.mem_map.mpr ⟨_, hr, rfl⟩
        have hne : key ≠ s.1 := by
          rintro rfl
          exact hnot hkey
        obtain ⟨met, hbefore, hafter, htexts⟩ := ih har htr hfr hdr hr (s.2 manifest).1
        refine ⟨met, ?_, hafter, ?_⟩
        · rw [hbefore, (ha s List.mem_cons_self).frame manifest key hne]
        · rw [settleAll, warningsOn_append, warningsOn_other (ht s List.mem_cons_self)
            (hfr _ hr) (hf s List.mem_cons_self) hne, List.nil_append, htexts]

end FieldStep

open FieldStep

/-- What becomes of a field that may be regenerated: it is the new value and no warning names it,
or there is no new value, the field stays as it was and a number of warnings name it. -/
def Renewed (new : Option Json) (warned : Nat) (before after : Option Json)
    (texts : List String) : Prop :=
  match new with
  | some value => after = some value ∧ texts = []
  | none => after = before ∧ texts.length = warned

theorem Renewed.isSome {new before after : Option Json} {warned : Nat} {texts : List String}
    (h : Renewed new warned before after texts) (hb : before.isSome = true) :
    after.isSome = true := by
  cases new with
  | none => rwa [h.1]
  | some value => rw [h.1, Option.isSome_some]

/-- The commands that a schema gives beside the ones that are there: the schema itself if it is a
map of commands, or else the commands of a union. -/
def newCommands? (schema existing : Json) : Option Json :=
  if (commandFault? schema).isNone then some schema
  else
    match commandsOfUnion schema existing with
    | .ok commands => some (.obj commands)
    | .error _ => none

/-- The listeners that supported events give. -/
def newListeners? (events : Json) : Option Json :=
  if (listenerFault? events).isNone then some events else none

/-- The configuration that a settings schema gives. -/
def newConfiguration? : Json → Option Json
  | .null => none
  | schema => relax? schema

/-- The number of warnings about commands that are not regenerated. -/
def commandWarnings (schema : Json) (optional : Bool) : Nat :=
  match schema with
  | .null => if optional then 0 else 1
  | _ => 1

theorem commandWarnings_of_ne_null {schema : Json} (h : schema ≠ .null) (optional : Bool) :
    commandWarnings schema optional = 1 := by
  cases schema with
  | null => exact absurd rfl h
  | _ => rfl

theorem commandFault?_of_newCommands? {schema existing commands : Json}
    (h : newCommands? schema existing = some commands) : commandFault? commands = none := by
  unfold newCommands? at h
  split at h
  · rename_i hfault
    cases h
    exact Option.isNone_iff_eq_none.mp hfault
  · split at h
    · rename_i hunion
      cases h
      exact commandFault?_of_commandsOfUnion hunion
    · cases h

theorem listenerFault?_of_newListeners? {events listeners : Json}
    (h : newListeners? events = some listeners) : listenerFault? listeners = none := by
  unfold newListeners? at h
  split at h
  · rename_i hfault
    cases h
    exact Option.isNone_iff_eq_none.mp hfault
  · cases h

theorem commandsOfUnion_of_variants?_eq_none {schema existing : Json}
    (h : variants? schema = none) : commandsOfUnion schema existing = .error .notUnion := by
  simp [commandsOfUnion, h]

theorem renewed_settleCommands (schema : Json) (optional : Bool) (manifest : Entries Json) :
    Renewed (newCommands? schema (Json.field manifest "commands"))
      (commandWarnings schema optional) (Entries.get? manifest "commands")
      (Entries.get? (settleCommands schema optional manifest).1 "commands")
      ((settleCommands schema optional manifest).2.map Warning.message) := by
  by_cases hn : schema = .null
  · subst hn
    refine ⟨rfl, ?_⟩
    cases optional <;> rfl
  · rw [settleCommands_of_ne_null hn, commandWarnings_of_ne_null hn]
    cases hfault : commandFault? schema with
    | none => simp [newCommands?, hfault, Renewed, Entries.get?_put]
    | some fault =>
        cases hvariants : variants? schema with
        | none =>
            simp [newCommands?, hfault, Renewed, commandsOfUnion_of_variants?_eq_none hvariants]
        | some variants =>
            have hconvert := convertUnion_eq schema (Json.field manifest "commands")
            cases hunion : commandsOfUnion schema (Json.field manifest "commands") with
            | ok commands =>
                rw [hunion, Except.mapError] at hconvert
                simp [newCommands?, hfault, hunion, hconvert, settleUnion, Renewed,
                  Entries.get?_put]
            | error fault =>
                rw [hunion, Except.mapError] at hconvert
                simp [newCommands?, hfault, hunion, hconvert, settleUnion, Renewed]

theorem renewed_settleListeners (events : Json) (manifest : Entries Json) :
    Renewed (newListeners? events) 1 (Entries.get? manifest listenersKey)
      (Entries.get? (settleListeners events manifest).1 listenersKey)
      ((settleListeners events manifest).2.map Warning.message) := by
  by_cases hn : events = .null
  · subst hn
    exact ⟨rfl, rfl⟩
  · rw [settleListeners_of_ne_null hn]
    cases hfault : listenerFault? events with
    | none => simp [newListeners?, hfault, Renewed, Entries.get?_put]
    | some fault => simp [newListeners?, hfault, Renewed]

theorem newConfiguration?_of_ne_null {schema : Json} (h : schema ≠ .null) :
    newConfiguration? schema = relax? schema := by
  cases schema with
  | null => exact absurd rfl h
  | _ => rfl

theorem renewed_configuration {schema : Json} {step : FieldStep}
    (h : configuration? schema = some step) (manifest : Entries Json) :
    Renewed (newConfiguration? schema) 1 (Entries.get? manifest "configuration")
      (Entries.get? (step manifest).1 "configuration") ((step manifest).2.map Warning.message) := by
  by_cases hn : schema = .null
  · subst hn
    obtain rfl := Option.some.inj h
    exact ⟨rfl, rfl⟩
  · obtain ⟨relaxed, hr, rfl⟩ := exists_relaxed_of_configuration? h hn
    rw [newConfiguration?_of_ne_null hn, hr]
    exact ⟨by simp [putting, Entries.get?_put], rfl⟩

/-- A text field goes away, or stays away, only if neither side says anything about it. -/
theorem get?_settleText_eq_none_iff (package : Entries Json) (key : String)
    (manifest : Entries Json) :
    Entries.get? (settleText package key manifest).1 key = none ↔
      packageText? package key = none ∧ (Json.field manifest key).isGiven = false := by
  cases hp : packageText? package key with
  | some value => simp [settleText, hp, Entries.get?_put]
  | none =>
      cases hg : (Json.field manifest key).isGiven with
      | false => simp [settleText, hp, hg, Entries.get?_remove]
      | true =>
          -- a value that counts as given is not the null of a missing key
          have hsome : Entries.get? manifest key ≠ none := by
            intro hnone
            simp [Json.field, hnone, Json.isGiven] at hg
          simp [settleText, hp, hg, hsome]

theorem packageText?_eq_none_iff {package : Entries Json} {key : String} :
    packageText? package key = none ↔
      ∀ text, Json.field package key = .str text → trim text.toList = [] := by
  unfold packageText?
  split
  · rename_i text hf
    simp [hf]
  · rename_i hf
    exact ⟨fun _ text h => absurd h (hf text), fun _ => rfl⟩

theorem map_fst_fieldSteps (package : Entries Json) (release : Release) (settled : Settled)
    (configuration : FieldStep) :
    (fieldSteps package release settled configuration).map Prod.fst = settledFields := rfl

theorem fst_mem_settledFields {package : Entries Json} {release : Release} {settled : Settled}
    {configuration : FieldStep} :
    ∀ s ∈ fieldSteps package release settled configuration, s.1 ∈ settledFields := by
  intro s hs
  rw [← map_fst_fieldSteps package release settled configuration]
  exact List.mem_map_of_mem hs

theorem touches_fieldSteps (package : Entries Json) (release : Release) {settled : Settled}
    {configuration : FieldStep} (h : configuration? settled.settingsSchema = some configuration) :
    ∀ s ∈ fieldSteps package release settled configuration, Touches s.1 s.2 := by
  simp only [fieldSteps, List.forall_mem_cons]
  exact ⟨touches_settleText (by decide) package, touches_putting (by simp) _,
    touches_settleText (by decide) package, touches_settleCommands _ _, touches_settleListeners _,
    touches_settleFlag _, touches_configuration h, by simp⟩

theorem keys_knownFields (order : List String) (manifest : Entries Json) :
    (knownFields order manifest).keys = order.filter (Entries.has manifest) := by
  induction order with
  | nil => rfl
  | cons key rest ih =>
      simp only [knownFields] at ih
      cases hg : Entries.get? manifest key <;> simp [knownFields, Entries.has, hg, ih]

theorem keys_orderFields (manifest : Entries Json) :
    (orderFields manifest).keys =
      fieldOrder.filter (Entries.has manifest) ++
        manifest.keys.filter fun key => !fieldOrder.contains key := by
  rw [orderFields_eq, Entries.keys_append, keys_knownFields,
    Entries.keys_filter fun key => !fieldOrder.contains key]

theorem nodup_keys_orderFields {manifest : Entries Json} (h : manifest.keys.Nodup) :
    (orderFields manifest).keys.Nodup := by
  rw [keys_orderFields, List.nodup_append]
  refine ⟨List.filter_sublist.nodup (by decide), h.filter _, ?_⟩
  -- a known field is none of the others
  rintro key hknown _ hother rfl
  have hk : key ∈ fieldOrder := (List.mem_filter.mp hknown).1
  have hnot : key ∉ fieldOrder := by simpa using (List.mem_filter.mp hother).2
  exact hnot hk

/-- What an assembly makes of an existing manifest. -/
structure Accounts (existing package : Entries Json) (settled : Settled)
    (manifest : Entries Json) (warnings : List Warning) : Prop where
  /-- Fields that are not settled are there if they were, with the same value. -/
  frame : ∀ key ∉ settledFields, Entries.get? manifest key = Entries.get? existing key
  commands : Renewed (newCommands? settled.commandSchema (Json.field existing "commands"))
    (commandWarnings settled.commandSchema settled.commandsOptional)
    (Entries.get? existing "commands") (Entries.get? manifest "commands")
    (warningsOn "commands" warnings)
  commands_faultless : ∀ value, newCommands? settled.commandSchema
    (Json.field existing "commands") = some value → commandFault? value = none
  listeners : Renewed (newListeners? settled.events) 1
    (Entries.get? existing listenersKey) (Entries.get? manifest listenersKey)
    (warningsOn listenersKey warnings)
  listeners_faultless : ∀ value, newListeners? settled.events = some value →
    listenerFault? value = none
  configuration : Renewed (newConfiguration? settled.settingsSchema) 1
    (Entries.get? existing "configuration") (Entries.get? manifest "configuration")
    (warningsOn "configuration" warnings)
  /-- Fields that may be regenerated are never removed. -/
  stays : ∀ key ∈ ["commands", listenersKey, "configuration"],
    Entries.has existing key = true → Entries.has manifest key = true
  /-- Texts are missing only if the package has none that is not blank, and the existing value
  counts as not given. -/
  texts : ∀ key ∈ ["name", "description"], Entries.get? manifest key = none ↔
    (∀ text, Json.field package key = .str text → trim text.toList = []) ∧
      (Json.field existing key).isGiven = false
  order : manifest.keys = fieldOrder.filter (Entries.has manifest) ++
    existing.keys.filter fun key => !fieldOrder.contains key
  once : existing.keys.Nodup → manifest.keys.Nodup

section

variable {existing package : Entries Json} {release : Release} {settled : Settled}
  {manifest : Entries Json} {warnings : List Warning}

/-- The fields of an assembly are what their steps make of the values that were there, and so are
the warnings that name them. -/
theorem exists_met_of_assemble?
    (h : assemble? existing package release settled = some (manifest, warnings)) :
    ∃ configuration, configuration? settled.settingsSchema = some configuration ∧
      ∀ key step, (key, step) ∈ fieldSteps package release settled configuration →
        ∃ met, Entries.get? met key = Entries.get? existing key ∧
          Entries.get? manifest key = Entries.get? (step met).1 key ∧
          warningsOn key warnings = (step met).2.map Warning.message := by
  rw [assemble?_eq] at h
  obtain ⟨configuration, hc, hd⟩ := Option.map_eq_some_iff.mp h
  obtain ⟨rfl, rfl⟩ := Prod.mk.inj hd
  refine ⟨configuration, hc, fun key step hm => ?_⟩
  obtain ⟨met, hbefore, hafter, htexts⟩ := settleAll_of_mem (isAbout_fieldSteps package release hc)
    (touches_fieldSteps package release hc) fst_mem_settledFields
    (nodup_fieldSteps package release settled _) hm existing
  exact ⟨met, hbefore, by rw [get?_orderFields, hafter], htexts⟩

/-- An assembly keeps the entries of unknown fields as they are. -/
theorem filter_of_assemble?
    (h : assemble? existing package release settled = some (manifest, warnings)) :
    ∃ draft, manifest = orderFields draft ∧ (existing.keys.Nodup → draft.keys.Nodup) ∧
      ∀ keeps : String → Bool, (∀ key ∈ settledFields, keeps key = false) →
        draft.filter (fun e => keeps e.1) = existing.filter fun e => keeps e.1 := by
  rw [assemble?_eq] at h
  obtain ⟨configuration, hc, hd⟩ := Option.map_eq_some_iff.mp h
  obtain ⟨rfl, -⟩ := Prod.mk.inj hd
  have ht := touches_fieldSteps package release hc
  refine ⟨_, rfl, nodup_keys_settleAll ht, fun keeps hk => filter_settleAll ht ?_ existing⟩
  exact fun s hs => hk s.1 (fst_mem_settledFields s hs)

theorem get?_of_assemble?
    (h : assemble? existing package release settled = some (manifest, warnings)) {key : String}
    (hk : key ∉ settledFields) : Entries.get? manifest key = Entries.get? existing key := by
  obtain ⟨draft, rfl, -, hfilter⟩ := filter_of_assemble? h
  rw [get?_orderFields]
  -- a look-up of one key sees the entries of that key only
  have hself (entries : Entries Json) :
      Entries.get? (entries.filter fun e => e.1 == key) key = Entries.get? entries key := by
    rw [Entries.get?_filter_key (fun k => k == key), if_pos (beq_self_eq_true key)]
  rw [← hself draft, hfilter (fun k => k == key), hself]
  intro other ho
  rw [beq_eq_false_iff_ne]
  rintro rfl
  exact hk ho

theorem keys_of_assemble?
    (h : assemble? existing package release settled = some (manifest, warnings)) :
    manifest.keys = fieldOrder.filter (Entries.has manifest) ++
      existing.keys.filter fun key => !fieldOrder.contains key := by
  obtain ⟨draft, rfl, -, hfilter⟩ := filter_of_assemble? h
  have hhas : Entries.has (orderFields draft) = Entries.has draft := by
    funext key
    rw [Entries.has, get?_orderFields, Entries.has]
  have hothers := congrArg Entries.keys (hfilter (fun key => !fieldOrder.contains key) (by decide))
  rw [Entries.keys_filter fun key => !fieldOrder.contains key,
    Entries.keys_filter fun key => !fieldOrder.contains key] at hothers
  rw [keys_orderFields, hhas, hothers]

/-- Every manifest that an assembly gives is accounted for, field by field. -/
theorem assemble?_accounts
    (h : assemble? existing package release settled = some (manifest, warnings)) :
    Accounts existing package settled manifest warnings := by
  obtain ⟨configuration, hc, account⟩ := exists_met_of_assemble? h
  have hcommands : Renewed (newCommands? settled.commandSchema (Json.field existing "commands"))
      (commandWarnings settled.commandSchema settled.commandsOptional)
      (Entries.get? existing "commands") (Entries.get? manifest "commands")
      (warningsOn "commands" warnings) := by
    obtain ⟨met, hbefore, hafter, htexts⟩ := account "commands"
      (settleCommands settled.commandSchema settled.commandsOptional) (by simp [fieldSteps])
    rw [hafter, htexts, Json.field, ← hbefore]
    exact renewed_settleCommands _ _ met
  have hlisteners : Renewed (newListeners? settled.events) 1 (Entries.get? existing listenersKey)
      (Entries.get? manifest listenersKey) (warningsOn listenersKey warnings) := by
    obtain ⟨met, hbefore, hafter, htexts⟩ :=
      account listenersKey (settleListeners settled.events) (by simp [fieldSteps])
    rw [hafter, htexts, ← hbefore]
    exact renewed_settleListeners _ met
  have hconfiguration : Renewed (newConfiguration? settled.settingsSchema) 1
      (Entries.get? existing "configuration") (Entries.get? manifest "configuration")
      (warningsOn "configuration" warnings) := by
    obtain ⟨met, hbefore, hafter, htexts⟩ :=
      account "configuration" configuration (by simp [fieldSteps])
    rw [hafter, htexts, ← hbefore]
    exact renewed_configuration hc met
  refine
    { frame := fun _ => get?_of_assemble? h
      commands := hcommands
      commands_faultless := fun _ => commandFault?_of_newCommands?
      listeners := hlisteners
      listeners_faultless := fun _ => listenerFault?_of_newListeners?
      configuration := hconfiguration
      stays := ?_
      texts := ?_
      order := ?_
      once := ?_ }
  · simp only [List.forall_mem_cons]
    exact ⟨hcommands.isSome, hlisteners.isSome, hconfiguration.isSome, by simp⟩
  · intro key hk
    have hstep : (key, settleText package key) ∈
        fieldSteps package release settled configuration := by
      simp only [List.mem_cons, List.not_mem_nil, or_false] at hk
      rcases hk with rfl | rfl <;> simp [fieldSteps]
    obtain ⟨met, hbefore, hafter, -⟩ := account key _ hstep
    have hfield : Json.field met key = Json.field existing key := by
      rw [Json.field, hbefore, Json.field]
    rw [hafter, get?_settleText_eq_none_iff, packageText?_eq_none_iff, hfield]
  · exact keys_of_assemble? h
  · intro hn
    obtain ⟨draft, rfl, hnodup, -⟩ := filter_of_assemble? h
    exact nodup_keys_orderFields (hnodup hn)

end

/-- A manifest with unknown fields, one of them null, with commands that stay because a variant of
the union has no name, and with a description that goes because it is empty. -/
theorem assemble?_accounts_kept_commands :
    let existing : Entries Json :=
      [("x", .null), ("description", .str ""), ("commands", .obj [("start", .null)]),
        ("homepage_url", .str "h"), ("y", .int 1)]
    let settled : Settled :=
      ⟨.obj [("type", .str "object")], .obj [("oneOf", .arr [.obj [("properties", .obj [])]])],
        .arr [.str "issues.opened"], .null, false⟩
    let manifest : Entries Json :=
      [("name", .str "p"), ("short_name", .str "o/r@main"),
        ("commands", .obj [("start", .null)]), (listenersKey, .arr [.str "issues.opened"]),
        ("skipBotEvents", .bool true), ("configuration", .obj [("type", .str "object")]),
        ("homepage_url", .str "h"), ("x", .null), ("y", .int 1)]
    let warnings : List Warning :=
      [.absent "description", .invalidUnion (UnionFault.noName 0).message]
    assemble? existing [("name", .str "p")] ⟨"o/r", "main"⟩ settled = some (manifest, warnings) ∧
      existing.keys.Nodup ∧
      Accounts existing [("name", .str "p")] settled manifest warnings := by
  intro existing settled manifest warnings
  have h : assemble? existing [("name", .str "p")] ⟨"o/r", "main"⟩ settled =
      some (manifest, warnings) := by rfl
  exact ⟨h, by decide, assemble?_accounts h⟩

end PluginContract.Manifest

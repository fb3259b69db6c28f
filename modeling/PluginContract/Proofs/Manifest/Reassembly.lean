import PluginContract.Proofs.Manifest.FieldSteps

/-!
# Assembling a manifest again

A manifest that an assembly made is a fixed point of the same assembly: values,
order of keys and warnings all come out as before. Ordering the fields keeps
every look-up, so each step of the second assembly finds what it left.
-/

namespace PluginContract.Manifest

open FieldStep

/-- The known fields that are there, in their order. -/
def knownFields (order : List String) (manifest : Entries Json) : Entries Json :=
  order.filterMap fun key => (Entries.get? manifest key).map fun value => (key, value)

theorem orderFields_eq (manifest : Entries Json) :
    orderFields manifest = knownFields fieldOrder manifest ++
      manifest.filter fun entry => !fieldOrder.contains entry.1 := rfl

theorem get?_knownFields (order : List String) (manifest : Entries Json) (key : String) :
    Entries.get? (knownFields order manifest) key =
      if key ∈ order then Entries.get? manifest key else none := by
  induction order with
  | nil => rfl
  | cons k rest ih =>
      simp only [knownFields] at ih
      by_cases hk : key = k
      · subst hk
        cases hg : Entries.get? manifest key with
        | none => simp [knownFields, hg, ih]
        | some value => simp [knownFields, hg, Entries.get?]
      · cases hg : Entries.get? manifest k with
        | none => simp [knownFields, hg, ih, hk]
        | some value => simp [knownFields, hg, Entries.get?, ih, hk, Ne.symm hk]

theorem mem_order_of_mem_knownFields {order : List String} {manifest : Entries Json}
    {entry : String × Json} (h : entry ∈ knownFields order manifest) : entry.1 ∈ order := by
  obtain ⟨key, hk, he⟩ := List.mem_filterMap.mp h
  obtain ⟨value, -, rfl⟩ := Option.map_eq_some_iff.mp he
  exact hk

theorem knownFields_congr {order : List String} {a b : Entries Json}
    (h : ∀ key, Entries.get? a key = Entries.get? b key) :
    knownFields order a = knownFields order b := by
  simp [knownFields, h]

/-- Ordering fields changes no look-up. -/
theorem get?_orderFields (manifest : Entries Json) (key : String) :
    Entries.get? (orderFields manifest) key = Entries.get? manifest key := by
  rw [orderFields_eq, Entries.get?_append, get?_knownFields,
    Entries.get?_filter_key (fun k => !fieldOrder.contains k)]
  by_cases h : key ∈ fieldOrder
  · have hc : fieldOrder.contains key = true := List.contains_iff_mem.mpr h
    cases Entries.get? manifest key <;> simp [h]
  · simp [h]

/-- Ordered fields are in their order. -/
theorem orderFields_orderFields (manifest : Entries Json) :
    orderFields (orderFields manifest) = orderFields manifest := by
  have hknown : knownFields fieldOrder (orderFields manifest) = knownFields fieldOrder manifest :=
    knownFields_congr (get?_orderFields manifest)
  have hnone : (knownFields fieldOrder manifest).filter
      (fun entry => !fieldOrder.contains entry.1) = [] := by
    apply List.filter_eq_nil_iff.mpr
    intro entry he
    simpa using mem_order_of_mem_knownFields he
  rw [orderFields_eq (orderFields manifest), hknown, orderFields_eq manifest, List.filter_append,
    hnone, List.nil_append, List.filter_filter]
  simp

/-- The steps of an assembly with the fields that they are about. -/
def fieldSteps (package : Entries Json) (release : Release) (settled : Settled)
    (configuration : FieldStep) : List (String × FieldStep) :=
  [("name", settleText package "name"),
    ("short_name", putting "short_name" (.str release.shortName) []),
    ("description", settleText package "description"),
    ("commands", settleCommands settled.commandSchema settled.commandsOptional),
    (listenersKey, settleListeners settled.events),
    ("skipBotEvents", settleFlag settled.skipBotEvents),
    ("configuration", configuration)]

/-- An assembly is its steps in a row, and then the order of the fields. -/
theorem assemble?_eq (existing package : Entries Json) (release : Release) (settled : Settled) :
    assemble? existing package release settled =
      (configuration? settled.settingsSchema).map fun configuration =>
        let draft := settleAll (fieldSteps package release settled configuration) existing
        (orderFields draft.1, draft.2) := by
  unfold assemble?
  simp only [settleConfiguration?_eq]
  cases configuration? settled.settingsSchema with
  | none => rfl
  | some configuration => simp [settleAll, fieldSteps, putting]

theorem nodup_fieldSteps (package : Entries Json) (release : Release) (settled : Settled)
    (configuration : FieldStep) :
    ((fieldSteps package release settled configuration).map Prod.fst).Nodup := by
  simp only [fieldSteps, List.map_cons, List.map_nil]
  decide

theorem isAbout_fieldSteps (package : Entries Json) (release : Release) {settled : Settled}
    {configuration : FieldStep} (h : configuration? settled.settingsSchema = some configuration) :
    ∀ s ∈ fieldSteps package release settled configuration, IsAbout s.1 s.2 := by
  simp only [fieldSteps, List.forall_mem_cons]
  exact ⟨isAbout_settleText package _, isAbout_putting _ _ _, isAbout_settleText package _,
    isAbout_settleCommands _ _, isAbout_settleListeners _, isAbout_settleFlag _,
    isAbout_configuration h, by simp⟩

/-- Assembly is idempotent: what it made of an existing manifest it makes again of the result, with
the same warnings. -/
theorem assemble?_idempotent {existing package : Entries Json} {release : Release}
    {settled : Settled} {manifest : Entries Json} {warnings : List Warning}
    (h : assemble? existing package release settled = some (manifest, warnings)) :
    assemble? manifest package release settled = some (manifest, warnings) := by
  rw [assemble?_eq] at h ⊢
  obtain ⟨configuration, hc, hd⟩ := Option.map_eq_some_iff.mp h
  obtain ⟨rfl, rfl⟩ := Prod.mk.inj hd
  -- the second row of steps starts from a manifest with the look-ups that the first one left
  have again := settleAll_again (isAbout_fieldSteps package release hc)
    (nodup_fieldSteps package release settled configuration) existing
    (orderFields (settleAll (fieldSteps package release settled configuration) existing).1)
    fun key _ => get?_orderFields _ key
  simp only [hc, Option.map_some, again, orderFields_orderFields]

/-- Assembling again from a union that names a command twice, where the command that is there fills
in what the last variant leaves out, and from a package without a name. -/
theorem assemble?_idempotent_union :
    let existing : Entries Json :=
      [("homepage_url", .null), ("name", .str "old"),
        ("commands", .obj [("start", .obj [("description", .str "Starts"),
          ("parameters", .obj [("type", .str "object")])])])]
    let variant : Json := .obj [("properties", .obj [("name", .obj [("const", .str "start")])])]
    let described : Json := .obj [("properties", .obj [("name", .obj [("enum", .arr [.str "start"]),
      ("description", .str "Begins")])])]
    let settled : Settled :=
      ⟨.null, .obj [("anyOf", .arr [described, variant])], .null, .str "no", false⟩
    let manifest : Entries Json :=
      [("name", .str "old"), ("short_name", .str "p@main"),
        ("commands", .obj [("start", .obj [("description", .str "Starts"),
          (exampleKey, .str "/start"), ("parameters", .obj [("type", .str "object")])])]),
        ("skipBotEvents", .bool false), ("homepage_url", .null)]
    let warnings : List Warning :=
      [.keptFromManifest "name" (.str "old"), .absent "description", .noEvents, .noSettingsSchema]
    assemble? existing [] ⟨"p", "main"⟩ settled = some (manifest, warnings) ∧
      assemble? manifest [] ⟨"p", "main"⟩ settled = some (manifest, warnings) := by
  intro existing variant described settled manifest warnings
  have h : assemble? existing [] ⟨"p", "main"⟩ settled = some (manifest, warnings) := by rfl
  exact ⟨h, assemble?_idempotent h⟩

end PluginContract.Manifest

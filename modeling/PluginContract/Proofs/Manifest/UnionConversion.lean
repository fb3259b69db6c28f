import Mathlib.Data.List.Forall2
import PluginContract.Proofs.Manifest.Union

/-!
# Which unions give commands, and which commands

A union gives commands if and only if it lists variants that each fix a name; otherwise the first
variant that does not is blamed. The commands are found in the order in which their names first
occur, each made from the last variant of its name and from what was known about it.
-/

namespace PluginContract.Manifest

/-- The variants that a union lists: the items of `anyOf`, or of `oneOf` if there is no `anyOf`. -/
inductive ListsVariants : Json → List Json → Prop
  | anyOf {schema : Entries Json} {variants : List Json}
      (any : Entries.get? schema "anyOf" = some (.arr variants)) :
      ListsVariants (.obj schema) variants
  | oneOf {schema : Entries Json} {variants : List Json}
      (no : Entries.get? schema "anyOf" = none)
      (one : Entries.get? schema "oneOf" = some (.arr variants)) :
      ListsVariants (.obj schema) variants

/-- Whether a schema fixes a name: its constant, or the only value that it enumerates if it has no
constant. A name is a non-empty text. -/
inductive FixesName (schema : Entries Json) (name : String) : Prop
  | constant (ne : name ≠ "") (const : Json.field schema "const" = .str name)
  | single (ne : name ≠ "") (no : ∀ text, Json.field schema "const" = .str text → text = "")
      (enum : Json.field schema "enum" = .arr [.str name])

/-- Whether a value is an object with properties. -/
def HasProperties (v : Json) : Prop :=
  ∃ schema properties, v = .obj schema ∧ Json.field schema "properties" = .obj properties

/-- Whether a value is a variant that fixes a name, and has these parts. -/
structure IsVariant (v : Json) (variant : Variant) : Prop where
  value : v = .obj variant.schema
  properties : Json.field variant.schema "properties" = .obj variant.properties
  nameSchema : Json.field variant.properties "name" = .obj variant.nameSchema
  name : FixesName variant.nameSchema variant.name

/-- What is wrong with the value at an index of a union. -/
inductive Offends (index : Nat) (v : Json) : UnionFault → Prop
  | noProperties (no : ¬ HasProperties v) : Offends index v (.noProperties index)
  | noName (has : HasProperties v) (no : ∀ variant, ¬ IsVariant v variant) :
      Offends index v (.noName index)

/-- The first of some candidates that is a non-empty text, or else a text of last resort. -/
inductive FirstText (otherwise : String) : List Json → String → Prop
  | here {text : String} {rest : List Json} (ne : text ≠ "") :
      FirstText otherwise (.str text :: rest) text
  | later {v : Json} {rest : List Json} {text : String} (no : ∀ t, v = .str t → t = "")
      (found : FirstText otherwise rest text) : FirstText otherwise (v :: rest) text
  | otherwise : FirstText otherwise [] otherwise

/-- The parameters of a command: its own, or else the ones it had before, if there are any. -/
inductive TakesParameters (v : Variant) (previous : Entries Json) : Entries Json → Prop
  | own (given : Json.field v.properties "parameters" ≠ .null) :
      TakesParameters v previous [("parameters", Json.field v.properties "parameters")]
  | kept (no : Json.field v.properties "parameters" = .null)
      (given : Json.field previous "parameters" ≠ .null) :
      TakesParameters v previous [("parameters", Json.field previous "parameters")]
  | none (no : Json.field v.properties "parameters" = .null)
      (noKept : Json.field previous "parameters" = .null) : TakesParameters v previous []

/-- What a variant says about its command, beside what was known about it. -/
inductive DescribesCommand (v : Variant) (previous : Entries Json) : Entries Json → Prop
  | intro {description usage : String} {parameters : Entries Json}
      (description_first : FirstText v.name
        [Json.field v.nameSchema "description", Json.field v.schema "description",
          Json.field previous "description"] description)
      (usage_first : FirstText ("/" ++ v.name)
        [Json.field v.nameSchema exampleKey, Json.field v.nameSchema "example",
          firstExample v.nameSchema, Json.field previous exampleKey] usage)
      (takes : TakesParameters v previous parameters) :
      DescribesCommand v previous
        ([("description", .str description), (exampleKey, .str usage)] ++ parameters)

/-- The commands of variants: under each name, in the order of first occurrence, what the last
variant of that name describes. -/
structure Tabulates (variants : List Variant) (existing : Json) (commands : Entries Json) :
    Prop where
  keys : commands.keys = distinct (variants.map Variant.name)
  entry : ∀ before v after, variants = before ++ v :: after →
    (∀ later ∈ after, later.name ≠ v.name) →
    ∃ command, Entries.get? commands v.name = some (.obj command) ∧
      DescribesCommand v (previousOf existing v.name) command

/-- What turning a union into commands does. -/
structure ConvertsUnion (schema existing : Json) : Prop where
  /-- There are commands if and only if the union lists variants, and each of them fixes a name. -/
  converts_iff : (∃ commands, convertUnion schema existing = .ok commands) ↔
    ∃ values, ListsVariants schema values ∧ values ≠ [] ∧
      ∀ v ∈ values, ∃ variant, IsVariant v variant
  /-- A union without variants is no union. -/
  notUnion : (¬ ∃ values, ListsVariants schema values ∧ values ≠ []) →
    convertUnion schema existing = .error UnionFault.notUnion.message
  /-- Of variants that do not all fix a name the first one that does not is blamed, and the message
  names its index. -/
  blames : ∀ values, ListsVariants schema values →
    (¬ ∀ v ∈ values, ∃ variant, IsVariant v variant) →
    ∃ (before after : List Json) (v : Json) (fault : UnionFault) (what : String),
      values = before ++ v :: after ∧
      (∀ earlier ∈ before, ∃ variant, IsVariant earlier variant) ∧
      Offends before.length v fault ∧ convertUnion schema existing = .error fault.message ∧
      fault.message = s!"union variant {before.length} has no {what}"
  /-- The commands are those of the variants, and all of them are described. -/
  tabulates : ∀ commands, convertUnion schema existing = .ok commands →
    commandFault? (.obj commands) = none ∧
      ∃ values variants, ListsVariants schema values ∧ List.Forall₂ IsVariant values variants ∧
        Tabulates variants existing commands
  /-- The last check never fails. -/
  unchecked : convertUnion schema existing =
    (commandsOfUnion schema existing).mapError UnionFault.message
  /-- The union gives the same commands once they are there. -/
  again : ∀ commands, convertUnion schema existing = .ok commands →
    convertUnion schema (.obj commands) = .ok commands

theorem variants?_eq_some_iff {schema : Json} {values : List Json} :
    variants? schema = some values ↔ ListsVariants schema values := by
  constructor
  · intro h
    cases schema with
    | obj fields =>
        rw [variants?] at h
        obtain ⟨listed, hlisted, hitems⟩ := Option.bind_eq_some_iff.mp h
        obtain rfl : listed = .arr values := by
          cases listed with
          | arr items => rw [Option.some.inj hitems]
          | _ => cases hitems
        rcases hany : Entries.get? fields "anyOf" with _ | any
        · rw [hany] at hlisted
          exact .oneOf hany hlisted
        · rw [hany] at hlisted
          exact .anyOf (hany.trans hlisted)
    | _ => cases h
  · rintro (hany | ⟨hno, hone⟩)
    · simp [variants?, hany, Json.items?]
    · simp [variants?, hno, hone, Json.items?]

theorem text?_eq_none_iff {v : Json} : v.text? = none ↔ ∀ text, v = .str text → text = "" := by
  rw [Option.eq_none_iff_forall_ne_some]
  simp only [ne_eq, Json.text?_eq_some_iff, not_and, not_not]

theorem fixedName?_eq_some_iff {schema : Entries Json} {name : String} :
    fixedName? schema = some name ↔ FixesName schema name := by
  unfold fixedName?
  constructor
  · intro h
    split at h
    · rename_i constant hconst
      obtain rfl := Option.some.inj h
      obtain ⟨hconst, hne⟩ := Json.text?_eq_some_iff.mp hconst
      exact .constant hne hconst
    · rename_i hconst
      split at h
      · rename_i value henum
        obtain ⟨rfl, hne⟩ := Json.text?_eq_some_iff.mp h
        exact .single hne (text?_eq_none_iff.mp hconst) henum
      · cases h
  · rintro (⟨hne, hconst⟩ | ⟨hne, hno, henum⟩)
    · rw [Json.text?_eq_some_iff.mpr ⟨hconst, hne⟩]
    · rw [text?_eq_none_iff.mpr hno, henum]
      exact Json.text?_eq_some_iff.mpr ⟨rfl, hne⟩

section Reading

variable {index : Nat} {v : Json} {variant : Variant} {values : List Json}
  {variants : List Variant} {fault fault' : UnionFault}

theorem IsVariant.hasProperties (h : IsVariant v variant) : HasProperties v :=
  ⟨variant.schema, variant.properties, h.value, h.properties⟩

theorem read_eq_ok_iff : Variant.read index v = .ok variant ↔ IsVariant v variant := by
  constructor
  · intro h
    unfold Variant.read at h
    split at h
    · split at h
      · rename_i hproperties
        split at h
        · rename_i hname
          split at h
          · rename_i hfixed
            obtain rfl := Except.ok.inj h
            exact ⟨rfl, hproperties, hname, fixedName?_eq_some_iff.mp hfixed⟩
          · cases h
        · cases h
      · cases h
    · cases h
  · rintro ⟨rfl, hproperties, hname, hfixes⟩
    simp only [Variant.read, hproperties, hname, fixedName?_eq_some_iff.mpr hfixes]

theorem Offends.not_isVariant (h : Offends index v fault) (variant : Variant) :
    ¬ IsVariant v variant := by
  cases h with
  | noProperties no => exact fun hvariant => no hvariant.hasProperties
  | noName has no => exact no variant

theorem Offends.unique (h : Offends index v fault) (h' : Offends index v fault') :
    fault = fault' := by
  cases h with
  | noProperties no =>
      cases h' with
      | noProperties _ => rfl
      | noName has _ => exact absurd has no
  | noName has _ =>
      cases h' with
      | noProperties no => exact absurd has no
      | noName _ _ => rfl

theorem Offends.message (h : Offends index v fault) :
    ∃ what : String, fault.message = s!"union variant {index} has no {what}" := by
  cases h with
  | noProperties no =>
      refine ⟨"properties", ?_⟩
      rw [String.append_assoc]
      rfl
  | noName has no =>
      refine ⟨"literal \"name\" (const or single-value enum)", ?_⟩
      rw [String.append_assoc]
      rfl

theorem offends_of_read (h : Variant.read index v = .error fault) : Offends index v fault := by
  have hno : ∀ variant, ¬ IsVariant v variant := by
    intro variant hvariant
    rw [read_eq_ok_iff.mpr hvariant] at h
    cases h
  unfold Variant.read at h
  split at h
  · split at h
    · rename_i schema _ properties hproperties
      have has : HasProperties (.obj schema) := ⟨schema, properties, rfl, hproperties⟩
      split at h
      · split at h
        · cases h
        · cases h
          exact .noName has hno
      · cases h
        exact .noName has hno
    · rename_i hproperties
      cases h
      refine .noProperties ?_
      rintro ⟨_, properties, hschema, hgiven⟩
      obtain rfl := Json.obj.inj hschema
      exact hproperties properties hgiven
  · rename_i hobj
    cases h
    refine .noProperties ?_
    rintro ⟨schema, _, rfl, -⟩
    exact hobj schema rfl

theorem read_of_offends (h : Offends index v fault) : Variant.read index v = .error fault := by
  cases hread : Variant.read index v with
  | ok variant => exact absurd (read_eq_ok_iff.mp hread) (h.not_isVariant variant)
  | error other => rw [h.unique (offends_of_read hread)]

theorem exists_offends (index : Nat) (h : ¬ ∃ variant, IsVariant v variant) :
    ∃ fault, Offends index v fault := by
  cases hread : Variant.read index v with
  | ok variant => exact absurd ⟨variant, read_eq_ok_iff.mp hread⟩ h
  | error fault => exact ⟨fault, offends_of_read hread⟩

/-- Values are read if and only if each is a variant. -/
theorem readVariants_eq_ok_iff :
    readVariants index values = .ok variants ↔ List.Forall₂ IsVariant values variants := by
  induction values generalizing index variants with
  | nil =>
      rw [readVariants, Except.ok.injEq, List.forall₂_nil_left_iff, eq_comm]
  | cons v rest ih =>
      constructor
      · intro h
        cases hread : Variant.read index v with
        | error fault => simp [readVariants, hread, bind, Except.bind] at h
        | ok variant =>
            cases hrest : readVariants (index + 1) rest with
            | error fault => simp [readVariants, hread, hrest, bind, Except.bind] at h
            | ok others =>
                obtain rfl : variant :: others = variants := by
                  simpa [readVariants, hread, hrest, bind, Except.bind, pure, Except.pure] using h
                exact .cons (read_eq_ok_iff.mp hread) (ih.mp hrest)
      · rintro (_ | ⟨hvariant, hothers⟩)
        rw [readVariants, read_eq_ok_iff.mpr hvariant, ih.mpr hothers]
        rfl

/-- Reading stops at the first value that is no variant. -/
theorem readVariants_of_offends {before after : List Json}
    (hbefore : ∀ earlier ∈ before, ∃ variant, IsVariant earlier variant)
    (h : Offends (index + before.length) v fault) :
    readVariants index (before ++ v :: after) = .error fault := by
  induction before generalizing index with
  | nil =>
      have h₀ : Offends index v fault := h
      rw [List.nil_append, readVariants, read_of_offends h₀]
      rfl
  | cons earlier rest ih =>
      obtain ⟨⟨variant, hvariant⟩, hrest⟩ := List.forall_mem_cons.mp hbefore
      have h' : Offends (index + 1 + rest.length) v fault := by
        rwa [List.length_cons, Nat.add_comm rest.length, ← Nat.add_assoc] at h
      rw [List.cons_append, readVariants, read_eq_ok_iff.mpr hvariant, ih hrest h']
      rfl

/-- Values that are not all variants have a first one that is none. -/
theorem exists_first_of_not_forall (h : ¬ ∀ v ∈ values, ∃ variant, IsVariant v variant) :
    ∃ before v after, values = before ++ v :: after ∧
      (∀ earlier ∈ before, ∃ variant, IsVariant earlier variant) ∧
      ¬ ∃ variant, IsVariant v variant := by
  induction values with
  | nil => exact absurd nofun h
  | cons v rest ih =>
      by_cases hv : ∃ variant, IsVariant v variant
      · rw [List.forall_mem_cons, not_and] at h
        obtain ⟨before, other, after, rfl, hbefore, hother⟩ := ih (h hv)
        exact ⟨v :: before, other, after, rfl, List.forall_mem_cons.mpr ⟨hv, hbefore⟩, hother⟩
      · exact ⟨[], v, rest, rfl, nofun, hv⟩

theorem exists_forall₂_isVariant_iff :
    (∃ variants, List.Forall₂ IsVariant values variants) ↔
      ∀ v ∈ values, ∃ variant, IsVariant v variant := by
  induction values with
  | nil => simp
  | cons v rest ih =>
      rw [List.forall_mem_cons, ← ih]
      constructor
      · rintro ⟨_, hvariants⟩
        obtain ⟨variant, others, hv, hothers, rfl⟩ := List.forall₂_cons_left_iff.mp hvariants
        exact ⟨⟨variant, hv⟩, others, hothers⟩
      · rintro ⟨⟨variant, hv⟩, others, hothers⟩
        exact ⟨variant :: others, .cons hv hothers⟩

end Reading

theorem firstText_first (candidates : List Json) (otherwise : String) :
    FirstText otherwise candidates (firstText candidates otherwise) := by
  induction candidates with
  | nil => exact .otherwise
  | cons v rest ih =>
      cases htext : v.text? with
      | none =>
          rw [firstText, List.findSome?_cons, htext]
          exact .later (text?_eq_none_iff.mp htext) ih
      | some text =>
          obtain ⟨rfl, hne⟩ := Json.text?_eq_some_iff.mp htext
          rw [firstText, List.findSome?_cons, htext]
          exact .here hne

theorem Variant.takesParameters (v : Variant) (previous : Entries Json) :
    TakesParameters v previous
      (match v.parameters previous with
        | .null => []
        | parameters => [("parameters", parameters)]) := by
  have hgiven (given : Json) : given ≠ .null →
      (match given with
        | .null => []
        | parameters => [("parameters", parameters)]) = [("parameters", given)] := by
    intro h
    cases given with
    | null => exact absurd rfl h
    | _ => rfl
  by_cases hown : Json.field v.properties "parameters" = .null
  · have hparameters : v.parameters previous = Json.field previous "parameters" := by
      rw [Variant.parameters, hown]
    rw [hparameters]
    by_cases hkept : Json.field previous "parameters" = .null
    · rw [hkept]
      exact .none hown hkept
    · rw [hgiven _ hkept]
      exact .kept hown hkept
  · have hparameters : v.parameters previous = Json.field v.properties "parameters" := by
      unfold Variant.parameters
      split
      · contradiction
      · rfl
    rw [hparameters, hgiven _ hown]
    exact .own hown

theorem Variant.describes_fields (v : Variant) (previous : Entries Json) :
    DescribesCommand v previous (v.fields previous) :=
  .intro (firstText_first _ _) (firstText_first _ _) (v.takesParameters previous)

/-- The commands of variants are found in the order in which their names first occur, each made
from the last variant of its name. -/
theorem tabulates_commandsOf (variants : List Variant) (existing : Json) :
    Tabulates variants existing (commandsOf variants existing) where
  keys := by
    rw [commandsOf, Entries.keys_ofPairs, List.map_map]
    rfl
  entry before v after hvariants hlast := by
    refine ⟨v.fields (previousOf existing v.name), ?_, v.describes_fields _⟩
    have hfind : variants.reverse.find? (fun w => w.name == v.name) = some v := by
      have hafter : after.reverse.find? (fun w => w.name == v.name) = none := by
        simpa using hlast
      simp [hvariants, hafter]
    rw [get?_commandsOf, hfind, Option.map_some, Variant.command_eq]

section Conversion

variable {schema existing : Json} {values : List Json} {commands : Entries Json}

theorem convertUnion_eq_ok_iff_variants :
    convertUnion schema existing = .ok commands ↔
      ∃ values variants, ListsVariants schema values ∧ values ≠ [] ∧
        List.Forall₂ IsVariant values variants ∧ commands = commandsOf variants existing := by
  rw [convertUnion_eq_ok_iff, commandsOfUnion_eq_ok_iff]
  constructor
  · rintro ⟨first, rest, variants, hlisted, hread, rfl⟩
    exact ⟨first :: rest, variants, variants?_eq_some_iff.mp hlisted, List.cons_ne_nil _ _,
      readVariants_eq_ok_iff.mp hread, rfl⟩
  · rintro ⟨values, variants, hlisted, hne, hread, rfl⟩
    obtain ⟨first, rest, rfl⟩ := List.exists_cons_of_ne_nil hne
    exact ⟨first, rest, variants, variants?_eq_some_iff.mpr hlisted,
      readVariants_eq_ok_iff.mpr hread, rfl⟩

theorem convertUnion_of_not_listsVariants
    (h : ¬ ∃ values, ListsVariants schema values ∧ values ≠ []) :
    convertUnion schema existing = .error UnionFault.notUnion.message := by
  have hunion : commandsOfUnion schema existing = .error .notUnion := by
    rcases hvariants : variants? schema with _ | _ | ⟨first, rest⟩
    · simp only [commandsOfUnion, hvariants]
    · simp only [commandsOfUnion, hvariants]
    · exact absurd ⟨_, variants?_eq_some_iff.mp hvariants, List.cons_ne_nil first rest⟩ h
  rw [convertUnion_eq, hunion, Except.mapError]

theorem convertUnion_of_offends {before after : List Json} {v : Json} {fault : UnionFault}
    (hlisted : ListsVariants schema (before ++ v :: after))
    (hbefore : ∀ earlier ∈ before, ∃ variant, IsVariant earlier variant)
    (h : Offends before.length v fault) :
    convertUnion schema existing = .error fault.message := by
  have hread : readVariants 0 (before ++ v :: after) = .error fault :=
    readVariants_of_offends hbefore (by rwa [Nat.zero_add])
  obtain ⟨first, rest, hcons⟩ := List.exists_cons_of_ne_nil
    (List.append_ne_nil_of_right_ne_nil before (List.cons_ne_nil v after))
  have hunion : commandsOfUnion schema existing = .error fault := by
    rw [hcons] at hread hlisted
    simp only [commandsOfUnion, variants?_eq_some_iff.mpr hlisted, hread]
    rfl
  rw [convertUnion_eq, hunion, Except.mapError]

end Conversion

/-- A union of variants that each fix a name gives the commands that the variants describe, and it
gives them again once they are there; any other value gives a message. -/
theorem convertsUnion (schema existing : Json) : ConvertsUnion schema existing where
  converts_iff := by
    constructor
    · rintro ⟨commands, h⟩
      obtain ⟨values, variants, hlisted, hne, hvariants, -⟩ := convertUnion_eq_ok_iff_variants.mp h
      exact ⟨values, hlisted, hne, exists_forall₂_isVariant_iff.mp ⟨variants, hvariants⟩⟩
    · rintro ⟨values, hlisted, hne, hall⟩
      obtain ⟨variants, hvariants⟩ := exists_forall₂_isVariant_iff.mpr hall
      exact ⟨_, convertUnion_eq_ok_iff_variants.mpr
        ⟨values, variants, hlisted, hne, hvariants, rfl⟩⟩
  notUnion := convertUnion_of_not_listsVariants
  blames values hlisted hnot := by
    obtain ⟨before, v, after, rfl, hbefore, hv⟩ := exists_first_of_not_forall hnot
    obtain ⟨fault, hfault⟩ := exists_offends before.length hv
    obtain ⟨what, hwhat⟩ := hfault.message
    exact ⟨before, after, v, fault, what, rfl, hbefore, hfault,
      convertUnion_of_offends hlisted hbefore hfault, hwhat⟩
  tabulates commands h := by
    obtain ⟨values, variants, hlisted, -, hvariants, rfl⟩ := convertUnion_eq_ok_iff_variants.mp h
    exact ⟨commandFault?_of_commandsOfUnion (convertUnion_eq_ok_iff.mp h), values, variants,
      hlisted, hvariants, tabulates_commandsOf variants existing⟩
  unchecked := convertUnion_eq schema existing
  again commands h :=
    convertUnion_eq_ok_iff.mpr (commandsOfUnion_again (convertUnion_eq_ok_iff.mp h))

end PluginContract.Manifest

import PluginContract.Json.Value

/-! # Commands of a plugin

A manifest maps the names of commands to their descriptions. A plugin may give that map itself, or a
union of variants that each fix one name; a union is turned into the map. What a variant leaves out
is taken from the commands that are there already, and made up if they say nothing either. -/

namespace PluginContract.Manifest

/-- The key of a command's example. -/
def exampleKey : String := "ubiquity:example"

/-- Why a value is no map of commands. -/
inductive CommandFault
  | notObject
  | entryNotObject (name : String)
  | noDescription (name : String)
  | noExample (name : String)
deriving DecidableEq, Repr

/-- The message for a fault in a map of commands. -/
def CommandFault.message : CommandFault → String
  | notObject => "pluginCommands must be a plain object (Record<string, CommandSchema>)"
  | entryNotObject name => s!"Command \"{name}\" must be an object"
  | noDescription name => s!"Command \"{name}\" is missing a \"description\" string"
  | noExample name => s!"Command \"{name}\" is missing a \"{exampleKey}\" string"

/-- The first fault of a single command. -/
def entryFault? (name : String) : Json → Option CommandFault
  | .obj command =>
      if (Json.field command "description").text?.isNone then some (.noDescription name)
      else if (Json.field command exampleKey).text?.isNone then some (.noExample name)
      else none
  | _ => some (.entryNotObject name)

/-- The first fault of a map of commands; there is none if all commands are described. -/
def commandFault? : Json → Option CommandFault
  | .obj commands => commands.findSome? fun entry => entryFault? entry.1 entry.2
  | _ => some .notObject

/-- The variants of a union: the items of `anyOf`, or of `oneOf` where there is no `anyOf`. -/
def variants? : Json → Option (List Json)
  | .obj schema =>
      ((Entries.get? schema "anyOf").orElse fun _ => Entries.get? schema "oneOf").bind Json.items?
  | _ => none

/-- The name that a schema fixes: a constant, or the only value of an enumeration. -/
def fixedName? (schema : Entries Json) : Option String :=
  match (Json.field schema "const").text? with
  | some name => some name
  | none =>
      match Json.field schema "enum" with
      | .arr [value] => value.text?
      | _ => none

/-- The first candidate that is a non-empty string, or else a text of last resort. -/
def firstText (candidates : List Json) (otherwise : String) : String :=
  (candidates.findSome? Json.text?).getD otherwise

/-- The first example of a schema; `null` if there is none. -/
def firstExample (schema : Entries Json) : Json :=
  match Json.field schema "examples" with
  | .arr (first :: _) => first
  | _ => .null

/-- A variant of a union that fixes a name. -/
structure Variant where
  name : String
  schema : Entries Json
  properties : Entries Json
  nameSchema : Entries Json

/-- Why a union cannot be turned into a map of commands. -/
inductive UnionFault
  | notUnion
  | noProperties (index : Nat)
  | noName (index : Nat)
deriving DecidableEq, Repr

/-- The message for a fault of a union. -/
def UnionFault.message : UnionFault → String
  | notUnion => "commandSchema must be a union with a non-empty anyOf/oneOf array"
  | noProperties index => s!"union variant {index} has no properties"
  | noName index =>
      s!"union variant {index} has no literal \"name\" (const or single-value enum)"

/-- Reads the variant at an index of a union. -/
def Variant.read (index : Nat) (v : Json) : Except UnionFault Variant :=
  match v with
  | .obj schema =>
      match Json.field schema "properties" with
      | .obj properties =>
          match Json.field properties "name" with
          | .obj nameSchema =>
              match fixedName? nameSchema with
              | some name => .ok ⟨name, schema, properties, nameSchema⟩
              | none => .error (.noName index)
          | _ => .error (.noName index)
      | _ => .error (.noProperties index)
  | _ => .error (.noProperties index)

/-- Reads variants from an index on, up to the first fault. -/
def readVariants : (index : Nat) → List Json → Except UnionFault (List Variant)
  | _, [] => .ok []
  | index, v :: rest => do
      let variant ← Variant.read index v
      return variant :: (← readVariants (index + 1) rest)

/-- What is known already about the command of a name. -/
def previousOf (existing : Json) (name : String) : Entries Json :=
  (Json.field (existing.fields?.getD []) name).fields?.getD []

/-- The parameters of a command; the ones it had before stand in for missing ones. -/
def Variant.parameters (v : Variant) (previous : Entries Json) : Json :=
  match Json.field v.properties "parameters" with
  | .null => Json.field previous "parameters"
  | parameters => parameters

/-- The description of a command. -/
def Variant.description (v : Variant) (previous : Entries Json) : String :=
  firstText
    [Json.field v.nameSchema "description", Json.field v.schema "description",
      Json.field previous "description"]
    v.name

/-- The example of a command. -/
def Variant.usage (v : Variant) (previous : Entries Json) : String :=
  firstText
    [Json.field v.nameSchema exampleKey, Json.field v.nameSchema "example",
      firstExample v.nameSchema, Json.field previous exampleKey]
    ("/" ++ v.name)

/-- The command that a variant describes. -/
def Variant.command (v : Variant) (previous : Entries Json) : Json :=
  .obj <|
    [("description", .str (v.description previous)), (exampleKey, .str (v.usage previous))] ++
      match v.parameters previous with
      | .null => []
      | parameters => [("parameters", parameters)]

/-- The map of commands that a union describes. Of variants with one name the last one counts, at
the place of the first. -/
def commandsOfUnion (schema existing : Json) : Except UnionFault (Entries Json) :=
  match variants? schema with
  | none | some [] => .error .notUnion
  | some variants => do
      let read ← readVariants 0 variants
      return Entries.ofPairs <| read.map fun v => (v.name, v.command (previousOf existing v.name))

/-- Turns a union into a map of commands, and checks the map that comes out. -/
def convertUnion (schema existing : Json) : Except String (Entries Json) :=
  match commandsOfUnion schema existing with
  | .error fault => .error fault.message
  | .ok commands =>
      match commandFault? (.obj commands) with
      | some fault => .error fault.message
      | none => .ok commands

end PluginContract.Manifest

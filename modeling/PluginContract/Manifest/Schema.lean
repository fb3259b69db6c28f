import PluginContract.Json.Value

/-! # Settings schemas

A property with a default value need not be given, so it is no longer required. That holds at every
depth of a schema, and a list of required properties that becomes empty goes away. -/

namespace PluginContract.Manifest

/-- The whole number that a value stands for; truth values count as zero and one. -/
def wholeNumber? : Json → Option Int
  | .bool value => some (if value then 1 else 0)
  | .int value => some value
  | _ => none

/-- Whether two values without parts are the same. Numbers and truth values are compared by the
number that they stand for. -/
def sameAtom : Json → Json → Bool
  | .null, .null => true
  | .str s, .str t => s == t
  | .float x, .float y => x.sameValue y
  | .float x, v => (wholeNumber? v).any x.equalsInt
  | v, .float y => (wholeNumber? v).any y.equalsInt
  | v, w =>
      match wholeNumber? v, wholeNumber? w with
      | some m, some n => m == n
      | _, _ => false

/-- The values without repetitions; the first one of equals stays. -/
def distinctAtoms : List Json → List Json
  | [] => []
  | v :: rest => v :: (distinctAtoms rest).filter fun w => !sameAtom v w

/-- Whether a required entry names a property that declares a default. -/
def isDefaulted (properties : Entries Json) : Json → Bool
  | .str name =>
      match Entries.get? properties name with
      | some (.obj property) => Entries.has property "default"
      | _ => false
  | _ => false

/-- The entries of a list of required properties that stay. -/
def stillRequired (properties : Entries Json) (required : List Json) : List Json :=
  (distinctAtoms required).filter fun entry => !isDefaulted properties entry

/-- The fields of a schema with its list of required properties brought up to date. There is no
result for a list with an entry that has parts, since such entries cannot be told apart. -/
def relaxRequired? (fields : Entries Json) : Option (Entries Json) :=
  match Entries.get? fields "properties", Entries.get? fields "required" with
  | some (.obj properties), some (.arr required) =>
      if required.any Json.hasParts then none
      else
        match stillRequired properties required with
        | [] => some (Entries.remove fields "required")
        | kept => some (Entries.put fields "required" (.arr kept))
  | _, _ => some fields

mutual

/-- A schema in which no property with a default is required any more, at any depth. -/
def relax? : Json → Option Json
  | .arr items => (relaxItems? items).map .arr
  | .obj fields => ((relaxFields? fields).bind relaxRequired?).map .obj
  | .null => some .null
  | .bool value => some (.bool value)
  | .int value => some (.int value)
  | .float value => some (.float value)
  | .str value => some (.str value)

/-- The items of an array, each relaxed. -/
def relaxItems? : List Json → Option (List Json)
  | [] => some []
  | item :: rest => do return (← relax? item) :: (← relaxItems? rest)

/-- The fields of an object, each value relaxed. -/
def relaxFields? : List (String × Json) → Option (List (String × Json))
  | [] => some []
  | (key, item) :: rest => do return (key, ← relax? item) :: (← relaxFields? rest)

end

end PluginContract.Manifest

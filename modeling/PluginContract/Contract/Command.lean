import PluginContract.Resolution.Reference
import PluginContract.Resolution.TypeAlias

/-! # The command schema

The type of the commands is `null`, or the name of an alias for the static type of a schema value:
`Static<typeof X>` or `StaticDecode<typeof X>`, where the function may be a member of a namespace
and so may the value. -/

namespace PluginContract.Contract
open Text Files Script Source Resolution

/-- A name and perhaps a member of it, at the start of a text: what it takes of the text, and the
rest. -/
def dotted? (t : List Char) : Option (List Char × List Char) :=
  match name? t with
  | none => none
  | some (name, rest) =>
      match trimStart rest with
      | '.' :: more =>
          match name? (trimStart more) with
          | some (_, after) => some (t.take (t.length - after.length), after)
          | none => some (name, rest)
      | _ => some (name, rest)

/-- The text from the opening angle bracket on after the word for a static type. -/
def afterStatic? (t : List Char) : Option (List Char) :=
  let angle (word : String) := (after? word.toList t).bind fun rest =>
    after? ['<'] (trimStart rest)
  (angle "Static").orElse fun _ => angle "StaticDecode"

/-- The text after a namespace and a point. -/
def afterNamespace? (t : List Char) : Option (List Char) :=
  match name? t with
  | none => none
  | some (_, rest) => (after? ['.'] (trimStart rest)).map trimStart

/-- The schema value in the body of an alias for its static type. -/
def schemaValue? (body : List Char) : Option (List Char) :=
  let t := respace body
  let argument :=
    (((afterNamespace? t).bind afterStatic?).orElse fun _ => afterStatic? t)
  match argument with
  | none => none
  | some rest =>
      match ((after? "typeof".toList (trimStart rest)).bind blanks?).bind dotted? with
      | none => none
      | some (value, rest) =>
          if trimStart rest = ['>'] then some value else none

/-- The reference to the command schema that a type expression stands for; none for `null`. -/
def resolveCommand (project : Project) (tree : Tree) (expression : List Char) (m : Module) :
    Resolving (Option Reference) := do
  let e := stripParens expression
  if e = "null".toList then return none
  else if !isName e then reject (.commandNotName (String.ofList e) m.path)
  else
    let found ← project.findAlias tree (String.ofList e) m []
    match schemaValue? found.body with
    | none => reject (.commandNotStatic found.name found.module.path (String.ofList found.body))
    | some value =>
        match project.reference tree value found.module with
        | .ok reference => return some reference
        | .error failure => throw failure

end PluginContract.Contract

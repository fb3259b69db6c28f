import PluginContract.Error
import PluginContract.Json.Reader
import PluginContract.Script.Role

/-! # Path aliases

`compilerOptions.paths` of a `tsconfig.json` gives prefixes of module specifiers their directories.
The file may hold comments and trailing commas. A file that is missing or is not JSON gives no
aliases; one that is no text, has an integer of too many digits or lies at a path that is too long
is a failure. -/

namespace PluginContract.Resolution
open Text Files Script

/-- The text without commas that only blanks part from a closing bracket. -/
def dropTrailingCommas : List Char → List Char
  | [] => []
  | c :: rest =>
      let closes := match trimStart rest with
        | '}' :: _ => true
        | ']' :: _ => true
        | _ => false
      if c = ',' && closes then dropTrailingCommas rest else c :: dropTrailingCommas rest

/-- The JSON value of a text with comments and trailing commas. -/
def readTolerant? (t : List Char) : Except Json.Fault Json :=
  Json.read? (dropTrailingCommas (stripComments t))

/-- The alias table in the value of a configuration file. -/
def aliasTable : Json → Except Failure (Entries Json)
  | .obj fields =>
      match Entries.get? fields "compilerOptions" with
      | none => .ok []
      | some (.obj options) => .ok ((Json.field options "paths").fields?.getD [])
      | some _ => .error (.malformedAliases .optionsNotObject)
  | _ => .ok []

/-- The alias table of a project. -/
def readAliasTable (tree : Tree) (root : Path) : Except Failure (Entries Json) :=
  match tree.readText (root.child "tsconfig.json") with
  | .error (.notText fault) => .error (.undecodable fault)
  | .error (.refused .tooLong) => .error (.refusedPath .tooLong)
  | .error _ => .ok []
  | .ok text =>
      match readTolerant? text with
      | .error (.longInteger digits) => .error (.longInteger digits)
      | .error .malformed => .ok []
      | .ok v => aliasTable v

/-- A pattern or a target without its wildcard. -/
def dropWildcard (s : String) : String := String.ofList (replace "/*".toList [] s.toList)

/-- The first target of an alias; `none` if there is none. -/
def firstTarget? (targets : Json) : Except AliasFault (Option String) :=
  if !targets.isGiven then .ok none
  else
    match targets with
    | .arr (.str target :: _) => .ok (some target)
    | .arr _ => .error .targetNotText
    | .str target => .ok (some (String.ofList (target.toList.take 1)))
    | .obj _ => .error .targetsKeyed
    | _ => .error .targetsNotList

/-- The prefixes of specifiers with their directories, from an alias table. -/
def readAliases (table : Entries Json) : Except AliasFault (Entries String) :=
  table.foldlM
    (fun aliases entry => do
      match ← firstTarget? entry.2 with
      | some target => return aliases.put (dropWildcard entry.1) (dropWildcard target)
      | none => return aliases)
    []

end PluginContract.Resolution

import PluginContract.Entries
import PluginContract.Script.Bracket
import PluginContract.Text.Search

/-! # Type aliases

The body of `type Name = …` ends at the first semicolon at its own depth, at a bracket that closes
one level below that depth, or at a line end after which a closing brace or the keyword of a new
declaration comes, and at the end of the text otherwise. The first declaration of a name counts. -/

namespace PluginContract.Source
open Text Script

namespace TypeAlias

/-- The word `type`, blanks and a name, at the start of a masked text. -/
def pattern : Pattern (List Char) := fun before t =>
  match ((keyword? "type".toList before t).bind blanks?).bind name? with
  | some (name, rest) => some (name, t.length - rest.length)
  | none => none

/-- Words that open a declaration. -/
def declarationWords : List (List Char) :=
  ["export", "import", "type", "interface", "const", "let", "var", "function", "class", "enum",
    "declare", "namespace", "module", "abstract", "async"].map String.toList

/-- Whether a closing brace or a new declaration comes next. -/
def declarationFollows (masked : List Char) : Bool :=
  match trimStart masked with
  | [] => false
  | '}' :: _ => true
  | rest => declarationWords.contains (rest.takeWhile isNameChar)

/-- The length of an alias body, given its masked text from the equals sign on. `isFirst` tells
that no character has been passed yet. -/
def bodyLength (isFirst : Bool) : (depth : Int) → List Char → Nat
  | _, [] => 0
  | depth, c :: rest =>
      let next := depth + depthChange c
      if next < 0 then 0
      else if depth = 0 && c = ';' then 0
      else if depth = 0 && c = '\n' && !isFirst && declarationFollows rest then 0
      else bodyLength false next rest + 1

/-- The offset of the equals sign before an alias body, past a list of type parameters. -/
def equalsSign? (masked : List Char) (start : Nat) : Option Nat :=
  let blanksFrom (offset : Nat) := offset + ((masked.drop offset).takeWhile isBlank).length
  let afterName := blanksFrom start
  let place :=
    if masked[afterName]? = some '<' then
      (matching? masked afterName '<' '>').map fun close => blanksFrom (close + 1)
    else some afterName
  place.bind fun offset =>
    match masked.drop offset with
    | '=' :: rest => if rest.head? = some '=' || rest.head? = some '>' then none else some offset
    | _ => none

/-- The table with the alias that is declared at one place, if it has a body and a new name. -/
def add (source masked : List Char) (table : Entries (List Char)) (found : Found (List Char)) :
    Entries (List Char) :=
  let name := String.ofList found.value
  match equalsSign? masked (found.start + found.length) with
  | none => table
  | some equals =>
      if table.has name then table
      else
        let length := bodyLength true 0 (masked.drop (equals + 1))
        table.put name (trim (slice source (equals + 1) (equals + 1 + length)))

/-- The type aliases of a module, with their bodies. -/
def readAll (source : List Char) : Entries (List Char) :=
  let masked := mask source
  (pattern.findAll masked).foldl (add source masked) []

end TypeAlias

end PluginContract.Source

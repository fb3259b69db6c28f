import PluginContract.Script.Bracket
import PluginContract.Text.Search

/-! # Specifier lists

Imports and exports name what they bring along in the same way: `a`, `a as b`, each perhaps after
the word `type`, with an identifier or a quoted name on either side. -/

namespace PluginContract.Source
open Text Script

/-- A specifier: a name, and the name that it gets on this side. -/
structure Specifier where
  given : List Char
  renamed : List Char
deriving DecidableEq, Repr

namespace Specifier

/-- A name at the start of a text, an identifier or a quoted name with its quotes, and the rest. -/
def anyName? (t : List Char) : Option (List Char × List Char) :=
  match t with
  | c :: rest =>
      if c = '"' || c = '\'' then
        match rest.dropWhile (· != c) with
        | [] => none
        | quote :: after => some (c :: rest.takeWhile (· != c) ++ [quote], after)
      else name? t
  | [] => none

/-- A name without quotes around it. -/
def unquoted (name : List Char) : List Char := trimOf (fun c => c == '"' || c == '\'') name

/-- A name, perhaps renamed, that makes up the whole text. -/
def renaming? (t : List Char) : Option Specifier :=
  match anyName? t with
  | none => none
  | some (given, []) => some ⟨unquoted given, unquoted given⟩
  | some (given, rest) =>
      match after? " as ".toList rest with
      | none => none
      | some renamed =>
          match anyName? renamed with
          | some (renamed, []) => some ⟨unquoted given, unquoted renamed⟩
          | _ => none

/-- The specifier that a part of a list writes. The word `type` is taken as a mark if the rest is a
specifier without it, and as a name otherwise. -/
def read? (part : List Char) : Option Specifier :=
  let t := respace part
  match after? "type ".toList t with
  | some rest => (renaming? rest).orElse fun _ => renaming? t
  | none => renaming? t

/-- The specifiers of a list; parts of any other form are passed over. -/
def readList (list : List Char) : List Specifier :=
  (splitCommas (stripComments list)).filterMap read?

end Specifier

end PluginContract.Source

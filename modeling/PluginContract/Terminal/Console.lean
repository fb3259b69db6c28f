import PluginContract.Json.Display
import PluginContract.Terminal.Annotation
import PluginContract.Terminal.Encoding
import PluginContract.Terminal.Markup

/-! # A console

What a console prints is a text. Marked texts are shown without their tags, a few control characters
are dropped, and tabs are filled up with spaces. Annotations are printed as they are written. -/

namespace PluginContract.Terminal
open Text

/-- A console, which knows the encoding of its terminal. -/
structure Console where
  encoding : String
deriving DecidableEq, Repr

/-- A control character that a console drops. -/
def isDropped (c : Char) : Bool :=
  c == '\x07' || c == '\x08' || c == '\x0b' || c == '\x0c' || c == '\r'

/-- The width of a tab stop. -/
def tabWidth : Nat := 8

/-- The text with spaces up to the next stop for each tab, from a column on. -/
def fillTabs : (column : Nat) → List Char → List Char
  | _, [] => []
  | column, c :: rest =>
      if c = '\n' then c :: fillTabs 0 rest
      else if c = '\t' then
        let spaces := tabWidth - column % tabWidth
        List.replicate spaces ' ' ++ fillTabs (column + spaces) rest
      else c :: fillTabs (column + 1) rest

/-- A text as a line of its own. -/
def printed (t : List Char) : List Char := fillTabs 0 (t.filter fun c => !isDropped c) ++ ['\n']

namespace Console

/-- The text of a value; a string is marked text. -/
def textOf (console : Console) : Json → List Char
  | .str s => visible (fitting console.encoding s.toList)
  | v => v.display.toList

/-- Texts that stand in a line together, with a space between them. -/
def joined (together : List (List Char)) : List (List Char) :=
  if together.isEmpty then [] else [[' '].intercalate together]

/-- Values as lines, after some texts that stand in a line together. Arrays and objects get lines of
their own. -/
def linesOf (console : Console) : (together : List (List Char)) → List Json → List (List Char)
  | together, [] => joined together
  | together, v :: rest =>
      if v.hasParts then joined together ++ console.textOf v :: console.linesOf [] rest
      else console.linesOf (together ++ [console.textOf v]) rest

/-- Whether all strings among some values are marked properly. -/
def accepts (console : Console) (values : List Json) : Bool :=
  values.all fun
    | .str s => closesOpenTags (fitting console.encoding s.toList)
    | _ => true

/-- Prints values; a string among them is marked text. Nothing is printed if a tag is closed that
is not open. -/
def print? (console : Console) (values : List Json) : Option (List Char) :=
  if values.isEmpty then some ['\n']
  else if console.accepts values then some ((console.linesOf [] values).flatMap printed)
  else none

/-- Prints a marked text. -/
def printMarked (console : Console) (t : List Char) : List Char :=
  printed (visible (fitting console.encoding t))

/-- Prints an annotation. -/
def annotate (console : Console) (level : Level) (message : List Char) : List Char :=
  printed (annotationLine level (fitting console.encoding message))

/-- Prints a warning. -/
def warning (console : Console) (message : List Char) : List Char :=
  console.annotate .warning message

/-- Prints an error, for readers and as an annotation. -/
def error (console : Console) (message : List Char) : List Char :=
  console.printMarked ("[bold red]✗ ".toList ++ escape message ++ "[/bold red]".toList) ++
    console.annotate .error message

end Console

end PluginContract.Terminal

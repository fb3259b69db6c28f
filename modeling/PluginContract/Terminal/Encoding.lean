import PluginContract.Text.Pieces

/-! # What a terminal can show

The encoding of the output decides whether icons can be printed as they are; otherwise each icon has
an ASCII form. -/

namespace PluginContract.Terminal
open Text

/-- The encoding of a terminal, in small letters: that of the output if it has one, or else that of
the locale, and ASCII without either. Names of encodings are ASCII. -/
def encoding (output localeName : Option String) : String :=
  let name :=
    match output, localeName with
    | none, none | some "", none => "ascii"
    | none, some name | some "", some name => name
    | some name, _ => name
  String.ofList (lower name.toList)

/-- Whether an encoding can show all characters. -/
def showsAll (encoding : String) : Bool :=
  let name := encoding.map fun c => if c = '_' then '-' else c
  name == "utf-8" || name == "utf8"

/-- The ASCII form of an icon; any other character stands for itself. -/
def asciiForm (c : Char) : List Char :=
  if c = '✓' || c = '✔' then "[OK]".toList
  else if c = '✗' then "[FAIL]".toList
  else if c = '⚠' then "[WARN]".toList
  else if c = '→' then "->".toList
  else if c = '…' then "...".toList
  else if c = '•' then ['*']
  else [c]

/-- A text as a terminal of some encoding gets it. -/
def fitting (encoding : String) (t : List Char) : List Char :=
  if showsAll encoding then t else t.flatMap asciiForm

end PluginContract.Terminal

import PluginContract.Json.Number
import PluginContract.Text.Unprintable

/-! # Values in messages

A string stands for itself; inside an array or an object it is quoted, with single quotes unless it
holds one and no double quote. Constants are capitalised. The values that messages show were read,
so their integers are short enough to be written. -/

namespace PluginContract.Json
open Text

/-- A hexadecimal escape of a given width after a letter. -/
def hexEscape (letter : Char) (width : Nat) (code : Nat) : List Char :=
  let digits := Nat.toDigits 16 code
  ['\\', letter] ++ List.replicate (width - digits.length) '0' ++ digits

/-- A character inside a quoted string of a message. -/
def displayedChar (quote c : Char) : List Char :=
  if c = quote || c = '\\' then ['\\', c]
  else if c = '\n' then ['\\', 'n']
  else if c = '\r' then ['\\', 'r']
  else if c = '\t' then ['\\', 't']
  else if !unprintableRanges.has c.toNat then [c]
  else if c.toNat < 0x100 then hexEscape 'x' 2 c.toNat
  else if c.toNat < 0x10000 then hexEscape 'u' 4 c.toNat
  else hexEscape 'U' 8 c.toNat

/-- A string in the quotes that a message gives it. -/
def displayedString (s : String) : List Char :=
  let quote := if s.contains '\'' && !s.contains '"' then '"' else '\''
  quote :: s.toList.flatMap (displayedChar quote) ++ [quote]

mutual

/-- A value as a part of a message's container. -/
def displayedPart : Json → List Char
  | null => "None".toList
  | bool true => "True".toList
  | bool false => "False".toList
  | int value => integerText value
  | float value => FloatLayout.message.text value
  | str value => displayedString value
  | arr items => '[' :: displayedItems items ++ [']']
  | obj fields => '{' :: displayedFields fields ++ ['}']

/-- Items with a comma and a space between them. -/
def displayedItems : List Json → List Char
  | [] => []
  | [item] => displayedPart item
  | item :: rest => displayedPart item ++ ',' :: ' ' :: displayedItems rest

/-- Fields with a comma and a space between them. -/
def displayedFields : List (String × Json) → List Char
  | [] => []
  | [(key, item)] => displayedString key ++ ':' :: ' ' :: displayedPart item
  | (key, item) :: rest =>
      displayedString key ++ ':' :: ' ' :: displayedPart item ++ ',' :: ' ' :: displayedFields rest

end

/-- A value as a message shows it. -/
def display : Json → String
  | str value => value
  | v => String.ofList (displayedPart v)

end PluginContract.Json

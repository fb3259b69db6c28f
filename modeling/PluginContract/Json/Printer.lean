import PluginContract.Json.Number

/-! # Writing JSON

Values are written compactly, on indented lines, or as texts for scripts. Strings escape the quote,
the backslash and control characters; script texts also escape every character outside printable
ASCII. An integer of too many digits is not written. A value on indented lines is written piece by
piece, so what stands before such an integer is written already when writing breaks off. -/

namespace PluginContract.Json

/-- A hexadecimal digit, in small letters. -/
def hexDigit (n : Nat) : Char :=
  if n < 10 then Char.ofNat ('0'.toNat + n) else Char.ofNat ('a'.toNat + (n - 10))

/-- A code unit as an escape of four hexadecimal digits. -/
def unitEscape (unit : Nat) : List Char :=
  ['\\', 'u', hexDigit (unit / 4096 % 16), hexDigit (unit / 256 % 16), hexDigit (unit / 16 % 16),
    hexDigit (unit % 16)]

/-- The escape of a character that has a short one. -/
def shortEscape? (c : Char) : Option (List Char) :=
  if c = '"' then some ['\\', '"']
  else if c = '\\' then some ['\\', '\\']
  else if c = '\n' then some ['\\', 'n']
  else if c = '\r' then some ['\\', 'r']
  else if c = '\t' then some ['\\', 't']
  else if c = '\x08' then some ['\\', 'b']
  else if c = '\x0c' then some ['\\', 'f']
  else none

/-- A character inside a string: control characters are escaped, all else stays. -/
def escaped (c : Char) : List Char :=
  match shortEscape? c with
  | some written => written
  | none => if c.toNat < 0x20 then unitEscape c.toNat else [c]

/-- A character inside a string of ASCII: what is not printable ASCII is escaped by code units. -/
def escapedAscii (c : Char) : List Char :=
  match shortEscape? c with
  | some written => written
  | none =>
      if 0x20 ≤ c.toNat && c.toNat < 0x7F then [c]
      else if c.toNat < 0x10000 then unitEscape c.toNat
      else
        let beyond := c.toNat - 0x10000
        unitEscape (0xD800 + beyond / 0x400) ++ unitEscape (0xDC00 + beyond % 0x400)

/-- A string in quotes. -/
def quoted (s : String) : List Char := '"' :: s.toList.flatMap escaped ++ ['"']

/-- A string in quotes, in ASCII. -/
def quotedAscii (s : String) : List Char := '"' :: s.toList.flatMap escapedAscii ++ ['"']

/-- An array of strings in ASCII, with a comma and a space between them. -/
def quotedListAscii (names : List String) : List Char :=
  ['['] ++ [',', ' '].intercalate (names.map quotedAscii) ++ [']']

/-- The text of a value that holds no other values. -/
def atomText : Json → List Char
  | null => "null".toList
  | bool true => "true".toList
  | bool false => "false".toList
  | int value => integerText value
  | float value => FloatLayout.json.text value
  | str value => quoted value
  | arr _ => []
  | obj _ => []

mutual

/-- A value without any blanks. -/
def compact : Json → List Char
  | arr items => '[' :: compactItems items ++ [']']
  | obj fields => '{' :: compactFields fields ++ ['}']
  | null => atomText null
  | bool value => atomText (bool value)
  | int value => atomText (int value)
  | float value => atomText (float value)
  | str value => atomText (str value)

/-- Items with commas between them. -/
def compactItems : List Json → List Char
  | [] => []
  | [item] => compact item
  | item :: rest => compact item ++ ',' :: compactItems rest

/-- Fields with commas between them. -/
def compactFields : List (String × Json) → List Char
  | [] => []
  | [(key, item)] => quoted key ++ ':' :: compact item
  | (key, item) :: rest => quoted key ++ ':' :: compact item ++ ',' :: compactFields rest

end

/-- A line feed and the indentation of a level. -/
def newLine (level : Nat) : List Char := '\n' :: List.replicate (2 * level) ' '

mutual

/-- A value on lines of its own, indented by two spaces a level; empty containers stay closed. -/
def indented (level : Nat) : Json → List Char
  | arr [] => ['[', ']']
  | arr (item :: rest) =>
      '[' :: newLine (level + 1) ++ indented (level + 1) item ++ indentedItems (level + 1) rest ++
        newLine level ++ [']']
  | obj [] => ['{', '}']
  | obj ((key, item) :: rest) =>
      '{' :: newLine (level + 1) ++ quoted key ++ ':' :: ' ' :: indented (level + 1) item ++
        indentedFields (level + 1) rest ++ newLine level ++ ['}']
  | null => atomText null
  | bool value => atomText (bool value)
  | int value => atomText (int value)
  | float value => atomText (float value)
  | str value => atomText (str value)

/-- The items after the first. -/
def indentedItems (level : Nat) : List Json → List Char
  | [] => []
  | item :: rest => ',' :: newLine level ++ indented level item ++ indentedItems level rest

/-- The fields after the first. -/
def indentedFields (level : Nat) : List (String × Json) → List Char
  | [] => []
  | (key, item) :: rest =>
      ',' :: newLine level ++ quoted key ++ ':' :: ' ' :: indented level item ++
        indentedFields level rest

end

mutual

/-- Whether all integers of a value are short enough to be written. -/
def fits : Json → Bool
  | int value => isShort value
  | arr items => itemsFit items
  | obj fields => fieldsFit fields
  | null => true
  | bool _ => true
  | float _ => true
  | str _ => true

/-- Whether all integers of some items are short enough. -/
def itemsFit : List Json → Bool
  | [] => true
  | item :: rest => fits item && itemsFit rest

/-- Whether all integers under some keys are short enough. -/
def fieldsFit : List (String × Json) → Bool
  | [] => true
  | (_, item) :: rest => fits item && fieldsFit rest

end

/-- What has been written, and whether that is all there is to write. -/
structure Printout where
  text : List Char
  whole : Bool
deriving DecidableEq, Repr

/-- Text that is written as it is. -/
def Printout.all (text : List Char) : Printout := ⟨text, true⟩

/-- Writing goes on, unless it has broken off. -/
def Printout.andThen (w next : Printout) : Printout :=
  if w.whole then ⟨w.text ++ next.text, next.whole⟩ else w

mutual

/-- Writes a value on indented lines, after a text that is held back until the value begins. -/
def printed (level : Nat) (held : List Char) : Json → Printout
  | arr [] => .all (held ++ ['[', ']'])
  | arr (item :: rest) =>
      (Printout.all held).andThen <|
        (printed (level + 1) ('[' :: newLine (level + 1)) item).andThen <|
          (printedItems (level + 1) rest).andThen (.all (newLine level ++ [']']))
  | obj [] => .all (held ++ ['{', '}'])
  | obj ((key, item) :: rest) =>
      (Printout.all (held ++ '{' :: newLine (level + 1) ++ quoted key ++ [':', ' '])).andThen <|
        (printed (level + 1) [] item).andThen <|
          (printedFields (level + 1) rest).andThen (.all (newLine level ++ ['}']))
  | int value => if isShort value then .all (held ++ integerText value) else ⟨[], false⟩
  | null => .all (held ++ atomText null)
  | bool value => .all (held ++ atomText (bool value))
  | float value => .all (held ++ atomText (float value))
  | str value => .all (held ++ atomText (str value))

/-- Writes the items after the first; the comma before an item is held back with its line. -/
def printedItems (level : Nat) : List Json → Printout
  | [] => .all []
  | item :: rest => (printed level (',' :: newLine level) item).andThen (printedItems level rest)

/-- Writes the fields after the first. -/
def printedFields (level : Nat) : List (String × Json) → Printout
  | [] => .all []
  | (key, item) :: rest =>
      (Printout.all (',' :: newLine level ++ quoted key ++ [':', ' '])).andThen <|
        (printed level [] item).andThen (printedFields level rest)

end

/-- The compact text of a value. -/
def toCompact (v : Json) : String := String.ofList (compact v)

/-- The text of a value on indented lines. -/
def toIndented (v : Json) : String := String.ofList (indented 0 v)

end PluginContract.Json

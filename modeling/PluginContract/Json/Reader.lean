import PluginContract.Json.Number

/-! # Reading JSON

The strict grammar, with `NaN` and the infinities admitted as numbers. Blanks are the space, the
tab, the line feed and the carriage return. A key that comes again gives its last value to its first
place. Each step returns the rest of the text. An integer of too many digits ends the reading at
once, whatever follows it. -/

namespace PluginContract.Json

/-- Why a text is not read. -/
inductive Fault
  | malformed
  /-- An integer has more digits than are read. -/
  | longInteger (digits : Nat)
deriving DecidableEq, Repr

/-- The message for an integer of too many digits. -/
def longIntegerMessage (digits : Nat) : String :=
  s!"Exceeds the limit ({mostDigits} digits) for integer string conversion: value has {digits} " ++
    "digits; use sys.set_int_max_str_digits() to increase the limit"

namespace Reader

/-- A blank between tokens. -/
def isGap (c : Char) : Bool := c == ' ' || c == '\t' || c == '\n' || c == '\r'

/-- The text after blanks. -/
def skipGap (t : List Char) : List Char := t.dropWhile isGap

/-- An ASCII digit. -/
def isDigit (c : Char) : Bool := '0' ≤ c && c ≤ '9'

/-- The number that digits write. -/
def digitsValue (digits : List Char) : Nat :=
  digits.foldl (fun n c => 10 * n + (c.toNat - '0'.toNat)) 0

/-- The value of a hexadecimal digit. -/
def hexValue? (c : Char) : Option Nat :=
  if isDigit c then some (c.toNat - '0'.toNat)
  else if 'a' ≤ c && c ≤ 'f' then some (c.toNat - 'a'.toNat + 10)
  else if 'A' ≤ c && c ≤ 'F' then some (c.toNat - 'A'.toNat + 10)
  else none

/-- Four hexadecimal digits as a code unit, and the rest. -/
def unit? : List Char → Option (Nat × List Char)
  | a :: b :: c :: d :: rest => do
      let a ← hexValue? a
      let b ← hexValue? b
      let c ← hexValue? c
      let d ← hexValue? d
      return (((a * 16 + b) * 16 + c) * 16 + d, rest)
  | _ => none

/-- The character that a letter after a backslash stands for. -/
def shortEscape? (c : Char) : Option Char :=
  if c = '"' || c = '\\' || c = '/' then some c
  else if c = 'b' then some '\x08'
  else if c = 'f' then some '\x0c'
  else if c = 'n' then some '\n'
  else if c = 'r' then some '\r'
  else if c = 't' then some '\t'
  else none

/-- The character of an escaped code unit, joined with the low surrogate escaped after a high one,
and how many more characters it takes; none for a surrogate without its partner. -/
def wholeChar? (unit : Nat) (rest : List Char) : Option (Char × Nat) :=
  if 0xD800 ≤ unit && unit ≤ 0xDBFF then
    match rest with
    | '\\' :: 'u' :: more =>
        match unit? more with
        | some (low, _) =>
            if 0xDC00 ≤ low && low ≤ 0xDFFF then
              some (Char.ofNat (0x10000 + (unit - 0xD800) * 0x400 + (low - 0xDC00)), 6)
            else none
        | none => none
    | _ => none
  else if 0xDC00 ≤ unit && unit ≤ 0xDFFF then none
  else some (Char.ofNat unit, 0)

/-- The character that is read for an escaped code unit, and how many more characters it takes. A
surrogate without its partner is kept as it is by the program, which then fails to write it; a
string of characters has no place for it, and U+FFFD stands in for it here. What is stated about
strings that are read and written leaves out texts with such an escape (`holdsHalf`). -/
def escapedChar (unit : Nat) (rest : List Char) : Char × Nat :=
  (wholeChar? unit rest).getD (Char.ofNat 0xFFFD, 0)

/-- Whether a text escapes half of a character, a surrogate without its partner; `skip` characters
of an escape are still to be passed over. -/
def holdsHalf : (skip : Nat) → List Char → Bool
  | _, [] => false
  | skip + 1, _ :: rest => holdsHalf skip rest
  | 0, '\\' :: rest =>
      match rest with
      | 'u' :: after =>
          match unit? after with
          | some (unit, more) =>
              match wholeChar? unit more with
              | some (_, extra) => holdsHalf (5 + extra) rest
              | none => true
          | none => holdsHalf 1 rest
      | _ => holdsHalf 1 rest
  | 0, _ :: rest => holdsHalf 0 rest

/-- The characters of a string after its opening quote, and the rest after the closing one; `skip`
characters of an escape are still to be passed over. -/
def chars? : (skip : Nat) → List Char → Option (List Char × List Char)
  | _, [] => none
  | skip + 1, _ :: rest => chars? skip rest
  | 0, '"' :: rest => some ([], rest)
  | 0, '\\' :: rest =>
      match rest with
      | [] => none
      | 'u' :: after =>
          match unit? after with
          | some (unit, more) =>
              let (c, extra) := escapedChar unit more
              (chars? (5 + extra) rest).map fun found => (c :: found.1, found.2)
          | none => none
      | e :: _ =>
          match shortEscape? e with
          | some c => (chars? 1 rest).map fun found => (c :: found.1, found.2)
          | none => none
  | 0, c :: rest =>
      if c.toNat < 0x20 then none
      else (chars? 0 rest).map fun found => (c :: found.1, found.2)

/-- A fraction: the point and at least one digit. -/
def fraction (t : List Char) : List Char × List Char :=
  match t with
  | '.' :: rest =>
      let digits := rest.takeWhile isDigit
      if digits.isEmpty then ([], t) else (digits, rest.dropWhile isDigit)
  | _ => ([], t)

/-- An exponent: the letter, perhaps a sign, and at least one digit. -/
def exponent (t : List Char) : Option Int × List Char :=
  match t with
  | c :: rest =>
      if c = 'e' || c = 'E' then
        let (negative, unsigned) :=
          match rest with
          | '-' :: more => (true, more)
          | '+' :: more => (false, more)
          | _ => (false, rest)
        let digits := unsigned.takeWhile isDigit
        if digits.isEmpty then (none, t)
        else
          let value : Int := digitsValue digits
          (some (if negative then -value else value), unsigned.dropWhile isDigit)
      else (none, t)
  | [] => (none, t)

/-- The digits of a whole number: a zero alone, or digits that start with another one. -/
def whole? (t : List Char) : Option (List Char × List Char) :=
  match t with
  | '0' :: rest => some (['0'], rest)
  | c :: rest =>
      if isDigit c then some (c :: rest.takeWhile isDigit, rest.dropWhile isDigit) else none
  | [] => none

/-- A number without its sign, and the rest. -/
def number? (negative : Bool) (t : List Char) : Except Fault (Json × List Char) :=
  match whole? t with
  | none => .error .malformed
  | some (digits, rest) =>
      let (places, rest) := fraction rest
      let (power, rest) := exponent rest
      if places.isEmpty && power.isNone then
        if mostDigits < digits.length then .error (.longInteger digits.length)
        else
          let value : Int := digitsValue digits
          .ok (.int (if negative then -value else value), rest)
      else
        let power := power.getD 0 - places.length
        .ok (.float (.ofDecimal negative (digitsValue (digits ++ places)) power), rest)

/-- A value that is a single token, and the rest. -/
def atom? (t : List Char) : Except Fault (Json × List Char) :=
  let constant (word : String) (value : Json) (otherwise : Except Fault (Json × List Char)) :=
    if word.toList.isPrefixOf t then .ok (value, t.drop word.length) else otherwise
  constant "null" .null <| constant "true" (.bool true) <| constant "false" (.bool false) <|
    constant "NaN" (.float .notANumber) <|
    constant "Infinity" (.float (.infinite false)) <|
    constant "-Infinity" (.float (.infinite true)) <|
    match t with
    | '-' :: rest => number? true rest
    | _ => number? false t

/-- A string token, and the rest. -/
def string? (t : List Char) : Option (String × List Char) :=
  match t with
  | '"' :: rest => (chars? 0 rest).map fun found => (String.ofList found.1, found.2)
  | _ => none

mutual

/-- A value at the start of a text, and the rest; `fuel` bounds the tokens that may follow. -/
def value? : (fuel : Nat) → List Char → Except Fault (Json × List Char)
  | 0, _ => .error .malformed
  | fuel + 1, t =>
      match t with
      | '{' :: rest =>
          match skipGap rest with
          | '}' :: after => .ok (.obj [], after)
          | more => (members? fuel more).map fun found => (.obj (Entries.ofPairs found.1), found.2)
      | '[' :: rest =>
          match skipGap rest with
          | ']' :: after => .ok (.arr [], after)
          | more => (items? fuel more).map fun found => (.arr found.1, found.2)
      | '"' :: _ =>
          match string? t with
          | some (value, rest) => .ok (.str value, rest)
          | none => .error .malformed
      | _ => atom? t

/-- One or more items up to the closing bracket. -/
def items? : (fuel : Nat) → List Char → Except Fault (List Json × List Char)
  | 0, _ => .error .malformed
  | fuel + 1, t =>
      match value? fuel t with
      | .error fault => .error fault
      | .ok (item, rest) =>
          match skipGap rest with
          | ',' :: more =>
              (items? fuel (skipGap more)).map fun found => (item :: found.1, found.2)
          | ']' :: after => .ok ([item], after)
          | _ => .error .malformed

/-- One or more members up to the closing brace. -/
def members? : (fuel : Nat) → List Char → Except Fault (List (String × Json) × List Char)
  | 0, _ => .error .malformed
  | fuel + 1, t =>
      match string? t with
      | none => .error .malformed
      | some (key, rest) =>
          match skipGap rest with
          | ':' :: rest =>
              match value? fuel (skipGap rest) with
              | .error fault => .error fault
              | .ok (item, rest) =>
                  match skipGap rest with
                  | ',' :: more =>
                      (members? fuel (skipGap more)).map
                        fun found => ((key, item) :: found.1, found.2)
                  | '}' :: after => .ok ([(key, item)], after)
                  | _ => .error .malformed
          | _ => .error .malformed

end

end Reader

/-- The value that a whole text writes, blanks around it aside. The reader goes at most two steps
without taking a character, so twice the length of the text is fuel enough. -/
def read? (t : List Char) : Except Fault Json :=
  match Reader.value? (2 * t.length + 2) (Reader.skipGap t) with
  | .ok (value, rest) => if (Reader.skipGap rest).isEmpty then .ok value else .error .malformed
  | .error fault => .error fault

end PluginContract.Json

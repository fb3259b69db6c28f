import PluginContract.Decimal.Shortest
import PluginContract.Json.Value

/-! # Number text

Integers are written in full, up to a number of digits beyond which they are neither read nor
written. A floating-point number is written with its shortest digits, in positional notation from
1e-4 up to below 1e16 and with at least one decimal place; outside that range with an exponent of at
least two digits. -/

namespace PluginContract.Json
open Decimal

/-- How floating-point numbers are laid out. -/
structure FloatLayout where
  /-- The least power of ten of a leading digit that is written positionally. -/
  leastPositional : Int
  /-- The first power of ten that is written with an exponent again. -/
  firstExponential : Int
  infinity : String
  notANumber : String

/-- The layout of numbers in JSON text. -/
def FloatLayout.json : FloatLayout := ⟨-4, 16, "Infinity", "NaN"⟩

/-- The layout of numbers in messages. -/
def FloatLayout.message : FloatLayout := ⟨-4, 16, "inf", "nan"⟩

/-- Significant digits in positional notation, for the power of ten of the leading digit. -/
def positional (digits : List Char) (power : Int) : List Char :=
  if power < 0 then "0.".toList ++ List.replicate (-power - 1).toNat '0' ++ digits
  else
    let wholeLength := power.toNat + 1
    let whole := digits.take wholeLength ++ List.replicate (wholeLength - digits.length) '0'
    let places := digits.drop wholeLength
    whole ++ ['.'] ++ (if places.isEmpty then ['0'] else places)

/-- Significant digits with an exponent. -/
def exponential (digits : List Char) (power : Int) : List Char :=
  let places := digits.drop 1
  let written := Nat.toDigits 10 power.natAbs
  digits.take 1 ++ (if places.isEmpty then [] else '.' :: places) ++
    ['e', if power < 0 then '-' else '+'] ++
    (if written.length < 2 then '0' :: written else written)

/-- The text of a floating-point number. -/
def FloatLayout.text (layout : FloatLayout) : Binary64 → List Char
  | .notANumber => layout.notANumber.toList
  | .infinite negative => (if negative then ['-'] else []) ++ layout.infinity.toList
  | .finite negative mantissa exponent =>
      let sign := if negative then ['-'] else []
      if mantissa = 0 then sign ++ "0.0".toList
      else
        let (digits, power) := (shortest mantissa exponent).significant
        if layout.leastPositional ≤ power && power < layout.firstExponential then
          sign ++ positional digits power
        else sign ++ exponential digits power

/-- The most digits of an integer that is read or written; its sign does not count. -/
def mostDigits : Nat := 4300

/-- Whether an integer has no more digits than are written. -/
def isShort (n : Int) : Bool := n.natAbs < tenTo mostDigits

/-- The text of an integer. Only short ones are ever asked for it. -/
def integerText (n : Int) : List Char :=
  if n < 0 then '-' :: Nat.toDigits 10 n.natAbs else Nat.toDigits 10 n.natAbs

end PluginContract.Json

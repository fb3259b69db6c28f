import PluginContract.Decimal.Binary64

/-! # The fewest digits that read back

A number is written with the fewest significant decimal digits that read back to it; of several
such decimals the nearest is taken, and of two equally near ones the one with an even last digit. -/

namespace PluginContract.Decimal

/-- A positive decimal: its digits as a number, and the power of ten of the last digit. -/
structure Digits where
  coefficient : Nat
  exponent : Int
deriving DecidableEq, Repr

/-- The interval of a stored number, scaled: the number is `value`, everything strictly between
`low` and `high` reads back to it, and so do the ends if `closed`. All are quotients by `den`. -/
structure Rounding where
  low : Nat
  value : Nat
  high : Nat
  den : Nat
  closed : Bool

/-- The rounding interval of a positive stored number. Below a power of two the distance to the
next number halves. -/
def Rounding.of (mantissa : Nat) (exponent : Int) : Rounding :=
  let narrow := mantissa = twoTo 52 ∧ Binary64.leastExponent < exponent
  let (unit, den) := if 0 ≤ exponent then (twoTo exponent.toNat, 1) else (1, twoTo (-exponent).toNat)
  { low := (4 * mantissa - (if narrow then 1 else 2)) * unit
    value := 4 * mantissa * unit
    high := (4 * mantissa + 2) * unit
    den := 4 * den
    closed := mantissa % 2 = 0 }

/-- Whether the decimal `coefficient * 10 ^ exponent` reads back to the number. -/
def Rounding.holds (r : Rounding) (coefficient : Nat) (exponent : Int) : Bool :=
  let (point, scale) :=
    if 0 ≤ exponent then (coefficient * tenTo exponent.toNat * r.den, 1)
    else (coefficient * r.den, tenTo (-exponent).toNat)
  let low := r.low * scale
  let high := r.high * scale
  if r.closed then low ≤ point && point ≤ high else low < point && point < high

/-- The nearer to the value of the two neighbours on the grid of a power of ten. -/
def Rounding.nearest? (r : Rounding) (exponent : Int) : Option Digits :=
  let (num, den) :=
    if 0 ≤ exponent then (r.value, r.den * tenTo exponent.toNat)
    else (r.value * tenTo (-exponent).toNat, r.den)
  let low := num / den
  let near := roundHalfEven num den
  let far := if near = low then low + 1 else low
  if near ≠ 0 && r.holds near exponent then some ⟨near, exponent⟩
  else if far ≠ 0 && r.holds far exponent then some ⟨far, exponent⟩
  else none

/-- The power of ten of the leading digit of a positive quotient. -/
def floorLog10 (num den : Nat) : Int :=
  let guess : Int := ((Nat.toDigits 10 num).length : Int) - (Nat.toDigits 10 den).length
  let fits (e : Int) : Bool :=
    if 0 ≤ e then den * tenTo e.toNat ≤ num else den ≤ num * tenTo (-e).toNat
  if fits guess then guess else guess - 1

/-- The first grid with a decimal that reads back, from few digits to many. -/
def Rounding.firstHit (r : Rounding) (top : Int) : (digits : Nat) → (tries : Nat) → Digits
  | digits, 0 => (r.nearest? (top - digits)).getD ⟨0, 0⟩
  | digits, tries + 1 =>
      match r.nearest? (top - digits) with
      | some found => found
      | none => r.firstHit top (digits + 1) tries

/-- The shortest decimal that reads back to a positive stored number; seventeen digits always do. -/
def shortest (mantissa : Nat) (exponent : Int) : Digits :=
  let r := Rounding.of mantissa exponent
  r.firstHit (floorLog10 r.value r.den) 0 17

/-- The decimal digits of a coefficient without the zeros at its end, and the power of ten of the
leading digit. -/
def Digits.significant (d : Digits) : List Char × Int :=
  let written := Nat.toDigits 10 d.coefficient
  let kept := (written.reverse.dropWhile (· == '0')).reverse
  (kept, d.exponent + written.length - 1)

end PluginContract.Decimal

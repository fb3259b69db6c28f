/-! # Binary floating-point numbers

A finite number is a sign and an exact value `mantissa * 2 ^ exponent`, kept as the format of 53
significant bits stores it. Decimals are read by rounding the exact quotient to the nearest such
value, halves to the even mantissa. All arithmetic is on natural numbers. -/

namespace PluginContract.Decimal

/-- A power of two. -/
def twoTo (n : Nat) : Nat := Nat.pow 2 n

/-- A power of ten. -/
def tenTo (n : Nat) : Nat := Nat.pow 10 n

/-- A floating-point number of 53 significant bits. -/
inductive Binary64
  | finite (negative : Bool) (mantissa : Nat) (exponent : Int)
  | infinite (negative : Bool)
  | notANumber
deriving DecidableEq, Repr

/-- The quotient of two naturals, rounded to the nearest, halves to the even side. -/
def roundHalfEven (num den : Nat) : Nat :=
  let low := num / den
  let twice := 2 * (num % den)
  if twice < den then low
  else if den < twice then low + 1
  else low + low % 2

namespace Binary64

/-- The least exponent of a stored mantissa. -/
def leastExponent : Int := -1074

/-- The greatest exponent of a stored mantissa. -/
def greatestExponent : Int := 971

/-- The greatest power of two not above a positive quotient. -/
def floorLog2 (num den : Nat) : Int :=
  let guess : Int := (num.log2 : Int) - (den.log2 : Int)
  let fits (e : Int) : Bool :=
    if 0 ≤ e then den * twoTo e.toNat ≤ num else den ≤ num * twoTo (-e).toNat
  if fits guess then guess else guess - 1

/-- The stored number nearest to a quotient. -/
def ofQuotient (negative : Bool) (num den : Nat) : Binary64 :=
  if num = 0 then finite negative 0 0
  else
    let exponent := max leastExponent (floorLog2 num den - 52)
    let mantissa :=
      if 0 ≤ exponent then roundHalfEven num (den * twoTo exponent.toNat)
      else roundHalfEven (num * twoTo (-exponent).toNat) den
    let (mantissa, exponent) :=
      if mantissa = twoTo 53 then (twoTo 52, exponent + 1) else (mantissa, exponent)
    if mantissa = 0 then finite negative 0 0
    else if greatestExponent < exponent then infinite negative
    else finite negative mantissa exponent

/-- The stored number nearest to `digits * 10 ^ exponent`. Exponents far out of range are settled
before any power is built. -/
def ofDecimal (negative : Bool) (digits : Nat) (exponent : Int) : Binary64 :=
  let magnitude : Int := exponent + (Nat.toDigits 10 digits).length
  if digits = 0 then finite negative 0 0
  else if 400 < magnitude then infinite negative
  else if magnitude < -400 then finite negative 0 0
  else if 0 ≤ exponent then ofQuotient negative (digits * tenTo exponent.toNat) 1
  else ofQuotient negative digits (tenTo (-exponent).toNat)

/-- Whether a number is zero, of either sign. -/
def isZero : Binary64 → Bool
  | finite _ mantissa _ => mantissa == 0
  | _ => false

/-- The absolute value of a stored number as a quotient. -/
def quotient (mantissa : Nat) (exponent : Int) : Nat × Nat :=
  if 0 ≤ exponent then (mantissa * twoTo exponent.toNat, 1) else (mantissa, twoTo (-exponent).toNat)

/-- Whether a number is exactly an integer. -/
def equalsInt : Binary64 → Int → Bool
  | finite negative mantissa exponent, n =>
      let (num, den) := quotient mantissa exponent
      let signed : Int := if negative then -(num : Int) else num
      signed == n * den
  | _, _ => false

/-- Equality of numbers as values: zeros of both signs are equal, and so is a number that is none
to itself. -/
def sameValue (x y : Binary64) : Bool := x == y || (x.isZero && y.isZero)

end Binary64

end PluginContract.Decimal

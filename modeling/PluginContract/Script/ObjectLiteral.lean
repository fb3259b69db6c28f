import PluginContract.Script.Expression

/-! # Object literals

The first braces of an expression outside round and square brackets are read as an object literal.
Spreads are kept apart from properties: they never satisfy a look-up. Computed keys, methods and
accessors are passed over. -/

namespace PluginContract.Script
open Text

/-- A property that the literal itself spells out. -/
structure Property where
  key : List Char
  value : List Char
  shorthand : Bool
deriving DecidableEq, Repr

/-- The properties and the spread operands of an object literal, in source order. -/
structure ObjectLiteral where
  properties : List Property
  spreads : List (List Char)
deriving DecidableEq, Repr

/-- An entry of an object literal. -/
inductive ObjectEntry
  | property (property : Property)
  | spread (operand : List Char)
  /-- An entry of a form that is not read. -/
  | other
deriving DecidableEq, Repr

namespace ObjectLiteral

/-- The offset of the first character of a masked text that passes a test at a nesting depth of
zero. `nesting` gives the change of depth at each character. -/
def firstOutside? (nesting : Char → Int) (wanted : Char) :
    (depth : Int) → List Char → Option Nat
  | _, [] => none
  | depth, c :: rest =>
      if c = wanted && depth = 0 then some 0
      else (firstOutside? nesting wanted (depth + nesting c) rest).map (· + 1)

/-- The change of nesting depth at round and square brackets. -/
def roundOrSquare (c : Char) : Int :=
  if c = '(' || c = '[' then 1 else if c = ')' || c = ']' then -1 else 0

/-- Decimal digits, perhaps with a point and more digits. -/
def isNumberKey (key : List Char) : Bool :=
  match key.takeWhile isDecimal, key.dropWhile isDecimal with
  | [], _ => false
  | _, [] => true
  | _, '.' :: places => !places.isEmpty && places.all isDecimal
  | _, _ => false

/-- A key as a property name: a quoted name without its quotes, an identifier or a number. -/
def keyName? (written : List Char) : Option (List Char) :=
  let key := trim written
  let isQuoted := 2 ≤ key.length && (key.head? = some '"' || key.head? = some '\'') &&
    key.getLast? = key.head?
  if isQuoted then some (key.drop 1).dropLast
  else if isName key || isNumberKey key then some key
  else none

/-- An entry between two commas. -/
def readEntry (entry : List Char) : ObjectEntry :=
  match after? "...".toList entry with
  | some operand => .spread (trim operand)
  | none =>
      match firstOutside? depthChange ':' 0 (mask entry) with
      | none => if isName entry then .property ⟨entry, entry, true⟩ else .other
      | some colon =>
          match keyName? (entry.take colon) with
          | some key => .property ⟨key, trim (entry.drop (colon + 1)), false⟩
          | none => .other

/-- The text between the braces that open at an offset, without comments. -/
def body (e : List Char) (start : Nat) : List Char :=
  stripComments (slice e (start + 1) ((matching? e start '{' '}').getD e.length))

/-- The object literal of an expression. -/
def read? (expression : List Char) : Option ObjectLiteral :=
  let e := stripParens expression
  (firstOutside? roundOrSquare '{' 0 (mask e)).map fun start =>
    let entries := ((splitCommas (body e start)).filter fun part => !part.isEmpty).map readEntry
    { properties := entries.filterMap fun
        | .property p => some p
        | _ => none
      spreads := entries.filterMap fun
        | .spread operand => some operand
        | _ => none }

/-- The first property with a key. -/
def get? (literal : ObjectLiteral) (key : List Char) : Option Property :=
  literal.properties.find? fun p => p.key = key

/-- Whether the literal itself spells out a property. -/
def has (literal : ObjectLiteral) (key : List Char) : Bool :=
  literal.properties.any fun p => p.key = key

theorem has_iff_isSome_get? (literal : ObjectLiteral) (key : List Char) :
    literal.has key = (literal.get? key).isSome := by
  unfold has get?
  induction literal.properties with
  | nil => rfl
  | cons p rest ih => by_cases h : p.key = key <;> simp [h, ih]

end ObjectLiteral

end PluginContract.Script

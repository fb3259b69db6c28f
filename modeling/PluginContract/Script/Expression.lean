import PluginContract.Script.Bracket
import PluginContract.Text.Search

/-! # Expressions without their wrapping

Parentheses around a whole expression, the assertions `as T`, `satisfies T` and `<T>`, and the
non-null mark do not change what the expression refers to. -/

namespace PluginContract.Script
open Text

/-- A trimmed expression without the parentheses that wrap it as a whole. -/
def unwrap (e : List Char) : List Char :=
  if _ : e.head? = some '(' ∧ matching? e 0 '(' ')' = some (e.length - 1) then
    unwrap (trim (e.drop 1).dropLast)
  else e
termination_by e.length
decreasing_by
  rename_i h
  have hpos : 0 < e.length := by
    cases e with
    | nil => simp at h
    | cons c e => simp
  have hle := trim_length_le (e.drop 1).dropLast
  simp only [List.length_dropLast, List.length_drop] at hle
  omega

/-- An expression without the parentheses that wrap it as a whole, however many. -/
def stripParens (e : List Char) : List Char := unwrap (trim e)

/-- The words `as` and `satisfies` between blanks. -/
def assertionWord : Pattern Unit := fun _ t =>
  match t with
  | c :: rest =>
      if isBlank c then
        match after? "as".toList rest, after? "satisfies".toList rest with
        | some (d :: _), _ => if isBlank d then some ((), 4) else none
        | _, some (d :: _) => if isBlank d then some ((), 11) else none
        | _, _ => none
      else none
  | [] => none

/-- The expression before its first assertion word outside brackets. -/
def dropAssertion (e : List Char) : List Char :=
  let masked := mask e
  match (assertionWord.findAll masked).find? fun found => depth (masked.take found.start) = 0 with
  | some found => trim (e.take found.start)
  | none => e

/-- The expression without a non-null mark at its end. -/
def dropNonNull (e : List Char) : List Char :=
  if e.getLast? = some '!' then trimEnd e.dropLast else e

/-- The expression without a type in angle brackets before it. -/
def dropAngled (e : List Char) : List Char :=
  if e.head? = some '<' then
    match matching? e 0 '<' '>' with
    | some close => trim (e.drop (close + 1))
    | none => e
  else e

/-- One layer of wrapping of each kind removed. -/
def peel (e : List Char) : List Char :=
  dropAssertion (dropAngled (dropNonNull (stripParens e)))

/-- Layers removed as long as that shortens the expression. -/
def peelAll (e : List Char) : List Char :=
  if (peel e).length < e.length then peelAll (peel e) else peel e
termination_by e.length

/-- An expression without parentheses, assertions and non-null marks around what it refers to. -/
def stripAssertions (e : List Char) : List Char := peelAll (trim e)

end PluginContract.Script

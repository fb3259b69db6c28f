import PluginContract.Script.Literal

/-! # Brackets

A closing bracket counts only if it matches the innermost open one. Angle brackets are tracked only
on request, since they also compare; the one that ends an arrow `=>` never closes. -/

namespace PluginContract.Script
open Text

/-- Which characters open, and what closes each. -/
abbrev Pairing := Char → Option Char

namespace Pairing

/-- Round, square and curly brackets. -/
def brackets : Pairing := closingBracket?

/-- The pairing with one more pair, or with another closer for the same opening character. -/
def also (pairing : Pairing) (opens closes : Char) : Pairing :=
  fun c => if c = opens then some closes else pairing c

/-- The brackets and the angle brackets. -/
def angled : Pairing := brackets.also '<' '>'

end Pairing

/-- The open brackets after a seen character, as the closers they wait for, innermost first; `none`
if the character is no bracket that counts. -/
def bracketStep? (pairing : Pairing) (awaited : List Char) (before : Option Char) (c : Char) :
    Option (List Char) :=
  match pairing c, awaited with
  | some close, _ => some (close :: awaited)
  | none, close :: outer =>
      if c = close then some (if c = '>' && before = some '=' then close :: outer else outer)
      else none
  | none, [] => none

/-- How many characters come before the one that closes the outermost open bracket. -/
def distanceToClose? (pairing : Pairing) :
    (awaited : List Char) → (before : Option Char) → List (Char × Role) → Option Nat
  | _, _, [] => none
  | awaited, before, (c, role) :: rest =>
      let continueWith (next : List Char) :=
        (distanceToClose? pairing next (some c) rest).map (· + 1)
      if role.isSeen then
        match bracketStep? pairing awaited before c with
        | some [] => some 0
        | some next => continueWith next
        | none => continueWith awaited
      else continueWith awaited

/-- The offset of the delimiter that closes the one at an offset. -/
def matching? (t : List Char) (start : Nat) (opens closes : Char) : Option Nat :=
  if t[start]? = some opens then
    (distanceToClose? (Pairing.brackets.also opens closes) [] (t.take start).getLast?
      (scanAt t start)).map (start + ·)
  else none

/-- Whether scanned characters start with a text. -/
def spells : List Char → List (Char × Role) → Bool
  | [], _ => true
  | _ :: _, [] => false
  | d :: more, (c, _) :: rest => d == c && spells more rest

/-- The parts of a script between delimiters outside all brackets. The current part is collected
backwards; `skip` characters of the last delimiter are still to be passed over. -/
def splitFrom (pairing : Pairing) (delimiter : List Char) :
    (awaited : List Char) → (before : Option Char) → (skip : Nat) → (part : List Char) →
      List (Char × Role) → List (List Char)
  | _, _, _, part, [] =>
      let last := trim part.reverse
      if last.isEmpty then [] else [last]
  | awaited, before, skip, part, (c, role) :: rest =>
      let pass (next : List Char) :=
        match skip with
        | 0 => splitFrom pairing delimiter next (some c) 0 (c :: part) rest
        | skip + 1 => splitFrom pairing delimiter next (some c) skip part rest
      if role.isSeen then
        match bracketStep? pairing awaited before c with
        | some next => pass next
        | none =>
            if awaited.isEmpty && spells delimiter ((c, role) :: rest) then
              trim part.reverse ::
                (match delimiter with
                  | [] => splitFrom pairing delimiter [] (some c) 0 [c] rest
                  | _ :: more => splitFrom pairing delimiter [] (some c) more.length [] rest)
            else pass awaited
      else pass awaited

/-- The trimmed parts of a script between delimiters outside all brackets; an empty last part is
dropped. -/
def split (pairing : Pairing) (delimiter t : List Char) : List (List Char) :=
  splitFrom pairing delimiter [] none 0 [] (scan t)

/-- The trimmed parts of a script between commas outside all brackets. -/
def splitCommas (t : List Char) : List (List Char) := split .brackets [','] t

/-- The change of nesting depth at a character of a masked script. -/
def depthChange (c : Char) : Int :=
  if c = '(' || c = '[' || c = '{' then 1
  else if c = ')' || c = ']' || c = '}' then -1
  else 0

/-- The nesting depth at the end of a masked script. -/
def depth : (masked : List Char) → Int
  | [] => 0
  | c :: rest => depthChange c + depth rest

end PluginContract.Script

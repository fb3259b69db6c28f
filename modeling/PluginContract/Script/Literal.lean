import PluginContract.Script.Role

/-! # Literals and comments at a given place

Each function looks at one offset of a text and tells where what starts there ends. -/

namespace PluginContract.Script
open Text

/-- How many characters come before the one that leaves all regions, if one does. -/
def distanceOut? (before : List Char) (regions : List Region) : List Char → Option Nat
  | [] => none
  | c :: rest =>
      match Region.step before c rest regions with
      | [] => some 0
      | after => (distanceOut? (c :: before) after rest).map (· + 1)

/-- The offset of the character that closes the literal opened at an offset, or the length of the
text if nothing closes it. Any character can serve as the quote; there must be one. -/
def literalEnd? (t : List Char) (start : Nat) : Option Nat :=
  match t.drop start with
  | [] => none
  | quote :: rest =>
      match distanceOut? (quote :: (t.take start).reverse) [.quoted quote] rest with
      | some distance => some (start + 1 + distance)
      | none => some t.length

/-- The inside of the literal that is opened at an offset, as written. -/
def literalText (t : List Char) (start : Nat) : List Char :=
  match literalEnd? t start with
  | some stop => slice t (start + 1) stop
  | none => []

/-- The offset of the last character of the comment that starts at an offset. -/
def commentEnd? (t : List Char) (start : Nat) : Option Nat :=
  match t.drop start with
  | '/' :: '/' :: rest => some (start + 1 + (rest.takeWhile (· != '\n')).length)
  | '/' :: '*' :: rest =>
      match indexOf? ['*', '/'] rest with
      | some distance => some (start + 2 + distance + 1)
      | none => some (t.length - 1)
  | _ => none

/-- The offset of the slash that closes the regular expression opened at an offset. -/
def regexEnd? (t : List Char) (start : Nat) : Option Nat :=
  if expectsOperand (t.take start).reverse then
    (regexLength? false (t.drop (start + 1))).map (start + ·)
  else none

/-- A quoted text with its escapes resolved: a backslash stands for the character after it, save
that the letters `n`, `t` and `r` and the digit `0` name control characters. -/
def unescape : List Char → List Char
  | '\\' :: c :: rest =>
      (if c = 'n' then '\n' else if c = 't' then '\t' else if c = 'r' then '\r'
        else if c = '0' then '\x00' else c) :: unescape rest
  | c :: rest => c :: unescape rest
  | [] => []

/-- The contents of the single- and double-quoted literals among scanned characters. An open
literal is collected backwards; one that the text ends in is dropped. -/
def quotedContents : (current : Option (List Char)) → List (Char × Role) → List (List Char)
  | _, [] => []
  | current, (c, role) :: rest =>
      match role, current with
      | .opening, _ =>
          quotedContents (if c = '"' || c = '\'' then some [] else none) rest
      | .content, some inside => quotedContents (some (c :: inside)) rest
      | .closing, some inside => inside.reverse :: quotedContents none rest
      | _, current => quotedContents current rest

/-- The values of the single- and double-quoted literals of a script, in order. -/
def stringLiterals (t : List Char) : List (List Char) :=
  (quotedContents none (scan t)).map unescape

end PluginContract.Script

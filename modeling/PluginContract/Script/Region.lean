import PluginContract.Text.Pieces

/-! # Regions of a script

Reading a script from left to right, each character either is code or lies in a comment, a quoted
literal or a regular expression. Template literals hold interpolations, and these hold code again,
so the regions around a character form a stack. An unterminated region reaches the end of the text.

A slash opens a comment before `/` and `*`. Otherwise it opens a regular expression if no operand
can end before it and the expression closes on its line; else it divides. -/

namespace PluginContract.Script
open Text

/-- The quote of a template literal. -/
def backtick : Char := '\x60'

/-- A character that opens a quoted literal. -/
def isQuote (c : Char) : Bool := c == '"' || c == '\'' || c == backtick

/-- The bracket that closes an opening bracket. -/
def closingBracket? (c : Char) : Option Char :=
  if c = '(' then some ')' else if c = '[' then some ']' else if c = '{' then some '}' else none

/-- Punctuation after which an operand is expected. -/
def operatorChars : List Char := "(,=:[!&|?\x7b\x7d;+-*%>~^".toList

/-- Words after which an operand is expected. -/
def operatorWords : List (List Char) :=
  ["return", "typeof", "instanceof", "void", "throw", "case", "delete", "in", "of", "new", "yield",
    "await", "else", "do"].map String.toList

/-- Whether an operand may start after this text, which is given backwards. -/
def expectsOperand (before : List Char) : Bool :=
  let significant := before.dropWhile isBlank
  match significant with
  | [] => true
  | c :: _ =>
      operatorChars.contains c || operatorWords.contains (significant.takeWhile isNameChar).reverse

/-- How many characters a regular expression takes after its opening slash, the closing slash
included. A slash in a class does not close, and a backslash takes the character after it along. -/
def regexLength? (inClass : Bool) : List Char → Option Nat
  | [] => none
  | '\\' :: rest =>
      match rest with
      | [] => none
      | _ :: rest => (regexLength? inClass rest).map (· + 2)
  | c :: rest =>
      if c = '\n' then none
      else if c = '/' && !inClass then some 1
      else
        let inClass := if inClass then c != ']' else c == '['
        (regexLength? inClass rest).map (· + 1)

/-- What a character can lie in. -/
inductive Region
  /-- A literal that ends at the next such quote. -/
  | quoted (quote : Char)
  /-- A literal in which the next character is taken as it is. -/
  | escaped (quote : Char)
  /-- Code inside a template literal, with the brackets that it still has to close. -/
  | interpolation (closers : List Char)
  /-- A regular expression with so many characters to come. -/
  | regex (left : Nat)
  /-- A comment to the end of its line. -/
  | lineComment
  /-- A comment of which the opening asterisk comes next. -/
  | blockOpening
  /-- A comment up to an asterisk and a slash. -/
  | blockComment
  /-- A comment of which the closing slash comes next. -/
  | blockClosing
deriving DecidableEq, Repr

namespace Region

/-- Whether a region is a comment. -/
def isComment : Region → Bool
  | lineComment | blockOpening | blockComment | blockClosing => true
  | _ => false

/-- The region that a code character opens, seen between the text before it (backwards) and the
text after it. -/
def opened? (before : List Char) (c : Char) (rest : List Char) : Option Region :=
  if isQuote c then some (quoted c)
  else if c = '/' then
    match rest.head? with
    | some '/' => some lineComment
    | some '*' => some blockOpening
    | _ => if expectsOperand before then (regexLength? false rest).map regex else none
  else none

/-- The brackets left to close after a code character of an interpolation. -/
def closersAfter (c : Char) (closers : List Char) : List Char :=
  match closingBracket? c, closers with
  | some close, _ => close :: closers
  | none, close :: more => if c = close then more else close :: more
  | none, [] => []

/-- The regions after a character, innermost first, from those before it. -/
def step (before : List Char) (c : Char) (rest : List Char) : List Region → List Region
  | [] => (opened? before c rest).toList
  | quoted quote :: outer =>
      if c = '\\' then escaped quote :: outer
      else if c = quote then outer
      else if quote = backtick && c = '$' && rest.head? = some '{' then
        interpolation [] :: quoted quote :: outer
      else quoted quote :: outer
  | escaped quote :: outer => quoted quote :: outer
  | interpolation closers :: outer =>
      match opened? before c rest with
      | some region => region :: interpolation closers :: outer
      | none =>
          match closersAfter c closers with
          | [] => outer
          | closers => interpolation closers :: outer
  | regex left :: outer => if left ≤ 1 then outer else regex (left - 1) :: outer
  | lineComment :: outer =>
      match rest.head? with
      | some '\n' => outer
      | _ => lineComment :: outer
  | blockOpening :: outer => blockComment :: outer
  | blockComment :: outer =>
      if c = '*' && rest.head? = some '/' then blockClosing :: outer else blockComment :: outer
  | blockClosing :: outer => outer

end Region

theorem regexLength?_pos {inClass : Bool} {t : List Char} {n : Nat}
    (h : regexLength? inClass t = some n) : 0 < n := by
  cases t with
  | nil => simp [regexLength?] at h
  | cons c t =>
      unfold regexLength? at h
      split at h
      · simp at h
      · split at h
        · simp at h
        · obtain ⟨m, _, rfl⟩ := Option.map_eq_some_iff.1 h
          omega
      · split at h
        · simp at h
        · split at h
          · simpa using (Option.some.inj h) ▸ Nat.one_pos
          · obtain ⟨m, _, rfl⟩ := Option.map_eq_some_iff.1 h
            omega

end PluginContract.Script

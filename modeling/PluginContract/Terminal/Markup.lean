import PluginContract.Text.Pieces

/-! # Markup

A tag is a text in brackets that starts with a small letter, `#`, `/` or `@` and holds no opening
bracket. Backslashes before a tag stand for half as many, and an odd one makes the tag a plain text.
A tag that starts with a slash closes an open one. Tags style a text and are not seen themselves. -/

namespace PluginContract.Terminal
open Text

/-- The inside of the tag that opens a text. -/
def tag? : List Char → Option (List Char)
  | '[' :: c :: rest =>
      let inside := rest.takeWhile fun d => d != '[' && d != ']'
      match rest.dropWhile fun d => d != '[' && d != ']' with
      | ']' :: _ =>
          if c.isLower || c == '#' || c == '/' || c == '@' then some (c :: inside) else none
      | _ => none
  | _ => none

/-- The backslashes and the tag after them that open a text. -/
def slashedTag? (t : List Char) : Option (Nat × List Char) :=
  (tag? (t.dropWhile (· == '\\'))).map fun tag => ((t.takeWhile (· == '\\')).length, tag)

/-- A part of a marked text. -/
inductive Piece
  | plain (t : List Char)
  | tag (inside : List Char)
deriving DecidableEq, Repr

/-- The pieces that a tag with backslashes before it stands for. -/
def slashedPieces (slashes : Nat) (tag : List Char) : List Piece :=
  [.plain (List.replicate (slashes / 2) '\\'),
    if slashes % 2 = 1 then .plain ('[' :: tag ++ [']']) else .tag tag]

/-- The pieces of a text after some plain text; `skip` characters of a tag are still to be passed
over. -/
def piecesFrom : (plain : List Char) → (skip : Nat) → List Char → List Piece
  | plain, _, [] => [.plain plain.reverse]
  | plain, skip + 1, _ :: rest => piecesFrom plain skip rest
  | plain, 0, c :: rest =>
      match slashedTag? (c :: rest) with
      | some (slashes, tag) =>
          .plain plain.reverse :: slashedPieces slashes tag ++
            piecesFrom [] (slashes + tag.length + 1) rest
      | none => piecesFrom (c :: plain) 0 rest

/-- The pieces of a marked text. -/
def pieces (t : List Char) : List Piece := piecesFrom [] 0 t

/-- What is seen of a piece; a backslash before a bracket that opens no tag is not. -/
def Piece.visible : Piece → List Char
  | plain t => replace ['\\', '['] ['['] t
  | tag _ => []

/-- What is seen of a marked text. -/
def visible (t : List Char) : List Char := (pieces t).flatMap Piece.visible

/-- The name in a tag, without regard to blanks around it and to capitals. -/
def styleName (t : List Char) : List Char := lower (trim (t.takeWhile (· != '=')))

/-- The open tags after a piece, the last one first; none if the piece closes a tag that is not
open. -/
def afterPiece? (opened : List (List Char)) : Piece → Option (List (List Char))
  | .plain _ => some opened
  | .tag ('/' :: name) =>
      match styleName name with
      | [] => if opened.isEmpty then none else some (opened.drop 1)
      | style => if opened.contains style then some (opened.erase style) else none
  | .tag name => some (styleName name :: opened)

/-- Whether every closing tag closes an open one. -/
def closesOpenTags (t : List Char) : Bool :=
  ((pieces t).foldlM afterPiece? ([] : List (List Char))).isSome

/-- The text with each tag made plain by backslashes; `skip` characters are still to be copied. -/
def escapeFrom : (skip : Nat) → List Char → List Char
  | _, [] => []
  | skip + 1, c :: rest => c :: escapeFrom skip rest
  | 0, c :: rest =>
      match slashedTag? (c :: rest) with
      | some (slashes, tag) =>
          List.replicate (slashes + 1) '\\' ++ c :: escapeFrom (slashes + tag.length + 1) rest
      | none => c :: escapeFrom 0 rest

/-- The marked text that shows a text. A single backslash at the end is doubled, so that it does
not reach a tag that follows. -/
def escape (t : List Char) : List Char :=
  let escaped := escapeFrom 0 t
  match escaped.reverse with
  | '\\' :: '\\' :: _ => escaped
  | '\\' :: _ => escaped ++ ['\\']
  | _ => escaped

end PluginContract.Terminal

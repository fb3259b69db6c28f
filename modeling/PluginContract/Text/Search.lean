import PluginContract.Text.Pieces

/-! # Leftmost matches that do not overlap

A pattern looks at the character before a place and at the text from there on; when it matches it
tells how many characters it takes. The search reports the matches from left to right, each one
after the end of the one before. -/

namespace PluginContract.Text

/-- A pattern: the character before, the text from here on, the match with its length. -/
abbrev Pattern (α : Type) := Option Char → List Char → Option (α × Nat)

/-- A match with the offset at which it starts. -/
structure Found (α : Type) where
  start : Nat
  length : Nat
  value : α

namespace Pattern

/-- The matches from a place on; `skip` characters of the last match are still to be passed over. -/
def findFrom {α : Type} (pattern : Pattern α) :
    (skip : Nat) → (offset : Nat) → (before : Option Char) → List Char → List (Found α)
  | _, _, _, [] => []
  | skip + 1, offset, _, c :: rest => pattern.findFrom skip (offset + 1) (some c) rest
  | 0, offset, before, c :: rest =>
      match pattern before (c :: rest) with
      | some (value, length) =>
          ⟨offset, length, value⟩ :: pattern.findFrom (length - 1) (offset + 1) (some c) rest
      | none => pattern.findFrom 0 (offset + 1) (some c) rest

/-- All matches in a text. -/
def findAll {α : Type} (pattern : Pattern α) (t : List Char) : List (Found α) :=
  pattern.findFrom 0 0 none t

end Pattern

/-- The word at the start of a text, if the character before does not continue an identifier or a
member access; the rest follows it. -/
def keyword? (word : List Char) (before : Option Char) (t : List Char) : Option (List Char) :=
  if before.any fun c => isNameChar c || c == '.' then none else after? word t

/-- The rest after at least one blank. -/
def blanks? (t : List Char) : Option (List Char) :=
  match t with
  | c :: rest => if isBlank c then some (trimStart rest) else none
  | [] => none

/-- The longest identifier at the start of a text, and the rest. -/
def name? (t : List Char) : Option (List Char × List Char) :=
  match t with
  | c :: rest =>
      if isNameStart c then some (c :: rest.takeWhile isNameChar, rest.dropWhile isNameChar)
      else none
  | [] => none

/-- Whether a quoted specifier starts here. -/
def quoteFollows (t : List Char) : Bool := t.head?.any fun c => c == '"' || c == '\''

theorem name?_append {t name rest : List Char} (h : name? t = some (name, rest)) :
    t = name ++ rest := by
  cases t with
  | nil => simp [name?] at h
  | cons c t =>
      simp only [name?] at h
      split at h
      · obtain ⟨rfl, rfl⟩ := by simpa using h
        simp [List.takeWhile_append_dropWhile]
      · simp at h

end PluginContract.Text

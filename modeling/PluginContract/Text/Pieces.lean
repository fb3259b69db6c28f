import PluginContract.Text.Character

/-! # Cutting text

A text is a list of code points, and every offset and length counts them. This module trims a text,
cuts it into words, lines and fields, searches it, and takes a piece by offsets. -/

namespace PluginContract.Text

/-- The text without leading blanks. -/
def trimStart (t : List Char) : List Char := t.dropWhile isBlank

/-- The text without trailing blanks. -/
def trimEnd (t : List Char) : List Char := (t.reverse.dropWhile isBlank).reverse

/-- The text without blanks around it. -/
def trim (t : List Char) : List Char := trimEnd (trimStart t)

/-- The text without the characters around it that a class strips. -/
def trimOf (strips : Char → Bool) (t : List Char) : List Char :=
  ((t.dropWhile strips).reverse.dropWhile strips).reverse

/-- The characters from one offset up to another. -/
def slice (t : List Char) (start stop : Nat) : List Char := (t.drop start).take (stop - start)

/-- The text before an offset; a negative offset counts from the end. -/
def upTo (t : List Char) (offset : Int) : List Char :=
  if offset < 0 then t.take (t.length - offset.natAbs) else t.take offset.toNat

/-- The maximal runs of characters outside a class that separates them. -/
def runs (separates : Char → Bool) : (current : List Char) → List Char → List (List Char)
  | current, [] => if current.isEmpty then [] else [current.reverse]
  | current, c :: rest =>
      if separates c then
        if current.isEmpty then runs separates [] rest
        else current.reverse :: runs separates [] rest
      else runs separates (c :: current) rest

/-- The words of a text, cut at blanks. -/
def words (t : List Char) : List (List Char) := runs isBlank [] t

/-- The words of a text with a single space between them. -/
def respace (t : List Char) : List Char := [' '].intercalate (words t)

/-- The lines of a text without their ends. A last line without an end counts if it is not empty. -/
def linesFrom : (current : List Char) → List Char → List (List Char)
  | current, [] => if current.isEmpty then [] else [current.reverse]
  | current, '\r' :: '\n' :: rest => current.reverse :: linesFrom [] rest
  | current, c :: rest =>
      if isLineEnd c then current.reverse :: linesFrom [] rest else linesFrom (c :: current) rest

/-- The lines of a text. -/
def lines (t : List Char) : List (List Char) := linesFrom [] t

/-- The fields of a text between single separator characters. -/
def fieldsFrom (separator : Char) : (current : List Char) → List Char → List (List Char)
  | current, [] => [current.reverse]
  | current, c :: rest =>
      if c = separator then current.reverse :: fieldsFrom separator [] rest
      else fieldsFrom separator (c :: current) rest

/-- The fields of a text; an empty text is one empty field. -/
def fields (separator : Char) (t : List Char) : List (List Char) := fieldsFrom separator [] t

/-- The text after a given start, if it starts so. -/
def after? : (start : List Char) → List Char → Option (List Char)
  | [], t => some t
  | _ :: _, [] => none
  | s :: start, c :: rest => if s = c then after? start rest else none

/-- The offset of the first occurrence of a pattern. -/
def indexOf? (pattern : List Char) : List Char → Option Nat
  | [] => if pattern.isEmpty then some 0 else none
  | c :: rest =>
      if (after? pattern (c :: rest)).isSome then some 0
      else (indexOf? pattern rest).map (· + 1)

/-- The text with each occurrence of a pattern replaced, from left to right; `skip` characters of an
occurrence are still to be passed over. -/
def replaceFrom (pattern fresh : List Char) : (skip : Nat) → List Char → List Char
  | _, [] => []
  | skip + 1, _ :: rest => replaceFrom pattern fresh skip rest
  | 0, c :: rest =>
      if (after? pattern (c :: rest)).isSome then
        fresh ++ replaceFrom pattern fresh (pattern.length - 1) rest
      else c :: replaceFrom pattern fresh 0 rest

/-- The text with each occurrence of a non-empty pattern replaced. -/
def replace (pattern fresh t : List Char) : List Char := replaceFrom pattern fresh 0 t

/-- Every line end that is written as a carriage return, alone or before a line feed, becomes one
line feed. -/
def joinCarriageReturns : List Char → List Char
  | [] => []
  | '\r' :: '\n' :: rest => '\n' :: joinCarriageReturns rest
  | '\r' :: rest => '\n' :: joinCarriageReturns rest
  | c :: rest => c :: joinCarriageReturns rest

/-- ASCII capitals become small letters. -/
def lower (t : List Char) : List Char := t.map Char.toLower

theorem after?_eq_some_iff {start t rest : List Char} :
    after? start t = some rest ↔ t = start ++ rest := by
  induction start generalizing t with
  | nil => simp [after?, eq_comm]
  | cons s start ih =>
      cases t with
      | nil => simp [after?]
      | cons c t =>
          by_cases h : s = c
          · simp [after?, h, ih]
          · simp [after?, h, Ne.symm h]

theorem length_slice (t : List Char) (start stop : Nat) :
    (slice t start stop).length = min (stop - start) (t.length - start) := by
  simp [slice]

theorem trim_length_le (t : List Char) : (trim t).length ≤ t.length := by
  have drop (u : List Char) : (u.dropWhile isBlank).length ≤ u.length :=
    (List.dropWhile_sublist _).length_le
  simp only [trim, trimEnd, trimStart, List.length_reverse]
  exact Nat.le_trans (drop _) (by simpa using drop t)

theorem isBlank_of_head?_trimStart {t : List Char} {c : Char} (h : (trimStart t).head? = some c) :
    isBlank c = false := by
  have hnot := List.head?_dropWhile_not isBlank t
  rw [trimStart] at h
  rw [h] at hnot
  exact hnot

theorem trimStart_of_head? {t : List Char} (h : ∀ c, t.head? = some c → isBlank c = false) :
    trimStart t = t := by
  cases t with
  | nil => rfl
  | cons c rest => rw [trimStart, List.dropWhile_cons, h c rfl, if_neg Bool.false_ne_true]

theorem trimStart_trimStart (t : List Char) : trimStart (trimStart t) = trimStart t :=
  trimStart_of_head? fun _ h => isBlank_of_head?_trimStart h

theorem trimEnd_eq_reverse (t : List Char) : trimEnd t = (trimStart t.reverse).reverse := rfl

theorem trimEnd_isPrefix (t : List Char) : trimEnd t <+: t := by
  rw [← List.reverse_suffix, trimEnd_eq_reverse, List.reverse_reverse]
  exact List.dropWhile_suffix isBlank

/-- A trimmed text starts and ends with no blank, so trimming it again changes nothing. -/
theorem trim_trim (t : List Char) : trim (trim t) = trim t := by
  have hstart : trimStart (trim t) = trim t := by
    refine trimStart_of_head? fun c hc => ?_
    obtain ⟨rest, hrest⟩ := trimEnd_isPrefix (trimStart t)
    apply isBlank_of_head?_trimStart (t := t)
    rw [← hrest, List.head?_append, show (trimEnd (trimStart t)).head? = some c from hc]
    rfl
  rw [trim, hstart, trim, trimEnd_eq_reverse, trimEnd_eq_reverse, List.reverse_reverse,
    trimStart_trimStart]

end PluginContract.Text

import PluginContract.Text.Alphanumeric
import PluginContract.Text.DecimalDigit

/-! # Character classes

Blank characters, line ends, decimal digits, and the characters of words and of script
identifiers. A name starts with an ASCII letter, an underscore or a dollar sign, and continues with
any word character or a dollar sign. -/

namespace PluginContract.Text

/-- White space, with the four information separators and the next-line character. -/
def blankRanges : CodeRanges :=
  [(0x9, 0xD), (0x1C, 0x20), (0x85, 0x85), (0xA0, 0xA0), (0x1680, 0x1680), (0x2000, 0x200A),
    (0x2028, 0x2029), (0x202F, 0x202F), (0x205F, 0x205F), (0x3000, 0x3000)]

/-- A character that separates words. -/
def isBlank (c : Char) : Bool := blankRanges.has c.toNat

/-- Characters that end a line; a carriage return and the line feed after it end one line. -/
def lineEndRanges : CodeRanges :=
  [(0xA, 0xD), (0x1C, 0x1E), (0x85, 0x85), (0x2028, 0x2029)]

/-- A character that ends a line. -/
def isLineEnd (c : Char) : Bool := lineEndRanges.has c.toNat

/-- A letter, a number or an underscore. -/
def isWord (c : Char) : Bool :=
  if c.toNat < 0x80 then c.isAlphanum || c == '_' else alphanumericRanges.has c.toNat

/-- A character that may open an identifier. -/
def isNameStart (c : Char) : Bool := c.isAlpha || c == '_' || c == '$'

/-- A character that may continue an identifier. -/
def isNameChar (c : Char) : Bool := isWord c || c == '$'

/-- The value of a decimal digit of any script. -/
def decimalValue? (c : Char) : Option Nat :=
  (decimalDigitRanges.find? c.toNat).map fun range => (c.toNat - range.1) % 10

/-- A decimal digit of any script. -/
def isDecimal (c : Char) : Bool := decimalDigitRanges.has c.toNat

/-- A single identifier, with nothing around it. -/
def isName : List Char → Bool
  | [] => false
  | c :: rest => isNameStart c && rest.all isNameChar

theorem isBlank_of_isLineEnd {c : Char} (h : isLineEnd c = true) : isBlank c = true := by
  simp [isLineEnd, lineEndRanges, CodeRanges.has] at h
  simp [isBlank, blankRanges, CodeRanges.has]
  omega

theorem isWord_of_isNameStart {c : Char} (h : isNameStart c = true) : isNameChar c = true := by
  simp only [isNameStart, Bool.or_eq_true, beq_iff_eq] at h
  rcases h with (h | rfl) | rfl
  · have hlt : c.toNat < 0x80 := by
      delta Char.isAlpha Char.isUpper Char.isLower at h
      have hn : c.toNat = c.val.toNat := rfl
      simp [UInt32.le_iff_toNat_le] at h
      omega
    have hnum : c.isAlphanum = true := by
      show (c.isAlpha || c.isDigit) = true
      rw [h, Bool.true_or]
    simp [isNameChar, isWord, hlt, hnum]
  · decide
  · decide

end PluginContract.Text

import PluginContract.Script.Region

/-! # The role of each character

A scan gives every character of a script its role. Code characters and the characters that open a
literal are what structural parsers see; a masked script shows these and the closing characters of
literals at their own offsets, and blanks out the rest. Line feeds always stay. -/

namespace PluginContract.Script
open Text

/-- What a character is to a structural parser. -/
inductive Role
  | code
  /-- The first character of a literal. -/
  | opening
  /-- A character inside a literal. -/
  | content
  /-- The last character of a literal that ends. -/
  | closing
  | comment
deriving DecidableEq, Repr

namespace Role

/-- The role of a character, from the regions before and after it. -/
def between : (before after : List Region) → Role
  | [], [] => code
  | [], region :: _ => if region.isComment then comment else opening
  | [region], after =>
      if region.isComment then comment else if after.isEmpty then closing else content
  | _ :: _ :: _, _ => content

/-- Whether a structural parser sees the character. -/
def isSeen : Role → Bool
  | code | opening => true
  | _ => false

/-- Whether a masked script shows the character. -/
def isShown : Role → Bool
  | code | opening | closing => true
  | _ => false

end Role

/-- The roles from a place on, given the text before it (backwards) and the regions around it. -/
def scanFrom (before : List Char) (regions : List Region) : List Char → List (Char × Role)
  | [] => []
  | c :: rest =>
      let after := Region.step before c rest regions
      (c, Role.between regions after) :: scanFrom (c :: before) after rest

/-- The roles of a whole script. -/
def scan (t : List Char) : List (Char × Role) := scanFrom [] [] t

/-- The roles from an offset on, where a fresh scan starts in code. -/
def scanAt (t : List Char) (start : Nat) : List (Char × Role) :=
  scanFrom (t.take start).reverse [] (t.drop start)

/-- The characters that a structural parser sees from an offset on, with their offsets. -/
def codeAt (t : List Char) (start : Nat) : List (Nat × Char) :=
  ((scanAt t start).zipIdx start).filterMap fun entry =>
    if entry.1.2.isSeen then some (entry.2, entry.1.1) else none

/-- A blanked-out character; line feeds stay. -/
def blanked (c : Char) : Char := if c = '\n' then '\n' else ' '

/-- The script with comments and the insides of literals blanked out. -/
def mask (t : List Char) : List Char :=
  (scan t).map fun entry => if entry.2.isShown then entry.1 else blanked entry.1

/-- The script with comments blanked out. -/
def stripComments (t : List Char) : List Char :=
  (scan t).map fun entry => if entry.2 = .comment then blanked entry.1 else entry.1

theorem scanFrom_chars (before : List Char) (regions : List Region) (t : List Char) :
    (scanFrom before regions t).map Prod.fst = t := by
  induction t generalizing before regions with
  | nil => rfl
  | cons c t ih => simp [scanFrom, ih]

@[simp] theorem length_scanFrom (before : List Char) (regions : List Region) (t : List Char) :
    (scanFrom before regions t).length = t.length := by
  simpa using congrArg List.length (scanFrom_chars before regions t)

@[simp] theorem length_mask (t : List Char) : (mask t).length = t.length := by
  simp [mask, scan]

@[simp] theorem length_stripComments (t : List Char) : (stripComments t).length = t.length := by
  simp [stripComments, scan]

end PluginContract.Script

import PluginContract.Entries
import PluginContract.Source.Specifier

/-! # Imports

Import statements are found in the masked source, so text in comments and strings never counts, and
their names and module specifiers are read from the source at the same offsets. Side-effect imports
and dynamic imports bind no name. -/

namespace PluginContract.Source
open Text Script

/-- A name imported from a module. -/
structure ImportedName where
  source : String
  exported : String
deriving DecidableEq, Repr

/-- The local names that the imports of a module bind. -/
structure ImportTable where
  named : Entries ImportedName
  /-- Local names of default exports, with their modules. -/
  defaults : Entries String
  /-- Local names of whole modules. -/
  namespaces : Entries String
deriving DecidableEq, Repr

/-- An import statement, by offsets from its start: the clause between the words `import` and
`from`, and the quote that opens the module specifier. -/
structure ImportStatement where
  clauseStart : Nat
  clauseEnd : Nat
  quote : Nat
deriving DecidableEq, Repr

namespace ImportStatement

/-- A character that no import clause holds. -/
def endsClause (c : Char) : Bool := c == ';' || c == '\'' || c == '"' || c == backtick

/-- How far the word `from` and the quote after it are: the length of the clause before it, blanks
at its end not counted, and the distance to the quote. `blanks` counts the blanks just passed. -/
def clause? : (length : Nat) → (blanks : Nat) → (before : Option Char) → List Char →
    Option (Nat × Nat)
  | _, _, _, [] => none
  | length, blanks, before, c :: rest =>
      let here :=
        if before.any isWord then none
        else
          match after? "from".toList (c :: rest) with
          | some after =>
              if quoteFollows (trimStart after) then some (after.length - (trimStart after).length)
              else none
          | none => none
      match here with
      | some gap => some (length, length + blanks + 4 + gap)
      | none =>
          if endsClause c then none
          else if isBlank c then clause? length (blanks + 1) (some c) rest
          else clause? (length + blanks + 1) 0 (some c) rest

/-- An import statement at the start of a masked text. If a parenthesis follows the blanks after
the word, the last of several blanks already belongs to the clause. -/
def pattern : Pattern ImportStatement := fun before t =>
  match keyword? "import".toList before t with
  | none => none
  | some rest =>
      let gap := rest.takeWhile isBlank
      let parenthesis := (rest.dropWhile isBlank).head? = some '('
      let blanks := if parenthesis then gap.length - 1 else gap.length
      if blanks = 0 then none
      else
        let clauseStart := 6 + blanks
        match clause? 0 0 (gap.take blanks).getLast? (rest.drop blanks) with
        | some (length, distance) =>
            let quote := clauseStart + distance
            some (⟨clauseStart, clauseStart + length, quote⟩, quote)
        | none => none

end ImportStatement

namespace ImportTable

/-- No imports. -/
def empty : ImportTable := ⟨[], [], []⟩

/-- A clause without the word `type` before it. -/
def dropType (clause : List Char) : List Char :=
  if (after? "type ".toList clause).isSome || (after? "type\x7b".toList clause).isSome then
    trim (clause.drop 4)
  else clause

/-- The local name in `* as name`. -/
def namespaceName? (part : List Char) : Option (List Char) :=
  match after? ['*'] part with
  | none => none
  | some rest =>
      match after? "as".toList (trimStart rest) with
      | none => none
      | some rest =>
          match blanks? rest with
          | some name => if isName name then some name else none
          | none => none

/-- The table with the names of one specifier list; the name `default` imports the default. -/
def addNamed (source : String) (table : ImportTable) (s : Specifier) : ImportTable :=
  let renamed := String.ofList s.renamed
  if s.given = "default".toList then
    { table with defaults := table.defaults.put renamed source }
  else { table with named := table.named.put renamed ⟨source, String.ofList s.given⟩ }

/-- The table with the names of one part of a clause. -/
def addPart (source : String) (table : ImportTable) (part : List Char) : ImportTable :=
  if part.head? = some '*' then
    match namespaceName? part with
    | some name => { table with namespaces := table.namespaces.put (String.ofList name) source }
    | none => table
  else if part.head? = some '{' then
    (Specifier.readList (trimOf (fun c => c == '{' || c == '}') part)).foldl (addNamed source) table
  else if isName part then
    { table with defaults := table.defaults.put (String.ofList part) source }
  else table

/-- The table with the names of one import statement. -/
def addStatement (source : List Char) (table : ImportTable) (found : Found ImportStatement) :
    ImportTable :=
  let place := found.value
  let module := String.ofList (literalText source (found.start + place.quote))
  let clause :=
    dropType (trim (slice source (found.start + place.clauseStart) (found.start + place.clauseEnd)))
  (splitCommas (stripComments clause)).foldl (addPart module) table

/-- The imports of a module. -/
def read (source : List Char) : ImportTable :=
  (ImportStatement.pattern.findAll (mask source)).foldl (addStatement source) empty

end ImportTable

end PluginContract.Source

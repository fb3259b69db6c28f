import PluginContract.Entries
import PluginContract.Source.Specifier

/-! # Exports

`export … from` re-exports names of another module; `export { … }` without a module gives local
names a public one. Both are found in the masked source. Names are read from the source. -/

namespace PluginContract.Source
open Text Script

/-- What a re-exported name stands for. -/
inductive ReexportTarget
  | name (given : String)
  /-- The whole module. -/
  | everything
deriving DecidableEq, Repr

/-- A name that a module exports from another one. -/
structure Reexport where
  source : String
  target : ReexportTarget
deriving DecidableEq, Repr

/-- The re-exports of a module. -/
structure ReexportTable where
  named : Entries Reexport
  /-- The modules whose names are all re-exported, each once. -/
  stars : List String
deriving DecidableEq, Repr

/-- What stands between the words `export` and `from`. -/
inductive ExportClause
  | star
  | starAs (name : List Char)
  /-- A specifier list between braces, by the offsets of its text. -/
  | braces (start stop : Nat)
deriving DecidableEq, Repr

namespace ExportClause

/-- The text after the word `export`, blanks and perhaps the word `type` and more blanks. -/
def opening? : Pattern (List Char) := fun before t =>
  match (keyword? "export".toList before t).bind blanks? with
  | none => none
  | some rest =>
      let rest := ((after? "type".toList rest).bind blanks?).getD rest
      some (rest, t.length - rest.length)

/-- The text from the quote on, after blanks, the word `from` and more blanks. -/
def fromQuote? (t : List Char) : Option (List Char) :=
  match after? "from".toList (trimStart t) with
  | some rest => if quoteFollows (trimStart rest) then some (trimStart rest) else none
  | none => none

/-- The name in ` as name from`, and the text from the quote on. If no `from` follows the whole
name, the name may itself end in that word. -/
def starName? (t : List Char) : Option (List Char × List Char) :=
  match ((blanks? t).bind (after? "as".toList)).bind blanks? |>.bind name? with
  | none => none
  | some (name, rest) =>
      match fromQuote? rest with
      | some quote => some (name, quote)
      | none =>
          let shorter := name.take (name.length - 4)
          if shorter.isEmpty then none
          else (fromQuote? (name.drop (name.length - 4) ++ rest)).map fun quote => (shorter, quote)

/-- A re-export at the start of a masked text, up to the quote of its module specifier. -/
def pattern : Pattern ExportClause := fun before t =>
  match opening? before t with
  | none => none
  | some (rest, offset) =>
      match rest with
      | '*' :: rest =>
          match starName? rest with
          | some (name, quote) => some (.starAs name, t.length - quote.length)
          | none => (fromQuote? rest).map fun quote => (.star, t.length - quote.length)
      | '{' :: rest =>
          let inside := rest.takeWhile (· != '}')
          (fromQuote? (rest.drop (inside.length + 1))).bind fun quote =>
            if inside.length = rest.length then none
            else some (.braces (offset + 1) (offset + 1 + inside.length), t.length - quote.length)
      | _ => none

end ExportClause

/-- Whether the word `from` follows, after blanks. -/
def fromFollows (t : List Char) : Bool :=
  match after? "from".toList (trimStart t) with
  | some rest => !rest.head?.any isWord
  | none => false

/-- The specifier list of a local export at the start of a masked text, by the offsets of its
text. -/
def localExport : Pattern (Nat × Nat) := fun before t =>
  match ExportClause.opening? before t with
  | some ('{' :: rest, offset) =>
      let inside := rest.takeWhile (· != '}')
      if inside.length = rest.length || fromFollows (rest.drop (inside.length + 1)) then none
      else some ((offset + 1, offset + 1 + inside.length), offset + inside.length + 2)
  | _ => none

namespace ReexportTable

/-- No re-exports. -/
def empty : ReexportTable := ⟨[], []⟩

/-- The table with one re-export statement. -/
def addStatement (source : List Char) (table : ReexportTable) (found : Found ExportClause) :
    ReexportTable :=
  let module := String.ofList (literalText source (found.start + found.length))
  match found.value with
  | .star =>
      if table.stars.contains module then table
      else { table with stars := table.stars ++ [module] }
  | .starAs name =>
      { table with named := table.named.put (String.ofList name) ⟨module, .everything⟩ }
  | .braces start stop =>
      let list := Specifier.readList (slice source (found.start + start) (found.start + stop))
      { table with
        named := list.foldl
          (fun named s =>
            named.put (String.ofList s.renamed) ⟨module, .name (String.ofList s.given)⟩)
          table.named }

/-- The re-exports of a module. -/
def read (source : List Char) : ReexportTable :=
  (ExportClause.pattern.findAll (mask source)).foldl (addStatement source) empty

end ReexportTable

/-- The public names that a module gives to local names. -/
def readLocalExports (source : List Char) : Entries String :=
  let lists := (localExport.findAll (mask source)).flatMap fun found =>
    Specifier.readList (slice source (found.start + found.value.1) (found.start + found.value.2))
  Entries.ofPairs (lists.map fun s => (String.ofList s.renamed, String.ofList s.given))

end PluginContract.Source

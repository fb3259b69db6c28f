import PluginContract.Source.Module

/-!
# Declarations and their text

A declaration imports names, re-exports them or exports local ones. Declarations are
printed one on a line, with single blanks and a semicolon at the end, and the tables that
they make up list each name with what it stands for. Any identifier but the word `import`
is a name here, also those that the syntax gives a meaning.
-/

namespace PluginContract.Source

open Text

/-- An identifier other than the word `import`. -/
structure Identifier where
  chars : List Char
  isName : Text.isName chars = true
  notImport : chars ≠ "import".toList

/-- An identifier after the word `as`. -/
def Identifier.asName (i : Identifier) : List Char := ' ' :: 'a' :: 's' :: ' ' :: i.chars

/-- The name that an identifier spells. -/
def Identifier.name (i : Identifier) : String := String.ofList i.chars

/-- A module specifier between quotes, with nothing inside that ends it early. -/
structure Origin where
  quote : Char
  isText : quote = '"' ∨ quote = '\''
  chars : List Char
  noQuote : quote ∉ chars
  noEscape : '\\' ∉ chars

namespace Origin

/-- The module specifier. -/
def specifier (o : Origin) : String := String.ofList o.chars

/-- The end of a declaration, with the inside of the literal filled in. -/
def write (fill : List Char → List Char) (o : Origin) : List Char :=
  o.quote :: (fill o.chars ++ [o.quote, ';', '\n'])

/-- The word `from` and the end of a declaration. -/
def fromText (fill : List Char → List Char) (o : Origin) : List Char :=
  ' ' :: 'f' :: 'r' :: 'o' :: 'm' :: ' ' :: o.write fill

end Origin

/-- The word `type`, where it marks something. -/
def mark (marked : Bool) : List Char := if marked then "type ".toList else []

/-- An entry of a brace list: a name, perhaps with another name for it on this side. -/
structure Binding where
  marked : Bool
  given : Identifier
  renamed : Option Identifier

namespace Binding

/-- The name on this side. -/
def bound (b : Binding) : Identifier := b.renamed.getD b.given

/-- The text of an entry. -/
def text (b : Binding) : List Char :=
  mark b.marked ++ (b.given.chars ++
    match b.renamed with
    | none => []
    | some name => name.asName)

/-- The specifier that an entry stands for. -/
def specifier (b : Binding) : Specifier := ⟨b.given.chars, b.bound.chars⟩

/-- Whether an entry gives a name to the default export. -/
def isDefault (b : Binding) : Bool := b.given.chars = "default".toList

/-- What stands between the braces of a list. -/
def inside (bindings : List Binding) : List Char :=
  if bindings.isEmpty then []
  else ' ' :: ([',', ' '].intercalate (bindings.map text) ++ [' '])

/-- A brace list. -/
def list (bindings : List Binding) : List Char := '{' :: (inside bindings ++ ['}'])

end Binding

/-- A part of an import clause: the name of the default export, that of the whole module, or a
brace list. -/
inductive ImportPart
  | default (name : Identifier)
  | space (name : Identifier)
  | braces (bindings : List Binding)

namespace ImportPart

/-- The text of a part. -/
def text : ImportPart → List Char
  | default name => name.chars
  | space name => '*' :: name.asName
  | braces bindings => Binding.list bindings

/-- The text of a clause. -/
def clause (parts : List ImportPart) : List Char := [',', ' '].intercalate (parts.map text)

/-- The names that a part imports, with what they stand for. -/
def named (origin : Origin) : ImportPart → Entries ImportedName
  | braces bindings =>
      (bindings.filter fun b => !b.isDefault).map fun b =>
        (b.bound.name, ⟨origin.specifier, b.given.name⟩)
  | _ => []

/-- The names that a part gives to the default export. -/
def defaults (origin : Origin) : ImportPart → Entries String
  | default name => [(name.name, origin.specifier)]
  | space _ => []
  | braces bindings =>
      (bindings.filter Binding.isDefault).map fun b => (b.bound.name, origin.specifier)

/-- The names that a part gives to the whole module. -/
def namespaces (origin : Origin) : ImportPart → Entries String
  | space name => [(name.name, origin.specifier)]
  | _ => []

end ImportPart

/-- A declaration. The parts of an import clause may come in any order, and more than once. -/
inductive Declaration
  | imports (marked : Bool) (first : ImportPart) (others : List ImportPart) (origin : Origin)
  | star (origin : Origin)
  | starAs (name : Identifier) (origin : Origin)
  | reexports (marked : Bool) (bindings : List Binding) (origin : Origin)
  | exports (marked : Bool) (bindings : List Binding)

namespace Declaration

/-- The word that a declaration starts with. -/
def keyword : Declaration → List Char
  | imports .. => "import".toList
  | _ => "export".toList

@[simp] theorem keyword_imports (marked : Bool) (first : ImportPart) (others : List ImportPart)
    (origin : Origin) : (imports marked first others origin).keyword = "import".toList := rfl

@[simp] theorem keyword_reexports (marked : Bool) (bindings : List Binding) (origin : Origin) :
    (reexports marked bindings origin).keyword = "export".toList := rfl

@[simp] theorem keyword_exports (marked : Bool) (bindings : List Binding) :
    (exports marked bindings).keyword = "export".toList := rfl

theorem length_keyword (d : Declaration) : d.keyword.length = 6 := by
  cases d <;> rfl

/-- What comes after the first word and the blank after it, up to the line end, with the inside of
the literal filled in. -/
def body (fill : List Char → List Char) : Declaration → List Char
  | imports marked first others origin =>
      mark marked ++ (ImportPart.clause (first :: others) ++ origin.fromText fill)
  | star origin => '*' :: origin.fromText fill
  | starAs name origin => '*' :: (name.asName ++ origin.fromText fill)
  | reexports marked bindings origin =>
      mark marked ++ (Binding.list bindings ++ origin.fromText fill)
  | exports marked bindings => mark marked ++ (Binding.list bindings ++ [';', '\n'])

/-- A line with a declaration, with the inside of its literal filled in. -/
def write (fill : List Char → List Char) (d : Declaration) : List Char :=
  d.keyword ++ ' ' :: d.body fill

/-- The text of a declaration. -/
def text (d : Declaration) : List Char := d.write id

/-- The names that a declaration imports, with what they stand for. -/
def named : Declaration → Entries ImportedName
  | imports _ first others origin => (first :: others).flatMap (ImportPart.named origin)
  | _ => []

/-- The names that a declaration gives to default exports. -/
def defaults : Declaration → Entries String
  | imports _ first others origin => (first :: others).flatMap (ImportPart.defaults origin)
  | _ => []

/-- The names that a declaration gives to whole modules. -/
def namespaces : Declaration → Entries String
  | imports _ first others origin => (first :: others).flatMap (ImportPart.namespaces origin)
  | _ => []

/-- The names that a declaration exports from another module, with what they stand for. -/
def reexported : Declaration → Entries Reexport
  | starAs name origin => [(name.name, ⟨origin.specifier, .everything⟩)]
  | reexports _ bindings origin =>
      bindings.map fun b => (b.bound.name, ⟨origin.specifier, .name b.given.name⟩)
  | _ => []

/-- The modules that a declaration exports all names of. -/
def stars : Declaration → List String
  | star origin => [origin.specifier]
  | _ => []

/-- The public names that a declaration gives to local ones. -/
def exported : Declaration → Entries String
  | exports _ bindings => bindings.map fun b => (b.bound.name, b.given.name)
  | _ => []

/-- The text of a list of declarations. -/
def print (ds : List Declaration) : List Char := ds.flatMap text

/-- The imports of a list of declarations. -/
def importTable (ds : List Declaration) : ImportTable where
  named := .ofPairs (ds.flatMap named)
  defaults := .ofPairs (ds.flatMap defaults)
  namespaces := .ofPairs (ds.flatMap namespaces)

/-- The re-exports of a list of declarations. -/
def reexportTable (ds : List Declaration) : ReexportTable where
  named := .ofPairs (ds.flatMap reexported)
  stars := distinct (ds.flatMap stars)

/-- The local exports of a list of declarations. -/
def exportTable (ds : List Declaration) : Entries String := .ofPairs (ds.flatMap exported)

end Declaration

end PluginContract.Source

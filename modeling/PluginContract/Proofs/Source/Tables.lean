import PluginContract.Proofs.Entries
import PluginContract.Proofs.Source.Declarations

/-!
# Tables of several declarations

A table grows with each declaration by the entries that this makes up, and after the last
one it holds those of all declarations in their order.
-/

namespace PluginContract.Source

open Text

/-- The table with more entries put into it. -/
def ImportTable.add (table : ImportTable) (named : Entries ImportedName)
    (defaults namespaces : Entries String) : ImportTable :=
  ⟨table.named.putAll named, table.defaults.putAll defaults, table.namespaces.putAll namespaces⟩

theorem ImportTable.foldl_add {α : Type} (named : α → Entries ImportedName)
    (defaults namespaces : α → Entries String) (l : List α) (table : ImportTable) :
    l.foldl (fun table a => table.add (named a) (defaults a) (namespaces a)) table =
      table.add (l.flatMap named) (l.flatMap defaults) (l.flatMap namespaces) := by
  induction l generalizing table with
  | nil => rfl
  | cons a l ih =>
      rw [List.foldl_cons, ih]
      simp only [add, List.flatMap_cons, Entries.putAll_append]

/-- The table with the entries of a part of an import clause. -/
def ImportTable.addPartOf (origin : Origin) (table : ImportTable) (part : ImportPart) :
    ImportTable :=
  table.add (part.named origin) (part.defaults origin) (part.namespaces origin)

/-- The table with the entries of a declaration. -/
def ImportTable.declare (table : ImportTable) (d : Declaration) : ImportTable :=
  table.add d.named d.defaults d.namespaces

theorem importTable_eq (ds : List Declaration) :
    ds.foldl ImportTable.declare .empty = Declaration.importTable ds :=
  ImportTable.foldl_add _ _ _ ds .empty

theorem foldl_addPartOf (origin : Origin) (parts : List ImportPart) (table : ImportTable) :
    parts.foldl (ImportTable.addPartOf origin) table =
      table.add (parts.flatMap (ImportPart.named origin))
        (parts.flatMap (ImportPart.defaults origin))
        (parts.flatMap (ImportPart.namespaces origin)) :=
  ImportTable.foldl_add _ _ _ parts table

/-- Whether a specifier gives a name to the default export. -/
def Specifier.isDefault (s : Specifier) : Bool := s.given = "default".toList

/-- Specifiers are put into the tables that they belong to, each table in their order. -/
theorem foldl_addNamed_eq (module : String) (specifiers : List Specifier) (table : ImportTable) :
    specifiers.foldl (ImportTable.addNamed module) table =
      table.add
        ((specifiers.filter fun s => !s.isDefault).map fun s =>
          (String.ofList s.renamed, ⟨module, String.ofList s.given⟩))
        ((specifiers.filter Specifier.isDefault).map fun s => (String.ofList s.renamed, module))
        [] := by
  induction specifiers generalizing table with
  | nil => rfl
  | cons s specifiers ih =>
      rw [List.foldl_cons, ih]
      cases hs : s.isDefault with
      | true =>
          have hadd : ImportTable.addNamed module table s =
              { table with defaults := table.defaults.put (String.ofList s.renamed) module } :=
            if_pos (of_decide_eq_true hs)
          rw [hadd]
          simp [ImportTable.add, hs, Entries.putAll]
      | false =>
          have hadd : ImportTable.addNamed module table s =
              { table with
                named := table.named.put (String.ofList s.renamed)
                  ⟨module, String.ofList s.given⟩ } :=
            if_neg (of_decide_eq_false hs)
          rw [hadd]
          simp [ImportTable.add, hs, Entries.putAll]

/-- The entries of a brace list, each put into the table that it belongs to. -/
theorem foldl_addNamed (origin : Origin) (bindings : List Binding) (table : ImportTable) :
    (bindings.map Binding.specifier).foldl (ImportTable.addNamed origin.specifier) table =
      table.addPartOf origin (.braces bindings) := by
  rw [foldl_addNamed_eq, List.filter_map, List.filter_map, List.map_map, List.map_map]
  rfl

/-- The table with the entries of a declaration. -/
def ReexportTable.declare (table : ReexportTable) (d : Declaration) : ReexportTable where
  named := table.named.putAll d.reexported
  stars := d.stars.foldl
    (fun found module => if found.contains module then found else found ++ [module]) table.stars

theorem reexportTable_eq (ds : List Declaration) :
    ds.foldl ReexportTable.declare .empty = Declaration.reexportTable ds := by
  have hfold (table : ReexportTable) : ds.foldl ReexportTable.declare table =
      ⟨table.named.putAll (ds.flatMap Declaration.reexported),
        (ds.flatMap Declaration.stars).foldl (fun found module =>
          if found.contains module then found else found ++ [module]) table.stars⟩ := by
    induction ds generalizing table with
    | nil => rfl
    | cons d ds ih =>
        rw [List.foldl_cons, ih]
        simp only [ReexportTable.declare, List.flatMap_cons, Entries.putAll_append,
          List.foldl_append]
  rw [hfold, Declaration.reexportTable, ← foldl_eq_distinct]
  rfl

/-- The specifiers that a declaration exports local names by. -/
def Declaration.exportedSpecifiers : Declaration → List Specifier
  | exports _ bindings => bindings.map Binding.specifier
  | _ => []

theorem exportTable_eq (ds : List Declaration) :
    Entries.ofPairs ((ds.flatMap Declaration.exportedSpecifiers).map fun s =>
      (String.ofList s.renamed, String.ofList s.given)) = Declaration.exportTable ds := by
  rw [Declaration.exportTable, List.map_flatMap]
  congr 2
  funext d
  cases d with
  | exports marked bindings =>
      simp only [Declaration.exportedSpecifiers, Declaration.exported, List.map_map]
      rfl
  | _ => rfl

end PluginContract.Source

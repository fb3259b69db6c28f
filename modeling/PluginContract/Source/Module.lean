import PluginContract.Files.Path
import PluginContract.Source.Exports
import PluginContract.Source.Imports
import PluginContract.Source.TypeAliases

/-! # Source modules

What a source file declares that other files can refer to, read once from its text. -/

namespace PluginContract.Source
open Text Files

/-- A source file with its tables. -/
structure Module where
  path : Path
  text : List Char
  imports : ImportTable
  reexports : ReexportTable
  typeAliases : Entries (List Char)
  /-- Public names with the local names that they stand for. -/
  localExports : Entries String

namespace Module

/-- The module that a text makes up. -/
def ofText (path : Path) (text : List Char) : Module :=
  { path, text
    imports := ImportTable.read text
    reexports := ReexportTable.read text
    typeAliases := TypeAlias.readAll text
    localExports := readLocalExports text }

/-- The line of an offset, counted from one; a negative offset counts from the end. -/
def lineOf (m : Module) (offset : Int) : Nat := (upTo m.text offset).count '\n' + 1

/-- A place in a module, for messages. -/
def location (m : Module) (offset : Int) : String := s!"{m.path}:{m.lineOf offset}"

end Module

end PluginContract.Source

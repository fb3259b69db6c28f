import PluginContract.Error
import PluginContract.Source.Module

/-! # The module cache of a run

A module is read when it is first asked for and never again in the same run. The cache lists the
modules in the order in which they were read. A file that cannot be read leaves no trace. The paths
that modules are asked for by are those of files of the tree, so they do not hold the null
character, at which making them absolute would fail. -/

namespace PluginContract.Resolution
open Files Source

/-- The modules that a run has read, each under its absolute path. -/
structure Cache where
  modules : List Module

namespace Cache

/-- Nothing read yet. -/
def empty : Cache := ⟨[]⟩

/-- The module read from an absolute path. -/
def find? (cache : Cache) (path : Path) : Option Module :=
  cache.modules.find? fun m => m.path = path

/-- The number of modules. -/
def size (cache : Cache) : Nat := cache.modules.length

/-- Whether the file of a path has been read. -/
def contains (cache : Cache) (tree : Tree) (path : Path) : Bool :=
  (cache.find? (path.resolve tree.home)).isSome

end Cache

/-- A step of a run: it may fail, and what it has read stays read. -/
abbrev Resolving (α : Type) := ExceptT Failure (StateM Cache) α

/-- Fails with a contract error. -/
def reject {α : Type} (error : ContractError) : Resolving α := throw (.contract error)

/-- The module of a path, read on first use. -/
def getModule (tree : Tree) (path : Path) : Resolving Module := do
  let path := path.resolve tree.home
  match (← get).find? path with
  | some m => return m
  | none =>
      match tree.readText path with
      | .error fault => reject (.unreadableModule path (.unreadable fault))
      | .ok text =>
          let m := Module.ofText path text
          modify fun cache => ⟨cache.modules ++ [m]⟩
          return m

end PluginContract.Resolution

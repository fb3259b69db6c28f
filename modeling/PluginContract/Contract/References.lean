import PluginContract.Loading.Strategy
import PluginContract.Resolution.Reference

/-! # The values of references

References are grouped by module, so each module is loaded once, with all names that are wanted from
it. The values come back in the order of the references. -/

namespace PluginContract.Contract
open Files Resolution

/-- Modules with the names wanted from each, both in order of first appearance. -/
abbrev Wanted := List (Path × List String)

/-- The wanted names with one more. -/
def Wanted.add : Wanted → Reference → Wanted
  | [], r => [(r.module, [r.exported])]
  | (path, names) :: rest, r =>
      if path = r.module then
        (path, if names.contains r.exported then names else names ++ [r.exported]) :: rest
      else (path, names) :: Wanted.add rest r

/-- The names wanted by some references. -/
def Wanted.of (references : List Reference) : Wanted := references.foldl Wanted.add []

/-- What the loader is asked for: the exports of a module with some names. -/
abbrev Loader (μ : Type → Type) := Path → List String → μ (Except Failure (Entries Json))

/-- Loads modules one after the other, up to the first failure. -/
def loadAll {μ : Type → Type} [Monad μ] (loader : Loader μ) :
    Wanted → μ (Except Failure (List (Path × Entries Json)))
  | [] => return .ok []
  | (path, names) :: rest => do
      match ← loader path names with
      | .error failure => return .error failure
      | .ok exports =>
          match ← loadAll loader rest with
          | .error failure => return .error failure
          | .ok loaded => return .ok ((path, exports) :: loaded)

/-- The value of a reference among loaded modules. -/
def valueOf (loaded : List (Path × Entries Json)) (r : Reference) : Except Failure Json :=
  match (loaded.find? fun entry => entry.1 = r.module).bind fun entry => entry.2.get? r.exported with
  | some value => .ok value
  | none => .error (.contract (.missingExport r.module r.exported r.source))

/-- The values of references, in order. -/
def loadReferences {μ : Type → Type} [Monad μ] (loader : Loader μ) (references : List Reference) :
    μ (Except Failure (List Json)) := do
  match ← loadAll loader (Wanted.of references) with
  | .error failure => return .error failure
  | .ok loaded => return references.mapM (valueOf loaded)

end PluginContract.Contract

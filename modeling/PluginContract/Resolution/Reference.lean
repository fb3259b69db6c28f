import PluginContract.Resolution.Project
import PluginContract.Script.Expression
import PluginContract.Source.Module

/-! # References to exported values

An expression refers to an export of a module: through a member of a namespace import, a named
import, a default import, or as a name of the module itself, which counts under its public name. -/

namespace PluginContract.Resolution
open Text Files Script Source

/-- An export of a module, and the expression that refers to it. -/
structure Reference where
  module : Path
  exported : String
  source : String
deriving DecidableEq, Repr

/-- The two names in `namespace.member`. -/
def member? (e : List Char) : Option (List Char × List Char) :=
  match name? e with
  | none => none
  | some (space, rest) =>
      match trimStart rest with
      | '.' :: rest =>
          let member := trimStart rest
          if isName member then some (space, member) else none
      | _ => none

/-- The public name of a local one: the first name that it is exported under, or its own. -/
def publicName (exports : Entries String) (name : String) : String :=
  match exports.find? fun entry => entry.2 == name with
  | some entry => entry.1
  | none => name

/-- The export that an expression in a module refers to. -/
def Project.reference (project : Project) (tree : Tree) (expression : List Char) (m : Module) :
    Except Failure Reference :=
  let source := String.ofList (trim expression)
  let e := stripAssertions expression
  let shown := String.ofList e
  let reject (error : ContractError) : Except Failure Reference := .error (.contract error)
  let through (specifier exported : String) : Except Failure Reference :=
    (project.require tree m.path specifier).map fun path => ⟨path, exported, source⟩
  match member? e with
  | some (space, member) =>
      let name := String.ofList space
      match m.imports.namespaces.get? name with
      | none => reject (.notNamespace shown m.path name)
      | some specifier => through specifier (String.ofList member)
  | none =>
      if !isName e then reject (.unsupportedReference source m.path)
      else
        match m.imports.named.get? shown with
        | some imported => through imported.source imported.exported
        | none =>
            match m.imports.defaults.get? shown with
            | some specifier => through specifier "default"
            | none =>
                if m.imports.namespaces.has shown then reject (.wholeNamespace shown m.path)
                else .ok ⟨m.path, publicName m.localExports shown, source⟩

end PluginContract.Resolution

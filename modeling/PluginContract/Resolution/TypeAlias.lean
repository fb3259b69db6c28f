import PluginContract.Resolution.Cache
import PluginContract.Resolution.Project

/-! # Finding the declaration of a type alias

A name is looked for among the aliases that a module declares, its named imports, its named
re-exports, its local exports under other names, and then through each star re-export in turn, where
the first success counts. The steps taken so far are kept: a step that comes again is a cycle, and
their number is bounded. -/

namespace PluginContract.Resolution
open Files Source

/-- A step of a search: the module and the name looked for in it. -/
abbrev Link := Path × String

/-- The declaration of a type alias, with the steps that led to it. -/
structure AliasDeclaration where
  name : String
  module : Module
  body : List Char
  seen : List Link

/-- The most steps that a search takes. -/
def stepLimit : Nat := 64

/-- The first success of a search among alternatives. An alternative that finds nothing is passed
over; a cycle or an outside failure ends the search. -/
def firstSuccess {α β : Type} (search : α → Resolving (Option β)) :
    List α → Resolving (Option β)
  | [] => return none
  | a :: rest => do
      match ← search a with
      | some b => return some b
      | none => firstSuccess search rest

/-- Runs a search; an error of kind `resolution` means that nothing is found. -/
def orNothing {α : Type} (search : Resolving α) : Resolving (Option α) :=
  tryCatch (some <$> search) fun
    | .contract error => if error.kind = .resolution then return none else throw (.contract error)
    | failure => throw failure

/-- Looks for the declaration of a type alias with so many steps left of a limit. -/
def Project.searchAlias (project : Project) (tree : Tree) (limit : Nat) :
    (steps : Nat) → (name : String) → (m : Module) → (seen : List Link) → Resolving AliasDeclaration
  | steps, name, m, seen =>
      let link : Link := (m.path, name)
      if seen.contains link then reject (.cycle (seen ++ [link]))
      else
        match steps with
        | 0 => reject (.tooDeep name limit m.path)
        | steps + 1 =>
            let seen := seen ++ [link]
            let through (specifier other : String) : Resolving AliasDeclaration := do
              let path ← liftExcept (project.require tree m.path specifier)
              let target ← getModule tree path
              project.searchAlias tree limit steps other target seen
            let throughStar (specifier : String) : Resolving (Option AliasDeclaration) := do
              match ← liftExcept (project.find? tree m.path specifier) with
              | none => return none
              | some path => orNothing do
                  let target ← getModule tree path
                  project.searchAlias tree limit steps name target seen
            let throughStars : Resolving AliasDeclaration := do
              match ← firstSuccess throughStar m.reexports.stars with
              | some found => return found
              | none => reject (.aliasNotFound name m.path)
            match m.typeAliases.get? name with
            | some body => return ⟨name, m, body, seen⟩
            | none =>
                match m.imports.named.get? name with
                | some imported => through imported.source imported.exported
                | none =>
                    match m.reexports.named.get? name with
                    | some ⟨source, .name other⟩ => through source other
                    | _ =>
                        match m.localExports.get? name with
                        | some other =>
                            if other = name then throughStars
                            else project.searchAlias tree limit steps other m seen
                        | none => throughStars
where
  /-- A step that reads nothing. -/
  liftExcept {α : Type} (e : Except Failure α) : Resolving α :=
    match e with
    | .ok a => return a
    | .error failure => throw failure

/-- The declaration of a type alias that is visible in a module. -/
def Project.findAlias (project : Project) (tree : Tree) (name : String) (m : Module)
    (seen : List Link) : Resolving AliasDeclaration :=
  project.searchAlias tree stepLimit (stepLimit - seen.length) name m seen

end PluginContract.Resolution

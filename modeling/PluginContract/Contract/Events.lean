import PluginContract.Resolution.TypeAlias
import PluginContract.Script.Expression

/-! # Supported events

The type of the supported events is reduced to its string literals: a union holds them itself, and a
name is followed to the alias that declares it. Events can be excluded by name, but never all of
them. -/

namespace PluginContract.Contract
open Text Files Script Source Resolution

/-- Reduces a type expression to its string literals, following at most so many names. -/
def eventsWithin (project : Project) (tree : Tree) :
    (names : Nat) → (expression : List Char) → (m : Module) → (seen : List Link) →
      Resolving (List String)
  | names, expression, m, seen =>
      let e := stripParens expression
      let literals := stringLiterals e
      if !literals.isEmpty then return distinct (literals.map String.ofList)
      else if isName e then
        match names with
        | 0 => reject (.tooDeep (String.ofList e) stepLimit m.path)
        | names + 1 => do
            let found ← project.findAlias tree (String.ofList e) m seen
            eventsWithin project tree names found.body found.module found.seen
      else reject (.eventsNotLiterals (String.ofList e) m.path)

/-- The events that a type expression in a module stands for. Each name that is followed adds a
step to the search, so the bound on steps also bounds the names. -/
def resolveEvents (project : Project) (tree : Tree) (expression : List Char) (m : Module)
    (seen : List Link) : Resolving (List String) :=
  eventsWithin project tree (stepLimit + 1) expression m seen

/-- The names in a list of exclusions: trimmed, without empty ones and without repetitions. -/
def exclusionNames (items : List String) : List String :=
  distinct <| (items.map fun item => String.ofList (trim item.toList)).filter (· != "")

/-- The names in a list of exclusions that is written with commas. -/
def readExclusions (written : String) : List String :=
  exclusionNames ((fields ',' written.toList).map String.ofList)

/-- How exclusions are given: not at all, written with commas, or as a list of items. -/
inductive Exclusions
  | none
  | written (text : String)
  | listed (items : List String)
deriving DecidableEq, Repr

/-- The names of the excluded events. -/
def Exclusions.names : Exclusions → List String
  | .none => []
  | .written text => readExclusions text
  | .listed items => exclusionNames items

/-- The events that remain; excluding an unknown event or all events is an error. -/
def applyExclusions (events excluded : List String) : Except ContractError (List String) :=
  let unknown := excluded.filter fun event => !events.contains event
  let remaining := events.filter fun event => !excluded.contains event
  if !unknown.isEmpty then .error (.unknownExcludedEvents unknown events)
  else if remaining.isEmpty then .error (.noEventsLeft excluded)
  else .ok remaining

end PluginContract.Contract

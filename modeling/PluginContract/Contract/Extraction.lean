import PluginContract.Contract.Command
import PluginContract.Contract.Events
import PluginContract.Contract.References
import PluginContract.Entrypoint.Discovery
import PluginContract.Entrypoint.Selection

/-! # Extracting a contract

A run first settles everything that the sources tell: the entrypoint, the references to its schemas
and the supported events. Only then are the referenced modules loaded. -/

namespace PluginContract.Contract
open Files Source Resolution Entrypoint

/-- What the sources of a plugin tell about its contract. -/
structure Plan where
  entrypoint : Callsite
  settings : Reference
  command : Option Reference
  events : List String
deriving DecidableEq, Repr

/-- A contract with the values of its schemas. -/
structure Metadata where
  entrypoint : Callsite
  settingsSchema : Json
  /-- `null` if there is none. -/
  commandSchema : Json
  /-- Whether the sources say that there are no commands. -/
  allowMissingCommands : Bool
  events : List String
  excluded : List String

/-- The entrypoint of a project. -/
def locateEntrypoint (project : Project) (tree : Tree) : Resolving Callsite :=
  locate tree (discover tree project.root)

/-- The reference to the settings schema of an entrypoint. -/
def resolveSettings (project : Project) (tree : Tree) (c : Callsite) : Resolving Reference := do
  let literal ← optionsObject tree c
  let value := ((literal.get? settingsProperty.toList).map Script.Property.value).getD []
  match project.reference tree value (← getModule tree c.file) with
  | .ok reference => return reference
  | .error failure => throw failure

/-- Settles what the sources tell. -/
def makePlan (project : Project) (tree : Tree) (excluded : List String) : Resolving Plan := do
  let c ← locateEntrypoint project tree
  let m ← getModule tree c.file
  let settings ← resolveSettings project tree c
  let command ← resolveCommand project tree (c.commandType?.getD []) m
  let events ← resolveEvents project tree (c.eventsType?.getD []) m []
  match applyExclusions events excluded with
  | .error error => reject error
  | .ok events => return { entrypoint := c, settings, command, events }

/-- The plan of the project at a root directory, made with an empty cache. -/
def planAt (tree : Tree) (root : Path) (excluded : List String) : Except Failure Plan := do
  let project ← Project.ofRoot tree root
  ((makePlan project tree excluded).run .empty).1

/-- Loads the schemas of a plan. -/
def Plan.load {μ : Type → Type} [Monad μ] (plan : Plan) (loader : Loader μ)
    (excluded : List String) : μ (Except Failure Metadata) := do
  match ← loadReferences loader (plan.settings :: plan.command.toList) with
  | .error failure => return .error failure
  | .ok values =>
      return .ok
        { entrypoint := plan.entrypoint
          settingsSchema := values.head?.getD .null
          commandSchema := values[1]?.getD .null
          allowMissingCommands := plan.command.isNone
          events := plan.events
          excluded }

/-- Extracts the contract of the project at a root directory. -/
def extract {μ : Type → Type} [Monad μ] (tree : Tree) (root : Path) (excluded : List String)
    (loader : Loader μ) : μ (Except Failure Metadata) :=
  match planAt tree root excluded with
  | .error failure => return .error failure
  | .ok plan => plan.load loader excluded

/-- A contract as a JSON object; a command schema that is `null` is left out. -/
def Metadata.toJson (d : Metadata) : Json :=
  let entrypoint : Entries Json :=
    [("functionName", .str d.entrypoint.function), ("filePath", .str d.entrypoint.file.toString),
      ("offset", .int d.entrypoint.offset)]
  let command : Entries Json :=
    match d.commandSchema with
    | .null => []
    | schema => [("commandSchema", schema)]
  .obj <|
    [("settingsSchema", d.settingsSchema),
      ("allowMissingCommandSchema", .bool d.allowMissingCommands),
      ("supportedEvents", .arr (d.events.map .str)),
      ("excludedSupportedEvents", .arr (d.excluded.map .str))] ++
    command ++ [("entrypoint", .obj entrypoint)]

end PluginContract.Contract

import PluginContract.Loading.Failure

/-! # Errors

A contract error is a fault of the plugin's sources that its author has to mend. The other failures
come from surroundings of an odd shape: a configuration file that is not text, holds values of the wrong
form or an integer of too many digits, a path without a name or one that the system does not follow,
a strategy that cannot run at all. -/

namespace PluginContract
open Files Loading

/-- The kinds of contract errors. -/
inductive ContractKind
  | entrypointNotFound
  | ambiguousEntrypoint
  | incompleteGenerics
  | missingSettingsSchema
  | resolution
  | cycle
  | commandContract
  | supportedEvents
  | unknownExcludedEvent
  | moduleLoad
deriving DecidableEq, Repr

/-- Why the options of an entrypoint give no settings schema. -/
inductive OptionsFault
  | noArgument (position : Nat)
  | notLiteral
  | noProperty (hasSpreads : Bool)
deriving DecidableEq, Repr

/-- A fault of a plugin's sources. -/
inductive ContractError
  | entrypointNotFound (files : Nat)
  | ambiguousEntrypoint (function : String) (locations : List String)
  | incompleteGenerics (function location : String) (count : Nat)
  | missingSettingsSchema (function location : String) (fault : OptionsFault)
  | unreadableModule (path : Path) (cause : Cause)
  | unresolvedModule (specifier : String) (importer : Path)
  | notNamespace (expression : String) (module : Path) (name : String)
  | unsupportedReference (expression : String) (module : Path)
  | wholeNamespace (expression : String) (module : Path)
  | aliasNotFound (name : String) (module : Path)
  | tooDeep (name : String) (limit : Nat) (module : Path)
  | cycle (chain : List (Path × String))
  | commandNotName (expression : String) (module : Path)
  | commandNotStatic (name : String) (module : Path) (body : String)
  | eventsNotLiterals (expression : String) (module : Path)
  | noEventsLeft (excluded : List String)
  | unknownExcludedEvents (unknown supported : List String)
  | loadFailed (module : Path) (failures : List (String × StrategyFailure))
  | missingExport (module : Path) (name source : String)
deriving DecidableEq, Repr

namespace ContractError

/-- The kind of a contract error. -/
def kind : ContractError → ContractKind
  | entrypointNotFound _ => .entrypointNotFound
  | ambiguousEntrypoint .. => .ambiguousEntrypoint
  | incompleteGenerics .. => .incompleteGenerics
  | missingSettingsSchema .. => .missingSettingsSchema
  | unreadableModule .. | unresolvedModule .. | notNamespace .. | unsupportedReference ..
  | wholeNamespace .. | aliasNotFound .. | tooDeep .. => .resolution
  | cycle _ => .cycle
  | commandNotName .. | commandNotStatic .. => .commandContract
  | eventsNotLiterals .. | noEventsLeft _ => .supportedEvents
  | unknownExcludedEvents .. => .unknownExcludedEvent
  | loadFailed .. | missingExport .. => .moduleLoad

/-- Items with a comma and a space between them. -/
def listed (items : List String) : String := ", ".intercalate items

/-- The message for an options fault. -/
def optionsMessage (function location : String) : OptionsFault → String
  | .noArgument position =>
      s!"{function} at {location} has no options argument (expected at position {position})"
  | .notLiteral => s!"Options of {function} at {location} must be an inline object literal"
  | .noProperty hasSpreads =>
      s!"Options of {function} at {location} have no direct 'settingsSchema' property" ++
        if hasSpreads then " (spread properties are not followed)" else ""

/-- The message for the failures of all strategies. -/
def failuresMessage (wording : Wording) (failures : List (String × StrategyFailure)) : String :=
  if failures.isEmpty then "  - no loader strategies configured"
  else "\n".intercalate <| failures.map fun f => s!"  - [{f.1}] {f.2.message wording}"

/-- The message for a contract error. -/
def message (wording : Wording) : ContractError → String
  | entrypointNotFound files =>
      "No createPlugin<...>(...) or createActionsPlugin<...>(...) call with explicit generic " ++
        s!"arguments found in {files} source file(s)"
  | ambiguousEntrypoint function locations =>
      s!"Found {locations.length} '{function}<...>(...)' callsites, expected exactly one: " ++
        listed locations
  | incompleteGenerics function location count =>
      s!"{function} at {location} declares {count} generic argument(s); " ++
        "expected <Config, Env, Command, SupportedEvents>"
  | missingSettingsSchema function location fault => optionsMessage function location fault
  | unreadableModule path cause => s!"Cannot read source module {path}: {wording cause}"
  | unresolvedModule specifier importer =>
      s!"Cannot resolve module '{specifier}' imported from {importer}"
  | notNamespace expression module name =>
      s!"'{expression}' in {module}: '{name}' is not a namespace import"
  | unsupportedReference expression module =>
      s!"Unsupported reference expression '{expression}' in {module}; " ++
        "expected an identifier or a namespace member"
  | wholeNamespace expression module =>
      s!"'{expression}' in {module} is a whole namespace import, not an exported value"
  | aliasNotFound name module => s!"Type alias '{name}' not found from {module}"
  | tooDeep name limit module =>
      s!"Resolution of type '{name}' exceeded {limit} steps at {module}"
  | cycle chain =>
      "Cycle detected while resolving: " ++
        " -> ".intercalate (chain.map fun link => s!"{link.1}#{link.2}")
  | commandNotName expression module =>
      s!"Command type '{expression}' in {module} must be null or the name of a " ++
        "Static<typeof schema> alias"
  | commandNotStatic name module body =>
      s!"Type '{name}' in {module} is '{body}'; " ++
        "expected Static<typeof schema> or StaticDecode<typeof schema>"
  | eventsNotLiterals expression module =>
      s!"Cannot reduce supported events type '{expression}' in {module}; " ++
        "use a union of string literals or an alias of one"
  | noEventsLeft excluded => s!"Excluding {listed excluded} leaves no supported events"
  | unknownExcludedEvents unknown supported =>
      s!"Cannot exclude unknown event(s) {listed unknown}; " ++
        s!"supported events are: {listed supported}"
  | loadFailed module failures =>
      s!"Failed to load module {module}:\n" ++ failuresMessage wording failures
  | missingExport module name source =>
      s!"Module {module} loaded but has no export '{name}' (referenced as '{source}')"

end ContractError

/-- How a table of path aliases can be of the wrong form. -/
inductive AliasFault
  /-- The compiler options are no object. -/
  | optionsNotObject
  /-- The first target of an alias is no string. -/
  | targetNotText
  /-- The targets of an alias are a single number or truth value. -/
  | targetsNotList
  /-- The targets of an alias are an object. -/
  | targetsKeyed
deriving DecidableEq, Repr

/-- Everything that a run can fail with. -/
inductive Failure
  | contract (error : ContractError)
  | undecodable (fault : Text.Utf8.Fault)
  | longInteger (digits : Nat)
  | malformedAliases (fault : AliasFault)
  /-- Extensions were to be tried on a path that has no name. -/
  | pathWithoutName
  | refusedPath (fault : PathFault)
  /-- A strategy has no way to run a module. -/
  | strategyUnavailable
deriving DecidableEq, Repr

/-- Whether a failure is a contract error. -/
def Failure.isContract : Failure → Bool
  | .contract _ => true
  | _ => false

end PluginContract

import PluginContract.Manifest.BotEvents
import PluginContract.Manifest.Commands
import PluginContract.Manifest.Listeners
import PluginContract.Manifest.Schema
import PluginContract.Text.Pieces

/-! # Assembling a manifest

A new manifest starts from the existing one. Every field that the plugin settles is put into it; a
field that cannot be settled keeps what it has, and a warning says why. Known fields come first, in
a fixed order. -/

namespace PluginContract.Manifest
open Text

/-- The key of the listeners. -/
def listenersKey : String := "ubiquity:listeners"

/-- The known fields, in their order. -/
def fieldOrder : List String :=
  ["name", "short_name", "description", "commands", listenersKey, "skipBotEvents",
    "configuration", "homepage_url"]

/-- Known fields in their order, then all others as they came. -/
def orderFields (manifest : Entries Json) : Entries Json :=
  (fieldOrder.filterMap fun key => (Entries.get? manifest key).map fun value => (key, value)) ++
    manifest.filter fun entry => !fieldOrder.contains entry.1

/-- Where a plugin is released. -/
structure Release where
  repository : String
  refName : String
deriving DecidableEq, Repr

/-- The short name of a release. -/
def Release.shortName (r : Release) : String := s!"{r.repository}@{r.refName}"

/-- What a plugin says about its manifest; `null` stands for what it does not say. -/
structure Settled where
  settingsSchema : Json
  commandSchema : Json
  events : Json
  skipBotEvents : Json
  /-- Whether a missing command schema is intended. -/
  commandsOptional : Bool

/-- Why a field was not settled. -/
inductive Warning
  /-- The package says nothing about a field, and the existing value stays. -/
  | keptFromManifest (key : String) (value : Json)
  /-- Neither the package nor the existing manifest says anything about a field. -/
  | absent (key : String)
  | noCommandSchema
  | invalidUnion (message : String)
  | invalidCommands (fault : CommandFault)
  | noEvents
  | invalidEvents (fault : ListenerFault)
  | flag (fault : FlagFault)
  | noSettingsSchema

namespace Warning

/-- The field that a warning is about. -/
def field : Warning → String
  | keptFromManifest key _ | absent key => key
  | noCommandSchema | invalidUnion _ | invalidCommands _ => "commands"
  | noEvents | invalidEvents _ => listenersKey
  | flag _ => "skipBotEvents"
  | noSettingsSchema => "configuration"

/-- The message for a warning. -/
def message : Warning → String
  | keptFromManifest key value =>
      s!"manifest.{key}: no \"{key}\" found in package.json. " ++
        s!"Keeping existing manifest value: {value.display}"
  | absent key =>
      s!"manifest.{key}: no \"{key}\" found in package.json and no existing value in " ++
        "manifest.json. Field will be absent."
  | noCommandSchema =>
      "manifest.commands: no \"commandSchema\" export found in schema module. " ++
        "Field will not be auto-generated."
  | invalidUnion message =>
      s!"manifest.commands: commandSchema could not be converted: {message}. Skipping."
  | invalidCommands fault => s!"manifest.commands: {fault.message}. Skipping."
  | noEvents =>
      s!"manifest[\"{listenersKey}\"]: no SupportedEvents type found. " ++
        "Field will not be auto-generated."
  | invalidEvents fault =>
      s!"manifest[\"{listenersKey}\"]: SupportedEvents type found but invalid: " ++
        s!"{fault.message}. Skipping."
  | flag fault => fault.message
  | noSettingsSchema =>
      "manifest.configuration: no \"pluginSettingsSchema\" export found in schema module. " ++
        "Configuration will not be auto-generated."

end Warning

/-- A manifest with the warnings about it. -/
abbrev Draft := Entries Json × List Warning

/-- A text of a package that is not blank. -/
def packageText? (package : Entries Json) (key : String) : Option String :=
  match Json.field package key with
  | .str value => if (trim value.toList).isEmpty then none else some value
  | _ => none

/-- Settles a field from the package. -/
def settleText (package : Entries Json) (key : String) (manifest : Entries Json) : Draft :=
  match packageText? package key with
  | some value => (Entries.put manifest key (.str value), [])
  | none =>
      let existing := Json.field manifest key
      if existing.isGiven then (manifest, [.keptFromManifest key existing])
      else (Entries.remove manifest key, [.absent key])

/-- Settles the commands from a map of commands or a union. -/
def settleCommands (schema : Json) (optional : Bool) (manifest : Entries Json) : Draft :=
  match schema with
  | .null => (manifest, if optional then [] else [.noCommandSchema])
  | schema =>
      match commandFault? schema with
      | none => (Entries.put manifest "commands" schema, [])
      | some fault =>
          if (variants? schema).isNone then (manifest, [.invalidCommands fault])
          else
            match convertUnion schema (Json.field manifest "commands") with
            | .ok commands => (Entries.put manifest "commands" (.obj commands), [])
            | .error message => (manifest, [.invalidUnion message])

/-- Settles the listeners from the supported events. -/
def settleListeners (events : Json) (manifest : Entries Json) : Draft :=
  match events with
  | .null => (manifest, [.noEvents])
  | events =>
      match listenerFault? events with
      | some fault => (manifest, [.invalidEvents fault])
      | none => (Entries.put manifest listenersKey events, [])

/-- Settles the flag for events of bots. -/
def settleFlag (flag : Json) (manifest : Entries Json) : Draft :=
  let (value, fault) := readFlag flag
  (Entries.put manifest "skipBotEvents" (.bool value), fault.toList.map .flag)

/-- Settles the configuration from the settings schema; there is no result if the schema cannot be
relaxed. -/
def settleConfiguration? (schema : Json) (manifest : Entries Json) : Option Draft :=
  match schema with
  | .null => some (manifest, [.noSettingsSchema])
  | schema => (relax? schema).map fun relaxed => (Entries.put manifest "configuration" relaxed, [])

/-- The manifest that follows an existing one, with all warnings; there is no result if the
settings schema cannot be relaxed. -/
def assemble? (existing package : Entries Json) (release : Release) (settled : Settled) :
    Option Draft := do
  let (manifest, aboutName) := settleText package "name" existing
  let manifest := Entries.put manifest "short_name" (.str release.shortName)
  let (manifest, aboutDescription) := settleText package "description" manifest
  let (manifest, aboutCommands) :=
    settleCommands settled.commandSchema settled.commandsOptional manifest
  let (manifest, aboutListeners) := settleListeners settled.events manifest
  let (manifest, aboutFlag) := settleFlag settled.skipBotEvents manifest
  let (manifest, aboutConfiguration) ← settleConfiguration? settled.settingsSchema manifest
  return (orderFields manifest,
    aboutName ++ aboutDescription ++ aboutCommands ++ aboutListeners ++ aboutFlag ++
      aboutConfiguration)

/-- What a plugin says about its manifest, in values of any form. -/
def Settled.ofValues (settingsSchema commandSchema events skipBotEvents optional : Json) : Settled :=
  { settingsSchema, commandSchema, events, skipBotEvents, commandsOptional := optional.isGiven }

/-- The manifest that follows existing values of any form. An existing manifest or a package that is
no object counts as empty. -/
def assembleValues? (existing package : Json) (release : Release) (settled : Settled) :
    Option Draft :=
  assemble? (existing.fields?.getD []) (package.fields?.getD []) release settled

end PluginContract.Manifest

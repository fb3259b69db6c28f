import PluginContract.Entrypoint.Callsite
import PluginContract.Resolution.Cache
import PluginContract.Script.ObjectLiteral

/-! # The entrypoint of a plugin

A plugin declares its contract by exactly one call of the preferred function, or by exactly one call
of the other function if the preferred one is never called. The call needs four type arguments and
an options object that spells out its settings schema. -/

namespace PluginContract.Entrypoint
open Text Files Script Source Resolution

/-- The function that decides if it is called at all. -/
def preferred : String := "createPlugin"

/-- The function that counts if the preferred one is never called. -/
def alternative : String := "createActionsPlugin"

/-- The place of the options among the arguments of a function. -/
def optionsIndex? (function : String) : Option Nat :=
  if function = preferred then some 2 else if function = alternative then some 1 else none

/-- The number of type arguments of a full contract. -/
def typeArgumentCount : Nat := 4

/-- The property that holds the settings schema. -/
def settingsProperty : String := "settingsSchema"

namespace Callsite

/-- The type of the configuration. -/
def configType? (c : Callsite) : Option (List Char) := c.typeArguments[0]?

/-- The type of the environment. -/
def envType? (c : Callsite) : Option (List Char) := c.typeArguments[1]?

/-- The type of the commands. -/
def commandType? (c : Callsite) : Option (List Char) := c.typeArguments[2]?

/-- The type of the supported events. -/
def eventsType? (c : Callsite) : Option (List Char) := c.typeArguments[3]?

/-- The options argument. -/
def options? (c : Callsite) : Option (List Char) :=
  (optionsIndex? c.function).bind fun index => c.arguments[index]?

end Callsite

/-- The calls of a function in files, in the order of the files. -/
def collect (tree : Tree) (function : String) : List Path → Resolving (List Callsite)
  | [] => return []
  | file :: rest => do
      let m ← getModule tree file
      let others ← collect tree function rest
      return callsites m function ++ others

/-- The place of a callsite, for messages. -/
def locationOf (tree : Tree) (c : Callsite) : Resolving String := do
  return (← getModule tree c.file).location c.offset

/-- The decision that the calls of one function allow; none if there are none. -/
def decide? (tree : Tree) (function : String) : List Callsite → Resolving (Option Callsite)
  | [] => return none
  | [c] => do
      if c.typeArguments.length < typeArgumentCount then
        reject (.incompleteGenerics function (← locationOf tree c) c.typeArguments.length)
      else return some c
  | calls => do reject (.ambiguousEntrypoint function (← calls.mapM (locationOf tree)))

/-- The entrypoint among the calls in some files. -/
def locate (tree : Tree) (files : List Path) : Resolving Callsite := do
  match ← decide? tree preferred (← collect tree preferred files) with
  | some c => return c
  | none =>
      match ← decide? tree alternative (← collect tree alternative files) with
      | some c => return c
      | none => reject (.entrypointNotFound files.length)

/-- The options object of an entrypoint, which has to spell out the settings schema. -/
def optionsObject (tree : Tree) (c : Callsite) : Resolving ObjectLiteral := do
  let location ← locationOf tree c
  let missing (fault : OptionsFault) : Resolving ObjectLiteral :=
    reject (.missingSettingsSchema c.function location fault)
  match c.options? with
  | none => missing (.noArgument ((optionsIndex? c.function).getD 0 + 1))
  | some expression =>
      match ObjectLiteral.read? expression with
      | none => missing .notLiteral
      | some literal =>
          if literal.has settingsProperty.toList then return literal
          else missing (.noProperty !literal.spreads.isEmpty)

end PluginContract.Entrypoint

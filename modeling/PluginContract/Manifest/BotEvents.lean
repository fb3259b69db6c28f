import PluginContract.Json.Value
import PluginContract.Text.Pieces

/-! # Whether events of bots are skipped

The flag is a truth value or one of a few words for it. Anything else counts as true and gives a
warning, except that a missing or blank flag is simply true. -/

namespace PluginContract.Manifest
open Text

/-- Why a flag is not understood. -/
inductive FlagFault
  | unrecognized (value : String)
  | notText (typeName : String)
deriving DecidableEq, Repr

/-- The message for a flag that is not understood. -/
def FlagFault.message : FlagFault → String
  | unrecognized value =>
      s!"manifest.skipBotEvents: unrecognized value \"{value}\" (expected boolean). " ++
        "Using default true."
  | notText typeName =>
      s!"manifest.skipBotEvents: invalid type \"{typeName}\" (expected boolean). " ++
        "Using default true."

/-- The words for true. -/
def trueWords : List String := ["true", "1", "yes", "on"]

/-- The words for false. -/
def falseWords : List String := ["false", "0", "no", "off"]

/-- The flag that a text writes, without regard to blanks around it and to capitals. All words are
ASCII, and no character beyond ASCII has one of their letters as its small form. -/
def flagOfText (written : String) : Bool × Option FlagFault :=
  let word := String.ofList (lower (trim written.toList))
  if word = "" || trueWords.contains word then (true, none)
  else if falseWords.contains word then (false, none)
  else (true, some (.unrecognized written))

/-- The flag that a value stands for, and what is wrong with the value. -/
def readFlag : Json → Bool × Option FlagFault
  | .bool value => (value, none)
  | .null => (true, none)
  | .str written => flagOfText written
  | v => (true, some (.notText v.typeName))

end PluginContract.Manifest

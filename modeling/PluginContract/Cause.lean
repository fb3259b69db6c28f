import PluginContract.Files.Tree

/-! # Causes from outside

Some messages end in a cause that the surroundings report: why a file could not be read or why a
text is not JSON. A wording turns causes into text. -/

namespace PluginContract
open Files

/-- Why an outside step failed. -/
inductive Cause
  | unreadable (fault : ReadFault)
  | notJson
deriving DecidableEq, Repr

/-- How causes are worded. -/
abbrev Wording := Cause → String

/-- The usual words for a cause. -/
def Cause.describe : Wording
  | .unreadable .missing => "no such file"
  | .unreadable .isDirectory => "is a directory"
  | .unreadable (.refused .null) => "null character in path"
  | .unreadable (.refused .tooLong) => "file name too long"
  | .unreadable (.notText fault) => fault.describe
  | .notJson => "not a JSON text"

end PluginContract

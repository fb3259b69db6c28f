import PluginContract.Text.Pieces

/-! # What a crash says

A runtime that fails prints more than the reason. The first line that starts with the name of an
error explains the crash; without one the last lines are kept. Version banners never count. -/

namespace PluginContract.Loading
open Text

/-- The version line that a runtime prints after an uncaught error. -/
def isBanner (line : List Char) : Bool :=
  let versionFollows (rest : List Char) : Bool :=
    match rest with
    | 'v' :: c :: _ => isDecimal c
    | c :: _ => isDecimal c
    | [] => false
  ((after? "Node.js ".toList line).any versionFollows) ||
    ((after? "Deno ".toList line).any versionFollows)

/-- A line that starts with the name of an error or with `error:`. -/
def isErrorLine (line : List Char) : Bool :=
  let name := line.takeWhile isWord
  "Error".toList.isSuffixOf name || "Exception".toList.isSuffixOf name ||
    "error:".toList.isPrefixOf line

/-- The lines that can explain a crash. -/
def tellingLines (output : List Char) : List (List Char) :=
  ((lines output).map trim).filter fun line => !line.isEmpty && !isBanner line

/-- The explanation of a crash in what a runtime printed. -/
def summary (output : List Char) : String :=
  match tellingLines output with
  | [] => "no stderr output"
  | telling =>
      match telling.find? isErrorLine with
      | some line => String.ofList line
      | none => " | ".intercalate ((telling.drop (telling.length - 3)).map String.ofList)

end PluginContract.Loading

import PluginContract.Cause
import PluginContract.Json.Reader

/-! # Export payloads

A runtime prints the exports of a module as one JSON object right after a marker. The last line
with a marker counts, so whatever else a plugin prints does not matter. -/

namespace PluginContract.Loading
open Text

/-- The mark before a payload. -/
def marker : String := "__MANIFEST_SYNC_EXPORTS__"

/-- Why output holds no payload. -/
inductive PayloadFault
  | noMarker
  | notJson
  | longInteger (digits : Nat)
  | notObject (typeName : String)
deriving DecidableEq, Repr

/-- The message for a payload fault. -/
def PayloadFault.message (wording : Wording) : PayloadFault → String
  | noMarker => s!"Loader output has no {marker} line"
  | notJson => s!"Invalid export payload after {marker}: {wording .notJson}"
  | longInteger digits => Json.longIntegerMessage digits
  | notObject typeName => s!"Export payload must be a JSON object, got {typeName}"

/-- The text after the first marker of a line. -/
def afterMarker? (line : List Char) : Option (List Char) :=
  (indexOf? marker.toList line).map fun offset => line.drop (offset + marker.length)

/-- The exports that a process printed. -/
def readPayload (output : List Char) : Except PayloadFault (Entries Json) :=
  match (lines output).reverse.findSome? afterMarker? with
  | none => .error .noMarker
  | some payload =>
      match Json.read? payload with
      | .error .malformed => .error .notJson
      | .error (.longInteger digits) => .error (.longInteger digits)
      | .ok (.obj fields) => .ok fields
      | .ok v => .error (.notObject v.typeName)

/-- The requested exports; a name that is missing is looked up in an object under `default`. -/
def pickExports (exports : Json) (names : List String) : Entries Json :=
  match exports with
  | .obj fields =>
      let fallback := (Json.field fields "default").fields?.getD []
      Entries.ofPairs <| names.filterMap fun name =>
        ((Entries.get? fields name).orElse fun _ => Entries.get? fallback name).map
          fun value => (name, value)
  | _ => []

end PluginContract.Loading

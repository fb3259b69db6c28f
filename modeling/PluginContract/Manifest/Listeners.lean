import PluginContract.Json.Display
import PluginContract.Text.Character

/-! # Webhook listeners

A listener is the name of an event and of an action with a point between them. -/

namespace PluginContract.Manifest
open Text

/-- Why a value is no list of listeners. -/
inductive ListenerFault
  | notArray
  | empty
  | malformed (listener : Json)

/-- The message for a fault in a list of listeners. -/
def ListenerFault.message : ListenerFault → String
  | notArray => "pluginListeners must be an array of webhook event strings"
  | empty => "the supported events array is empty"
  | malformed listener =>
      s!"Listener \"{listener.display}\" does not look like a valid webhook event " ++
        "(expected format: \"event.action\")"

/-- A character of an event's or an action's name. -/
def isEventChar (c : Char) : Bool := isWord c || c == '-'

/-- Whether a text is an action's name, which one line feed may follow. -/
def endsListener (t : List Char) : Bool :=
  let rest := t.dropWhile isEventChar
  !(t.takeWhile isEventChar).isEmpty && (rest.isEmpty || rest == ['\n'])

/-- Whether a text has the form of a listener. -/
def isListener (t : List Char) : Bool :=
  match t.takeWhile isEventChar, t.dropWhile isEventChar with
  | [], _ => false
  | _, '.' :: rest => endsListener rest
  | _, _ => false

/-- Whether a value is a string of the form of a listener. -/
def isListenerValue : Json → Bool
  | .str s => isListener s.toList
  | _ => false

/-- The first fault of a list of listeners. -/
def listenerFault? : Json → Option ListenerFault
  | .arr [] => some .empty
  | .arr listeners => (listeners.find? fun v => !isListenerValue v).map .malformed
  | _ => some .notArray

end PluginContract.Manifest

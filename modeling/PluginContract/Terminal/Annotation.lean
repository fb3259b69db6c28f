/-! # Annotations

An annotation is one line: the level between pairs of colons, and a message. The percent sign and
line ends of the message are written as percent escapes. -/

namespace PluginContract.Terminal

/-- How serious an annotation is. -/
inductive Level
  | debug
  | notice
  | warning
  | error
deriving DecidableEq, Repr

namespace Level

/-- The name of a level. -/
def name : Level → String
  | debug => "debug"
  | notice => "notice"
  | warning => "warning"
  | error => "error"

/-- The level of a name. -/
def ofName? : String → Option Level
  | "debug" => some debug
  | "notice" => some notice
  | "warning" => some warning
  | "error" => some error
  | _ => none

end Level

/-- The message for a name that no level has. -/
def unknownLevelMessage (name : String) : String := s!"Unknown annotation level: {name}"

/-- A character of a message as an annotation writes it. -/
def annotated (c : Char) : List Char :=
  if c = '%' then ['%', '2', '5']
  else if c = '\r' then ['%', '0', 'D']
  else if c = '\n' then ['%', '0', 'A']
  else [c]

/-- A message as an annotation writes it. -/
def annotatedText (message : List Char) : List Char := message.flatMap annotated

/-- An annotation. -/
def annotationLine (level : Level) (message : List Char) : List Char :=
  "::".toList ++ level.name.toList ++ "::".toList ++ annotatedText message

end PluginContract.Terminal

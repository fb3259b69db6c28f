import PluginContract.Files.Path

/-! # Command-line arguments

The first argument names a command. Options may stand anywhere after it: a long one takes its value
after an equals sign or as the next argument, a short one as the rest of the argument or as the next
one. After two hyphens everything is positional. -/

namespace PluginContract.CommandLine
open Files

/-- An option of a command. -/
structure Flag where
  long : String
  short : Option Char
  takesValue : Bool
deriving DecidableEq, Repr

/-- What a single argument is. -/
inductive Argument
  | positional
  | switch (flag : Flag)
  | valued (flag : Flag) (value : String)
  /-- The value of the option is the next argument. -/
  | awaiting (flag : Flag)
  | unknown
deriving DecidableEq, Repr

/-- Reads an argument that starts with two hyphens; the hyphens are left out. -/
def Argument.ofLong (flags : List Flag) (t : List Char) : Argument :=
  let value := t.dropWhile (· != '=')
  match flags.find? fun flag => flag.long.toList == t.takeWhile (· != '=') with
  | none => .unknown
  | some flag =>
      match flag.takesValue, value with
      | true, [] => .awaiting flag
      | true, _ :: value => .valued flag (String.ofList value)
      | false, [] => .switch flag
      | false, _ :: _ => .unknown

/-- Reads an argument that starts with a single hyphen and a letter. -/
def Argument.ofShort (flags : List Flag) (letter : Char) (rest : List Char) : Argument :=
  match flags.find? fun flag => flag.short == some letter && flag.takesValue with
  | none => .unknown
  | some flag => if rest.isEmpty then .awaiting flag else .valued flag (String.ofList rest)

/-- Reads an argument. -/
def Argument.read (flags : List Flag) (argument : String) : Argument :=
  match argument.toList with
  | '-' :: '-' :: name => .ofLong flags name
  | '-' :: letter :: rest => .ofShort flags letter rest
  | _ => .positional

/-- The arguments of a command: what stands alone, and the options that are given, the last one
first. A switch is given with an empty value. -/
structure Given where
  positional : List String
  options : List (String × String)
deriving DecidableEq, Repr

/-- Reads the arguments of a command after some others. -/
def Given.readFrom (flags : List Flag) : Given → List String → Option Given
  | given, [] => some given
  | given, argument :: rest =>
      if argument = "--" then some { given with positional := given.positional ++ rest }
      else
        match Argument.read flags argument with
        | .positional =>
            readFrom flags { given with positional := given.positional ++ [argument] } rest
        | .switch flag =>
            readFrom flags { given with options := (flag.long, "") :: given.options } rest
        | .valued flag value =>
            readFrom flags { given with options := (flag.long, value) :: given.options } rest
        | .awaiting flag =>
            match rest with
            | [] => none
            | value :: rest =>
                readFrom flags { given with options := (flag.long, value) :: given.options } rest
        | .unknown => none

/-- The value of an option. -/
def Given.value? (given : Given) (long : String) : Option String := given.options.lookup long

/-- The only positional argument; none if there are more. -/
def Given.atMostOne? (given : Given) : Option (Option Path) :=
  match given.positional with
  | [] => some none
  | [written] => some (some (Path.ofString written))
  | _ => none

/-- What is asked for when a contract is extracted. -/
structure ExtractOptions where
  project : Option Path
  excluded : Option String
  asJson : Bool
deriving DecidableEq, Repr

/-- What is asked for when a manifest is updated. -/
structure UpdateOptions where
  project : Option Path
  manifest : Option Path
  repository : Option String
  refName : Option String
  excluded : Option String
  skipBotEvents : Option String
deriving DecidableEq, Repr

/-- The commands. -/
inductive Command
  | extract (options : ExtractOptions)
  | update (options : UpdateOptions)
  | version
deriving DecidableEq, Repr

/-- The option that leaves events out. -/
def excludeFlag : Flag := ⟨"exclude-events", some 'x', true⟩

/-- The options of an extraction. -/
def extractFlags : List Flag := [excludeFlag, ⟨"json", none, false⟩]

/-- The options of an update. -/
def updateFlags : List Flag :=
  [⟨"manifest", some 'm', true⟩, ⟨"repository", none, true⟩, ⟨"ref-name", none, true⟩, excludeFlag,
    ⟨"skip-bot-events", none, true⟩]

/-- Reads the arguments of an extraction. -/
def ExtractOptions.read? (arguments : List String) : Option ExtractOptions := do
  let given ← Given.readFrom extractFlags ⟨[], []⟩ arguments
  let project ← given.atMostOne?
  return { project, excluded := given.value? "exclude-events"
           asJson := (given.value? "json").isSome }

/-- Reads the arguments of an update. -/
def UpdateOptions.read? (arguments : List String) : Option UpdateOptions := do
  let given ← Given.readFrom updateFlags ⟨[], []⟩ arguments
  let project ← given.atMostOne?
  return { project
           manifest := (given.value? "manifest").map Path.ofString
           repository := given.value? "repository"
           refName := given.value? "ref-name"
           excluded := given.value? "exclude-events"
           skipBotEvents := given.value? "skip-bot-events" }

/-- The command that arguments ask for. -/
def Command.read? : List String → Option Command
  | "extract" :: rest => (ExtractOptions.read? rest).map .extract
  | "update" :: rest => (UpdateOptions.read? rest).map .update
  | ["version"] => some .version
  | _ => none

end PluginContract.CommandLine

import PluginContract.Files.Tree
import PluginContract.Loading.Runtime

/-! # Settings

Settings come from environment variables and from a file with a line for each variable. A variable
of the environment wins over one of the file. -/

namespace PluginContract
open Text Files Loading

/-- The settings of a run. -/
structure Settings where
  workspace : Path
  manifest : Option Path
  repository : Option String
  refName : Option String
  excludedEvents : String
  skipBotEvents : Option String
  deno : String
  node : String
  outputLimit : Int
deriving DecidableEq, Repr

namespace Settings

/-- The values of decimal digits with single underscores between them. -/
def digitValues? : List Char → Option (List Nat)
  | [] => none
  | [c] => (decimalValue? c).map ([·])
  | c :: '_' :: rest => do return (← decimalValue? c) :: (← digitValues? rest)
  | c :: rest => do return (← decimalValue? c) :: (← digitValues? rest)

/-- The natural number that digits of any script write. -/
def natural? (t : List Char) : Option Nat :=
  match digitValues? t with
  | none => none
  | some values =>
      if Json.mostDigits < values.length then none
      else some (values.foldl (fun n digit => 10 * n + digit) 0)

/-- A blank that may stand around a number; the information separators may not. -/
def isMargin (c : Char) : Bool := isBlank c && !(0x1C ≤ c.toNat && c.toNat ≤ 0x1F)

/-- The integer that a text writes, with blanks around it and a sign allowed. -/
def integer? (t : List Char) : Option Int :=
  match trimOf isMargin t with
  | '+' :: digits => (natural? digits).map Int.ofNat
  | '-' :: digits => (natural? digits).map fun n => -Int.ofNat n
  | digits => (natural? digits).map Int.ofNat

/-- The variable of a line; there is none without a `=`. -/
def assignment? (line : List Char) : Option (String × String) :=
  match line.dropWhile (· != '=') with
  | _ :: value =>
      some (String.ofList (trim (line.takeWhile (· != '='))), String.ofList (trim value))
  | [] => none

/-- The variables of a file; a file that cannot be read holds none. -/
def fileVariables (tree : Tree) (path : Path) : Entries String :=
  match tree.readText path with
  | .ok text => Entries.ofPairs ((fields '\n' text).filterMap assignment?)
  | .error _ => []

/-- The variables of the environment together with those of a file. -/
def known (environment : Entries String) (tree : Tree) (path : Path) : Entries String :=
  environment ++ (fileVariables tree path).filter fun entry => !environment.has entry.1

/-- The names of the variables that settings come from. -/
def names : List String :=
  ["GITHUB_WORKSPACE", "MANIFEST_PATH", "GITHUB_REPOSITORY", "GITHUB_REF_NAME",
    "EXCLUDED_SUPPORTED_EVENTS", "SKIP_BOT_EVENTS", "MANIFEST_SYNC_DENO", "MANIFEST_SYNC_NODE",
    "MANIFEST_SYNC_OUTPUT_LIMIT"]

/-- The settings that variables give. -/
def ofVariables (home : Path) (known : Entries String) : Settings :=
  let given (name : String) : Option String := known.get? name
  { workspace := ((given "GITHUB_WORKSPACE").map Path.ofString).getD home
    manifest := ((given "MANIFEST_PATH").filter (· != "")).map Path.ofString
    repository := given "GITHUB_REPOSITORY"
    refName := given "GITHUB_REF_NAME"
    excludedEvents := (given "EXCLUDED_SUPPORTED_EVENTS").getD ""
    skipBotEvents := given "SKIP_BOT_EVENTS"
    deno := (given "MANIFEST_SYNC_DENO").getD "deno"
    node := (given "MANIFEST_SYNC_NODE").getD "node"
    outputLimit :=
      ((given "MANIFEST_SYNC_OUTPUT_LIMIT").bind fun raw => integer? raw.toList).getD
        defaultLimit }

/-- The settings for an environment and the file at a path. -/
def read (environment : Entries String) (tree : Tree) (path : Path) : Settings :=
  ofVariables ⟨.top, tree.home⟩ (known environment tree path)

/-- The file that is read unless another one is named: `.env` in the working directory. -/
def defaultFile (tree : Tree) : Path := ⟨.top, tree.home ++ [".env"]⟩

/-- The runtimes that these settings ask for, started in a directory. -/
def runtimes (s : Settings) (directory : Path) : List Setup :=
  Setup.defaults s.deno s.node (some directory) s.outputLimit

end Settings

end PluginContract

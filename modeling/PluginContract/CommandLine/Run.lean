import PluginContract.CommandLine.Arguments
import PluginContract.Contract.Extraction
import PluginContract.Manifest.Assembly
import PluginContract.Manifest.File
import PluginContract.Settings
import PluginContract.Terminal.Console

/-! # Running a command

A run turns a file tree and settings into what is printed, how the run ends, and the tree
afterwards. Faults that the author of a plugin has to mend are printed and end the run with status
one; an update changes files only after everything else is settled. -/

namespace PluginContract.CommandLine
open Files Contract Manifest Terminal

/-- The name and version that are shown. -/
def versionText : String := "manifest-sync 1.0.0"

/-- What a run breaks down on, other than a contract error. -/
inductive Breakdown
  | failure (failure : Failure)
  /-- The path of the manifest is too long to be asked for. -/
  | manifestTooLong
  | package (fault : PackageBreak)
  /-- The settings schema cannot be relaxed. -/
  | schema
  | write (fault : WriteFault)
  /-- An integer of the contract is too long to be printed. -/
  | longInteger
deriving DecidableEq, Repr

/-- How a run ends. -/
inductive Ending
  | exited (status : Nat)
  | brokeDown (cause : Breakdown)
deriving DecidableEq, Repr

/-- What comes of a run. -/
structure Outcome where
  output : List Char
  ending : Ending
  tree : Tree

/-- The surroundings of a run. -/
structure Surroundings (μ : Type → Type) where
  tree : Tree
  settings : Settings
  console : Console
  wording : Wording
  /-- The loader for a project. -/
  loader : (root : Path) → Loader μ

namespace Surroundings

variable {μ : Type → Type} [Monad μ]

/-- A run that ends with an error message. -/
def refused (s : Surroundings μ) (message : String) : Outcome :=
  ⟨s.console.error message.toList, .exited 1, s.tree⟩

/-- The directory that is asked for as the project's. -/
def directoryOf (s : Surroundings μ) (project : Option Path) : Path :=
  project.getD s.settings.workspace

/-- The root of the project. -/
def rootOf (s : Surroundings μ) (project : Option Path) : Path :=
  (s.directoryOf project).resolve s.tree.home

/-- The events that are left out. -/
def excludedOf (s : Surroundings μ) (excluded : Option String) : List String :=
  readExclusions (excluded.getD s.settings.excludedEvents)

/-- The contract of the project at a root. -/
def contractOf (s : Surroundings μ) (root : Path) (excluded : Option String) :
    μ (Except Failure Metadata) :=
  Contract.extract s.tree root (s.excludedOf excluded) (s.loader root)

/-- A run in which no contract came about. -/
def withoutContract (s : Surroundings μ) : Failure → Outcome
  | .contract error => s.refused (error.message s.wording)
  | failure => ⟨[], .brokeDown (.failure failure), s.tree⟩

/-- The fields of a contract that a reader is shown. -/
def rows (d : Metadata) : List (String × String) :=
  [("Entrypoint", s!"{d.entrypoint.function} in {d.entrypoint.file}"),
    ("Settings schema", match d.settingsSchema with | .null => "missing" | _ => "resolved"),
    ("Command schema", if d.allowMissingCommands then "none (null command type)" else "resolved"),
    ("Supported events", ", ".intercalate d.events)] ++
    if d.excluded.isEmpty then [] else [("Excluded events", ", ".intercalate d.excluded)]

/-- A contract for readers: a title, and a line for each field. -/
def table (d : Metadata) : List Char :=
  "Plugin contract\n".toList ++ (rows d).flatMap fun row =>
    row.1.toList ++ ": ".toList ++ row.2.toList ++ ['\n']

/-- A contract as it is printed: as JSON, which takes integers that can be written, or as a table. -/
def printed? (o : ExtractOptions) (d : Metadata) : Option (List Char) :=
  if !o.asJson then some (table d)
  else if d.toJson.fits then some (Json.indented 0 d.toJson ++ ['\n'])
  else none

/-- Prints the contract of a project. -/
def extract (s : Surroundings μ) (o : ExtractOptions) : μ Outcome :=
  if (s.directoryOf o.project).holdsNull then return s.withoutContract (.refusedPath .null)
  else do
    match ← s.contractOf (s.rootOf o.project) o.excluded with
    | .error failure => return s.withoutContract failure
    | .ok d =>
        match printed? o d with
        | some output => return ⟨output, .exited 0, s.tree⟩
        | none => return ⟨[], .brokeDown .longInteger, s.tree⟩

/-- The release that a manifest is made for; there is none if its repository or its name is missing
or empty. -/
def release? (s : Surroundings μ) (o : UpdateOptions) : Option Release := do
  let chosen (option setting : Option String) : Option String :=
    ((option.filter (· != "")).orElse fun _ => setting).filter (· != "")
  return ⟨← chosen o.repository s.settings.repository, ← chosen o.refName s.settings.refName⟩

/-- The message for a missing release. -/
def noReleaseMessage : String :=
  "Repository and ref name are required (--repository/--ref-name or " ++
    "GITHUB_REPOSITORY/GITHUB_REF_NAME)"

/-- The path of the manifest. -/
def manifestOf (s : Surroundings μ) (o : UpdateOptions) : Path :=
  (o.manifest.orElse fun _ => s.settings.manifest).getD
    ((s.rootOf o.project).child "manifest.json")

/-- What a contract and the options settle about a manifest. -/
def settledBy (s : Surroundings μ) (o : UpdateOptions) (d : Metadata) : Settled :=
  { settingsSchema := d.settingsSchema
    commandSchema := d.commandSchema
    events := .arr (d.events.map .str)
    skipBotEvents :=
      match o.skipBotEvents.orElse fun _ => s.settings.skipBotEvents with
      | some flag => .str flag
      | none => .null
    commandsOptional := d.allowMissingCommands }

/-- Writes an assembled manifest after something was printed. -/
def write (s : Surroundings μ) (path : Path) (manifest : Entries Json) (output : List Char) :
    Outcome :=
  match writeManifest s.tree path manifest with
  | (tree, .error fault) => ⟨output, .brokeDown (.write fault), tree⟩
  | (tree, .ok ()) =>
      let done := s.console.printMarked <|
        "[green]✓ Manifest updated:[/green] ".toList ++ escape path.toString.toList
      ⟨output ++ done, .exited 0, tree⟩

/-- Assembles and writes the manifest of a contract. -/
def complete (s : Surroundings μ) (o : UpdateOptions) (release : Release)
    (existing : Entries Json) (d : Metadata) : Outcome :=
  match readPackage s.tree (s.rootOf o.project) with
  | .error fault => ⟨[], .brokeDown (.package fault), s.tree⟩
  | .ok package =>
      let (fields, aboutPackage) : Entries Json × List Char :=
        match package with
        | .ok fields => (fields, [])
        | .error fault => ([], s.console.warning (fault.message s.wording).toList)
      match assemble? existing fields release (s.settledBy o d) with
      | none => ⟨aboutPackage, .brokeDown .schema, s.tree⟩
      | some (manifest, warnings) =>
          let aboutFields := warnings.flatMap fun w => s.console.warning w.message.toList
          s.write (s.manifestOf o) manifest (aboutPackage ++ aboutFields)

/-- A run in which the existing manifest could not be read. -/
def withoutManifest (s : Surroundings μ) : ManifestFault → Outcome
  | .tooLong => ⟨[], .brokeDown .manifestTooLong, s.tree⟩
  | fault => s.refused (fault.message s.wording)

/-- The release and the existing manifest, which an update needs before it turns to the contract;
without them the run ends. -/
def prepare (s : Surroundings μ) (o : UpdateOptions) : Except Outcome (Release × Entries Json) :=
  if (s.directoryOf o.project).holdsNull then .error (s.withoutContract (.refusedPath .null))
  else
    match s.release? o with
    | none => .error (s.refused noReleaseMessage)
    | some release =>
        match readManifest s.tree (s.manifestOf o) with
        | .error fault => .error (s.withoutManifest fault)
        | .ok existing => .ok (release, existing)

/-- Brings the manifest of a project up to date. -/
def update (s : Surroundings μ) (o : UpdateOptions) : μ Outcome :=
  match s.prepare o with
  | .error outcome => return outcome
  | .ok (release, existing) => do
      match ← s.contractOf (s.rootOf o.project) o.excluded with
      | .error failure => return s.withoutContract failure
      | .ok d => return s.complete o release existing d

/-- Runs a command. -/
def run (s : Surroundings μ) : Command → μ Outcome
  | .extract o => s.extract o
  | .update o => s.update o
  | .version => return ⟨versionText.toList ++ ['\n'], .exited 0, s.tree⟩

end Surroundings

end PluginContract.CommandLine

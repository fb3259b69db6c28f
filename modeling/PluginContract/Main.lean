import PluginContract.CommandLine.Run

/-! # The program

Takes a picture of the working directory, of the project and of the manifest, runs the command on
it, prints the output and carries the changes over to the files. The program starts no processes of
its own, so every runtime reports that it could not be started. -/

namespace PluginContract
open Files Loading CommandLine

/-- Directories that hold no sources of a project. -/
def skippedDirectories : List String := [".git", "node_modules"]

/-- The text of a place. -/
def placeText (place : Place) : String := "/" ++ "/".intercalate place

/-- What is at a place of the disk and below it. -/
partial def picture (place : Place) : IO (List (Place × Node)) := do
  let path : String := placeText place
  match ← (do (← IO.FS.realPath path).readDir : IO _).toBaseIO with
  | .ok entries =>
      let mut found : List (Place × Node) := [(place, .directory)]
      for entry in entries do
        unless skippedDirectories.contains entry.fileName do
          found := found ++ (← picture (place ++ [entry.fileName]))
      return found
  | .error _ =>
      match ← (IO.FS.readBinFile path).toBaseIO with
      | .ok bytes => return [(place, .file bytes.toList)]
      | .error _ => return []

/-- The tree with the picture of a place and the directories above it. -/
def withPicture (tree : Tree) (place : Place) : IO Tree := do
  if (tree.node? place).isSome then return tree
  let found ← picture place
  if found.isEmpty then return tree
  let tree := (tree.makeDirectories [] place.dropLast).1
  return { tree with nodes := tree.nodes ++ found }

/-- Surroundings in which no process can be started. -/
def processless : Host IO :=
  { createPreload := fun _ => return Path.ofString "/preload.mjs"
    removePreload := fun _ => return ()
    start := fun _ _ => return .error "processes are not available"
    kill := return () }

/-- Carries the changes from one tree to another over to the disk. -/
def store (before after : Tree) : IO Unit := do
  for (place, node) in after.nodes do
    match node with
    | .directory => IO.FS.createDirAll (placeText place)
    | .file bytes =>
        unless before.node? place == some node do
          IO.FS.writeBinFile (placeText place) ⟨bytes.toArray⟩
  for place in before.files do
    if (after.node? place).isNone then IO.FS.removeFile (placeText place)

/-- The variables of the environment that settings come from. -/
def environment : IO (Entries String) := do
  let mut found : Entries String := []
  for name in Settings.names do
    if let some value ← IO.getEnv name then found := found.put name value
  return found

/-- The places that a command needs a picture of. -/
def placesOf (s : Surroundings IO) : Command → List Place
  | .extract o => [(s.rootOf o.project).names]
  | .update o => [(s.rootOf o.project).names, ((s.manifestOf o).resolve s.tree.home).names]
  | .version => []

/-- Runs a command in the working directory and tells the exit status. -/
def runCommand (command : Command) : IO UInt32 := do
  let home := (Path.ofString (← IO.currentDir).toString).names
  let tree ← withPicture { home, nodes := [] } home
  let settings := Settings.read (← environment) tree (Settings.defaultFile tree)
  let loader (root : Path) : Contract.Loader IO :=
    Loading.load ((settings.runtimes root).map fun setup => setup.strategy processless home)
  let s : Surroundings IO :=
    { tree, settings, console := ⟨"utf-8"⟩, wording := Cause.describe, loader }
  let tree ← (placesOf s command).foldlM withPicture tree
  let outcome ← ({ s with tree } : Surroundings IO).run command
  IO.print (String.ofList outcome.output)
  store tree outcome.tree
  match outcome.ending with
  | .exited status => return status.toUInt32
  | .brokeDown _ => do
      IO.eprintln "manifest-sync broke down"
      return 1

end PluginContract

/-- Runs the command that the arguments ask for. -/
def main (arguments : List String) : IO UInt32 := do
  match PluginContract.CommandLine.Command.read? arguments with
  | some command => PluginContract.runCommand command
  | none => do
      IO.eprintln "Usage: manifest-sync extract | update | version"
      return 2

import PluginContract.Loading.Diagnostics
import PluginContract.Loading.Script
import PluginContract.Loading.Strategy

/-! # Runtimes

A strategy that starts a runtime with a script and reads the payload that it prints. The output is
read in chunks, and a process that prints more bytes than allowed is killed. One runtime gets a
preload file, which is removed whatever becomes of the process. -/

namespace PluginContract.Loading
open Text Files

/-- The ways in which a module is run. -/
inductive Runtime
  | deno
  | nodeImport
  | nodeRequire
deriving DecidableEq, Repr

/-- The name of a runtime's strategy. -/
def Runtime.name : Runtime → String
  | deno => "deno"
  | nodeImport => "node-import"
  | nodeRequire => "node-require"

/-- How a runtime is started. -/
structure Setup where
  runtime : Runtime
  binary : String
  directory : Option Path
  limit : Int
deriving DecidableEq, Repr

/-- The output limit that holds unless another one is set: 16 MiB. -/
def defaultLimit : Int := 16 * 1024 * 1024

/-- A process that was started: what it prints, in the chunks in which it is read, what it says
about errors, and its exit status. -/
structure Process where
  chunks : List Utf8.Bytes
  errors : Utf8.Bytes
  status : Int
deriving Repr

/-- The surroundings in which processes run. -/
structure Host (μ : Type → Type) where
  /-- Writes a preload file with a text. -/
  createPreload : String → μ Path
  removePreload : Path → μ Unit
  /-- Starts a command in a directory; tells why that is impossible. -/
  start : List String → Option Path → μ (Except String Process)
  /-- Kills the process that was started last. -/
  kill : μ Unit

/-- The bytes of all chunks up to the end, which an empty chunk also stands for; none as soon as
they are more than allowed. -/
def collect? (limit : Int) : (size : Nat) → List Utf8.Bytes → Option Utf8.Bytes
  | _, [] => some []
  | size, chunk :: rest =>
      if chunk.isEmpty then some []
      else if limit < size + chunk.length then none
      else (collect? limit (size + chunk.length) rest).map (chunk ++ ·)

namespace Setup

/-- The command that runs a module, given the preload file if there is one. -/
def command (s : Setup) (module : Path) (names : List String) (preload : Option Path) :
    List String :=
  match s.runtime with
  | .deno => [s.binary, "eval", importScript module names]
  | .nodeImport =>
      [s.binary, "--experimental-strip-types", "--no-warnings"] ++
        (preload.toList.flatMap fun p => ["--import", p.uri]) ++
        ["--input-type=module", "-e", guardedImportScript module names]
  | .nodeRequire => [s.binary, "-e", requireScript module names]

/-- The text that a process prints; a process that prints more than allowed is killed. -/
def readOutput {μ : Type → Type} [Monad μ] (s : Setup) (host : Host μ) (process : Process) :
    μ (Except StrategyFailure (List Char)) :=
  match collect? s.limit 0 process.chunks with
  | none => do
      host.kill
      return .error (.overLimit s.limit)
  | some output => return .ok (Utf8.decodeLossy output)

/-- The output of a command. -/
def run {μ : Type → Type} [Monad μ] (s : Setup) (host : Host μ) (command : List String) :
    μ (Except StrategyFailure (List Char)) := do
  match ← host.start command s.directory with
  | .error detail => return .error (.notStarted s.binary detail)
  | .ok process =>
      match ← s.readOutput host process with
      | .error failure => return .error failure
      | .ok output =>
          if process.status = 0 then return .ok output
          else
            return .error (.exited process.status (summary (Utf8.decodeLossy process.errors)))

/-- The outcome of a strategy, from the output of its command. -/
def outcome : Except StrategyFailure (List Char) → StrategyResult
  | .error failure => .failed failure
  | .ok output =>
      match readPayload output with
      | .ok exports => .exports (.obj exports)
      | .error fault => .failed (.payload fault)

/-- The strategy that starts a runtime in some surroundings. -/
def strategy {μ : Type → Type} [Monad μ] (s : Setup) (host : Host μ) (home : Place) :
    Strategy μ :=
  { name := s.runtime.name
    load := fun module names => do
      let module := module.resolve home
      match s.runtime with
      | .nodeImport => do
          let preload ← host.createPreload standInScript
          let output ← s.run host (s.command module names (some preload))
          host.removePreload preload
          return outcome output
      | _ => return outcome (← s.run host (s.command module names none)) }

/-- The runtimes that are tried unless others are given. -/
def defaults (deno node : String) (directory : Option Path) (limit : Int) : List Setup :=
  [⟨.deno, deno, directory, limit⟩, ⟨.nodeImport, node, directory, limit⟩,
    ⟨.nodeRequire, node, directory, limit⟩]

end Setup

end PluginContract.Loading

import PluginContract.Cause
import PluginContract.Json.Printer
import PluginContract.Json.Reader

/-! # The files of a manifest and a package

A manifest is read as one JSON object, and a missing file is an empty manifest. It is written to a
sibling file first, which then takes the place of the old one. A package without a readable
description of itself is no obstacle, as long as the file holds text without an integer of too many
digits. -/

namespace PluginContract.Manifest
open Files Text

/-- Why a manifest cannot be read. -/
inductive ManifestFault
  | unreadable (path : Path) (cause : Cause)
  | notObject (path : Path)
  | undecodable (fault : Utf8.Fault)
  | longInteger (digits : Nat)
  /-- The path is too long to be asked for. -/
  | tooLong
deriving DecidableEq, Repr

/-- The message for a manifest that cannot be read. -/
def ManifestFault.message (wording : Wording) : ManifestFault → String
  | unreadable path cause => s!"Cannot read manifest {path}: {wording cause}"
  | notObject path => s!"Manifest {path} must contain a JSON object"
  | undecodable fault => fault.describe
  | longInteger digits => Json.longIntegerMessage digits
  | tooLong => wording (.unreadable (.refused .tooLong))

/-- Reads the manifest at a path. -/
def readManifest (tree : Tree) (path : Path) : Except ManifestFault (Entries Json) :=
  match tree.readText path with
  | .error .missing | .error (.refused .null) => .ok []
  | .error (.refused .tooLong) => .error .tooLong
  | .error (.notText fault) => .error (.undecodable fault)
  | .error fault => .error (.unreadable path (.unreadable fault))
  | .ok text =>
      match Json.read? text with
      | .error .malformed => .error (.unreadable path .notJson)
      | .error (.longInteger digits) => .error (.longInteger digits)
      | .ok (.obj fields) => .ok fields
      | .ok _ => .error (.notObject path)

/-- The text of a manifest's file, as far as it can be written. -/
def manifestText (manifest : Entries Json) : Json.Printout :=
  (Json.printed 0 [] (.obj manifest)).andThen (.all ['\n'])

/-- Moves a file to the place of a path. -/
def moveFile (tree : Tree) (source target : Place) (path : Path) (bytes : Utf8.Bytes) :
    Tree × Except WriteFault Unit :=
  match tree.refusal? path with
  | some fault => (tree, .error (.refused fault))
  | none =>
      if path.name = ".." then (tree, .error .inUse)
      else
        match tree.node? target with
        | some .directory => (tree, .error .isDirectory)
        | _ =>
            ((if source = target then tree else tree.remove source).set target (.file bytes), .ok ())

/-- Writes a manifest to a path, by way of the sibling with the suffix `.tmp`. Missing directories
are made. A manifest that cannot be written as a whole leaves what has been written of it in the
sibling. -/
def writeManifest (tree : Tree) (path : Path) (manifest : Entries Json) :
    Tree × Except WriteFault Unit :=
  match tree.makeParent path with
  | (tree, .error fault) => (tree, .error fault)
  | (tree, .ok target) =>
      if path.name = "" then (tree, .error .noName)
      else
        let sibling := path.withSuffix ".tmp"
        match tree.refusal? sibling with
        | some fault => (tree, .error (.refused fault))
        | none =>
            let source := target.dropLast ++ [sibling.name]
            match tree.node? source with
            | some .directory => (tree, .error .isDirectory)
            | _ =>
                let bytes := Utf8.encode (manifestText manifest).text
                let tree := tree.set source (.file bytes)
                if (manifestText manifest).whole then moveFile tree source target path bytes
                else (tree, .error .longInteger)

/-- Why a package does not describe itself. -/
inductive PackageFault
  | unreadable (cause : Cause)
  | notObject
deriving DecidableEq, Repr

/-- The message for a package that does not describe itself. -/
def PackageFault.message (wording : Wording) : PackageFault → String
  | unreadable cause => s!"Could not read package.json: {wording cause}"
  | notObject => "Could not read package.json: expected a JSON object"

/-- What a package can be that is read neither as a description of itself nor as none. -/
inductive PackageBreak
  | undecodable (fault : Utf8.Fault)
  | longInteger (digits : Nat)
  /-- The path of the root holds the null character. -/
  | null
deriving DecidableEq, Repr

/-- What the package at a root says about itself. -/
def readPackage (tree : Tree) (root : Path) :
    Except PackageBreak (Except PackageFault (Entries Json)) :=
  match tree.readText (root.child "package.json") with
  | .error (.notText fault) => .error (.undecodable fault)
  | .error (.refused .null) => .error .null
  | .error fault => .ok (.error (.unreadable (.unreadable fault)))
  | .ok text =>
      match Json.read? text with
      | .error .malformed => .ok (.error (.unreadable .notJson))
      | .error (.longInteger digits) => .error (.longInteger digits)
      | .ok (.obj fields) => .ok (.ok fields)
      | .ok _ => .ok (.error .notObject)

end PluginContract.Manifest

import PluginContract.Entries
import PluginContract.Files.Path
import PluginContract.Text.Utf8

/-! # File trees

A tree of directories and files with a working directory. A path is followed name by name, and
every name but the last has to be a directory; `..` leads to the directory above. The system does
not even follow a path with the null character in it, one whose text is too long, or one that comes
to a name that is too long. A tree holds no symbolic links. -/

namespace PluginContract.Files
open Text

/-- What a place in a tree holds. -/
inductive Node
  | file (bytes : Utf8.Bytes)
  | directory
deriving DecidableEq, Repr

/-- A place in a tree: the names from the top. -/
abbrev Place := List String

/-- The most bytes of a name and of a path's text. -/
structure Limits where
  name : Nat
  path : Nat
deriving DecidableEq, Repr

/-- The limits of common file systems. -/
def Limits.usual : Limits := ⟨255, 4095⟩

/-- A file tree. -/
structure Tree where
  home : Place
  nodes : List (Place × Node)
  limits : Limits := .usual
deriving Repr

/-- Why the system does not follow a path. -/
inductive PathFault
  | null
  | tooLong
deriving DecidableEq, Repr

/-- Why a file cannot be read as text. -/
inductive ReadFault
  | missing
  | isDirectory
  | refused (fault : PathFault)
  | notText (fault : Utf8.Fault)
deriving DecidableEq, Repr

/-- Why a file cannot be written. -/
inductive WriteFault
  /-- The directory of the file is itself a file. -/
  | parentIsFile
  /-- A directory further up is a file. -/
  | ancestorIsFile
  | isDirectory
  /-- The path leads to a directory by `..`, which can never be replaced. -/
  | inUse
  /-- The path ends in no name. -/
  | noName
  | refused (fault : PathFault)
  /-- An integer is too long to be written. -/
  | longInteger
deriving DecidableEq, Repr

namespace Tree

/-- What a place holds; the top is always a directory. -/
def node? (t : Tree) (place : Place) : Option Node :=
  if place.isEmpty then some .directory
  else (t.nodes.find? fun entry => entry.1 == place).map Prod.snd

/-- The place that names lead to from another place. -/
def follow? (t : Tree) : Place → List String → Option Place
  | place, [] => some place
  | place, name :: rest =>
      if t.node? place = some .directory then
        t.follow? (if name = ".." then place.dropLast else place ++ [name]) rest
      else none

/-- The place from which the names of a path lead. -/
def startOf (t : Tree) (p : Path) : Place :=
  match p.root with
  | .here => t.home
  | _ => []

/-- The place of a path. -/
def place? (t : Tree) (p : Path) : Option Place := t.follow? (t.startOf p) p.names

/-- What a path leads to. -/
def look? (t : Tree) (p : Path) : Option Node := (t.place? p).bind t.node?

/-- Whether a path leads to a file. -/
def isFile (t : Tree) (p : Path) : Bool :=
  match t.look? p with
  | some (.file _) => true
  | _ => false

/-- Whether a path leads to a directory. -/
def isDirectory (t : Tree) (p : Path) : Bool := t.look? p = some .directory

/-- Whether a path leads to anything. -/
def isThere (t : Tree) (p : Path) : Bool := (t.look? p).isSome

/-- Whether names come to one that is too long, in a directory in which it is looked for. -/
def meetsLong (t : Tree) : Place → List String → Bool
  | _, [] => false
  | place, name :: rest =>
      t.node? place = some .directory &&
        (t.limits.name < name.utf8ByteSize ||
          t.meetsLong (if name = ".." then place.dropLast else place ++ [name]) rest)

/-- Why the system does not follow a path, if it does not. -/
def refusal? (t : Tree) (p : Path) : Option PathFault :=
  if p.holdsNull then some .null
  else if t.limits.path < p.toString.utf8ByteSize || t.meetsLong (t.startOf p) p.names then
    some .tooLong
  else none

/-- Looks whether a path leads to a file. A path with the null character leads to none; one that is
too long cannot even be asked for. -/
def checkFile (t : Tree) (p : Path) : Except PathFault Bool :=
  match t.refusal? p with
  | some .null => .ok false
  | some .tooLong => .error .tooLong
  | none => .ok (t.isFile p)

/-- The text of a file, with line feeds for all line ends. -/
def readText (t : Tree) (p : Path) : Except ReadFault (List Char) :=
  match t.refusal? p with
  | some fault => .error (.refused fault)
  | none =>
      match t.look? p with
      | none => .error .missing
      | some .directory => .error .isDirectory
      | some (.file bytes) =>
          match Utf8.decode bytes with
          | .ok text => .ok (joinCarriageReturns text)
          | .error fault => .error (.notText fault)

/-- The tree with something at a place. -/
def set (t : Tree) (place : Place) (node : Node) : Tree :=
  if place.isEmpty then t
  else { t with nodes := t.nodes.filter (fun entry => entry.1 != place) ++ [(place, node)] }

/-- The tree without a place and what is below it. -/
def remove (t : Tree) (place : Place) : Tree :=
  { t with nodes := t.nodes.filter fun entry => !place.isPrefixOf entry.1 }

/-- Makes the directories that names lead through from a place, where they are missing, and tells
where the names lead. A file in the way or a name that is too long stops it; what has been made
until then stays. -/
def makeDirectories (t : Tree) : Place → List String → Tree × Except WriteFault Place
  | place, [] => (t, .ok place)
  | place, name :: rest =>
      if name = ".." then t.makeDirectories place.dropLast rest
      else if t.limits.name < name.utf8ByteSize then (t, .error (.refused .tooLong))
      else
        let here := place ++ [name]
        match t.node? here with
        | some .directory => t.makeDirectories here rest
        | some (.file _) => (t, .error (if rest.isEmpty then .parentIsFile else .ancestorIsFile))
        | none => (t.set here .directory).makeDirectories here rest

/-- Makes the directory of a path, and tells the place of the path. -/
def makeParent (t : Tree) (p : Path) : Tree × Except WriteFault Place :=
  if p.parent.holdsNull then (t, .error (.refused .null))
  else if t.limits.path < p.parent.toString.utf8ByteSize then (t, .error (.refused .tooLong))
  else
    let (made, outcome) := t.makeDirectories (t.startOf p) p.names.dropLast
    (made, outcome.map fun parent => parent ++ p.names.getLast?.toList)

/-- The places of the files of a tree, each of them once. -/
def files (t : Tree) : List Place :=
  (distinct (t.nodes.map Prod.fst)).filter fun place =>
    match t.node? place with
    | some (.file _) => true
    | _ => false

end Tree

end PluginContract.Files

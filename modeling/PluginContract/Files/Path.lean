import PluginContract.Text.Pieces

/-! # Paths

A path is a root and the names below it. Reading a path drops `.` and empty names, so doubled and
trailing slashes vanish; `..` stays until the path is made absolute. -/

namespace PluginContract.Files
open Text

/-- Where a path starts. -/
inductive Root
  | here
  | top
  /-- Exactly two slashes; the operating system may give them a meaning of their own. -/
  | twoSlashes
deriving DecidableEq, Repr

/-- A path. -/
structure Path where
  root : Root
  names : List String
deriving DecidableEq, Repr

namespace Path

/-- The root that a text starts with. -/
def rootOf : List Char → Root
  | '/' :: '/' :: '/' :: _ => .top
  | '/' :: '/' :: _ => .twoSlashes
  | '/' :: _ => .top
  | _ => .here

/-- The path that a text writes. -/
def ofString (s : String) : Path :=
  let written := (fields '/' s.toList).filter fun name => !name.isEmpty && name != ['.']
  ⟨rootOf s.toList, written.map String.ofList⟩

/-- The text of a path. -/
def toString (p : Path) : String :=
  let names := "/".intercalate p.names
  match p.root with
  | .here => if p.names.isEmpty then "." else names
  | .top => "/" ++ names
  | .twoSlashes => "//" ++ names

instance : ToString Path := ⟨toString⟩

/-- A path below another one; a path with a root of its own stands alone. -/
def join (p q : Path) : Path :=
  match q.root with
  | .here => ⟨p.root, p.names ++ q.names⟩
  | _ => q

/-- A name below a path. -/
def child (p : Path) (name : String) : Path := ⟨p.root, p.names ++ [name]⟩

/-- The path without its last name. -/
def parent (p : Path) : Path := ⟨p.root, p.names.dropLast⟩

/-- The last name. -/
def name (p : Path) : String := p.names.getLast?.getD ""

/-- The path with another last name. -/
def withName (p : Path) (name : String) : Path := ⟨p.root, p.names.dropLast ++ [name]⟩

/-- Whether a path holds the null character, which no path that the system takes does. -/
def holdsNull (p : Path) : Bool := p.names.any fun name => name.toList.contains '\x00'

/-- A name cut at its last point, unless that is its first or its last character: the stem, and
the suffix with the point. -/
def cutSuffix (name : List Char) : List Char × List Char :=
  let tail := (name.reverse.takeWhile (· != '.')).reverse
  let stem := name.take (name.length - tail.length - 1)
  if tail.isEmpty || tail.length = name.length || stem.isEmpty then (name, [])
  else (stem, '.' :: tail)

/-- The suffix of the last name, with its point. -/
def suffix (p : Path) : String := String.ofList (cutSuffix p.name.toList).2

/-- The path with another suffix. -/
def withSuffix (p : Path) (suffix : String) : Path :=
  p.withName (String.ofList (cutSuffix p.name.toList).1 ++ suffix)

/-- Names with each `..` taking away the name before it. -/
def collapse (names : List String) : List String :=
  names.foldl (fun done name => if name = ".." then done.dropLast else done ++ [name]) []

/-- The absolute path without `..`, for a path that starts in a directory. -/
def resolve (home : List String) (p : Path) : Path :=
  match p.root with
  | .here => ⟨.top, collapse (home ++ p.names)⟩
  | _ => ⟨.top, collapse p.names⟩

end Path

/-- The order of paths: name by name, and each name by code points. -/
def Path.namesLe : List String → List String → Bool
  | [], _ => true
  | _ :: _, [] => false
  | a :: rest, b :: more => if a = b then namesLe rest more else a < b

/-- Lists paths in their order. -/
def Path.sort (paths : List Path) : List Path :=
  paths.mergeSort fun p q => namesLe p.names q.names

end PluginContract.Files

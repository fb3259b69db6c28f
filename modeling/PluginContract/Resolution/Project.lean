import PluginContract.Resolution.PathAliases

/-! # The files that specifiers refer to

A specifier that starts with a point is relative to the importing file; else a path alias may apply,
and else an absolute path is meant. Anything else names a package and refers to no source file. A
path stands for the file at it, for a file with a source extension in place of an emitted one, for a
file with an extension added, or for the index file of a directory, in this order. A relative
specifier cannot hold the null character, and no path that is tried can be too long. -/

namespace PluginContract.Resolution
open Text Files

/-- A project: its root directory and its path aliases. -/
structure Project where
  root : Path
  aliases : Entries String
deriving DecidableEq, Repr

/-- Extensions in the order in which they are tried. -/
def extensions : List String :=
  [".ts", ".tsx", ".mts", ".cts", ".js", ".jsx", ".mjs", ".cjs", ".json"]

/-- The extensions of the sources that an emitted file can come from. -/
def sourceExtensions (emitted : String) : List String :=
  if emitted = ".js" then [".ts", ".tsx"]
  else if emitted = ".jsx" then [".tsx"]
  else if emitted = ".mjs" then [".mts"]
  else if emitted = ".cjs" then [".cts"]
  else []

/-- The first of some paths that leads to a file. -/
def firstFile? (tree : Tree) : List Path → Except Failure (Option Path)
  | [] => .ok none
  | path :: rest =>
      match tree.checkFile path with
      | .error fault => .error (.refusedPath fault)
      | .ok true => .ok (some path)
      | .ok false => firstFile? tree rest

/-- The paths that are tried first for a path: the path itself, then the sources that an emitted
file can come from. -/
def directPaths (path : Path) : List Path :=
  path :: (sourceExtensions path.suffix).map path.withSuffix

/-- The paths that are tried then: those with an extension added, then the index files of a
directory. -/
def extendedPaths (tree : Tree) (path : Path) : List Path :=
  extensions.map (fun e => path.withName (path.name ++ e)) ++
    if tree.isDirectory path then extensions.map fun e => path.child ("index" ++ e) else []

/-- The source file that a path stands for. -/
def probe? (tree : Tree) (path : Path) : Except Failure (Option Path) :=
  match firstFile? tree (directPaths path) with
  | .error failure => .error failure
  | .ok (some found) => .ok (some found)
  | .ok none =>
      if path.name = "" then .error .pathWithoutName else firstFile? tree (extendedPaths tree path)

namespace Project

/-- The project at a root directory. -/
def ofRoot (tree : Tree) (root : Path) : Except Failure Project :=
  if root.holdsNull then .error (.refusedPath .null)
  else do
    let root := root.resolve tree.home
    let table ← readAliasTable tree root
    match readAliases table with
    | .ok aliases => return ⟨root, aliases⟩
    | .error fault => throw (.malformedAliases fault)

/-- What follows an alias in a specifier, without slashes before it. -/
def afterAlias? (name : String) (specifier : List Char) : Option (List Char) :=
  match after? name.toList specifier with
  | some [] => some []
  | some ('/' :: rest) => some (rest.dropWhile (· == '/'))
  | _ => none

/-- The path that the first fitting alias makes of a specifier. -/
def aliasedPath? (project : Project) (specifier : List Char) : Option Path :=
  project.aliases.findSome? fun entry =>
    (afterAlias? entry.1 specifier).map fun rest =>
      (project.root.join (Path.ofString entry.2)).join (Path.ofString (String.ofList rest))

/-- The path that a specifier in a file stands for; none if it names a package. Making a relative
path absolute fails at the null character. -/
def pathOf? (project : Project) (tree : Tree) (importer : Path) (specifier : String) :
    Except Failure (Option Path) :=
  match specifier.toList with
  | [] => .ok none
  | '.' :: _ =>
      let path := importer.parent.join (Path.ofString specifier)
      if path.holdsNull then .error (.refusedPath .null) else .ok (some (path.resolve tree.home))
  | chars =>
      match project.aliasedPath? chars with
      | some path => .ok (some path)
      | none => .ok (if chars.head? = some '/' then some (Path.ofString specifier) else none)

/-- The source file that a specifier in a file refers to. -/
def find? (project : Project) (tree : Tree) (importer : Path) (specifier : String) :
    Except Failure (Option Path) :=
  match project.pathOf? tree importer specifier with
  | .error failure => .error failure
  | .ok none => .ok none
  | .ok (some path) => probe? tree path

/-- The source file that a specifier in a file refers to, which has to exist. -/
def require (project : Project) (tree : Tree) (importer : Path) (specifier : String) :
    Except Failure Path := do
  match ← project.find? tree importer specifier with
  | some path => return path
  | none => throw (.contract (.unresolvedModule specifier importer))

end Project

end PluginContract.Resolution

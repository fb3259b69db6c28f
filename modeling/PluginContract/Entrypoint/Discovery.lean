import PluginContract.Files.Tree

/-! # The source files of a project

Sources are looked for under `src` if the project has such a directory, and in the whole project
otherwise. Directories for dependencies, build output and tests are left out wherever they stand
between that directory and a file, and so are declaration files and tests. -/

namespace PluginContract.Entrypoint
open Text Files

/-- Extensions of source files. -/
def sourceSuffixes : List String :=
  [".ts", ".tsx", ".mts", ".cts", ".js", ".jsx", ".mjs", ".cjs"]

/-- Directories that hold no sources. -/
def excludedDirectories : List String :=
  ["node_modules", "dist", "build", "plugin", "coverage", ".git", "tests", "__tests__", "__mocks__"]

/-- The endings of test files: `.test` or `.spec` before a source extension. -/
def testEndings : List (List Char) :=
  [".test", ".spec"].flatMap fun mark =>
    ["", "c", "m"].flatMap fun form =>
      ["js", "jsx", "ts", "tsx"].map fun language => (mark ++ "." ++ form ++ language).toList

/-- Whether a file name belongs to a source that can hold an entrypoint. -/
def isSourceName (name : String) : Bool :=
  let chars := name.toList
  sourceSuffixes.contains (String.ofList (Path.cutSuffix chars).2) &&
    !".d.ts".toList.isSuffixOf chars && !testEndings.any fun ending => ending.isSuffixOf chars

/-- Whether the names from the scanned directory down to a file lead to a source. -/
def isSource (below : List String) : Bool :=
  match below.getLast? with
  | none => false
  | some name =>
      isSourceName name && !below.dropLast.any fun directory => excludedDirectories.contains directory

/-- The directory under which the sources of a project lie. -/
def scanRoot (tree : Tree) (root : Path) : Path :=
  if tree.isDirectory (root.child "src") then root.child "src" else root

/-- The names that lead from one place to another one below it. -/
def namesBelow? : (above place : Place) → Option (List String)
  | [], place => some place
  | _ :: _, [] => none
  | a :: above, b :: place => if a = b then namesBelow? above place else none

/-- The source files of a project, in order. -/
def discover (tree : Tree) (root : Path) : List Path :=
  let scanned := scanRoot tree root
  match tree.place? scanned with
  | none => []
  | some above =>
      Path.sort <| tree.files.filterMap fun place =>
        match namesBelow? above place with
        | some below => if isSource below then some ⟨.top, place⟩ else none
        | none => none

end PluginContract.Entrypoint

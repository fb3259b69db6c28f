import PluginContract.Files.Uri
import PluginContract.Json.Printer
import PluginContract.Loading.Payload

/-! # Scripts for the runtimes

Each script imports one module as `mod` and prints the marker and the wanted exports of it. A name
that the module does not export is looked up on its default export. -/

namespace PluginContract.Loading
open Files

/-- A string as a script literal. -/
def literal (s : String) : String := String.ofList (Json.quotedAscii s)

/-- The part of a script that prints the wanted exports of `mod`. -/
def printScript (names : List String) : String :=
  let wanted := String.ofList (Json.quotedListAscii (distinct names))
  "const picked = \x7b\x7d;\n" ++
  "const scope = mod != null ? Object(mod) : \x7b\x7d;\n" ++
  "const fallback = scope.default != null && typeof scope.default === \"object\" ? " ++
    "scope.default : null;\n" ++
  "for (const name of " ++ wanted ++ ") \x7b\n" ++
  "  if (name in scope && scope[name] !== undefined) picked[name] = scope[name];\n" ++
  "  else if (fallback && name in fallback && fallback[name] !== undefined) " ++
    "picked[name] = fallback[name];\n" ++
  "\x7d\n" ++
  "console.log(" ++ literal marker ++ " + JSON.stringify(picked));\n"

/-- The name of the global that tells that a stand-in was installed. -/
def standInFlag : String := "__manifestSyncDenoShim"

/-- The script that gives a runtime without a `Deno` global a minimal stand-in. -/
def standInScript : String :=
  "if (!(\"Deno\" in globalThis)) \x7b\n" ++
  "  class NotFound extends Error \x7b\x7d\n" ++
  "  globalThis.Deno = \x7b\n" ++
  "    env: \x7b\n" ++
  "      get: (key) => process.env[key],\n" ++
  "      has: (key) => key in process.env,\n" ++
  "      toObject: () => (\x7b ...process.env \x7d),\n" ++
  "    \x7d,\n" ++
  "    cwd: () => process.cwd(),\n" ++
  "    build: \x7b os: process.platform === \"win32\" ? \"windows\" : process.platform, " ++
    "arch: process.arch \x7d,\n" ++
  "    errors: \x7b NotFound \x7d,\n" ++
  "  \x7d;\n" ++
  "  globalThis." ++ standInFlag ++ " = true;\n" ++
  "\x7d\n"

/-- The script that imports a module by URI. -/
def importScript (module : Path) (names : List String) : String :=
  "const mod = await import(" ++ literal module.uri ++ ");\n" ++ printScript names

/-- The script that imports a module by URI and takes the stand-in away again. -/
def guardedImportScript (module : Path) (names : List String) : String :=
  "let mod;\n" ++
  "try \x7b\n" ++
  "  mod = await import(" ++ literal module.uri ++ ");\n" ++
  "\x7d finally \x7b\n" ++
  "  if (globalThis." ++ standInFlag ++ ") \x7b delete globalThis.Deno; delete globalThis." ++
    standInFlag ++ "; \x7d\n" ++
  "\x7d\n" ++ printScript names

/-- The script that requires a module by path. -/
def requireScript (module : Path) (names : List String) : String :=
  "const mod = require(" ++ literal module.toString ++ ");\n" ++ printScript names

end PluginContract.Loading

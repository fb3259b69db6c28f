import PluginContract.Files.Path
import PluginContract.Text.Utf8

/-! # File URIs

The bytes of an absolute path in UTF-8, with every byte percent-encoded that is no ASCII letter or
digit and none of `_`, `.`, `-`, `~` and `/`. -/

namespace PluginContract.Files
open Text

/-- Whether a byte stands for itself in a URI. -/
def isPlainByte (b : UInt8) : Bool :=
  let c := Char.ofNat b.toNat
  b.toNat < 0x80 && (c.isAlphanum || "_.-~/".toList.contains c)

/-- A hexadecimal digit, in capitals. -/
def capitalDigit (n : Nat) : Char := (Nat.digitChar n).toUpper

/-- A byte as it stands in a URI. -/
def encodeByte (b : UInt8) : List Char :=
  if isPlainByte b then [Char.ofNat b.toNat]
  else ['%', capitalDigit (b.toNat / 16), capitalDigit (b.toNat % 16)]

/-- The URI of a file. -/
def Path.uri (p : Path) : String :=
  "file://" ++ String.ofList ((Utf8.encode p.toString.toList).flatMap encodeByte)

end PluginContract.Files

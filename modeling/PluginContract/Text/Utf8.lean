/-! # UTF-8

Encoding of characters in bytes, strict decoding that tells where and why it fails, and lossy
decoding that puts one replacement character for each longest invalid beginning of a character. -/

namespace PluginContract.Text.Utf8

/-- A sequence of bytes. -/
abbrev Bytes := List UInt8

/-- A byte from a number below 256. -/
def byte (n : Nat) : UInt8 := UInt8.ofNat n

/-- The bytes of a character. -/
def encodeChar (c : Char) : Bytes :=
  let n := c.toNat
  if n < 0x80 then [byte n]
  else if n < 0x800 then [byte (0xC0 + n / 0x40), byte (0x80 + n % 0x40)]
  else if n < 0x10000 then
    [byte (0xE0 + n / 0x1000), byte (0x80 + n / 0x40 % 0x40), byte (0x80 + n % 0x40)]
  else
    [byte (0xF0 + n / 0x40000), byte (0x80 + n / 0x1000 % 0x40), byte (0x80 + n / 0x40 % 0x40),
      byte (0x80 + n % 0x40)]

/-- The bytes of a text. -/
def encode (t : List Char) : Bytes := t.flatMap encodeChar

/-- Why bytes are not a character. -/
inductive Reason
  | invalidStart
  | invalidContinuation
  | endOfData
deriving DecidableEq, Repr

/-- What comes first in a sequence of bytes: a character, or an invalid beginning, each with the
number of bytes that it takes. -/
inductive Head
  | char (c : Char) (length : Nat)
  | invalid (length : Nat) (reason : Reason)
deriving DecidableEq, Repr

/-- Whether a byte continues a character. -/
def continues (b : UInt8) : Bool := 0x80 ≤ b.toNat && b.toNat < 0xC0

/-- The low six bits of a byte that continues a character. -/
def tail (b : UInt8) : Nat := b.toNat - 0x80

/-- Whether a byte may come second after a first one: the first byte narrows the range so that no
character has two encodings and no surrogate has any. -/
def isSecond (first second : UInt8) : Bool :=
  let f := first.toNat
  let s := second.toNat
  continues second && (f != 0xE0 || 0xA0 ≤ s) && (f != 0xED || s < 0xA0) &&
    (f != 0xF0 || 0x90 ≤ s) && (f != 0xF4 || s < 0x90)

/-- The first character of the bytes that start with a given one. -/
def head (first : UInt8) (rest : Bytes) : Head :=
  let f := first.toNat
  if f < 0x80 then .char (Char.ofNat f) 1
  else if f < 0xC2 then .invalid 1 .invalidStart
  else if f < 0xF5 then
    match rest with
    | [] => .invalid 1 .endOfData
    | second :: rest =>
        if !isSecond first second then .invalid 1 .invalidContinuation
        else if f < 0xE0 then .char (Char.ofNat ((f - 0xC0) * 0x40 + tail second)) 2
        else
          match rest with
          | [] => .invalid 2 .endOfData
          | third :: rest =>
              if !continues third then .invalid 2 .invalidContinuation
              else if f < 0xF0 then
                .char (Char.ofNat ((f - 0xE0) * 0x1000 + tail second * 0x40 + tail third)) 3
              else
                match rest with
                | [] => .invalid 3 .endOfData
                | fourth :: _ =>
                    if !continues fourth then .invalid 3 .invalidContinuation
                    else
                      .char (Char.ofNat ((f - 0xF0) * 0x40000 + tail second * 0x1000 +
                        tail third * 0x40 + tail fourth)) 4
  else .invalid 1 .invalidStart

/-- The bytes that strict decoding stops at. -/
structure Fault where
  first : UInt8
  start : Nat
  stop : Nat
  reason : Reason
deriving DecidableEq, Repr

/-- Strict decoding from an offset on; `skip` bytes of a character are still to be passed over. -/
def decodeFrom : (offset skip : Nat) → Bytes → Except Fault (List Char)
  | _, _, [] => .ok []
  | offset, skip + 1, _ :: rest => decodeFrom (offset + 1) skip rest
  | offset, 0, b :: rest =>
      match head b rest with
      | .char c length => (decodeFrom (offset + 1) (length - 1) rest).map (c :: ·)
      | .invalid length reason => .error ⟨b, offset, offset + length, reason⟩

/-- The text of a sequence of bytes. -/
def decode (bytes : Bytes) : Except Fault (List Char) := decodeFrom 0 0 bytes

/-- Lossy decoding; `skip` bytes of a character or of an invalid beginning are still to be passed
over. -/
def decodeLossyFrom : (skip : Nat) → Bytes → List Char
  | _, [] => []
  | skip + 1, _ :: rest => decodeLossyFrom skip rest
  | 0, b :: rest =>
      match head b rest with
      | .char c length => c :: decodeLossyFrom (length - 1) rest
      | .invalid length _ => Char.ofNat 0xFFFD :: decodeLossyFrom (length - 1) rest

/-- The text of a sequence of bytes, with replacement characters. -/
def decodeLossy (bytes : Bytes) : List Char := decodeLossyFrom 0 bytes

/-- The words for a reason. -/
def Reason.describe : Reason → String
  | .invalidStart => "invalid start byte"
  | .invalidContinuation => "invalid continuation byte"
  | .endOfData => "unexpected end of data"

/-- Two hexadecimal digits, in small letters. -/
def hexByte (b : UInt8) : String :=
  String.ofList [Nat.digitChar (b.toNat / 16), Nat.digitChar (b.toNat % 16)]

/-- The message for a fault. -/
def Fault.describe (f : Fault) : String :=
  let bytes :=
    if f.stop = f.start + 1 then s!"byte 0x{hexByte f.first} in position {f.start}"
    else s!"bytes in position {f.start}-{f.stop - 1}"
  "'utf-8' codec can't decode " ++ bytes ++ ": " ++ f.reason.describe

end PluginContract.Text.Utf8

import StackAssembler.Bytes
import StackAssembler.Text.Latin1

/-!
Byte strings in hexadecimal, two digits to a byte. Written digits are lower case; both cases are
read. A text of odd length is refused before its characters are looked at.
-/

set_option autoImplicit false
set_option relaxedAutoImplicit false

namespace StackAssembler.Hex

def digit (n : Nat) : Char :=
  if n < 10 then Char.ofNat (48 + n) else Char.ofNat (87 + n)

def pushByte (text : String) (byte : UInt8) : String :=
  (text.push (digit (byte.toNat / 16))).push (digit (byte.toNat % 16))

def encode (bytes : Bytes) : String :=
  bytes.foldl pushByte ""

def ofByte (byte : UInt8) : String :=
  pushByte "" byte

inductive DecodeError
  | oddLength
  | invalidByte (byte : UInt8) (position : Nat)
  deriving DecidableEq

def DecodeError.message : DecodeError → String
  | .oddLength => "Odd number of digits"
  | .invalidByte byte position =>
      "Invalid character " ++ Text.Latin1.quoted byte ++ " at position " ++ toString position

def nibble? (byte : UInt8) : Option UInt8 :=
  if 0x30 ≤ byte && byte ≤ 0x39 then some (byte - 0x30)
  else if 0x41 ≤ byte && byte ≤ 0x46 then some (byte - 0x37)
  else if 0x61 ≤ byte && byte ≤ 0x66 then some (byte - 0x57)
  else none

def nibble (byte : UInt8) (position : Nat) : Except DecodeError UInt8 :=
  match nibble? byte with
  | some value => .ok value
  | none => .error (.invalidByte byte position)

/-- Reads digits in pairs, the first of them standing at `position`. -/
def decodePairs (position : Nat) : List UInt8 → Except DecodeError (List UInt8)
  | high :: low :: rest => do
      let upper ← nibble high position
      let lower ← nibble low (position + 1)
      let bytes ← decodePairs (position + 2) rest
      return (16 * upper + lower) :: bytes
  | _ => .ok []

def decode (text : String) : Except DecodeError Bytes :=
  let digits := text.toUTF8.data.toList
  if digits.length % 2 = 1 then .error .oddLength
  else (decodePairs 0 digits).map List.toArray

end StackAssembler.Hex

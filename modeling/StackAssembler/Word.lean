import StackAssembler.BigEndian
import StackAssembler.Hex

/-!
The 256-bit machine word. Arithmetic wraps, shifts by the word's length or more give zero, and bytes
are numbered from the most significant one.
-/

set_option autoImplicit false
set_option relaxedAutoImplicit false

namespace StackAssembler

abbrev Word := BitVec 256

namespace Word

def byteLength : Nat := 32

def bitLength : Nat := 256

def ofBool (b : Bool) : Word :=
  if b then 1 else 0

def toCount? (w : Word) : Option Nat :=
  if w.toNat < UInt64.size then some w.toNat else none

/-- The byte at a distance from the most significant one, zero past the last. -/
def byteAt (w : Word) (i : Nat) : UInt8 :=
  if i < byteLength then UInt8.ofNat (w.toNat >>> (8 * (31 - i))) else 0

def shl (w : Word) (amount : Nat) : Word :=
  if amount < bitLength then w <<< amount else 0

def shr (w : Word) (amount : Nat) : Word :=
  if amount < bitLength then w >>> amount else 0

def toBytes (w : Word) : Bytes :=
  (BigEndian.encode byteLength w.toNat).toArray

/-- The word that at most 32 bytes spell, most significant first. -/
def ofBytes (bytes : Bytes) : Word :=
  BitVec.ofNat 256 (BigEndian.decode bytes.toList)

/-- All 64 hexadecimal digits after a marker. -/
def text (w : Word) : String :=
  "0x" ++ Hex.encode w.toBytes

@[simp] theorem size_toBytes (w : Word) : w.toBytes.size = 32 := by
  simp [toBytes, byteLength]

end Word

end StackAssembler

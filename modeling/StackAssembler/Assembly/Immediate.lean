import StackAssembler.Assembly.Error
import StackAssembler.Word

set_option autoImplicit false
set_option relaxedAutoImplicit false

namespace StackAssembler.Assembly

structure Immediate where
  bytes : List UInt8
  nonempty : 0 < bytes.length
  fits : bytes.length ≤ 32
  deriving DecidableEq

namespace Immediate

def width (immediate : Immediate) : Nat :=
  immediate.bytes.length

def opcode (immediate : Immediate) : Opcode :=
  .push ⟨immediate.bytes.length - 1, by
    have nonempty := immediate.nonempty
    have fits := immediate.fits
    omega⟩

def assemble (immediate : Immediate) : List UInt8 :=
  immediate.opcode.toByte :: immediate.bytes

def encodedLength (immediate : Immediate) : Nat :=
  1 + immediate.width

def ofBytes (bytes : List UInt8) : Except Error Immediate :=
  if inside : 0 < bytes.length ∧ bytes.length ≤ 32 then .ok ⟨bytes, inside.1, inside.2⟩
  else .error (.operandWidth bytes.length)

/-- A number in exactly `width` bytes, if that is a legal width and they hold it. -/
def padded? (value width : Nat) : Option Immediate :=
  if inside : 0 < width ∧ width ≤ 32 then
    if BigEndian.byteCount value ≤ width then
      some ⟨BigEndian.encode width value, by simpa using inside.1, by simpa using inside.2⟩
    else none
  else none

end Immediate

/-- The least legal width whose bytes hold a number; the widest one if none does. -/
def minimalWidth (n : Nat) : Nat :=
  min (BigEndian.byteCount n) Opcode.maxPushWidth

theorem minimalWidth_le (n : Nat) : minimalWidth n ≤ 32 :=
  Nat.min_le_right _ _

inductive Constant
  | int (value : Int)
  | bytes (value : List UInt8)
  | word (value : Word)
  deriving DecidableEq

/-- A number takes the fewest bytes that hold it, zero takes one. -/
def Constant.encode : Constant → Except Error Immediate
  | .int (.ofNat n) => Immediate.ofBytes (BigEndian.encode (BigEndian.byteCount n) n)
  | .int (.negSucc n) => .error (.negativeOperand (.negSucc n))
  | .bytes value => Immediate.ofBytes value
  | .word value => Immediate.ofBytes value.toBytes.toList

end StackAssembler.Assembly

import StackAssembler.Bytes
import StackAssembler.Opcode

/-!
Where a jump may land: on a `JUMPDEST` that starts an instruction when the code is read from its
first byte, and so is not part of a push's operand. A byte that stands for no opcode counts as an
instruction of its own.
-/

set_option autoImplicit false
set_option relaxedAutoImplicit false

namespace StackAssembler.Machine

def operandLength (byte : UInt8) : Nat :=
  match Opcode.ofByte? byte with
  | some op => op.immediateLength
  | none => 0

/-- A scan of the code so far: operand bytes still to be passed over, and one mark for each byte. -/
structure LandingScan where
  skip : Nat := 0
  marks : Array Bool := #[]

def LandingScan.next : LandingScan → UInt8 → LandingScan
  | ⟨0, marks⟩, byte => ⟨operandLength byte, marks.push (byte == Opcode.toByte .jumpdest)⟩
  | ⟨skip + 1, marks⟩, _ => ⟨skip, marks.push false⟩

/-- For every byte of the code, whether a jump may land on it. -/
def landings (code : Bytes) : Array Bool :=
  (code.foldl LandingScan.next {}).marks

end StackAssembler.Machine

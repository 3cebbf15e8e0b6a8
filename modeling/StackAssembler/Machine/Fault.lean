import StackAssembler.Opcode
import StackAssembler.Word

set_option autoImplicit false
set_option relaxedAutoImplicit false

namespace StackAssembler.Machine

inductive Fault
  | invalidOpcode (byte : UInt8) (pc : Nat)
  | unsupportedOpcode (op : Opcode) (pc : Nat)
  | stackUnderflow (op : Opcode) (pc : Nat)
  | stackOverflow (pc : Nat)
  | invalidJump (dest : Word) (pc : Nat)
  | memoryLimit (offset size : Word) (pc : Nat)
  | reverted (data : Bytes)
  | invalidInstruction (pc : Nat)
  deriving DecidableEq

def bracketed (data : Bytes) : String :=
  "[" ++ ", ".intercalate (data.toList.map Hex.ofByte) ++ "]"

def Fault.message : Fault → String
  | .invalidOpcode byte pc => s!"invalid opcode 0x{Hex.ofByte byte} at pc {pc}"
  | .unsupportedOpcode op pc => s!"unsupported opcode {op.mnemonic} at pc {pc}"
  | .stackUnderflow op pc => s!"stack underflow executing {op.mnemonic} at pc {pc}"
  | .stackOverflow pc => s!"stack overflow at pc {pc}"
  | .invalidJump dest pc => s!"invalid jump destination {dest.text} from pc {pc}"
  | .memoryLimit offset size pc =>
      s!"memory access {offset.text}+{size.text} exceeds limit at pc {pc}"
  | .reverted data => s!"execution reverted: {bracketed data}"
  | .invalidInstruction pc => s!"INVALID instruction at pc {pc}"

end StackAssembler.Machine

import StackAssembler.Slot

set_option autoImplicit false
set_option relaxedAutoImplicit false

namespace StackAssembler.Assembly

inductive Error
  | stackUnderflow (op : Opcode) (required depth : Nat)
  | stackOverflow (depth limit : Nat)
  | depthMismatch (expected actual : Nat)
  | arityMismatch (op : Opcode) (expected actual : Nat)
  | operandWidth (width : Nat)
  | negativeOperand (value : Int)
  | immediateRequired (op : Opcode)
  | undefinedLabel (label : String)
  | duplicateLabel (label : String)
  | labelOutOfReach (label : String) (offset width : Nat)
  | slotUnreachable (slot : Slot) (depth : Nat)
  deriving DecidableEq

def Error.message : Error → String
  | .stackUnderflow op required depth =>
      s!"stack underflow: {op.mnemonic} pops {required} but depth is {depth}"
  | .stackOverflow depth limit => s!"stack overflow: depth {depth} exceeds limit {limit}"
  | .depthMismatch expected actual => s!"stack depth mismatch: expected {expected}, got {actual}"
  | .arityMismatch op expected actual =>
      s!"arity mismatch: {op.mnemonic} takes {expected} arguments, got {actual}"
  | .operandWidth width => s!"push operand of {width} bytes outside 1..=32"
  | .negativeOperand value => s!"push operand {value} is negative"
  | .immediateRequired op => s!"{op.mnemonic} needs an immediate; use a push directive"
  | .undefinedLabel label => s!"undefined label: {label}"
  | .duplicateLabel label => s!"duplicate label: {label}"
  | .labelOutOfReach label offset width =>
      s!"label {label} at offset {offset} does not fit in {width} bytes"
  | .slotUnreachable slot depth => s!"stack slot {slot.text} unreachable at depth {depth}"

end StackAssembler.Assembly

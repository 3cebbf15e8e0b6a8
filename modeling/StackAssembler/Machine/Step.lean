import StackAssembler.Keccak
import StackAssembler.Machine.Fault
import StackAssembler.Machine.Memory
import StackAssembler.Machine.State

/-!
One instruction. Whatever its outcome, an instruction leaves a state from which the machine can go
on: operands are taken one after another, and those taken before a fault stay taken.
-/

set_option autoImplicit false
set_option relaxedAutoImplicit false

namespace StackAssembler.Machine

inductive Exit
  | halted (output : Bytes)
  | failed (fault : Fault)
  deriving DecidableEq

abbrev Exec := EStateM Exit State

/-- The instruction being executed and the position of its opcode. -/
structure Site where
  op : Opcode
  pc : Nat

namespace Site

def fail {α : Type} (fault : Fault) : Exec α :=
  throw (.failed fault)

def pop (site : Site) : Exec Word := fun s =>
  match s.stack with
  | top :: rest => .ok top { s with stack := rest }
  | [] => .error (.failed (.stackUnderflow site.op site.pc)) s

def push (site : Site) (word : Word) : Exec Unit := fun s =>
  if s.stack.length < stackLimit then .ok () { s with stack := word :: s.stack }
  else .error (.failed (.stackOverflow site.pc)) s

def touch (site : Site) (offset size : Word) : Exec Region := fun s =>
  match Region.ofWords? offset size with
  | some region => .ok region { s with memory := s.memory.growTo region.coveringSize }
  | none => .error (.failed (.memoryLimit offset size site.pc)) s

def load (site : Site) (offset size : Word) : Exec Bytes := do
  let region ← site.touch offset size
  return region.read (← get).memory

def store (site : Site) (offset size : Word) (data : Region → Bytes) : Exec Unit := do
  let region ← site.touch offset size
  modify fun s => { s with memory := region.write s.memory (data region) }

def unary (site : Site) (f : Word → Word) : Exec Unit := do
  let a ← site.pop
  site.push (f a)

/-- The first operand is the one on top. -/
def binary (site : Site) (f : Word → Word → Word) : Exec Unit := do
  let a ← site.pop
  let b ← site.pop
  site.push (f a b)

def jump (site : Site) (env : Env) (dest : Word) : Exec Unit := fun s =>
  if env.marks[dest.toNat]? = some true then .ok () { s with pc := dest.toNat }
  else .error (.failed (.invalidJump dest site.pc)) s

/-- Copies a window of a byte string into memory, zeros past its end. -/
def copyFrom (site : Site) (source : Bytes) : Exec Unit := do
  let dest ← site.pop
  let offset ← site.pop
  let size ← site.pop
  site.store dest size fun region => source.window offset.toNat region.length

/-- Pushes the operand that follows in the code, zeros past its end. -/
def pushOperand (site : Site) (env : Env) (width : Nat) : Exec Unit := do
  let pc := (← get).pc
  modify fun s => { s with pc := s.pc + width }
  site.push (Word.ofBytes (env.code.window pc width))

/-- Pushes a copy of the word below `n` others. -/
def duplicate (site : Site) (n : Nat) : Exec Unit := do
  match (← get).stack[n]? with
  | some word => site.push word
  | none => fail (.stackUnderflow site.op site.pc)

/-- Exchanges the top with the word below `n` others under it. -/
def exchange (site : Site) (n : Nat) : Exec Unit := fun s =>
  match s.stack with
  | top :: rest =>
      match rest[n]? with
      | some word => .ok () { s with stack := word :: rest.set n top }
      | none => .error (.failed (.stackUnderflow site.op site.pc)) s
  | [] => .error (.failed (.stackUnderflow site.op site.pc)) s

def output (site : Site) : Exec Bytes := do
  let offset ← site.pop
  let size ← site.pop
  site.load offset size

end Site

/-- The effect of an instruction, the state being at the byte behind its opcode. -/
def exec (env : Env) (site : Site) : Exec Unit :=
  match site.op with
  | .stop => throw (.halted #[])
  | .add => site.binary fun a b => a + b
  | .sub => site.binary fun a b => a - b
  | .lt => site.binary fun a b => Word.ofBool (a < b)
  | .gt => site.binary fun a b => Word.ofBool (b < a)
  | .eq => site.binary fun a b => Word.ofBool (a == b)
  | .and => site.binary fun a b => a &&& b
  | .or => site.binary fun a b => a ||| b
  | .xor => site.binary fun a b => a ^^^ b
  | .byte => site.binary fun i word => (word.byteAt i.toNat).toBitVec.setWidth 256
  | .shl => site.binary fun amount word => word.shl amount.toNat
  | .shr => site.binary fun amount word => word.shr amount.toNat
  | .iszero => site.unary fun a => Word.ofBool (a == 0)
  | .not => site.unary fun a => ~~~ a
  | .keccak256 => do
      let offset ← site.pop
      let size ← site.pop
      let message ← site.load offset size
      site.push (Keccak.digest message)
  | .calldataload => site.unary fun offset => Word.ofBytes (env.calldata.window offset.toNat 32)
  | .calldatasize => site.push (BitVec.ofNat 256 env.calldata.size)
  | .calldatacopy => site.copyFrom env.calldata
  | .codesize => site.push (BitVec.ofNat 256 env.code.size)
  | .codecopy => site.copyFrom env.code
  | .pop => discard site.pop
  | .mload => do
      let offset ← site.pop
      let bytes ← site.load offset 32
      site.push (Word.ofBytes bytes)
  | .mstore => do
      let offset ← site.pop
      let value ← site.pop
      site.store offset 32 fun _ => value.toBytes
  | .mstore8 => do
      let offset ← site.pop
      let value ← site.pop
      site.store offset 1 fun _ => #[value.byteAt 31]
  | .jump => do
      let dest ← site.pop
      site.jump env dest
  | .jumpi => do
      let dest ← site.pop
      let condition ← site.pop
      if condition = 0 then pure () else site.jump env dest
  | .pc => site.push (BitVec.ofNat 256 site.pc)
  | .msize => do site.push (BitVec.ofNat 256 (← get).memory.size)
  | .jumpdest => pure ()
  | .push0 => site.push 0
  | .push i => site.pushOperand env (i + 1)
  | .dup i => site.duplicate i
  | .swap i => site.exchange i
  | .ret => do
      let data ← site.output
      throw (.halted data)
  | .revert => do
      let data ← site.output
      Site.fail (.reverted data)
  | .invalid => Site.fail (.invalidInstruction site.pc)
  | _ => Site.fail (.unsupportedOpcode site.op site.pc)

/-- Executes the next instruction. Past the last byte the run ends without output; at a byte that
stands for no opcode it fails in place. -/
def step (env : Env) : Exec Unit := fun s =>
  match env.code[s.pc]? with
  | none => .error (.halted #[]) s
  | some byte =>
      match Opcode.ofByte? byte with
      | none => .error (.failed (.invalidOpcode byte s.pc)) s
      | some op => exec env ⟨op, s.pc⟩ { s with pc := s.pc + 1 }

end StackAssembler.Machine

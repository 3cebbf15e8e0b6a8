import StackAssembler.Assembly.Directive
import StackAssembler.Assembly.StackDepth

set_option autoImplicit false
set_option relaxedAutoImplicit false

namespace StackAssembler.Assembly

inductive Item
  | op (op : Opcode)
  | push (immediate : Immediate)
  | pushLabel (name : String)
  | label (name : String)
  deriving DecidableEq

structure Listing where
  tracker : StackDepth
  items : Array Item
  deriving DecidableEq

namespace Listing

def empty (limit : Nat) : Listing :=
  ⟨{ limit }, #[]⟩

def emit : Listing → Opcode → Item → Except Error Listing
  | ⟨tracker, items⟩, op, item => do
      let tracker ← tracker.apply op
      return ⟨tracker, items.push item⟩

def emitOp (listing : Listing) (op : Opcode) : Except Error Listing :=
  if op.isPush then .error (.immediateRequired op) else listing.emit op (.op op)

def track : Listing → (StackDepth → Except Error StackDepth) → Except Error Listing
  | ⟨tracker, items⟩, use => do
      let tracker ← use tracker
      return ⟨tracker, items⟩

end Listing

mutual

def Directive.flatten : Directive → Listing → Except Error Listing
  | .op op, listing => listing.emitOp op
  | .push value, listing => do
      let immediate ← value.encode
      listing.emit immediate.opcode (.push immediate)
  | .pushLabel name, listing => listing.emit (.push 0) (.pushLabel name)
  | .label name, listing => listing.emit .jumpdest (.label name)
  | .expectDepth depth, listing => listing.track (·.expect depth)
  | .setDepth depth, listing => listing.track (·.set depth)
  | .call op args, listing =>
      if args.length = op.pops then do
        let listing ← flattenArguments args listing
        listing.emitOp op
      else .error (.arityMismatch op op.pops args.length)
  | .inverted slot, listing => do
      let op ← listing.tracker.resolve slot
      listing.emitOp op

/-- Flattens the arguments of a call, each of which must leave exactly one word. -/
def flattenArguments : List Directive → Listing → Except Error Listing
  | [], listing => .ok listing
  | arg :: rest, listing => do
      let entry := listing.tracker.depth
      let listing ← arg.flatten listing
      let listing ← listing.track (·.expect (entry + 1))
      flattenArguments rest listing

end

namespace Program

def flattenAfter (program : Program) (listing : Listing) : Except Error Listing :=
  program.foldlM (fun listing directive => directive.flatten listing) listing

def flatten (limit : Nat) (program : Program) : Except Error Listing :=
  flattenAfter program (Listing.empty limit)

end Program

end StackAssembler.Assembly

import StackAssembler.Assembly.Directive

set_option autoImplicit false
set_option relaxedAutoImplicit false

namespace StackAssembler.Sample

open Assembly

def copyCalldata : Directive :=
  .call .calldatacopy [.op .calldatasize, .op .push0, .op .push0]

def echo : Program :=
  [copyCalldata, .call .ret [.op .calldatasize, .op .push0]]

def keccak : Program :=
  [copyCalldata,
    .call .keccak256 [.op .calldatasize, .op .push0],
    .op .push0,
    .op .mstore,
    .call .ret [.push (.int 32), .op .push0]]

/-- Returns what follows the first byte of the calldata if that byte is zero, and its digest if it
is not. -/
def hashOrEcho : Program :=
  [.call .sub [.push (.int 1), .op .calldatasize],
    .call .calldatacopy [.op (.dup 0), .push (.int 1), .op .push0],
    .call .jumpi
      [.call .shr [.call .calldataload [.op .push0], .push (.int 248)], .pushLabel "hash"],
    .label "return",
    .expectDepth 1,
    .op .push0,
    .op .ret,
    .label "hash",
    .setDepth 1,
    .op .push0,
    .op .keccak256,
    .op .push0,
    .op .mstore,
    .push (.int 32),
    .call .jump [.pushLabel "return"]]

/-- Pushes `depth` words, each the offset of its own push, uses the slot, and returns the low byte
of the word that is then on top. -/
def stackMarker (depth : Nat) (slot : Slot) : Program :=
  List.replicate depth (.op .pc) ++
    [.inverted slot, .op .push0, .op .mstore, .call .ret [.push (.int 1), .push (.int 31)]]

def names : List String := ["echo", "keccak", "hash-or-echo"]

def byName? : String → Option Program
  | "echo" => some echo
  | "keccak" => some keccak
  | "hash-or-echo" => some hashOrEcho
  | _ => none

end StackAssembler.Sample

import StackAssembler.Opcode

/-!
Stack slots counted from the bottom of the reachable window, from one up. While the stack is no
deeper than the window the count starts at the bottom of the stack.
-/

set_option autoImplicit false
set_option relaxedAutoImplicit false

namespace StackAssembler

inductive Slot
  | dup (k : Nat)
  | swap (k : Nat)
  deriving DecidableEq

namespace Slot

def index : Slot → Nat
  | .dup k | .swap k => k

def text : Slot → String
  | .dup k => "inverted DUP" ++ toString k
  | .swap k => "inverted SWAP" ++ toString k

/-- How many words from the top slot `k` is, at a given depth. The top word is one away. -/
def fromTop? (k depth : Nat) : Option Nat :=
  match k with
  | 0 => none
  | below + 1 =>
      let position := below + (depth - Opcode.stackWindow)
      if position < depth then some (depth - position) else none

/-- The opcode that reaches the slot at a given depth. Nothing exchanges the top with itself. -/
def resolve? (slot : Slot) (depth : Nat) : Option Opcode :=
  match slot with
  | .dup k => (fromTop? k depth).bind Opcode.dup?
  | .swap k => (fromTop? k depth).bind fun n => Opcode.swap? (n - 1)

theorem resolve?_eq_some {slot : Slot} {depth : Nat} {op : Opcode}
    (resolved : slot.resolve? depth = some op) : (∃ i, op = .dup i) ∨ ∃ i, op = .swap i := by
  unfold resolve? at resolved
  split at resolved
  · obtain ⟨n, _, reached⟩ := Option.bind_eq_some_iff.mp resolved
    unfold Opcode.dup? at reached
    split at reached
    · exact .inl ⟨_, (Option.some.inj reached).symm⟩
    · cases reached
  · obtain ⟨n, _, reached⟩ := Option.bind_eq_some_iff.mp resolved
    unfold Opcode.swap? at reached
    split at reached
    · exact .inr ⟨_, (Option.some.inj reached).symm⟩
    · cases reached

end Slot

end StackAssembler

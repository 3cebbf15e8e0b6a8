import StackAssembler.Assembly.Immediate

/-!
Programs as trees of directives. A call lists its arguments before the instruction that consumes
them; the last argument ends up on top of the stack.
-/

set_option autoImplicit false
set_option relaxedAutoImplicit false

namespace StackAssembler.Assembly

inductive Directive
  | op (op : Opcode)
  | push (value : Constant)
  | pushLabel (name : String)
  | label (name : String)
  | expectDepth (depth : Nat)
  | setDepth (depth : Nat)
  | call (op : Opcode) (args : List Directive)
  | inverted (slot : Slot)

abbrev Program := List Directive

mutual

def Directive.same : Directive → Directive → Bool
  | .op a, .op b => a == b
  | .push a, .push b => a == b
  | .pushLabel a, .pushLabel b => a == b
  | .label a, .label b => a == b
  | .expectDepth a, .expectDepth b => a == b
  | .setDepth a, .setDepth b => a == b
  | .call a as, .call b bs => a == b && sameAll as bs
  | .inverted a, .inverted b => a == b
  | _, _ => false

def sameAll : List Directive → List Directive → Bool
  | [], [] => true
  | a :: as, b :: bs => a.same b && sameAll as bs
  | _, _ => false

end

mutual

theorem Directive.same_iff (a b : Directive) : a.same b = true ↔ a = b := by
  cases a <;> cases b <;> simp [Directive.same, sameAll_iff]

theorem sameAll_iff (as bs : List Directive) : sameAll as bs = true ↔ as = bs := by
  match as, bs with
  | [], [] => simp [sameAll]
  | [], _ :: _ => simp [sameAll]
  | _ :: _, [] => simp [sameAll]
  | a :: as, b :: bs => simp [sameAll, Directive.same_iff a b, sameAll_iff as bs]

end

instance : DecidableEq Directive := fun a b =>
  decidable_of_iff (a.same b = true) (Directive.same_iff a b)

end StackAssembler.Assembly

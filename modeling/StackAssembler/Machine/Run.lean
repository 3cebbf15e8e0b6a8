import StackAssembler.Machine.Step

/-!
Runs: steps until one of them ends the run. A program may run forever, so the number of steps is
bounded by an argument, and a run that is not over within it has no verdict. Stopped machines can be
run again and go on from where they stopped.
-/

set_option autoImplicit false
set_option relaxedAutoImplicit false

namespace StackAssembler.Machine

abbrev Verdict := Except Fault Bytes

def Exit.verdict : Exit → Verdict
  | .halted output => .ok output
  | .failed fault => .error fault

def run (env : Env) : Nat → State → Option (Verdict × State)
  | 0, _ => none
  | steps + 1, s =>
      match step env s with
      | .ok _ next => run env steps next
      | .error exit final => some (exit.verdict, final)

/-- More steps than any machine will ever make. -/
def ampleSteps : Nat := Nat.pow 2 62

def execute (steps : Nat) (code calldata : Bytes) : Option Verdict :=
  (run (.of code calldata) steps {}).map (·.1)

/-- The verdicts of repeated runs of one machine, up to the first that is not over. -/
def runRepeatedly (env : Env) (steps : Nat) : Nat → State → List Verdict
  | 0, _ => []
  | times + 1, s =>
      match run env steps s with
      | none => []
      | some (verdict, final) => verdict :: runRepeatedly env steps times final

end StackAssembler.Machine

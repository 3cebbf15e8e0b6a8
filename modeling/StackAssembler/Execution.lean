import StackAssembler.Assembly.Layout
import StackAssembler.Machine.Run

set_option autoImplicit false
set_option relaxedAutoImplicit false

namespace StackAssembler

/-- The stage at which running a program failed, with the cause. -/
inductive RunError
  | compile (cause : Assembly.Error)
  | execute (cause : Machine.Fault)
  deriving DecidableEq

namespace RunError

def message : RunError → String
  | .compile _ => "compilation failed"
  | .execute _ => "execution failed"

def causeMessage : RunError → String
  | .compile cause => cause.message
  | .execute cause => cause.message

end RunError

/-- The output of a program on given calldata, if it ends within the given number of steps. -/
def runProgram (steps : Nat) (program : Assembly.Program) (calldata : Bytes) :
    Option (Except RunError Bytes) :=
  match Assembly.compile {} program with
  | .error cause => some (.error (.compile cause))
  | .ok code => (Machine.execute steps code calldata).map (Except.mapError .execute)

end StackAssembler

import StackAssembler.Machine.Landing
import StackAssembler.Word

set_option autoImplicit false
set_option relaxedAutoImplicit false

namespace StackAssembler.Machine

structure Env where
  code : Bytes
  calldata : Bytes
  marks : Array Bool := landings code
  marks_eq : marks = landings code := by rfl

def Env.of (code calldata : Bytes) : Env :=
  { code, calldata }

@[simp] theorem Env.code_of (code calldata : Bytes) : (Env.of code calldata).code = code :=
  rfl

@[simp] theorem Env.calldata_of (code calldata : Bytes) :
    (Env.of code calldata).calldata = calldata :=
  rfl

@[simp] theorem Env.marks_of (code calldata : Bytes) :
    (Env.of code calldata).marks = landings code :=
  rfl

/-- The next position in the code, the stack from its top down, and the memory. -/
structure State where
  pc : Nat := 0
  stack : List Word := []
  memory : Bytes := #[]
  deriving DecidableEq

end StackAssembler.Machine

set_option autoImplicit false
set_option relaxedAutoImplicit false

namespace StackAssembler

/-- The most words that the stack may hold. -/
def stackLimit : Nat := 1024

/-- The most bytes that the memory may hold. -/
def memoryLimit : Nat := 1048576

end StackAssembler

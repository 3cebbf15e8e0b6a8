import StackAssembler.Limits
import StackAssembler.Word

/-!
Regions of memory. A region of no bytes lies nowhere and costs nothing; any other must end within
the limit, and memory grows to cover it in whole words.
-/

set_option autoImplicit false
set_option relaxedAutoImplicit false

namespace StackAssembler.Machine

structure Region where
  start : Nat
  length : Nat
  deriving DecidableEq

namespace Region

def finish (region : Region) : Nat :=
  region.start + region.length

/-- The region that an instruction names, if the memory may hold it. -/
def ofWords? (offset size : Word) : Option Region :=
  if size = 0 then some ⟨0, 0⟩
  else if offset.toNat + size.toNat ≤ memoryLimit then some ⟨offset.toNat, size.toNat⟩
  else none

/-- Bytes of memory in whole words that cover the region. -/
def coveringSize (region : Region) : Nat :=
  (region.finish + 31) / 32 * 32

def read (region : Region) (memory : Bytes) : Bytes :=
  memory.window region.start region.length

def write (region : Region) (memory data : Bytes) : Bytes :=
  memory.overwrite region.start data

end Region

end StackAssembler.Machine

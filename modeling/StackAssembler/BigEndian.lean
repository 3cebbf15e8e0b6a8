set_option autoImplicit false
set_option relaxedAutoImplicit false

namespace StackAssembler.BigEndian

/-- The low `width` bytes of a number, most significant first. -/
def encode : Nat → Nat → List UInt8
  | 0, _ => []
  | width + 1, n => UInt8.ofNat (n >>> (8 * width)) :: encode width n

def decode (bytes : List UInt8) : Nat :=
  bytes.foldl (fun n byte => 256 * n + byte.toNat) 0

/-- The least number of bytes, at least one, that spell `n`. -/
def byteCount (n : Nat) : Nat :=
  n.log2 / 8 + 1

@[simp] theorem length_encode (width n : Nat) : (encode width n).length = width := by
  induction width with
  | zero => rfl
  | succ width ih => simp [encode, ih]

theorem byteCount_pos (n : Nat) : 0 < byteCount n := by
  simp [byteCount]

end StackAssembler.BigEndian

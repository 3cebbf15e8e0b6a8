import StackAssembler.Word

/-!
The Keccak-256 digest: a sponge of 25 lanes of 64 bits over blocks of 136 bytes, with padding byte
`0x01`. Bytes are absorbed one at a time, so a message may be given in pieces.
-/

set_option autoImplicit false
set_option relaxedAutoImplicit false

namespace StackAssembler.Keccak

/-- Lane `x + 5 * y` stands in column `x` and row `y`. -/
abbrev Lanes := Vector UInt64 25

def rotateLeft (lane : UInt64) (amount : UInt64) : UInt64 :=
  lane <<< amount ||| lane >>> (64 - amount)

def rotations : Vector UInt64 25 :=
  #v[0, 1, 62, 28, 27, 36, 44, 6, 55, 20, 3, 10, 43, 25, 39, 41, 45, 15, 21, 8, 18, 2, 61, 56, 14]

def roundConstants : List UInt64 :=
  [0x0000000000000001, 0x0000000000008082, 0x800000000000808a, 0x8000000080008000,
    0x000000000000808b, 0x0000000080000001, 0x8000000080008081, 0x8000000000008009,
    0x000000000000008a, 0x0000000000000088, 0x0000000080008009, 0x000000008000000a,
    0x000000008000808b, 0x800000000000008b, 0x8000000000008089, 0x8000000000008003,
    0x8000000000008002, 0x8000000000000080, 0x000000000000800a, 0x800000008000000a,
    0x8000000080008081, 0x8000000000008080, 0x0000000080000001, 0x8000000080008008]

def lane (lanes : Lanes) (x y : Fin 5) : UInt64 :=
  lanes[x.val + 5 * y.val]

def ofColumnRow (f : Fin 5 → Fin 5 → UInt64) : Lanes :=
  Vector.ofFn fun i : Fin 25 => f ⟨i % 5, by omega⟩ ⟨i / 5, by omega⟩

/-- Adds to every lane the parities of two neighbouring columns. -/
def mixColumns (lanes : Lanes) : Lanes :=
  let parity : Vector UInt64 5 := Vector.ofFn fun x =>
    lane lanes x 0 ^^^ lane lanes x 1 ^^^ lane lanes x 2 ^^^ lane lanes x 3 ^^^ lane lanes x 4
  let shift : Vector UInt64 5 := Vector.ofFn fun x : Fin 5 =>
    parity[x + 4] ^^^ rotateLeft parity[x + 1] 1
  ofColumnRow fun x y => lane lanes x y ^^^ shift[x]

/-- Turns every lane and moves it to its new place. -/
def turnAndMove (lanes : Lanes) : Lanes :=
  ofColumnRow fun x y => rotateLeft (lane lanes (x + 3 * y) x) (lane rotations (x + 3 * y) x)

/-- Mixes every lane with the two to its right. -/
def mixRows (lanes : Lanes) : Lanes :=
  ofColumnRow fun x y => lane lanes x y ^^^ (~~~ lane lanes (x + 1) y &&& lane lanes (x + 2) y)

def round (lanes : Lanes) (constant : UInt64) : Lanes :=
  let mixed := mixRows (turnAndMove (mixColumns lanes))
  mixed.set 0 (mixed[0] ^^^ constant)

def permute (lanes : Lanes) : Lanes :=
  roundConstants.foldl round lanes

/-- Bytes absorbed between two permutations. -/
def rate : Nat := 136

/-- The eight bytes from `start` on, least significant first. -/
def laneAt (block : Bytes) (start : Nat) : UInt64 :=
  (List.range 8).foldr (fun i rest => rest <<< 8 ||| (block.byteAt (start + i)).toUInt64) 0

def absorbBlock (lanes : Lanes) (block : Bytes) : Lanes :=
  permute (Vector.ofFn fun i : Fin 25 =>
    if i.val < 17 then lanes[i] ^^^ laneAt block (8 * i) else lanes[i])

/-- A message absorbed so far: the lanes, and the bytes that do not fill a block yet. -/
structure Sponge where
  lanes : Lanes := Vector.replicate 25 0
  pending : Bytes := #[]

namespace Sponge

def absorbByte : Sponge → UInt8 → Sponge
  | ⟨lanes, pending⟩, byte =>
      let block := pending.push byte
      if block.size < rate then ⟨lanes, block⟩ else ⟨absorbBlock lanes block, #[]⟩

def absorb (sponge : Sponge) (message : Bytes) : Sponge :=
  message.foldl absorbByte sponge

/-- The last block: a one after the message, zeros, and a final high bit. -/
def paddedBlock (pending : Bytes) : Bytes :=
  let block := Bytes.growTo (pending.push 0x01) rate
  block.setIfInBounds (rate - 1) (block.byteAt (rate - 1) ||| 0x80)

/-- The first 32 bytes of the lanes after the last block. -/
def finish (sponge : Sponge) : Word :=
  let lanes := absorbBlock sponge.lanes (paddedBlock sponge.pending)
  Word.ofBytes <| Array.ofFn fun i : Fin 32 =>
    (lanes[i.val / 8] >>> (8 * (i.val % 8)).toUInt64).toUInt8

end Sponge

def digest (message : Bytes) : Word :=
  (Sponge.absorb {} message).finish

theorem Sponge.absorb_append (sponge : Sponge) (first second : Bytes) :
    sponge.absorb (first ++ second) = (sponge.absorb first).absorb second := by
  simp [absorb]

private theorem foldl_absorb (sponge : Sponge) (first : Bytes) (pieces : List Bytes) :
    pieces.foldl Sponge.absorb (sponge.absorb first) =
      sponge.absorb (pieces.foldl (· ++ ·) first) := by
  induction pieces generalizing first with
  | nil => rfl
  | cons piece rest ih => rw [List.foldl_cons, List.foldl_cons, ← Sponge.absorb_append, ih]

theorem digest_of_pieces (pieces : List Bytes) :
    (pieces.foldl Sponge.absorb {}).finish = digest (pieces.foldl (· ++ ·) #[]) :=
  congrArg Sponge.finish (foldl_absorb {} #[] pieces)

end StackAssembler.Keccak

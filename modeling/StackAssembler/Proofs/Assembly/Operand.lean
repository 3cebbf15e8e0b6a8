import StackAssembler.Assembly.Immediate
import StackAssembler.Proofs.Numeral

set_option autoImplicit false
set_option relaxedAutoImplicit false

namespace StackAssembler.Assembly

def Constant.value : Constant → Int
  | .int value => value
  | .bytes value => BigEndian.decode value
  | .word value => value.toNat

theorem Immediate.ofBytes_eq_ok {bytes : List UInt8} {immediate : Immediate}
    (read : Immediate.ofBytes bytes = .ok immediate) : immediate.bytes = bytes := by
  unfold Immediate.ofBytes at read
  split at read
  · cases read
    rfl
  · cases read

theorem Immediate.padded?_eq_some_iff {value width : Nat} {immediate : Immediate} :
    Immediate.padded? value width = some immediate ↔
      (1 ≤ width ∧ width ≤ 32) ∧ value < 256 ^ width ∧
        immediate.bytes = BigEndian.encode width value := by
  unfold Immediate.padded?
  split
  · rename_i legal
    rw [← BigEndian.byteCount_le_iff legal.1]
    split
    · rename_i fits
      rw [Option.some.injEq]
      constructor
      · rintro rfl
        exact ⟨legal, fits, rfl⟩
      · rintro ⟨_, _, bytes⟩
        cases immediate
        cases bytes
        rfl
    · rename_i far
      simp [far]
  · rename_i illegal
    constructor
    · intro padded
      cases padded
    · intro padded
      exact absurd padded.1 illegal

theorem Constant.decode_of_encode {constant : Constant} {immediate : Immediate}
    (encoded : constant.encode = .ok immediate) :
    (BigEndian.decode immediate.bytes : Int) = constant.value := by
  cases constant with
  | int value =>
      cases value with
      | ofNat n =>
          have fits : n < 256 ^ BigEndian.byteCount n :=
            (BigEndian.byteCount_le_iff (BigEndian.byteCount_pos n)).mp (Nat.le_refl _)
          rw [Immediate.ofBytes_eq_ok encoded, BigEndian.decode_encode, Nat.mod_eq_of_lt fits]
          rfl
      | negSucc n => cases encoded
  | bytes value =>
      rw [Immediate.ofBytes_eq_ok encoded]
      rfl
  | word value =>
      have fits : value.toNat < 256 ^ Word.byteLength := value.isLt
      have bytes : immediate.bytes = BigEndian.encode Word.byteLength value.toNat :=
        Immediate.ofBytes_eq_ok encoded
      rw [bytes, BigEndian.decode_encode, Nat.mod_eq_of_lt fits]
      rfl

/-- The word that the machine reads from the bytes of an immediate. -/
def Immediate.word (immediate : Immediate) : Word :=
  Word.ofBytes immediate.bytes.toArray

theorem Immediate.toNat_word (immediate : Immediate) :
    immediate.word.toNat = BigEndian.decode immediate.bytes :=
  Word.toNat_ofBytes immediate.fits

theorem Constant.word_of_encode {constant : Constant} {immediate : Immediate}
    (encoded : constant.encode = .ok immediate) :
    immediate.word = BitVec.ofInt 256 constant.value := by
  rw [← Constant.decode_of_encode encoded, ← immediate.toNat_word, BitVec.ofInt_natCast,
    BitVec.ofNat_toNat, BitVec.setWidth_eq]

end StackAssembler.Assembly

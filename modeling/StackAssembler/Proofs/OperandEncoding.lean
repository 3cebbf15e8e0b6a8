import StackAssembler.Proofs.Assembly.Operand
import StackAssembler.Proofs.Machine.Effect

set_option autoImplicit false
set_option relaxedAutoImplicit false

namespace StackAssembler.Assembly

open Machine

/-- Integer constants are signed numbers of 128 bits. -/
def Constant.Admissible : Constant → Prop
  | .int value => -(2 ^ 127 : Nat) ≤ value ∧ value < (2 ^ 127 : Nat)
  | .bytes _ | .word _ => True

def Constant.Encodable : Constant → Prop
  | .int value => 0 ≤ value
  | .bytes value => 1 ≤ value.length ∧ value.length ≤ 32
  | .word _ => True

/-- Which bytes a constant is pushed as: a number as few as hold it, bytes as they are, and a word all
of its own. -/
def Constant.Form (immediate : Immediate) : Constant → Prop
  | .int value => value < (256 ^ immediate.width : Nat) ∧
      ∀ n, 1 ≤ n → value < (256 ^ n : Nat) → immediate.width ≤ n
  | .bytes value => immediate.bytes = value
  | .word _ => immediate.width = 32

namespace Immediate

def StandsAt (immediate : Immediate) (code : Bytes) (pc : Nat) : Prop :=
  ∃ head tail, code.toList = head ++ immediate.assemble ++ tail ∧ head.length = pc

/-- The immediate spells a number, and wherever its instruction stands the machine pushes that
number. -/
structure Carries (immediate : Immediate) (value : Int) : Prop where
  opcode : Opcode.push? immediate.width = some immediate.opcode
  spelt : BigEndian.decode immediate.bytes = value
  pushed : ∀ (env : Env) (s : State), immediate.StandsAt env.code s.pc → s.stack.length < 1024 →
    ∃ word : Word, word.toNat = value ∧
      step env s = .ok () ⟨s.pc + immediate.encodedLength, word :: s.stack, s.memory⟩

theorem push?_width (immediate : Immediate) :
    Opcode.push? immediate.width = some immediate.opcode := by
  have legal : 1 ≤ immediate.width ∧ immediate.width ≤ 32 := ⟨immediate.nonempty, immediate.fits⟩
  rw [Opcode.push?, dif_pos legal]
  rfl

theorem StandsAt.fetched {immediate : Immediate} {code : Bytes} {pc : Nat}
    (stands : immediate.StandsAt code pc) : code[pc]? = some immediate.opcode.toByte := by
  obtain ⟨head, tail, parts, rfl⟩ := stands
  rw [← Array.getElem?_toList, parts, List.append_assoc,
    List.getElem?_append_right (Nat.le_refl _), Nat.sub_self]
  rfl

theorem StandsAt.operand {immediate : Immediate} {code : Bytes} {pc : Nat}
    (stands : immediate.StandsAt code pc) :
    code.window (pc + 1) immediate.width = immediate.bytes.toArray := by
  obtain ⟨head, tail, parts, rfl⟩ := stands
  have shifted : code.toList = (head ++ [immediate.opcode.toByte]) ++ immediate.bytes ++ tail := by
    rw [parts, assemble]
    simp
  have window := Bytes.window_of_toList shifted
  rwa [List.length_append, List.length_singleton] at window

theorem StandsAt.step_eq {immediate : Immediate} {env : Env} {s : State}
    (stands : immediate.StandsAt env.code s.pc) (room : s.stack.length < stackLimit) :
    step env s = .ok () ⟨s.pc + immediate.encodedLength, immediate.word :: s.stack, s.memory⟩ := by
  have width : immediate.bytes.length - 1 + 1 = immediate.width :=
    Nat.sub_add_cancel immediate.nonempty
  have effects : effect env immediate.opcode s.pc s.memory [] =
      .proceed [immediate.word] s.memory := by
    simp only [opcode, effect, width, stands.operand]
    rfl
  have length : immediate.opcode.encodedLength = immediate.encodedLength :=
    congrArg (1 + ·) width
  have bounded : ([] : List Word).length + s.stack.length ≤ stackLimit := by
    rw [List.length_nil]
    omega
  have fits : [immediate.word].length + s.stack.length ≤ stackLimit := by
    rw [List.length_singleton]
    omega
  have stepped := step_modelled s.memory stands.fetched rfl rfl bounded
  rwa [effects, Effect.resume, if_pos fits, length] at stepped

theorem carries_of_decode {immediate : Immediate} {value : Int}
    (spelt : BigEndian.decode immediate.bytes = value) : immediate.Carries value where
  opcode := immediate.push?_width
  spelt := spelt
  pushed _ _ stands room :=
    ⟨immediate.word, by rw [immediate.toNat_word, spelt], stands.step_eq room⟩

theorem ofBytes_eq_ok_iff {bytes : List UInt8} :
    (∃ immediate, ofBytes bytes = .ok immediate) ↔ 1 ≤ bytes.length ∧ bytes.length ≤ 32 := by
  unfold ofBytes
  split
  · rename_i legal
    exact ⟨fun _ => legal, fun _ => ⟨_, rfl⟩⟩
  · rename_i illegal
    constructor
    · rintro ⟨_, read⟩
      cases read
    · intro legal
      exact absurd legal illegal

end Immediate

section Constants

variable {constant : Constant} {immediate : Immediate}

private theorem byteCount_le_of_admissible {n : Nat}
    (admissible : (Constant.int (.ofNat n)).Admissible) : BigEndian.byteCount n ≤ 32 := by
  have small : n < 2 ^ 127 := Int.ofNat_lt.mp admissible.2
  rw [BigEndian.byteCount_le_iff (by decide)]
  calc n < 2 ^ 127 := small
    _ < 256 ^ 32 := by decide

theorem Constant.encode_eq_ok_iff (admissible : constant.Admissible) :
    (∃ immediate, constant.encode = .ok immediate) ↔ constant.Encodable := by
  cases constant with
  | int value =>
      cases value with
      | ofNat n =>
          have count := byteCount_le_of_admissible admissible
          have positive := BigEndian.byteCount_pos n
          rw [encode, Immediate.ofBytes_eq_ok_iff, BigEndian.length_encode]
          exact ⟨fun _ => Int.natCast_nonneg n, fun _ => ⟨positive, count⟩⟩
      | negSucc n =>
          constructor
          · rintro ⟨immediate, encoded⟩
            cases encoded
          · intro encodable
            exact absurd encodable (Int.not_le.mpr (Int.negSucc_lt_zero n))
  | bytes value => exact Immediate.ofBytes_eq_ok_iff
  | word value =>
      have length : value.toBytes.toList.length = 32 := Word.size_toBytes value
      rw [encode, Immediate.ofBytes_eq_ok_iff, length]
      exact ⟨fun _ => trivial, fun _ => by decide⟩

theorem Constant.form_of_encode (encoded : constant.encode = .ok immediate) :
    constant.Form immediate := by
  cases constant with
  | int value =>
      cases value with
      | ofNat n =>
          have bytes := Immediate.ofBytes_eq_ok encoded
          have width : immediate.width = BigEndian.byteCount n := by
            rw [Immediate.width, bytes, BigEndian.length_encode]
          have holds : ∀ m, 1 ≤ m → (BigEndian.byteCount n ≤ m ↔ n < 256 ^ m) :=
            fun m positive => BigEndian.byteCount_le_iff positive
          rw [Form, width]
          constructor
          · exact Int.ofNat_lt.mpr ((holds _ (BigEndian.byteCount_pos n)).mp (Nat.le_refl _))
          · intro m positive enough
            exact (holds m positive).mpr (Int.ofNat_lt.mp enough)
      | negSucc n => cases encoded
  | bytes value => exact Immediate.ofBytes_eq_ok encoded
  | word value =>
      rw [Form, Immediate.width, Immediate.ofBytes_eq_ok encoded]
      exact Word.size_toBytes value

theorem Constant.encode_negative {value : Int} (negative : value < 0) :
    (Constant.int value).encode = .error (.negativeOperand value) := by
  cases value with
  | ofNat n => exact absurd negative (Int.not_lt.mpr (Int.natCast_nonneg n))
  | negSucc n => rfl

end Constants

structure EncodesExactly (constant : Constant) : Prop where
  succeeds : (∃ immediate, constant.encode = .ok immediate) ↔ constant.Encodable
  negative : ∀ value, constant = .int value → value < 0 →
    constant.encode = .error (.negativeOperand value)
  misfit : ∀ value, constant = .bytes value → ¬ (1 ≤ value.length ∧ value.length ≤ 32) →
    constant.encode = .error (.operandWidth value.length)
  form : ∀ immediate, constant.encode = .ok immediate → constant.Form immediate
  carries : ∀ immediate, constant.encode = .ok immediate → immediate.Carries constant.value

structure PadsExactly (value width : Nat) : Prop where
  succeeds : (∃ immediate, Immediate.padded? value width = some immediate) ↔
    (1 ≤ width ∧ width ≤ 32) ∧ value < 256 ^ width
  exact : ∀ immediate, Immediate.padded? value width = some immediate → immediate.width = width
  carries : ∀ immediate, Immediate.padded? value width = some immediate → immediate.Carries value

theorem encodesExactly {constant : Constant} (admissible : constant.Admissible) :
    EncodesExactly constant where
  succeeds := Constant.encode_eq_ok_iff admissible
  negative value same negative := by
    rw [same]
    exact Constant.encode_negative negative
  misfit value same illegal := by
    have illegal : ¬ (0 < value.length ∧ value.length ≤ 32) := illegal
    rw [same, Constant.encode, Immediate.ofBytes, dif_neg illegal]
  form _ encoded := Constant.form_of_encode encoded
  carries _ encoded := Immediate.carries_of_decode (Constant.decode_of_encode encoded)

theorem padsExactly (value width : Nat) : PadsExactly value width where
  succeeds := by
    simp only [Immediate.padded?_eq_some_iff]
    constructor
    · rintro ⟨_, legal, fits, _⟩
      exact ⟨legal, fits⟩
    · rintro ⟨legal, fits⟩
      refine ⟨⟨BigEndian.encode width value, ?_, ?_⟩, legal, fits, rfl⟩
      · simpa using Nat.lt_of_succ_le legal.1
      · simpa using legal.2
  exact immediate padded := by
    obtain ⟨_, _, bytes⟩ := Immediate.padded?_eq_some_iff.mp padded
    rw [Immediate.width, bytes, BigEndian.length_encode]
  carries immediate padded := by
    obtain ⟨_, fits, bytes⟩ := Immediate.padded?_eq_some_iff.mp padded
    apply Immediate.carries_of_decode
    rw [bytes, BigEndian.decode_encode, Nat.mod_eq_of_lt fits]

/-- Every constant and every padded number is encoded exactly if it can be, and the machine pushes
its value from there. -/
theorem operands_read_back :
    (∀ constant : Constant, constant.Admissible → EncodesExactly constant) ∧
      ∀ value width : Nat, PadsExactly value width :=
  ⟨fun _ admissible => encodesExactly admissible, padsExactly⟩

theorem operands_read_back_largest :
    (Constant.int (2 ^ 127 - 1 : Nat)).Admissible ∧
      ∃ immediate, (Constant.int (2 ^ 127 - 1 : Nat)).encode = .ok immediate ∧
        immediate.bytes = 0x7f :: List.replicate 15 0xff ∧
        immediate.Carries (2 ^ 127 - 1 : Nat) := by
  have admissible : (Constant.int (2 ^ 127 - 1 : Nat)).Admissible := ⟨by decide, by decide⟩
  have encodes := operands_read_back.1 _ admissible
  have encoded : (Constant.int (2 ^ 127 - 1 : Nat)).encode =
      .ok ⟨0x7f :: List.replicate 15 0xff, by decide, by decide⟩ := by rfl
  exact ⟨admissible, _, encoded, rfl, encodes.carries _ encoded⟩

end StackAssembler.Assembly

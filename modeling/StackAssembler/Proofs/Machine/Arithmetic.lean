import StackAssembler.Proofs.Machine.Effect
import StackAssembler.Proofs.Numeral

set_option autoImplicit false
set_option relaxedAutoImplicit false

namespace StackAssembler

def Opcode.isOperator : Opcode → Bool
  | .add | .sub | .lt | .gt | .eq | .and | .or | .xor | .byte | .shl | .shr | .iszero | .not
  | .calldataload | .calldatasize | .push0 => true
  | _ => false

theorem Opcode.isModelled_of_isOperator {op : Opcode} (operator : op.isOperator = true) :
    op.isModelled = true := by
  cases op
  all_goals first
    | rfl
    | cases operator

/-- The number that an operator computes, its first operand being the word on top. -/
def Opcode.result (calldata : Bytes) : Opcode → List Nat → Nat
  | .add, [a, b] => (a + b) % 2 ^ 256
  | .sub, [a, b] => (a + (2 ^ 256 - b)) % 2 ^ 256
  | .lt, [a, b] => if a < b then 1 else 0
  | .gt, [a, b] => if b < a then 1 else 0
  | .eq, [a, b] => if a = b then 1 else 0
  | .and, [a, b] => a &&& b
  | .or, [a, b] => a ||| b
  | .xor, [a, b] => a ^^^ b
  | .byte, [i, a] => if i < 32 then a / 256 ^ (31 - i) % 256 else 0
  | .shl, [n, a] => a * 2 ^ n % 2 ^ 256
  | .shr, [n, a] => a / 2 ^ n
  | .iszero, [a] => if a = 0 then 1 else 0
  | .not, [a] => 2 ^ 256 - 1 - a
  | .calldataload, [i] => BigEndian.decode (List.ofFn fun k : Fin 32 => calldata.byteAt (i + k))
  | .calldatasize, [] => calldata.size % 2 ^ 256
  | _, _ => 0

namespace Word

private theorem toNat_ofBool (b : Bool) : (ofBool b).toNat = if b then 1 else 0 := by
  cases b <;> rfl

private theorem toNat_byteAt (w : Word) (i : Nat) :
    (w.byteAt i).toNat = if i < 32 then w.toNat / 256 ^ (31 - i) % 256 else 0 := by
  unfold byteAt byteLength
  split
  · rw [UInt8.toNat_ofNat', Nat.shiftRight_eq_div_pow, BigEndian.pow_bytes]
  · rfl

private theorem toNat_shl (w : Word) (n : Nat) : (w.shl n).toNat = w.toNat * 2 ^ n % 2 ^ 256 := by
  unfold shl bitLength
  split
  · rw [BitVec.toNat_shiftLeft, Nat.shiftLeft_eq]
  · have divides : 2 ^ 256 ∣ w.toNat * 2 ^ n :=
      Nat.dvd_mul_left_of_dvd (Nat.pow_dvd_pow 2 (by omega)) _
    rw [Nat.mod_eq_zero_of_dvd divides]
    rfl

theorem toNat_shr (w : Word) (n : Nat) : (w.shr n).toNat = w.toNat / 2 ^ n := by
  unfold shr bitLength
  split
  · rw [BitVec.toNat_ushiftRight, Nat.shiftRight_eq_div_pow]
  · have bound : w.toNat < 2 ^ n :=
      Nat.lt_of_lt_of_le w.isLt (Nat.pow_le_pow_right (by decide) (by omega))
    rw [Nat.div_eq_of_lt bound]
    rfl

end Word

namespace Machine

private theorem effect_nullary (env : Env) {op : Opcode} (pc : Nat) (memory : Bytes)
    (operator : op.isOperator = true) (pops : op.pops = 0) :
    ∃ word, effect env op pc memory [] = .proceed [word] memory ∧
      word.toNat = op.result env.calldata [] := by
  cases op
  case calldatasize => exact ⟨_, rfl, BitVec.toNat_ofNat _ _⟩
  case push0 => exact ⟨_, rfl, rfl⟩
  all_goals first
    | exact absurd operator Bool.false_ne_true
    | exact absurd pops (by decide)

private theorem effect_unary (env : Env) {op : Opcode} (pc : Nat) (memory : Bytes) (a : Word)
    (operator : op.isOperator = true) (pops : op.pops = 1) :
    ∃ word, effect env op pc memory [a] = .proceed [word] memory ∧
      word.toNat = op.result env.calldata [a.toNat] := by
  cases op
  case iszero =>
    refine ⟨Word.ofBool (a == 0), rfl, ?_⟩
    rw [Word.toNat_ofBool, Opcode.result]
    simp [BitVec.toNat_eq]
  case not => exact ⟨~~~ a, rfl, BitVec.toNat_not⟩
  case calldataload =>
    refine ⟨Word.ofBytes (env.calldata.window a.toNat 32), rfl, ?_⟩
    have spelt : (env.calldata.window a.toNat 32).toList =
        List.ofFn fun k : Fin 32 => env.calldata.byteAt (a.toNat + k) := Array.toList_ofFn
    rw [Word.toNat_ofBytes (Nat.le_of_eq (Bytes.size_window _ _ _)), spelt]
    rfl
  all_goals first
    | exact absurd operator Bool.false_ne_true
    | exact absurd pops (by decide)

private theorem effect_binary (env : Env) {op : Opcode} (pc : Nat) (memory : Bytes) (a b : Word)
    (operator : op.isOperator = true) (pops : op.pops = 2) :
    ∃ word, effect env op pc memory [a, b] = .proceed [word] memory ∧
      word.toNat = op.result env.calldata [a.toNat, b.toNat] := by
  cases op
  case add => exact ⟨a + b, rfl, BitVec.toNat_add a b⟩
  case sub =>
    refine ⟨a - b, rfl, ?_⟩
    rw [BitVec.toNat_sub, Nat.add_comm]
    rfl
  case lt =>
    refine ⟨Word.ofBool (a < b), rfl, ?_⟩
    rw [Word.toNat_ofBool, Opcode.result]
    simp [BitVec.lt_def]
  case gt =>
    refine ⟨Word.ofBool (b < a), rfl, ?_⟩
    rw [Word.toNat_ofBool, Opcode.result]
    simp [BitVec.lt_def]
  case eq =>
    refine ⟨Word.ofBool (a == b), rfl, ?_⟩
    rw [Word.toNat_ofBool, Opcode.result]
    simp [BitVec.toNat_eq]
  case and => exact ⟨a &&& b, rfl, BitVec.toNat_and a b⟩
  case or => exact ⟨a ||| b, rfl, BitVec.toNat_or a b⟩
  case xor => exact ⟨a ^^^ b, rfl, BitVec.toNat_xor a b⟩
  case byte =>
    refine ⟨(b.byteAt a.toNat).toBitVec.setWidth 256, rfl, ?_⟩
    rw [BitVec.toNat_setWidth_of_le (by decide), UInt8.toNat_toBitVec, Word.toNat_byteAt]
    rfl
  case shl => exact ⟨b.shl a.toNat, rfl, Word.toNat_shl b a.toNat⟩
  case shr => exact ⟨b.shr a.toNat, rfl, Word.toNat_shr b a.toNat⟩
  all_goals first
    | exact absurd operator Bool.false_ne_true
    | exact absurd pops (by decide)

theorem effect_operator (env : Env) {op : Opcode} (pc : Nat) (memory : Bytes) {operands : List Word}
    (operator : op.isOperator = true) (count : operands.length = op.pops) :
    ∃ word, effect env op pc memory operands = .proceed [word] memory ∧
      word.toNat = op.result env.calldata (operands.map BitVec.toNat) := by
  match operands with
  | [] => exact effect_nullary env pc memory operator count.symm
  | [a] => exact effect_unary env pc memory a operator count.symm
  | [a, b] => exact effect_binary env pc memory a b operator count.symm
  | a :: b :: c :: rest =>
      have arity : op.pops ≤ 2 := by
        cases op
        all_goals first
          | decide
          | cases operator
      simp only [List.length_cons] at count
      omega

end Machine

end StackAssembler

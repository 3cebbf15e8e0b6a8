import StackAssembler.Proofs.Machine.Arithmetic
import StackAssembler.Proofs.Machine.Strict

set_option autoImplicit false
set_option relaxedAutoImplicit false

namespace StackAssembler

/-- The opcodes that compute one word from one or two words and nothing else. -/
def Opcode.isArithmetic : Opcode → Bool
  | .add | .sub | .lt | .gt | .eq | .and | .or | .xor | .not | .iszero | .byte | .shl | .shr => true
  | _ => false

/-- The integer that the formula of an opcode gives, its first operand being the word on top. -/
def Opcode.integer : Opcode → List Nat → Int
  | .add, [a, b] => ((a : Int) + b) % (2 ^ 256 : Nat)
  | .sub, [a, b] => ((a : Int) - b) % (2 ^ 256 : Nat)
  | .lt, [a, b] => if a < b then 1 else 0
  | .gt, [a, b] => if b < a then 1 else 0
  | .eq, [a, b] => if a = b then 1 else 0
  | .and, [a, b] => (a &&& b : Nat)
  | .or, [a, b] => (a ||| b : Nat)
  | .xor, [a, b] => (a ^^^ b : Nat)
  | .not, [a] => ((2 ^ 256 : Nat) : Int) - 1 - a
  | .iszero, [a] => if a = 0 then 1 else 0
  | .byte, [i, a] => if i < 32 then (a / 256 ^ (31 - i) % 256 : Nat) else 0
  | .shl, [n, a] => (a * 2 ^ n % 2 ^ 256 : Nat)
  | .shr, [n, a] => (a / 2 ^ n : Nat)
  | _, _ => 0

namespace Machine

private theorem shape_of_isArithmetic {op : Opcode} (arithmetic : op.isArithmetic = true) :
    op.isOperator = true ∧ 0 < op.pops ∧ op.encodedLength = 1 := by
  cases op
  all_goals first
    | exact ⟨rfl, by decide, rfl⟩
    | cases arithmetic

private theorem cast_sub_mod (a b : Word) :
    (((a.toNat + (2 ^ 256 - b.toNat)) % 2 ^ 256 : Nat) : Int) =
      ((a.toNat : Int) - b.toNat) % (2 ^ 256 : Nat) := by
  have bound := b.isLt
  omega

private theorem cast_ite {p : Prop} [Decidable p] (n : Nat) :
    ((if p then n else 0 : Nat) : Int) = if p then (n : Int) else 0 := by
  split <;> rfl

theorem result_eq_integer {op : Opcode} {operands : List Word} (calldata : Bytes)
    (arithmetic : op.isArithmetic = true) (count : operands.length = op.pops) :
    (op.result calldata (operands.map BitVec.toNat) : Int) =
      op.integer (operands.map BitVec.toNat) := by
  cases op
  case not =>
    obtain ⟨a, rfl⟩ := List.length_eq_one_iff.mp count
    have bound := a.isLt
    show ((2 ^ 256 - 1 - a.toNat : Nat) : Int) = ((2 ^ 256 : Nat) : Int) - 1 - a.toNat
    omega
  case iszero =>
    obtain ⟨a, rfl⟩ := List.length_eq_one_iff.mp count
    exact cast_ite 1
  case sub =>
    obtain ⟨a, b, rfl⟩ := List.length_eq_two.mp count
    exact cast_sub_mod a b
  case add | and | or | xor | shl | shr =>
    obtain ⟨a, b, rfl⟩ := List.length_eq_two.mp count
    rfl
  case lt | gt | eq =>
    obtain ⟨a, b, rfl⟩ := List.length_eq_two.mp count
    exact cast_ite 1
  case byte =>
    obtain ⟨a, b, rfl⟩ := List.length_eq_two.mp count
    exact cast_ite _
  all_goals cases arithmetic

/-- Shifts and bytes of a word come out the same if their number is turned into a count first, which
is taken to be the length of the word where there is none. -/
structure CountedAlike (word amount : Word) : Prop where
  shl : word.shl (amount.toCount?.getD Word.bitLength) = word.shl amount.toNat
  shr : word.shr (amount.toCount?.getD Word.bitLength) = word.shr amount.toNat
  byte : word.byteAt (amount.toCount?.getD Word.byteLength) = word.byteAt amount.toNat

theorem countedAlike (word amount : Word) : CountedAlike word amount where
  shl := by
    refine Strict.apply_toCount? (by decide) ?_ amount
    intro n past
    rw [Word.shl, Word.shl, if_neg (Nat.not_lt_of_le past), if_neg (Nat.lt_irrefl _)]
  shr := by
    refine Strict.apply_toCount? (by decide) ?_ amount
    intro n past
    rw [Word.shr, Word.shr, if_neg (Nat.not_lt_of_le past), if_neg (Nat.lt_irrefl _)]
  byte := Strict.byteAt_toCount? word amount

/-- On every stack that the machine can hold, an arithmetic instruction puts the integer that its
formula gives in the place of its operands. No operand is too large for it. -/
theorem step_computes_integer {env : Env} {op : Opcode} {s : State} {operands rest : List Word}
    (fetched : env.code[s.pc]? = some op.toByte) (arithmetic : op.isArithmetic = true)
    (stack : s.stack = operands ++ rest) (count : operands.length = op.pops)
    (bounded : s.stack.length ≤ stackLimit) :
    (∃ word, step env s = .ok () ⟨s.pc + 1, word :: rest, s.memory⟩ ∧
      (word.toNat : Int) = op.integer (operands.map BitVec.toNat)) ∧
      ∀ word amount, CountedAlike word amount := by
  refine ⟨?_, countedAlike⟩
  obtain ⟨pc, _, memory⟩ := s
  obtain rfl := stack
  obtain ⟨operator, taken, short⟩ := shape_of_isArithmetic arithmetic
  obtain ⟨word, effects, value⟩ := effect_operator env pc memory operator count
  have total : operands.length + rest.length ≤ stackLimit := by
    rwa [← List.length_append]
  -- One word at least was taken, so there is room for the one that is left.
  have fits : [word].length + rest.length ≤ stackLimit := by
    rw [List.length_singleton]
    omega
  refine ⟨word, ?_, ?_⟩
  · rw [step_modelled memory fetched (Opcode.isModelled_of_isOperator operator) count total,
      effects, Effect.resume, if_pos fits, short]
    rfl
  · rw [value, result_eq_integer env.calldata arithmetic count]

/-- A number that ends in 31 when it is cut to 64 bits does not name the last byte. -/
theorem step_computes_integer_byte_beyond :
    step (.of #[0x1a] #[]) ⟨0, [BitVec.ofNat 256 (2 ^ 64 + 31), 7], #[]⟩ = .ok () ⟨1, [0], #[]⟩ := by
  have computes : ∃ word : Word,
      step (.of #[0x1a] #[]) ⟨0, [BitVec.ofNat 256 (2 ^ 64 + 31), 7], #[]⟩ =
        .ok () ⟨0 + 1, [word], #[]⟩ ∧
      (word.toNat : Int) = Opcode.integer .byte
        ([BitVec.ofNat 256 (2 ^ 64 + 31), (7 : Word)].map BitVec.toNat) :=
    (step_computes_integer (by rfl) rfl rfl rfl (by decide)).1
  obtain ⟨word, stepped, value⟩ := computes
  have formula : Opcode.integer .byte
      ([BitVec.ofNat 256 (2 ^ 64 + 31), (7 : Word)].map BitVec.toNat) = 0 := by decide
  have zero : word = 0 := BitVec.eq_of_toNat_eq (Int.ofNat.inj (value.trans formula))
  rw [stepped, zero]

end Machine

end StackAssembler

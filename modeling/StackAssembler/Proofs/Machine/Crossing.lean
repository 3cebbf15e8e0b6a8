import Mathlib.Logic.Relation
import StackAssembler.Proofs.Machine.Transition

set_option autoImplicit false
set_option relaxedAutoImplicit false

namespace StackAssembler

namespace Machine

/-- The machine lacks the instruction or the memory. -/
def Fault.isLimitation : Fault → Bool
  | .unsupportedOpcode .. | .memoryLimit .. => true
  | _ => false

def State.Inside (first last : Nat) (s : State) : Prop :=
  first ≤ s.pc ∧ s.pc < last

abbrev Stays (env : Env) (first last : Nat) : State → State → Prop :=
  Relation.ReflTransGen fun s t => s.Inside first last ∧ step env s = .ok () t

/-- From the state the machine gets to the end of the stretch with such a stack, or fails inside it
for a limitation of its own. -/
inductive Crosses (env : Env) (first last : Nat) (s : State) (arrived : List Word → Prop) : Prop
  | passes {stack : List Word} {memory : Bytes} :
      Stays env first last s ⟨last, stack, memory⟩ → arrived stack → Crosses env first last s arrived
  | fails {t final : State} {fault : Fault} :
      Stays env first last s t → t.Inside first last → step env t = .error (.failed fault) final →
      fault.isLimitation = true → Crosses env first last s arrived

section

variable {env : Env} {first middle last : Nat} {s t : State} {arrived : List Word → Prop}

theorem State.Inside.widen {first' last' : Nat} (inside : s.Inside first last) (low : first' ≤ first)
    (high : last ≤ last') : s.Inside first' last' :=
  ⟨Nat.le_trans low inside.1, Nat.lt_of_lt_of_le inside.2 high⟩

theorem Stays.widen {first' last' : Nat} (stays : Stays env first last s t) (low : first' ≤ first)
    (high : last ≤ last') : Stays env first' last' s t :=
  stays.lift id fun _ _ step => ⟨step.1.widen low high, step.2⟩

theorem Crosses.append {reached : List Word → Prop} (crosses : Crosses env first middle s reached)
    (low : first ≤ middle) (high : middle ≤ last)
    (next : ∀ stack memory, reached stack →
      Crosses env middle last ⟨middle, stack, memory⟩ arrived) :
    Crosses env first last s arrived := by
  cases crosses with
  | fails stays inside stepped limitation =>
      exact .fails (stays.widen (Nat.le_refl _) high) (inside.widen (Nat.le_refl _) high) stepped
        limitation
  | @passes stack memory stays holds =>
      have front : Stays env first last s ⟨middle, stack, memory⟩ := stays.widen (Nat.le_refl _) high
      cases next stack memory holds with
      | passes rest holds =>
          exact .passes (front.trans (rest.widen low (Nat.le_refl _))) holds
      | fails rest inside stepped limitation =>
          exact .fails (front.trans (rest.widen low (Nat.le_refl _)))
            (inside.widen low (Nat.le_refl _)) stepped limitation

theorem Crosses.single {stack : List Word} {memory : Bytes} (inside : s.Inside first last)
    (stepped : step env s = .ok () ⟨last, stack, memory⟩) (holds : arrived stack) :
    Crosses env first last s arrived :=
  .passes (.single ⟨inside, stepped⟩) holds

theorem Crosses.mono {reached : List Word → Prop} (crosses : Crosses env first last s reached)
    (weaker : ∀ stack, reached stack → arrived stack) : Crosses env first last s arrived := by
  cases crosses with
  | passes stays holds => exact .passes stays (weaker _ holds)
  | fails stays inside stepped limitation => exact .fails stays inside stepped limitation

end

theorem isLimitation_of_effect {env : Env} {op : Opcode} {pc : Nat} {memory final : Bytes}
    {operands : List Word} {fault : Fault} (leaves : op.pushes ≠ 0)
    (failed : effect env op pc memory operands = .finish (.failed fault) final) :
    fault.isLimitation = true := by
  cases op
  case keccak256 | mload =>
    simp only [effect, Effect.within] at failed
    split at failed
    · cases failed
    · cases failed
      rfl
  case stop | calldatacopy | codecopy | pop | mstore | mstore8 | jump | jumpi | jumpdest | ret | revert |
      invalid => exact absurd rfl leaves
  all_goals first
    | (cases failed; rfl)
    | cases failed

theorem step_leaving_one {env : Env} {op : Opcode} {pc : Nat} {operands below : List Word}
    (memory : Bytes) (fetched : env.code[pc]? = some op.toByte) (one : op.pushes = 1)
    (count : operands.length = op.pops) (bounded : operands.length + below.length ≤ stackLimit)
    (room : below.length < stackLimit) :
    Crosses env pc (pc + op.encodedLength) ⟨pc, operands ++ below, memory⟩
      fun stack => ∃ word, stack = word :: below := by
  have inside : State.Inside pc (pc + op.encodedLength) ⟨pc, operands ++ below, memory⟩ := by
    refine ⟨Nat.le_refl _, ?_⟩
    show pc < pc + op.encodedLength
    unfold Opcode.encodedLength
    omega
  cases modelled : op.isModelled with
  | false => exact .fails .refl inside (step_unmodelled fetched modelled) rfl
  | true =>
      have stepped := step_modelled memory fetched modelled count bounded
      have sound := effect_sound env pc memory count
      cases outcome : effect env op pc memory operands with
      | proceed results final =>
          rw [outcome] at stepped sound
          cases sound with
          | proceed length =>
              obtain ⟨word, rfl⟩ := List.length_eq_one_iff.mp (length.trans one)
              have fits : [word].length + below.length ≤ stackLimit := by
                rw [List.length_singleton]
                omega
              rw [Effect.resume, if_pos fits] at stepped
              exact .single inside stepped ⟨word, rfl⟩
      | land dest final =>
          rw [outcome] at sound
          cases sound with
          | land jumps =>
              have nothing := jumps.pushes_eq_zero
              omega
      | finish exit final =>
          rw [outcome] at stepped sound
          cases sound with
          | halted nothing => omega
          | failed _ =>
              exact .fails .refl inside stepped (isLimitation_of_effect (by omega) outcome)

theorem step_dup {env : Env} {i : Fin 16} {pc : Nat} {stack : List Word} (memory : Bytes)
    (fetched : env.code[pc]? = some (Opcode.dup i).toByte) (enough : i < stack.length)
    (room : stack.length < stackLimit) :
    ∃ word, step env ⟨pc, stack, memory⟩ = .ok () ⟨pc + 1, word :: stack, memory⟩ := by
  have stepped := step_taken memory fetched rfl enough (Nat.le_of_lt room)
  have effects : effect env (.dup i) pc memory (stack.take (Opcode.dup i).pops) =
      .proceed ((stack.take (Opcode.dup i).pops).getD i 0 :: stack.take (Opcode.dup i).pops)
        memory := rfl
  have length : (stack.take (Opcode.dup i).pops).length + (stack.drop (Opcode.dup i).pops).length =
      stack.length := by
    rw [← List.length_append, List.take_append_drop]
  have fits : ((stack.take (Opcode.dup i).pops).getD i 0 :: stack.take (Opcode.dup i).pops).length +
      (stack.drop (Opcode.dup i).pops).length ≤ stackLimit := by
    rw [List.length_cons]
    omega
  rw [effects, Effect.resume, if_pos fits, List.cons_append, List.take_append_drop] at stepped
  exact ⟨_, stepped⟩

end Machine

theorem Opcode.growing_cases {op : Opcode} (grows : op.pushes = op.pops + 1) :
    (∃ i, op = .dup i) ∨ op.pops = 0 ∧ op.pushes = 1 := by
  cases op
  case dup i => exact .inl ⟨i, rfl⟩
  all_goals first
    | exact .inr ⟨rfl, rfl⟩
    | cases grows
    | (simp only [Opcode.pushes, Opcode.pops, Opcode.row] at grows; omega)

namespace Machine

theorem step_growing {env : Env} {op : Opcode} {pc : Nat} {stack : List Word} (memory : Bytes)
    (fetched : env.code[pc]? = some op.toByte) (grows : op.pushes = op.pops + 1)
    (enough : op.pops ≤ stack.length) (room : stack.length < stackLimit) :
    Crosses env pc (pc + op.encodedLength) ⟨pc, stack, memory⟩
      fun grown => ∃ word, grown = word :: stack := by
  rcases Opcode.growing_cases grows with ⟨i, rfl⟩ | ⟨none, one⟩
  · obtain ⟨word, stepped⟩ := step_dup memory fetched enough room
    exact .single ⟨Nat.le_refl _, Nat.lt_succ_self _⟩ stepped ⟨word, rfl⟩
  · have count : ([] : List Word).length = op.pops := none.symm
    have bounded : ([] : List Word).length + stack.length ≤ stackLimit := by
      rw [List.length_nil]
      omega
    exact step_leaving_one memory fetched one count bounded room

end Machine

end StackAssembler

import StackAssembler.Proofs.Machine.Transition

set_option autoImplicit false
set_option relaxedAutoImplicit false

namespace StackAssembler.Machine

def Completes (env : Env) (s next : State) : Prop :=
  step env s = .ok () next ∨ ∃ output, step env s = .error (.halted output) next

/-- One instruction does with the stack what its line of the table says. -/
structure FollowsTable (env : Env) (op : Opcode) (s : State) : Prop where
  underflow : (∃ blamed pc final, step env s = .error (.failed (.stackUnderflow blamed pc)) final) ↔
    s.stack.length < op.pops
  overflow : (∃ pc final, step env s = .error (.failed (.stackOverflow pc)) final) ↔
    op.pops ≤ s.stack.length ∧ stackLimit < s.stack.length - op.pops + op.pushes
  leaves : ∀ next, Completes env s next →
    next.stack.length = s.stack.length - op.pops + op.pushes ∧
      next.stack.drop op.pushes = s.stack.drop op.pops

section

variable {env : Env} {op : Opcode} {s : State}

private theorem effect_of_growing (modelled : op.isModelled = true) (growing : op.pops < op.pushes)
    (pc : Nat) (memory : Bytes) (operands : List Word) :
    ∃ results, effect env op pc memory operands = .proceed results memory := by
  cases op
  case calldatasize | codesize | pc | msize | push0 | push | dup => exact ⟨_, rfl⟩
  case swap i => exact absurd growing (Nat.lt_irrefl _)
  all_goals first
    | exact absurd growing (by decide)
    | cases modelled

private theorem underflow_iff (fetched : env.code[s.pc]? = some op.toByte)
    (modelled : op.isModelled = true) (bounded : s.stack.length ≤ stackLimit) :
    (∃ blamed pc final, step env s = .error (.failed (.stackUnderflow blamed pc)) final) ↔
      s.stack.length < op.pops := by
  constructor
  · rintro ⟨blamed, pc, final, fails⟩
    have transition := step_transition env bounded
    rw [fails] at transition
    cases transition with
    | underflow found _ short _ => exact eq_of_fetched fetched found ▸ short
    | failed _ _ dynamic => cases dynamic
  · intro short
    obtain ⟨left, _, fails⟩ := step_underflow s.memory fetched modelled short
    exact ⟨op, s.pc, _, fails⟩

private theorem overflow_iff (fetched : env.code[s.pc]? = some op.toByte)
    (modelled : op.isModelled = true) (bounded : s.stack.length ≤ stackLimit) :
    (∃ pc final, step env s = .error (.failed (.stackOverflow pc)) final) ↔
      op.pops ≤ s.stack.length ∧ stackLimit < s.stack.length - op.pops + op.pushes := by
  have transition := step_transition env bounded
  constructor
  · rintro ⟨pc, final, fails⟩
    rw [fails] at transition
    cases transition with
    | overflow ready _ excess =>
        obtain rfl := eq_of_fetched fetched ready.fetched
        exact ⟨ready.enough, excess⟩
    | failed _ _ dynamic => cases dynamic
  · rintro ⟨enough, excess⟩
    -- Only an instruction that leaves more words than it takes can run out of room, and none of these
    -- jumps or ends the run instead.
    have growing : op.pops < op.pushes := by omega
    obtain ⟨results, effects⟩ :=
      effect_of_growing modelled growing s.pc s.memory (s.stack.take op.pops)
    have sound := effect_sound env s.pc s.memory (List.length_take_of_le enough)
    rw [effects] at sound
    cases sound with
    | proceed count =>
        have full : ¬ results.length + (s.stack.drop op.pops).length ≤ stackLimit := by
          rw [List.length_drop, count]
          omega
        have fails := step_taken s.memory fetched modelled enough bounded
        rw [effects, Effect.resume, if_neg full] at fails
        exact ⟨_, _, fails⟩

private theorem stack_of_completes (fetched : env.code[s.pc]? = some op.toByte)
    (bounded : s.stack.length ≤ stackLimit) {next : State} (completes : Completes env s next) :
    next.stack.length = s.stack.length - op.pops + op.pushes ∧
      next.stack.drop op.pushes = s.stack.drop op.pops := by
  have transition := step_transition env bounded
  have taken : ∀ results : List Word, results.length = op.pushes →
      (results ++ s.stack.drop op.pops).length = s.stack.length - op.pops + op.pushes ∧
        (results ++ s.stack.drop op.pops).drop op.pushes = s.stack.drop op.pops := by
    intro results count
    rw [List.length_append, List.length_drop, count, ← count, List.drop_left]
    exact ⟨Nat.add_comm _ _, rfl⟩
  rcases completes with goes | ⟨output, halts⟩
  · rw [goes] at transition
    cases transition with
    | proceed ready _ count _ =>
        obtain rfl := eq_of_fetched fetched ready.fetched
        exact taken _ count
    | landed ready _ jumps _ =>
        obtain rfl := eq_of_fetched fetched ready.fetched
        exact taken [] jumps.pushes_eq_zero.symm
  · rw [halts] at transition
    cases transition with
    | ended absent => rw [fetched] at absent; cases absent
    | halted ready _ nothing =>
        obtain rfl := eq_of_fetched fetched ready.fetched
        exact taken [] nothing.symm

end

/-- On every stack that the machine can hold, an opcode that it executes does with the stack what the
table says, and any other opcode is refused without touching stack or memory. -/
theorem step_follows_table {env : Env} {op : Opcode} {s : State}
    (fetched : env.code[s.pc]? = some op.toByte) (bounded : s.stack.length ≤ stackLimit) :
    (op.isModelled = true → FollowsTable env op s) ∧
      (op.isModelled = false → ∃ final,
        step env s = .error (.failed (.unsupportedOpcode op s.pc)) final ∧
          final.stack = s.stack ∧ final.memory = s.memory) := by
  constructor
  · intro modelled
    exact ⟨underflow_iff fetched modelled bounded, overflow_iff fetched modelled bounded,
      fun _ completes => stack_of_completes fetched bounded completes⟩
  · intro unmodelled
    exact ⟨_, step_unmodelled fetched unmodelled, rfl, rfl⟩

theorem step_follows_table_full_stack :
    FollowsTable (.of #[0x8f] #[]) (.dup 15) ⟨0, List.replicate 1024 7, #[]⟩ ∧
      ∃ pc final, step (.of #[0x8f] #[]) ⟨0, List.replicate 1024 7, #[]⟩ =
        .error (.failed (.stackOverflow pc)) final := by
  have length : (List.replicate 1024 (7 : Word)).length = 1024 := List.length_replicate
  have follows : FollowsTable (.of #[0x8f] #[]) (.dup 15) ⟨0, List.replicate 1024 7, #[]⟩ :=
    (step_follows_table (by rfl) (Nat.le_of_eq length)).1 rfl
  refine ⟨follows, follows.overflow.mpr ?_⟩
  rw [length]
  decide

end StackAssembler.Machine

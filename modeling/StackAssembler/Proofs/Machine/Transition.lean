import StackAssembler.Proofs.Machine.Effect

set_option autoImplicit false
set_option relaxedAutoImplicit false

namespace StackAssembler

theorem Opcode.encodedLength_eq_one {op : Opcode} (plain : ∀ i, op ≠ .push i) :
    op.encodedLength = 1 := by
  cases op
  case push i => exact absurd rfl (plain i)
  all_goals rfl

namespace Machine

structure Ready (env : Env) (op : Opcode) (s : State) : Prop where
  fetched : env.code[s.pc]? = some op.toByte
  modelled : op.isModelled = true
  enough : op.pops ≤ s.stack.length

def effectAt (env : Env) (op : Opcode) (s : State) : Effect :=
  effect env op s.pc s.memory (s.stack.take op.pops)

inductive Transition (env : Env) (s : State) : EStateM.Result Exit State Unit → Prop
  | ended : env.code[s.pc]? = none → Transition env s (.error (.halted #[]) s)
  | unassigned {byte : UInt8} :
      env.code[s.pc]? = some byte → Opcode.ofByte? byte = none →
      Transition env s (.error (.failed (.invalidOpcode byte s.pc)) s)
  | unsupported {op : Opcode} :
      env.code[s.pc]? = some op.toByte → op.isModelled = false →
      Transition env s (.error (.failed (.unsupportedOpcode op s.pc)) { s with pc := s.pc + 1 })
  | underflow {op : Opcode} {left : List Word} :
      env.code[s.pc]? = some op.toByte → op.isModelled = true → s.stack.length < op.pops →
      left = [] ∨ left = s.stack →
      Transition env s (.error (.failed (.stackUnderflow op s.pc)) ⟨s.pc + 1, left, s.memory⟩)
  | overflow {op : Opcode} {results : List Word} {memory : Bytes} :
      Ready env op s → effectAt env op s = .proceed results memory →
      stackLimit < s.stack.length - op.pops + op.pushes →
      Transition env s
        (.error (.failed (.stackOverflow s.pc)) ⟨s.pc + op.encodedLength, s.stack, memory⟩)
  | proceed {op : Opcode} {results : List Word} {memory : Bytes} :
      Ready env op s → effectAt env op s = .proceed results memory →
      results.length = op.pushes → s.stack.length - op.pops + op.pushes ≤ stackLimit →
      Transition env s
        (.ok () ⟨s.pc + op.encodedLength, results ++ s.stack.drop op.pops, memory⟩)
  | landed {op : Opcode} {dest : Word} {memory : Bytes} :
      Ready env op s → effectAt env op s = .land dest memory → op.TakesJump s.stack →
      env.marks[dest.toNat]? = some true →
      Transition env s (.ok () ⟨dest.toNat, s.stack.drop op.pops, memory⟩)
  | refused {op : Opcode} {dest : Word} {memory : Bytes} :
      Ready env op s → effectAt env op s = .land dest memory → op.TakesJump s.stack →
      env.marks[dest.toNat]? ≠ some true →
      Transition env s
        (.error (.failed (.invalidJump dest s.pc)) ⟨s.pc + 1, s.stack.drop op.pops, memory⟩)
  | halted {op : Opcode} {output memory : Bytes} :
      Ready env op s → effectAt env op s = .finish (.halted output) memory → op.pushes = 0 →
      Transition env s (.error (.halted output) ⟨s.pc + 1, s.stack.drop op.pops, memory⟩)
  | failed {op : Opcode} {fault : Fault} {memory : Bytes} :
      Ready env op s → effectAt env op s = .finish (.failed fault) memory →
      fault.isDynamic = true →
      Transition env s (.error (.failed fault) ⟨s.pc + 1, s.stack.drop op.pops, memory⟩)

private theorem transition_of_ready {env : Env} {op : Opcode} {s : State} (ready : Ready env op s)
    (bounded : s.stack.length ≤ stackLimit) : Transition env s (step env s) := by
  obtain ⟨pc, stack, memory⟩ := s
  rw [step_taken memory ready.fetched ready.modelled ready.enough bounded]
  have sound := effect_sound env pc memory (List.length_take_of_le ready.enough)
  cases outcome : effect env op pc memory (stack.take op.pops) with
  | proceed results final =>
      rw [outcome] at sound
      cases sound with
      | proceed length =>
          have enough : op.pops ≤ stack.length := ready.enough
          have total : results.length + (stack.drop op.pops).length =
              stack.length - op.pops + op.pushes := by
            rw [List.length_drop, length]
            omega
          rw [Effect.resume, total]
          split
          · exact .proceed ready outcome length ‹_›
          · rw [List.take_append_drop]
            exact .overflow ready outcome (Nat.lt_of_not_le ‹_›)
  | land dest final =>
      rw [outcome] at sound
      cases sound with
      | land jumps =>
          rw [Effect.resume]
          split
          · exact .landed ready outcome (takesJump_of_take jumps) ‹_›
          · exact .refused ready outcome (takesJump_of_take jumps) ‹_›
  | finish exit final =>
      rw [outcome] at sound
      cases sound with
      | halted nothing => exact .halted ready outcome nothing
      | failed dynamic => exact .failed ready outcome dynamic

theorem step_transition (env : Env) {s : State} (bounded : s.stack.length ≤ stackLimit) :
    Transition env s (step env s) := by
  cases found : env.code[s.pc]? with
  | none =>
      have ends : step env s = .error (.halted #[]) s := by
        simp only [step, found]
      rw [ends]
      exact .ended found
  | some byte =>
      cases assigned : Opcode.ofByte? byte with
      | none =>
          have fails : step env s = .error (.failed (.invalidOpcode byte s.pc)) s := by
            simp only [step, found, assigned]
          rw [fails]
          exact .unassigned found assigned
      | some op =>
          have fetched : env.code[s.pc]? = some op.toByte := by
            rw [found, Opcode.toByte_of_ofByte? assigned]
          cases modelled : op.isModelled with
          | false =>
              rw [step_unmodelled fetched modelled]
              exact .unsupported fetched modelled
          | true =>
              rcases Nat.lt_or_ge s.stack.length op.pops with short | enough
              · obtain ⟨left, kept, fails⟩ := step_underflow s.memory fetched modelled short
                rw [fails]
                exact .underflow fetched modelled short kept
              · exact transition_of_ready ⟨fetched, modelled, enough⟩ bounded

theorem eq_of_fetched {env : Env} {op other : Opcode} {s : State}
    (fetched : env.code[s.pc]? = some op.toByte)
    (found : env.code[s.pc]? = some other.toByte) : other = op := by
  rw [fetched, Option.some.injEq, Opcode.toByte_inj] at found
  exact found.symm

/-- What one instruction may come to, on a stack that suits its line of the table. -/
inductive Outcome (op : Opcode) (pc : Nat) (stack : List Word) :
    EStateM.Result Exit State Unit → Prop
  | proceed {results : List Word} {memory : Bytes} :
      results.length = op.pushes →
      Outcome op pc stack
        (.ok () ⟨pc + op.encodedLength, results ++ stack.drop op.pops, memory⟩)
  | jump {target : Nat} {memory : Bytes} :
      op.TakesJump stack → op.pushes = 0 →
      Outcome op pc stack (.ok () ⟨target, stack.drop op.pops, memory⟩)
  | invalidJump {dest : Word} {final : State} :
      op.TakesJump stack → Outcome op pc stack (.error (.failed (.invalidJump dest pc)) final)
  | halted {output : Bytes} {final : State} : Outcome op pc stack (.error (.halted output) final)
  | failed {fault : Fault} {final : State} :
      fault.isDynamic = true → Outcome op pc stack (.error (.failed fault) final)

theorem step_outcome {env : Env} {op : Opcode} {pc : Nat} {stack : List Word} (memory : Bytes)
    (fetched : env.code[pc]? = some op.toByte) (enough : op.pops ≤ stack.length)
    (bounded : stack.length ≤ stackLimit)
    (room : stack.length - op.pops + op.pushes ≤ stackLimit) :
    Outcome op pc stack (step env ⟨pc, stack, memory⟩) := by
  have transition := step_transition env (s := ⟨pc, stack, memory⟩) bounded
  generalize step env ⟨pc, stack, memory⟩ = result at transition
  cases transition with
  | ended absent =>
      rw [fetched] at absent
      cases absent
  | unassigned found unassigned =>
      rw [fetched] at found
      cases found
      rw [Opcode.ofByte?_toByte] at unassigned
      cases unassigned
  | unsupported _ _ => exact .failed rfl
  | underflow found _ short _ =>
      obtain rfl := eq_of_fetched fetched found
      exact absurd short (Nat.not_lt_of_le enough)
  | overflow ready _ excess =>
      obtain rfl := eq_of_fetched fetched ready.fetched
      exact absurd excess (Nat.not_lt_of_le room)
  | proceed ready _ count _ =>
      obtain rfl := eq_of_fetched fetched ready.fetched
      exact .proceed count
  | landed ready _ jumps _ =>
      obtain rfl := eq_of_fetched fetched ready.fetched
      exact .jump jumps jumps.pushes_eq_zero
  | refused ready _ jumps _ =>
      obtain rfl := eq_of_fetched fetched ready.fetched
      exact .invalidJump jumps
  | halted _ _ _ => exact .halted
  | failed _ _ dynamic => exact .failed dynamic

/-- The state that one step leaves, whether or not it ends the run. -/
def after (env : Env) (s : State) : State :=
  match step env s with
  | .ok _ next => next
  | .error _ final => final

/-- The states of one machine, in the middle of a run and between runs. A machine that has stopped,
for whatever reason, can be run again. -/
inductive Visited (env : Env) : State → Prop
  | fresh : Visited env {}
  | step {s next : State} : Visited env s → Machine.step env s = .ok () next → Visited env next
  | run {steps : Nat} {s final : State} {verdict : Verdict} :
      Visited env s → Machine.run env steps s = some (verdict, final) → Visited env final

theorem invariant_run {env : Env} {P : State → Prop}
    (kept : ∀ s, Visited env s → P s → P (after env s)) {steps : Nat} {s final : State}
    {verdict : Verdict} (visited : Visited env s) (holds : P s)
    (ended : run env steps s = some (verdict, final)) : P final := by
  induction steps generalizing s with
  | zero => cases ended
  | succ steps ih =>
      have next := kept s visited holds
      simp only [after] at next
      simp only [run] at ended
      split at ended <;> rename_i stepped
      · rw [stepped] at next
        exact ih (visited.step stepped) next ended
      · rw [stepped] at next
        cases ended
        exact next

theorem Visited.invariant {env : Env} {P : State → Prop} (fresh : P {})
    (kept : ∀ s, Visited env s → P s → P (after env s)) {s : State} (visited : Visited env s) :
    P s := by
  induction visited with
  | fresh => exact fresh
  | @step s next visited stepped ih =>
      have same : after env s = next := by
        simp only [after, stepped]
      exact same ▸ kept s visited ih
  | run visited ended ih => exact invariant_run kept visited ih ended

theorem length_stack_after (env : Env) {s : State} (bounded : s.stack.length ≤ stackLimit) :
    (after env s).stack.length ≤ stackLimit := by
  have dropped : ∀ n, (s.stack.drop n).length ≤ stackLimit := fun n =>
    Nat.le_trans (by rw [List.length_drop]; omega) bounded
  have transition := step_transition env bounded
  unfold after
  generalize step env s = result at transition
  cases transition with
  | ended _ => exact bounded
  | unassigned _ _ => exact bounded
  | unsupported _ _ => exact bounded
  | underflow _ _ _ kept =>
      rcases kept with rfl | rfl
      · exact Nat.zero_le _
      · exact bounded
  | overflow _ _ _ => exact bounded
  | @proceed op results _ ready _ count room =>
      have total : (results ++ s.stack.drop op.pops).length =
          s.stack.length - op.pops + op.pushes := by
        rw [List.length_append, List.length_drop, count]
        omega
      exact Nat.le_trans (Nat.le_of_eq total) room
  | landed _ _ _ _ => exact dropped _
  | refused _ _ _ _ => exact dropped _
  | halted _ _ _ => exact dropped _
  | failed _ _ _ => exact dropped _

theorem Visited.length_stack_le {env : Env} {s : State} (visited : Visited env s) :
    s.stack.length ≤ stackLimit :=
  visited.invariant (P := fun s => s.stack.length ≤ stackLimit) (Nat.zero_le _)
    fun _ _ bounded => length_stack_after env bounded

end Machine

end StackAssembler

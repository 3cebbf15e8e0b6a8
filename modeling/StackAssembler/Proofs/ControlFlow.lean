import StackAssembler.Proofs.Machine.Boundary
import StackAssembler.Proofs.Machine.Transition

set_option autoImplicit false
set_option relaxedAutoImplicit false

namespace StackAssembler.Machine

/-- A step that jumps to `dest` gets there if it is marked and fails otherwise. -/
structure JumpsExactly (env : Env) (s : State) (dest : Word) : Prop where
  succeeds : (∃ next, step env s = .ok () next) ↔ env.marks[dest.toNat]? = some true
  arrives : ∀ next, step env s = .ok () next → next.pc = dest.toNat
  fails : env.marks[dest.toNat]? ≠ some true →
    ∃ final, step env s = .error (.failed (.invalidJump dest s.pc)) final

/-- What is known of the position of a machine over all its runs. -/
structure ControlConfined (code calldata : Bytes) : Prop where
  size : (Env.of code calldata).marks.size = code.size
  marks : ∀ i, (Env.of code calldata).marks[i]? = some true ↔
    Boundary code i ∧ i < code.size ∧ code[i]? = some 0x5b
  position : ∀ s, Visited (.of code calldata) s → Boundary code s.pc
  jump : ∀ s dest rest, code[s.pc]? = some (Opcode.toByte .jump) → s.stack = dest :: rest →
    JumpsExactly (.of code calldata) s dest
  jumpi : ∀ s dest condition rest, code[s.pc]? = some (Opcode.toByte .jumpi) →
    s.stack = dest :: condition :: rest → condition ≠ 0 →
    JumpsExactly (.of code calldata) s dest

private theorem boundary_after {env : Env} {s : State} (start : Boundary env.code s.pc)
    (bounded : s.stack.length ≤ stackLimit) : Boundary env.code (after env s).pc := by
  -- A step that fails may stop right behind its opcode; that is in the middle of an instruction only
  -- for a push, and no push fails there.
  have behind : ∀ op : Opcode, env.code[s.pc]? = some op.toByte → (∀ i, op ≠ .push i) →
      Boundary env.code (s.pc + 1) := by
    intro op fetched plain
    rw [← Opcode.encodedLength_eq_one plain]
    exact start.next_opcode fetched
  have transition := step_transition env bounded
  unfold after
  generalize step env s = result at transition
  cases transition with
  | ended _ => exact start
  | unassigned _ _ => exact start
  | unsupported fetched unmodelled => exact behind _ fetched (by rintro i rfl; cases unmodelled)
  | underflow fetched _ short _ => exact behind _ fetched (by rintro i rfl; cases short)
  | overflow ready _ _ => exact start.next_opcode ready.fetched
  | proceed ready _ _ _ => exact start.next_opcode ready.fetched
  | landed _ _ _ marked =>
      rw [env.marks_eq] at marked
      exact ((landings_eq_true_iff _ _).mp marked).1
  | refused ready outcome _ _ => exact behind _ ready.fetched (by rintro i rfl; cases outcome)
  | halted ready outcome _ => exact behind _ ready.fetched (by rintro i rfl; cases outcome)
  | failed ready outcome _ => exact behind _ ready.fetched (by rintro i rfl; cases outcome)

theorem Visited.boundary {env : Env} {s : State} (visited : Visited env s) :
    Boundary env.code s.pc := by
  apply visited.invariant (P := fun s => Boundary env.code s.pc)
  · exact .zero
  · intro s visited start
    exact boundary_after start visited.length_stack_le

private theorem jumpsExactly_of_eq {env : Env} {s landed refused : State} {dest : Word}
    (position : landed.pc = dest.toNat)
    (steps : step env s = if env.marks[dest.toNat]? = some true then .ok () landed
      else .error (.failed (.invalidJump dest s.pc)) refused) : JumpsExactly env s dest := by
  by_cases marked : env.marks[dest.toNat]? = some true
  · rw [if_pos marked] at steps
    refine ⟨⟨fun _ => marked, fun _ => ⟨_, steps⟩⟩, ?_, fun unmarked => absurd marked unmarked⟩
    intro next goes
    rw [steps] at goes
    cases goes
    exact position
  · rw [if_neg marked] at steps
    have stays : ∀ next, step env s ≠ .ok () next := by
      intro next goes
      rw [steps] at goes
      cases goes
    exact ⟨⟨fun ⟨next, goes⟩ => absurd goes (stays next), fun found => absurd found marked⟩,
      fun next goes => absurd goes (stays next), fun _ => ⟨_, steps⟩⟩

private theorem step_jump {env : Env} {s : State} {dest : Word} {rest : List Word}
    (fetched : env.code[s.pc]? = some (Opcode.toByte .jump)) (stack : s.stack = dest :: rest) :
    step env s = if env.marks[dest.toNat]? = some true then .ok () ⟨dest.toNat, rest, s.memory⟩
      else .error (.failed (.invalidJump dest s.pc)) ⟨s.pc + 1, rest, s.memory⟩ := by
  rw [step_of_fetched fetched, stack]
  rfl

private theorem step_jumpi {env : Env} {s : State} {dest condition : Word} {rest : List Word}
    (fetched : env.code[s.pc]? = some (Opcode.toByte .jumpi))
    (stack : s.stack = dest :: condition :: rest) (taken : condition ≠ 0) :
    step env s = if env.marks[dest.toNat]? = some true then .ok () ⟨dest.toNat, rest, s.memory⟩
      else .error (.failed (.invalidJump dest s.pc)) ⟨s.pc + 1, rest, s.memory⟩ := by
  rw [step_of_fetched fetched, stack]
  show (if condition = 0 then pure () else Site.jump ⟨.jumpi, s.pc⟩ env dest : Exec Unit)
    ⟨s.pc + 1, rest, s.memory⟩ = _
  rw [if_neg taken]
  rfl

/-- Whatever the code and the calldata are, control never enters the operand of a push. -/
theorem visited_control_confined (code calldata : Bytes) : ControlConfined code calldata where
  size := size_landings code
  marks i := by
    rw [Env.marks_of, landings_eq_true_iff]
    constructor
    · rintro ⟨start, found⟩
      exact ⟨start, (Array.getElem?_eq_some_iff.mp found).1, found⟩
    · rintro ⟨start, _, found⟩
      exact ⟨start, found⟩
  position _ visited := visited.boundary
  jump _ _ _ fetched stack := jumpsExactly_of_eq rfl (step_jump fetched stack)
  jumpi _ _ _ _ fetched stack taken := jumpsExactly_of_eq rfl (step_jumpi fetched stack taken)

end StackAssembler.Machine

import StackAssembler.Proofs.Machine.Boundary
import StackAssembler.Proofs.Machine.StrictAgreement

set_option autoImplicit false
set_option relaxedAutoImplicit false

namespace StackAssembler.Machine

structure WellFormed (s : State) : Prop where
  stack : s.stack.length ≤ 1024
  memory_whole : 32 ∣ s.memory.size
  memory_bounded : s.memory.size ≤ 2 ^ 20

/-- What holds of a machine in all its states, in the middle of a run, between runs and after a run
has failed. -/
structure RunsSafely (env : Env) : Prop where
  marks : env.marks.size = env.code.size
  prepares : Strict.landings env.code = .ok env.marks
  wellFormed : ∀ s, Visited env s → WellFormed s
  /-- A step does not shorten the memory, and neither does a run, whichever way they end. -/
  grows : ∀ s, Visited env s → s.memory.size ≤ (after env s).memory.size
  grows_run : ∀ steps s verdict final, Visited env s → run env steps s = some (verdict, final) →
    s.memory.size ≤ final.memory.size
  /-- The strict machine comes to the same state, the same way. -/
  agrees : ∀ s, Visited env s → Strict.Agrees (Strict.step env) (step env) s
  never_gives_up : ∀ s hazard final, Visited env s →
    (Strict.step env).run s ≠ .ok (.error hazard) final

theorem Visited.wellFormed {env : Env} {s : State} (visited : Visited env s) : WellFormed s where
  stack := visited.length_stack_le
  memory_whole := visited.size_memory.1
  memory_bounded := visited.size_memory.2

/-- Byte strings are taken to fit in memory, which holds fewer than `2 ^ 63` bytes. -/
theorem runs_safely {code calldata : Bytes} (smallCode : code.size < 2 ^ 63)
    (smallData : calldata.size < 2 ^ 63) : RunsSafely (.of code calldata) where
  marks := size_landings code
  prepares := Strict.landings_eq_ok smallCode
  wellFormed := fun _ visited => visited.wellFormed
  grows := fun _ visited => size_memory_le_after _ visited.length_stack_le
  grows_run := fun _ _ _ _ visited ended => visited.size_memory_le_run ended
  agrees := fun s _ => Strict.step_agrees smallCode smallData s
  never_gives_up := fun s _ _ _ =>
    (Strict.step_agrees smallCode smallData s).ne_error

theorem runs_safely_cutOff :
    RunsSafely (.of #[0x7f, 0x01] #[]) ∧
      (Strict.step (.of #[0x7f, 0x01] #[])).run {} =
        .ok (.ok ()) ⟨33, [BitVec.ofNat 256 (2 ^ 248)], #[]⟩ :=
  ⟨runs_safely (by decide) (by decide), by rfl⟩

end StackAssembler.Machine

import Mathlib.Logic.Relation
import StackAssembler.Machine.Run

set_option autoImplicit false
set_option relaxedAutoImplicit false

namespace StackAssembler.Machine

abbrev Reaches (env : Env) : State → State → Prop :=
  Relation.ReflTransGen fun s t => step env s = .ok () t

theorem run_mono {env : Env} {steps more : Nat} {s : State} {result : Verdict × State}
    (ended : run env steps s = some result) (le : steps ≤ more) : run env more s = some result := by
  induction steps generalizing more s with
  | zero => cases ended
  | succ steps ih =>
      cases more with
      | zero => cases le
      | succ more =>
          simp only [run] at ended ⊢
          split at ended
          · exact ih ended (Nat.le_of_succ_le_succ le)
          · exact ended

theorem execute_mono {steps more : Nat} {code calldata : Bytes} {verdict : Verdict}
    (ended : execute steps code calldata = some verdict) (le : steps ≤ more) :
    execute more code calldata = some verdict := by
  obtain ⟨result, finished, same⟩ := Option.map_eq_some_iff.mp ended
  exact Option.map_eq_some_iff.mpr ⟨result, run_mono finished le, same⟩

theorem Reaches.run_eq {env : Env} {s t : State} {steps : Nat} {result : Verdict × State}
    (reaches : Reaches env s t) (ended : run env steps t = some result) :
    ∃ total, run env total s = some result := by
  induction reaches using Relation.ReflTransGen.head_induction_on with
  | refl => exact ⟨steps, ended⟩
  | head stepped _ ih =>
      obtain ⟨total, finished⟩ := ih
      refine ⟨total + 1, ?_⟩
      simp only [run, stepped]
      exact finished

/-- A fresh machine comes to the verdict, given enough steps. -/
def Concludes (code calldata : Bytes) (verdict : Verdict) : Prop :=
  ∃ enough, ∀ steps, enough ≤ steps → execute steps code calldata = some verdict

theorem Reaches.concludes {code calldata : Bytes} {s last : State} {exit : Exit}
    (reaches : Reaches (.of code calldata) {} s)
    (ended : step (.of code calldata) s = .error exit last) :
    Concludes code calldata exit.verdict := by
  have stopped : run (.of code calldata) 1 s = some (exit.verdict, last) := by
    simp only [run, ended]
  obtain ⟨total, finished⟩ := reaches.run_eq stopped
  have executed : execute total code calldata = some exit.verdict :=
    Option.map_eq_some_iff.mpr ⟨_, finished, rfl⟩
  exact ⟨total, fun _ enough => execute_mono executed enough⟩

end StackAssembler.Machine

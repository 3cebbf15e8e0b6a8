import StackAssembler.Proofs.ControlFlow
import StackAssembler.Proofs.Machine.Dependence

set_option autoImplicit false
set_option relaxedAutoImplicit false

namespace StackAssembler.Machine

/-- Some instruction of the code, read from its first byte on, is one that reads the calldata. -/
def ReadsCalldata (code : Bytes) : Prop :=
  ∃ i op, Boundary code i ∧ code[i]? = some (Opcode.toByte op) ∧ op.readsCalldata = true

/-- Runs of one machine in a row, each of which comes to its verdict. -/
inductive RunsInRow (env : Env) : State → List Verdict → State → Prop
  | none (s : State) : RunsInRow env s [] s
  | next {steps : Nat} {s final last : State} {verdict : Verdict} {verdicts : List Verdict} :
      run env steps s = some (verdict, final) → RunsInRow env final verdicts last →
      RunsInRow env s (verdict :: verdicts) last

def Diverges (env : Env) (s : State) : Prop :=
  ∀ steps, run env steps s = none

structure SameRuns (code first second : Bytes) : Prop where
  verdicts : ∀ verdicts last, RunsInRow (.of code first) {} verdicts last ↔
    RunsInRow (.of code second) {} verdicts last
  /-- Behind the same verdicts, the next run has none with either calldata or with both. -/
  diverges : ∀ verdicts last, RunsInRow (.of code first) {} verdicts last →
    (Diverges (.of code first) last ↔ Diverges (.of code second) last)
  /-- The same with a bound on the steps of each run. -/
  bounded : ∀ steps times, runRepeatedly (.of code first) steps times {} =
    runRepeatedly (.of code second) steps times {}

section Alike

variable {env env' : Env} {s last : State} {verdicts : List Verdict}

theorem RunsInRow.visited (row : RunsInRow env s verdicts last) (visited : Visited env s) :
    Visited env last := by
  induction row with
  | none _ => exact visited
  | next ended _ ih => exact ih (visited.run ended)

theorem RunsInRow.congr (same : ∀ s, Visited env s → step env s = step env' s)
    (visited : Visited env s) (row : RunsInRow env s verdicts last) :
    RunsInRow env' s verdicts last := by
  induction row with
  | none s => exact .none s
  | next ended _ ih =>
      have alike := ended
      rw [run_congr same visited] at alike
      exact .next alike (ih (visited.run ended))

theorem runRepeatedly_congr (same : ∀ s, Visited env s → step env s = step env' s)
    (visited : Visited env s) (steps times : Nat) :
    runRepeatedly env steps times s = runRepeatedly env' steps times s := by
  induction times generalizing s with
  | zero => rfl
  | succ times ih =>
      rw [runRepeatedly, runRepeatedly, ← run_congr same visited]
      cases ended : run env steps s with
      | none => rfl
      | some result => exact congrArg (result.1 :: ·) (ih (visited.run ended))

end Alike

theorem step_of_unread {code : Bytes} (unread : ¬ ReadsCalldata code) (first second : Bytes)
    {s : State} (start : Boundary code s.pc) :
    step (.of code first) s = step (.of code second) s := by
  simp only [step, Env.code_of]
  cases found : code[s.pc]? with
  | none => rfl
  | some byte =>
      cases assigned : Opcode.ofByte? byte with
      | none => simp only [assigned]
      | some op =>
          have blind : op.readsCalldata ≠ true := by
            intro reads
            rw [← Opcode.toByte_of_ofByte? assigned] at found
            exact unread ⟨s.pc, op, start, found, reads⟩
          have executes : exec (.of code first) ⟨op, s.pc⟩ = exec (.of code second) ⟨op, s.pc⟩ :=
            exec_congr (fun reads => absurd reads blind) (fun _ => rfl) (fun _ _ => rfl)
              (fun _ => Iff.rfl)
          simp only [assigned, executes]

/-- Code without an instruction that reads the calldata gives the same results whatever it is. -/
theorem unread_calldata_irrelevant {code : Bytes} (unread : ¬ ReadsCalldata code)
    (first second : Bytes) : SameRuns code first second := by
  have same (one other : Bytes) (s : State) (visited : Visited (.of code one) s) :
      step (.of code one) s = step (.of code other) s :=
    step_of_unread unread one other visited.boundary
  constructor
  · intro verdicts last
    exact ⟨RunsInRow.congr (same first second) .fresh, RunsInRow.congr (same second first) .fresh⟩
  · intro verdicts last row
    have reached := row.visited .fresh
    simp only [Diverges, run_congr (same first second) reached]
  · intro steps times
    exact runRepeatedly_congr (same first second) .fresh steps times

/-- A loop around a push whose operand spells all three instructions that read the calldata. -/
def disguisedReads : Bytes :=
  #[0x5b, 0x62, 0x35, 0x36, 0x37, 0x50, 0x5f, 0x56]

theorem unread_calldata_irrelevant_disguised :
    ¬ ReadsCalldata disguisedReads ∧ SameRuns disguisedReads #[] #[1, 2, 3] := by
  have unread : ¬ ReadsCalldata disguisedReads := by
    rintro ⟨i, op, boundary, found, reads⟩
    have bytes : op.toByte ∈ [0x35, 0x36, 0x37] := by
      cases op
      case calldataload | calldatasize | calldatacopy => decide
      all_goals cases reads
    have inside : i < 8 := (Array.getElem?_eq_some_iff.mp found).1
    have hidden : ∀ i < 8, ∀ byte ∈ [0x35, 0x36, 0x37], disguisedReads[i]? = some byte →
        2 ≤ i ∧ i < 5 := by
      decide +kernel
    obtain ⟨behind, before⟩ := hidden i inside _ bytes found
    have push : Boundary disguisedReads 1 := @Boundary.next _ 0 0x5b .zero rfl
    have found : disguisedReads[1]? = some 0x62 := rfl
    have next := push.next_le boundary behind found
    have width : operandLength 0x62 = 3 := by decide
    omega
  exact ⟨unread, unread_calldata_irrelevant unread _ _⟩

end StackAssembler.Machine

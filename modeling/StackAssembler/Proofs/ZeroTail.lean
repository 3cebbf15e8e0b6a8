import StackAssembler.Proofs.ByteStrings
import StackAssembler.Proofs.ControlFlow
import StackAssembler.Proofs.Machine.Dependence

/-!
Code with zeros behind it. A zero is the instruction that stops, which is what running off the end
does; an operand that is cut off and a copy past the end are filled with zeros anyway; and no zero is a
place to land on. So code runs like the same code with any number of zeros behind it, unless it asks
for its own length.
-/

set_option autoImplicit false
set_option relaxedAutoImplicit false

namespace StackAssembler.Machine

def zeroPadded (code : Bytes) (n : Nat) : Bytes :=
  code ++ Array.replicate n 0

section

variable {code : Bytes} {n i : Nat}

theorem zeroPadded_eq_growTo (code : Bytes) (n : Nat) :
    zeroPadded code n = code.growTo (code.size + n) := by
  rw [zeroPadded, Bytes.growTo, Nat.add_sub_cancel_left]

theorem window_zeroPadded (code : Bytes) (n start count : Nat) :
    (zeroPadded code n).window start count = code.window start count := by
  rw [zeroPadded_eq_growTo]
  exact Bytes.window_congr (fun i => Bytes.byteAt_growTo code _ i) start count

theorem getElem?_zeroPadded_of_lt (inside : i < code.size) : (zeroPadded code n)[i]? = code[i]? := by
  rw [zeroPadded, Array.getElem?_append_left inside]

theorem getElem?_zeroPadded_of_le (outside : code.size ≤ i) :
    (zeroPadded code n)[i]? = none ∨ (zeroPadded code n)[i]? = some (Opcode.toByte .stop) := by
  rw [zeroPadded, Array.getElem?_append_right outside, Array.getElem?_replicate]
  split
  · exact .inr rfl
  · exact .inl rfl

theorem boundary_zeroPadded (inside : i < code.size) :
    Boundary (zeroPadded code n) i ↔ Boundary code i := by
  constructor
  · intro boundary
    induction boundary with
    | zero => exact .zero
    | next _ found ih =>
        have before := ih (by omega)
        rw [getElem?_zeroPadded_of_lt (by omega)] at found
        exact before.next found
  · intro boundary
    induction boundary with
    | zero => exact .zero
    | next _ found ih =>
        have before := ih (by omega)
        rw [← getElem?_zeroPadded_of_lt (by omega)] at found
        exact before.next found

theorem landings_zeroPadded (code : Bytes) (n i : Nat) :
    (landings (zeroPadded code n))[i]? = some true ↔ (landings code)[i]? = some true := by
  rw [landings_eq_true_iff, landings_eq_true_iff]
  by_cases inside : i < code.size
  · rw [boundary_zeroPadded inside, getElem?_zeroPadded_of_lt inside]
  · have outside : code.size ≤ i := Nat.le_of_not_lt inside
    have absent : code[i]? = none := Array.getElem?_eq_none outside
    rcases getElem?_zeroPadded_of_le (n := n) outside with found | found
    · rw [found, absent]
      simp
    · have stops : Opcode.toByte .stop ≠ Opcode.toByte .jumpdest := by decide
      simp [found, absent, stops]

end

section

variable {code : Bytes} {n : Nat}

theorem step_off_end (n : Nat) (calldata : Bytes) {s : State} (outside : code.size ≤ s.pc) :
    step (.of code calldata) s = .error (.halted #[]) s ∧
      ∃ last, step (.of (zeroPadded code n) calldata) s = .error (.halted #[]) last := by
  have absent : code[s.pc]? = none := Array.getElem?_eq_none outside
  refine ⟨by simp only [step, Env.code_of, absent], ?_⟩
  rcases getElem?_zeroPadded_of_le (n := n) outside with found | found
  · exact ⟨s, by simp only [step, Env.code_of, found]⟩
  · have fetched : (Env.of (zeroPadded code n) calldata).code[s.pc]? = some (Opcode.toByte .stop) :=
      found
    rw [step_of_fetched fetched]
    exact ⟨_, rfl⟩

theorem step_zeroPadded (calldata : Bytes) {s : State} (inside : s.pc < code.size)
    (sizeless : code[s.pc]? ≠ some (Opcode.toByte .codesize)) :
    step (.of (zeroPadded code n) calldata) s = step (.of code calldata) s := by
  simp only [step, Env.code_of, getElem?_zeroPadded_of_lt inside]
  cases found : code[s.pc]? with
  | none => rfl
  | some byte =>
      cases assigned : Opcode.ofByte? byte with
      | none => simp only [assigned]
      | some op =>
          have other : op ≠ .codesize := by
            intro same
            rw [found, ← Opcode.toByte_of_ofByte? assigned, same] at sizeless
            exact sizeless rfl
          have executes : exec (.of (zeroPadded code n) calldata) ⟨op, s.pc⟩ =
              exec (.of code calldata) ⟨op, s.pc⟩ :=
            exec_congr (fun _ => rfl) (fun same => absurd same other) (window_zeroPadded code n)
              (landings_zeroPadded code n)
          simp only [assigned, executes]

private theorem run_zeroPadded
    (sizeless : ∀ i, Boundary code i → code[i]? ≠ some (Opcode.toByte .codesize)) (calldata : Bytes)
    (steps : Nat) {s : State} (visited : Visited (.of code calldata) s) :
    (run (.of (zeroPadded code n) calldata) steps s).map Prod.fst =
      (run (.of code calldata) steps s).map Prod.fst := by
  induction steps generalizing s with
  | zero => rfl
  | succ steps ih =>
      rw [run, run]
      by_cases inside : s.pc < code.size
      · rw [step_zeroPadded calldata inside (sizeless s.pc visited.boundary)]
        cases stepped : step (.of code calldata) s with
        | ok _ next => exact ih (visited.step stepped)
        | error exit final => rfl
      · obtain ⟨ends, last, stops⟩ := step_off_end n calldata (Nat.le_of_not_lt inside)
        rw [ends, stops]
        rfl

end

structure ZerosUnnoticed (code : Bytes) (n : Nat) : Prop where
  /-- After any number of steps both are running, or both are over with the same verdict. -/
  verdicts : ∀ (calldata : Bytes) (steps : Nat),
    execute steps (zeroPadded code n) calldata = execute steps code calldata
  stops : ∀ (calldata : Bytes) (s : State), code.size ≤ s.pc →
    step (.of code calldata) s = .error (.halted #[]) s ∧
      ∃ last, step (.of (zeroPadded code n) calldata) s = .error (.halted #[]) last
  /-- Operands and copies are windows of the code. -/
  reads : ∀ start count, (zeroPadded code n).window start count = code.window start count
  lands : ∀ i : Nat, (landings (zeroPadded code n))[i]? = some true ↔ (landings code)[i]? = some true

/-- Code that nowhere asks for its length runs as if zeros without end stood behind it. -/
theorem execute_zeros_unnoticed {code : Bytes}
    (sizeless : ∀ i, Boundary code i → code[i]? ≠ some (Opcode.toByte .codesize)) (n : Nat) :
    ZerosUnnoticed code n where
  verdicts calldata steps := run_zeroPadded sizeless calldata steps .fresh
  stops calldata _ outside := step_off_end n calldata outside
  reads := window_zeroPadded code n
  lands := landings_zeroPadded code n

/-- A landing, and a push of two bytes that is cut off behind the first of them, which is no
instruction though it looks like one that asks for the length. -/
theorem execute_zeros_unnoticed_cutOff :
    (∀ i, Boundary #[0x5b, 0x61, 0x38] i →
      (#[0x5b, 0x61, 0x38] : Bytes)[i]? ≠ some (Opcode.toByte .codesize)) ∧
      ZerosUnnoticed #[0x5b, 0x61, 0x38] 4 := by
  have sizeless : ∀ i, Boundary #[0x5b, 0x61, 0x38] i →
      (#[0x5b, 0x61, 0x38] : Bytes)[i]? ≠ some (Opcode.toByte .codesize) := by
    intro i boundary found
    have inside : i < 3 := (Array.getElem?_eq_some_iff.mp found).1
    have first : i ≠ 0 := by
      rintro rfl
      exact absurd found (by decide)
    have second : i ≠ 1 := by
      rintro rfl
      exact absurd found (by decide)
    obtain rfl : i = 2 := by omega
    have push : Boundary #[0x5b, 0x61, 0x38] 1 := @Boundary.next _ 0 0x5b .zero rfl
    have behind := push.next_le boundary (Nat.lt_succ_self 1) rfl
    exact absurd behind (by decide)
  exact ⟨sizeless, execute_zeros_unnoticed sizeless 4⟩

end StackAssembler.Machine

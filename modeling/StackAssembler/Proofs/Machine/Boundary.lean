import StackAssembler.Machine.State

set_option autoImplicit false
set_option relaxedAutoImplicit false

namespace StackAssembler.Machine

/-- The positions at which instructions start when the code is read from its first byte. -/
inductive Boundary (code : Bytes) : Nat → Prop
  | zero : Boundary code 0
  | next {i : Nat} {byte : UInt8} :
      Boundary code i → code[i]? = some byte → Boundary code (i + 1 + operandLength byte)

theorem operandLength_toByte (op : Opcode) : 1 + operandLength op.toByte = op.encodedLength := by
  rw [operandLength, Opcode.ofByte?_toByte]
  rfl

theorem Boundary.next_opcode {code : Bytes} {i : Nat} {op : Opcode} (start : Boundary code i)
    (found : code[i]? = some op.toByte) : Boundary code (i + op.encodedLength) := by
  have next := start.next found
  rwa [Nat.add_assoc, operandLength_toByte] at next

theorem Boundary.next_le {code : Bytes} {i j : Nat} {byte : UInt8} (start : Boundary code i)
    (later : Boundary code j) (order : i < j) (found : code[i]? = some byte) :
    i + 1 + operandLength byte ≤ j := by
  induction j using Nat.strongRecOn generalizing i byte with
  | _ j ih =>
    cases later with
    | zero => omega
    | @next k last previous last_found =>
      rcases Nat.lt_trichotomy i k with before | rfl | behind
      · have reached := ih k (by omega) start previous before found
        omega
      · rw [found] at last_found
        cases last_found
        exact Nat.le_refl _
      · have overlap := ih i order previous start behind last_found
        omega

/-- A scan that has read the first `n` bytes: it has marked the landings among them, and the next
instruction starts behind the bytes still to be passed over. -/
private structure Scanned (code : Bytes) (n : Nat) (scan : LandingScan) : Prop where
  size : scan.marks.size = n
  marks : ∀ i, i < n → (scan.marks[i]? = some true ↔
    Boundary code i ∧ code[i]? = some (Opcode.toByte .jumpdest))
  upcoming : Boundary code (n + scan.skip)
  skipped : ∀ i, n ≤ i → i < n + scan.skip → ¬ Boundary code i

private theorem scanned_start (code : Bytes) : Scanned code 0 {} where
  size := rfl
  marks i inside := absurd inside (Nat.not_lt_zero i)
  upcoming := .zero
  skipped i _ inside := absurd inside (Nat.not_lt_zero i)

private theorem getElem?_push_of_lt {marks : Array Bool} {i : Nat} (mark : Bool)
    (inside : i < marks.size) : (marks.push mark)[i]? = marks[i]? := by
  rw [Array.getElem?_push, if_neg (by omega)]

private theorem Scanned.step {code : Bytes} {n : Nat} {scan : LandingScan} {byte : UInt8}
    (scanned : Scanned code n scan) (found : code[n]? = some byte) :
    Scanned code (n + 1) (scan.next byte) := by
  obtain ⟨skip, marks⟩ := scan
  obtain ⟨size, marked, upcoming, skipped⟩ := scanned
  simp only at size marked upcoming skipped
  have earlier : ∀ mark i, i < n → ((marks.push mark)[i]? = some true ↔
      Boundary code i ∧ code[i]? = some (Opcode.toByte .jumpdest)) := by
    intro mark i inside
    rw [getElem?_push_of_lt mark (by omega)]
    exact marked i inside
  have latest : ∀ mark, (marks.push mark)[n]? = some mark := by
    intro mark
    rw [← size, Array.getElem?_push_size]
  cases skip with
  | zero =>
      refine ⟨by simp [LandingScan.next, size], ?_, upcoming.next found, ?_⟩
      · intro i inside
        rcases Nat.lt_succ_iff_lt_or_eq.mp inside with inside | rfl
        · exact earlier _ i inside
        · simp only [LandingScan.next, latest, Option.some.injEq, beq_iff_eq, found]
          exact ⟨fun same => ⟨upcoming, same⟩, fun both => both.2⟩
      · intro i behind inside boundary
        have reached := upcoming.next_le boundary behind found
        simp only [LandingScan.next] at inside
        omega
  | succ skip =>
      refine ⟨by simp [LandingScan.next, size], ?_, ?_, ?_⟩
      · intro i inside
        rcases Nat.lt_succ_iff_lt_or_eq.mp inside with inside | rfl
        · exact earlier _ i inside
        · have inner : ¬ Boundary code i := skipped i (Nat.le_refl _) (by omega)
          simp [LandingScan.next, latest, inner]
      · have position : n + 1 + skip = n + (skip + 1) := by omega
        simp only [LandingScan.next, position]
        exact upcoming
      · intro i behind inside
        simp only [LandingScan.next] at inside
        exact skipped i (by omega) (by omega)

private theorem scanned_foldl {code : Bytes} {front rest : List UInt8} {scan : LandingScan}
    (parts : code.toList = front ++ rest) (scanned : Scanned code front.length scan) :
    Scanned code code.size (rest.foldl LandingScan.next scan) := by
  induction rest generalizing front scan with
  | nil =>
      have size : code.size = front.length := by
        rw [← Array.length_toList, parts, List.append_nil]
      rw [size]
      exact scanned
  | cons byte rest ih =>
      have found : code[front.length]? = some byte := by
        rw [← Array.getElem?_toList, parts, List.getElem?_append_right (Nat.le_refl _), Nat.sub_self]
        rfl
      have longer : code.toList = (front ++ [byte]) ++ rest := by
        rw [parts]
        simp
      refine ih longer ?_
      rw [List.length_append]
      exact scanned.step found

private theorem scanned_all (code : Bytes) :
    Scanned code code.size (code.foldl LandingScan.next {}) := by
  have scanned := @scanned_foldl code [] code.toList {} rfl (scanned_start code)
  rwa [Array.foldl_toList] at scanned

@[simp] theorem size_landings (code : Bytes) : (landings code).size = code.size :=
  (scanned_all code).size

theorem landings_eq_true_iff (code : Bytes) (i : Nat) :
    (landings code)[i]? = some true ↔
      Boundary code i ∧ code[i]? = some (Opcode.toByte .jumpdest) := by
  by_cases inside : i < code.size
  · exact (scanned_all code).marks i inside
  · have outside : code.size ≤ i := Nat.le_of_not_lt inside
    rw [Array.getElem?_eq_none (by simpa using outside), Array.getElem?_eq_none outside]
    simp

end StackAssembler.Machine

import StackAssembler.Proofs.Assembly.Walk
import StackAssembler.Proofs.Machine.BottomUp

set_option autoImplicit false
set_option relaxedAutoImplicit false

namespace StackAssembler

namespace Slot

/-- The slots that some opcode reaches at a given depth. -/
def Reachable (depth : Nat) : Slot → Prop
  | .dup k => 1 ≤ k ∧ k ≤ min depth 16
  | .swap k => 1 ≤ k ∧ k < min depth 16

/-- Where the word of a slot lies, counted from the bottom of the stack. -/
def position (slot : Slot) (depth : Nat) : Nat :=
  (slot.index - 1) + (depth - 16)

def family : Slot → Fin 16 → Opcode
  | .dup _ => .dup
  | .swap _ => .swap

def span : Slot → Nat
  | .dup _ => 1
  | .swap _ => 2

theorem pops_family (slot : Slot) (i : Fin 16) : (slot.family i).pops = i + slot.span := by
  cases slot <;> rfl

private theorem fromTop?_eq_some {k depth n : Nat} :
    fromTop? k depth = some n ↔ (1 ≤ k ∧ k ≤ min depth 16) ∧ n = depth - (k - 1 + (depth - 16)) := by
  cases k with
  | zero => simp [fromTop?]
  | succ below =>
      have window : Opcode.stackWindow = 16 := rfl
      simp only [fromTop?]
      split
      · rw [Option.some.injEq]
        omega
      · simp only [reduceCtorEq, false_iff]
        omega

theorem resolve?_eq_some_iff {slot : Slot} {depth : Nat} {op : Opcode} :
    slot.resolve? depth = some op ↔
      slot.Reachable depth ∧
        ∃ i : Fin 16, i + slot.span + slot.position depth = depth ∧ op = slot.family i := by
  cases slot with
  | dup k =>
      simp only [resolve?, Option.bind_eq_some_iff, fromTop?_eq_some, Opcode.dup?,
        Option.dite_none_right_eq_some, Option.some.injEq, Reachable, position, index, span, family]
      constructor
      · rintro ⟨n, ⟨reachable, rfl⟩, inside, rfl⟩
        exact ⟨reachable, _, by simp only; omega, rfl⟩
      · rintro ⟨reachable, i, count, rfl⟩
        refine ⟨i + 1, ⟨reachable, by omega⟩, by omega, rfl⟩
  | swap k =>
      simp only [resolve?, Option.bind_eq_some_iff, fromTop?_eq_some, Opcode.swap?,
        Option.dite_none_right_eq_some, Option.some.injEq, Reachable, position, index, span, family]
      constructor
      · rintro ⟨n, ⟨reachable, rfl⟩, inside, rfl⟩
        exact ⟨by omega, _, by simp only; omega, rfl⟩
      · rintro ⟨reachable, i, count, rfl⟩
        refine ⟨i + 2, ⟨by omega, by omega⟩, by omega, rfl⟩

private theorem Reachable.bounds {slot : Slot} {depth : Nat} (reachable : slot.Reachable depth) :
    slot.span + slot.position depth ≤ depth ∧
      depth - slot.span - slot.position depth < 16 := by
  cases slot <;> simp only [Reachable, span, position, index] at reachable ⊢ <;> omega

theorem exists_resolve?_iff (slot : Slot) (depth : Nat) :
    (∃ op, slot.resolve? depth = some op) ↔ slot.Reachable depth := by
  simp only [resolve?_eq_some_iff]
  constructor
  · rintro ⟨op, reachable, _⟩
    exact reachable
  · intro reachable
    obtain ⟨enough, inside⟩ := reachable.bounds
    refine ⟨_, reachable, ⟨_, inside⟩, ?_, rfl⟩
    simp only
    omega

theorem position_lt_size {slot : Slot} {depth : Nat} (byte : slot.index ≤ 255)
    (shallow : depth + 238 < UInt64.size) : slot.position depth < UInt64.size := by
  have size : UInt64.size = 18446744073709551616 := rfl
  unfold position
  omega

/-- At the depths that are left, a position that is counted from zero again lies too far from the top,
and so the slot is out of reach in either way of counting. -/
theorem resolve?_of_wrapped {slot : Slot} {depth : Nat} (byte : slot.index ≤ 255)
    (counted : depth < UInt64.size) (wraps : UInt64.size ≤ slot.position depth) :
    slot.resolve? depth = none ∧
      Opcode.dup? (depth - slot.position depth % UInt64.size) = none ∧
        Opcode.swap? (depth - slot.position depth % UInt64.size - 1) = none := by
  have size : UInt64.size = 18446744073709551616 := rfl
  have low : slot.position depth % UInt64.size < 238 := by
    rw [size] at wraps ⊢
    unfold position at wraps ⊢
    omega
  have deep : UInt64.size ≤ depth + 238 := by
    unfold position at wraps
    omega
  refine ⟨?_, dif_neg (by omega), dif_neg (by omega)⟩
  rw [Option.eq_none_iff_forall_ne_some]
  intro op resolved
  obtain ⟨_, i, count, _⟩ := resolve?_eq_some_iff.mp resolved
  omega

theorem pops_le_of_resolve? {slot : Slot} {depth : Nat} {op : Opcode}
    (resolved : slot.resolve? depth = some op) : op.pops ≤ depth := by
  obtain ⟨_, i, count, rfl⟩ := resolve?_eq_some_iff.mp resolved
  rw [pops_family]
  omega

end Slot

namespace Machine

/-- Executing an opcode, wherever it stands, turns one stack into another and changes nothing else.
Both are listed from the bottom up. -/
def Rearranges (op : Opcode) (before after : Array Word) : Prop :=
  ∀ (env : Env) (pc : Nat) (memory : Bytes), env.code[pc]? = some op.toByte →
    step env ⟨pc, before.toList.reverse, memory⟩ = .ok () ⟨pc + 1, after.toList.reverse, memory⟩

private theorem rearranges_dup (i : Fin 16) (words : Array Word) (inside : i.val < words.size)
    (room : words.size < stackLimit) :
    Rearranges (.dup i) words (words.push words[words.size - 1 - i]) := by
  intro env pc memory fetched
  have short : words.toList.reverse.length < stackLimit := by simpa using room
  rw [step_of_fetched fetched]
  show Site.duplicate ⟨.dup i, pc⟩ i ⟨pc + 1, words.toList.reverse, memory⟩ = _
  rw [duplicate_bottomUp _ _ _ _ _ inside]
  simp only [Site.push, if_pos short, Array.toList_push, List.reverse_append, List.reverse_cons,
    List.reverse_nil, List.nil_append, List.singleton_append]

private theorem rearranges_swap (i : Fin 16) (words : Array Word) (inside : i + 1 < words.size) :
    Rearranges (.swap i) words (words.swap (words.size - 1 - (i + 1)) (words.size - 1)) := by
  intro env pc memory fetched
  rw [step_of_fetched fetched]
  exact exchange_bottomUp _ _ _ _ _ inside

end Machine

open Machine

/-- Executing the opcode does with the word of the slot what the slot says, on a stack listed from
the bottom up: it appends a copy, if there is room, or exchanges the word with the last. -/
def Slot.ServedBy (op : Opcode) (words : Array Word) : Slot → Prop
  | .dup k => words.size < 1024 →
      ∃ inside : (Slot.dup k).position words.size < words.size,
        Rearranges op words (words.push words[(Slot.dup k).position words.size])
  | .swap k =>
      ∃ inside : (Slot.swap k).position words.size < words.size,
        Rearranges op words (words.swap ((Slot.swap k).position words.size) (words.size - 1))

theorem Slot.servedBy_of_resolve? {slot : Slot} {op : Opcode} {words : Array Word}
    (resolved : slot.resolve? words.size = some op) : slot.ServedBy op words := by
  obtain ⟨_, i, count, rfl⟩ := resolve?_eq_some_iff.mp resolved
  cases slot with
  | dup k =>
      have count : i + 1 + (Slot.dup k).position words.size = words.size := count
      intro room
      have place : words.size - 1 - i = (Slot.dup k).position words.size := by omega
      have rearranges := rearranges_dup i words (by omega) room
      simp only [place] at rearranges
      exact ⟨by omega, rearranges⟩
  | swap k =>
      have count : i + 2 + (Slot.swap k).position words.size = words.size := count
      have place : words.size - 1 - (i + 1) = (Slot.swap k).position words.size := by omega
      have rearranges := rearranges_swap i words (by omega)
      simp only [place] at rearranges
      exact ⟨by omega, rearranges⟩

namespace Assembly

end Assembly

end StackAssembler

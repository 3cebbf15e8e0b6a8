import StackAssembler.Proofs.ItemExecution
import StackAssembler.Proofs.LabelResolution
import StackAssembler.Proofs.Machine.Reachability

set_option autoImplicit false
set_option relaxedAutoImplicit false

namespace StackAssembler.Assembly

open Machine

/-- The stack and the memory behind an item, unless the run ends or turns off there. -/
def Item.perform (env : Env) (position : String → Nat) (pc : Nat) (stack : List Word)
    (memory : Bytes) : Item → Option (List Word × Bytes)
  | .push immediate => some (immediate.word :: stack, memory)
  | .pushLabel name => some (BitVec.ofNat 256 (position name) :: stack, memory)
  | .label _ => some (stack, memory)
  | .op opcode =>
      if opcode.pops ≤ stack.length then
        match effect env opcode pc memory (stack.take opcode.pops) with
        | .proceed results final => some (results ++ stack.drop opcode.pops, final)
        | _ => none
      else none

def performAll (env : Env) (position : String → Nat) (width : Nat) :
    Nat → List Word → Bytes → List Item → Option (List Word × Bytes)
  | _, stack, memory, [] => some (stack, memory)
  | pc, stack, memory, item :: rest =>
      (item.perform env position pc stack memory).bind fun (grown, final) =>
        performAll env position width (pc + item.size width) grown final rest

private theorem isModelled_of_proceed {env : Env} {op : Opcode} {pc : Nat} {memory final : Bytes}
    {operands results : List Word}
    (effects : effect env op pc memory operands = .proceed results final) : op.isModelled = true := by
  cases op
  all_goals first | rfl | cases effects

private theorem perform_op {env : Env} {position : String → Nat} {pc : Nat} {op : Opcode}
    {stack grown : List Word} {memory final : Bytes}
    (performed : (Item.op op).perform env position pc stack memory = some (grown, final)) :
    op.pops ≤ stack.length ∧ ∃ results, grown = results ++ stack.drop op.pops ∧
      effect env op pc memory (stack.take op.pops) = .proceed results final := by
  simp only [Item.perform] at performed
  split at performed
  · rename_i enough
    split at performed
    · rename_i results _ effects
      cases performed
      exact ⟨enough, results, rfl, effects⟩
    · cases performed
  · cases performed

namespace Placed

variable {width : Nat} {items before after : List Item} {code calldata : Bytes}

theorem word_of_position {name : String} (placed : Placed width items code)
    (parts : items = before ++ .pushLabel name :: after) :
    Word.ofBytes (code.window (extent width before + 1) width) =
      BitVec.ofNat 256 (labelPosition width items name) := by
  obtain ⟨front, back, declared, _⟩ :=
    placed.exists_label (parts ▸ List.mem_append_right _ List.mem_cons_self)
  rw [placed.labelPosition_eq declared, ← placed.word_of_pushLabel parts declared,
    BitVec.ofNat_toNat, BitVec.setWidth_eq]

theorem step_performed {item : Item} {stack grown : List Word} {memory final : Bytes}
    (placed : Placed width items code) (parts : items = before ++ item :: after)
    (performed : item.perform (.of code calldata) (labelPosition width items) (extent width before)
      stack memory = some (grown, final))
    (room : stack.length < stackLimit) :
    grown.length ≤ stack.length + 1 ∧
      step (.of code calldata) ⟨extent width before, stack, memory⟩ =
        .ok () ⟨extent width (before ++ [item]), grown, final⟩ := by
  cases item with
  | push immediate =>
      cases performed
      exact ⟨Nat.le_refl _, (placed.pushes_push parts calldata memory stack).1 room⟩
  | pushLabel name =>
      cases performed
      have stepped := (placed.pushes_pushLabel parts calldata memory stack).1 room
      rw [placed.word_of_position parts] at stepped
      exact ⟨Nat.le_refl _, stepped⟩
  | label name =>
      cases performed
      have bounded : ([] : List Word).length + stack.length ≤ stackLimit := by
        rw [List.length_nil]
        omega
      exact ⟨Nat.le_succ _, placed.step_proceed parts rfl rfl bounded rfl bounded⟩
  | op opcode =>
      obtain ⟨enough, results, rfl, effects⟩ := perform_op performed
      have count : (stack.take opcode.pops).length = opcode.pops := List.length_take_of_le enough
      have behind := List.length_drop (i := opcode.pops) (l := stack)
      have pushes : results.length = opcode.pushes := by
        have sound := effect_sound (.of code calldata) (extent width before) memory count
        rw [effects] at sound
        cases sound with
        | proceed length => exact length
      have fewer := opcode.pushes_le
      have bounded : (stack.take opcode.pops).length + (stack.drop opcode.pops).length ≤
          stackLimit := by
        omega
      have fits : results.length + (stack.drop opcode.pops).length ≤ stackLimit := by
        omega
      refine ⟨by rw [List.length_append]; omega, ?_⟩
      have stepped := placed.step_proceed parts (isModelled_of_proceed effects) count bounded
        effects fits
      rwa [List.take_append_drop] at stepped

theorem reaches_performed {block : List Item} {stack grown : List Word} {memory final : Bytes}
    (placed : Placed width items code) (parts : items = before ++ (block ++ after))
    (performed : performAll (.of code calldata) (labelPosition width items) width
      (extent width before) stack memory block = some (grown, final))
    (room : stack.length + block.length ≤ stackLimit) :
    Reaches (.of code calldata) ⟨extent width before, stack, memory⟩
      ⟨extent width (before ++ block), grown, final⟩ := by
  induction block generalizing before stack memory with
  | nil =>
      cases performed
      rw [List.append_nil]
  | cons item rest ih =>
      obtain ⟨⟨middle, between⟩, first, behind⟩ := Option.bind_eq_some_iff.mp performed
      rw [List.length_cons] at room
      obtain ⟨length, stepped⟩ := placed.step_performed parts first (by omega)
      have position : extent width before + item.size width = extent width (before ++ [item]) := by
        rw [extent_append, extent_cons, extent_nil, Nat.add_zero]
      rw [position] at behind
      have tail : items = (before ++ [item]) ++ (rest ++ after) := by
        rw [parts, List.append_assoc, List.singleton_append, List.cons_append]
      have reached := ih tail behind (by omega)
      rw [List.append_assoc, List.singleton_append] at reached
      exact .head stepped reached

private theorem resume_land {name : String} {front back : List Item}
    (placed : Placed width items code) (pushed : .pushLabel name ∈ items)
    (declared : items = front ++ .label name :: back) (op : Opcode) (pc : Nat)
    (operands below : List Word) (memory : Bytes) :
    (Effect.land (BitVec.ofNat 256 (labelPosition width items name)) memory).resume
      (.of code calldata) op pc operands below = .ok () ⟨extent width front, below, memory⟩ := by
  obtain ⟨before, after, parts⟩ := List.append_of_mem pushed
  have target := placed.word_of_pushLabel parts declared
  rw [placed.word_of_position parts] at target
  have marked : (landings code)[extent width front]? = some true :=
    (placed.landing_iff _).mpr ⟨front, _, back, declared, rfl, .inr ⟨name, rfl⟩⟩
  rw [Effect.resume, target, Env.marks_of, if_pos marked]

theorem step_jump {name : String} {front back : List Item} {below : List Word} {memory : Bytes}
    (placed : Placed width items code) (parts : items = before ++ .op .jump :: after)
    (pushed : .pushLabel name ∈ items) (declared : items = front ++ .label name :: back)
    (bounded : 1 + below.length ≤ stackLimit) :
    step (.of code calldata) ⟨extent width before,
      [BitVec.ofNat 256 (labelPosition width items name)] ++ below, memory⟩ =
        .ok () ⟨extent width front, below, memory⟩ := by
  have fetched : (Env.of code calldata).code[extent width before]? =
      some (Opcode.toByte .jump) := placed.fetched parts
  have count : [BitVec.ofNat 256 (labelPosition width items name)].length = Opcode.pops .jump := rfl
  rw [step_modelled memory fetched rfl count bounded]
  exact placed.resume_land pushed declared _ _ _ _ _

theorem step_jumpi {name : String} {front back : List Item} {condition : Word} {below : List Word}
    {memory : Bytes} (placed : Placed width items code)
    (parts : items = before ++ .op .jumpi :: after) (pushed : .pushLabel name ∈ items)
    (declared : items = front ++ .label name :: back) (bounded : 2 + below.length ≤ stackLimit) :
    step (.of code calldata) ⟨extent width before,
      [BitVec.ofNat 256 (labelPosition width items name), condition] ++ below, memory⟩ =
        .ok () ⟨if condition = 0 then extent width (before ++ [.op .jumpi]) else extent width front,
          below, memory⟩ := by
  have fetched : (Env.of code calldata).code[extent width before]? =
      some (Opcode.toByte .jumpi) := placed.fetched parts
  have count : [BitVec.ofNat 256 (labelPosition width items name), condition].length =
      Opcode.pops .jumpi := rfl
  rw [step_modelled memory fetched rfl count bounded]
  simp only [effect, List.getD_cons_zero, List.getD_cons_succ]
  split
  · have room : ([] : List Word).length + below.length ≤ stackLimit := by
      rw [List.length_nil]
      omega
    rw [Effect.resume, if_pos room, ← placed.extent_next parts]
    rfl
  · exact placed.resume_land pushed declared _ _ _ _ _

end Placed

end StackAssembler.Assembly

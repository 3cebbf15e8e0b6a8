import StackAssembler.Proofs.Assembly.Operand
import StackAssembler.Proofs.Assembly.Placement
import StackAssembler.Proofs.Machine.Transition

set_option autoImplicit false
set_option relaxedAutoImplicit false

namespace StackAssembler.Assembly

/-- The tracker describes the stack, within the bounds of the machine. -/
structure Describes (t : StackDepth) (stack : List Word) : Prop where
  limited : t.limit ≤ stackLimit
  low : t.depth ≤ t.limit
  length : stack.length = t.depth

theorem Describes.next {directive : Directive} {t u : StackDepth} {events : List Event}
    {stack grown : List Word} (describes : Describes t stack) (emits : directive.Emits t events u)
    (length : grown.length = u.depth) : Describes u grown where
  limited := emits.tracks.2.symm ▸ describes.limited
  low := emits.tracks.2.symm ▸ emits.tracks.1.le_limit describes.low
  length := length

theorem room_of_apply {t u : StackDepth} {stack : List Word} {op : Opcode}
    (describes : Describes t stack) (applied : t.apply op = .ok u) :
    stack.length - op.pops + op.pushes ≤ stackLimit := by
  obtain ⟨_, fits, _⟩ := apply_eq_ok.mp applied
  rw [describes.length]
  exact Nat.le_trans fits describes.limited

namespace Placed

open Machine

variable {width : Nat} {items before after : List Item} {item : Item} {code : Bytes}

theorem step_outcome {stack : List Word} (placed : Placed width items code)
    (parts : items = before ++ item :: after) (enough : item.pops ≤ stack.length)
    (bounded : stack.length ≤ stackLimit)
    (room : stack.length - item.pops + item.pushes ≤ stackLimit) (calldata memory : Bytes) :
    Outcome (item.opcode width) (extent width before) stack
      (step (.of code calldata) ⟨extent width before, stack, memory⟩) := by
  rw [← item.pops_opcode width] at enough room
  rw [← item.pushes_opcode width] at room
  have fetched : (Env.of code calldata).code[extent width before]? =
      some (item.opcode width).toByte := placed.fetched parts
  exact Machine.step_outcome memory fetched enough bounded room

theorem extent_next (placed : Placed width items code) (parts : items = before ++ item :: after) :
    extent width before + (item.opcode width).encodedLength = extent width (before ++ [item]) := by
  have member : item ∈ items := parts ▸ List.mem_append_right _ List.mem_cons_self
  rw [placed.encodedLength_opcode member, extent_append, extent_cons, extent_nil, Nat.add_zero]

theorem step_proceed {operands results below : List Word} {calldata memory final : Bytes}
    (placed : Placed width items code) (parts : items = before ++ item :: after)
    (modelled : (item.opcode width).isModelled = true)
    (count : operands.length = (item.opcode width).pops)
    (bounded : operands.length + below.length ≤ stackLimit)
    (effects : effect (.of code calldata) (item.opcode width) (extent width before) memory operands =
      .proceed results final)
    (room : results.length + below.length ≤ stackLimit) :
    step (.of code calldata) ⟨extent width before, operands ++ below, memory⟩ =
      .ok () ⟨extent width (before ++ [item]), results ++ below, final⟩ := by
  have fetched : (Env.of code calldata).code[extent width before]? =
      some (item.opcode width).toByte := placed.fetched parts
  rw [step_modelled memory fetched modelled count bounded, effects, Effect.resume, if_pos room,
    placed.extent_next parts]

theorem step_finish {op : Opcode} {operands below : List Word} {calldata memory final : Bytes}
    {exit : Exit} (placed : Placed width items code) (parts : items = before ++ .op op :: after)
    (modelled : op.isModelled = true) (count : operands.length = op.pops)
    (bounded : operands.length + below.length ≤ stackLimit)
    (effects : effect (.of code calldata) op (extent width before) memory operands =
      .finish exit final) :
    step (.of code calldata) ⟨extent width before, operands ++ below, memory⟩ =
      .error exit ⟨extent width before + 1, below, final⟩ := by
  have fetched : (Env.of code calldata).code[extent width before]? = some op.toByte :=
    placed.fetched parts
  rw [step_modelled memory fetched modelled count bounded, effects, Effect.resume]

theorem step_end (placed : Placed width items code) (calldata memory : Bytes)
    (stack : List Word) :
    step (.of code calldata) ⟨extent width items, stack, memory⟩ =
      .error (.halted #[]) ⟨extent width items, stack, memory⟩ := by
  simp only [step, Env.code_of, placed.fetched_none]

/-- What becomes of pushing a word: it goes on top unless the stack is full. -/
def Pushes (code : Bytes) (width : Nat) (before : List Item) (item : Item) (word : Word) : Prop :=
  ∀ (calldata memory : Bytes) (stack : List Word),
    (stack.length < stackLimit →
      step (.of code calldata) ⟨extent width before, stack, memory⟩ =
        .ok () ⟨extent width (before ++ [item]), word :: stack, memory⟩) ∧
    (stack.length = stackLimit → ∃ last,
      step (.of code calldata) ⟨extent width before, stack, memory⟩ =
        .error (.failed (.stackOverflow (extent width before))) last)

private theorem pushes_of_effect {word : Word} (placed : Placed width items code)
    (parts : items = before ++ item :: after)
    (modelled : (item.opcode width).isModelled = true) (pops : (item.opcode width).pops = 0)
    (effects : ∀ calldata memory, effect (.of code calldata) (item.opcode width)
      (extent width before) memory [] = .proceed [word] memory) :
    Pushes code width before item word := by
  intro calldata memory stack
  have count : ([] : List Word).length = (item.opcode width).pops := pops.symm
  have grown : [word].length + stack.length = stack.length + 1 := Nat.add_comm _ _
  constructor
  · intro room
    have bounded : ([] : List Word).length + stack.length ≤ stackLimit := by
      rw [List.length_nil]
      omega
    have fits : [word].length + stack.length ≤ stackLimit := by
      rw [grown]
      exact room
    exact placed.step_proceed parts modelled count bounded (effects calldata memory) fits
  · intro full
    have fetched : (Env.of code calldata).code[extent width before]? =
        some (item.opcode width).toByte := placed.fetched parts
    have bounded : ([] : List Word).length + stack.length ≤ stackLimit := by
      rw [List.length_nil]
      omega
    have stepped := step_modelled memory fetched modelled count bounded
    have excess : ¬ [word].length + stack.length ≤ stackLimit := by
      rw [grown]
      omega
    rw [effects, Effect.resume, if_neg excess] at stepped
    exact ⟨_, stepped⟩

theorem pushes_push {immediate : Immediate} (placed : Placed width items code)
    (parts : items = before ++ .push immediate :: after) :
    Pushes code width before (.push immediate) immediate.word := by
  apply placed.pushes_of_effect parts rfl rfl
  intro calldata memory
  have operand := placed.operand_eq parts
  have length : immediate.bytes.length - 1 + 1 = immediate.bytes.length :=
    Nat.sub_add_cancel immediate.nonempty
  simp only [Item.opcode, Immediate.opcode, effect, Env.code_of, length]
  rw [Item.operand] at operand
  rw [operand]
  rfl

theorem pushes_pushLabel {name : String} (placed : Placed width items code)
    (parts : items = before ++ .pushLabel name :: after) :
    Pushes code width before (.pushLabel name)
      (Word.ofBytes (code.window (extent width before + 1) width)) := by
  apply placed.pushes_of_effect parts rfl rfl
  intro calldata memory
  have legal := placed.legal
  have length : (width - 1) % 32 + 1 = width := by omega
  simp only [Item.opcode, effect, Env.code_of, length]

end Placed

end StackAssembler.Assembly

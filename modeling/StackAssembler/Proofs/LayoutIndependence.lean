import StackAssembler.Proofs.Assembly.Relocation
import StackAssembler.Proofs.ItemExecution
import StackAssembler.Proofs.LabelResolution
import StackAssembler.Proofs.Machine.Reachability

/-!
Layout does not change behaviour. Two listings of the same instructions run in lockstep, however wide
their immediates and label pushes are: both machines stand at the same item with the same words,
except between a label push and the jump behind it, where each has its own offset of the same label.
-/

set_option autoImplicit false
set_option relaxedAutoImplicit false

namespace StackAssembler

open Assembly Machine

namespace Machine

def Fault.erasePc : Fault → Fault
  | .invalidOpcode byte _ => .invalidOpcode byte 0
  | .unsupportedOpcode op _ => .unsupportedOpcode op 0
  | .stackUnderflow op _ => .stackUnderflow op 0
  | .stackOverflow _ => .stackOverflow 0
  | .invalidJump dest _ => .invalidJump dest 0
  | .memoryLimit offset size _ => .memoryLimit offset size 0
  | .reverted data => .reverted data
  | .invalidInstruction _ => .invalidInstruction 0

/-- A fault that says that control went astray. -/
def Fault.isMisdirected : Fault → Bool
  | .invalidOpcode .. | .invalidJump .. => true
  | _ => false

/-- Exits that are equal but for positions, with control where it should be. -/
inductive SameExit : Exit → Exit → Prop
  | halted {output : Bytes} : SameExit (.halted output) (.halted output)
  | failed {fault fault' : Fault} :
      fault.erasePc = fault'.erasePc → fault.isMisdirected = false →
      SameExit (.failed fault) (.failed fault')

inductive SameEffect : Effect → Effect → Prop
  | proceed {results : List Word} {memory : Bytes} :
      SameEffect (.proceed results memory) (.proceed results memory)
  | finish {exit exit' : Exit} {memory : Bytes} :
      SameExit exit exit' → SameEffect (.finish exit memory) (.finish exit' memory)

inductive SameResult (Related : State → State → Prop) :
    EStateM.Result Exit State Unit → EStateM.Result Exit State Unit → Prop
  | ok {s t : State} : Related s t → SameResult Related (.ok () s) (.ok () t)
  | error {exit exit' : Exit} {s t : State} :
      SameExit exit exit' → SameResult Related (.error exit s) (.error exit' t)

theorem SameResult.mono {First Second : State → State → Prop}
    {result result' : EStateM.Result Exit State Unit} (same : SameResult First result result')
    (weaker : ∀ s t, First s t → Second s t) : SameResult Second result result' := by
  cases same with
  | ok related => exact .ok (weaker _ _ related)
  | error exits => exact .error exits

inductive Level (pc pc' : Nat) : State → State → Prop
  | intro {stack : List Word} {memory : Bytes} :
      stack.length ≤ stackLimit → Level pc pc' ⟨pc, stack, memory⟩ ⟨pc', stack, memory⟩

private theorem sameEffect_within (pc pc' : Nat) (memory : Bytes) (offset size : Word)
    {next next' : Region → Bytes → Effect}
    (same : ∀ region memory, SameEffect (next region memory) (next' region memory)) :
    SameEffect (.within pc memory offset size next) (.within pc' memory offset size next') := by
  unfold Effect.within
  cases Region.ofWords? offset size with
  | none => exact .finish (.failed rfl rfl)
  | some region => exact same _ _

private theorem effect_relocated {env env' : Env} {op : Opcode}
    (calldata : env.calldata = env'.calldata) (free : op.isPositional = false)
    (plain : op.isPush = false) (pc pc' : Nat) (memory : Bytes) (operands : List Word) :
    SameEffect (effect env op pc memory operands) (effect env' op pc' memory operands) := by
  cases op
  case push => cases plain
  case jump | jumpi | pc | codesize | codecopy => cases free
  case keccak256 | mload | mstore | mstore8 =>
    simp only [effect]
    exact sameEffect_within _ _ _ _ _ fun _ _ => .proceed
  case calldatacopy =>
    simp only [effect, calldata]
    exact sameEffect_within _ _ _ _ _ fun _ _ => .proceed
  case calldataload | calldatasize =>
    simp only [effect, calldata]
    exact .proceed
  case ret =>
    simp only [effect]
    exact sameEffect_within _ _ _ _ _ fun _ _ => .finish .halted
  case revert =>
    simp only [effect]
    exact sameEffect_within _ _ _ _ _ fun _ _ => .finish (.failed rfl rfl)
  case stop => exact .finish .halted
  all_goals first
    | exact .proceed
    | exact .finish (.failed rfl rfl)

private theorem resume_relocated {env env' : Env} {op op' : Opcode} {pc pc' : Nat}
    {operands operands' below : List Word} {effect effect' : Effect}
    (same : SameEffect effect effect') :
    SameResult (Level (pc + op.encodedLength) (pc' + op'.encodedLength))
      (effect.resume env op pc operands below) (effect'.resume env' op' pc' operands' below) := by
  cases same with
  | @proceed results memory =>
      rw [Effect.resume, Effect.resume]
      by_cases room : results.length + below.length ≤ stackLimit
      · rw [if_pos room, if_pos room]
        refine .ok (.intro ?_)
        rw [List.length_append]
        exact room
      · rw [if_neg room, if_neg room]
        exact .error (.failed rfl rfl)
  | finish exits => exact .error exits

private theorem step_relocated {env env' : Env} {op : Opcode} {pc pc' : Nat} {stack : List Word}
    (memory : Bytes) (calldata : env.calldata = env'.calldata)
    (fetched : env.code[pc]? = some op.toByte) (fetched' : env'.code[pc']? = some op.toByte)
    (free : op.isPositional = false) (plain : op.isPush = false)
    (bounded : stack.length ≤ stackLimit) :
    SameResult (Level (pc + op.encodedLength) (pc' + op.encodedLength))
      (step env ⟨pc, stack, memory⟩) (step env' ⟨pc', stack, memory⟩) := by
  cases modelled : op.isModelled with
  | false =>
      have left : step env ⟨pc, stack, memory⟩ =
          .error (.failed (.unsupportedOpcode op pc)) ⟨pc + 1, stack, memory⟩ :=
        step_unmodelled fetched modelled
      have right : step env' ⟨pc', stack, memory⟩ =
          .error (.failed (.unsupportedOpcode op pc')) ⟨pc' + 1, stack, memory⟩ :=
        step_unmodelled fetched' modelled
      rw [left, right]
      exact .error (.failed rfl rfl)
  | true =>
      by_cases short : stack.length < op.pops
      · obtain ⟨_, _, left⟩ := step_underflow memory fetched modelled short
        obtain ⟨_, _, right⟩ := step_underflow memory fetched' modelled short
        rw [left, right]
        exact .error (.failed rfl rfl)
      · have enough : op.pops ≤ stack.length := Nat.le_of_not_lt short
        rw [step_taken memory fetched modelled enough bounded,
          step_taken memory fetched' modelled enough bounded]
        exact resume_relocated (effect_relocated calldata free plain _ _ _ _)

end Machine

private inductive SameTarget (width width' : Nat) (items items' : List Item) : Word → Word → Prop
  | intro {front back front' back' : List Item} {name : String} {word word' : Word} :
      items = front ++ .label name :: back → items' = front' ++ .label name :: back' →
      back.map Item.instruction = back'.map Item.instruction →
      word.toNat = extent width front → word'.toNat = extent width' front' →
      SameTarget width width' items items' word word'

/-- Two machines at the same place of two listings of the same instructions. -/
private inductive Synced (width width' : Nat) (items items' : List Item) : State → State → Prop
  | plain {before after before' after' : List Item} {stack : List Word} {memory : Bytes} :
      items = before ++ after → items' = before' ++ after' →
      after.map Item.instruction = after'.map Item.instruction → Guarded after →
      stack.length ≤ stackLimit →
      Synced width width' items items' ⟨extent width before, stack, memory⟩
        ⟨extent width' before', stack, memory⟩
  /-- Behind the push of a label, each machine has its own offset of it on top. -/
  | pending {before after before' after' : List Item} {opcode : Opcode} {word word' : Word}
      {stack : List Word} {memory : Bytes} :
      items = before ++ .op opcode :: after → items' = before' ++ .op opcode :: after' →
      after.map Item.instruction = after'.map Item.instruction →
      opcode = .jump ∨ opcode = .jumpi → Guarded after →
      SameTarget width width' items items' word word' → stack.length < stackLimit →
      Synced width width' items items' ⟨extent width before, word :: stack, memory⟩
        ⟨extent width' before', word' :: stack, memory⟩

section

variable {width width' : Nat} {items items' : List Item} {code code' : Bytes}

private theorem map_instruction_cons {item : Item} {rest other : List Item}
    (same : (item :: rest).map Item.instruction = other.map Item.instruction) :
    ∃ item' rest', other = item' :: rest' ∧ item.instruction = item'.instruction ∧
      rest.map Item.instruction = rest'.map Item.instruction := by
  obtain ⟨item', rest', split, head, tail⟩ := List.map_eq_cons_iff.mp same.symm
  exact ⟨item', rest', split, head.symm, tail.symm⟩

private theorem map_instruction_cons_same {item : Item} {rest other : List Item}
    (same : (item :: rest).map Item.instruction = other.map Item.instruction)
    (plain : ∀ immediate, item ≠ .push immediate) :
    ∃ rest', other = item :: rest' ∧ rest.map Item.instruction = rest'.map Item.instruction := by
  obtain ⟨item', rest', split, head, tail⟩ := map_instruction_cons same
  rcases Item.eq_of_instruction head with rfl | ⟨immediate, _, constant, _, _⟩
  · exact ⟨rest', split, tail⟩
  · exact absurd constant (plain immediate)

private theorem sameTarget_of_pushLabel (placed : Placed width items code)
    (placed' : Placed width' items' code')
    (same : items.map Item.instruction = items'.map Item.instruction)
    {before after before' after' : List Item} {name : String}
    (parts : items = before ++ .pushLabel name :: after)
    (parts' : items' = before' ++ .pushLabel name :: after') :
    SameTarget width width' items items'
      (Word.ofBytes (code.window (extent width before + 1) width))
      (Word.ofBytes (code'.window (extent width' before' + 1) width')) := by
  obtain ⟨front, back, declared, _⟩ :=
    placed.exists_label (parts ▸ List.mem_append_right _ List.mem_cons_self)
  rw [declared, List.map_append] at same
  obtain ⟨front', others, split, _, rest⟩ := List.map_eq_append_iff.mp same.symm
  obtain ⟨back', rfl, behind⟩ := map_instruction_cons_same rest.symm nofun
  exact .intro declared split behind (placed.word_of_pushLabel parts declared)
    (placed'.word_of_pushLabel parts' split)

private theorem land_synced (placed : Placed width items code)
    (placed' : Placed width' items' code') (guarded : Guarded items) {word word' : Word}
    (target : SameTarget width width' items items' word word') {op : Opcode} {pc pc' : Nat}
    {operands operands' stack : List Word} (bounded : stack.length ≤ stackLimit)
    (calldata memory : Bytes) :
    SameResult (Synced width width' items items')
      ((Effect.land word memory).resume (.of code calldata) op pc operands stack)
      ((Effect.land word' memory).resume (.of code' calldata) op pc' operands' stack) := by
  obtain ⟨declared, declared', same, offset, offset'⟩ := target
  have marked : (landings code)[word.toNat]? = some true := by
    rw [offset]
    exact (placed.landing_iff _).mpr ⟨_, _, _, declared, rfl, .inr ⟨_, rfl⟩⟩
  have marked' : (landings code')[word'.toNat]? = some true := by
    rw [offset']
    exact (placed'.landing_iff _).mpr ⟨_, _, _, declared', rfl, .inr ⟨_, rfl⟩⟩
  rw [Effect.resume, Effect.resume, Env.marks_of, Env.marks_of, if_pos marked, if_pos marked',
    offset, offset']
  refine .ok (.plain declared declared' ?_ ?_ bounded)
  · rw [List.map_cons, List.map_cons, same]
  · rw [declared] at guarded
    exact guarded.of_label

private theorem advance_synced (placed : Placed width items code)
    (placed' : Placed width' items' code') {before after before' after' : List Item}
    {item item' : Item} (parts : items = before ++ item :: after)
    (parts' : items' = before' ++ item' :: after')
    (same : after.map Item.instruction = after'.map Item.instruction) (guarded : Guarded after)
    {result result' : EStateM.Result Exit State Unit}
    (stepped : SameResult (Level (extent width before + (item.opcode width).encodedLength)
      (extent width' before' + (item'.opcode width').encodedLength)) result result') :
    SameResult (Synced width width' items items') result result' := by
  rw [placed.extent_next parts, placed'.extent_next parts'] at stepped
  rw [List.append_cons] at parts parts'
  apply stepped.mono
  rintro _ _ ⟨room⟩
  exact .plain parts parts' same guarded room

private theorem step_opcode_synced (placed : Placed width items code)
    (placed' : Placed width' items' code') {before after before' after' : List Item} {item : Item}
    {op : Opcode} (parts : items = before ++ item :: after)
    (parts' : items' = before' ++ item :: after')
    (same : after.map Item.instruction = after'.map Item.instruction) (guarded : Guarded after)
    (opcode : item.opcode width = op) (opcode' : item.opcode width' = op)
    (free : op.isPositional = false) (plain : op.isPush = false) {stack : List Word}
    (bounded : stack.length ≤ stackLimit) (calldata memory : Bytes) :
    SameResult (Synced width width' items items')
      (step (.of code calldata) ⟨extent width before, stack, memory⟩)
      (step (.of code' calldata) ⟨extent width' before', stack, memory⟩) := by
  have fetched := placed.fetched parts
  have fetched' := placed'.fetched parts'
  rw [opcode] at fetched
  rw [opcode'] at fetched'
  apply advance_synced placed placed' parts parts' same guarded
  rw [opcode, opcode']
  exact step_relocated memory rfl fetched fetched' free plain bounded

private theorem step_push_synced {before before' : List Item} {item item' : Item}
    {word word' : Word} (pushes : Placed.Pushes code width before item word)
    (pushes' : Placed.Pushes code' width' before' item' word') {stack : List Word}
    (bounded : stack.length ≤ stackLimit) (calldata memory : Bytes)
    (related : stack.length < stackLimit → Synced width width' items items'
      ⟨extent width (before ++ [item]), word :: stack, memory⟩
      ⟨extent width' (before' ++ [item']), word' :: stack, memory⟩) :
    SameResult (Synced width width' items items')
      (step (.of code calldata) ⟨extent width before, stack, memory⟩)
      (step (.of code' calldata) ⟨extent width' before', stack, memory⟩) := by
  have left := pushes calldata memory stack
  have right := pushes' calldata memory stack
  rcases Nat.lt_or_eq_of_le bounded with room | full
  · rw [left.1 room, right.1 room]
    exact .ok (related room)
  · obtain ⟨_, overflow⟩ := left.2 full
    obtain ⟨_, overflow'⟩ := right.2 full
    rw [overflow, overflow']
    exact .error (.failed rfl rfl)

private theorem step_plain_synced (placed : Placed width items code)
    (placed' : Placed width' items' code')
    (alike : items.map Item.instruction = items'.map Item.instruction)
    {before after before' after' : List Item} {stack : List Word} (parts : items = before ++ after)
    (parts' : items' = before' ++ after')
    (same : after.map Item.instruction = after'.map Item.instruction) (guarded : Guarded after)
    (bounded : stack.length ≤ stackLimit) (calldata memory : Bytes) :
    SameResult (Synced width width' items items')
      (step (.of code calldata) ⟨extent width before, stack, memory⟩)
      (step (.of code' calldata) ⟨extent width' before', stack, memory⟩) := by
  cases guarded with
  | nil =>
      obtain rfl := List.map_eq_nil_iff.mp same.symm
      rw [List.append_nil] at parts parts'
      rw [← parts, ← parts', placed.step_end, placed'.step_end]
      exact .error .halted
  | @op opcode rest free guarded =>
      obtain ⟨rest', rfl, behind⟩ := map_instruction_cons_same same nofun
      have plain := placed.plain opcode (parts ▸ List.mem_append_right _ List.mem_cons_self)
      exact step_opcode_synced placed placed' parts parts' behind guarded rfl rfl free plain bounded
        calldata memory
  | label guarded =>
      obtain ⟨rest', rfl, behind⟩ := map_instruction_cons_same same nofun
      exact step_opcode_synced placed placed' parts parts' behind guarded rfl rfl rfl rfl bounded
        calldata memory
  | @push immediate rest guarded =>
      obtain ⟨item', rest', rfl, head, behind⟩ := map_instruction_cons same
      have written : ∃ immediate', item' = .push immediate' ∧ immediate.word = immediate'.word := by
        rcases Item.eq_of_instruction head with rfl | ⟨_, immediate', constant, rfl, word⟩
        · exact ⟨immediate, rfl, rfl⟩
        · cases constant
          exact ⟨immediate', rfl, word⟩
      obtain ⟨immediate', rfl, word⟩ := written
      refine step_push_synced (placed.pushes_push parts) (placed'.pushes_push parts') bounded
        calldata memory fun room => ?_
      rw [List.append_cons] at parts parts'
      rw [← word]
      exact .plain parts parts' behind guarded room
  | @jump name opcode rest kind guarded =>
      obtain ⟨others, rfl, jump⟩ := map_instruction_cons_same same nofun
      obtain ⟨rest', rfl, behind⟩ := map_instruction_cons_same jump nofun
      have target := sameTarget_of_pushLabel placed placed' alike parts parts'
      refine step_push_synced (placed.pushes_pushLabel parts) (placed'.pushes_pushLabel parts')
        bounded calldata memory fun room => ?_
      rw [List.append_cons] at parts parts'
      exact .pending parts parts' behind kind guarded target room

private theorem step_jump_synced (placed : Placed width items code)
    (placed' : Placed width' items' code') (whole : Guarded items)
    {before after before' after' : List Item} {word word' : Word} {stack : List Word}
    (parts : items = before ++ .op .jump :: after) (parts' : items' = before' ++ .op .jump :: after')
    (target : SameTarget width width' items items' word word') (room : stack.length < stackLimit)
    (calldata memory : Bytes) :
    SameResult (Synced width width' items items')
      (step (.of code calldata) ⟨extent width before, word :: stack, memory⟩)
      (step (.of code' calldata) ⟨extent width' before', word' :: stack, memory⟩) := by
  have fetched : (Env.of code calldata).code[extent width before]? =
      some (Opcode.toByte .jump) := placed.fetched parts
  have fetched' : (Env.of code' calldata).code[extent width' before']? =
      some (Opcode.toByte .jump) := placed'.fetched parts'
  have bounded (top : Word) : [top].length + stack.length ≤ stackLimit := by
    rw [List.length_singleton]
    omega
  have left := step_modelled memory fetched rfl rfl (bounded word)
  have right := step_modelled memory fetched' rfl rfl (bounded word')
  rw [List.singleton_append] at left right
  rw [left, right]
  exact land_synced placed placed' whole target (Nat.le_of_lt room) calldata memory

private theorem step_jumpi_synced (placed : Placed width items code)
    (placed' : Placed width' items' code') (whole : Guarded items)
    {before after before' after' : List Item} {word word' : Word} {stack : List Word}
    (parts : items = before ++ .op .jumpi :: after)
    (parts' : items' = before' ++ .op .jumpi :: after')
    (same : after.map Item.instruction = after'.map Item.instruction) (guarded : Guarded after)
    (target : SameTarget width width' items items' word word') (room : stack.length < stackLimit)
    (calldata memory : Bytes) :
    SameResult (Synced width width' items items')
      (step (.of code calldata) ⟨extent width before, word :: stack, memory⟩)
      (step (.of code' calldata) ⟨extent width' before', word' :: stack, memory⟩) := by
  have fetched : (Env.of code calldata).code[extent width before]? =
      some (Opcode.toByte .jumpi) := placed.fetched parts
  have fetched' : (Env.of code' calldata).code[extent width' before']? =
      some (Opcode.toByte .jumpi) := placed'.fetched parts'
  cases stack with
  | nil =>
      have short (top : Word) : [top].length < Opcode.pops .jumpi := Nat.lt_succ_self 1
      obtain ⟨_, _, left⟩ := step_underflow memory fetched rfl (short word)
      obtain ⟨_, _, right⟩ := step_underflow memory fetched' rfl (short word')
      rw [left, right]
      exact .error (.failed rfl rfl)
  | cons condition below =>
      rw [List.length_cons] at room
      have bounded (top : Word) : [top, condition].length + below.length ≤ stackLimit := by
        simp only [List.length_cons, List.length_nil]
        omega
      have left := step_modelled memory fetched rfl rfl (bounded word)
      have right := step_modelled memory fetched' rfl rfl (bounded word')
      simp only [effect, List.getD_cons_zero, List.getD_cons_succ, List.cons_append,
        List.nil_append] at left right
      rw [left, right]
      by_cases zero : condition = 0
      · rw [if_pos zero, if_pos zero]
        exact advance_synced placed placed' parts parts' same guarded (resume_relocated .proceed)
      · rw [if_neg zero, if_neg zero]
        exact land_synced placed placed' whole target (by omega) calldata memory

private theorem step_synced (placed : Placed width items code)
    (placed' : Placed width' items' code')
    (alike : items.map Item.instruction = items'.map Item.instruction) (whole : Guarded items)
    {s t : State} (synced : Synced width width' items items' s t) (calldata : Bytes) :
    SameResult (Synced width width' items items') (step (.of code calldata) s)
      (step (.of code' calldata) t) := by
  cases synced with
  | plain parts parts' same guarded bounded =>
      exact step_plain_synced placed placed' alike parts parts' same guarded bounded calldata _
  | pending parts parts' same kind guarded target room =>
      rcases kind with rfl | rfl
      · exact step_jump_synced placed placed' whole parts parts' target room calldata _
      · exact step_jumpi_synced placed placed' whole parts parts' same guarded target room calldata _

private theorem run_synced (placed : Placed width items code)
    (placed' : Placed width' items' code')
    (alike : items.map Item.instruction = items'.map Item.instruction) (whole : Guarded items)
    (calldata : Bytes) (steps : Nat) {s t : State}
    (synced : Synced width width' items items' s t) :
    (run (.of code calldata) steps s = none ∧ run (.of code' calldata) steps t = none) ∨
      ∃ exit exit' last last', SameExit exit exit' ∧
        run (.of code calldata) steps s = some (exit.verdict, last) ∧
        run (.of code' calldata) steps t = some (exit'.verdict, last') := by
  induction steps generalizing s t with
  | zero => exact .inl ⟨rfl, rfl⟩
  | succ steps ih =>
      have stepped := step_synced placed placed' alike whole synced calldata
      rw [run, run]
      revert stepped
      generalize step (.of code calldata) s = result
      generalize step (.of code' calldata) t = result'
      intro stepped
      cases stepped with
      | ok related => exact ih related
      | error exits => exact .inr ⟨_, _, _, _, exits, rfl, rfl⟩

end

/-- Two codes do the same: both run forever, both give the same output, or both fail for the same
reason, but for the position, and not because control went astray. -/
inductive SameBehaviour (code code' calldata : Bytes) : Prop
  | diverge : (∀ steps, execute steps code calldata = none) →
      (∀ steps, execute steps code' calldata = none) → SameBehaviour code code' calldata
  | output {output : Bytes} (enough : Nat) :
      (∀ steps, enough ≤ steps → execute steps code calldata = some (.ok output)) →
      (∀ steps, enough ≤ steps → execute steps code' calldata = some (.ok output)) →
      SameBehaviour code code' calldata
  | fault {fault fault' : Fault} (enough : Nat) :
      (∀ steps, enough ≤ steps → execute steps code calldata = some (.error fault)) →
      (∀ steps, enough ≤ steps → execute steps code' calldata = some (.error fault')) →
      fault.erasePc = fault'.erasePc → fault.isMisdirected = false →
      fault'.isMisdirected = false → SameBehaviour code code' calldata

private theorem isMisdirected_erasePc (fault : Fault) :
    fault.erasePc.isMisdirected = fault.isMisdirected := by
  cases fault <;> rfl

private theorem sameBehaviour_of_exit {code code' calldata : Bytes} {exit exit' : Exit}
    {steps : Nat} (same : SameExit exit exit')
    (ended : execute steps code calldata = some exit.verdict)
    (ended' : execute steps code' calldata = some exit'.verdict) :
    SameBehaviour code code' calldata := by
  cases same with
  | halted =>
      exact .output steps (fun _ enough => execute_mono ended enough)
        (fun _ enough => execute_mono ended' enough)
  | @failed fault fault' equal directed =>
      have directed' : fault'.isMisdirected = false := by
        rw [← isMisdirected_erasePc, ← equal, isMisdirected_erasePc, directed]
      exact .fault steps (fun _ enough => execute_mono ended enough)
        (fun _ enough => execute_mono ended' enough) equal directed directed'

/-- However wide label pushes are made and constants are written, code that depends on no layout
does the same. -/
theorem compile_layout_independent {options options' : Options} {program program' : Program}
    {code code' : Bytes} (relocatable : ∀ directive ∈ program, directive.Relocatable)
    (same : canonicalAll program = canonicalAll program')
    (compiled : compile options program = .ok code)
    (compiled' : compile options' program' = .ok code') (calldata : Bytes) :
    SameBehaviour code code' calldata := by
  obtain ⟨events, _, width, emits, _, placed⟩ := compile_eq_ok compiled
  obtain ⟨events', _, width', emits', _, placed'⟩ := compile_eq_ok compiled'
  have alike := emits.instructions_eq emits' same
  have whole := emits.guarded relocatable
  have start : Synced width width' (emitted events) (emitted events') {} {} :=
    @Synced.plain _ _ _ _ [] _ [] _ _ _ rfl rfl alike whole (Nat.zero_le _)
  by_cases ends : ∃ steps verdict, execute steps code calldata = some verdict
  · obtain ⟨steps, verdict, ended⟩ := ends
    rcases run_synced placed placed' alike whole calldata steps start with
      ⟨running, _⟩ | ⟨exit, exit', _, _, exits, finished, finished'⟩
    · rw [execute, running] at ended
      cases ended
    · exact sameBehaviour_of_exit exits (Option.map_eq_some_iff.mpr ⟨_, finished, rfl⟩)
        (Option.map_eq_some_iff.mpr ⟨_, finished', rfl⟩)
  · have running : ∀ steps, execute steps code calldata = none := by
      intro steps
      cases ended : execute steps code calldata with
      | none => rfl
      | some verdict => exact absurd ⟨steps, verdict, ended⟩ ends
    refine .diverge running fun steps => ?_
    rcases run_synced placed placed' alike whole calldata steps start with
      ⟨_, running'⟩ | ⟨_, _, _, _, _, finished, _⟩
    · rw [execute, running', Option.map_none]
    · have unfinished := running steps
      rw [execute, finished] at unfinished
      cases unfinished

/-- Loops as long as the first word of the calldata is not zero. -/
def spin (zero : Constant) : Program :=
  [.label "top", .call .jumpi [.call .calldataload [.push zero], .pushLabel "top"], .op .stop]

theorem compile_layout_independent_spin :
    (∀ directive ∈ spin (.int 0), directive.Relocatable) ∧
      canonicalAll (spin (.int 0)) = canonicalAll (spin (.bytes [0, 0])) ∧
      compile {} (spin (.int 0)) = .ok #[91, 96, 0, 53, 96, 0, 87, 0] ∧
      compile { labelWidth := some 2 } (spin (.bytes [0, 0])) =
        .ok #[91, 97, 0, 0, 53, 97, 0, 0, 87, 0] ∧
      SameBehaviour #[91, 96, 0, 53, 96, 0, 87, 0] #[91, 97, 0, 0, 53, 97, 0, 0, 87, 0] #[1] := by
  have relocatable : ∀ directive ∈ spin (.int 0), directive.Relocatable := by
    intro directive member
    simp only [spin, List.mem_cons, List.not_mem_nil, or_false] at member
    rcases member with rfl | rfl | rfl
    · exact .label
    · refine .jumpi (.call rfl ?_)
      intro arg inside
      obtain rfl := List.mem_singleton.mp inside
      exact .push
    · exact .op rfl
  have same : canonicalAll (spin (.int 0)) = canonicalAll (spin (.bytes [0, 0])) := by decide
  have compiled : compile {} (spin (.int 0)) = .ok #[91, 96, 0, 53, 96, 0, 87, 0] := by
    decide +kernel
  have compiled' : compile { labelWidth := some 2 } (spin (.bytes [0, 0])) =
      .ok #[91, 97, 0, 0, 53, 97, 0, 0, 87, 0] := by
    decide +kernel
  exact ⟨relocatable, same, compiled, compiled',
    compile_layout_independent relocatable same compiled compiled' #[1]⟩

end StackAssembler

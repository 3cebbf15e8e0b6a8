import StackAssembler.Proofs.ItemExecution
import StackAssembler.Proofs.Machine.Reachability
import StackAssembler.Sample

set_option autoImplicit false
set_option relaxedAutoImplicit false

namespace StackAssembler

open Assembly Machine

/-- A fault that says that the assembler counted wrongly. -/
def Machine.Fault.isMiscount : Fault → Bool
  | .stackUnderflow .. | .stackOverflow .. | .invalidOpcode .. => true
  | _ => false

namespace Assembly

def Directive.isStraight : Directive → Bool
  | .setDepth _ => false
  | .op opcode | .call opcode _ => opcode != .jump && opcode != .jumpi
  | _ => true

end Assembly

/-- One step of the machine from the place behind other items, with the tracked number of words,
whatever they are, whatever the memory holds and whatever the calldata is. -/
def StepsAsTracked (code : Bytes) (width : Nat) (before : List Item) (depth : Nat) (item : Item) :
    Prop :=
  ∀ (calldata memory : Bytes) (stack : List Word), stack.length = depth →
    match step (.of code calldata) ⟨extent width before, stack, memory⟩ with
    | .ok _ next =>
        next.stack.length = depth - (item.opcode width).pops + (item.opcode width).pushes ∧
          (¬ (item.opcode width).TakesJump stack → next.pc = extent width (before ++ [item]))
    | .error (.failed fault) _ => fault.isMiscount = false
    | .error (.halted _) _ => True

section

variable {width : Nat} {items : List Item} {code : Bytes}

private theorem isMiscount_of_isDynamic {fault : Fault} (dynamic : fault.isDynamic = true) :
    fault.isMiscount = false := by
  cases fault
  all_goals first
    | rfl
    | cases dynamic

private theorem stepsAsTracked {before after : List Item} {item : Item} {depth : Nat}
    (placed : Placed width items code) (parts : items = before ++ item :: after)
    (enough : item.pops ≤ depth) (bounded : depth ≤ stackLimit)
    (room : depth - item.pops + item.pushes ≤ stackLimit) :
    StepsAsTracked code width before depth item := by
  intro calldata memory stack length
  subst length
  have outcome := placed.step_outcome parts enough bounded room calldata memory
  revert outcome
  generalize step (.of code calldata) ⟨extent width before, stack, memory⟩ = result
  intro outcome
  cases outcome with
  | proceed length =>
      refine ⟨?_, fun _ => placed.extent_next parts⟩
      rw [List.length_append, List.length_drop, length]
      omega
  | jump taken nothing =>
      refine ⟨?_, fun straight => absurd taken straight⟩
      rw [List.length_drop, nothing]
      rfl
  | invalidJump _ => rfl
  | halted => trivial
  | failed dynamic => exact isMiscount_of_isDynamic dynamic

private def Straight (events : List Event) : Prop :=
  ∀ event ∈ events, ∃ depth item, event = .emit depth item ∧
    item ≠ .op .jump ∧ item ≠ .op .jumpi

private theorem not_takesJump {item : Item} {stack : List Word} (jump : item ≠ .op .jump)
    (jumpi : item ≠ .op .jumpi) : ¬ (item.opcode width).TakesJump stack := by
  intro taken
  cases item with
  | op opcode =>
      rcases taken with same | ⟨same, _⟩
      · exact jump (congrArg Item.op same)
      · exact jumpi (congrArg Item.op same)
  | push immediate => rcases taken with same | ⟨same, _⟩ <;> cases same
  | pushLabel name => rcases taken with same | ⟨same, _⟩ <;> cases same
  | label name => rcases taken with same | ⟨same, _⟩ <;> cases same

private theorem run_straight {before : List Item} {events : List Event} {depth final limit : Nat}
    {stack : List Word} (placed : Placed width items code) (limited : limit ≤ stackLimit)
    (tracks : Tracks limit depth events final) (straight : Straight events)
    (parts : items = before ++ emitted events) (length : stack.length = depth)
    (low : depth ≤ limit) (calldata memory : Bytes) :
    ∃ verdict last,
      run (.of code calldata) ((emitted events).length + 1) ⟨extent width before, stack, memory⟩ =
        some (verdict, last) ∧
      ∀ fault, verdict = .error fault → fault.isDynamic = true := by
  induction tracks generalizing before stack memory with
  | nil =>
      rw [emitted_nil, List.append_nil] at parts
      subst parts
      refine ⟨.ok #[], ⟨extent width items, stack, memory⟩, ?_, by intro fault same; cases same⟩
      rw [run, placed.step_end]
      rfl
  | declare _ _ _ =>
      obtain ⟨_, _, same, _⟩ := straight _ List.mem_cons_self
      cases same
  | @emit depth final item rest enough fits _ ih =>
      obtain ⟨_, _, same, jump, jumpi⟩ := straight _ List.mem_cons_self
      cases same
      subst length
      have outcome := placed.step_outcome parts enough (Nat.le_trans low limited)
        (Nat.le_trans fits limited) calldata memory
      have direct : ¬ (item.opcode width).TakesJump stack := not_takesJump jump jumpi
      simp only [emitted_emit, List.length_cons]
      rw [run]
      revert outcome
      generalize step (.of code calldata) ⟨extent width before, stack, memory⟩ = result
      intro outcome
      cases outcome with
      | @proceed results memory' count =>
          have words : (results ++ stack.drop (item.opcode width).pops).length =
              stack.length - item.pops + item.pushes := by
            rw [List.length_append, List.length_drop, count, item.pops_opcode, item.pushes_opcode]
            omega
          have behind : items = (before ++ [item]) ++ emitted rest := by
            rw [parts, emitted_emit, List.append_cons]
          rw [placed.extent_next parts]
          exact ih (fun event member => straight event (List.mem_cons_of_mem _ member)) behind words
            fits memory'
      | jump taken _ => exact absurd taken direct
      | invalidJump taken => exact absurd taken direct
      | @halted output final =>
          exact ⟨.ok output, final, rfl, by intro fault same; cases same⟩
      | @failed fault final dynamic =>
          refine ⟨.error fault, final, rfl, ?_⟩
          rintro other same
          cases same
          exact dynamic

end

private theorem straight_of_nodes {program : Program} {t u : StackDepth} {events : List Event}
    (emits : program.Emits t events u)
    (straight : ∀ node ∈ nodesOf program, node.isStraight = true) : Straight events := by
  intro event member
  obtain ⟨node, inside, causes⟩ := emits.caused event member
  have direct := straight node inside
  cases causes with
  | setDepth => cases direct
  | push _ => exact ⟨_, _, rfl, nofun, nofun⟩
  | pushLabel => exact ⟨_, _, rfl, nofun, nofun⟩
  | label => exact ⟨_, _, rfl, nofun, nofun⟩
  | op _ => exact ⟨_, _, rfl, by simpa [Directive.isStraight] using direct⟩
  | call _ => exact ⟨_, _, rfl, by simpa [Directive.isStraight] using direct⟩
  | inverted resolved _ =>
      rcases Slot.resolve?_eq_some resolved with ⟨_, rfl⟩ | ⟨_, rfl⟩
      · exact ⟨_, _, rfl, nofun, nofun⟩
      · exact ⟨_, _, rfl, nofun, nofun⟩

private theorem execute_straight {program : Program} {limit width : Nat} {events : List Event}
    {final : StackDepth} {code : Bytes} (limited : limit ≤ stackLimit)
    (emits : program.Emits { limit := limit } events final)
    (placed : Placed width (emitted events) code)
    (straight : ∀ node ∈ nodesOf program, node.isStraight = true) (calldata : Bytes) :
    ∃ verdict, (∀ steps, (emitted events).length < steps →
        execute steps code calldata = some verdict) ∧
      ∀ fault, verdict = .error fault → fault.isDynamic = true := by
  have start : emitted events = [] ++ emitted events := rfl
  obtain ⟨verdict, last, finished, dynamic⟩ := run_straight placed limited emits.tracks.1
    (straight_of_nodes emits straight) start List.length_nil (Nat.zero_le _) calldata #[]
  refine ⟨verdict, fun steps enough => ?_, dynamic⟩
  exact execute_mono (Option.map_eq_some_iff.mpr ⟨_, finished, rfl⟩) enough

theorem concludes_of_straight {options : Options} {program : Program} {code : Bytes}
    (limited : options.stackLimit ≤ stackLimit) (compiled : compile options program = .ok code)
    (straight : ∀ node ∈ nodesOf program, node.isStraight = true) (calldata : Bytes) :
    ∃ verdict, Concludes code calldata verdict := by
  obtain ⟨events, final, width, emits, _, placed⟩ := compile_eq_ok compiled
  obtain ⟨verdict, executed, _⟩ := execute_straight limited emits placed straight calldata
  exact ⟨verdict, _, executed⟩

structure DepthSound (options : Options) (program : Program) (code : Bytes) (events : List Event)
    (width : Nat) : Prop where
  /-- The events are those of flattening the program. -/
  flattened : ∃ final, program.Emits { limit := options.stackLimit } events final ∧
    program.flatten options.stackLimit = .ok ⟨final, (emitted events).toArray⟩
  chosen : labelWidth options.labelWidth (emitted events) = .ok width
  covered : code.size = extent width (emitted events)
  /-- At every item, from whatever state has the tracked number of words. -/
  steps : ∀ before depth item after, events = before ++ .emit depth item :: after →
    code[extent width (emitted before)]? = some (item.opcode width).toByte ∧
      StepsAsTracked code width (emitted before) depth item
  /-- The next item is reached with the depth that was tracked for it. -/
  continues : ∀ before depth item depth' item' after,
    events = before ++ .emit depth item :: .emit depth' item' :: after →
      depth' = depth - (item.opcode width).pops + (item.opcode width).pushes
  /-- Where nothing jumps and nothing is declared, the run ends, and not for a miscount. -/
  ends : (∀ node ∈ nodesOf program, node.isStraight = true) → ∀ calldata, ∃ verdict,
    (∀ steps, (emitted events).length < steps → execute steps code calldata = some verdict) ∧
      ∀ fault, verdict = .error fault → fault.isDynamic = true

/-- Assembled code keeps to the depth that was tracked, if no more words were allowed than the
machine holds. -/
theorem compile_depth_sound {options : Options} {program : Program} {code : Bytes}
    (limited : options.stackLimit ≤ stackLimit) (compiled : compile options program = .ok code) :
    ∃ events width, DepthSound options program code events width := by
  obtain ⟨events, final, width, emits, chosen, placed⟩ := compile_eq_ok compiled
  have tracks : Tracks options.stackLimit 0 events final.depth := emits.tracks.1
  have low : 0 ≤ options.stackLimit := Nat.zero_le _
  refine ⟨events, width, ⟨final, emits, ?_⟩, chosen, placed.size_eq, ?_, ?_, ?_⟩
  · exact Program.flatten_eq_ok.mpr ⟨events, emits, rfl⟩
  · intro before depth item after split
    rw [split] at tracks
    obtain ⟨enough, reached, fits⟩ := tracks.item_fits low
    have parts : emitted events = emitted before ++ item :: emitted after := by
      rw [split, emitted_append, emitted_emit]
    exact ⟨placed.fetched parts, stepsAsTracked placed parts enough (Nat.le_trans reached limited)
      (Nat.le_trans fits limited)⟩
  · intro before depth item depth' item' after split
    rw [split] at tracks
    rw [item.pops_opcode, item.pushes_opcode]
    exact tracks.depth_succ
  · exact execute_straight limited emits placed

theorem compile_depth_sound_hashOrEcho :
    ∃ code, compile { stackLimit := 8 } Sample.hashOrEcho = .ok code ∧
      ∃ events width, DepthSound { stackLimit := 8 } Sample.hashOrEcho code events width :=
  have compiled : compile { stackLimit := 8 } Sample.hashOrEcho =
      .ok #[96, 1, 54, 3, 128, 96, 1, 95, 55, 95, 53, 96, 248, 28, 96, 20, 87, 91, 95, 243, 91, 95,
        32, 95, 82, 96, 32, 96, 17, 86] := by decide +kernel
  ⟨_, compiled, compile_depth_sound (by decide) compiled⟩

end StackAssembler

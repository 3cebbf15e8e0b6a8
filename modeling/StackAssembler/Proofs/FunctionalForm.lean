import StackAssembler.Execution
import StackAssembler.Proofs.ItemExecution
import StackAssembler.Proofs.Machine.Arithmetic
import StackAssembler.Proofs.Machine.Reachability

set_option autoImplicit false
set_option relaxedAutoImplicit false

namespace StackAssembler

open Assembly Machine

namespace Assembly

def Directive.isOperation : Directive → Bool
  | .push _ => true
  | .op opcode => opcode == .push0 || opcode == .calldatasize
  | .call opcode _ => opcode.isOperator
  | _ => false

/-- A tree of operators over constants and calldata. -/
def Directive.IsExpression (directive : Directive) : Prop :=
  ∀ node ∈ directive.nodes, node.isOperation = true

instance (directive : Directive) : Decidable directive.IsExpression :=
  inferInstanceAs (Decidable (∀ node ∈ directive.nodes, node.isOperation = true))

mutual

/-- The value of an expression. The last argument of a call is its first operand. -/
def Directive.value (calldata : Bytes) : Directive → Word
  | .push constant => BitVec.ofInt 256 constant.value
  | .op opcode => BitVec.ofNat 256 (opcode.result calldata [])
  | .call opcode args =>
      BitVec.ofNat 256 (opcode.result calldata ((values calldata args).reverse.map BitVec.toNat))
  | _ => 0

def values (calldata : Bytes) : List Directive → List Word
  | [] => []
  | directive :: rest => directive.value calldata :: values calldata rest

end

@[simp] theorem length_values (calldata : Bytes) (args : List Directive) :
    (values calldata args).length = args.length := by
  induction args with
  | nil => rfl
  | cons arg rest ih => simp [values, ih]

def returning (expression : Directive) : Program :=
  [.call .mstore [expression, .op .push0], .call .ret [.push (.int 32), .op .push0]]

end Assembly

section

variable {width : Nat} {items : List Item} {code : Bytes}

private theorem step_operator {before after : List Item} {op : Opcode}
    {operands below : List Word} (placed : Placed width items code)
    (parts : items = before ++ .op op :: after) (operator : op.isOperator = true)
    (count : operands.length = op.pops) (bounded : operands.length + below.length ≤ stackLimit)
    (room : below.length < stackLimit) (calldata memory : Bytes) :
    step (.of code calldata) ⟨extent width before, operands ++ below, memory⟩ =
      .ok () ⟨extent width (before ++ [.op op]),
        BitVec.ofNat 256 (op.result calldata (operands.map BitVec.toNat)) :: below, memory⟩ := by
  obtain ⟨word, effects, value⟩ :=
    effect_operator (.of code calldata) (extent width before) memory operator count
  have computed : BitVec.ofNat 256 (op.result calldata (operands.map BitVec.toNat)) = word := by
    rw [Env.calldata_of] at value
    rw [← value, BitVec.ofNat_toNat, BitVec.setWidth_eq]
  rw [computed]
  have fits : [word].length + below.length ≤ stackLimit := by
    rw [List.length_singleton]
    omega
  exact placed.step_proceed parts (Opcode.isModelled_of_isOperator operator) count bounded effects fits

private def Computes (directive : Directive) : Prop :=
  ∀ {width : Nat} {items before after : List Item} {code : Bytes} {t u : StackDepth}
    {events : List Event} {stack : List Word}, Placed width items code →
    directive.Emits t events u → items = before ++ (emitted events ++ after) → Describes t stack →
    ∀ calldata memory, Reaches (.of code calldata) ⟨extent width before, stack, memory⟩
      ⟨extent width (before ++ emitted events), directive.value calldata :: stack, memory⟩

private theorem computes_arguments {args : List Directive} {before after : List Item}
    {t u : StackDepth} {events : List Event} {stack : List Word} (placed : Placed width items code)
    (computes : ∀ arg ∈ args, Computes arg) (emits : EmitsArguments args t events u)
    (parts : items = before ++ (emitted events ++ after)) (describes : Describes t stack)
    (calldata memory : Bytes) :
    Describes u ((values calldata args).reverse ++ stack) ∧
      Reaches (.of code calldata) ⟨extent width before, stack, memory⟩
        ⟨extent width (before ++ emitted events), (values calldata args).reverse ++ stack, memory⟩ := by
  induction args generalizing before t events stack with
  | nil =>
      cases emits
      rw [emitted_nil, List.append_nil]
      exact ⟨describes, .refl⟩
  | cons arg rest ih =>
      rw [List.forall_mem_cons] at computes
      cases emits with
      | @cons _ _ first others _ middle _ emits grown others_emit =>
          have inside : items = before ++ (emitted first ++ (emitted others ++ after)) := by
            rw [parts, emitted_append, List.append_assoc]
          have behind : items = (before ++ emitted first) ++ (emitted others ++ after) := by
            rw [inside, List.append_assoc]
          have length : (arg.value calldata :: stack).length = middle.depth := by
            rw [List.length_cons, describes.length, grown]
          have reached := computes.1 placed emits inside describes calldata memory
          obtain ⟨described, remaining⟩ :=
            ih computes.2 others_emit behind (describes.next emits length)
          have pushed : (values calldata (arg :: rest)).reverse ++ stack =
              (values calldata rest).reverse ++ (arg.value calldata :: stack) := by
            rw [values, List.reverse_cons, List.append_assoc, List.singleton_append]
          rw [pushed, emitted_append, ← List.append_assoc]
          exact ⟨described, reached.trans remaining⟩

private theorem reaches_call {op : Opcode} {args : List Directive} {before after : List Item}
    {t u : StackDepth} {events : List Event} {stack : List Word} (placed : Placed width items code)
    (computes : ∀ arg ∈ args, Computes arg) (emits : (Directive.call op args).Emits t events u)
    (parts : items = before ++ (emitted events ++ after)) (describes : Describes t stack)
    (calldata memory : Bytes) :
    ∃ front, emitted events = front ++ [.op op] ∧ items = (before ++ front) ++ .op op :: after ∧
      (values calldata args).reverse.length = op.pops ∧
      (values calldata args).reverse.length + stack.length ≤ stackLimit ∧
      stack.length + op.pushes ≤ stackLimit ∧
      Reaches (.of code calldata) ⟨extent width before, stack, memory⟩
        ⟨extent width (before ++ front), (values calldata args).reverse ++ stack, memory⟩ := by
  cases emits with
  | @call _ _ events _ middle _ arity arguments plain applied =>
      rw [emitted_append, List.append_assoc] at parts
      obtain ⟨described, reached⟩ :=
        computes_arguments placed computes arguments parts describes calldata memory
      have count : (values calldata args).reverse.length = op.pops := by
        rw [List.length_reverse, length_values, arity]
      have low := Nat.le_trans described.low described.limited
      rw [← described.length, List.length_append] at low
      have room := room_of_apply described applied
      rw [List.length_append, count, Nat.add_sub_cancel_left] at room
      have behind : items = (before ++ emitted events) ++ .op op :: after := by
        rw [parts, List.append_assoc]
        rfl
      exact ⟨emitted events, emitted_append _ _, behind, count, low, room, reached⟩

private theorem isExpression_argument {opcode : Opcode} {args : List Directive} {arg : Directive}
    (expression : (Directive.call opcode args).IsExpression) (member : arg ∈ args) :
    arg.IsExpression := by
  intro node inside
  exact expression node (List.mem_append_left _ (mem_nodesOf.mpr ⟨arg, member, inside⟩))

private theorem pushes_operator {op : Opcode} (operator : op.isOperator = true) : op.pushes = 1 := by
  cases op
  all_goals first
    | rfl
    | cases operator

private theorem computes_of_expression {directive : Directive}
    (expression : directive.IsExpression) : Computes directive := by
  induction directive with
  | push constant =>
      intro width items before after code t u events stack placed emits parts describes calldata memory
      cases emits with
      | @push _ immediate _ _ encoded applied =>
          have room : stack.length + 1 ≤ stackLimit := room_of_apply describes applied
          rw [Directive.value, ← Constant.word_of_encode encoded]
          exact .single ((placed.pushes_push parts calldata memory stack).1 room)
  | op opcode =>
      intro width items before after code t u events stack placed emits parts describes calldata memory
      have kind : opcode = .push0 ∨ opcode = .calldatasize := by
        simpa [Directive.isOperation] using expression _ List.mem_cons_self
      have operator : opcode.isOperator = true ∧ opcode.pops = 0 := by
        rcases kind with rfl | rfl
        · exact ⟨rfl, rfl⟩
        · exact ⟨rfl, rfl⟩
      cases emits with
      | op plain applied =>
          have room := room_of_apply describes applied
          rw [operator.2, pushes_operator operator.1] at room
          have bounded : ([] : List Word).length + stack.length ≤ stackLimit := by
            rw [List.length_nil]
            omega
          have count : ([] : List Word).length = opcode.pops := operator.2.symm
          exact .single (step_operator placed parts operator.1 count bounded (by omega) calldata memory)
  | call opcode args ih =>
      intro width items before after code t u events stack placed emits parts describes calldata memory
      have operator : opcode.isOperator = true :=
        expression _ (List.mem_append_right _ (List.mem_singleton_self _))
      obtain ⟨front, listed, behind, count, bounded, room, reached⟩ := reaches_call placed
        (fun arg member => ih arg member (isExpression_argument expression member)) emits parts
        describes calldata memory
      rw [pushes_operator operator] at room
      have last := step_operator placed behind operator count bounded (by omega) calldata memory
      rw [listed, ← List.append_assoc]
      exact reached.tail last
  | pushLabel name => exact absurd (expression _ List.mem_cons_self) Bool.false_ne_true
  | label name => exact absurd (expression _ List.mem_cons_self) Bool.false_ne_true
  | expectDepth depth => exact absurd (expression _ List.mem_cons_self) Bool.false_ne_true
  | setDepth depth => exact absurd (expression _ List.mem_cons_self) Bool.false_ne_true
  | inverted slot => exact absurd (expression _ List.mem_cons_self) Bool.false_ne_true

private theorem region_word : Region.ofWords? 0 32 = some ⟨0, 32⟩ := by
  decide

private theorem coveringSize_word : Region.coveringSize ⟨0, 32⟩ = 32 := by
  decide

private def stored (word : Word) : Bytes :=
  (Bytes.growTo #[] 32).overwrite 0 word.toBytes

private theorem step_mstore {before after : List Item} {value : Word} {stack : List Word}
    (placed : Placed width items code) (parts : items = before ++ .op .mstore :: after)
    (bounded : [0, value].length + stack.length ≤ stackLimit) (calldata : Bytes) :
    step (.of code calldata) ⟨extent width before, [0, value] ++ stack, #[]⟩ =
      .ok () ⟨extent width (before ++ [.op .mstore]), stack, stored value⟩ := by
  have effects : effect (.of code calldata) .mstore (extent width before) #[] [0, value] =
      .proceed [] (stored value) := by
    simp only [effect, Effect.within, List.getD_cons_zero, List.getD_cons_succ, region_word,
      coveringSize_word]
    rfl
  have room : ([] : List Word).length + stack.length ≤ stackLimit := by
    simp only [List.length_cons, List.length_nil] at bounded ⊢
    omega
  exact placed.step_proceed parts rfl rfl bounded effects room

private theorem step_ret {before after : List Item} {stack : List Word}
    (placed : Placed width items code) (parts : items = before ++ .op .ret :: after)
    (bounded : [0, 32].length + stack.length ≤ stackLimit) (calldata : Bytes) (value : Word) :
    ∃ final, step (.of code calldata) ⟨extent width before, [0, 32] ++ stack, stored value⟩ =
      .error (.halted value.toBytes) final := by
  have fetched : (Env.of code calldata).code[extent width before]? =
      some (Opcode.toByte .ret) := placed.fetched parts
  have size : (stored value).size = 32 := by
    simp [stored]
  have grown : (stored value).growTo 32 = stored value := Bytes.growTo_of_le (Nat.le_of_eq size.symm)
  have inside : 0 + value.toBytes.size ≤ (Bytes.growTo #[] 32).size := by
    simp
  have read : (stored value).window 0 32 = value.toBytes := by
    have written := Bytes.window_overwrite inside
    rwa [Word.size_toBytes] at written
  have effects : effect (.of code calldata) .ret (extent width before) (stored value) [0, 32] =
      .finish (.halted (((stored value).growTo 32).window 0 32)) ((stored value).growTo 32) := by
    simp only [effect, Effect.within, List.getD_cons_zero, List.getD_cons_succ, region_word,
      coveringSize_word]
    rfl
  rw [grown, read] at effects
  rw [step_modelled _ fetched rfl rfl bounded, effects]
  exact ⟨_, rfl⟩

private theorem reaches_stored {expression : Directive} {before after : List Item}
    {t u : StackDepth} {events : List Event} {stack : List Word} (placed : Placed width items code)
    (isExpression : expression.IsExpression)
    (emits : (Directive.call .mstore [expression, .op .push0]).Emits t events u)
    (parts : items = before ++ (emitted events ++ after)) (describes : Describes t stack)
    (calldata : Bytes) :
    Reaches (.of code calldata) ⟨extent width before, stack, #[]⟩
      ⟨extent width (before ++ emitted events), stack, stored (expression.value calldata)⟩ := by
  have computes : ∀ arg ∈ [expression, .op .push0], Computes arg := by
    intro arg member
    apply computes_of_expression
    rcases List.mem_pair.mp member with rfl | rfl
    · exact isExpression
    · decide
  obtain ⟨front, listed, behind, _, bounded, _, reached⟩ :=
    reaches_call placed computes emits parts describes calldata #[]
  rw [listed, ← List.append_assoc]
  exact reached.tail (step_mstore placed behind bounded calldata)

private theorem run_returned {value : Word} {before after : List Item} {t u : StackDepth}
    {events : List Event} {stack : List Word} (placed : Placed width items code)
    (emits : (Directive.call .ret [.push (.int 32), .op .push0]).Emits t events u)
    (parts : items = before ++ (emitted events ++ after)) (describes : Describes t stack)
    (calldata : Bytes) :
    ∃ steps final, run (.of code calldata) steps ⟨extent width before, stack, stored value⟩ =
      some (.ok value.toBytes, final) := by
  have computes : ∀ arg ∈ [.push (.int 32), .op .push0], Computes arg := by
    intro arg member
    apply computes_of_expression
    rcases List.mem_pair.mp member with rfl | rfl
    · decide
    · decide
  obtain ⟨front, _, behind, _, bounded, _, reached⟩ :=
    reaches_call placed computes emits parts describes calldata (stored value)
  obtain ⟨final, halted⟩ := step_ret placed behind bounded calldata value
  have ended : run (.of code calldata) 1
      ⟨extent width (before ++ front), [0, 32] ++ stack, stored value⟩ =
        some (.ok value.toBytes, final) := by
    simp only [run, halted, Exit.verdict]
  obtain ⟨steps, finished⟩ := reached.run_eq ended
  exact ⟨steps, final, finished⟩

end

/-- Running the program that returns an expression gives the 32 bytes that spell its value. -/
theorem runProgram_returning {expression : Directive} {code : Bytes}
    (isExpression : expression.IsExpression)
    (compiled : compile {} (returning expression) = .ok code) (calldata : Bytes) :
    ∃ enough, ∀ steps, enough ≤ steps →
      runProgram steps (returning expression) calldata =
        some (.ok (expression.value calldata).spelling) := by
  rw [← Word.toBytes_eq_spelling]
  obtain ⟨events, final, width, emits, _, placed⟩ := compile_eq_ok compiled
  cases emits with
  | @cons _ _ first _ _ middle _ storing emits =>
  cases emits with
  | @cons _ _ second _ _ _ _ returns emits =>
  cases emits
  rw [List.append_nil, emitted_append] at placed
  have start : Describes { limit := stackLimit } [] := ⟨Nat.le_refl _, Nat.zero_le _, rfl⟩
  have whole : emitted first ++ emitted second = [] ++ (emitted first ++ emitted second) := rfl
  have reached := reaches_stored placed isExpression storing whole start calldata
  have behind : Describes middle [] := start.next storing storing.depth_call.symm
  have rest : emitted first ++ emitted second = emitted first ++ (emitted second ++ []) := by
    rw [List.append_nil]
  obtain ⟨steps, last, finished⟩ := run_returned placed returns rest behind calldata
  obtain ⟨total, finished⟩ := reached.run_eq finished
  refine ⟨total, fun steps enough => ?_⟩
  have executed : execute total code calldata = some (.ok (expression.value calldata).toBytes) :=
    Option.map_eq_some_iff.mpr ⟨_, finished, rfl⟩
  rw [runProgram, compiled]
  simp only [execute_mono executed enough]
  rfl

/-- Three taken from a shifted word: the last argument of each call is its first operand. -/
def shiftedDifference : Directive :=
  .call .sub [.push (.int 3), .call .shr [.push (.bytes [1, 0]), .push (.int 8)]]

theorem runProgram_returning_shiftedDifference :
    shiftedDifference.IsExpression ∧
      compile {} (returning shiftedDifference) =
        .ok #[96, 3, 97, 1, 0, 96, 8, 28, 3, 95, 82, 96, 32, 95, 243] ∧
      ∃ enough, ∀ steps, enough ≤ steps →
        runProgram steps (returning shiftedDifference) #[] =
          some (.ok #[255, 255, 255, 255, 255, 255, 255, 255, 255, 255, 255, 255, 255, 255, 255, 255,
            255, 255, 255, 255, 255, 255, 255, 255, 255, 255, 255, 255, 255, 255, 255, 254]) := by
  have isExpression : shiftedDifference.IsExpression := by decide
  have compiled : compile {} (returning shiftedDifference) =
      .ok #[96, 3, 97, 1, 0, 96, 8, 28, 3, 95, 82, 96, 32, 95, 243] := by decide +kernel
  have spelled : (shiftedDifference.value #[]).spelling =
      #[255, 255, 255, 255, 255, 255, 255, 255, 255, 255, 255, 255, 255, 255, 255, 255,
        255, 255, 255, 255, 255, 255, 255, 255, 255, 255, 255, 255, 255, 255, 255, 254] := by
    decide +kernel
  have returned := runProgram_returning isExpression compiled #[]
  rw [spelled] at returned
  exact ⟨isExpression, compiled, returned⟩

end StackAssembler

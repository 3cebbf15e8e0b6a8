import Mathlib.Data.List.Basic
import StackAssembler.Machine.Run

/-!
Instructions without the stack. The effect of an instruction is a function of its operands, and one
step of the machine takes the operands, looks up the effect and resumes with it. What can be said of
steps is said of effects: how many words they leave, when they jump, and how they end a run.
-/

set_option autoImplicit false
set_option relaxedAutoImplicit false

namespace StackAssembler

def Opcode.isModelled : Opcode → Bool
  | .stop | .add | .sub | .lt | .gt | .eq | .iszero | .and | .or | .xor | .not | .byte | .shl | .shr
  | .keccak256 | .calldataload | .calldatasize | .calldatacopy | .codesize | .codecopy | .pop
  | .mload | .mstore | .mstore8 | .jump | .jumpi | .pc | .msize | .jumpdest | .push0 | .push _
  | .dup _ | .swap _ | .ret | .revert | .invalid => true
  | _ => false

/-- The instruction leaves the straight line: a jump does, a conditional one if the word below its
target is not zero. -/
def Opcode.TakesJump (op : Opcode) (stack : List Word) : Prop :=
  op = .jump ∨ op = .jumpi ∧ stack.getD 1 0 ≠ 0

theorem Opcode.TakesJump.pushes_eq_zero {op : Opcode} {stack : List Word}
    (jumps : op.TakesJump stack) : op.pushes = 0 := by
  rcases jumps with rfl | ⟨rfl, _⟩
  · rfl
  · rfl

namespace Machine

inductive Effect
  /-- Puts results in the place of the operands and goes on behind the instruction. -/
  | proceed (results : List Word) (memory : Bytes)
  /-- Goes on elsewhere in the code. -/
  | land (dest : Word) (memory : Bytes)
  | finish (exit : Exit) (memory : Bytes)

def Effect.within (pc : Nat) (memory : Bytes) (offset size : Word)
    (next : Region → Bytes → Effect) : Effect :=
  match Region.ofWords? offset size with
  | some region => next region (memory.growTo region.coveringSize)
  | none => .finish (.failed (.memoryLimit offset size pc)) memory

theorem Effect.within_of_some {pc : Nat} {memory : Bytes} {offset size : Word} {region : Region}
    {next : Region → Bytes → Effect} (named : Region.ofWords? offset size = some region) :
    Effect.within pc memory offset size next = next region (memory.growTo region.coveringSize) := by
  rw [Effect.within, named]

theorem Effect.within_of_none {pc : Nat} {memory : Bytes} {offset size : Word}
    {next : Region → Bytes → Effect} (beyond : Region.ofWords? offset size = none) :
    Effect.within pc memory offset size next =
      .finish (.failed (.memoryLimit offset size pc)) memory := by
  rw [Effect.within, beyond]

def exchanged (n : Nat) : List Word → List Word
  | [] => []
  | top :: rest => rest.getD n 0 :: rest.set n top

/-- The effect of an instruction on operands, the first one having been on top. -/
def effect (env : Env) (op : Opcode) (pc : Nat) (memory : Bytes) (operands : List Word) : Effect :=
  let a := operands.getD 0 0
  let b := operands.getD 1 0
  let c := operands.getD 2 0
  match op with
  | .stop => .finish (.halted #[]) memory
  | .add => .proceed [a + b] memory
  | .sub => .proceed [a - b] memory
  | .lt => .proceed [Word.ofBool (a < b)] memory
  | .gt => .proceed [Word.ofBool (b < a)] memory
  | .eq => .proceed [Word.ofBool (a == b)] memory
  | .and => .proceed [a &&& b] memory
  | .or => .proceed [a ||| b] memory
  | .xor => .proceed [a ^^^ b] memory
  | .byte => .proceed [(b.byteAt a.toNat).toBitVec.setWidth 256] memory
  | .shl => .proceed [b.shl a.toNat] memory
  | .shr => .proceed [b.shr a.toNat] memory
  | .iszero => .proceed [Word.ofBool (a == 0)] memory
  | .not => .proceed [~~~ a] memory
  | .keccak256 => .within pc memory a b fun region memory =>
      .proceed [Keccak.digest (region.read memory)] memory
  | .calldataload => .proceed [Word.ofBytes (env.calldata.window a.toNat 32)] memory
  | .calldatasize => .proceed [BitVec.ofNat 256 env.calldata.size] memory
  | .calldatacopy => .within pc memory a c fun region memory =>
      .proceed [] (region.write memory (env.calldata.window b.toNat region.length))
  | .codesize => .proceed [BitVec.ofNat 256 env.code.size] memory
  | .codecopy => .within pc memory a c fun region memory =>
      .proceed [] (region.write memory (env.code.window b.toNat region.length))
  | .pop | .jumpdest => .proceed [] memory
  | .mload => .within pc memory a 32 fun region memory =>
      .proceed [Word.ofBytes (region.read memory)] memory
  | .mstore => .within pc memory a 32 fun region memory =>
      .proceed [] (region.write memory b.toBytes)
  | .mstore8 => .within pc memory a 1 fun region memory =>
      .proceed [] (region.write memory #[b.byteAt 31])
  | .jump => .land a memory
  | .jumpi => if b = 0 then .proceed [] memory else .land a memory
  | .pc => .proceed [BitVec.ofNat 256 pc] memory
  | .msize => .proceed [BitVec.ofNat 256 memory.size] memory
  | .push0 => .proceed [0] memory
  | .push i => .proceed [Word.ofBytes (env.code.window (pc + 1) (i + 1))] memory
  | .dup i => .proceed (operands.getD i 0 :: operands) memory
  | .swap i => .proceed (exchanged i operands) memory
  | .ret => .within pc memory a b fun region memory =>
      .finish (.halted (region.read memory)) memory
  | .revert => .within pc memory a b fun region memory =>
      .finish (.failed (.reverted (region.read memory))) memory
  | .invalid => .finish (.failed (.invalidInstruction pc)) memory
  | _ => .finish (.failed (.unsupportedOpcode op pc)) memory

/-- The outcome of an instruction with the given effect, its operands lying above `below`. -/
def Effect.resume (env : Env) (op : Opcode) (pc : Nat) (operands below : List Word) :
    Effect → EStateM.Result Exit State Unit
  | .proceed results memory =>
      if results.length + below.length ≤ stackLimit then
        .ok () ⟨pc + op.encodedLength, results ++ below, memory⟩
      else .error (.failed (.stackOverflow pc)) ⟨pc + op.encodedLength, operands ++ below, memory⟩
  | .land dest memory =>
      if env.marks[dest.toNat]? = some true then .ok () ⟨dest.toNat, below, memory⟩
      else .error (.failed (.invalidJump dest pc)) ⟨pc + 1, below, memory⟩
  | .finish exit memory => .error exit ⟨pc + 1, below, memory⟩

section Pieces

variable (site : Site) (pc : Nat) (memory : Bytes) (rest : List Word)

theorem bind_apply {α β : Type} (first : Exec α) (next : α → Exec β) (s : State) :
    (first >>= next) s =
      match first s with
      | .ok a t => next a t
      | .error exit t => .error exit t := by
  change EStateM.bind first next s = _
  unfold EStateM.bind
  cases first s <;> rfl

theorem get_apply (s : State) : (get : Exec State) s = .ok s s := rfl

private theorem pop_cons (top : Word) :
    site.pop ⟨pc, top :: rest, memory⟩ = .ok top ⟨pc, rest, memory⟩ := rfl

theorem load_eq (offset size : Word) :
    site.load offset size ⟨pc, rest, memory⟩ =
      match Region.ofWords? offset size with
      | some region => .ok (region.read (memory.growTo region.coveringSize))
          ⟨pc, rest, memory.growTo region.coveringSize⟩
      | none => .error (.failed (.memoryLimit offset size site.pc)) ⟨pc, rest, memory⟩ := by
  simp only [Site.load, bind_apply, Site.touch]
  cases Region.ofWords? offset size <;> rfl

theorem store_eq (offset size : Word) (data : Region → Bytes) :
    site.store offset size data ⟨pc, rest, memory⟩ =
      match Region.ofWords? offset size with
      | some region => .ok ()
          ⟨pc, rest, region.write (memory.growTo region.coveringSize) (data region)⟩
      | none => .error (.failed (.memoryLimit offset size site.pc)) ⟨pc, rest, memory⟩ := by
  simp only [Site.store, bind_apply, Site.touch]
  cases Region.ofWords? offset size <;> rfl

end Pieces

theorem step_of_fetched {env : Env} {s : State} {op : Opcode}
    (fetched : env.code[s.pc]? = some op.toByte) :
    step env s = exec env ⟨op, s.pc⟩ { s with pc := s.pc + 1 } := by
  simp only [step, fetched, Opcode.ofByte?_toByte]

section Regularity

variable {env : Env} {op : Opcode} {pc : Nat} {operands below : List Word} {memory : Bytes}

private theorem push_eq_resume (word : Word) (short : op.encodedLength = 1)
    (room : below.length < stackLimit) :
    Site.push ⟨op, pc⟩ word ⟨pc + 1, below, memory⟩ =
      (Effect.proceed [word] memory).resume env op pc operands below := by
  have fits : [word].length + below.length ≤ stackLimit := by
    simp only [List.length_singleton]
    omega
  simp only [Effect.resume, short, if_pos fits]
  exact if_pos room

private theorem ok_eq_resume (short : op.encodedLength = 1) (room : below.length ≤ stackLimit) :
    .ok () ⟨pc + 1, below, memory⟩ =
      (Effect.proceed [] memory).resume env op pc operands below := by
  have fits : ([] : List Word).length + below.length ≤ stackLimit := by
    simpa using room
  simp only [Effect.resume, short, if_pos fits, List.nil_append]

theorem resume_within (offset size : Word) (next : Region → Bytes → Effect) :
    (Effect.within pc memory offset size next).resume env op pc operands below =
      match Region.ofWords? offset size with
      | some region => (next region (memory.growTo region.coveringSize)).resume env op pc operands below
      | none => .error (.failed (.memoryLimit offset size pc)) ⟨pc + 1, below, memory⟩ := by
  unfold Effect.within
  cases Region.ofWords? offset size <;> rfl

private def Regular (env : Env) (op : Opcode) : Prop :=
  ∀ (pc : Nat) (operands below : List Word) (memory : Bytes),
    operands.length = op.pops → operands.length + below.length ≤ stackLimit →
      exec env ⟨op, pc⟩ ⟨pc + 1, operands ++ below, memory⟩ =
        (effect env op pc memory operands).resume env op pc operands below

private theorem regular_of_push (word : Nat → Bytes → Word) (pops : op.pops = 0)
    (executes : ∀ pc stack memory, exec env ⟨op, pc⟩ ⟨pc + 1, stack, memory⟩ =
      Site.push ⟨op, pc⟩ (word pc memory) ⟨pc + op.encodedLength, stack, memory⟩)
    (effects : ∀ pc memory, effect env op pc memory [] = .proceed [word pc memory] memory) :
    Regular env op := by
  intro pc operands below memory count _
  obtain rfl : operands = [] := List.eq_nil_of_length_eq_zero (count.trans pops)
  have fits : [word pc memory].length + below.length ≤ stackLimit ↔ below.length < stackLimit := by
    simp only [List.length_singleton]
    omega
  rw [List.nil_append, executes, effects]
  simp only [Effect.resume, fits]
  rfl

private theorem regular_of_unary (f : Word → Word) (pops : op.pops = 1)
    (short : op.encodedLength = 1)
    (executes : ∀ pc, exec env ⟨op, pc⟩ = Site.unary ⟨op, pc⟩ f)
    (effects : ∀ pc memory a, effect env op pc memory [a] = .proceed [f a] memory) :
    Regular env op := by
  intro pc operands below memory count bounded
  obtain ⟨a, rfl⟩ := List.length_eq_one_iff.mp (count.trans pops)
  simp only [List.length_singleton] at bounded
  rw [executes, effects]
  have room : below.length < stackLimit := by omega
  exact push_eq_resume (f a) short room

private theorem regular_of_binary (f : Word → Word → Word) (pops : op.pops = 2)
    (short : op.encodedLength = 1)
    (executes : ∀ pc, exec env ⟨op, pc⟩ = Site.binary ⟨op, pc⟩ f)
    (effects : ∀ pc memory a b, effect env op pc memory [a, b] = .proceed [f a b] memory) :
    Regular env op := by
  intro pc operands below memory count bounded
  obtain ⟨a, b, rfl⟩ := List.length_eq_two.mp (count.trans pops)
  simp only [List.length_cons, List.length_nil] at bounded
  rw [executes, effects]
  have room : below.length < stackLimit := by omega
  exact push_eq_resume (f a b) short room

private theorem regular_of_load (offset size : List Word → Word) (value : Bytes → Word)
    (pops : 1 ≤ op.pops) (short : op.encodedLength = 1)
    (executes : ∀ pc operands below memory, operands.length = op.pops →
      exec env ⟨op, pc⟩ ⟨pc + 1, operands ++ below, memory⟩ =
        (do
          let bytes ← Site.load ⟨op, pc⟩ (offset operands) (size operands)
          Site.push ⟨op, pc⟩ (value bytes) : Exec Unit) ⟨pc + 1, below, memory⟩)
    (effects : ∀ pc memory operands, effect env op pc memory operands =
      .within pc memory (offset operands) (size operands) fun region memory =>
        .proceed [value (region.read memory)] memory) :
    Regular env op := by
  intro pc operands below memory count bounded
  rw [executes pc operands below memory count, effects, resume_within, bind_apply, load_eq]
  cases Region.ofWords? (offset operands) (size operands) with
  | none => rfl
  | some region => exact push_eq_resume _ short (by omega)

private theorem regular_of_store (offset size : List Word → Word)
    (data : List Word → Region → Bytes) (short : op.encodedLength = 1)
    (executes : ∀ pc operands below memory, operands.length = op.pops →
      exec env ⟨op, pc⟩ ⟨pc + 1, operands ++ below, memory⟩ =
        Site.store ⟨op, pc⟩ (offset operands) (size operands) (data operands)
          ⟨pc + 1, below, memory⟩)
    (effects : ∀ pc memory operands, effect env op pc memory operands =
      .within pc memory (offset operands) (size operands) fun region memory =>
        .proceed [] (region.write memory (data operands region))) :
    Regular env op := by
  intro pc operands below memory count bounded
  rw [executes pc operands below memory count, effects, resume_within, store_eq]
  cases Region.ofWords? (offset operands) (size operands) with
  | none => rfl
  | some region => exact ok_eq_resume short (by omega)

private theorem regular_of_output (exit : Bytes → Exit) (pops : op.pops = 2)
    (executes : ∀ pc, exec env ⟨op, pc⟩ =
      (do
        let data ← Site.output ⟨op, pc⟩
        throw (exit data) : Exec Unit))
    (effects : ∀ pc memory a b, effect env op pc memory [a, b] =
      .within pc memory a b fun region memory => .finish (exit (region.read memory)) memory) :
    Regular env op := by
  intro pc operands below memory count _
  obtain ⟨a, b, rfl⟩ := List.length_eq_two.mp (count.trans pops)
  rw [executes, effects, resume_within]
  simp only [Site.output, List.cons_append, List.nil_append, bind_apply, pop_cons, load_eq]
  cases Region.ofWords? a b <;> rfl

private theorem regular_jumpi : Regular env .jumpi := by
  intro pc operands below memory count bounded
  obtain ⟨a, b, rfl⟩ := List.length_eq_two.mp count
  simp only [List.length_cons, List.length_nil] at bounded
  have effects : effect env .jumpi pc memory [a, b] =
      if b = 0 then .proceed [] memory else .land a memory := rfl
  simp only [exec, List.cons_append, List.nil_append, bind_apply, pop_cons, effects]
  by_cases zero : b = 0
  · simp only [if_pos zero]
    have room : below.length ≤ stackLimit := by omega
    exact ok_eq_resume rfl room
  · simp only [if_neg zero]
    rfl

private theorem regular_dup (i : Fin 16) : Regular env (.dup i) := by
  intro pc operands below memory count bounded
  have inside : i.val < operands.length := by rw [count]; exact Nat.lt_succ_self _
  have found : (operands ++ below)[i.val]? = some operands[i.val] := by
    rw [List.getElem?_append_left inside, List.getElem?_eq_getElem inside]
  have effects : effect env (.dup i) pc memory operands =
      .proceed (operands[i.val] :: operands) memory := by
    simp only [effect, List.getD, List.getElem?_eq_getElem inside, Option.getD_some]
  have fits : (operands[i.val] :: operands).length + below.length ≤ stackLimit ↔
      (operands ++ below).length < stackLimit := by
    simp only [List.length_cons, List.length_append]
    omega
  have executes : exec env ⟨.dup i, pc⟩ ⟨pc + 1, operands ++ below, memory⟩ =
      Site.push ⟨.dup i, pc⟩ operands[i.val] ⟨pc + 1, operands ++ below, memory⟩ := by
    simp only [exec, Site.duplicate, bind_apply, get_apply, found]
  rw [executes, effects]
  simp only [Effect.resume, fits]
  rfl

private theorem regular_swap (i : Fin 16) : Regular env (.swap i) := by
  intro pc operands below memory count bounded
  match operands with
  | [] => cases count
  | top :: rest =>
    have inside : i.val < rest.length := by
      have : rest.length + 1 = i + 2 := count
      omega
    have found : (rest ++ below)[i.val]? = some rest[i.val] := by
      rw [List.getElem?_append_left inside, List.getElem?_eq_getElem inside]
    have effects : effect env (.swap i) pc memory (top :: rest) =
        .proceed (rest[i.val] :: rest.set i top) memory := by
      simp only [effect, exchanged, List.getD, List.getElem?_eq_getElem inside, Option.getD_some]
    have fits : (rest[i.val] :: rest.set i top).length + below.length ≤ stackLimit := by
      simpa using bounded
    rw [effects]
    simp only [exec, Site.exchange, List.cons_append, found, Effect.resume, if_pos fits,
      List.set_append_left _ _ inside]
    rfl

private theorem regular_of_isModelled (modelled : op.isModelled = true) : Regular env op := by
  cases op
  case stop | invalid =>
    intro pc operands below memory count _
    obtain rfl := List.eq_nil_of_length_eq_zero count
    rfl
  case jumpdest =>
    intro pc operands below memory count bounded
    obtain rfl := List.eq_nil_of_length_eq_zero count
    exact ok_eq_resume rfl (by simpa using bounded)
  case pop =>
    intro pc operands below memory count bounded
    obtain ⟨a, rfl⟩ := List.length_eq_one_iff.mp count
    have room : below.length ≤ stackLimit := by omega
    exact ok_eq_resume rfl room
  case jump =>
    intro pc operands below memory count bounded
    obtain ⟨a, rfl⟩ := List.length_eq_one_iff.mp count
    rfl
  case jumpi => exact regular_jumpi
  case dup i => exact regular_dup i
  case swap i => exact regular_swap i
  case calldatasize | codesize | pc | msize | push0 =>
    exact regular_of_push _ rfl (fun _ _ _ => rfl) (fun _ _ => rfl)
  case push i =>
    refine regular_of_push _ rfl ?_ (fun _ _ => rfl)
    intro pc stack memory
    have position : pc + (Opcode.push i).encodedLength = pc + 1 + (i + 1) :=
      (Nat.add_assoc pc 1 (i + 1)).symm
    rw [position]
    rfl
  case iszero | not | calldataload =>
    exact regular_of_unary _ rfl rfl (fun _ => rfl) (fun _ _ _ => rfl)
  case add | sub | lt | gt | eq | and | or | xor | byte | shl | shr =>
    exact regular_of_binary _ rfl rfl (fun _ => rfl) (fun _ _ _ _ => rfl)
  case ret | revert =>
    exact regular_of_output _ rfl (fun _ => rfl) (fun _ _ _ _ => rfl)
  case keccak256 =>
    refine regular_of_load (·.getD 0 0) (·.getD 1 0) Keccak.digest (by decide) rfl ?_
      (fun _ _ _ => rfl)
    intro pc operands below memory count
    obtain ⟨a, b, rfl⟩ := List.length_eq_two.mp count
    rfl
  case mload =>
    refine regular_of_load (·.getD 0 0) (fun _ => 32) Word.ofBytes (by decide) rfl ?_
      (fun _ _ _ => rfl)
    intro pc operands below memory count
    obtain ⟨a, rfl⟩ := List.length_eq_one_iff.mp count
    rfl
  case mstore =>
    refine regular_of_store (·.getD 0 0) (fun _ => 32) (fun operands _ => (operands.getD 1 0).toBytes)
      rfl ?_ (fun _ _ _ => rfl)
    intro pc operands below memory count
    obtain ⟨a, b, rfl⟩ := List.length_eq_two.mp count
    rfl
  case mstore8 =>
    refine regular_of_store (·.getD 0 0) (fun _ => 1)
      (fun operands _ => #[(operands.getD 1 0).byteAt 31]) rfl ?_ (fun _ _ _ => rfl)
    intro pc operands below memory count
    obtain ⟨a, b, rfl⟩ := List.length_eq_two.mp count
    rfl
  case calldatacopy | codecopy =>
    refine regular_of_store (·.getD 0 0) (·.getD 2 0)
      (fun operands region => Bytes.window _ (operands.getD 1 0).toNat region.length)
      rfl ?_ (fun _ _ _ => rfl)
    intro pc operands below memory count
    obtain ⟨a, b, c, rfl⟩ := List.length_eq_three.mp count
    rfl
  all_goals cases modelled

end Regularity

theorem step_modelled {env : Env} {op : Opcode} {pc : Nat} {operands below : List Word}
    (memory : Bytes) (fetched : env.code[pc]? = some op.toByte) (modelled : op.isModelled = true)
    (count : operands.length = op.pops) (bounded : operands.length + below.length ≤ stackLimit) :
    step env ⟨pc, operands ++ below, memory⟩ =
      (effect env op pc memory operands).resume env op pc operands below := by
  rw [step_of_fetched fetched]
  exact regular_of_isModelled modelled pc operands below memory count bounded

theorem step_taken {env : Env} {op : Opcode} {pc : Nat} {stack : List Word} (memory : Bytes)
    (fetched : env.code[pc]? = some op.toByte) (modelled : op.isModelled = true)
    (enough : op.pops ≤ stack.length) (bounded : stack.length ≤ stackLimit) :
    step env ⟨pc, stack, memory⟩ =
      (effect env op pc memory (stack.take op.pops)).resume env op pc (stack.take op.pops)
        (stack.drop op.pops) := by
  have count : (stack.take op.pops).length = op.pops := List.length_take_of_le enough
  have parts : stack.take op.pops ++ stack.drop op.pops = stack := List.take_append_drop _ _
  have total : (stack.take op.pops).length + (stack.drop op.pops).length ≤ stackLimit := by
    rw [← List.length_append, parts]
    exact bounded
  have stepped := step_modelled memory fetched modelled count total
  rwa [parts] at stepped

theorem step_unmodelled {env : Env} {op : Opcode} {s : State}
    (fetched : env.code[s.pc]? = some op.toByte) (unmodelled : op.isModelled = false) :
    step env s = .error (.failed (.unsupportedOpcode op s.pc)) { s with pc := s.pc + 1 } := by
  rw [step_of_fetched fetched]
  cases op
  all_goals first | rfl | cases unmodelled

/-- Without enough operands an instruction underflows, having taken all of them or none. -/
theorem step_underflow {env : Env} {op : Opcode} {pc : Nat} {stack : List Word}
    (memory : Bytes) (fetched : env.code[pc]? = some op.toByte) (modelled : op.isModelled = true)
    (short : stack.length < op.pops) :
    ∃ left, (left = [] ∨ left = stack) ∧
      step env ⟨pc, stack, memory⟩ =
        .error (.failed (.stackUnderflow op pc)) ⟨pc + 1, left, memory⟩ := by
  rw [step_of_fetched fetched]
  cases op
  case dup i =>
    have absent : stack[i.val]? = none :=
      List.getElem?_eq_none (Nat.le_of_lt_succ short)
    refine ⟨stack, .inr rfl, ?_⟩
    simp only [exec, Site.duplicate, bind_apply, get_apply, absent]
    rfl
  case swap i =>
    refine ⟨stack, .inr rfl, ?_⟩
    match stack, short with
    | [], _ => rfl
    | top :: rest, short =>
      have absent : rest[i.val]? = none :=
        List.getElem?_eq_none (Nat.le_of_lt_succ (Nat.lt_of_succ_lt_succ short))
      simp only [exec, Site.exchange, absent]
  case stop | calldatasize | codesize | pc | msize | jumpdest | push0 | push | invalid => cases short
  case iszero | not | calldataload | pop | mload | jump =>
    match stack, short with
    | [], _ => exact ⟨[], .inl rfl, rfl⟩
  case add | sub | lt | gt | eq | and | or | xor | byte | shl | shr | keccak256 | mstore | mstore8 |
      jumpi | ret | revert =>
    match stack, short with
    | [], _ => exact ⟨[], .inl rfl, rfl⟩
    | [a], _ => exact ⟨[], .inl rfl, rfl⟩
  case calldatacopy | codecopy =>
    match stack, short with
    | [], _ => exact ⟨[], .inl rfl, rfl⟩
    | [a], _ => exact ⟨[], .inl rfl, rfl⟩
    | [a, b], _ => exact ⟨[], .inl rfl, rfl⟩
  all_goals cases modelled

/-- A fault that depends on the words an execution meets, not on how many there are. -/
def Fault.isDynamic : Fault → Bool
  | .unsupportedOpcode .. | .memoryLimit .. | .reverted .. | .invalidInstruction .. => true
  | _ => false

/-- How an instruction may turn out: it leaves the words that its table line promises, it jumps, or
it ends the run without blaming the stack. -/
inductive Effect.Sound (op : Opcode) (operands : List Word) : Effect → Prop
  | proceed {results : List Word} {memory : Bytes} :
      results.length = op.pushes → Sound op operands (.proceed results memory)
  | land {dest : Word} {memory : Bytes} :
      op.TakesJump operands → Sound op operands (.land dest memory)
  | halted {output memory : Bytes} :
      op.pushes = 0 → Sound op operands (.finish (.halted output) memory)
  | failed {fault : Fault} {memory : Bytes} :
      fault.isDynamic = true → Sound op operands (.finish (.failed fault) memory)

private theorem sound_within {op : Opcode} {operands : List Word} (pc : Nat) (memory : Bytes)
    (offset size : Word) {next : Region → Bytes → Effect}
    (sound : ∀ region memory, (next region memory).Sound op operands) :
    (Effect.within pc memory offset size next).Sound op operands := by
  unfold Effect.within
  cases Region.ofWords? offset size with
  | none => exact .failed rfl
  | some region => exact sound _ _

theorem effect_sound (env : Env) {op : Opcode} (pc : Nat) (memory : Bytes) {operands : List Word}
    (count : operands.length = op.pops) : (effect env op pc memory operands).Sound op operands := by
  cases op
  case jump => exact .land (.inl rfl)
  case jumpi =>
    simp only [effect]
    split
    · exact .proceed rfl
    · exact .land (.inr ⟨rfl, ‹_›⟩)
  case dup i => exact .proceed (congrArg Nat.succ count)
  case swap i =>
    match operands with
    | [] => cases count
    | top :: rest => exact .proceed ((congrArg Nat.succ (List.length_set ..)).trans count)
  case keccak256 | mload | calldatacopy | codecopy | mstore | mstore8 =>
    simp only [effect]
    exact sound_within _ _ _ _ fun _ _ => .proceed rfl
  case ret =>
    simp only [effect]
    exact sound_within _ _ _ _ fun _ _ => .halted rfl
  case revert =>
    simp only [effect]
    exact sound_within _ _ _ _ fun _ _ => .failed rfl
  case stop => exact .halted rfl
  case invalid => exact .failed rfl
  all_goals first
    | exact .proceed rfl
    | exact .failed rfl

theorem getD_take {stack : List Word} {i n : Nat} (inside : i < n) :
    (stack.take n).getD i 0 = stack.getD i 0 := by
  rw [List.getD, List.getElem?_take_of_lt inside, List.getD]

theorem takesJump_of_take {op : Opcode} {stack : List Word}
    (jumps : op.TakesJump (stack.take op.pops)) : op.TakesJump stack := by
  rcases jumps with rfl | ⟨rfl, condition⟩
  · exact .inl rfl
  · rw [getD_take (by decide)] at condition
    exact .inr ⟨rfl, condition⟩

end Machine

end StackAssembler

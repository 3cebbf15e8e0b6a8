import StackAssembler.Proofs.ByteStrings
import StackAssembler.Proofs.Machine.MemoryAccess
import StackAssembler.Proofs.Numeral

set_option autoImplicit false
set_option relaxedAutoImplicit false

namespace StackAssembler.Machine

abbrev Contents := Nat → UInt8

def State.contents (s : State) : Contents :=
  s.memory.byteAt

namespace Contents

def put (contents : Contents) (start count : Nat) (bytes : Contents) : Contents := fun i =>
  if start ≤ i ∧ i < start + count then bytes (i - start) else contents i

def slice (contents : Contents) (start count : Nat) : Bytes :=
  Array.ofFn fun i : Fin count => contents (start + i)

/-- What is there when an instruction has gone through, the stack being the one before it. -/
def written (env : Env) (contents : Contents) (op : Opcode) (stack : List Word) : Contents :=
  let a := stack.getD 0 0
  let b := stack.getD 1 0
  let c := stack.getD 2 0
  match op with
  | .mstore => contents.put a.toNat 32 fun i => UInt8.ofNat (b.toNat / 256 ^ (31 - i) % 256)
  | .mstore8 => contents.put a.toNat 1 fun _ => UInt8.ofNat (b.toNat % 256)
  | .calldatacopy => contents.put a.toNat c.toNat fun i => env.calldata.byteAt (b.toNat + i)
  | .codecopy => contents.put a.toNat c.toNat fun i => env.code.byteAt (b.toNat + i)
  | _ => contents

theorem put_congr {contents first second : Contents} {start count : Nat}
    (same : ∀ i, i < count → first i = second i) :
    contents.put start count first = contents.put start count second := by
  funext i
  unfold put
  split
  · exact same _ (by omega)
  · rfl

theorem written_take (env : Env) (contents : Contents) (op : Opcode) (stack : List Word) :
    contents.written env op (stack.take op.pops) = contents.written env op stack := by
  cases op
  case mstore | mstore8 =>
    simp only [written]
    rw [getD_take (by decide), getD_take (by decide)]
  case calldatacopy | codecopy =>
    simp only [written]
    rw [getD_take (by decide), getD_take (by decide), getD_take (by decide)]
  all_goals rfl

theorem written_of_growing {env : Env} {op : Opcode} (grows : op.pops < op.pushes)
    (contents : Contents) (stack : List Word) : contents.written env op stack = contents := by
  cases op
  case mstore | mstore8 | calldatacopy | codecopy => exact absurd grows (by decide)
  all_goals rfl

end Contents

section Regions

variable {offset size : Word} {region : Region}

theorem Region.read_growTo (named : Region.ofWords? offset size = some region) (memory : Bytes) :
    region.read (memory.growTo region.coveringSize) =
      Contents.slice memory.byteAt offset.toNat size.toNat := by
  obtain ⟨_, length, start⟩ := Region.ofWords?_eq_some named
  have same : region.read (memory.growTo region.coveringSize) =
      memory.window region.start size.toNat := by
    rw [Region.read, Bytes.window_congr (Bytes.byteAt_growTo memory _), length]
  rw [same]
  by_cases zero : size = 0
  · subst zero
    exact (Bytes.window_zero memory _).trans (Bytes.window_zero memory _).symm
  · rw [start zero]
    rfl

theorem Region.byteAt_write (named : Region.ofWords? offset size = some region) (memory : Bytes)
    {data : Bytes} (length : data.size = size.toNat) :
    (region.write (memory.growTo region.coveringSize) data).byteAt =
      Contents.put memory.byteAt offset.toNat size.toNat data.byteAt := by
  obtain ⟨_, count, start⟩ := Region.ofWords?_eq_some named
  have inside : region.start + data.size ≤ (memory.growTo region.coveringSize).size := by
    have covered := region.finish_le_coveringSize
    rw [Region.finish] at covered
    rw [Bytes.size_growTo]
    omega
  funext i
  rw [Region.write, Bytes.byteAt_overwrite inside, Bytes.byteAt_growTo, length, Contents.put]
  by_cases zero : size = 0
  · have none : size.toNat = 0 := by rw [zero]; rfl
    rw [if_neg (by omega), if_neg (by omega)]
  · rw [start zero]

end Regions

section Effects

/-- What an effect leaves, by whether the instruction goes through. -/
def Effect.Leaves (kept wrote : Contents) : Effect → Prop
  | .proceed _ memory | .land _ memory => memory.byteAt = wrote
  | .finish _ memory => memory.byteAt = kept

variable (env : Env) (pc : Nat) (memory : Bytes)

private theorem leaves_within {offset size : Word} {next : Region → Bytes → Effect}
    {wrote : Contents}
    (leaves : ∀ region, Region.ofWords? offset size = some region →
      (next region (memory.growTo region.coveringSize)).Leaves memory.byteAt wrote) :
    (Effect.within pc memory offset size next).Leaves memory.byteAt wrote := by
  unfold Effect.within
  cases named : Region.ofWords? offset size with
  | none => exact rfl
  | some region => exact leaves region named

theorem byteAt_toBytes (word : Word) {i : Nat} (inside : i < 32) :
    word.toBytes.byteAt i = UInt8.ofNat (word.toNat / 256 ^ (31 - i) % 256) := by
  unfold Bytes.byteAt Word.toBytes Word.byteLength
  rw [List.getElem?_toArray, BigEndian.getElem?_encode inside, Option.getD_some]

private theorem byteAt_last (word : Word) {i : Nat} (inside : i < 1) :
    Bytes.byteAt #[word.byteAt 31] i = UInt8.ofNat (word.toNat % 256) := by
  obtain rfl : i = 0 := by omega
  exact UInt8.ofNat_mod_size.symm

private theorem leaves_copy {offset size : Word} (source : Bytes) (start : Nat) :
    (Effect.within pc memory offset size fun region memory =>
      .proceed [] (region.write memory (source.window start region.length))).Leaves memory.byteAt
        (Contents.put memory.byteAt offset.toNat size.toNat fun i => source.byteAt (start + i)) := by
  apply leaves_within
  intro region named
  have length : region.length = size.toNat := (Region.ofWords?_eq_some named).2.1
  have written := Region.byteAt_write named memory ((Bytes.size_window source start _).trans length)
  refine written.trans (Contents.put_congr ?_)
  intro i inside
  exact Bytes.byteAt_window (by omega)

theorem effect_leaves (op : Opcode) (operands : List Word) :
    (effect env op pc memory operands).Leaves memory.byteAt
      (Contents.written env memory.byteAt op operands) := by
  cases op
  case mstore =>
    simp only [effect, Contents.written]
    apply leaves_within
    intro region named
    have written := Region.byteAt_write named memory (Word.size_toBytes (operands.getD 1 0))
    exact written.trans (Contents.put_congr fun i inside => byteAt_toBytes _ inside)
  case mstore8 =>
    simp only [effect, Contents.written]
    apply leaves_within
    intro region named
    have single : #[(operands.getD 1 0).byteAt 31].size = (1 : Word).toNat := rfl
    have written := Region.byteAt_write named memory single
    exact written.trans (Contents.put_congr fun i inside => byteAt_last _ inside)
  case calldatacopy | codecopy =>
    simp only [effect, Contents.written]
    exact leaves_copy pc memory _ _
  case keccak256 | mload | ret | revert =>
    simp only [effect, Contents.written]
    apply leaves_within
    intro region _
    exact funext (Bytes.byteAt_growTo memory _)
  case jumpi =>
    simp only [effect]
    split <;> exact rfl
  all_goals exact rfl

end Effects

/-- A step that goes through writes what its instruction writes; one that ends the run leaves the
contents as they are, also where it fails for want of room or has grown the memory. -/
theorem contents_step (env : Env) {s : State} (bounded : s.stack.length ≤ stackLimit) :
    match step env s with
    | .ok _ next => ∃ op, Ready env op s ∧ next.contents = s.contents.written env op s.stack
    | .error _ final => final.contents = s.contents := by
  have left : ∀ {op effect}, effectAt env op s = effect →
      effect.Leaves s.contents (s.contents.written env op s.stack) := by
    rintro op _ rfl
    rw [← Contents.written_take]
    exact effect_leaves env s.pc s.memory op _
  have transition := step_transition env bounded
  generalize step env s = result at transition
  cases transition with
  | ended _ => exact rfl
  | unassigned _ _ => exact rfl
  | unsupported _ _ => exact rfl
  | underflow _ _ _ _ => exact rfl
  | overflow ready outcome excess =>
      -- The effect has been carried out when the results find no room, but it has written nothing.
      have enough := ready.enough
      exact Eq.trans (left outcome) (Contents.written_of_growing (by omega) _ _)
  | proceed ready outcome _ _ => exact ⟨_, ready, left outcome⟩
  | landed ready outcome _ _ => exact ⟨_, ready, left outcome⟩
  | refused _ outcome jumps _ =>
      rcases jumps with rfl | ⟨rfl, _⟩
      · exact left outcome
      · exact left outcome
  | halted _ outcome _ => exact left outcome
  | failed _ outcome _ => exact left outcome

/-- The contents that follow from what a machine has done, told from the start: writes as its
instructions go through, and nothing when a run ends. -/
inductive Replays (env : Env) : State → Contents → Prop
  | fresh : Replays env {} fun _ => 0
  | wrote {s next : State} {op : Opcode} {contents : Contents} :
      Replays env s contents → env.code[s.pc]? = some op.toByte → step env s = .ok () next →
      Replays env next (contents.written env op s.stack)
  | stopped {s final : State} {exit : Exit} {contents : Contents} :
      Replays env s contents → step env s = .error exit final → Replays env final contents

/-- What an instruction that uses memory comes to, by the bytes it is given and the stack below its
operands. It is given the region that it names as it stands in memory without an end, or fails if
that lies beyond the limit. -/
def Accesses (env : Env) (op : Opcode)
    (given : Bytes → List Word → EStateM.Result Exit State Unit → Prop) : Prop :=
  ∀ s offset size, Visited env s → Ready env op s → op.access? s.stack = some (offset, size) →
    if size = 0 ∨ offset.toNat + size.toNat ≤ 2 ^ 20 then
      given (s.contents.slice offset.toNat size.toNat) (s.stack.drop op.pops) (step env s)
    else ∃ final, step env s = .error (.failed (.memoryLimit offset size s.pc)) final

section Histories

variable {env : Env}

theorem Visited.stop {s final : State} {exit : Exit} (visited : Visited env s)
    (stepped : Machine.step env s = .error exit final) : Visited env final := by
  have ended : Machine.run env 1 s = some (exit.verdict, final) := by
    simp only [Machine.run, stepped]
  exact visited.run ended

theorem contents_of_ok {s next : State} {op : Opcode} (bounded : s.stack.length ≤ stackLimit)
    (fetched : env.code[s.pc]? = some op.toByte) (stepped : step env s = .ok () next) :
    next.contents = s.contents.written env op s.stack := by
  have outcome := contents_step env bounded
  rw [stepped] at outcome
  obtain ⟨other, ready, left⟩ := outcome
  obtain rfl := eq_of_fetched fetched ready.fetched
  exact left

theorem contents_of_error {s final : State} {exit : Exit} (bounded : s.stack.length ≤ stackLimit)
    (stepped : step env s = .error exit final) : final.contents = s.contents := by
  have outcome := contents_step env bounded
  rw [stepped] at outcome
  exact outcome

theorem contents_fresh : ({} : State).contents = fun _ => 0 :=
  funext fun _ => Bytes.byteAt_of_size_le (Nat.zero_le _)

theorem Visited.replays {s : State} (visited : Visited env s) : Replays env s s.contents := by
  apply visited.invariant (P := fun s => Replays env s s.contents)
  · rw [contents_fresh]
    exact .fresh
  · intro s visited replays
    have outcome := contents_step env visited.length_stack_le
    unfold after
    cases stepped : Machine.step env s with
    | ok _ next =>
        rw [stepped] at outcome
        obtain ⟨op, ready, left⟩ := outcome
        have wrote := replays.wrote ready.fetched stepped
        rwa [← left] at wrote
    | error exit final =>
        rw [stepped] at outcome
        have stopped := replays.stopped stepped
        rwa [← outcome] at stopped

theorem Replays.visited {s : State} {contents : Contents} (replays : Replays env s contents) :
    Visited env s ∧ contents = s.contents := by
  induction replays with
  | fresh => exact ⟨.fresh, contents_fresh.symm⟩
  | wrote _ fetched stepped ih =>
      obtain ⟨visited, rfl⟩ := ih
      exact ⟨visited.step stepped, (contents_of_ok visited.length_stack_le fetched stepped).symm⟩
  | stopped _ stepped ih =>
      obtain ⟨visited, rfl⟩ := ih
      exact ⟨visited.stop stepped, (contents_of_error visited.length_stack_le stepped).symm⟩

end Histories

section Given

variable {env : Env} {op : Opcode}

private def WorksWithin (env : Env) (op : Opcode) (next : List Word → Region → Bytes → Effect) :
    Prop :=
  ∀ pc memory operands offset size, op.access? operands = some (offset, size) →
    effect env op pc memory operands = .within pc memory offset size (next operands)

private theorem accesses_of_within
    {given : Bytes → List Word → EStateM.Result Exit State Unit → Prop}
    {next : List Word → Region → Bytes → Effect} (works : WorksWithin env op next)
    (comes : ∀ pc memory operands below region, operands.length = op.pops →
      operands.length + below.length ≤ stackLimit →
      given (region.read memory) below
        ((next operands region memory).resume env op pc operands below)) :
    Accesses env op given := by
  rintro ⟨pc, stack, memory⟩ offset size visited ready named
  have bounded : stack.length ≤ stackLimit := visited.length_stack_le
  have enough : op.pops ≤ stack.length := ready.enough
  have count : (stack.take op.pops).length = op.pops := List.length_take_of_le enough
  have total : (stack.take op.pops).length + (stack.drop op.pops).length ≤ stackLimit := by
    rw [← List.length_append, List.take_append_drop]
    exact bounded
  have operands : op.access? (stack.take op.pops) = some (offset, size) :=
    (access?_take op stack).trans named
  have stepped := step_taken memory ready.fetched ready.modelled enough bounded
  rw [works _ _ _ _ _ operands, resume_within] at stepped
  cases held : Region.ofWords? offset size with
  | none =>
      have beyond : ¬ (size = 0 ∨ offset.toNat + size.toNat ≤ 2 ^ 20) :=
        Region.ofWords?_eq_none_iff.mp held
      rw [if_neg beyond]
      rw [held] at stepped
      exact ⟨_, stepped⟩
  | some region =>
      have within : size = 0 ∨ offset.toNat + size.toNat ≤ 2 ^ 20 := by
        by_contra beyond
        rw [Region.ofWords?_eq_none_iff.mpr beyond] at held
        cases held
      have bytes : Contents.slice memory.byteAt offset.toNat size.toNat =
          region.read (memory.growTo region.coveringSize) := (Region.read_growTo held memory).symm
      rw [held] at stepped
      rw [if_pos within]
      show given (Contents.slice memory.byteAt _ _) (stack.drop op.pops) (step env ⟨pc, stack, memory⟩)
      rw [bytes, stepped]
      exact comes pc _ _ _ region count total

private theorem Accesses.imp {given other : Bytes → List Word → EStateM.Result Exit State Unit → Prop}
    (accesses : Accesses env op given)
    (implies : ∀ stack offset size bytes below outcome, op.access? stack = some (offset, size) →
      bytes.size = size.toNat → given bytes below outcome → other bytes below outcome) :
    Accesses env op other := by
  intro s offset size visited ready named
  have comes := accesses s offset size visited ready named
  split
  · rename_i within
    rw [if_pos within] at comes
    exact implies _ _ _ _ _ _ named Array.size_ofFn comes
  · rename_i beyond
    rwa [if_neg beyond] at comes

private theorem accesses_of_load (value : Bytes → Word) (pops : 1 ≤ op.pops)
    (works : WorksWithin env op fun _ region memory =>
      .proceed [value (region.read memory)] memory) :
    Accesses env op fun bytes below outcome =>
      ∃ next, outcome = .ok () next ∧ next.stack = value bytes :: below := by
  apply accesses_of_within works
  intro pc memory operands below region count total
  have fits : [value (region.read memory)].length + below.length ≤ stackLimit := by
    rw [List.length_singleton]
    omega
  exact ⟨_, if_pos fits, rfl⟩

private theorem accesses_mload (env : Env) :
    Accesses env .mload fun bytes below outcome =>
      ∃ next word, outcome = .ok () next ∧ next.stack = word :: below ∧ word.spelling = bytes := by
  have loads : Accesses env .mload fun bytes below outcome =>
      ∃ next, outcome = .ok () next ∧ next.stack = Word.ofBytes bytes :: below := by
    apply accesses_of_load Word.ofBytes (by decide)
    rintro _ _ _ _ _ ⟨⟩
    exact rfl
  apply loads.imp
  rintro _ _ _ bytes below outcome ⟨⟩ size ⟨next, stepped, stack⟩
  exact ⟨next, _, stepped, stack, Word.spelling_ofBytes size⟩

private theorem accesses_of_store (data : List Word → Region → Bytes)
    (works : WorksWithin env op fun operands region memory =>
      .proceed [] (region.write memory (data operands region))) :
    Accesses env op fun _ below outcome => ∃ next, outcome = .ok () next ∧ next.stack = below := by
  apply accesses_of_within works
  intro pc memory operands below region _ total
  have fits : ([] : List Word).length + below.length ≤ stackLimit := by
    rw [List.length_nil]
    omega
  exact ⟨_, if_pos fits, rfl⟩

private theorem accesses_of_output (exit : Bytes → Exit)
    (works : WorksWithin env op fun _ region memory => .finish (exit (region.read memory)) memory) :
    Accesses env op fun bytes _ outcome => ∃ final, outcome = .error (exit bytes) final := by
  apply accesses_of_within works
  intro pc memory operands below region _ _
  exact ⟨_, rfl⟩

private theorem accesses_store (env : Env) {op : Opcode}
    (stores : op ∈ [Opcode.mstore, .mstore8, .calldatacopy, .codecopy]) :
    Accesses env op fun _ below outcome => ∃ next, outcome = .ok () next ∧ next.stack = below := by
  simp only [List.mem_cons, List.not_mem_nil, or_false] at stores
  rcases stores with rfl | rfl | rfl | rfl
  · apply accesses_of_store fun operands _ => (operands.getD 1 0).toBytes
    rintro _ _ _ _ _ ⟨⟩
    exact rfl
  · apply accesses_of_store fun operands _ => #[(operands.getD 1 0).byteAt 31]
    rintro _ _ _ _ _ ⟨⟩
    exact rfl
  · apply accesses_of_store fun operands region =>
      env.calldata.window (operands.getD 1 0).toNat region.length
    rintro _ _ _ _ _ ⟨⟩
    exact rfl
  · apply accesses_of_store fun operands region =>
      env.code.window (operands.getD 1 0).toNat region.length
    rintro _ _ _ _ _ ⟨⟩
    exact rfl

end Given

structure MemoryRefines (env : Env) : Prop where
  fresh : ({} : State).contents = fun _ => 0
  /-- An instruction that goes through writes what is its to write and no more; one that ends the run,
  as it should or by a fault, writes nothing. -/
  wrote : ∀ s op next, Visited env s → env.code[s.pc]? = some op.toByte → step env s = .ok () next →
    next.contents = s.contents.written env op s.stack
  stopped : ∀ s exit final, Visited env s → step env s = .error exit final →
    final.contents = s.contents
  history : ∀ s contents, Replays env s contents ↔ Visited env s ∧ contents = s.contents
  /-- Stores go through wherever the limit allows it, so that there is something to be written. -/
  stores : ∀ op ∈ [Opcode.mstore, .mstore8, .calldatacopy, .codecopy],
    Accesses env op fun _ below outcome => ∃ next, outcome = .ok () next ∧ next.stack = below
  /-- What is read depends on the bytes of the region alone. A word is read back as it is stored. -/
  mload : Accesses env .mload fun bytes below outcome =>
    ∃ next word, outcome = .ok () next ∧ next.stack = word :: below ∧ word.spelling = bytes
  keccak256 : Accesses env .keccak256 fun bytes below outcome =>
    ∃ next, outcome = .ok () next ∧ next.stack = Keccak.digest bytes :: below
  ret : Accesses env .ret fun bytes _ outcome => ∃ final, outcome = .error (.halted bytes) final
  revert : Accesses env .revert fun bytes _ outcome =>
    ∃ final, outcome = .error (.failed (.reverted bytes)) final

/-- In every state of a machine, over all its runs, the memory behaves as one without an end. -/
theorem memory_refines_unbounded (env : Env) : MemoryRefines env where
  fresh := contents_fresh
  wrote := fun _ _ _ visited => contents_of_ok visited.length_stack_le
  stopped := fun _ _ _ visited => contents_of_error visited.length_stack_le
  history := by
    intro s contents
    constructor
    · exact Replays.visited
    · rintro ⟨visited, rfl⟩
      exact visited.replays
  stores := fun _ => accesses_store env
  mload := accesses_mload env
  keccak256 := by
    apply accesses_of_load Keccak.digest (by decide)
    rintro _ _ _ _ _ ⟨⟩
    exact rfl
  ret := by
    apply accesses_of_output Exit.halted
    rintro _ _ _ _ _ ⟨⟩
    exact rfl
  revert := by
    apply accesses_of_output fun bytes => .failed (.reverted bytes)
    rintro _ _ _ _ _ ⟨⟩
    exact rfl

end StackAssembler.Machine

import StackAssembler.Proofs.Machine.Transition

set_option autoImplicit false
set_option relaxedAutoImplicit false

namespace StackAssembler

/-- The first position and the number of bytes that an instruction names, if it uses memory. -/
def Opcode.access? (operands : List Word) : Opcode → Option (Word × Word)
  | .mload | .mstore => some (operands.getD 0 0, 32)
  | .mstore8 => some (operands.getD 0 0, 1)
  | .calldatacopy | .codecopy => some (operands.getD 0 0, operands.getD 2 0)
  | .keccak256 | .ret | .revert => some (operands.getD 0 0, operands.getD 1 0)
  | _ => none

namespace Machine

theorem access?_take (op : Opcode) (stack : List Word) :
    op.access? (stack.take op.pops) = op.access? stack := by
  cases op
  case mload | mstore | mstore8 =>
    simp only [Opcode.access?]
    rw [getD_take (by decide)]
  case calldatacopy | codecopy | keccak256 | ret | revert =>
    simp only [Opcode.access?]
    rw [getD_take (by decide), getD_take (by decide)]
  all_goals rfl

def Effect.memory : Effect → Bytes
  | .proceed _ memory | .land _ memory | .finish _ memory => memory

/-- The bytes of memory that it takes to cover what is named; none if that lies beyond the limit. -/
def reach (access : Option (Word × Word)) : Nat :=
  (access.bind fun named => Region.ofWords? named.1 named.2).elim 0 Region.coveringSize

theorem Region.ofWords?_eq_some {offset size : Word} {region : Region}
    (named : Region.ofWords? offset size = some region) :
    region.finish ≤ memoryLimit ∧ region.length = size.toNat ∧
      (size ≠ 0 → region.start = offset.toNat) := by
  unfold Region.ofWords? at named
  split at named
  · rename_i zero
    cases named
    exact ⟨by decide, by rw [zero]; rfl, fun nonzero => absurd zero nonzero⟩
  · split at named
    · rename_i inside
      cases named
      exact ⟨inside, rfl, fun _ => rfl⟩
    · cases named

theorem Region.ofWords?_eq_none_iff {offset size : Word} :
    Region.ofWords? offset size = none ↔
      ¬ (size = 0 ∨ offset.toNat + size.toNat ≤ memoryLimit) := by
  unfold Region.ofWords?
  split
  · rename_i zero
    exact iff_of_false (Option.some_ne_none _) (not_not_intro (.inl zero))
  · rename_i nonzero
    split
    · rename_i inside
      exact iff_of_false (Option.some_ne_none _) (not_not_intro (.inr inside))
    · rename_i beyond
      exact iff_of_true rfl (not_or_intro nonzero beyond)

theorem Region.finish_le_coveringSize (region : Region) : region.finish ≤ region.coveringSize := by
  unfold Region.coveringSize
  omega

theorem Region.ofWords?_zero {size : Word} (fits : size.toNat ≤ memoryLimit) :
    Region.ofWords? 0 size = some ⟨0, size.toNat⟩ := by
  have start : (0 : Word).toNat = 0 := rfl
  unfold Region.ofWords?
  split
  · rename_i zero
    rw [zero, start]
  · rw [start, Nat.zero_add, if_pos fits]

theorem Region.ofWords?_zero_eq_none {size : Word} (beyond : memoryLimit < size.toNat) :
    Region.ofWords? 0 size = none := by
  have start : (0 : Word).toNat = 0 := rfl
  rw [Region.ofWords?_eq_none_iff, start]
  rintro (zero | inside)
  · rw [zero, start] at beyond
    omega
  · omega

theorem Region.read_write (region : Region) (memory : Bytes) {data : Bytes}
    (length : data.size = region.length) :
    region.read ((region.write (memory.growTo region.coveringSize) data).growTo
      region.coveringSize) = data := by
  have covered := region.finish_le_coveringSize
  have inside : region.start + data.size ≤ (memory.growTo region.coveringSize).size := by
    rw [length, Bytes.size_growTo]
    unfold Region.finish at covered
    omega
  have long : region.coveringSize ≤
      (region.write (memory.growTo region.coveringSize) data).size := by
    rw [Region.write, Bytes.size_overwrite, Bytes.size_growTo]
    omega
  rw [Bytes.growTo_of_le long, Region.read, Region.write, ← length]
  exact Bytes.window_overwrite inside

section Access

variable {env : Env} {pc : Nat} {memory : Bytes} {offset source size : Word} {region : Region}

theorem effect_copy (named : Region.ofWords? offset size = some region) :
    effect env .calldatacopy pc memory [offset, source, size] =
      .proceed [] (region.write (memory.growTo region.coveringSize)
        (env.calldata.window source.toNat region.length)) := by
  simp only [effect, List.getD_cons_zero, List.getD_cons_succ, Effect.within_of_some named]

theorem effect_copy_beyond (beyond : Region.ofWords? offset size = none) :
    effect env .calldatacopy pc memory [offset, source, size] =
      .finish (.failed (.memoryLimit offset size pc)) memory := by
  simp only [effect, List.getD_cons_zero, List.getD_cons_succ, Effect.within_of_none beyond]

theorem effect_digest (named : Region.ofWords? offset size = some region) :
    effect env .keccak256 pc memory [offset, size] =
      .proceed [Keccak.digest (region.read (memory.growTo region.coveringSize))]
        (memory.growTo region.coveringSize) := by
  simp only [effect, List.getD_cons_zero, List.getD_cons_succ, Effect.within_of_some named]

theorem effect_load (named : Region.ofWords? offset 32 = some region) :
    effect env .mload pc memory [offset] =
      .proceed [Word.ofBytes (region.read (memory.growTo region.coveringSize))]
        (memory.growTo region.coveringSize) := by
  simp only [effect, List.getD_cons_zero, Effect.within_of_some named]

theorem effect_store {word : Word} (named : Region.ofWords? offset 32 = some region) :
    effect env .mstore pc memory [offset, word] =
      .proceed [] (region.write (memory.growTo region.coveringSize) word.toBytes) := by
  simp only [effect, List.getD_cons_zero, List.getD_cons_succ, Effect.within_of_some named]

theorem effect_return (named : Region.ofWords? offset size = some region) :
    effect env .ret pc memory [offset, size] =
      .finish (.halted (region.read (memory.growTo region.coveringSize)))
        (memory.growTo region.coveringSize) := by
  simp only [effect, List.getD_cons_zero, List.getD_cons_succ, Effect.within_of_some named]

end Access

theorem reach_whole (access : Option (Word × Word)) : 32 ∣ reach access := by
  unfold reach
  cases access.bind fun named => Region.ofWords? named.1 named.2 with
  | none => exact Nat.dvd_zero 32
  | some region => exact Nat.dvd_mul_left 32 _

theorem reach_le (access : Option (Word × Word)) : reach access ≤ memoryLimit := by
  unfold reach
  cases found : access.bind fun named => Region.ofWords? named.1 named.2 with
  | none => exact Nat.zero_le _
  | some region =>
      obtain ⟨named, _, inside⟩ := Option.bind_eq_some_iff.mp found
      have bound := (Region.ofWords?_eq_some inside).1
      have limit : memoryLimit = 1048576 := rfl
      show region.coveringSize ≤ memoryLimit
      unfold Region.coveringSize
      omega

section Sizes

variable (env : Env) (op : Opcode) (pc : Nat) (memory : Bytes) (operands : List Word)

private theorem size_memory_within (offset size : Word) {next : Region → Bytes → Effect}
    (kept : ∀ region memory, (next region memory).memory.size = memory.size) :
    (Effect.within pc memory offset size next).memory.size =
      max memory.size (reach (some (offset, size))) := by
  unfold Effect.within reach
  cases found : Region.ofWords? offset size with
  | none => simp [Effect.memory, found]
  | some region => simp [kept, found]

theorem size_memory_effect :
    (effect env op pc memory operands).memory.size =
      max memory.size (reach (op.access? operands)) := by
  cases op
  case keccak256 | mload | calldatacopy | codecopy | mstore | mstore8 | ret | revert =>
    simp only [effect, Opcode.access?]
    apply size_memory_within
    intro region memory
    simp [Effect.memory, Region.write]
  case jumpi =>
    simp only [effect, Opcode.access?]
    split <;> exact (Nat.max_zero _).symm
  all_goals exact (Nat.max_zero _).symm

end Sizes

theorem memory_after (env : Env) {s : State} (bounded : s.stack.length ≤ stackLimit) :
    (after env s).memory = s.memory ∨
      ∃ op, Ready env op s ∧ (after env s).memory = (effectAt env op s).memory := by
  have transition := step_transition env bounded
  unfold after
  generalize step env s = result at transition
  cases transition with
  | ended _ => exact .inl rfl
  | unassigned _ _ => exact .inl rfl
  | unsupported _ _ => exact .inl rfl
  | underflow _ _ _ _ => exact .inl rfl
  | overflow ready outcome _ => exact .inr ⟨_, ready, by rw [outcome]; rfl⟩
  | proceed ready outcome _ _ => exact .inr ⟨_, ready, by rw [outcome]; rfl⟩
  | landed ready outcome _ _ => exact .inr ⟨_, ready, by rw [outcome]; rfl⟩
  | refused ready outcome _ _ => exact .inr ⟨_, ready, by rw [outcome]; rfl⟩
  | halted ready outcome _ => exact .inr ⟨_, ready, by rw [outcome]; rfl⟩
  | failed ready outcome _ => exact .inr ⟨_, ready, by rw [outcome]; rfl⟩

theorem size_memory_after (env : Env) {s : State} (bounded : s.stack.length ≤ stackLimit) :
    ∃ access, (after env s).memory.size = max s.memory.size (reach access) := by
  rcases memory_after env bounded with same | ⟨op, _, left⟩
  · exact ⟨none, by rw [same]; exact (Nat.max_zero _).symm⟩
  · refine ⟨op.access? (s.stack.take op.pops), ?_⟩
    rw [left, effectAt, size_memory_effect]

theorem size_memory_le_after (env : Env) {s : State} (bounded : s.stack.length ≤ stackLimit) :
    s.memory.size ≤ (after env s).memory.size := by
  obtain ⟨access, size⟩ := size_memory_after env bounded
  rw [size]
  exact Nat.le_max_left _ _

theorem Visited.size_memory {env : Env} {s : State} (visited : Visited env s) :
    32 ∣ s.memory.size ∧ s.memory.size ≤ memoryLimit := by
  apply visited.invariant (P := fun s => 32 ∣ s.memory.size ∧ s.memory.size ≤ memoryLimit)
  · exact ⟨Nat.dvd_zero 32, Nat.zero_le _⟩
  · rintro s visited ⟨whole, inside⟩
    obtain ⟨access, size⟩ := size_memory_after env visited.length_stack_le
    have added := reach_whole access
    have limit := reach_le access
    rw [size]
    exact ⟨by omega, Nat.max_le.mpr ⟨inside, limit⟩⟩

theorem Visited.size_memory_le_run {env : Env} {s final : State} {steps : Nat} {verdict : Verdict}
    (visited : Visited env s) (ended : Machine.run env steps s = some (verdict, final)) :
    s.memory.size ≤ final.memory.size := by
  apply invariant_run (P := fun t => s.memory.size ≤ t.memory.size) _ visited (Nat.le_refl _) ended
  intro t visited longer
  exact Nat.le_trans longer (size_memory_le_after env visited.length_stack_le)

end Machine

end StackAssembler

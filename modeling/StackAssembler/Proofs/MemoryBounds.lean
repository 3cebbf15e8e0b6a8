import StackAssembler.Proofs.Machine.StrictAgreement
import StackAssembler.Proofs.MemoryRefinement

set_option autoImplicit false
set_option relaxedAutoImplicit false

namespace StackAssembler.Machine

structure Names (env : Env) (op : Opcode) (s : State) (offset size : Word) : Prop where
  fetched : env.code[s.pc]? = some op.toByte
  enough : op.pops ≤ s.stack.length
  named : op.access? s.stack = some (offset, size)

/-- What an instruction may do with its region once the memory covers it: push a word made from it,
for which there may be no room; write into it; or hand it out. -/
inductive Used (op : Opcode) (region : Region) (pc : Nat) (t : State) :
    EStateM.Result Exit State Unit → Prop
  | pushed {word : Word} : Used op region pc t (.ok () { t with stack := word :: t.stack })
  | full : stackLimit ≤ t.stack.length → 1 ≤ op.pops →
      Used op region pc t (.error (.failed (.stackOverflow pc)) t)
  | stored {data : Bytes} : data.size = region.length →
      Used op region pc t (.ok () { t with memory := region.write t.memory data })
  | returned : Used op region pc t (.error (.halted (region.read t.memory)) t)
  | reverted : op = .revert →
      Used op region pc t (.error (.failed (.reverted (region.read t.memory))) t)

structure Uses (op : Opcode) (s : State) (offset size : Word)
    (result : EStateM.Result Exit State Unit) : Prop where
  refused : Region.ofWords? offset size = none → result =
    .error (.failed (.memoryLimit offset size s.pc)) ⟨s.pc + 1, s.stack.drop op.pops, s.memory⟩
  granted : ∀ region, Region.ofWords? offset size = some region →
    Used op region s.pc
      ⟨s.pc + 1, s.stack.drop op.pops, s.memory.growTo region.coveringSize⟩ result

section Instructions

variable {op : Opcode} {s : State} {offset size : Word}

private theorem uses_of_load (value : Bytes → Word) (pops : 1 ≤ op.pops) :
    Uses op s offset size
      ((do
        let bytes ← Site.load ⟨op, s.pc⟩ offset size
        Site.push ⟨op, s.pc⟩ (value bytes) : Exec Unit)
          ⟨s.pc + 1, s.stack.drop op.pops, s.memory⟩) := by
  rw [bind_apply, load_eq]
  constructor
  · intro beyond
    rw [beyond]
  · intro region held
    rw [held]
    simp only [Site.push]
    split
    · exact .pushed
    · exact .full (Nat.le_of_not_lt ‹_›) pops

private theorem uses_of_store (data : Region → Bytes)
    (length : ∀ region, region.length = size.toNat → (data region).size = region.length) :
    Uses op s offset size
      (Site.store ⟨op, s.pc⟩ offset size data ⟨s.pc + 1, s.stack.drop op.pops, s.memory⟩) := by
  rw [store_eq]
  constructor
  · intro beyond
    rw [beyond]
  · intro region held
    rw [held]
    exact .stored (length region (Region.ofWords?_eq_some held).2.1)

private theorem uses_of_output (exit : Bytes → Exit)
    (hands : ∀ region t, Used op region s.pc t (.error (exit (region.read t.memory)) t)) :
    Uses op s offset size
      ((do
        let bytes ← Site.load ⟨op, s.pc⟩ offset size
        throw (exit bytes) : Exec Unit) ⟨s.pc + 1, s.stack.drop op.pops, s.memory⟩) := by
  rw [bind_apply, load_eq]
  constructor
  · intro beyond
    rw [beyond]
  · intro region held
    rw [held]
    exact hands region _

theorem step_uses {env : Env} (names : Names env op s offset size) :
    Uses op s offset size (step env s) := by
  obtain ⟨fetched, enough, named⟩ := names
  obtain ⟨pc, stack, memory⟩ := s
  rw [step_of_fetched fetched]
  cases op
  case mload =>
    match stack, enough with
    | _ :: _, _ =>
      cases named
      exact uses_of_load Word.ofBytes (by decide)
  case keccak256 =>
    match stack, enough with
    | _ :: _ :: _, _ =>
      cases named
      exact uses_of_load Keccak.digest (by decide)
  case mstore =>
    match stack, enough with
    | _ :: value :: _, _ =>
      cases named
      apply uses_of_store fun _ => value.toBytes
      intro region length
      rw [Word.size_toBytes, length]
      rfl
  case mstore8 =>
    match stack, enough with
    | _ :: value :: _, _ =>
      cases named
      apply uses_of_store fun _ => #[value.byteAt 31]
      intro region length
      rw [length]
      rfl
  case calldatacopy | codecopy =>
    match stack, enough with
    | _ :: source :: _ :: _, _ =>
      cases named
      apply uses_of_store fun region => Bytes.window _ source.toNat region.length
      intro region _
      exact Bytes.size_window _ _ _
  case ret =>
    match stack, enough with
    | _ :: _ :: _, _ =>
      cases named
      exact uses_of_output Exit.halted fun _ _ => .returned
  case revert =>
    match stack, enough with
    | _ :: _ :: _, _ =>
      cases named
      exact uses_of_output (fun data => .failed (.reverted data)) fun _ _ => .reverted rfl
  all_goals cases named

end Instructions

section Check

variable {env : Env} {op : Opcode} {s : State} {offset size : Word} {region : Region}

theorem step_eq_memoryLimit {other length : Word} {pc : Nat} {final : State}
    (names : Names env op s offset size)
    (fails : step env s = .error (.failed (.memoryLimit other length pc)) final) :
    Region.ofWords? offset size = none ∧ other = offset ∧ length = size ∧ pc = s.pc ∧
      final.memory = s.memory := by
  have uses := step_uses names
  rw [fails] at uses
  cases held : Region.ofWords? offset size with
  | none =>
      cases uses.refused held
      exact ⟨rfl, rfl, rfl, rfl, rfl⟩
  | some region => cases uses.granted region held

theorem memoryLimit_iff (names : Names env op s offset size) :
    (∃ final, step env s = .error (.failed (.memoryLimit offset size s.pc)) final) ↔
      size ≠ 0 ∧ 2 ^ 20 < offset.toNat + size.toNat := by
  have outside : Region.ofWords? offset size = none ↔
      size ≠ 0 ∧ 2 ^ 20 < offset.toNat + size.toNat := by
    rw [Region.ofWords?_eq_none_iff, not_or, Nat.not_le]
    rfl
  rw [← outside]
  constructor
  · rintro ⟨final, fails⟩
    exact (step_eq_memoryLimit names fails).1
  · intro beyond
    exact ⟨_, (step_uses names).refused beyond⟩

theorem size_memory_granted (names : Names env op s offset size)
    (held : Region.ofWords? offset size = some region) :
    (after env s).memory.size = max s.memory.size region.coveringSize := by
  have used := (step_uses names).granted region held
  unfold after
  generalize step env s = result at used
  cases used with
  | pushed => exact Bytes.size_growTo _ _
  | full _ _ => exact Bytes.size_growTo _ _
  | stored _ => exact (Bytes.size_overwrite _ _ _).trans (Bytes.size_growTo _ _)
  | returned => exact Bytes.size_growTo _ _
  | reverted _ => exact Bytes.size_growTo _ _

theorem memory_refused (names : Names env op s offset size)
    (beyond : Region.ofWords? offset size = none) : (after env s).memory = s.memory := by
  simp only [after, (step_uses names).refused beyond]

theorem memory_empty (names : Names env op s offset 0) : (after env s).memory = s.memory := by
  have used := (step_uses names).granted ⟨0, 0⟩ rfl
  have covered : s.memory.growTo (Region.coveringSize ⟨0, 0⟩) = s.memory :=
    Bytes.growTo_of_le (Nat.zero_le _)
  rw [covered] at used
  unfold after
  generalize step env s = result at used
  cases used with
  | @stored data length =>
      obtain rfl : data = #[] := Array.eq_empty_of_size_eq_zero length
      rfl
  | _ => rfl

theorem fault_empty (names : Names env op s offset 0) (bounded : s.stack.length ≤ stackLimit)
    {fault : Fault} {final : State} (fails : step env s = .error (.failed fault) final) :
    op = .revert ∧ fault = .reverted #[] := by
  have used := (step_uses names).granted ⟨0, 0⟩ rfl
  rw [fails] at used
  cases used with
  | full full pops =>
      rw [List.length_drop] at full
      have enough := names.enough
      have limit : stackLimit = 1024 := rfl
      omega
  | reverted revert => exact ⟨revert, congrArg Fault.reverted (Bytes.window_zero _ _)⟩

end Check

structure ChecksExactly (env : Env) (op : Opcode) (s : State) (offset size : Word) : Prop where
  refused_iff : (∃ final, step env s = .error (.failed (.memoryLimit offset size s.pc)) final) ↔
    size ≠ 0 ∧ 2 ^ 20 < offset.toNat + size.toNat
  /-- It is the region and the instruction that are blamed, and the memory stays as it was. -/
  blamed : ∀ other length pc final,
    step env s = .error (.failed (.memoryLimit other length pc)) final →
      other = offset ∧ length = size ∧ pc = s.pc ∧ final.memory = s.memory
  empty_kept : size = 0 → (after env s).memory = s.memory
  empty_passes : size = 0 → s.stack.length ≤ 1024 → ∀ fault final,
    step env s = .error (.failed fault) final → op = .revert ∧ fault = .reverted #[]

theorem checksExactly {env : Env} {op : Opcode} {s : State} {offset size : Word}
    (names : Names env op s offset size) : ChecksExactly env op s offset size where
  refused_iff := memoryLimit_iff names
  blamed _ _ _ _ fails := (step_eq_memoryLimit names fails).2
  empty_kept := by
    rintro rfl
    exact memory_empty names
  empty_passes := by
    rintro rfl bounded fault final fails
    exact fault_empty names bounded fails

section History

def accessAt (env : Env) (s : State) : Option (Word × Word) :=
  (env.code[s.pc]?.bind Opcode.ofByte?).bind fun op =>
    if op.pops ≤ s.stack.length then op.access? s.stack else none

/-- An access of some bytes that ends within the limit. -/
def Admitted (access : Word × Word) : Prop :=
  access.2 ≠ 0 ∧ access.1.toNat + access.2.toNat ≤ 2 ^ 20

/-- The states of one machine, over all its runs, with the accesses that were admitted so far. -/
inductive Recorded (env : Env) : State → List (Word × Word) → Prop
  | fresh : Recorded env {} []
  | admitted {s : State} {accesses : List (Word × Word)} {access : Word × Word} :
      Recorded env s accesses → accessAt env s = some access → Admitted access →
      Recorded env (after env s) (access :: accesses)
  | other {s : State} {accesses : List (Word × Word)} :
      Recorded env s accesses → (∀ access, accessAt env s = some access → ¬ Admitted access) →
      Recorded env (after env s) accesses

def highWater (accesses : List (Word × Word)) : Nat :=
  (accesses.map fun access => access.1.toNat + access.2.toNat).foldr max 0

/-- The bytes of as many whole words as it takes to cover those before a position. -/
def wholeWords (position : Nat) : Nat :=
  32 * ((position + 31) / 32)

theorem wholeWords_max (first second : Nat) :
    wholeWords (max first second) = max (wholeWords first) (wholeWords second) := by
  unfold wholeWords
  omega

theorem coveringSize_eq_wholeWords (region : Region) :
    region.coveringSize = wholeWords region.finish :=
  Nat.mul_comm _ _

variable {env : Env} {s : State} {accesses : List (Word × Word)}

theorem accessAt_eq_some {access : Word × Word} :
    accessAt env s = some access ↔ ∃ op, Names env op s access.1 access.2 := by
  unfold accessAt
  simp only [Option.bind_eq_some_iff]
  constructor
  · rintro ⟨op, ⟨byte, found, assigned⟩, named⟩
    split at named
    · rename_i enough
      exact ⟨op, by rw [found, Opcode.toByte_of_ofByte? assigned], enough, named⟩
    · cases named
  · rintro ⟨op, fetched, enough, named⟩
    exact ⟨op, ⟨_, fetched, Opcode.ofByte?_toByte op⟩, by rw [if_pos enough, named]⟩

theorem Visited.after (visited : Visited env s) : Visited env (Machine.after env s) := by
  unfold Machine.after
  cases stepped : Machine.step env s with
  | ok _ next => exact visited.step stepped
  | error exit final => exact visited.stop stepped

theorem Recorded.visited (recorded : Recorded env s accesses) : Visited env s := by
  induction recorded with
  | fresh => exact .fresh
  | admitted _ _ _ ih => exact ih.after
  | other _ _ ih => exact ih.after

theorem Visited.recorded (visited : Visited env s) : ∃ accesses, Recorded env s accesses := by
  apply visited.invariant (P := fun s => ∃ accesses, Recorded env s accesses)
  · exact ⟨[], .fresh⟩
  · rintro s _ ⟨accesses, recorded⟩
    by_cases admitted : ∃ access, accessAt env s = some access ∧ Admitted access
    · obtain ⟨access, named, passes⟩ := admitted
      exact ⟨_, recorded.admitted named passes⟩
    · exact ⟨_, recorded.other fun access named passes => admitted ⟨access, named, passes⟩⟩

theorem size_memory_admitted {access : Word × Word} (named : accessAt env s = some access)
    (admitted : Admitted access) :
    (Machine.after env s).memory.size =
      max s.memory.size (wholeWords (access.1.toNat + access.2.toNat)) := by
  obtain ⟨op, names⟩ := accessAt_eq_some.mp named
  have inside : access.1.toNat + access.2.toNat ≤ memoryLimit := admitted.2
  have held : Region.ofWords? access.1 access.2 = some ⟨access.1.toNat, access.2.toNat⟩ := by
    rw [Region.ofWords?, if_neg admitted.1, if_pos inside]
  rw [size_memory_granted names held, coveringSize_eq_wholeWords]
  rfl

theorem size_memory_other (bounded : s.stack.length ≤ stackLimit)
    (refused : ∀ access, accessAt env s = some access → ¬ Admitted access) :
    (Machine.after env s).memory.size = s.memory.size := by
  cases named : accessAt env s with
  | none =>
      rcases memory_after env bounded with same | ⟨op, ready, left⟩
      · rw [same]
      · have unnamed : op.access? s.stack = none := by
          by_contra found
          obtain ⟨access, found⟩ := Option.ne_none_iff_exists'.mp found
          have again := accessAt_eq_some.mpr ⟨op, ready.fetched, ready.enough, found⟩
          rw [named] at again
          cases again
        rw [left, effectAt, size_memory_effect, access?_take, unnamed]
        exact Nat.max_zero _
  | some access =>
      obtain ⟨op, names⟩ := accessAt_eq_some.mp named
      by_cases zero : access.2 = 0
      · rw [zero] at names
        rw [memory_empty names]
      · have beyond : ¬ (access.2 = 0 ∨ access.1.toNat + access.2.toNat ≤ memoryLimit) := by
          rintro (none | inside)
          · exact zero none
          · exact refused access named ⟨zero, inside⟩
        rw [memory_refused names (Region.ofWords?_eq_none_iff.mpr beyond)]

theorem Recorded.size_memory (recorded : Recorded env s accesses) :
    s.memory.size = wholeWords (highWater accesses) := by
  induction recorded with
  | fresh => rfl
  | @admitted s accesses access _ named passes ih =>
      rw [size_memory_admitted named passes, ih, ← wholeWords_max, Nat.max_comm]
      rfl
  | other recorded refused ih =>
      rw [size_memory_other recorded.visited.length_stack_le refused, ih]

theorem Recorded.step_msize (recorded : Recorded env s accesses)
    (fetched : env.code[s.pc]? = some (Opcode.toByte .msize)) (room : s.stack.length < stackLimit) :
    ∃ word : Word, word.toNat = wholeWords (highWater accesses) ∧
      Machine.step env s = .ok () ⟨s.pc + 1, word :: s.stack, s.memory⟩ := by
  have inside := recorded.visited.size_memory.2
  have limit : memoryLimit < 2 ^ 256 := by decide
  refine ⟨BitVec.ofNat 256 s.memory.size, ?_, ?_⟩
  · rw [BitVec.toNat_ofNat, Nat.mod_eq_of_lt (by omega), recorded.size_memory]
  · rw [step_of_fetched fetched]
    exact if_pos room

end History

structure MemoryBounded (env : Env) : Prop where
  checks : ∀ op s offset size, Names env op s offset size → ChecksExactly env op s offset size
  /-- The check may as well be made in 64 bits, by two conversions that can fail, a sum that can
  overflow and a rounding. -/
  counted : ∀ site s offset size,
    Strict.Agrees (Strict.touch site offset size) (site.touch offset size) s
  visited_iff : ∀ s, Visited env s ↔ ∃ accesses, Recorded env s accesses
  size : ∀ s accesses, Recorded env s accesses → s.memory.size = wholeWords (highWater accesses)
  msize : ∀ s accesses, Recorded env s accesses →
    env.code[s.pc]? = some (Opcode.toByte .msize) → s.stack.length < 1024 →
      ∃ word : Word, word.toNat = wholeWords (highWater accesses) ∧
        step env s = .ok () ⟨s.pc + 1, word :: s.stack, s.memory⟩

/-- Accesses are refused exactly beyond the limit, and the length of the memory is that of the words
that all others have needed. -/
theorem memory_bounds_exact (env : Env) : MemoryBounded env where
  checks := fun _ _ _ _ names => checksExactly names
  counted := fun site s offset size => Strict.touch_agrees site s offset size
  visited_iff := fun _ => ⟨Visited.recorded, fun ⟨_, recorded⟩ => recorded.visited⟩
  size := fun _ _ recorded => recorded.size_memory
  msize := fun _ _ recorded fetched room => recorded.step_msize fetched room

end StackAssembler.Machine

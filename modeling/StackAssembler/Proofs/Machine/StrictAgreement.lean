import StackAssembler.Proofs.Machine.BottomUp
import StackAssembler.Proofs.Machine.Boundary
import StackAssembler.Proofs.Machine.MemoryAccess
import StackAssembler.Proofs.Machine.Strict

set_option autoImplicit false
set_option relaxedAutoImplicit false

namespace StackAssembler.Machine.Strict

/-- From a state the strict piece does what the plain one does, and is not given up. -/
def Agrees {α : Type} (strict : Strict α) (plain : Exec α) (s : State) : Prop :=
  strict.run s = (Except.ok <$> plain) s

section Agreement

variable {α β : Type} {s : State}

private theorem run_bind_apply (strict : Strict α) (next : α → Strict β) (s : State) :
    (strict >>= next).run s =
      match strict.run s with
      | .ok (.ok a) t => (next a).run t
      | .ok (.error hazard) t => .ok (.error hazard) t
      | .error exit t => .error exit t := by
  change EStateM.bind strict.run (ExceptT.bindCont next) s = _
  unfold EStateM.bind
  rcases strict.run s with ⟨_ | _, _⟩ | _ <;> rfl

private theorem map_ok_apply (plain : Exec α) (s : State) :
    (Except.ok <$> plain : Exec (Except Hazard α)) s =
      match plain s with
      | .ok a t => .ok (.ok a) t
      | .error exit t => .error exit t := by
  change EStateM.map Except.ok plain s = _
  unfold EStateM.map
  cases plain s <;> rfl

theorem agrees_of_ok {strict : Strict α} {plain : Exec α} {a : α} {t : State}
    (runs : strict.run s = .ok (.ok a) t) (same : plain s = .ok a t) : Agrees strict plain s := by
  rw [Agrees, runs, map_ok_apply, same]

theorem agrees_of_error {strict : Strict α} {plain : Exec α} {exit : Exit} {t : State}
    (runs : strict.run s = .error exit t) (same : plain s = .error exit t) :
    Agrees strict plain s := by
  rw [Agrees, runs, map_ok_apply, same]

theorem agrees_lift (plain : Exec α) (s : State) : Agrees (liftM plain) plain s := rfl

theorem agrees_get (s : State) : Agrees get get s := rfl

theorem agrees_checked {checked : Except Hazard α} {a : α} (holds : checked = .ok a) :
    Agrees (liftM checked) (pure a) s := by
  rw [holds]
  rfl

theorem Agrees.bind {strict : Strict α} {plain : Exec α} {next : α → Strict β}
    {follow : α → Exec β} (first : Agrees strict plain s)
    (rest : ∀ a t, plain s = .ok a t → Agrees (next a) (follow a) t) :
    Agrees (strict >>= next) (plain >>= follow) s := by
  unfold Agrees at first ⊢
  rw [run_bind_apply, first, map_ok_apply, map_ok_apply, bind_apply]
  cases stepped : plain s with
  | error exit t => rfl
  | ok a t =>
      have following := rest a t stepped
      rw [Agrees, map_ok_apply] at following
      exact following

theorem Agrees.bind_lift {piece : Exec α} {next : α → Strict β} {follow : α → Exec β}
    (rest : ∀ a t, Agrees (next a) (follow a) t) :
    Agrees (liftM piece >>= next) (piece >>= follow) s :=
  (agrees_lift piece s).bind fun a t _ => rest a t

theorem Agrees.bind_checked {checked : Except Hazard α} {a : α} {next : α → Strict β}
    {plain : Exec β} (holds : checked = .ok a) (rest : Agrees (next a) plain s) :
    Agrees (liftM checked >>= next) plain s := by
  rw [holds]
  exact rest

theorem Agrees.bind_get {next : State → Strict β} {plain : Exec β} (rest : Agrees (next s) plain s) :
    Agrees (get >>= next) plain s :=
  rest

theorem Agrees.of_same {strict : Strict α} {plain other : Exec α} (agrees : Agrees strict other s)
    (same : plain s = other s) : Agrees strict plain s := by
  rw [Agrees, map_ok_apply, same, ← map_ok_apply]
  exact agrees

theorem Agrees.ne_error {strict : Strict α} {plain : Exec α} (agrees : Agrees strict plain s)
    {hazard : Hazard} {t : State} : strict.run s ≠ .ok (.error hazard) t := by
  rw [agrees, map_ok_apply]
  cases plain s with
  | ok a t =>
      intro given
      cases given
  | error exit t =>
      intro given
      cases given

end Agreement

section Pieces

variable (site : Site) (s : State)

private theorem divCeil_mul_word (n : Nat) : divCeil n 32 * 32 = (n + 31) / 32 * 32 := by
  unfold divCeil
  split <;> omega

private theorem touch_beyond {offset size : Word} (nonzero : size ≠ 0)
    (beyond : memoryLimit < offset.toNat + size.toNat) :
    touch site offset size = fail (.memoryLimit offset size site.pc) := by
  unfold touch
  rw [if_neg nonzero]
  -- The end of the region is not always a count: the start, the length or their sum may exceed one.
  rcases Nat.lt_or_ge offset.toNat (2 ^ 64) with start | large
  · rcases Nat.lt_or_ge size.toNat (2 ^ 64) with length | large
    · rcases Nat.lt_or_ge (offset.toNat + size.toNat) (2 ^ 64) with finish | large
      · simp only [toCount?_eq_some start, toCount?_eq_some length, add_eq_ok finish,
          if_neg (Nat.not_le_of_lt beyond)]
      · have excess : add offset.toNat size.toNat = .error .overflow :=
          if_neg (Nat.not_lt_of_le large)
        simp only [toCount?_eq_some start, toCount?_eq_some length, excess]
    · simp only [toCount?_eq_some start, toCount?_eq_none large]
  · simp only [toCount?_eq_none large]

private theorem touch_inside {offset size : Word} (nonzero : size ≠ 0)
    (inside : offset.toNat + size.toNat ≤ memoryLimit) :
    touch site offset size = (do
      let grown ← mul (divCeil (offset.toNat + size.toNat) 32) 32
      modify fun s => { s with memory := s.memory.growTo grown }
      return ⟨offset.toNat, size.toNat⟩) := by
  have limit : memoryLimit = 1048576 := rfl
  have start : offset.toNat < 2 ^ 64 := by omega
  have length : size.toNat < 2 ^ 64 := by omega
  have finish : offset.toNat + size.toNat < 2 ^ 64 := by omega
  unfold touch
  simp only [if_neg nonzero, toCount?_eq_some start, toCount?_eq_some length, add_eq_ok finish,
    if_pos inside]

theorem touch_agrees (offset size : Word) :
    Agrees (touch site offset size) (site.touch offset size) s := by
  by_cases zero : size = 0
  · have named : Region.ofWords? offset size = some ⟨0, 0⟩ := if_pos zero
    have same : s.memory.growTo (Region.coveringSize ⟨0, 0⟩) = s.memory :=
      Bytes.growTo_of_le (Nat.zero_le _)
    have plain : site.touch offset size s = .ok ⟨0, 0⟩ s := by
      simp only [Site.touch, named, same]
    rw [touch, if_pos zero]
    exact agrees_of_ok rfl plain
  · by_cases inside : offset.toNat + size.toNat ≤ memoryLimit
    · have named : Region.ofWords? offset size = some ⟨offset.toNat, size.toNat⟩ := by
        rw [Region.ofWords?, if_neg zero, if_pos inside]
      have limit : memoryLimit = 1048576 := rfl
      have covered : mul (divCeil (offset.toNat + size.toNat) 32) 32 =
          .ok (Region.coveringSize ⟨offset.toNat, size.toNat⟩) := by
        have small : divCeil (offset.toNat + size.toNat) 32 * 32 < 2 ^ 64 := by
          rw [divCeil_mul_word]
          omega
        rw [mul_eq_ok small, divCeil_mul_word]
        rfl
      rw [touch_inside site zero inside]
      apply Agrees.bind_checked covered
      exact agrees_of_ok rfl (by simp only [Site.touch, named])
    · have named : Region.ofWords? offset size = none :=
        Region.ofWords?_eq_none_iff.mpr (not_or_intro zero inside)
      rw [touch_beyond site zero (Nat.lt_of_not_le inside)]
      exact agrees_of_error rfl (by simp only [Site.touch, named])

private theorem finish_le_of_touch {offset size : Word} {region : Region} {t : State}
    (touched : site.touch offset size s = .ok region t) :
    region.finish ≤ t.memory.size ∧ region.length = size.toNat := by
  unfold Site.touch at touched
  split at touched
  · rename_i named
    cases touched
    refine ⟨?_, (Region.ofWords?_eq_some named).2.1⟩
    rw [Bytes.size_growTo]
    exact Nat.le_trans region.finish_le_coveringSize (Nat.le_max_right _ _)
  · cases touched

private theorem slice_region {region : Region} {memory : Bytes}
    (inside : region.finish ≤ memory.size) :
    slice memory region.start region.finish = .ok (region.read memory) := by
  have ordered : region.start ≤ region.finish := Nat.le_add_right _ _
  rw [slice_eq_ok ordered inside, Region.finish, Nat.add_sub_cancel_left]
  rfl

private theorem copyInto_region {region : Region} {memory data : Bytes}
    (inside : region.finish ≤ memory.size) (length : data.size = region.length) :
    copyInto memory region.start region.finish data = .ok (region.write memory data) :=
  copyInto_eq_ok (by rw [length]; rfl) inside

theorem load_agrees (offset size : Word) :
    Agrees (load site offset size) (site.load offset size) s := by
  apply (touch_agrees site s offset size).bind
  intro region t touched
  apply (agrees_get t).bind
  rintro _ _ ⟨⟩
  exact agrees_checked (slice_region (finish_le_of_touch site s touched).1)

private theorem size_of_load {offset size : Word} {bytes : Bytes} {t : State}
    (loaded : site.load offset size s = .ok bytes t) : bytes.size = size.toNat := by
  rw [Site.load, bind_apply] at loaded
  cases touched : site.touch offset size s with
  | error exit final =>
      rw [touched] at loaded
      cases loaded
  | ok region final =>
      rw [touched] at loaded
      cases loaded
      exact (Bytes.size_window _ _ _).trans (finish_le_of_touch site s touched).2

theorem storeBytes_agrees (offset size : Word) {data : Bytes} (length : data.size = size.toNat) :
    Agrees (storeBytes site offset size data) (site.store offset size fun _ => data) s := by
  apply (touch_agrees site s offset size).bind
  intro region t touched
  obtain ⟨inside, named⟩ := finish_le_of_touch site s touched
  apply Agrees.bind_get
  apply Agrees.bind_checked (copyInto_region inside (length.trans named.symm))
  exact agrees_of_ok rfl rfl

theorem storeByte_agrees (offset value : Word) :
    Agrees (storeByte site offset value) (site.store offset 1 fun _ => #[value.byteAt 31]) s := by
  apply (touch_agrees site s offset 1).bind
  intro region t touched
  obtain ⟨inside, named⟩ := finish_le_of_touch site s touched
  have place : region.start < t.memory.size := by
    have length : region.length = 1 := named
    simp only [Region.finish] at inside
    omega
  have written : setEntry t.memory region.start (value.byteAt 31) =
      .ok (region.write t.memory #[value.byteAt 31]) := by
    have overwritten : region.write t.memory #[value.byteAt 31] =
        t.memory.setIfInBounds region.start (value.byteAt 31) := rfl
    rw [overwritten, setEntry, dif_pos place, Array.setIfInBounds, dif_pos place]
  apply Agrees.bind_checked (sub_eq_ok (by decide))
  apply Agrees.bind_checked (byteOf_eq_ok value _)
  apply Agrees.bind_get
  apply Agrees.bind_checked written
  exact agrees_of_ok rfl rfl

theorem copyFrom_agrees {source : Bytes} (small : source.size < 2 ^ 64) :
    Agrees (copyFrom site source) (site.copyFrom source) s := by
  apply Agrees.bind_lift
  intro dest s
  apply Agrees.bind_lift
  intro offset s
  apply Agrees.bind_lift
  intro size s
  apply (touch_agrees site s dest size).bind
  intro region t touched
  have inside := (finish_le_of_touch site s touched).1
  have filled := fill_eq_ok small region.length offset
  have length : (source.window offset.toNat region.length).size = region.length :=
    Bytes.size_window _ _ _
  have target : (region.read t.memory).size = region.length := Bytes.size_window _ _ _
  apply Agrees.bind_get
  apply Agrees.bind_checked (slice_region inside)
  rw [target]
  apply Agrees.bind_checked filled
  apply Agrees.bind_get
  apply Agrees.bind_checked (copyInto_region inside length)
  exact agrees_of_ok rfl rfl

private def takeOperand (env : Env) (width : Nat) : Exec Word := fun s =>
  .ok (Word.ofBytes (env.code.window s.pc width)) { s with pc := s.pc + width }

private theorem readOperand_agrees {env : Env} {width : Nat} (narrow : width ≤ 32)
    (small : env.code.size < 2 ^ 63) (inside : s.pc ≤ env.code.size) :
    Agrees (readOperand env width) (takeOperand env width) s := by
  have start : min s.pc env.code.size = s.pc := Nat.min_eq_left inside
  have next : saturatingAdd s.pc width = s.pc + width := Nat.min_eq_left (by omega)
  apply Agrees.bind_get
  simp only [start, next]
  generalize counted : min (s.pc + width) env.code.size - s.pc = count
  have finish : min (s.pc + width) env.code.size = s.pc + count := by omega
  have part : slice env.code s.pc (s.pc + count) = .ok (env.code.window s.pc count) := by
    rw [slice_eq_ok (by omega) (by omega), Nat.add_sub_cancel_left]
  have size : (env.code.window s.pc count).size = count := Bytes.size_window _ _ _
  rw [finish]
  apply Agrees.bind_checked (sub_eq_ok narrow)
  apply Agrees.bind_checked (sub_eq_ok (Nat.le_add_right _ _))
  rw [Nat.add_sub_cancel_left]
  apply Agrees.bind_checked (add_eq_ok (by omega))
  apply Agrees.bind_checked part
  apply Agrees.bind_checked (copyInto_eq_ok (by rw [size]) (by rw [Array.size_replicate]; omega))
  rw [ofBytes_operand narrow (by omega) (by omega)]
  refine agrees_of_ok ?_ rfl
  show EStateM.Result.ok (Except.ok _) { s with pc := saturatingAdd s.pc width } = _
  rw [next]

theorem pushOperand_agrees {env : Env} {width : Nat} (narrow : width ≤ 32)
    (small : env.code.size < 2 ^ 63) (inside : s.pc ≤ env.code.size) :
    Agrees (do let word ← readOperand env width; site.push word) (site.pushOperand env width) s :=
  (readOperand_agrees s narrow small inside).bind fun word t _ => agrees_lift (site.push word) t

private theorem exists_bottomUp :
    ∃ words : Array Word, s = ⟨s.pc, words.toList.reverse, s.memory⟩ := by
  refine ⟨s.stack.reverse.toArray, ?_⟩
  rw [List.reverse_reverse]

private theorem Agrees.bind_words {α : Type} {next : Array Word → Strict α} {plain : Exec α}
    {words : Array Word} {pc : Nat} {memory : Bytes}
    (rest : Agrees (next words) plain ⟨pc, words.toList.reverse, memory⟩) :
    Agrees (Strict.words >>= next) plain ⟨pc, words.toList.reverse, memory⟩ := by
  have listed : words.toList.reverse.reverse.toArray = words := by
    rw [List.reverse_reverse, Array.toArray_toList]
  show Agrees (next words.toList.reverse.reverse.toArray) plain _
  rw [listed]
  exact rest

theorem duplicate_agrees (n : Nat) : Agrees (duplicate site (n + 1)) (site.duplicate n) s := by
  obtain ⟨words, same⟩ := exists_bottomUp s
  rw [same]
  apply Agrees.bind_words
  by_cases short : words.size < n + 1
  · rw [if_pos short]
    exact agrees_of_error rfl (duplicate_bottomUp_short _ _ _ _ _ (Nat.le_of_lt_succ short))
  · have place : words.size - (n + 1) = words.size - 1 - n := by omega
    rw [if_neg short]
    apply Agrees.bind_checked (sub_eq_ok (Nat.le_of_not_lt short))
    rw [place]
    apply Agrees.bind_checked (entry_eq_ok (by omega))
    exact (agrees_lift _ _).of_same (duplicate_bottomUp _ _ _ _ _ (by omega))

theorem exchange_agrees {n : Nat} (small : n < 16) :
    Agrees (exchange site (n + 1)) (site.exchange n) s := by
  obtain ⟨words, same⟩ := exists_bottomUp s
  rw [same]
  apply Agrees.bind_words
  apply Agrees.bind_checked (add_eq_ok (by omega))
  by_cases short : words.size < n + 1 + 1
  · rw [if_pos short]
    exact agrees_of_error rfl (exchange_bottomUp_short _ _ _ _ _ (Nat.le_of_lt_succ short))
  · rw [if_neg short]
    apply Agrees.bind_checked (sub_eq_ok (by omega))
    apply Agrees.bind_checked (sub_eq_ok (by omega))
    have swapped : swapEntries words (words.size - 1) (words.size - 1 - (n + 1)) =
        .ok (words.swap (words.size - 1 - (n + 1)) (words.size - 1)) := by
      rw [swapEntries, dif_pos (by omega), dif_pos (by omega), Array.swap_comm]
    apply Agrees.bind_checked swapped
    exact agrees_of_ok rfl (exchange_bottomUp _ _ _ _ _ (by omega))

theorem output_agrees : Agrees (output site) site.output s := by
  apply Agrees.bind_lift
  intro offset s
  apply Agrees.bind_lift
  intro size s
  exact load_agrees site s offset size

end Pieces

section Instructions

variable {env : Env} {s : State}

theorem exec_agrees (smallCode : env.code.size < 2 ^ 63) (smallData : env.calldata.size < 2 ^ 63)
    (op : Opcode) (pc : Nat) (inside : s.pc ≤ env.code.size) :
    Agrees (exec env ⟨op, pc⟩) (Machine.exec env ⟨op, pc⟩) s := by
  cases op
  case byte =>
    apply Agrees.bind_lift
    intro i s
    apply Agrees.bind_lift
    intro word s
    apply Agrees.bind_checked (byteOf_eq_ok_of_count word i)
    exact agrees_lift _ s
  case keccak256 =>
    apply Agrees.bind_lift
    intro offset s
    apply Agrees.bind_lift
    intro size s
    apply (load_agrees _ s offset size).bind
    intro message s _
    exact agrees_lift _ s
  case calldataload =>
    apply Agrees.bind_lift
    intro offset s
    apply Agrees.bind_checked (fill_eq_ok (by omega) 32 offset)
    exact agrees_lift _ s
  case calldatacopy => exact copyFrom_agrees _ s (by show env.calldata.size < _; omega)
  case codecopy => exact copyFrom_agrees _ s (by show env.code.size < _; omega)
  case mload =>
    apply Agrees.bind_lift
    intro offset s
    apply (load_agrees _ s offset 32).bind
    intro bytes s loaded
    apply Agrees.bind_checked (copyInto_blank (size_of_load _ _ loaded))
    exact agrees_lift _ s
  case mstore =>
    apply Agrees.bind_lift
    intro offset s
    apply Agrees.bind_lift
    intro value s
    exact storeBytes_agrees _ s offset 32 (Word.size_toBytes value)
  case mstore8 =>
    apply Agrees.bind_lift
    intro offset s
    apply Agrees.bind_lift
    intro value s
    exact storeByte_agrees _ s offset value
  case push i => exact pushOperand_agrees _ s (by omega) smallCode inside
  case dup i =>
    apply Agrees.bind_checked (familyNumber_eq_ok (i := i) ?_)
    · exact duplicate_agrees _ s i
    · rw [Opcode.toByte_dup, UInt8.toNat_ofNat']
      omega
  case swap i =>
    apply Agrees.bind_checked (familyNumber_eq_ok (i := i) ?_)
    · exact exchange_agrees _ s i.isLt
    · rw [Opcode.toByte_swap, UInt8.toNat_ofNat']
      omega
  case ret | revert =>
    apply (output_agrees _ s).bind
    intro data s _
    exact agrees_lift _ s
  all_goals exact agrees_lift _ s

/-- On code and calldata that fit in memory the strict machine takes the steps of the machine and
never gives up. -/
theorem step_agrees (smallCode : env.code.size < 2 ^ 63) (smallData : env.calldata.size < 2 ^ 63)
    (s : State) : Agrees (step env) (Machine.step env) s := by
  apply Agrees.bind_get
  by_cases inside : s.pc < env.code.size
  · have found : env.code[s.pc]? = some env.code[s.pc] := Array.getElem?_eq_getElem inside
    simp only [if_pos inside]
    apply Agrees.bind_checked (entry_eq_ok inside)
    cases assigned : Opcode.ofByte? env.code[s.pc] with
    | none => exact agrees_of_error rfl (by simp only [Machine.step, found, assigned])
    | some op =>
        apply Agrees.bind_checked (add_eq_ok (by omega))
        have behind : Agrees (exec env ⟨op, s.pc⟩) (Machine.exec env ⟨op, s.pc⟩)
            { s with pc := s.pc + 1 } := exec_agrees smallCode smallData op s.pc inside
        have steps : Machine.step env s =
            Machine.exec env ⟨op, s.pc⟩ { s with pc := s.pc + 1 } := by
          simp only [Machine.step, found, assigned]
        show (exec env ⟨op, s.pc⟩).run { s with pc := s.pc + 1 } = _
        rw [behind, map_ok_apply, map_ok_apply, steps]
  · have ended : env.code[s.pc]? = none := Array.getElem?_eq_none (Nat.le_of_not_lt inside)
    simp only [if_neg inside]
    exact agrees_of_error rfl (by simp only [Machine.step, ended])

end Instructions

section Landings

variable {code : Bytes}

/-- The code has been scanned up to an instruction: the landings before it are marked. -/
private structure MarkedTo (code : Bytes) (i : Nat) (marks : Array Bool) : Prop where
  size : marks.size = code.size
  boundary : Boundary code i
  marked : ∀ j, marks[j]? = some true ↔
    j < i ∧ Boundary code j ∧ code[j]? = some (Opcode.toByte .jumpdest)

private theorem operandLength_le (byte : UInt8) : operandLength byte ≤ 32 := by
  unfold operandLength
  split
  · rename_i op _
    cases op with
    | push i => exact i.isLt
    | _ => exact Nat.zero_le _
  · exact Nat.zero_le _

private theorem mark_eq_ok {marks : Array Bool} {i : Nat} (inside : i < marks.size) (byte : UInt8) :
    ∃ later, mark marks i byte = .ok later ∧ later.size = marks.size ∧
      ∀ j, later[j]? = some true ↔
        (j = i ∧ byte = Opcode.toByte .jumpdest) ∨ marks[j]? = some true := by
  unfold mark
  by_cases landing : byte = Opcode.toByte .jumpdest
  · refine ⟨marks.set i true, ?_, Array.size_set inside, ?_⟩
    · rw [if_pos landing, setEntry, dif_pos inside]
    · intro j
      rw [Array.getElem?_set, and_iff_left landing]
      by_cases same : i = j
      · rw [if_pos same]
        exact iff_of_true rfl (.inl same.symm)
      · rw [if_neg same]
        exact ⟨.inr, fun either => either.resolve_left (Ne.symm same)⟩
  · refine ⟨marks, if_neg landing, rfl, ?_⟩
    intro j
    exact ⟨.inr, fun either => either.resolve_left fun both => landing both.2⟩

private theorem MarkedTo.next {i : Nat} {marks later : Array Bool} {byte : UInt8}
    (marked : MarkedTo code i marks) (found : code[i]? = some byte) (size : later.size = marks.size)
    (mark : ∀ j, later[j]? = some true ↔
      (j = i ∧ byte = Opcode.toByte .jumpdest) ∨ marks[j]? = some true) :
    MarkedTo code (i + operandLength byte + 1) later where
  size := size.trans marked.size
  boundary := by
  -- Nothing starts between an instruction and the next one, so the marks need no more than the
  -- instruction's own.
    have next := marked.boundary.next found
    rwa [Nat.add_right_comm] at next
  marked j := by
    rw [mark, marked.marked]
    constructor
    · rintro (⟨rfl, landing⟩ | ⟨before, landing⟩)
      · rw [landing] at found
        exact ⟨by omega, marked.boundary, found⟩
      · exact ⟨by omega, landing⟩
    · rintro ⟨before, boundary, landing⟩
      rcases Nat.lt_trichotomy j i with earlier | rfl | behind
      · exact .inr ⟨earlier, boundary, landing⟩
      · rw [found] at landing
        cases landing
        exact .inl ⟨rfl, rfl⟩
      · have reached := marked.boundary.next_le boundary behind found
        omega

private theorem MarkedTo.eq_landings {i : Nat} {marks : Array Bool} (marked : MarkedTo code i marks)
    (ended : code.size ≤ i) : marks = Machine.landings code := by
  have size : marks.size = (Machine.landings code).size := by
    rw [marked.size, size_landings]
  apply Array.ext size
  intro j left right
  have same : marks[j]? = some true ↔ (Machine.landings code)[j]? = some true := by
    rw [marked.marked, landings_eq_true_iff]
    have before : j < i := by
      rw [marked.size] at left
      omega
    exact and_iff_right before
  rw [Array.getElem?_eq_getElem left, Array.getElem?_eq_getElem right, Option.some.injEq,
    Option.some.injEq] at same
  exact Bool.eq_iff_iff.mpr same

private theorem landingsFrom_eq_ok (small : code.size < 2 ^ 63) {i : Nat} {marks : Array Bool}
    (marked : MarkedTo code i marks) : landingsFrom code i marks = .ok (Machine.landings code) := by
  -- By the bytes still to be scanned, which operands make skip by more than one.
  induction gap : code.size - i using Nat.strongRecOn generalizing i marks with
  | _ n ih =>
    rw [landingsFrom]
    by_cases inside : i < code.size
    · have found : code[i]? = some code[i] := Array.getElem?_eq_getElem inside
      have short := operandLength_le code[i]
      have fits : i + operandLength code[i] + 1 < 2 ^ 64 := by omega
      have room : i < marks.size := by rwa [marked.size]
      obtain ⟨later, put, size, mark⟩ := mark_eq_ok room code[i]
      simp only [dif_pos inside, entry_eq_ok inside, bind, Except.bind, put, if_pos fits]
      exact ih _ (by omega) (marked.next found size mark) rfl
    · rw [dif_neg inside, marked.eq_landings (Nat.le_of_not_lt inside)]

theorem landings_eq_ok (small : code.size < 2 ^ 63) :
    landings code = .ok (Machine.landings code) := by
  apply landingsFrom_eq_ok small
  refine ⟨Array.size_replicate, .zero, ?_⟩
  intro j
  rw [Array.getElem?_replicate]
  split
  · simp
  · simp

end Landings

end StackAssembler.Machine.Strict

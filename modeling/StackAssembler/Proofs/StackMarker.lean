import StackAssembler.Proofs.MemoryRefinement
import StackAssembler.Proofs.SamplePrograms
import StackAssembler.Proofs.SlotAddressing

set_option autoImplicit false
set_option relaxedAutoImplicit false

namespace StackAssembler

open Assembly Machine

namespace Slot

/-- The words that using a slot adds to the stack. -/
def gain : Slot → Nat
  | .dup _ => 1
  | .swap _ => 0

/-- The deepest stack that leaves room to store what the slot gives. -/
def deepest : Slot → Nat
  | .dup _ => 1022
  | .swap _ => 1023

theorem gain_le_one (slot : Slot) : slot.gain ≤ 1 := by
  cases slot with
  | dup k => exact Nat.le_refl 1
  | swap k => exact Nat.zero_le 1

theorem deepest_add_gain (slot : Slot) : slot.deepest + slot.gain = 1023 := by
  cases slot <;> rfl

theorem depth_of_resolve? {slot : Slot} {depth : Nat} {op : Opcode}
    (resolved : slot.resolve? depth = some op) :
    depth - op.pops + op.pushes = depth + slot.gain := by
  have enough := pops_le_of_resolve? resolved
  obtain ⟨_, i, _, rfl⟩ := resolve?_eq_some_iff.mp resolved
  have pushes : (slot.family i).pushes = (slot.family i).pops + slot.gain := by
    cases slot <;> rfl
  omega

theorem exists_rearranges {slot : Slot} {op : Opcode} {words : Array Word}
    (resolved : slot.resolve? words.size = some op) (room : words.size + slot.gain ≤ 1024) :
    ∃ (below : Array Word) (word : Word), words[slot.position words.size]? = some word ∧
      below.size + 1 = words.size + slot.gain ∧ Rearranges op words (below.push word) := by
  have served := servedBy_of_resolve? resolved
  cases slot with
  | dup k =>
      obtain ⟨inside, rearranges⟩ := served room
      exact ⟨words, _, Array.getElem?_eq_getElem inside, rfl, rearranges⟩
  | swap k =>
      obtain ⟨inside, rearranges⟩ := served
      have last : (words.swap ((Slot.swap k).position words.size) (words.size - 1)).back? =
          some words[(Slot.swap k).position words.size] := by
        rw [Array.back?_eq_getElem?, Array.size_swap, Array.getElem?_eq_getElem
          (by rw [Array.size_swap]; omega), Array.getElem_swap_right]
      obtain ⟨below, exchanged⟩ := Array.back?_eq_some_iff.mp last
      rw [exchanged] at rearranges
      have size := congrArg Array.size exchanged
      rw [Array.size_swap, Array.size_push] at size
      exact ⟨below, _, Array.getElem?_eq_getElem inside, size.symm, rearranges⟩

end Slot

namespace StackMarker

open HashOrEcho (single firstWord)

section Refusal

private theorem compile_eq_error_of_emits {first rest : Program} {directive : Directive}
    {events : List Event} {t : StackDepth} {error : Error}
    (emits : first.Emits { limit := 1024 } events t)
    (fails : ∀ items, directive.flatten ⟨t, items⟩ = .error error) :
    compile {} (first ++ directive :: rest) = .error error := by
  have front : first.flattenAfter (.empty 1024) = .ok ⟨t, (emitted events).toArray⟩ :=
    (first.flattenAfter_eq_ok _ _ _).mpr ⟨events, emits, by simp⟩
  apply compile_eq_error.mpr
  left
  show Program.flattenAfter (first ++ directive :: rest) (.empty 1024) = _
  rw [Program.flattenAfter, List.foldlM_append, bind_eq_error]
  right
  refine ⟨_, front, ?_⟩
  rw [List.foldlM_cons, bind_eq_error]
  exact .inl (fails _)

private theorem emitOp_overflow {op : Opcode} {depth limit : Nat} (plain : op.isPush = false)
    (enough : op.pops ≤ depth) (full : depth - op.pops + op.pushes = limit + 1)
    (items : Array Item) :
    Listing.emitOp ⟨⟨depth, limit⟩, items⟩ op = .error (.stackOverflow (limit + 1) limit) := by
  have refused : Unsuited op ⟨depth, limit⟩ _ := .overflow enough (by simp only; omega)
  rw [← full]
  exact emitOp_eq_error.mpr (.inr ⟨plain, refused⟩)

end Refusal

section Listing

private def marking (depth : Nat) : List Item :=
  List.replicate depth (.op .pc)

private def bounding : List Item :=
  [.push (single 1), .push (single 31)]

private def storing : List Item :=
  .op .push0 :: .op .mstore :: (bounding ++ [.op .ret])

private def items (depth : Nat) (op : Opcode) : List Item :=
  marking depth ++ .op op :: storing

private theorem marking_succ (n : Nat) : marking (n + 1) = marking n ++ [.op .pc] :=
  List.replicate_succ'

private theorem emits_marking {limit n : Nat} (room : n ≤ limit) :
    ∃ events, Program.Emits (List.replicate n (.op .pc)) { limit } events ⟨n, limit⟩ ∧
      emitted events = marking n := by
  induction n with
  | zero => exact ⟨[], .nil, rfl⟩
  | succ n ih =>
      obtain ⟨events, emits, listed⟩ := ih (Nat.le_of_succ_le room)
      have next : (Directive.op .pc).Emits ⟨n, limit⟩ [.emit n (.op .pc)] ⟨n + 1, limit⟩ :=
        .op rfl (apply_eq_ok.mpr ⟨Nat.zero_le _, room, rfl⟩)
      rw [List.replicate_succ', marking_succ, ← listed]
      exact ⟨_, emits.append (.cons next .nil), emitted_append _ _⟩

private theorem emits_slot {slot : Slot} {op : Opcode} {depth limit : Nat}
    (resolved : slot.resolve? depth = some op) (room : depth + slot.gain ≤ limit) :
    (Directive.inverted slot).Emits ⟨depth, limit⟩ [.emit depth (.op op)]
      ⟨depth + slot.gain, limit⟩ := by
  have moved := Slot.depth_of_resolve? resolved
  refine .inverted (resolve_eq_ok.mpr resolved) (isPush_resolved resolved)
    (apply_eq_ok.mpr ⟨Slot.pops_le_of_resolve? resolved, ?_, ?_⟩)
  · rw [moved]
    exact room
  · rw [moved]

private theorem emits_storing {below limit : Nat} (room : below + 2 ≤ limit) :
    ∃ events, Program.Emits
      [.op .push0, .op .mstore, .call .ret [.push (.int 1), .push (.int 31)]]
      ⟨below + 1, limit⟩ events ⟨below, limit⟩ ∧ emitted events = storing := by
  have one : below + 1 ≤ limit := by omega
  have none : below ≤ limit := by omega
  have first : (Directive.op .push0).Emits ⟨below + 1, limit⟩ _ ⟨below + 2, limit⟩ :=
    .op rfl (apply_eq_ok.mpr ⟨Nat.zero_le _, room, rfl⟩)
  have second : (Directive.op .mstore).Emits ⟨below + 2, limit⟩ _ ⟨below, limit⟩ :=
    .op rfl (apply_eq_ok.mpr ⟨Nat.le_add_left _ _, none, rfl⟩)
  have length : (Directive.push (.int 1)).Emits ⟨below, limit⟩
      [.emit below (.push (single 1))] ⟨below + 1, limit⟩ :=
    .push rfl (apply_eq_ok.mpr ⟨Nat.zero_le _, one, rfl⟩)
  have start : (Directive.push (.int 31)).Emits ⟨below + 1, limit⟩
      [.emit (below + 1) (.push (single 31))] ⟨below + 2, limit⟩ :=
    .push rfl (apply_eq_ok.mpr ⟨Nat.zero_le _, room, rfl⟩)
  have third : (Directive.call .ret [.push (.int 1), .push (.int 31)]).Emits ⟨below, limit⟩ _
      ⟨below, limit⟩ :=
    .call rfl (.cons length rfl (.cons start rfl .nil)) rfl
      (apply_eq_ok.mpr ⟨Nat.le_add_left _ _, none, rfl⟩)
  exact ⟨_, .cons first (.cons second (.cons third .nil)), rfl⟩

private theorem emits_upToSlot {slot : Slot} {op : Opcode} {depth limit : Nat}
    (resolved : slot.resolve? depth = some op) (room : depth + slot.gain ≤ limit) :
    ∃ events, Program.Emits (List.replicate depth (.op .pc) ++ [.inverted slot]) { limit } events
      ⟨depth + slot.gain, limit⟩ ∧ emitted events = marking depth ++ [.op op] := by
  obtain ⟨events, marked, listed⟩ := emits_marking (by omega : depth ≤ limit)
  refine ⟨_, marked.append (.cons (emits_slot resolved room) .nil), ?_⟩
  rw [emitted_append, listed]
  rfl

private theorem flatten_eq {slot : Slot} {op : Opcode} {depth below : Nat}
    (resolved : slot.resolve? depth = some op) (count : below + 1 = depth + slot.gain)
    (room : below + 2 ≤ 1024) :
    Program.flatten 1024 (Sample.stackMarker depth slot) =
      .ok ⟨⟨below, 1024⟩, (items depth op).toArray⟩ := by
  obtain ⟨events, front, listed⟩ := emits_upToSlot resolved (by omega : _ ≤ 1024)
  obtain ⟨others, back, others_listed⟩ := emits_storing room
  rw [← count] at front
  have emits := front.append back
  rw [List.append_assoc] at emits
  refine Program.flatten_eq_ok.mpr ⟨_, emits, ?_⟩
  rw [emitted_append, listed, others_listed, List.append_assoc]
  rfl

private theorem exists_compiled {slot : Slot} {op : Opcode} {depth below : Nat}
    (resolved : slot.resolve? depth = some op) (count : below + 1 = depth + slot.gain)
    (room : below + 2 ≤ 1024) :
    ∃ code, compile {} (Sample.stackMarker depth slot) = .ok code ∧
      ∃ width, Placed width (items depth op) code := by
  have flat : (Sample.stackMarker depth slot).flatten ({} : Options).stackLimit =
      .ok ⟨⟨below, 1024⟩, (items depth op).toArray⟩ := flatten_eq resolved count room
  have legal : LegalWidth ({} : Options).labelWidth := by
    intro width given
    cases given
  have unlabelled : (items depth op).filterMap Item.declares? = [] := by
    simp [items, marking, storing, bounding, Item.declares?]
  have unreferenced : ∀ name, .pushLabel name ∉ items depth op := by
    simp [items, marking, storing, bounding]
  have distinct : ((items depth op).filterMap Item.declares?).Nodup := by
    rw [unlabelled]
    exact List.nodup_nil
  exact exists_placed flat legal distinct
    fun _ _ name pushed => absurd pushed (unreferenced name)

end Listing

section Run

variable {depth width : Nat} {op : Opcode} {code : Bytes}

/-- The stack that the program marks, from the bottom up. -/
private def marks (depth : Nat) : Array Word :=
  (Array.range depth).map (BitVec.ofNat 256)

private theorem size_marks (n : Nat) : (marks n).size = n := by
  rw [marks, Array.size_map, Array.size_range]

private theorem extent_marking (width n : Nat) : extent width (marking n) = n := by
  induction n with
  | zero => rfl
  | succ n ih =>
      rw [marking_succ, extent_append, ih]
      rfl

private theorem reaches_marked {listed rest : List Item} (placed : Placed width listed code)
    {n : Nat} (parts : listed = marking n ++ rest) (room : n ≤ 1024) (calldata : Bytes) :
    Reaches (.of code calldata) {} ⟨extent width (marking n), (marks n).toList.reverse, #[]⟩ := by
  -- Every instruction pushes its own offset, which is the depth at which it stands.
  induction n generalizing rest with
  | zero =>
      have fresh : (marks 0).toList.reverse = [] := by simp [marks]
      rw [fresh]
      exact .refl
  | succ n ih =>
      have front : listed = marking n ++ .op .pc :: rest := by
        rw [parts, marking_succ, List.append_assoc, List.singleton_append]
      have length : (marks n).toList.reverse.length = n := by
        rw [List.length_reverse, Array.length_toList, size_marks]
      have grown : (marks (n + 1)).toList.reverse =
          [BitVec.ofNat 256 (extent width (marking n))] ++ (marks n).toList.reverse := by
        rw [extent_marking]
        simp [marks, Array.range_succ]
      have bounded : ([] : List Word).length + (marks n).toList.reverse.length ≤ stackLimit := by
        rw [length, stackLimit, List.length_nil]
        omega
      have fits : [BitVec.ofNat 256 (extent width (marking n))].length +
          (marks n).toList.reverse.length ≤ stackLimit := by
        rw [length, stackLimit, List.length_singleton]
        omega
      rw [marking_succ, grown]
      exact (ih front (by omega)).tail (placed.step_proceed front rfl rfl bounded rfl fits)

private theorem reaches_given {slot : Slot} (placed : Placed width (items depth op) code)
    (resolved : slot.resolve? depth = some op) (room : depth + slot.gain ≤ 1024)
    (calldata : Bytes) :
    ∃ below : List Word, below.length + 1 = depth + slot.gain ∧
      Reaches (.of code calldata) {} ⟨extent width (marking depth ++ [.op op]),
        BitVec.ofNat 256 (slot.position depth) :: below, #[]⟩ := by
  have marked := reaches_marked placed rfl (by omega) calldata
  have alone := Opcode.immediateLength_eq_zero (isPush_resolved resolved)
  rw [← size_marks depth] at resolved room
  obtain ⟨below, word, found, count, rearranges⟩ := Slot.exists_rearranges resolved room
  rw [size_marks] at found count
  obtain ⟨place, listed, rfl⟩ := Option.map_eq_some_iff.mp (Array.getElem?_map.symm.trans found)
  obtain ⟨_, rfl⟩ := Array.getElem?_eq_some_iff.mp listed
  rw [Array.getElem_range] at rearranges
  have parts : items depth op = marking depth ++ .op op :: _ := rfl
  have behind : extent width (marking depth) + 1 = extent width (marking depth ++ [.op op]) := by
    rw [extent_append, extent_cons, extent_nil, Item.size, Opcode.encodedLength, alone]
  have stepped := rearranges (.of code calldata) _ #[] (placed.fetched parts)
  rw [behind, Array.toList_push, List.reverse_append] at stepped
  refine ⟨below.toList.reverse, ?_, marked.tail stepped⟩
  rw [List.length_reverse, Array.length_toList, count]

private def lastByte : Region :=
  ⟨31, 1⟩

private theorem read_stored (word : Word) (memory : Bytes) :
    lastByte.read ((firstWord.write (memory.growTo firstWord.coveringSize) word.toBytes).growTo
      lastByte.coveringSize) = #[UInt8.ofNat (word.toNat % 256)] := by
  have whole : Region.ofWords? 0 32 = some firstWord := by decide
  have last : Region.ofWords? 31 1 = some lastByte := by decide
  have written := Region.byteAt_write whole memory word.size_toBytes
  have lowest := byteAt_toBytes word (by decide : 31 < 32)
  rw [Nat.sub_self, Nat.pow_zero, Nat.div_one] at lowest
  rw [Region.read_growTo last, written, ← lowest]
  rfl

private theorem concludes_given {listed before : List Item} {word : Word} {below : List Word}
    {calldata : Bytes} (placed : Placed width listed code)
    (parts : listed = before ++ storing)
    (given : Reaches (.of code calldata) {} ⟨extent width before, word :: below, #[]⟩)
    (room : below.length + 2 ≤ stackLimit) :
    Concludes code calldata (.ok #[UInt8.ofNat (word.toNat % 256)]) := by
  have second := parts.trans (List.append_cons ..)
  have third := second.trans (List.append_cons ..)
  have last := third.trans (List.append_assoc ..).symm
  have two (a b : Word) : [a, b].length + below.length ≤ stackLimit := by
    rw [Nat.add_comm]
    exact room
  have fewer : ([] : List Word).length + below.length ≤ stackLimit := by
    rw [List.length_nil]
    omega
  have short : (word :: below).length < stackLimit := room
  have zeroed : Reaches (.of code calldata) {}
      ⟨extent width (before ++ [.op .push0]), [0, word] ++ below, #[]⟩ :=
    given.tail (placed.step_performed parts rfl short).2
  -- The stack may be full here, so storing the word is not counted as if it pushed one.
  have whole : Region.ofWords? 0 32 = some firstWord := by decide
  have stored := zeroed.tail
    (placed.step_proceed second rfl rfl (two 0 word) (effect_store whole) fewer)
  have performed (memory : Bytes) :
      performAll (.of code calldata) (labelPosition width listed) width
        (extent width (before ++ [.op .push0] ++ [.op .mstore])) below memory bounding =
          some ([31, 1] ++ below, memory) := rfl
  have bounded := stored.trans (placed.reaches_performed third (performed _) room)
  have lowest : Region.ofWords? 31 1 = some lastByte := by decide
  have concluded := Reaches.concludes bounded
    (placed.step_finish last rfl rfl (two 31 1) (effect_return lowest))
  rwa [Exit.verdict, read_stored] at concluded

private theorem concludes_position {slot : Slot} (placed : Placed width (items depth op) code)
    (resolved : slot.resolve? depth = some op) (room : depth + slot.gain ≤ 1023)
    (calldata : Bytes) :
    Concludes code calldata (.ok #[UInt8.ofNat (slot.position depth % 256)]) := by
  obtain ⟨below, count, given⟩ := reaches_given placed resolved (by omega) calldata
  have limit : stackLimit = 1024 := rfl
  have concluded := concludes_given placed (List.append_cons ..) given (by omega)
  have position : (BitVec.ofNat 256 (slot.position depth)).toNat = slot.position depth := by
    rw [BitVec.toNat_ofNat, Nat.mod_eq_of_lt]
    obtain ⟨_, i, place, _⟩ := Slot.resolve?_eq_some_iff.mp resolved
    omega
  rwa [position] at concluded

end Run

end StackMarker

/-- What comes of a program that marks a stack of `depth` words and returns the mark of a slot. -/
structure ReturnsMark (depth : Nat) (slot : Slot) : Prop where
  deep : 1024 < depth →
    compile {} (Sample.stackMarker depth slot) = .error (.stackOverflow 1025 1024)
  unreachable : depth ≤ 1024 → ¬ slot.Reachable depth →
    compile {} (Sample.stackMarker depth slot) = .error (.slotUnreachable slot depth)
  crowded : depth ≤ 1024 → slot.Reachable depth → slot.deepest < depth →
    compile {} (Sample.stackMarker depth slot) = .error (.stackOverflow 1025 1024)
  /-- One byte is returned, whatever the input. -/
  returns : slot.Reachable depth → depth ≤ slot.deepest →
    ∃ code, compile {} (Sample.stackMarker depth slot) = .ok code ∧
      ∃ mark : UInt8, mark.toNat = slot.position depth % 256 ∧
        ∀ calldata, Concludes code calldata (.ok #[mark])

namespace StackMarker

private theorem compile_deep {depth : Nat} (slot : Slot) (deep : 1024 < depth) :
    compile {} (Sample.stackMarker depth slot) = .error (.stackOverflow 1025 1024) := by
  obtain ⟨more, rfl⟩ : ∃ more, depth = 1024 + (more + 1) := ⟨depth - 1025, by omega⟩
  have parts (n : Nat) : List.replicate (n + (more + 1)) (Directive.op .pc) =
      List.replicate n (.op .pc) ++ .op .pc :: List.replicate more (.op .pc) := by
    rw [← List.replicate_succ, List.replicate_append_replicate]
  obtain ⟨events, marked, _⟩ := emits_marking (Nat.le_refl 1024)
  rw [Sample.stackMarker, parts, List.append_assoc, List.cons_append]
  apply compile_eq_error_of_emits marked
  intro items
  rw [Directive.flatten]
  exact emitOp_overflow rfl (Nat.zero_le _) rfl items

private theorem compile_unreachable {depth : Nat} {slot : Slot} (room : depth ≤ 1024)
    (unreachable : ¬ slot.Reachable depth) :
    compile {} (Sample.stackMarker depth slot) = .error (.slotUnreachable slot depth) := by
  have missing : slot.resolve? depth = none := by
    apply Option.eq_none_iff_forall_ne_some.mpr
    intro op resolved
    exact unreachable ((slot.exists_resolve?_iff depth).mp ⟨op, resolved⟩)
  obtain ⟨events, marked, _⟩ := emits_marking room
  apply compile_eq_error_of_emits marked
  intro items
  rw [Directive.flatten, bind_eq_error]
  exact .inl (resolve_eq_error.mpr ⟨missing, rfl⟩)

private theorem compile_crowded {depth : Nat} {slot : Slot} (room : depth ≤ 1024)
    (reachable : slot.Reachable depth) (crowded : slot.deepest < depth) :
    compile {} (Sample.stackMarker depth slot) = .error (.stackOverflow 1025 1024) := by
  obtain ⟨op, resolved⟩ := (slot.exists_resolve?_iff depth).mpr reachable
  have least := slot.deepest_add_gain
  have most := slot.gain_le_one
  by_cases fits : depth + slot.gain ≤ 1024
  · obtain ⟨events, emits, _⟩ := emits_upToSlot resolved fits
    rw [Sample.stackMarker, List.append_cons]
    apply compile_eq_error_of_emits emits
    intro items
    have full : depth + slot.gain + 1 = 1024 + 1 := by omega
    rw [Directive.flatten]
    exact emitOp_overflow rfl (Nat.zero_le _) full items
  · obtain ⟨events, marked, _⟩ := emits_marking room
    apply compile_eq_error_of_emits marked
    intro items
    have full : depth - op.pops + op.pushes = 1024 + 1 := by
      rw [Slot.depth_of_resolve? resolved]
      omega
    rw [Directive.flatten, bind_eq_error]
    exact .inr ⟨op, resolve_eq_ok.mpr resolved, emitOp_overflow (isPush_resolved resolved)
      (Slot.pops_le_of_resolve? resolved) full items⟩

private theorem compile_returns {depth : Nat} {slot : Slot} (reachable : slot.Reachable depth)
    (room : depth ≤ slot.deepest) :
    ∃ code, compile {} (Sample.stackMarker depth slot) = .ok code ∧
      ∀ calldata, Concludes code calldata (.ok #[UInt8.ofNat (slot.position depth % 256)]) := by
  obtain ⟨op, resolved⟩ := (slot.exists_resolve?_iff depth).mpr reachable
  have most := slot.deepest_add_gain
  have positive : 1 ≤ depth := by
    cases slot <;> simp only [Slot.Reachable] at reachable <;> omega
  obtain ⟨below, count⟩ : ∃ below, below + 1 = depth + slot.gain :=
    ⟨depth + slot.gain - 1, by omega⟩
  obtain ⟨code, compiled, width, placed⟩ := exists_compiled resolved count (by omega)
  exact ⟨code, compiled, concludes_position placed resolved (by omega)⟩

end StackMarker

/-- At every depth and for every slot, what is returned is the mark of the word that the slot names,
and what is refused is refused for the first of three reasons. -/
theorem stackMarker_returns_mark (depth : Nat) (slot : Slot) : ReturnsMark depth slot where
  deep := StackMarker.compile_deep slot
  unreachable := StackMarker.compile_unreachable
  crowded := StackMarker.compile_crowded
  returns reachable room := by
    obtain ⟨code, compiled, concludes⟩ := StackMarker.compile_returns reachable room
    refine ⟨code, compiled, _, ?_, concludes⟩
    rw [UInt8.toNat_ofNat', Nat.mod_mod]

end StackAssembler

import Mathlib.Data.List.Induction
import StackAssembler.Proofs.Assembly.Placement
import StackAssembler.Proofs.Assembly.Symbols
import StackAssembler.Proofs.Machine.Boundary
import StackAssembler.Machine.Step
import StackAssembler.Sample

set_option autoImplicit false
set_option relaxedAutoImplicit false

namespace StackAssembler

open Assembly Machine

namespace Assembly

namespace Placed

variable {width : Nat} {items : List Item} {code : Bytes}

private theorem boundary_of_parts (placed : Placed width items code) {before after : List Item}
    (parts : items = before ++ after) : Boundary code (extent width before) := by
  induction before using List.reverseRecOn generalizing after with
  | nil => exact .zero
  | append_singleton before item ih =>
      have inside : items = before ++ item :: after := by
        rw [parts, List.append_assoc, List.singleton_append]
      have start := ih inside
      have next := start.next_opcode (placed.fetched inside)
      have size := placed.encodedLength_opcode
        (inside ▸ List.mem_append_right _ List.mem_cons_self : item ∈ items)
      rw [size] at next
      simpa using next

theorem boundary_iff (placed : Placed width items code) (i : Nat) :
    Boundary code i ↔ ∃ before after, items = before ++ after ∧ i = extent width before := by
  constructor
  · intro boundary
    induction boundary with
    | zero => exact ⟨[], items, rfl, rfl⟩
    | @next i byte _ found ih =>
        obtain ⟨before, after, parts, rfl⟩ := ih
        cases after with
        | nil =>
            rw [List.append_nil] at parts
            rw [← parts, placed.fetched_none] at found
            cases found
        | cons item rest =>
            have first := placed.fetched parts
            rw [found] at first
            cases first
            have size := placed.encodedLength_opcode
              (parts ▸ List.mem_append_right _ List.mem_cons_self : item ∈ items)
            refine ⟨before ++ [item], rest, by rw [parts]; simp, ?_⟩
            rw [Nat.add_assoc, operandLength_toByte, size]
            simp
  · rintro ⟨before, after, parts, rfl⟩
    exact placed.boundary_of_parts parts

theorem landing_iff (placed : Placed width items code) (i : Nat) :
    (landings code)[i]? = some true ↔ ∃ before item after, items = before ++ item :: after ∧
      i = extent width before ∧ (item = .op .jumpdest ∨ ∃ name, item = .label name) := by
  rw [landings_eq_true_iff, placed.boundary_iff]
  constructor
  · rintro ⟨⟨before, after, parts, rfl⟩, found⟩
    cases after with
    | nil =>
        rw [List.append_nil] at parts
        rw [← parts, placed.fetched_none] at found
        cases found
    | cons item rest =>
        rw [placed.fetched parts, Option.some.injEq, Opcode.toByte_inj] at found
        refine ⟨before, item, rest, parts, rfl, ?_⟩
        cases item with
        | op opcode => exact .inl (congrArg Item.op found)
        | label name => exact .inr ⟨name, rfl⟩
        | push immediate => cases found
        | pushLabel name => cases found
  · rintro ⟨before, item, after, parts, rfl, kind⟩
    refine ⟨⟨before, item :: after, parts, rfl⟩, ?_⟩
    rw [placed.fetched parts]
    rcases kind with rfl | ⟨name, rfl⟩
    · rfl
    · rfl

theorem word_of_pushLabel (placed : Placed width items code) {before after front back : List Item}
    {name : String} (parts : items = before ++ .pushLabel name :: after)
    (declared : items = front ++ .label name :: back) :
    (Word.ofBytes (code.window (extent width before + 1) width)).toNat = extent width front := by
  have operand := placed.operand_eq parts
  rw [Item.operand, BigEndian.length_encode, placed.labelPosition_eq declared] at operand
  obtain ⟨front', back', declared', fits⟩ :=
    placed.exists_label (parts ▸ List.mem_append_right _ List.mem_cons_self)
  have same : extent width front' = extent width front := by
    rw [← placed.labelPosition_eq declared', placed.labelPosition_eq declared]
  rw [same] at fits
  have short : (code.window (extent width before + 1) width).size ≤ 32 := by
    rw [Bytes.size_window]
    exact placed.legal.2
  rw [Word.toNat_ofBytes short, operand, BigEndian.decode_encode, Nat.mod_eq_of_lt fits]

end Placed

end Assembly

/-- The labels of a program in its code, label pushes carrying `width` bytes. -/
structure LabelsResolved (program : Program) (width : Nat) (items : List Item) (code : Bytes) :
    Prop where
  /-- Labels are declared and pushed as the tree says, however deep. -/
  symbols : items.filterMap Item.symbol? = (nodesOf program).filterMap Directive.symbol?
  /-- As many bytes stand before a label as the table of offsets says, and a `JUMPDEST` follows. -/
  declared : ∀ before name after, items = before ++ .label name :: after →
    code[extent width before]? = some (Opcode.toByte .jumpdest) ∧
      ∃ chunks, before.mapM (Item.assemble width (labelOffsets width 0 items)) = .ok chunks ∧
        chunks.flatten.length = extent width before ∧
        (labelOffsets width 0 items).lookup name = some (extent width before)
  /-- A push holds the offset of the one declaration, and jumping there succeeds. -/
  pushed : ∀ before name after, items = before ++ .pushLabel name :: after →
    items.count (.label name) = 1 ∧ ∃ front back, items = front ++ .label name :: back ∧
      extent width front < 256 ^ width ∧
      code[extent width before]? = (Opcode.push? width).map Opcode.toByte ∧
      code.window (extent width before + 1) width =
        (BigEndian.encode width (extent width front)).toArray ∧
      ∀ (site : Site) (calldata : Bytes) (s : State),
        site.jump (.of code calldata) (Word.ofBytes (code.window (extent width before + 1) width)) s =
          .ok () { s with pc := extent width front }
  landings : ∀ i, (landings code)[i]? = some true ↔
    ∃ before item after, items = before ++ item :: after ∧ i = extent width before ∧
      (item = .op .jumpdest ∨ ∃ name, item = .label name)

private theorem jump_of_pushLabel {width : Nat} {items before after front back : List Item}
    {code : Bytes} {name : String} (placed : Placed width items code)
    (parts : items = before ++ .pushLabel name :: after)
    (declared : items = front ++ .label name :: back) (site : Site) (calldata : Bytes) (s : State) :
    site.jump (.of code calldata) (Word.ofBytes (code.window (extent width before + 1) width)) s =
      .ok () { s with pc := extent width front } := by
  have target := placed.word_of_pushLabel parts declared
  have marked : (landings code)[extent width front]? = some true :=
    (placed.landing_iff _).mpr ⟨front, _, back, declared, rfl, .inr ⟨name, rfl⟩⟩
  rw [← target] at marked
  rw [Site.jump, Env.marks_of, if_pos marked, target]

/-- Assembled code has every label where its pushes say, and lets jumps land there. -/
theorem compile_labels_resolved {options : Options} {program : Program} {code : Bytes}
    (compiled : compile options program = .ok code) :
    ∃ listing width, program.flatten options.stackLimit = .ok listing ∧
      labelWidth options.labelWidth listing.items.toList = .ok width ∧
      LabelsResolved program width listing.items.toList code := by
  obtain ⟨events, final, width, emits, chosen, placed⟩ := compile_eq_ok compiled
  have flat : program.flatten options.stackLimit = .ok ⟨final, (emitted events).toArray⟩ :=
    Program.flatten_eq_ok.mpr ⟨events, emits, rfl⟩
  refine ⟨_, width, flat, chosen, emits.symbols, ?_, ?_, placed.landing_iff⟩
  · intro before name after parts
    obtain ⟨chunks, assembled, length⟩ := placed.chunks_before parts
    exact ⟨placed.fetched parts, chunks, assembled, length, placed.lookup_label parts⟩
  · intro before name after parts
    obtain ⟨front, back, declared, fits⟩ :=
      placed.exists_label (parts ▸ List.mem_append_right _ List.mem_cons_self)
    have operand := placed.operand_eq parts
    rw [Item.operand, BigEndian.length_encode, placed.labelPosition_eq declared] at operand
    refine ⟨placed.count_label declared, front, back, declared, fits, ?_, operand, ?_⟩
    · rw [placed.push?_width name]
      exact placed.fetched parts
    · exact jump_of_pushLabel placed parts declared

theorem compile_labels_resolved_hashOrEcho :
    ∃ code, compile { labelWidth := some 2 } Sample.hashOrEcho = .ok code ∧
      ∃ listing width, Program.flatten stackLimit Sample.hashOrEcho = .ok listing ∧
        labelWidth (some 2) listing.items.toList = .ok width ∧
        LabelsResolved Sample.hashOrEcho width listing.items.toList code := by
  have compiled : compile { labelWidth := some 2 } Sample.hashOrEcho =
      .ok #[96, 1, 54, 3, 128, 96, 1, 95, 55, 95, 53, 96, 248, 28, 97, 0, 21, 87, 91, 95, 243, 91,
        95, 32, 95, 82, 96, 32, 97, 0, 18, 86] := by decide +kernel
  have resolved := compile_labels_resolved compiled
  exact ⟨_, compiled, resolved⟩

end StackAssembler

import StackAssembler.Proofs.Assembly.Placement

set_option autoImplicit false
set_option relaxedAutoImplicit false

namespace StackAssembler

namespace Disassembly

/-- An instruction as it stands in the code, with all bytes of its operand. -/
structure Entry where
  opcode : Opcode
  operand : List UInt8
  complete : operand.length = opcode.immediateLength
  deriving DecidableEq

def Entry.bytes (entry : Entry) : List UInt8 :=
  entry.opcode.toByte :: entry.operand

/-- The instructions that the bytes spell from the first to the last. -/
def entries? (bytes : List UInt8) : Option (List Entry) :=
  match bytes with
  | [] => some []
  | byte :: rest =>
      match Opcode.ofByte? byte with
      | none => none
      | some opcode =>
          if inside : opcode.immediateLength ≤ rest.length then
            (entries? (rest.drop opcode.immediateLength)).map
              (⟨opcode, rest.take opcode.immediateLength, List.length_take_of_le inside⟩ :: ·)
          else none
termination_by bytes.length
decreasing_by
  rw [List.length_drop, List.length_cons]
  omega

private theorem entries?_flatMap (entries : List Entry) :
    entries? (entries.flatMap Entry.bytes) = some entries := by
  induction entries with
  | nil => rw [List.flatMap_nil, entries?]
  | cons entry rest ih =>
      obtain ⟨opcode, operand, complete⟩ := entry
      have spelt : (⟨opcode, operand, complete⟩ :: rest : List Entry).flatMap Entry.bytes =
          opcode.toByte :: (operand ++ rest.flatMap Entry.bytes) := rfl
      have inside : operand.length ≤ (operand ++ rest.flatMap Entry.bytes).length := by
        rw [List.length_append]
        omega
      rw [spelt, entries?, Opcode.ofByte?_toByte]
      simp only [← complete, List.drop_left, List.take_left, ih, Option.map_some]
      exact dif_pos inside

private theorem flatMap_of_entries? {bytes : List UInt8} {entries : List Entry}
    (read : entries? bytes = some entries) : entries.flatMap Entry.bytes = bytes := by
  fun_induction entries? bytes generalizing entries with
  | case1 =>
      cases read
      rfl
  | case2 byte rest unassigned => cases read
  | case3 byte rest opcode assigned inside ih =>
      obtain ⟨others, remaining, rfl⟩ := Option.map_eq_some_iff.mp read
      rw [List.flatMap_cons, ih remaining, Entry.bytes, Opcode.toByte_of_ofByte? assigned,
        List.cons_append, List.take_append_drop]
  | case4 byte rest opcode assigned short => cases read

theorem entries?_eq_some_iff {bytes : List UInt8} {entries : List Entry} :
    entries? bytes = some entries ↔ entries.flatMap Entry.bytes = bytes := by
  constructor
  · exact flatMap_of_entries?
  · rintro rfl
    exact entries?_flatMap entries

end Disassembly

open Assembly Disassembly

namespace Assembly

/-- How an item is read back when label pushes carry `width` bytes. -/
inductive Item.ReadsAs (width : Nat) : Item → Entry → Prop
  | op {opcode : Opcode} {complete} :
      opcode.isPush = false → ReadsAs width (.op opcode) ⟨opcode, [], complete⟩
  | push {immediate : Immediate} {opcode : Opcode} {complete} :
      Opcode.push? immediate.bytes.length = some opcode →
      ReadsAs width (.push immediate) ⟨opcode, immediate.bytes, complete⟩
  | pushLabel {name : String} {opcode : Opcode} {operand : List UInt8} {complete} :
      Opcode.push? width = some opcode → operand.length = width →
      ReadsAs width (.pushLabel name) ⟨opcode, operand, complete⟩
  | label {name : String} {complete} : ReadsAs width (.label name) ⟨.jumpdest, [], complete⟩

def Item.immediate? : Item → Option Immediate
  | .push immediate => some immediate
  | _ => none

def Directive.constant? : Directive → Option Constant
  | .push value => some value
  | _ => none

private theorem immediates_of_paired {nodes : List Directive} {events : List Event}
    (paired : List.Forall₂ Directive.Causes nodes events) :
    (nodes.filterMap Directive.constant?).mapM Constant.encode =
      .ok ((emitted events).filterMap Item.immediate?) := by
  induction paired with
  | nil => rfl
  | @cons node event nodes events causes _ ih =>
      cases causes with
      | @push value immediate depth encoded =>
          have constants : (Directive.push value :: nodes).filterMap Directive.constant? =
              value :: nodes.filterMap Directive.constant? := rfl
          rw [constants, List.mapM_cons, encoded, ih]
          rfl
      | _ => exact ih

theorem Program.Emits.immediates {program : Program} {t u : StackDepth} {events : List Event}
    (emits : program.Emits t events u) :
    ((nodesOf program).filterMap Directive.constant?).mapM Constant.encode =
      .ok ((emitted events).filterMap Item.immediate?) := by
  rw [← immediates_of_paired emits.paired, filterMap_sources fun _ => rfl]

namespace Placed

variable {width : Nat} {items : List Item} {code : Bytes}

private theorem exists_entry {item : Item} (placed : Placed width items code)
    (member : item ∈ items) (position : String → Nat) :
    ∃ entry, item.ReadsAs width entry ∧
      entry.bytes = (item.opcode width).toByte :: item.operand width position := by
  cases item with
  | op opcode =>
      have plain := placed.plain opcode member
      have complete : ([] : List UInt8).length = opcode.immediateLength :=
        (Opcode.immediateLength_eq_zero plain).symm
      exact ⟨⟨opcode, [], complete⟩, .op plain, rfl⟩
  | push immediate =>
      have nonempty := immediate.nonempty
      have complete : immediate.bytes.length = immediate.opcode.immediateLength :=
        (Nat.sub_add_cancel nonempty).symm
      have chosen : Opcode.push? immediate.bytes.length = some immediate.opcode :=
        dif_pos ⟨nonempty, immediate.fits⟩
      exact ⟨⟨immediate.opcode, immediate.bytes, complete⟩, .push chosen, rfl⟩
  | pushLabel name =>
      have legal := placed.legal
      have length : (BigEndian.encode width (position name)).length = width :=
        BigEndian.length_encode _ _
      have complete : (BigEndian.encode width (position name)).length =
          (Item.opcode width (.pushLabel name)).immediateLength := by
        rw [length]
        simp only [Item.opcode, Opcode.immediateLength]
        omega
      exact ⟨⟨_, _, complete⟩, .pushLabel (placed.push?_width name) length, rfl⟩
  | label name => exact ⟨⟨.jumpdest, [], rfl⟩, .label, rfl⟩

private theorem exists_entries {part : List Item} {chunks : List (List UInt8)}
    (placed : Placed width items code) (inside : part ⊆ items)
    (assembled : part.mapM (Item.assemble width (labelOffsets width 0 items)) = .ok chunks) :
    ∃ entries, List.Forall₂ (Item.ReadsAs width) part entries ∧
      entries.flatMap Entry.bytes = chunks.flatten := by
  induction part generalizing chunks with
  | nil =>
      cases assembled
      exact ⟨[], .nil, rfl⟩
  | cons item rest ih =>
      rw [List.mapM_cons] at assembled
      obtain ⟨chunk, first, assembled⟩ := bind_eq_ok.mp assembled
      obtain ⟨others, remaining, assembled⟩ := bind_eq_ok.mp assembled
      cases assembled
      obtain ⟨entry, reads, bytes⟩ := placed.exists_entry (inside List.mem_cons_self)
        (labelPosition width items)
      obtain ⟨entries, all, spelt⟩ := ih (List.subset_of_cons_subset inside) remaining
      refine ⟨entry :: entries, .cons reads all, ?_⟩
      rw [List.flatMap_cons, List.flatten_cons, bytes, spelt, placed.assemble_eq first]

theorem entries_eq (placed : Placed width items code) :
    ∃ entries, entries? code.toList = some entries ∧
      List.Forall₂ (Item.ReadsAs width) items entries := by
  have assembled := placed.assembled
  unfold assembleItems at assembled
  obtain ⟨chunks, mapped, same⟩ := bind_eq_ok.mp assembled
  cases same
  obtain ⟨entries, all, spelt⟩ := placed.exists_entries (List.Subset.refl _) mapped
  exact ⟨entries, entries?_eq_some_iff.mpr spelt, all⟩

end Placed

end Assembly

structure DisassemblesTo (program : Program) (width : Nat) (items : List Item) (code : Bytes)
    (entries : List Entry) : Prop where
  /-- Reading meets the end of the code and no obstacle before it. -/
  read : entries? code.toList = some entries
  itemwise : List.Forall₂ (Item.ReadsAs width) items entries
  constants : ((nodesOf program).filterMap Directive.constant?).mapM Constant.encode =
    .ok (items.filterMap Item.immediate?)
  size : code.size = extent width items

/-- Assembled code is read back as the listing it was assembled from. -/
theorem compile_disassembles {options : Options} {program : Program} {code : Bytes}
    (compiled : compile options program = .ok code) :
    ∃ listing width entries, program.flatten options.stackLimit = .ok listing ∧
      labelWidth options.labelWidth listing.items.toList = .ok width ∧
      DisassemblesTo program width listing.items.toList code entries := by
  obtain ⟨events, final, width, emits, chosen, placed⟩ := compile_eq_ok compiled
  have flat : program.flatten options.stackLimit = .ok ⟨final, (emitted events).toArray⟩ :=
    Program.flatten_eq_ok.mpr ⟨events, emits, rfl⟩
  obtain ⟨entries, read, itemwise⟩ := placed.entries_eq
  exact ⟨_, width, entries, flat, chosen, read, itemwise, emits.immediates, placed.size_eq⟩

/-- A constant whose bytes would be opcodes if they were not an operand, and a push of a label that
is declared behind it. -/
def disguised : Program :=
  [.push (.bytes [0x5b, 0x7f]), .pushLabel "end", .op .jump, .label "end"]

theorem compile_disassembles_disguised :
    ∃ code, compile { labelWidth := some 3 } disguised = .ok code ∧
      ∃ listing width entries, disguised.flatten stackLimit = .ok listing ∧
        labelWidth (some 3) listing.items.toList = .ok width ∧
        DisassemblesTo disguised width listing.items.toList code entries := by
  have compiled : compile { labelWidth := some 3 } disguised =
      .ok #[0x61, 0x5b, 0x7f, 0x62, 0, 0, 8, 0x56, 0x5b] := by decide +kernel
  exact ⟨_, compiled, compile_disassembles compiled⟩

end StackAssembler

import Mathlib.Data.List.Nodup
import StackAssembler.Proofs.Assembly.Emission
import StackAssembler.Proofs.Assembly.Operand

set_option autoImplicit false
set_option relaxedAutoImplicit false

namespace StackAssembler.Assembly

/-- Bytes of items whose label pushes carry `width` bytes. -/
def extent (width : Nat) : List Item → Nat
  | [] => 0
  | item :: rest => item.size width + extent width rest

@[simp] theorem extent_nil (width : Nat) : extent width [] = 0 := rfl

@[simp] theorem extent_cons (width : Nat) (item : Item) (items : List Item) :
    extent width (item :: items) = item.size width + extent width items := rfl

@[simp] theorem extent_append (width : Nat) (first second : List Item) :
    extent width (first ++ second) = extent width first + extent width second := by
  induction first with
  | nil => simp
  | cons item rest ih => simp [ih, Nat.add_assoc]

private theorem firstRepeated_eq_none (seen names : List String) :
    firstRepeated seen names = none ↔ names.Nodup ∧ ∀ name ∈ names, name ∉ seen := by
  induction names generalizing seen with
  | nil => simp [firstRepeated]
  | cons name rest ih =>
      rw [firstRepeated]
      split
      · simp_all
      · rw [ih, List.nodup_cons, List.forall_mem_cons]
        grind

theorem checkDistinct_eq_ok {items : List Item} :
    checkDistinct items = .ok () ↔ (items.filterMap Item.declares?).Nodup := by
  have nodup := firstRepeated_eq_none [] (items.filterMap Item.declares?)
  unfold checkDistinct
  cases repeated : firstRepeated [] (items.filterMap Item.declares?) with
  | none => simpa [repeated] using nodup
  | some name => simpa [repeated] using nodup

theorem growWidth_bounds (items : List Item) (width : Nat) (legal : 1 ≤ width ∧ width ≤ 32) :
    1 ≤ growWidth items width ∧ growWidth items width ≤ 32 := by
  fun_induction growWidth items width with
  | case1 width needed settled => exact legal
  | case2 width needed short ih =>
      exact ih ⟨by omega, minimalWidth_le _⟩

theorem labelWidth_legal {given : Option Nat} {items : List Item} {width : Nat}
    (chosen : labelWidth given items = .ok width) : 1 ≤ width ∧ width ≤ 32 := by
  unfold labelWidth at chosen
  split at chosen
  · split at chosen
    · cases chosen
      assumption
    · cases chosen
  · obtain ⟨_, _, same⟩ := bind_eq_ok.mp chosen
    cases same
    exact growWidth_bounds items 1 (by decide)

/-- Items that were assembled into the code with label pushes of the given width. -/
structure Placed (width : Nat) (items : List Item) (code : Bytes) : Prop where
  legal : 1 ≤ width ∧ width ≤ 32
  plain : ∀ opcode, Item.op opcode ∈ items → opcode.isPush = false
  distinct : (items.filterMap Item.declares?).Nodup
  assembled : assembleItems width items = .ok code

theorem compile_eq_ok {options : Options} {program : Program} {code : Bytes}
    (compiled : compile options program = .ok code) :
    ∃ events final width, program.Emits { limit := options.stackLimit } events final ∧
      labelWidth options.labelWidth (emitted events) = .ok width ∧
      Placed width (emitted events) code := by
  unfold compile at compiled
  obtain ⟨listing, flat, compiled⟩ := bind_eq_ok.mp compiled
  obtain ⟨events, emits, same⟩ := Program.flatten_eq_ok.mp flat
  rw [same] at compiled
  obtain ⟨width, chosen, compiled⟩ := bind_eq_ok.mp compiled
  obtain ⟨_, distinct, assembled⟩ := bind_eq_ok.mp compiled
  refine ⟨events, listing.tracker, width, emits, chosen, labelWidth_legal chosen, ?_,
    checkDistinct_eq_ok.mp distinct, assembled⟩
  intro opcode member
  obtain ⟨event, inside, emitted⟩ := List.mem_filterMap.mp member
  obtain ⟨node, _, causes⟩ := emits.caused event inside
  cases causes with
  | op plain => cases emitted; exact plain
  | call plain => cases emitted; exact plain
  | inverted _ plain => cases emitted; exact plain
  | push _ => cases emitted
  | pushLabel => cases emitted
  | label => cases emitted
  | setDepth => cases emitted

@[simp] theorem mem_declared {items : List Item} {name : String} :
    name ∈ items.filterMap Item.declares? ↔ .label name ∈ items := by
  rw [List.mem_filterMap]
  constructor
  · rintro ⟨item, member, declares⟩
    cases item with
    | label declared => exact Option.some.inj declares ▸ member
    | _ => cases declares
  · intro member
    exact ⟨_, member, rfl⟩

theorem map_fst_labelOffsets (width offset : Nat) (items : List Item) :
    (labelOffsets width offset items).map Prod.fst = items.filterMap Item.declares? := by
  induction items generalizing offset with
  | nil => rfl
  | cons item rest ih =>
      cases item with
      | label name => exact congrArg (name :: ·) (ih _)
      | _ => exact ih _

theorem mem_labelOffsets {width offset position : Nat} {items : List Item} {name : String} :
    (name, position) ∈ labelOffsets width offset items ↔
      ∃ before after, items = before ++ .label name :: after ∧
        position = offset + extent width before := by
  induction items generalizing offset with
  | nil => simp [labelOffsets]
  | cons item rest ih =>
      have decompose : (∃ before after, item :: rest = before ++ .label name :: after ∧
          position = offset + extent width before) ↔
          (item = .label name ∧ position = offset) ∨
          ∃ before after, rest = before ++ .label name :: after ∧
            position = offset + item.size width + extent width before := by
        constructor
        · rintro ⟨before, after, same, rfl⟩
          rcases List.cons_eq_append_iff.mp same with ⟨rfl, same⟩ | ⟨before, rfl, same⟩
          · exact .inl ⟨(List.cons.inj same).1, rfl⟩
          · exact .inr ⟨before, after, (List.cons.inj same).2, by rw [extent_cons]; omega⟩
        · rintro (⟨rfl, rfl⟩ | ⟨before, after, rfl, rfl⟩)
          · exact ⟨[], rest, rfl, rfl⟩
          · exact ⟨item :: before, after, rfl, by rw [extent_cons]; omega⟩
      rw [decompose]
      cases item with
      | label declared =>
          have table : labelOffsets width offset (.label declared :: rest) =
              (declared, offset) :: labelOffsets width (offset + (Item.label declared).size width) rest :=
            rfl
          rw [table, List.mem_cons, ih, Prod.mk.injEq, Item.label.injEq, eq_comm (a := name)]
      | _ => exact ih.trans (by simp)

theorem lookup_labelOffsets {width offset position : Nat} {items : List Item} {name : String}
    (distinct : (items.filterMap Item.declares?).Nodup) :
    (labelOffsets width offset items).lookup name = some position ↔
      ∃ before after, items = before ++ .label name :: after ∧
        position = offset + extent width before := by
  rw [← mem_labelOffsets, List.lookup_eq_some_iff]
  constructor
  · rintro ⟨front, back, same, _⟩
    rw [same]
    exact List.mem_append_right _ List.mem_cons_self
  · intro member
    obtain ⟨front, back, same⟩ := List.append_of_mem member
    refine ⟨front, back, same, ?_⟩
    rw [← map_fst_labelOffsets width offset, same, List.map_append, List.map_cons,
      List.nodup_middle, List.nodup_cons] at distinct
    intro entry inside
    rw [bne_iff_ne]
    intro repeated
    have again : name ∈ front.map Prod.fst := repeated ▸ List.mem_map_of_mem inside
    exact distinct.1 (List.mem_append_left _ again)

theorem lookup_declared {width : Nat} {items before after : List Item} {name : String}
    (distinct : (items.filterMap Item.declares?).Nodup)
    (parts : items = before ++ .label name :: after) :
    (labelOffsets width 0 items).lookup name = some (extent width before) := by
  rw [lookup_labelOffsets distinct]
  exact ⟨before, after, parts, (Nat.zero_add _).symm⟩

theorem lookup_labelOffsets_eq_none {width offset : Nat} {items : List Item} {name : String} :
    (labelOffsets width offset items).lookup name = none ↔ .label name ∉ items := by
  rw [List.lookup_eq_none_iff, ← mem_declared, ← map_fst_labelOffsets width offset, List.mem_map]
  simp only [bne_iff_ne, not_exists, not_and]
  exact ⟨fun differ entry member same => differ entry member same.symm,
    fun differ entry member same => differ entry member same.symm⟩

def labelPosition (width : Nat) (items : List Item) (name : String) : Nat :=
  ((labelOffsets width 0 items).lookup name).getD 0

def Item.opcode (width : Nat) : Item → Opcode
  | .op opcode => opcode
  | .push immediate => immediate.opcode
  | .pushLabel _ => .push ⟨(width - 1) % 32, Nat.mod_lt _ (by decide)⟩
  | .label _ => .jumpdest

theorem Item.pops_opcode (width : Nat) (item : Item) : (item.opcode width).pops = item.pops := by
  cases item <;> rfl

theorem Item.pushes_opcode (width : Nat) (item : Item) :
    (item.opcode width).pushes = item.pushes := by
  cases item <;> rfl

/-- The bytes that follow the opcode of an item, given the offsets of labels. -/
def Item.operand (width : Nat) (position : String → Nat) : Item → List UInt8
  | .push immediate => immediate.bytes
  | .pushLabel name => BigEndian.encode width (position name)
  | _ => []

theorem padded?_eq_some {value width : Nat} {immediate : Immediate}
    (padded : Immediate.padded? value width = some immediate) :
    immediate.bytes = BigEndian.encode width value ∧ value < 256 ^ width := by
  obtain ⟨_, fits, bytes⟩ := Immediate.padded?_eq_some_iff.mp padded
  exact ⟨bytes, fits⟩

theorem assembleLabelPush_eq_ok {width : Nat} {table : List (String × Nat)} {name : String}
    {chunk : List UInt8} :
    assembleLabelPush width table name = .ok chunk ↔ ∃ offset immediate,
      table.lookup name = some offset ∧ Immediate.padded? offset width = some immediate ∧
        chunk = immediate.assemble := by
  unfold assembleLabelPush
  cases table.lookup name with
  | none => simp
  | some offset =>
      cases padded : Immediate.padded? offset width with
      | none => simp [padded]
      | some immediate => simp [padded, eq_comm]

namespace Placed

variable {width : Nat} {items : List Item} {code : Bytes}

private theorem push_opcode {immediate : Immediate} (placed : Placed width items code)
    (length : immediate.bytes.length = width) (name : String) :
    immediate.opcode = Item.opcode width (.pushLabel name) := by
  have legal := placed.legal
  have inside : (width - 1) % 32 = width - 1 := Nat.mod_eq_of_lt (by omega)
  simp only [Immediate.opcode, Item.opcode, length, inside]

theorem push?_width (placed : Placed width items code) (name : String) :
    Opcode.push? width = some (Item.opcode width (.pushLabel name)) := by
  have legal := placed.legal
  have inside : (width - 1) % 32 = width - 1 := Nat.mod_eq_of_lt (by omega)
  rw [Opcode.push?, dif_pos legal]
  simp only [Item.opcode, inside]

theorem assemble_eq {item : Item} {chunk : List UInt8} (placed : Placed width items code)
    (assembled : item.assemble width (labelOffsets width 0 items) = .ok chunk) :
    chunk = (item.opcode width).toByte :: item.operand width (labelPosition width items) := by
  cases item with
  | op opcode => cases assembled; rfl
  | push immediate => cases assembled; rfl
  | label name => cases assembled; rfl
  | pushLabel name =>
      obtain ⟨offset, immediate, found, padded, rfl⟩ := assembleLabelPush_eq_ok.mp assembled
      have bytes := (padded?_eq_some padded).1
      have length : immediate.bytes.length = width := by
        rw [bytes, BigEndian.length_encode]
      have position : labelPosition width items name = offset := by
        rw [labelPosition, found, Option.getD_some]
      rw [Immediate.assemble, placed.push_opcode length name, bytes, Item.operand, position]

private theorem length_operand {item : Item} (placed : Placed width items code)
    (member : item ∈ items) (position : String → Nat) :
    1 + (item.operand width position).length = item.size width := by
  cases item with
  | op opcode =>
      have none := Opcode.immediateLength_eq_zero (placed.plain opcode member)
      simp [Item.operand, Item.size, Opcode.encodedLength, none]
  | push immediate => rfl
  | label name => rfl
  | pushLabel name => simp [Item.operand, Item.size]

private theorem length_chunks (placed : Placed width items code) {part : List Item}
    {chunks : List (List UInt8)} (inside : part ⊆ items)
    (assembled : part.mapM (Item.assemble width (labelOffsets width 0 items)) = .ok chunks) :
    chunks.flatten.length = extent width part := by
  induction part generalizing chunks with
  | nil =>
      cases assembled
      rfl
  | cons item rest ih =>
      rw [List.mapM_cons] at assembled
      obtain ⟨chunk, first, assembled⟩ := bind_eq_ok.mp assembled
      obtain ⟨others, remaining, assembled⟩ := bind_eq_ok.mp assembled
      cases assembled
      have head := placed.assemble_eq first
      have length := placed.length_operand (inside List.mem_cons_self) (labelPosition width items)
      rw [List.flatten_cons, List.length_append, extent_cons, head,
        ih (List.subset_of_cons_subset inside) remaining, List.length_cons]
      omega

private theorem chunks_of_stretch {before part after : List Item} (placed : Placed width items code)
    (parts : items = before ++ (part ++ after)) :
    ∃ heads chunks tails, code.toList = heads.flatten ++ chunks.flatten ++ tails.flatten ∧
      before.mapM (Item.assemble width (labelOffsets width 0 items)) = .ok heads ∧
      part.mapM (Item.assemble width (labelOffsets width 0 items)) = .ok chunks ∧
      after.mapM (Item.assemble width (labelOffsets width 0 items)) = .ok tails := by
  have assembled := placed.assembled
  unfold assembleItems at assembled
  obtain ⟨whole, mapped, same⟩ := bind_eq_ok.mp assembled
  cases same
  have pieces : (before ++ (part ++ after)).mapM
      (Item.assemble width (labelOffsets width 0 items)) = .ok whole := by
    rw [← parts, mapped]
  rw [List.mapM_append] at pieces
  obtain ⟨heads, first, pieces⟩ := bind_eq_ok.mp pieces
  obtain ⟨others, second, pieces⟩ := bind_eq_ok.mp pieces
  cases pieces
  rw [List.mapM_append] at second
  obtain ⟨chunks, middle, second⟩ := bind_eq_ok.mp second
  obtain ⟨tails, third, second⟩ := bind_eq_ok.mp second
  cases second
  exact ⟨heads, chunks, tails, by simp, first, middle, third⟩

theorem split_stretch {before part after : List Item} (placed : Placed width items code)
    (parts : items = before ++ (part ++ after)) :
    ∃ head chunks tail, code.toList = head ++ chunks.flatten ++ tail ∧
      head.length = extent width before ∧
      part.mapM (Item.assemble width (labelOffsets width 0 items)) = .ok chunks ∧
      chunks.flatten.length = extent width part := by
  obtain ⟨heads, chunks, tails, bytes, first, middle, _⟩ := placed.chunks_of_stretch parts
  refine ⟨heads.flatten, chunks, tails.flatten, bytes, placed.length_chunks ?_ first, middle,
    placed.length_chunks ?_ middle⟩
  · rw [parts]
    exact List.subset_append_left _ _
  · rw [parts]
    exact fun item member => List.mem_append_right _ (List.mem_append_left _ member)

private theorem chunks_of_parts {before after : List Item} {item : Item}
    (placed : Placed width items code) (parts : items = before ++ item :: after) :
    ∃ heads chunk tails, code.toList = heads.flatten ++ chunk ++ tails.flatten ∧
      before.mapM (Item.assemble width (labelOffsets width 0 items)) = .ok heads ∧
      item.assemble width (labelOffsets width 0 items) = .ok chunk ∧
      after.mapM (Item.assemble width (labelOffsets width 0 items)) = .ok tails := by
  have stretch : items = before ++ ([item] ++ after) := parts
  obtain ⟨heads, chunks, tails, bytes, first, single, third⟩ := placed.chunks_of_stretch stretch
  rw [List.mapM_cons, List.mapM_nil] at single
  obtain ⟨chunk, assembled, single⟩ := bind_eq_ok.mp single
  cases single
  rw [List.flatten_singleton] at bytes
  exact ⟨heads, chunk, tails, bytes, first, assembled, third⟩

theorem split {before after : List Item} {item : Item} (placed : Placed width items code)
    (parts : items = before ++ item :: after) :
    ∃ head tail, code.toList = head ++ ((item.opcode width).toByte ::
        item.operand width (labelPosition width items)) ++ tail ∧
      head.length = extent width before ∧ tail.length = extent width after := by
  obtain ⟨heads, chunk, tails, bytes, first, single, third⟩ := placed.chunks_of_parts parts
  rw [placed.assemble_eq single] at bytes
  refine ⟨heads.flatten, tails.flatten, bytes, placed.length_chunks ?_ first,
    placed.length_chunks ?_ third⟩
  · rw [parts]
    exact List.subset_append_left _ _
  · rw [parts]
    exact fun other member => List.mem_append_right _ (List.mem_cons_of_mem _ member)

theorem size_eq (placed : Placed width items code) : code.size = extent width items := by
  have assembled := placed.assembled
  unfold assembleItems at assembled
  obtain ⟨chunks, mapped, same⟩ := bind_eq_ok.mp assembled
  cases same
  exact placed.length_chunks (List.Subset.refl _) mapped

theorem fetched_none (placed : Placed width items code) : code[extent width items]? = none :=
  Array.getElem?_eq_none (Nat.le_of_eq placed.size_eq)

theorem fetched {before after : List Item} {item : Item} (placed : Placed width items code)
    (parts : items = before ++ item :: after) :
    code[extent width before]? = some (item.opcode width).toByte := by
  obtain ⟨head, tail, bytes, length, _⟩ := placed.split parts
  rw [← Array.getElem?_toList, bytes, ← length, List.append_assoc,
    List.getElem?_append_right (Nat.le_refl _), Nat.sub_self]
  rfl

theorem operand_eq {before after : List Item} {item : Item} (placed : Placed width items code)
    (parts : items = before ++ item :: after) :
    code.window (extent width before + 1) (item.operand width (labelPosition width items)).length =
      (item.operand width (labelPosition width items)).toArray := by
  obtain ⟨head, tail, bytes, length, _⟩ := placed.split parts
  have shifted : code.toList = (head ++ [(item.opcode width).toByte]) ++
      item.operand width (labelPosition width items) ++ tail := by
    rw [bytes]
    simp
  have window := Bytes.window_of_toList shifted
  rwa [List.length_append, List.length_singleton, length] at window

theorem encodedLength_opcode {item : Item} (placed : Placed width items code) (member : item ∈ items) :
    (item.opcode width).encodedLength = item.size width := by
  have legal := placed.legal
  cases item with
  | op opcode => rfl
  | push immediate =>
      have nonempty := immediate.nonempty
      simp only [Item.opcode, Immediate.opcode, Opcode.encodedLength, Opcode.immediateLength,
        Item.size, Immediate.encodedLength, Immediate.width]
      omega
  | label name => rfl
  | pushLabel name =>
      simp only [Item.opcode, Opcode.encodedLength, Opcode.immediateLength, Item.size]
      omega

theorem chunks_before {before after : List Item} {item : Item} (placed : Placed width items code)
    (parts : items = before ++ item :: after) :
    ∃ chunks, before.mapM (Item.assemble width (labelOffsets width 0 items)) = .ok chunks ∧
      chunks.flatten.length = extent width before := by
  obtain ⟨heads, _, _, _, first, _, _⟩ := placed.chunks_of_parts parts
  refine ⟨heads, first, placed.length_chunks ?_ first⟩
  rw [parts]
  exact List.subset_append_left _ _

theorem lookup_label {before after : List Item} {name : String} (placed : Placed width items code)
    (parts : items = before ++ .label name :: after) :
    (labelOffsets width 0 items).lookup name = some (extent width before) :=
  lookup_declared placed.distinct parts

theorem labelPosition_eq {before after : List Item} {name : String}
    (placed : Placed width items code) (parts : items = before ++ .label name :: after) :
    labelPosition width items name = extent width before := by
  rw [labelPosition, placed.lookup_label parts, Option.getD_some]

theorem count_label {before after : List Item} {name : String} (placed : Placed width items code)
    (parts : items = before ++ .label name :: after) : items.count (.label name) = 1 := by
  have names : items.count (.label name) = (items.filterMap Item.declares?).count name := by
    rw [List.count_filterMap, List.count_eq_countP]
    apply List.countP_congr
    intro item _
    cases item <;> simp [Item.declares?]
  have declared : name ∈ items.filterMap Item.declares? := by
    rw [parts]
    simp [Item.declares?]
  rw [names]
  exact List.count_eq_one_of_mem placed.distinct declared

theorem exists_label {name : String} (placed : Placed width items code)
    (member : Item.pushLabel name ∈ items) :
    ∃ before after, items = before ++ .label name :: after ∧ extent width before < 256 ^ width := by
  obtain ⟨front, back, parts⟩ := List.append_of_mem member
  obtain ⟨_, chunk, _, _, _, assembled, _⟩ := placed.chunks_of_parts parts
  obtain ⟨offset, immediate, found, padded, _⟩ := assembleLabelPush_eq_ok.mp assembled
  obtain ⟨before, after, parts, rfl⟩ := (lookup_labelOffsets placed.distinct).mp found
  refine ⟨before, after, parts, ?_⟩
  simpa using (padded?_eq_some padded).2

end Placed

end StackAssembler.Assembly

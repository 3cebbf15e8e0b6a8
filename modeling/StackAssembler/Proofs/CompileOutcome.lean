import StackAssembler.Proofs.Assembly.LabelReach
import StackAssembler.Proofs.Assembly.Walk

set_option autoImplicit false
set_option relaxedAutoImplicit false

namespace StackAssembler.Assembly

def Flattens (options : Options) (program : Program) (items : List Item) : Prop :=
  ∃ listing, program.flatten options.stackLimit = .ok listing ∧ listing.items.toList = items

def LegalWidth (given : Option Nat) : Prop :=
  ∀ width, given = some width → 1 ≤ width ∧ width ≤ 32

section Stages

private theorem firstRepeated_eq_some {seen names : List String} {name : String} :
    firstRepeated seen names = some name ↔ ∃ before after, names = before ++ name :: after ∧
      before.Nodup ∧ (∀ other ∈ before, other ∉ seen) ∧ (name ∈ before ∨ name ∈ seen) := by
  induction names generalizing seen with
  | nil => simp [firstRepeated]
  | cons first rest ih =>
      rw [firstRepeated]
      split
      · rename_i repeated
        constructor
        · intro same
          cases same
          exact ⟨[], rest, rfl, List.nodup_nil, List.forall_mem_nil _, .inr repeated⟩
        · rintro ⟨before, after, parts, _, fresh, _⟩
          cases before with
          | nil =>
              cases parts
              rfl
          | cons head before =>
              cases parts
              exact absurd repeated (fresh _ List.mem_cons_self)
      · rename_i fresh
        rw [ih]
        constructor
        · rintro ⟨before, after, rfl, nodup, apart, again⟩
          refine ⟨first :: before, after, rfl, ?_, ?_, ?_⟩
          · exact List.nodup_cons.mpr
              ⟨fun member => apart first member List.mem_cons_self, nodup⟩
          · exact List.forall_mem_cons.mpr
              ⟨fresh, fun other member => List.not_mem_of_not_mem_cons (apart other member)⟩
          · grind
        · rintro ⟨before, after, parts, nodup, apart, again⟩
          cases before with
          | nil =>
              cases parts
              exact absurd (again.resolve_left List.not_mem_nil) fresh
          | cons head before =>
              cases parts
              exact ⟨before, after, rfl, by grind⟩

theorem checkDistinct_eq_error {items : List Item} {error : Error} :
    checkDistinct items = .error error ↔ ∃ before name after,
      items = before ++ .label name :: after ∧ .label name ∈ before ∧
        (before.filterMap Item.declares?).Nodup ∧ error = .duplicateLabel name := by
  have reported : checkDistinct items = .error error ↔
      ∃ name, firstRepeated [] (items.filterMap Item.declares?) = some name ∧
        error = .duplicateLabel name := by
    unfold checkDistinct
    cases firstRepeated [] (items.filterMap Item.declares?) with
    | none => simp
    | some name => simp [eq_comm]
  rw [reported]
  constructor
  · rintro ⟨name, repeated, rfl⟩
    obtain ⟨early, late, names, nodup, _, again⟩ := firstRepeated_eq_some.mp repeated
    obtain ⟨front, rest, rfl, rfl, behind⟩ := List.filterMap_eq_append_iff.mp names
    obtain ⟨between, item, after, rfl, silent, declares, _⟩ := List.filterMap_eq_cons_iff.mp behind
    -- What stands between the last new name and the repeated one declares nothing.
    have quiet : between.filterMap Item.declares? = [] := List.filterMap_eq_nil_iff.mpr silent
    have whole : (front ++ between).filterMap Item.declares? = front.filterMap Item.declares? := by
      rw [List.filterMap_append, quiet, List.append_nil]
    have label : item = .label name := by
      cases item with
      | label declared => exact congrArg Item.label (Option.some.inj declares)
      | _ => cases declares
    refine ⟨front ++ between, name, after, ?_, ?_, ?_, rfl⟩
    · rw [label, List.append_assoc]
    · rw [← mem_declared, whole]
      exact again.resolve_right List.not_mem_nil
    · rwa [whole]
  · rintro ⟨before, name, after, rfl, again, nodup, rfl⟩
    refine ⟨name, firstRepeated_eq_some.mpr ⟨before.filterMap Item.declares?,
      after.filterMap Item.declares?, ?_, nodup, fun _ _ => List.not_mem_nil,
      .inl (mem_declared.mpr again)⟩, rfl⟩
    rw [List.filterMap_append]
    rfl

theorem labelWidth_eq_ok {given : Option Nat} {items : List Item} {width : Nat} :
    labelWidth given items = .ok width ↔
      LegalWidth given ∧ (given = none → (items.filterMap Item.declares?).Nodup) ∧
        width = given.getD (growWidth items 1) := by
  cases given with
  | none =>
      rw [labelWidth, bind_eq_ok, ← checkDistinct_eq_ok]
      constructor
      · rintro ⟨_, distinct, same⟩
        exact ⟨nofun, fun _ => distinct, (Except.ok.inj same).symm⟩
      · rintro ⟨_, distinct, rfl⟩
        exact ⟨(), distinct rfl, rfl⟩
  | some given =>
      unfold labelWidth LegalWidth
      by_cases legal : 1 ≤ given ∧ given ≤ 32
      · simp [legal, eq_comm]
      · simp [legal]

theorem LegalWidth.chosen {given : Option Nat} {items : List Item} (legal : LegalWidth given)
    (distinct : (items.filterMap Item.declares?).Nodup) :
    labelWidth given items = .ok (given.getD (growWidth items 1)) :=
  labelWidth_eq_ok.mpr ⟨legal, fun _ => distinct, rfl⟩

theorem labelWidth_none {items : List Item} (distinct : (items.filterMap Item.declares?).Nodup) :
    labelWidth none items = .ok (growWidth items 1) :=
  labelWidth_eq_ok.mpr ⟨nofun, fun _ => distinct, rfl⟩

theorem labelWidth_eq_error {given : Option Nat} {items : List Item} {error : Error} :
    labelWidth given items = .error error ↔
      (∃ width, given = some width ∧ ¬ (1 ≤ width ∧ width ≤ 32) ∧ error = .operandWidth width) ∨
        given = none ∧ checkDistinct items = .error error := by
  cases given with
  | none =>
      rw [labelWidth, bind_eq_error]
      constructor
      · rintro (repeated | ⟨_, _, same⟩)
        · exact .inr ⟨rfl, repeated⟩
        · cases same
      · rintro (⟨_, given, _⟩ | ⟨_, repeated⟩)
        · cases given
        · exact .inl repeated
  | some given =>
      simp only [labelWidth, Option.some.injEq, exists_eq_left', reduceCtorEq, false_and, or_false]
      split
      · rename_i legal
        exact ⟨nofun, fun wrong => absurd legal wrong.1⟩
      · rename_i illegal
        rw [Except.error.injEq]
        exact ⟨fun same => ⟨illegal, same.symm⟩, fun wrong => wrong.2.symm⟩

theorem padded?_eq_none {value width : Nat} (legal : 1 ≤ width ∧ width ≤ 32) :
    Immediate.padded? value width = none ↔ 256 ^ width ≤ value := by
  have fits := BigEndian.byteCount_le_iff (n := value) legal.1
  have inside : 0 < width ∧ width ≤ 32 := legal
  rw [Immediate.padded?, dif_pos inside]
  split
  · simp only [reduceCtorEq, false_iff]
    omega
  · simp only [true_iff]
    omega

end Stages

section Pushes

def Reached (width : Nat) (items : List Item) (name : String) : Prop :=
  ∃ front back, items = front ++ .label name :: back ∧ extent width front < 256 ^ width

inductive Unresolved (width : Nat) (items : List Item) (name : String) : Error → Prop
  | undefined : .label name ∉ items → Unresolved width items name (.undefinedLabel name)
  | outOfReach {front back : List Item} :
      items = front ++ .label name :: back → 256 ^ width ≤ extent width front →
      Unresolved width items name (.labelOutOfReach name (extent width front) width)

variable {width : Nat} {items : List Item}

theorem assembleLabelPush_eq_error {name : String} {error : Error}
    (legal : 1 ≤ width ∧ width ≤ 32) (distinct : (items.filterMap Item.declares?).Nodup) :
    assembleLabelPush width (labelOffsets width 0 items) name = .error error ↔
      Unresolved width items name error := by
  unfold assembleLabelPush
  constructor
  · intro fails
    split at fails
    · rename_i missing
      cases fails
      exact .undefined (lookup_labelOffsets_eq_none.mp missing)
    · rename_i offset found
      obtain ⟨front, back, parts, position⟩ := (lookup_labelOffsets distinct).mp found
      rw [Nat.zero_add] at position
      split at fails
      · cases fails
      · rename_i far
        cases fails
        rw [padded?_eq_none legal, position] at far
        exact position ▸ .outOfReach parts far
  · intro wrong
    cases wrong with
    | undefined missing => rw [lookup_labelOffsets_eq_none.mpr missing]
    | @outOfReach front back parts far =>
        simp only [lookup_declared distinct parts, (padded?_eq_none legal).mpr far]

theorem assembleLabelPush_succeeds {name : String}
    (legal : 1 ≤ width ∧ width ≤ 32) (distinct : (items.filterMap Item.declares?).Nodup) :
    (∃ chunk, assembleLabelPush width (labelOffsets width 0 items) name = .ok chunk) ↔
      Reached width items name := by
  simp only [assembleLabelPush_eq_ok]
  constructor
  · rintro ⟨_, offset, immediate, found, padded, _⟩
    obtain ⟨front, back, parts, rfl⟩ := (lookup_labelOffsets distinct).mp found
    refine ⟨front, back, parts, ?_⟩
    simpa using (padded?_eq_some padded).2
  · rintro ⟨front, back, parts, near⟩
    have holds : Immediate.padded? (extent width front) width ≠ none := by
      rw [ne_eq, padded?_eq_none legal]
      omega
    obtain ⟨immediate, padded⟩ := Option.ne_none_iff_exists'.mp holds
    exact ⟨_, _, immediate, lookup_declared distinct parts, padded, rfl⟩

theorem assemble_eq_error {item : Item} {error : Error} (legal : 1 ≤ width ∧ width ≤ 32)
    (distinct : (items.filterMap Item.declares?).Nodup) :
    item.assemble width (labelOffsets width 0 items) = .error error ↔
      ∃ name, item = .pushLabel name ∧ Unresolved width items name error := by
  cases item with
  | pushLabel name => simpa [Item.assemble] using assembleLabelPush_eq_error legal distinct
  | _ => simp [Item.assemble]

theorem assemble_succeeds {item : Item} (legal : 1 ≤ width ∧ width ≤ 32)
    (distinct : (items.filterMap Item.declares?).Nodup) :
    (∃ chunk, item.assemble width (labelOffsets width 0 items) = .ok chunk) ↔
      ∀ name, item = .pushLabel name → Reached width items name := by
  cases item with
  | pushLabel name => simpa [Item.assemble] using assembleLabelPush_succeeds legal distinct
  | _ => simp [Item.assemble]

private theorem forall_assemble_succeeds {part : List Item} (legal : 1 ≤ width ∧ width ≤ 32)
    (distinct : (items.filterMap Item.declares?).Nodup) :
    (∀ item ∈ part, ∃ chunk, item.assemble width (labelOffsets width 0 items) = .ok chunk) ↔
      ∀ name, .pushLabel name ∈ part → Reached width items name := by
  simp only [assemble_succeeds legal distinct]
  constructor
  · intro reached name member
    exact reached _ member name rfl
  · intro reached item member name same
    exact reached name (same ▸ member)

theorem assembleItems_eq_error {error : Error} (legal : 1 ≤ width ∧ width ≤ 32)
    (distinct : (items.filterMap Item.declares?).Nodup) :
    assembleItems width items = .error error ↔ ∃ before name after,
      items = before ++ .pushLabel name :: after ∧
        (∀ other, .pushLabel other ∈ before → Reached width items other) ∧
        Unresolved width items name error := by
  have mapped : assembleItems width items = .error error ↔
      items.mapM (Item.assemble width (labelOffsets width 0 items)) = .error error := by
    rw [assembleItems, bind_eq_error]
    simp [pure, Except.pure]
  rw [mapped, mapM_eq_error]
  simp only [forall_assemble_succeeds legal distinct, assemble_eq_error legal distinct]
  constructor
  · rintro ⟨before, item, after, parts, earlier, name, rfl, wrong⟩
    exact ⟨before, name, after, parts, earlier, wrong⟩
  · rintro ⟨before, name, after, parts, earlier, wrong⟩
    exact ⟨before, _, after, parts, earlier, name, rfl, wrong⟩

theorem assembleItems_succeeds (legal : 1 ≤ width ∧ width ≤ 32)
    (distinct : (items.filterMap Item.declares?).Nodup) :
    (∃ code, assembleItems width items = .ok code) ↔
      ∀ name, .pushLabel name ∈ items → Reached width items name := by
  have mapped : (∃ code, assembleItems width items = .ok code) ↔
      ∃ chunks, items.mapM (Item.assemble width (labelOffsets width 0 items)) = .ok chunks := by
    simp only [assembleItems, bind_eq_ok]
    constructor
    · rintro ⟨_, chunks, mapped, _⟩
      exact ⟨chunks, mapped⟩
    · rintro ⟨chunks, mapped⟩
      exact ⟨_, chunks, mapped, rfl⟩
  rw [mapped, mapM_succeeds, forall_assemble_succeeds legal distinct]

end Pushes

section Outcome

variable {options : Options} {program : Program} {given : Option Nat} {items : List Item}

def layOut (given : Option Nat) (items : List Item) : Except Error Bytes := do
  let width ← labelWidth given items
  checkDistinct items
  assembleItems width items

theorem compile_eq_bind (options : Options) (program : Program) :
    compile options program = program.flatten options.stackLimit >>= fun listing =>
      layOut options.labelWidth listing.items.toList :=
  rfl

theorem layOut_eq_ok {code : Bytes} :
    layOut given items = .ok code ↔ ∃ width, labelWidth given items = .ok width ∧
      (items.filterMap Item.declares?).Nodup ∧ assembleItems width items = .ok code := by
  simp only [layOut, bind_eq_ok]
  constructor
  · rintro ⟨width, chosen, _, distinct, assembled⟩
    exact ⟨width, chosen, checkDistinct_eq_ok.mp distinct, assembled⟩
  · rintro ⟨width, chosen, distinct, assembled⟩
    exact ⟨width, chosen, (), checkDistinct_eq_ok.mpr distinct, assembled⟩

theorem layOut_eq_error {error : Error} :
    layOut given items = .error error ↔ labelWidth given items = .error error ∨
      ∃ width, labelWidth given items = .ok width ∧ (checkDistinct items = .error error ∨
        (items.filterMap Item.declares?).Nodup ∧ assembleItems width items = .error error) := by
  rw [layOut, bind_eq_error]
  apply or_congr_right
  constructor
  · rintro ⟨width, chosen, fails⟩
    refine ⟨width, chosen, (bind_eq_error.mp fails).imp_right ?_⟩
    rintro ⟨_, distinct, fails⟩
    exact ⟨checkDistinct_eq_ok.mp distinct, fails⟩
  · rintro ⟨width, chosen, fails⟩
    refine ⟨width, chosen, bind_eq_error.mpr (fails.imp_right ?_)⟩
    rintro ⟨distinct, fails⟩
    exact ⟨(), checkDistinct_eq_ok.mpr distinct, fails⟩

theorem compile_eq_error {error : Error} :
    compile options program = .error error ↔
      program.flatten options.stackLimit = .error error ∨
      ∃ items, Flattens options program items ∧
        (labelWidth options.labelWidth items = .error error ∨
          ∃ width, labelWidth options.labelWidth items = .ok width ∧
            (checkDistinct items = .error error ∨
              (items.filterMap Item.declares?).Nodup ∧ assembleItems width items = .error error)) := by
  simp only [compile_eq_bind, bind_eq_error, ← layOut_eq_error]
  apply or_congr_right
  constructor
  · rintro ⟨listing, flat, fails⟩
    exact ⟨_, ⟨listing, flat, rfl⟩, fails⟩
  · rintro ⟨_, ⟨listing, flat, rfl⟩, fails⟩
    exact ⟨listing, flat, fails⟩

theorem compile_succeeds :
    (∃ code, compile options program = .ok code) ↔ ∃ items, Flattens options program items ∧
      ∃ width, labelWidth options.labelWidth items = .ok width ∧
        (items.filterMap Item.declares?).Nodup ∧ ∃ code, assembleItems width items = .ok code := by
  simp only [compile_eq_bind, bind_eq_ok, layOut_eq_ok]
  constructor
  · rintro ⟨code, listing, flat, width, chosen, distinct, assembled⟩
    exact ⟨_, ⟨listing, flat, rfl⟩, width, chosen, distinct, code, assembled⟩
  · rintro ⟨_, ⟨listing, flat, rfl⟩, width, chosen, distinct, code, assembled⟩
    exact ⟨code, listing, flat, width, chosen, distinct, assembled⟩

variable (small : ∀ items, Flattens options program items → extent 1 items < 2 ^ 64)
include small

omit small

def Error.label? : Error → Option String
  | .undefinedLabel label | .duplicateLabel label | .labelOutOfReach label _ _ => some label
  | _ => none

private theorem label?_of_refuses {progress : Progress} {check : Check} {error : Error}
    (refuses : check.Refuses progress error) : error.label? = none := by
  have suited {op : Opcode} {error : Error} (unsuited : Unsuited op progress.toStackDepth error) :
      error.label? = none := by
    cases unsuited <;> rfl
  cases refuses with
  | constant unwritable => cases unwritable <;> rfl
  | operator _ unsuited => exact suited unsuited
  | push _ unsuited => exact suited unsuited
  | pushLabel unsuited => exact suited unsuited
  | label unsuited => exact suited unsuited
  | reach _ unsuited => exact suited unsuited
  | _ => rfl

theorem FirstRefusal.label?_eq_none {progress : Progress} {checks : List Check} {error : Error}
    (refusal : FirstRefusal progress checks error) : error.label? = none := by
  -- The walk blames no label: it knows neither which are declared nor where they lie.
  induction refusal with
  | here refuses => exact label?_of_refuses refuses
  | later _ _ ih => exact ih

end Outcome

end StackAssembler.Assembly

namespace StackAssembler

open Assembly

end StackAssembler

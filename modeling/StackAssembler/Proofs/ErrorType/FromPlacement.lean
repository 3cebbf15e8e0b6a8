import StackAssembler.Proofs.ErrorType.Generated

set_option autoImplicit false
set_option relaxedAutoImplicit false

namespace StackAssembler.ErrorType

namespace Fields

def marked : Fields → List String
  | .unit => []
  | .tuple fields => (fields.filter (·.converts)).map (·.type)
  | .named fields => (fields.filter (·.converts)).map (·.type)

def isSingle : Fields → Bool
  | .tuple [_] => true
  | _ => false

end Fields

namespace Description

/-- Whether a field is marked that is not the only field of a tuple variant. The fields of a union are
not described, and no mark among them would be in place. -/
def Misplaced (description : Description) : Prop :=
  match description.shape with
  | .enum variants => ∃ variant ∈ variants, variant.fields.marked ≠ [] ∧
      variant.fields.isSingle = false
  | .struct _ fields => fields.marked ≠ []
  | .union => True

/-- For each marked field, the conversion that it asks for. -/
def marks (description : Description) : List Conversion :=
  match description.shape with
  | .enum variants => variants.flatMap fun variant =>
      variant.fields.marked.map fun type => ⟨variant.name, type⟩
  | .struct _ fields => fields.marked.map fun type => ⟨description.name, type⟩
  | .union => []

/-- A structure with a marked field, of which nothing else is wrong. -/
def IgnoresMark (description : Description) : Prop :=
  ∃ attributes fields message, description.shape = .struct attributes fields ∧
    fields.marked ≠ [] ∧ messageOf (.type description.name) attributes = .ok message

end Description

structure HonoursMarks (description : Description) : Prop where
  refuses : description.Misplaced → ∃ fault, expand description = .error fault
  /-- Each mark gives one conversion and one source, and nothing else does. -/
  honours : ∀ impls, expand description = .ok impls →
    impls.filterMap Impl.conversion? = description.marks ∧
      impls.flatMap Impl.sources = description.marks.map (·.variant)

private theorem isSingle_tuple {fields : List TupleField} :
    (Fields.tuple fields).isSingle = true ↔ fields.length = 1 := by
  rcases fields with _ | ⟨first, _ | ⟨second, rest⟩⟩ <;> simp [Fields.isSingle]

private theorem ok_none_iff {inner : Option String} {condition : Prop} :
    (Except.ok none : Except Fault (Option String)) = .ok inner ↔
      inner.toList = [] ∧ (([] : List String) ≠ [] → condition) := by
  cases inner <;> simp

theorem wrapped_eq_ok {fields : Fields} {inner : Option String} :
    wrapped fields = .ok inner ↔
      inner.toList = fields.marked ∧ (fields.marked ≠ [] → fields.isSingle = true) := by
  cases fields with
  | unit => exact ok_none_iff
  | tuple fields =>
      have fewer := List.length_filter_le (·.converts) fields
      rw [isSingle_tuple]
      simp only [wrapped, Fields.marked]
      split
      · rename_i unmarked
        rw [unmarked]
        exact ok_none_iff
      · rename_i field marked single
        rw [marked, single]
        cases inner <;> simp [eq_comm]
      · rename_i nonempty long
        refine iff_of_false (by simp) ?_
        intro honoured
        -- With a single field in all, the marked ones are that one or none.
        rcases marked : fields.filter (·.converts) with _ | ⟨field, _ | ⟨other, rest⟩⟩
        · exact nonempty marked
        · rw [marked] at honoured
          exact long field marked (honoured.2 (by simp))
        · rw [marked, List.length_cons, List.length_cons] at fewer
          rw [marked] at honoured
          have single := honoured.2 (by simp)
          omega
  | named fields =>
      simp only [wrapped, Fields.marked]
      split
      · rename_i some
        obtain ⟨field, member, converts⟩ := List.any_eq_true.mp some
        refine iff_of_false (by simp) ?_
        intro honoured
        have marked : (fields.filter (·.converts)).map (·.type) ≠ [] :=
          List.ne_nil_of_mem (List.mem_map_of_mem (List.mem_filter.mpr ⟨member, converts⟩))
        cases honoured.2 marked
      · rename_i all
        have unmarked : fields.filter (·.converts) = [] := by
          simpa using all
        rw [unmarked]
        exact ok_none_iff

section Enumeration

variable {variants : List Variant} {parts : List (Arm × Option Conversion)}

private theorem conversions_of_parts
    (each : List.Forall₂ (fun variant part => expandVariant variant = .ok part) variants parts) :
    parts.filterMap (·.2) = variants.flatMap fun variant =>
      variant.fields.marked.map fun type => ⟨variant.name, type⟩ := by
  induction each with
  | nil => rfl
  | @cons variant part _ _ expanded _ ih =>
      obtain ⟨arm, conversion⟩ := part
      obtain ⟨_, inner, _, wraps, _, rfl⟩ := expandVariant_eq_ok.mp expanded
      obtain ⟨marked, _⟩ := wrapped_eq_ok.mp wraps
      rw [List.flatMap_cons, ← ih, ← marked, List.filterMap_cons]
      cases inner <;> rfl

private theorem not_misplaced
    (each : List.Forall₂ (fun variant part => expandVariant variant = .ok part) variants parts) :
    ¬ ∃ variant ∈ variants, variant.fields.marked ≠ [] ∧ variant.fields.isSingle = false := by
  intro misplaced
  obtain ⟨variant, member, marked, other⟩ := misplaced
  obtain ⟨⟨arm, conversion⟩, expanded⟩ := mapM_succeeds.mp ⟨parts, mapM_eq_ok.mpr each⟩ variant member
  obtain ⟨_, _, _, wraps, _⟩ := expandVariant_eq_ok.mp expanded
  rw [(wrapped_eq_ok.mp wraps).2 marked] at other
  cases other

end Enumeration

private theorem conversion?_convert (all : List Conversion) :
    (all.map Impl.convert).filterMap Impl.conversion? = all := by
  induction all with
  | nil => rfl
  | cons _ _ ih => exact congrArg _ ih

private theorem sources_convert (all : List Conversion) :
    (all.map Impl.convert).flatMap Impl.sources = [] := by
  induction all with
  | nil => rfl
  | cons _ _ ih => exact ih

section Shapes

variable {name predicates : String} {parameters : List Parameter}

private theorem honoursMarks_enum (variants : List Variant) :
    HonoursMarks ⟨name, parameters, predicates, .enum variants⟩ := by
  constructor
  · intro misplaced
    cases expanded : expand ⟨name, parameters, predicates, .enum variants⟩ with
    | error fault => exact ⟨fault, rfl⟩
    | ok impls =>
        obtain ⟨parts, each, _⟩ := expandEnum_eq_ok.mp expanded
        exact absurd misplaced (not_misplaced each)
  · intro impls expanded
    obtain ⟨parts, each, rfl⟩ := expandEnum_eq_ok.mp expanded
    have marks := conversions_of_parts each
    constructor
    · exact (conversion?_convert _).trans marks
    · rw [List.flatMap_cons, List.flatMap_cons, sources_convert, List.append_nil, marks]
      exact getD_sources? _

private theorem honoursMarks_struct_iff (attributes : List Attribute) (fields : Fields) :
    HonoursMarks ⟨name, parameters, predicates, .struct attributes fields⟩ ↔
      ¬ Description.IgnoresMark ⟨name, parameters, predicates, .struct attributes fields⟩ := by
  constructor
  · intro honours ignores
    obtain ⟨_, _, message, same, marked, found⟩ := ignores
    cases same
    obtain ⟨fault, refused⟩ := honours.refuses marked
    have expanded : expandStruct name attributes fields =
        .ok [.display (.write (displayStruct message fields)), .error none] :=
      expandStruct_eq_ok.mpr ⟨message, found, rfl⟩
    cases expanded.symm.trans refused
  · intro heeds
    have unmarked {impls : List Impl}
        (expanded : expandStruct name attributes fields = .ok impls) : fields.marked = [] := by
      obtain ⟨message, found, _⟩ := expandStruct_eq_ok.mp expanded
      by_contra marked
      exact heeds ⟨attributes, fields, message, rfl, marked, found⟩
    constructor
    · intro marked
      cases expanded : expand ⟨name, parameters, predicates, .struct attributes fields⟩ with
      | error fault => exact ⟨fault, rfl⟩
      | ok impls => exact absurd (unmarked expanded) marked
    · intro impls expanded
      have none : Description.marks ⟨name, parameters, predicates, .struct attributes fields⟩ = [] :=
        congrArg _ (unmarked expanded)
      obtain ⟨message, _, rfl⟩ := expandStruct_eq_ok.mp expanded
      rw [none]
      exact ⟨rfl, rfl⟩

end Shapes

/-- Every mark is honoured or refused, unless it stands in a structure that has a message. -/
theorem honoursMarks_iff (description : Description) :
    HonoursMarks description ↔ ¬ description.IgnoresMark := by
  obtain ⟨name, parameters, predicates, shape⟩ := description
  cases shape with
  | enum variants =>
      refine iff_of_true (honoursMarks_enum variants) ?_
      intro ignores
      obtain ⟨_, _, _, same, _⟩ := ignores
      cases same
  | struct attributes fields => exact honoursMarks_struct_iff attributes fields
  | union =>
      refine iff_of_true ⟨fun _ => ⟨.union, rfl⟩, ?_⟩ ?_
      · intro impls expanded
        cases expanded
      · intro ignores
        obtain ⟨_, _, _, same, _⟩ := ignores
        cases same

def wrapper : Description :=
  ⟨"Wrapper", [], "", .struct [.message "wrapped"] (.tuple [⟨"Inner", true⟩])⟩

/-- The mark is not refused, and there is no conversion either. -/
theorem mark_of_wrapper_ignored :
    expand wrapper = .ok [.display (.write ⟨"wrapped", some []⟩), .error none] ∧
      wrapper.Misplaced ∧ ¬ HonoursMarks wrapper := by
  have expanded : expand wrapper = .ok [.display (.write ⟨"wrapped", some []⟩), .error none] := rfl
  have misplaced : wrapper.Misplaced := by
    show Fields.marked _ ≠ []
    decide
  refine ⟨expanded, misplaced, ?_⟩
  intro honours
  obtain ⟨fault, refused⟩ := honours.refuses misplaced
  rw [expanded] at refused
  cases refused

end StackAssembler.ErrorType

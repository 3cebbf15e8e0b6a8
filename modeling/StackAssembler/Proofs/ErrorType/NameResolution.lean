import StackAssembler.Proofs.ErrorType.Generated
import StackAssembler.Proofs.ErrorType.PositionNaming

/-!
What the names in a generated method stand for. The method has a formatter as its parameter, and a
pattern of an arm may bind a field to the very name of that parameter, which is then hidden. This is
the only way in which a generated name can stand for something else than it should.
-/

set_option autoImplicit false
set_option relaxedAutoImplicit false

namespace StackAssembler.ErrorType

inductive Referent
  | formatter
  | field (position : Nat)
  deriving DecidableEq

/-- A name without the mark of a raw spelling. -/
def unmarked (name : String) : String :=
  match name.toList with
  | 'r' :: '#' :: rest => String.ofList rest
  | _ => name

def sameName (first second : String) : Bool :=
  unmarked first = unmarked second

namespace Fields

/-- The position of the field that is selected by its name or, in a tuple, by its number. -/
def member? : Fields → String → Option Nat
  | .unit, _ => none
  | .tuple fields, name => (List.range fields.length).find? fun i => toString i = name
  | .named fields, name => fields.findIdx? fun field => field.name = name

/-- The position of the field for which an argument of the given name is passed. -/
def argument? : Fields → String → Option Nat
  | .unit, _ => none
  | .tuple fields, name => (List.range fields.length).find? fun i => positionName i = name
  | .named fields, name => fields.findIdx? fun field => field.name = name

end Fields

namespace Pattern

def binding? (fields : Fields) : Pattern → String → Option Nat
  | .unit, _ => none
  | .tuple slots, name => slots.findIdx? (·.any (sameName name))
  | .named names, name =>
      -- The same spelling goes first, though no pattern may bind a name in two spellings.
      ((names.find? (· = name)).or (names.find? (sameName name))).bind fields.member?

def Fits : Pattern → Fields → Prop
  | .unit, .unit => True
  | .tuple slots, .tuple fields => slots.length = fields.length
  | .named names, .named fields => ∀ name ∈ names, name ∈ fields.map (·.name)
  | _, _ => False

end Pattern

namespace Site

def binding? (fields : Fields) : Site → String → Option Nat
  | .arm generated, name => generated.pattern.binding? fields name
  | .method _, _ => none

/-- What a name stands for. The bindings of a pattern hide the parameter of the method. -/
def referent? (fields : Fields) (site : Site) (name : String) : Option Referent :=
  match site.binding? fields name with
  | some position => some (.field position)
  | none => if sameName name "f" then some .formatter else none

def value? (fields : Fields) (site : Site) : Access → Option Referent
  | .binding name => site.referent? fields name
  | .member name => (fields.member? name).map .field

def Fits : Site → Shown → Prop
  | .arm generated, ⟨.variant name, _, fields⟩ =>
      generated.variant = name ∧ generated.pattern.Fits fields
  | .method _, ⟨.type _, _, _⟩ => True
  | _, _ => False

end Site

/-- The names around a write stand for what they are meant to stand for. -/
structure Resolves (shown : Shown) (site : Site) : Prop where
  fits : site.Fits shown
  /-- What is written to is the formatter. -/
  destination : site.referent? shown.fields "f" = some .formatter
  arguments : ∀ argument ∈ site.write.arguments.getD [], ∃ position,
    shown.fields.argument? argument.name = some position ∧
      site.value? shown.fields argument.value = some (.field position)

section Lookup

private theorem positionName_ne_formatter (i : Nat) : positionName i ≠ "f" := by
  intro same
  have lists := congrArg String.toList same
  rw [toList_positionName] at lists
  exact toString_ne_nil i (List.cons.inj lists).2

private theorem find?_range {name : Nat → String} (injective : ∀ {i j}, name i = name j → i = j)
    {i count : Nat} (inside : i < count) :
    ((List.range count).find? fun j => name j = name i) = some i := by
  rw [List.find?_range_eq_some]
  refine ⟨decide_eq_true rfl, List.mem_range.mpr inside, ?_⟩
  intro j before
  have differs : name j ≠ name i := by
    intro same
    have := injective same
    omega
  rw [decide_eq_false differs]
  rfl

theorem Fields.argument?_positionName {fields : List TupleField} {i : Nat}
    (inside : i < fields.length) : (Fields.tuple fields).argument? (positionName i) = some i :=
  find?_range positionName_inj inside

theorem Fields.member?_toString {fields : List TupleField} {i : Nat} (inside : i < fields.length) :
    (Fields.tuple fields).member? (toString i) = some i :=
  find?_range toString_inj inside

variable {message name : String} {count i : Nat}

private def slots (message : String) (count : Nat) : List (Option String) :=
  (List.range count).map fun i =>
    if mentions message (positionName i) then some (positionName i) else none

private theorem unmarked_positionName (i : Nat) : unmarked (positionName i) = positionName i := by
  rw [unmarked, toList_positionName]
  rfl

private theorem sameName_positionName {i j : Nat} :
    sameName (positionName i) (positionName j) = decide (i = j) := by
  rw [sameName, unmarked_positionName, unmarked_positionName]
  exact decide_eq_decide.mpr ⟨positionName_inj, fun same => same ▸ rfl⟩

private theorem findIdx?_slots (used : i ∈ usedPositions message count) :
    (slots message count).findIdx? (·.any (sameName (positionName i))) = some i := by
  obtain ⟨inside, mentioned⟩ := List.mem_filter.mp used
  rw [List.mem_range] at inside
  rw [List.findIdx?_eq_some_iff_getElem]
  refine ⟨by rw [slots, List.length_map, List.length_range]; exact inside, ?_, ?_⟩
  · simp [slots, mentioned, sameName_positionName]
  · intro j before
    have differs : i ≠ j := by omega
    simp only [slots, List.getElem_map, List.getElem_range]
    split <;> simp [sameName_positionName, differs]

private theorem findIdx?_slots_formatter :
    (slots message count).findIdx? (·.any (sameName "f")) = none := by
  have other (i : Nat) : sameName "f" (positionName i) = false := by
    rw [sameName, unmarked_positionName]
    exact decide_eq_false (positionName_ne_formatter i).symm
  rw [List.findIdx?_eq_none_iff]
  intro slot member
  obtain ⟨i, _, rfl⟩ := List.mem_map.mp member
  split <;> simp [other]

private theorem isSome_findIdx?_field {fields : List NamedField}
    (used : name ∈ usedNames message fields) :
    ∃ position, (fields.findIdx? fun field => field.name = name) = some position := by
  obtain ⟨field, member, rfl⟩ := List.mem_map.mp (List.mem_filter.mp used).1
  refine Option.isSome_iff_exists.mp ?_
  rw [List.findIdx?_isSome, List.any_eq_true]
  exact ⟨field, member, decide_eq_true rfl⟩

private theorem find?_self {names : List String} (member : name ∈ names) :
    names.find? (· = name) = some name := by
  have located : (names.find? (· = name)).isSome := by
    rw [List.find?_isSome]
    exact ⟨name, member, decide_eq_true rfl⟩
  obtain ⟨other, found⟩ := Option.isSome_iff_exists.mp located
  have same := List.find?_some found
  rw [found, of_decide_eq_true same]

private theorem binding?_named {fields : List NamedField} :
    Pattern.binding? (.named fields) (.named (usedNames message fields)) name = none ↔
      ∀ bound ∈ usedNames message fields, sameName name bound = false := by
  constructor
  · intro unbound bound used
    by_contra spelled
    have found : (((usedNames message fields).find? (· = name)).or
        ((usedNames message fields).find? (sameName name))).isSome := by
      rw [Option.isSome_or, Bool.or_eq_true_iff, List.find?_isSome, List.find?_isSome]
      exact .inr ⟨bound, used, by simpa using spelled⟩
    obtain ⟨other, found⟩ := Option.isSome_iff_exists.mp found
    have member : other ∈ usedNames message fields := by
      rcases Option.or_eq_some_iff.mp found with exactly | ⟨_, raw⟩
      · exact List.mem_of_find?_eq_some exactly
      · exact List.mem_of_find?_eq_some raw
    obtain ⟨position, located⟩ := isSome_findIdx?_field member
    rw [Pattern.binding?, found, Option.bind_some, Fields.member?, located] at unbound
    cases unbound
  · intro others
    have first : (usedNames message fields).find? (· = name) = none := by
      rw [List.find?_eq_none]
      intro bound used same
      have differs := others bound used
      rw [of_decide_eq_true same, sameName, decide_eq_false_iff_not] at differs
      exact differs rfl
    have second : (usedNames message fields).find? (sameName name) = none := by
      rw [List.find?_eq_none]
      intro bound used
      rw [others bound used]
      exact Bool.false_ne_true
    rw [Pattern.binding?, first, second]
    rfl

private theorem referent?_of_binding {fields : Fields} {site : Site}
    (bound : site.binding? fields name = some i) :
    site.referent? fields name = some (.field i) := by
  rw [Site.referent?, bound]

end Lookup

theorem arguments_resolve (shown : Shown) (message : String) :
    ∀ argument ∈ (shown.site message).write.arguments.getD [], ∃ position,
      shown.fields.argument? argument.name = some position ∧
        (shown.site message).value? shown.fields argument.value = some (.field position) := by
  obtain ⟨subject, attributes, fields⟩ := shown
  intro argument passed
  cases fields with
  | unit => cases subject <;> exact absurd passed List.not_mem_nil
  | tuple fields =>
      cases subject with
      | variant name =>
          obtain ⟨i, used, rfl⟩ := List.mem_map.mp passed
          have inside := List.mem_range.mp (List.mem_filter.mp used).1
          exact ⟨i, Fields.argument?_positionName inside, referent?_of_binding (findIdx?_slots used)⟩
      | type name =>
          obtain ⟨i, used, rfl⟩ := List.mem_map.mp passed
          have inside := List.mem_range.mp (List.mem_filter.mp used).1
          exact ⟨i, Fields.argument?_positionName inside,
            congrArg (Option.map Referent.field) (Fields.member?_toString inside)⟩
  | named fields =>
      cases subject with
      | variant name =>
          obtain ⟨field, used, rfl⟩ := List.mem_map.mp passed
          obtain ⟨position, found⟩ := isSome_findIdx?_field used
          have bound : Pattern.binding? (.named fields) (.named (usedNames message fields)) field =
              some position := by
            rw [Pattern.binding?, find?_self used]
            exact found
          exact ⟨position, found, referent?_of_binding bound⟩
      | type name =>
          obtain ⟨field, used, rfl⟩ := List.mem_map.mp passed
          obtain ⟨position, found⟩ := isSome_findIdx?_field used
          exact ⟨position, found, congrArg (Option.map Referent.field) found⟩

private theorem site_fits (shown : Shown) (message : String) : (shown.site message).Fits shown := by
  obtain ⟨subject, attributes, fields⟩ := shown
  cases subject with
  | type name => exact trivial
  | variant name =>
      refine ⟨by cases fields <;> rfl, ?_⟩
      cases fields with
      | unit => exact trivial
      | tuple fields =>
          show ((List.range fields.length).map _).length = fields.length
          rw [List.length_map, List.length_range]
      | named fields =>
          intro name used
          exact (List.mem_filter.mp used).1

/-- A variant with a field that is named as the formatter is, and a message that mentions it in its
spelling. -/
def Shown.HidesFormatter (shown : Shown) : Prop :=
  ∃ name fields message, shown.subject = .variant name ∧ shown.fields = .named fields ∧
    shown.message = .ok message ∧
      ∃ field ∈ fields, sameName "f" field.name = true ∧ mentions message field.name = true

private theorem referent?_formatter {fields : Fields} {site : Site} :
    site.referent? fields "f" = some .formatter ↔ site.binding? fields "f" = none := by
  unfold Site.referent?
  cases site.binding? fields "f" <;> simp [sameName]

private theorem binding?_formatter {shown : Shown} {message : String}
    (found : shown.message = .ok message) :
    (shown.site message).binding? shown.fields "f" = none ↔ ¬ shown.HidesFormatter := by
  obtain ⟨subject, attributes, fields⟩ := shown
  cases subject with
  | type name =>
      refine iff_of_true rfl ?_
      intro hides
      obtain ⟨_, _, _, variant, _⟩ := hides
      cases variant
  | variant name =>
      cases fields with
      | unit =>
          refine iff_of_true rfl ?_
          intro hides
          obtain ⟨_, _, _, _, named, _⟩ := hides
          cases named
      | tuple fields =>
          refine iff_of_true findIdx?_slots_formatter ?_
          intro hides
          obtain ⟨_, _, _, _, named, _⟩ := hides
          cases named
      | named fields =>
          refine binding?_named.trans ?_
          constructor
          · intro unbound hides
            obtain ⟨_, _, other, _, same, declared, field, member, named, mentioned⟩ := hides
            cases same
            rw [found] at declared
            cases declared
            have used : field.name ∈ usedNames message fields :=
              List.mem_filter.mpr ⟨List.mem_map_of_mem member, mentioned⟩
            rw [unbound _ used] at named
            cases named
          · intro heeds bound used
            obtain ⟨declared, mentioned⟩ := List.mem_filter.mp used
            obtain ⟨field, member, rfl⟩ := List.mem_map.mp declared
            by_contra named
            exact heeds ⟨name, fields, message, rfl, rfl, found, field, member,
              by simpa using named, mentioned⟩

/-- The generated names stand for what they should, if and only if no variant binds a field to the
name of the formatter. -/
theorem generated_names_resolve_iff {description : Description} {impls : List Impl}
    (expanded : expand description = .ok impls) :
    List.Forall₂ Resolves description.shown (impls.flatMap Impl.sites) ↔
      ∀ shown ∈ description.shown, ¬ shown.HidesFormatter := by
  apply forall₂_sites_iff expanded
  intro shown _ message found
  rw [← binding?_formatter found, ← referent?_formatter]
  constructor
  · intro resolves
    exact resolves.destination
  · intro destination
    exact ⟨site_fits shown message, destination, arguments_resolve shown message⟩

def mixedVariants : Description :=
  ⟨"Mixed", [], "", .enum
    [⟨"Plain", [.message "plain"], .unit⟩,
      ⟨"Pair", [.message "second of two: \x7b1:#x\x7d"], .tuple [⟨"u8", false⟩, ⟨"u8", false⟩]⟩,
      ⟨"Named", [.message "\x7bg\x7d of f"], .named [⟨"f", "u8", false⟩, ⟨"g", "u8", false⟩]⟩]⟩

theorem generated_names_resolve_iff_mixed :
    ∃ impls, expand mixedVariants = .ok impls ∧
      List.Forall₂ Resolves mixedVariants.shown (impls.flatMap Impl.sites) := by
  refine ⟨_, rfl, (generated_names_resolve_iff rfl).mpr ?_⟩
  have unnamed {shown : Shown} (other : ∀ fields, shown.fields ≠ .named fields) :
      ¬ shown.HidesFormatter := by
    intro hides
    obtain ⟨_, fields, _, _, named, _⟩ := hides
    exact other fields named
  have silent : ¬ Shown.HidesFormatter ⟨.variant "Named", [.message "\x7bg\x7d of f"],
      .named [⟨"f", "u8", false⟩, ⟨"g", "u8", false⟩]⟩ := by
    intro hides
    obtain ⟨_, _, message, _, same, found, field, member, named, mentioned⟩ := hides
    cases same
    cases found
    have none : ∀ field ∈ ([⟨"f", "u8", false⟩, ⟨"g", "u8", false⟩] : List NamedField),
        ¬ (sameName "f" field.name = true ∧ mentions "\x7bg\x7d of f" field.name = true) := by
      decide
    exact none field member ⟨named, mentioned⟩
  intro shown member
  rcases List.mem_cons.mp member with rfl | member
  · exact unnamed (by simp [Variant.shown])
  · rcases List.mem_cons.mp member with rfl | member
    · exact unnamed (by simp [Variant.shown])
    · rw [List.mem_singleton.mp member]
      exact silent

def shownByF : Description :=
  ⟨"E", [], "", .enum [⟨"V", [.message "\x7bf\x7d"], .named [⟨"f", "u8", false⟩]⟩]⟩

/-- The field takes the place of the formatter, and the text would be written to it. -/
theorem write_goes_to_field :
    ∃ impls, expand shownByF = .ok impls ∧
      ¬ List.Forall₂ Resolves shownByF.shown (impls.flatMap Impl.sites) := by
  refine ⟨_, rfl, ?_⟩
  intro resolve
  cases resolve with
  | cons first _ =>
      have destination := first.destination
      revert destination
      decide

end StackAssembler.ErrorType

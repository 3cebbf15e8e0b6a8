import Mathlib.Data.List.Infix
import StackAssembler.ErrorType.Printer
import StackAssembler.Proofs.ErrorType.FromPlacement
import StackAssembler.Proofs.ErrorType.PositionNaming

set_option autoImplicit false
set_option relaxedAutoImplicit false

namespace StackAssembler.ErrorType

def Attribute.isError : Attribute → Bool
  | .message _ | .unlisted | .notText => true
  | .foreign => false

/-- A mark that is not in its place, with the fault that it is. -/
inductive Fields.Misplaces : Fields → Fault → Prop
  | tuple {fields : List TupleField} {field : TupleField} :
      field ∈ fields → field.converts = true → fields.length ≠ 1 →
      Misplaces (.tuple fields) .fromInLongTuple
  | named {fields : List NamedField} {field : NamedField} :
      field ∈ fields → field.converts = true → Misplaces (.named fields) .fromOnNamedField

namespace Variant

def errorAttribute? (variant : Variant) : Option Attribute :=
  variant.attributes.find? (·.isError)

def isMarked (variant : Variant) : Bool :=
  !variant.fields.marked.isEmpty

/-- The first fault of a variant: of its message, or of its marks if the message is in order. -/
inductive FirstFault (variant : Variant) : Fault → Prop
  | missing : variant.errorAttribute? = none →
      FirstFault variant (.missingMessage (.variant variant.name))
  | unlisted : variant.errorAttribute? = some .unlisted → FirstFault variant .unlistedMessage
  | notText : variant.errorAttribute? = some .notText → FirstFault variant .messageNotText
  | misplaced {message : String} {fault : Fault} :
      variant.errorAttribute? = some (.message message) → variant.fields.Misplaces fault →
      FirstFault variant fault

end Variant

section Messages

variable {subject : Subject} {attributes : List Attribute} {fault : Fault}

theorem messageOf_eq_ok {message : String} :
    messageOf subject attributes = .ok message ↔
      attributes.find? (·.isError) = some (.message message) := by
  induction attributes with
  | nil => simp [messageOf]
  | cons first rest ih => cases first <;> simp [messageOf, Attribute.isError, ih]

theorem messageOf_eq_error :
    messageOf subject attributes = .error fault ↔
      attributes.find? (·.isError) = none ∧ fault = .missingMessage subject ∨
      attributes.find? (·.isError) = some .unlisted ∧ fault = .unlistedMessage ∨
      attributes.find? (·.isError) = some .notText ∧ fault = .messageNotText := by
  induction attributes with
  | nil => simp [messageOf, eq_comm]
  | cons first rest ih => cases first <;> simp [messageOf, Attribute.isError, ih, eq_comm]

end Messages

section Variants

variable {variant : Variant} {fields : Fields} {fault : Fault}

theorem wrapped_eq_error : wrapped fields = .error fault ↔ fields.Misplaces fault := by
  cases fields with
  | unit =>
      refine iff_of_false (by simp [wrapped]) ?_
      intro misplaced
      cases misplaced
  | tuple fields =>
      simp only [wrapped]
      split
      · rename_i unmarked
        refine iff_of_false (by simp) ?_
        intro misplaced
        cases misplaced with
        | tuple member converts _ =>
            have marked := List.mem_filter.mpr ⟨member, converts⟩
            rw [unmarked] at marked
            cases marked
      · rename_i single
        refine iff_of_false (by simp) ?_
        intro misplaced
        cases misplaced with
        | tuple _ _ several => exact several single
      · rename_i nonempty long
        constructor
        · intro same
          cases same
          obtain ⟨field, member⟩ := List.exists_mem_of_ne_nil _ nonempty
          obtain ⟨inside, converts⟩ := List.mem_filter.mp member
          refine .tuple inside converts ?_
          intro single
          obtain ⟨only, rfl⟩ := List.length_eq_one_iff.mp single
          refine long only ?_ single
          rw [List.mem_singleton] at inside
          subst inside
          simpa using converts
        · intro misplaced
          cases misplaced
          rfl
  | named fields =>
      simp only [wrapped]
      split
      · rename_i some
        obtain ⟨field, member, converts⟩ := List.any_eq_true.mp some
        constructor
        · intro same
          cases same
          exact .named member converts
        · intro misplaced
          cases misplaced
          rfl
      · rename_i none
        refine iff_of_false (by simp) ?_
        intro misplaced
        cases misplaced with
        | named member converts => exact none (List.any_eq_true.mpr ⟨_, member, converts⟩)

theorem expandVariant_eq_error :
    expandVariant variant = .error fault ↔ variant.FirstFault fault := by
  simp only [expandVariant, bind_eq_error, messageOf_eq_error, messageOf_eq_ok, wrapped_eq_error]
  constructor
  · rintro ((⟨absent, rfl⟩ | ⟨found, rfl⟩ | ⟨found, rfl⟩) | ⟨message, found, misplaced | ⟨_, _, same⟩⟩)
    · exact .missing absent
    · exact .unlisted found
    · exact .notText found
    · exact .misplaced found misplaced
    · cases same
  · intro first
    cases first with
    | missing absent => exact .inl (.inl ⟨absent, rfl⟩)
    | unlisted found => exact .inl (.inr (.inl ⟨found, rfl⟩))
    | notText found => exact .inl (.inr (.inr ⟨found, rfl⟩))
    | misplaced found misplaced => exact .inr ⟨_, found, .inl misplaced⟩

theorem expandVariant_succeeds :
    (∃ part, expandVariant variant = .ok part) ↔ ∀ fault, ¬ variant.FirstFault fault := by
  simp only [← expandVariant_eq_error]
  cases expandVariant variant <;> simp

end Variants

/-- Whether a name stands in a text behind an opening brace and before a closing brace or a colon. -/
def Interpolates (text name : String) : Prop :=
  '\x7b' :: (name.toList ++ ['\x7d']) <:+: text.toList ∨
    '\x7b' :: (name.toList ++ [':']) <:+: text.toList

instance (text name : String) : Decidable (Interpolates text name) :=
  inferInstanceAs (Decidable (_ ∨ _))

/-- The arm that shows a variant by a message. Only what the message interpolates is bound, and all of
that is passed on. The message of a tuple has its positions renamed first. -/
inductive Variant.ShownBy (message : String) : Variant → Arm → Prop
  | unit {name : String} {attributes : List Attribute} :
      ShownBy message ⟨name, attributes, .unit⟩ ⟨name, .unit, ⟨message, none⟩⟩
  | tuple {name format : String} {attributes : List Attribute} {fields : List TupleField} :
      format = String.ofList (renameOpenings fields.length 0 message.toList) →
      ShownBy message ⟨name, attributes, .tuple fields⟩
        ⟨name,
          .tuple ((List.range fields.length).map fun i =>
            if Interpolates format ("f" ++ toString i) then some ("f" ++ toString i) else none),
          ⟨format, some (((List.range fields.length).filter fun i =>
            Interpolates format ("f" ++ toString i)).map fun i =>
              ⟨"f" ++ toString i, .binding ("f" ++ toString i)⟩)⟩⟩
  | named {name : String} {attributes : List Attribute} {fields : List NamedField} :
      ShownBy message ⟨name, attributes, .named fields⟩
        ⟨name, .named ((fields.map (·.name)).filter fun field => Interpolates message field),
          ⟨message, some (((fields.map (·.name)).filter fun field =>
            Interpolates message field).map fun field => ⟨field, .binding field⟩)⟩⟩

/-- What is generated for each variant, and for each that is marked. -/
structure Covers (variants : List Variant) (arms : List Arm) (sources : Option (List String))
    (conversions : List Conversion) : Prop where
  arm : List.Forall₂ (fun variant arm => ∃ message,
    variant.errorAttribute? = some (.message message) ∧ variant.ShownBy message arm) variants arms
  conversion : List.Forall₂ (fun variant conversion => conversion.variant = variant.name ∧
    variant.fields = .tuple [⟨conversion.type, true⟩]) (variants.filter (·.isMarked)) conversions
  source : sources.getD [] = (variants.filter (·.isMarked)).map (·.name)
  /-- Without a source there is no method that would give it. -/
  method : sources.isSome = true ↔ ∃ variant ∈ variants, variant.isMarked = true

section Arms

private theorem occursIn_eq_true {target text : List Char} :
    occursIn target text = true ↔ target <:+: text := by
  induction text with
  | nil => simp [occursIn]
  | cons c rest ih => rw [occursIn, Bool.or_eq_true_iff, ih, List.isPrefixOf_iff_prefix,
      List.infix_cons_iff]

theorem mentions_eq_true {message name : String} :
    mentions message name = true ↔ Interpolates message name := by
  rw [mentions, Bool.or_eq_true_iff, occursIn_eq_true, occursIn_eq_true]
  rfl

private theorem mentions_eq (message : String) :
    mentions message = fun name => decide (Interpolates message name) := by
  funext name
  rw [Bool.eq_iff_iff, mentions_eq_true, decide_eq_true_iff]

theorem shownBy_displayArm (message : String) (variant : Variant) :
    variant.ShownBy message (displayArm variant.name message variant.fields) := by
  obtain ⟨name, attributes, fields⟩ := variant
  cases fields with
  | unit => exact .unit
  | tuple fields =>
      simp only [displayArm, usedPositions, mentions_eq, decide_eq_true_iff]
      exact .tuple (namePositions_eq_renameOpenings message fields.length)
  | named fields =>
      simp only [displayArm, usedNames, mentions_eq]
      exact .named

end Arms

section Parts

variable {variants : List Variant} {parts : List (Arm × Option Conversion)}

private theorem tuple_of_isSingle {fields : Fields} {type : String} (single : fields.isSingle = true)
    (marked : fields.marked = [type]) : fields = .tuple [⟨type, true⟩] := by
  unfold Fields.isSingle at single
  split at single
  · rename_i field
    obtain ⟨written, converts⟩ := field
    cases converts with
    | false => cases marked
    | true =>
        cases marked
        rfl
  · cases single

private theorem conversion_of_expandVariant {variant : Variant} {arm : Arm}
    {conversion : Option Conversion} (expanded : expandVariant variant = .ok (arm, conversion)) :
    (variant.isMarked = false ∧ conversion = none) ∨
      ∃ type, variant.isMarked = true ∧ conversion = some ⟨variant.name, type⟩ ∧
        variant.fields = .tuple [⟨type, true⟩] := by
  obtain ⟨_, inner, _, wraps, _, rfl⟩ := expandVariant_eq_ok.mp expanded
  obtain ⟨marked, single⟩ := wrapped_eq_ok.mp wraps
  cases inner with
  | none =>
      refine .inl ⟨?_, rfl⟩
      rw [Variant.isMarked, ← marked]
      rfl
  | some type =>
      have nonempty : variant.fields.marked ≠ [] := by
        rw [← marked]
        simp
      refine .inr ⟨type, ?_, rfl, tuple_of_isSingle (single nonempty) marked.symm⟩
      rw [Variant.isMarked, ← marked]
      rfl

private theorem conversions_of_marked
    (each : List.Forall₂ (fun variant part => expandVariant variant = .ok part) variants parts) :
    List.Forall₂ (fun variant conversion => conversion.variant = variant.name ∧
      variant.fields = .tuple [⟨conversion.type, true⟩]) (variants.filter (·.isMarked))
        (parts.filterMap (·.2)) := by
  induction each with
  | nil => exact .nil
  | @cons variant part _ _ expanded _ ih =>
      obtain ⟨arm, conversion⟩ := part
      rcases conversion_of_expandVariant expanded with
        ⟨unmarked, rfl⟩ | ⟨type, marked, rfl, fields⟩
      · rw [List.filter_cons_of_neg (by simp [unmarked])]
        exact ih
      · rw [List.filter_cons_of_pos marked]
        exact .cons ⟨rfl, fields⟩ ih

private theorem sources_of_conversions {marked : List Variant} {conversions : List Conversion}
    {wraps : Variant → Conversion → Prop}
    (each : List.Forall₂ (fun variant conversion => conversion.variant = variant.name ∧
      wraps variant conversion) marked conversions) :
    conversions.map (·.variant) = marked.map (·.name) := by
  induction each with
  | nil => rfl
  | cons made _ ih => rw [List.map_cons, List.map_cons, made.1, ih]

private theorem isSome_sources? {conversions : List Conversion} :
    (sources? conversions).isSome = true ↔ conversions ≠ [] := by
  cases conversions <;> simp [sources?]

theorem covers_of_parts
    (each : List.Forall₂ (fun variant part => expandVariant variant = .ok part) variants parts) :
    Covers variants (parts.map (·.1)) (sources? (parts.filterMap (·.2)))
      (parts.filterMap (·.2)) := by
  have conversions := conversions_of_marked each
  have sources := sources_of_conversions conversions
  refine ⟨?_, conversions, (getD_sources? _).trans sources, ?_⟩
  · rw [List.forall₂_map_right_iff]
    refine each.imp fun variant part expanded => ?_
    obtain ⟨message, _, found, _, arm, _⟩ := expandVariant_eq_ok.mp expanded
    rw [arm]
    exact ⟨message, messageOf_eq_ok.mp found, shownBy_displayArm message variant⟩
  · rw [isSome_sources?, ← List.length_pos_iff, ← conversions.length_eq, List.length_pos_iff]
    simp [List.filter_eq_nil_iff]

end Parts

/-- The expansion of an enumeration is determined by its variants in the order of declaration. -/
structure ExpandsInOrder (description : Description) (variants : List Variant) : Prop where
  fails_iff : ∀ fault, derive description = .error fault ↔
    ∃ before variant after, variants = before ++ variant :: after ∧
      (∀ earlier ∈ before, ∀ fault, ¬ earlier.FirstFault fault) ∧ variant.FirstFault fault
  succeeds_iff : (∃ text, derive description = .ok text) ↔
    ∀ variant ∈ variants, ∀ fault, ¬ variant.FirstFault fault
  covers : ∀ impls, expand description = .ok impls → ∃ arms sources conversions,
    impls = .display (.arms arms) :: .error sources :: conversions.map .convert ∧
      Covers variants arms sources conversions
  printed : ∀ text, derive description = .ok text ↔ ∃ impls, expand description = .ok impls ∧
    text = " ".intercalate (impls.flatMap (Impl.tokens description))

section Enumeration

variable {name predicates : String} {parameters : List Parameter} {variants : List Variant}

theorem derive_enum_eq_error {fault : Fault} :
    derive ⟨name, parameters, predicates, .enum variants⟩ = .error fault ↔
      variants.mapM expandVariant = .error fault := by
  simp only [derive, expand, expandEnum, bind_eq_error]
  constructor
  · rintro ((fails | ⟨_, _, same⟩) | ⟨_, _, same⟩)
    · exact fails
    · cases same
    · cases same
  · intro fails
    exact .inl (.inl fails)

theorem derive_eq_ok {description : Description} {text : String} :
    derive description = .ok text ↔ ∃ impls, expand description = .ok impls ∧
      text = " ".intercalate (impls.flatMap (Impl.tokens description)) := by
  rw [derive, bind_eq_ok]
  constructor
  · rintro ⟨impls, expanded, same⟩
    cases same
    exact ⟨impls, expanded, rfl⟩
  · rintro ⟨impls, expanded, rfl⟩
    exact ⟨impls, expanded, rfl⟩

theorem derive_enum_succeeds :
    (∃ text, derive ⟨name, parameters, predicates, .enum variants⟩ = .ok text) ↔
      ∃ parts, variants.mapM expandVariant = .ok parts := by
  simp only [derive_eq_ok, expand, expandEnum_eq_ok, mapM_eq_ok]
  constructor
  · rintro ⟨_, _, ⟨parts, each, _⟩, _⟩
    exact ⟨parts, each⟩
  · rintro ⟨parts, each⟩
    exact ⟨_, _, ⟨parts, each, rfl⟩, rfl⟩

end Enumeration

/-- Whatever its variants and their attributes are, an enumeration is refused for the first fault that
is met, or all of it is expanded. -/
theorem enum_expands_in_order (name predicates : String) (parameters : List Parameter)
    (variants : List Variant) :
    ExpandsInOrder ⟨name, parameters, predicates, .enum variants⟩ variants where
  fails_iff fault := by
    rw [derive_enum_eq_error, mapM_eq_error]
    simp only [expandVariant_succeeds, expandVariant_eq_error]
  succeeds_iff := by
    rw [derive_enum_succeeds, mapM_succeeds]
    simp only [expandVariant_succeeds]
  covers impls expanded := by
    obtain ⟨parts, each, rfl⟩ := expandEnum_eq_ok.mp expanded
    exact ⟨_, _, _, rfl, covers_of_parts each⟩
  printed _ := derive_eq_ok

/-- Variants with fields of each kind, one of them marked, and attributes that are not looked at. -/
def wrappingVariants : List Variant :=
  [⟨"Plain", [.foreign, .message "plain", .notText], .unit⟩,
    ⟨"Pair", [.message "second: \x7b1:#x\x7d"], .tuple [⟨"u8", false⟩, ⟨"u8", false⟩]⟩,
    ⟨"Wrapped", [.message "wrapped"], .tuple [⟨"Inner", true⟩]⟩,
    ⟨"Named", [.message "\x7bg\x7d of h"], .named [⟨"g", "u8", false⟩, ⟨"h", "u8", false⟩]⟩]

def wrappingTokens : Tokens :=
  ["impl", ":: std :: fmt :: Display", "for", "E", "\x7b",
    "fn fmt ( & self , f : & mut :: std :: fmt :: Formatter < '_ > ) -> :: std :: fmt :: Result",
    "\x7b", "match", "self", "\x7b",
    "Self", "::", "Plain", "=>", "write", "!", "(", "f", ",", "\"plain\"", ")", ",",
    "Self", "::", "Pair", "(", "_", ",", "f1", ")", "=>",
    "write", "!", "(", "f", ",", "\"second: \x7bf1:#x\x7d\"", ",", "f1", "=", "f1", ")", ",",
    "Self", "::", "Wrapped", "(", "_", ")", "=>",
    "write", "!", "(", "f", ",", "\"wrapped\"", ",", ")", ",",
    "Self", "::", "Named", "\x7b", "g", ",", "..", "\x7d", "=>",
    "write", "!", "(", "f", ",", "\"\x7bg\x7d of h\"", ",", "g", "=", "g", ")", ",",
    "\x7d", "\x7d", "\x7d",
    "impl", ":: std :: error :: Error", "for", "E", "\x7b",
    "# [ allow ( unreachable_patterns ) ] fn source ( & self ) -> :: std :: option :: Option <",
    "& ( dyn :: std :: error :: Error + 'static )", ">", "\x7b", "match", "self", "\x7b",
    "Self", "::", "Wrapped", "( inner )", "=>", ":: std :: option :: Option :: Some",
    "(", "inner as", "& ( dyn :: std :: error :: Error + 'static )", ")", ",",
    "_", "=>", ":: std :: option :: Option :: None", ",", "\x7d", "\x7d", "\x7d",
    "impl", ":: std :: convert :: From <", "Inner", ">", "for", "E", "\x7b",
    "fn from ( inner :", "Inner", ") -> Self", "\x7b", "Self", "::", "Wrapped", "( inner )",
    "\x7d", "\x7d"]

theorem enum_expands_in_order_wrapping :
    derive ⟨"E", [], "", .enum wrappingVariants⟩ = .ok (" ".intercalate wrappingTokens) ∧
      (∃ arms conversions, expand ⟨"E", [], "", .enum wrappingVariants⟩ =
          .ok (.display (.arms arms) :: .error (some ["Wrapped"]) :: conversions.map .convert) ∧
        Covers wrappingVariants arms (some ["Wrapped"]) conversions) ∧
      derive ⟨"E", [], "", .enum [⟨"A", [.message "a"], .unit⟩,
        ⟨"B", [.message "b"], .named [⟨"x", "u8", true⟩]⟩, ⟨"C", [], .unit⟩]⟩ =
          .error .fromOnNamedField := by
  refine ⟨derive_eq_ok.mpr ⟨_, rfl, congrArg _ (by decide +kernel)⟩, ?_, ?_⟩
  · obtain ⟨arms, sources, conversions, same, covers⟩ :=
      (enum_expands_in_order "E" "" [] wrappingVariants).covers _ rfl
    obtain ⟨_, ⟨error, _⟩⟩ := List.cons_eq_cons.mp same |>.imp_right List.cons_eq_cons.mp
    cases error
    exact ⟨arms, conversions, congrArg Except.ok same, covers⟩
  · refine ((enum_expands_in_order "E" "" [] _).fails_iff _).mpr ⟨[_], _, [_], rfl, ?_, ?_⟩
    · intro earlier member fault first
      obtain rfl := List.mem_singleton.mp member
      cases first with
      | missing absent => cases absent
      | unlisted found => cases found
      | notText found => cases found
      | misplaced _ misplaced => cases misplaced
    · exact .misplaced rfl (.named (List.mem_singleton_self _) rfl)

end StackAssembler.ErrorType

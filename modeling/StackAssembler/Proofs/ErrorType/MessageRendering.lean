import StackAssembler.Proofs.ErrorType.MessageSearch
import StackAssembler.Proofs.ErrorType.NameResolution

/-!
What the generated writes show. The declared message is a template over the fields, and a write should
make the text that the template stands for, with no argument left over. It does unless the text of the
message quotes a field: the quote of a position is rewritten, and the field of a quoted name is passed
in vain.
-/

set_option autoImplicit false
set_option relaxedAutoImplicit false

namespace StackAssembler.ErrorType

section Filling

variable (value? : List Char → Option Nat) (display : Nat → Option (List Char) → List Char)

/-- What a piece is shown as, where `value?` gives the field that a name stands for and `display` its
text under a spec. -/
def Piece.filled : Piece → List Char
  | .literal c => [c]
  | .openBrace => ['\x7b']
  | .closeBrace => ['\x7d']
  | .hole name spec => (value? name).elim [] (display · spec)

def filled (template : Template) : List Char :=
  template.flatMap (Piece.filled value? display)

/-- The text of a template. There is none if a placeholder stands for nothing. -/
def rendered? (template : Template) : Option (List Char) :=
  if ∀ name ∈ holes template, (value? name).isSome then some (filled value? display template)
  else none

end Filling

def Referent.position? : Referent → Option Nat
  | .formatter => none
  | .field position => some position

def Site.passed? (fields : Fields) (site : Site) (name : List Char) : Option Nat :=
  ((site.write.arguments.getD []).find? fun argument => argument.name.toList = name).bind
    fun argument => (site.value? fields argument.value).bind Referent.position?

namespace Fields

/-- The field that a placeholder of a declared message stands for. -/
def selected? (fields : Fields) (name : List Char) : Option Nat :=
  fields.member? (String.ofList name)

def Suits (fields : Fields) (template : Template) : Prop :=
  ∀ name ∈ holes template, (fields.selected? name).isSome

end Fields

instance (fields : Fields) : DecidablePred fields.Suits := fun template =>
  inferInstanceAs (Decidable (∀ name ∈ holes template, (fields.selected? name).isSome))

def Shown.Reads (shown : Shown) (template : Template) : Prop :=
  ∃ message, shown.message = .ok message ∧ read? .text message.toList = some template ∧
    shown.fields.Suits template

/-- A write that shows a template over the fields. -/
structure Renders (fields : Fields) (template : Template) (site : Site) : Prop where
  /-- Whatever the fields are shown as, the text is that of the template. -/
  text : ∀ display, (read? .text site.write.format.toList).bind
    (rendered? (site.passed? fields) display) = some (filled fields.selected? display template)
  /-- No argument is passed in vain. -/
  used : ∀ argument ∈ site.write.arguments.getD [], ∃ pieces,
    read? .text site.write.format.toList = some pieces ∧ argument.name.toList ∈ holes pieces

/-- The name of a field is an identifier, which may be written raw. -/
def isFieldName (name : List Char) : Bool :=
  isIdentifier name || ['r', '#'].isPrefixOf name && isIdentifier (name.drop 2)

def Fields.hasIdentifiers : Fields → Bool
  | .unit | .tuple _ => true
  | .named fields => fields.all fun field => isFieldName field.name.toList

/-- The text quotes no position. What it quotes of the names under which fields are passed is also in
a placeholder. -/
def Fields.Unmistakable (template : Template) : Fields → Prop
  | .unit => True
  | .tuple fields => ∀ i < fields.length, quotes (toString i).toList template = false ∧
      (quotes (positionName i).toList template = true → (toString i).toList ∈ holes template)
  | .named fields => ∀ field ∈ fields,
      quotes field.name.toList template = true → field.name.toList ∈ holes template

instance (template : Template) : DecidablePred (Fields.Unmistakable template)
  | .unit => isTrue trivial
  | .tuple fields => inferInstanceAs <| Decidable <|
      ∀ i < fields.length, quotes (toString i).toList template = false ∧
        (quotes (positionName i).toList template = true → (toString i).toList ∈ holes template)
  | .named fields => inferInstanceAs <| Decidable <| ∀ field ∈ fields,
      quotes field.name.toList template = true → field.name.toList ∈ holes template

section Filled

variable {value? other? : List Char → Option Nat}
  {display : Nat → Option (List Char) → List Char} {template : Template}

private theorem holes_hole (name : List Char) (spec : Option (List Char)) :
    holes (.hole name spec :: template) = name :: holes template :=
  rfl

private theorem filled_congr (agree : ∀ name ∈ holes template, other? name = value? name) :
    filled other? display template = filled value? display template := by
  induction template with
  | nil => rfl
  | cons piece rest ih =>
      cases piece with
      | literal c => exact congrArg (c :: ·) (ih agree)
      | openBrace => exact congrArg ('\x7b' :: ·) (ih agree)
      | closeBrace => exact congrArg ('\x7d' :: ·) (ih agree)
      | hole name spec =>
          rw [holes_hole, List.forall_mem_cons] at agree
          rw [filled, List.flatMap_cons, Piece.filled, agree.1]
          exact congrArg (_ ++ ·) (ih agree.2)

private theorem rendered?_of_suits (suits : ∀ name ∈ holes template, (value? name).isSome) :
    rendered? value? display template = some (filled value? display template) :=
  if_pos suits

variable {count : Nat}

private theorem length_filled_le
    (agree : ∀ name ∈ holes template, other? ('f' :: name) = value? name) :
    (filled value? display template).length ≤
      (filled other? display (lettered count template)).length := by
  induction template with
  | nil => exact Nat.le_refl _
  | cons piece rest ih =>
      cases piece with
      | literal c => exact Nat.succ_le_succ (ih agree)
      | openBrace =>
          have behind := ih agree
          rw [lettered]
          split
          · exact Nat.succ_le_succ (Nat.le_succ_of_le behind)
          · exact Nat.succ_le_succ behind
      | closeBrace => exact Nat.succ_le_succ (ih agree)
      | hole name spec =>
          rw [holes_hole, List.forall_mem_cons] at agree
          have behind := ih agree.2
          rw [lettered, filled, filled, List.flatMap_cons, List.flatMap_cons, Piece.filled,
            Piece.filled, agree.1, List.length_append, List.length_append]
          exact Nat.add_le_add_left behind _

private theorem filled_lettered_eq_iff
    (agree : ∀ name ∈ holes template, other? ('f' :: name) = value? name) :
    filled other? display (lettered count template) = filled value? display template ↔
      ∀ i < count, quotes (toString i).toList template = false := by
  induction template with
  | nil => simp [filled, lettered, quotes]
  | cons piece rest ih =>
      cases piece with
      | literal c => exact (List.cons_inj_right c).trans (ih agree)
      | openBrace =>
          by_cases found : opensPosition count (written rest) = true
          · -- with a letter in front the text is too long
            have longer : (filled value? display rest).length ≤
                (filled other? display (lettered count rest)).length := length_filled_le agree
            refine iff_of_false ?_ ?_
            · rw [lettered, if_pos found]
              intro same
              have lengths := congrArg List.length same
              simp only [filled, List.flatMap_cons, Piece.filled, List.length_append,
                List.length_singleton] at lengths longer
              omega
            · intro unquoted
              obtain ⟨i, inside, opens⟩ := opensPosition_iff.mp found
              have quoted := unquoted i inside
              rw [quotes, opens] at quoted
              cases quoted
          · rw [lettered, if_neg found]
            refine ((List.cons_inj_right '\x7b').trans (ih agree)).trans ?_
            refine forall₂_congr fun i inside => ?_
            rw [quotes, opensName_eq_false found inside, Bool.false_or]
      | closeBrace => exact (List.cons_inj_right '\x7d').trans (ih agree)
      | hole name spec =>
          rw [holes_hole, List.forall_mem_cons] at agree
          rw [lettered, filled, filled, List.flatMap_cons, List.flatMap_cons, Piece.filled,
            Piece.filled, agree.1, List.append_right_inj]
          exact ih agree.2

end Filled

section Passing

variable {shown : Shown} {message : String}

private theorem passed?_eq {argument : Argument}
    (given : argument ∈ (shown.site message).write.arguments.getD []) :
    (shown.site message).passed? shown.fields argument.name.toList =
      shown.fields.argument? argument.name := by
  have found : ((shown.site message).write.arguments.getD []).find?
      (fun other => other.name.toList = argument.name.toList) ≠ none := by
    rw [ne_eq, List.find?_eq_none]
    intro none
    exact none argument given (decide_eq_true rfl)
  obtain ⟨first, located⟩ := Option.ne_none_iff_exists'.mp found
  have matched := List.find?_some located
  have named : first.name = argument.name := String.toList_injective (of_decide_eq_true matched)
  obtain ⟨position, stands, value⟩ :=
    arguments_resolve shown message first (List.mem_of_find?_eq_some located)
  rw [Site.passed?, located, Option.bind_some, value, ← named, stands]
  rfl

private theorem renders_iff {fields : Fields} {template pieces : Template} {site : Site}
    (reads : read? .text site.write.format.toList = some pieces) :
    Renders fields template site ↔
      (∀ display, rendered? (site.passed? fields) display pieces =
        some (filled fields.selected? display template)) ∧
      ∀ argument ∈ site.write.arguments.getD [], argument.name.toList ∈ holes pieces := by
  constructor
  · intro renders
    refine ⟨fun display => ?_, fun argument given => ?_⟩
    · have text := renders.text display
      rwa [reads, Option.bind_some] at text
    · obtain ⟨others, same, member⟩ := renders.used argument given
      rw [reads] at same
      cases same
      exact member
  · intro renders
    refine ⟨fun display => ?_, fun argument given => ⟨pieces, reads, renders.2 argument given⟩⟩
    rw [reads, Option.bind_some]
    exact renders.1 display

end Passing

section Kinds

variable {subject : Subject} {attributes : List Attribute} {message : String} {template : Template}

private theorem renders_unit (reads : read? .text message.toList = some template)
    (suits : Fields.unit.Suits template) :
    Renders .unit template (Shown.site ⟨subject, attributes, .unit⟩ message) := by
  have written : (Shown.site ⟨subject, attributes, .unit⟩ message).write = ⟨message, none⟩ := by
    cases subject <;> rfl
  have same : read? .text
      (Shown.site ⟨subject, attributes, .unit⟩ message).write.format.toList = some template := by
    rw [written]
    exact reads
  have empty (name : List Char) : name ∉ holes template := by
    intro member
    cases suits name member
  refine (renders_iff same).mpr ⟨?_, ?_⟩
  · intro display
    rw [rendered?_of_suits fun name member => absurd member (empty name),
      filled_congr fun name member => absurd member (empty name)]
  · rw [written]
    exact fun _ given => absurd given List.not_mem_nil

private theorem mem_names_named {fields : List NamedField} {name : String} :
    (∃ argument ∈ (Shown.site ⟨subject, attributes, .named fields⟩ message).write.arguments.getD [],
      argument.name = name) ↔ name ∈ usedNames message fields := by
  cases subject <;> simp [Shown.site, Site.write, displayArm, displayStruct]

private theorem mem_names_tuple {fields : List TupleField} {name : String} :
    (∃ argument ∈ (Shown.site ⟨subject, attributes, .tuple fields⟩ message).write.arguments.getD [],
      argument.name = name) ↔ ∃ i < fields.length, positionName i = name ∧
        mentions (namePositions message fields.length) (positionName i) = true := by
  cases subject <;>
    simp [Shown.site, Site.write, displayArm, displayStruct, usedPositions, and_assoc,
      and_left_comm, and_comm]

private theorem plain_of_isFieldName {name : List Char} (isName : isFieldName name = true) :
    Plain name := by
  rcases Bool.or_eq_true_iff.mp isName with identifier | raw
  · exact plain_of_isArgumentName (Bool.or_eq_true_iff.mpr (.inl identifier))
  · obtain ⟨marked, identifier⟩ := Bool.and_eq_true_iff.mp raw
    obtain ⟨rest, rfl⟩ := List.isPrefixOf_iff_prefix.mp marked
    have mark : Plain ['r', '#'] := by simp [Plain]
    have behind : Plain rest := plain_of_isArgumentName (Bool.or_eq_true_iff.mpr (.inl identifier))
    intro c member
    exact (List.mem_append.mp member).elim (mark c) (behind c)

section Named

variable {fields : List NamedField}

private theorem mem_usedNames {field : NamedField} (member : field ∈ fields)
    (found : mentions message field.name = true) : field.name ∈ usedNames message fields :=
  List.mem_filter.mpr ⟨List.mem_map_of_mem member, found⟩

private theorem mentions_field_iff (identifiers : (Fields.named fields).hasIdentifiers = true)
    (reads : read? .text message.toList = some template) {field : NamedField}
    (member : field ∈ fields) :
    mentions message field.name = true ↔
      field.name.toList ∈ holes template ∨ quotes field.name.toList template = true :=
  mentions_iff_hole_or_quotes
    (plain_of_isFieldName (List.all_eq_true.mp identifiers field member)) reads

private theorem passed?_named (identifiers : (Fields.named fields).hasIdentifiers = true)
    (reads : read? .text message.toList = some template)
    (suits : (Fields.named fields).Suits template) {name : List Char}
    (hole : name ∈ holes template) :
    (Shown.site ⟨subject, attributes, .named fields⟩ message).passed? (.named fields) name =
      (Fields.named fields).selected? name := by
  have selected := suits name hole
  rw [Fields.selected?, Fields.member?, List.findIdx?_isSome, List.any_eq_true] at selected
  obtain ⟨field, member, same⟩ := selected
  have text : field.name.toList = name := by
    rw [of_decide_eq_true same, String.toList_ofList]
  have found := (mentions_field_iff identifiers reads member).mpr (.inl (text ▸ hole))
  obtain ⟨argument, given, named⟩ := mem_names_named.mpr (mem_usedNames member found)
  have passed := passed?_eq given
  rw [named, text, of_decide_eq_true same] at passed
  exact passed

private theorem renders_named_iff (identifiers : (Fields.named fields).hasIdentifiers = true)
    (reads : read? .text message.toList = some template)
    (suits : (Fields.named fields).Suits template) :
    Renders (.named fields) template (Shown.site ⟨subject, attributes, .named fields⟩ message) ↔
      (Fields.named fields).Unmistakable template := by
  have format : (Shown.site ⟨subject, attributes, .named fields⟩ message).write.format = message := by
    cases subject <;> rfl
  have mentioned {field : NamedField} (member : field ∈ fields) :=
    mentions_field_iff identifiers reads member
  rw [renders_iff (format ▸ reads)]
  constructor
  · intro renders field member quoted
    have used := mem_usedNames member ((mentioned member).mpr (.inr quoted))
    obtain ⟨argument, given, named⟩ := mem_names_named.mpr used
    rw [← named]
    exact renders.2 argument given
  · intro unmistakable
    have passes (name : List Char) (hole : name ∈ holes template) :
        (Shown.site ⟨subject, attributes, .named fields⟩ message).passed? (.named fields) name =
          (Fields.named fields).selected? name :=
      passed?_named identifiers reads suits hole
    refine ⟨fun display => ?_, fun argument given => ?_⟩
    · rw [rendered?_of_suits fun name hole => passes name hole ▸ suits name hole,
        filled_congr passes]
    · obtain ⟨declared, found⟩ := List.mem_filter.mp (mem_names_named.mp ⟨argument, given, rfl⟩)
      obtain ⟨field, member, same⟩ := List.mem_map.mp declared
      rw [← same] at found ⊢
      rcases (mentioned member).mp found with hole | quoted
      · exact hole
      · exact unmistakable field member quoted

end Named

section Tuple

variable {fields : List TupleField}

private theorem numbered_of_suits (suits : (Fields.tuple fields).Suits template) :
    Numbered fields.length template := by
  intro name hole
  have selected := suits name hole
  rw [Fields.selected?, Fields.member?, List.find?_isSome] at selected
  obtain ⟨i, member, same⟩ := selected
  refine ⟨i, List.mem_range.mp member, ?_⟩
  rw [of_decide_eq_true same, String.toList_ofList]

private theorem passed?_tuple (reads : read? .text message.toList = some template)
    (suits : (Fields.tuple fields).Suits template) {name : List Char}
    (hole : name ∈ holes template) :
    (Shown.site ⟨subject, attributes, .tuple fields⟩ message).passed? (.tuple fields)
      ('f' :: name) = (Fields.tuple fields).selected? name := by
  have numbered := numbered_of_suits suits
  obtain ⟨i, inside, rfl⟩ := numbered name hole
  have found := (mentions_positionName_iff numbered reads inside).mpr (.inl hole)
  obtain ⟨argument, given, named⟩ := mem_names_tuple.mpr ⟨i, inside, rfl, found⟩
  have passed := passed?_eq given
  rw [named, toList_positionName, Fields.argument?_positionName inside] at passed
  rw [passed, Fields.selected?, String.ofList_toList, Fields.member?_toString inside]

private theorem renders_tuple_iff (reads : read? .text message.toList = some template)
    (suits : (Fields.tuple fields).Suits template) :
    Renders (.tuple fields) template (Shown.site ⟨subject, attributes, .tuple fields⟩ message) ↔
      (Fields.tuple fields).Unmistakable template := by
  have format : (Shown.site ⟨subject, attributes, .tuple fields⟩ message).write.format =
      namePositions message fields.length := by
    cases subject <;> rfl
  have numbered := numbered_of_suits suits
  have mentioned {i : Nat} (inside : i < fields.length) :=
    mentions_positionName_iff numbered reads inside
  have passes (name : List Char) (hole : name ∈ holes template) :
      (Shown.site ⟨subject, attributes, .tuple fields⟩ message).passed? (.tuple fields)
        ('f' :: name) = (Fields.tuple fields).selected? name :=
    passed?_tuple reads suits hole
  have every : ∀ name ∈ holes (lettered fields.length template),
      ((Shown.site ⟨subject, attributes, .tuple fields⟩ message).passed? (.tuple fields)
        name).isSome := by
    intro name hole
    rw [holes_lettered] at hole
    obtain ⟨number, member, rfl⟩ := List.mem_map.mp hole
    rw [passes number member]
    exact suits number member
  rw [renders_iff (format ▸ read?_namePositions numbered reads)]
  simp only [rendered?_of_suits every, Option.some.injEq, filled_lettered_eq_iff passes]
  constructor
  · intro renders i inside
    refine ⟨renders.1 (fun _ _ => []) i inside, fun quoted => ?_⟩
    obtain ⟨argument, given, named⟩ :=
      mem_names_tuple.mpr ⟨i, inside, rfl, (mentioned inside).mpr (.inr (.inl quoted))⟩
    rw [← positionName_mem_holes, ← named]
    exact renders.2 argument given
  · intro unmistakable
    refine ⟨fun _ i inside => (unmistakable i inside).1, fun argument given => ?_⟩
    obtain ⟨i, inside, named, found⟩ := mem_names_tuple.mp ⟨argument, given, rfl⟩
    obtain ⟨unquoted, covered⟩ := unmistakable i inside
    rw [← named, positionName_mem_holes]
    rcases (mentioned inside).mp found with hole | quoted | quoted
    · exact hole
    · exact covered quoted
    · rw [unquoted] at quoted
      cases quoted

end Tuple

end Kinds

/-- Every write shows the declared message, if and only if no quote in a message misleads the search. -/
theorem generated_writes_render_iff {description : Description} {impls : List Impl}
    (expanded : expand description = .ok impls)
    (identifiers : ∀ shown ∈ description.shown, shown.fields.hasIdentifiers = true) :
    List.Forall₂ (fun shown site => ∀ template, shown.Reads template →
        Renders shown.fields template site) description.shown (impls.flatMap Impl.sites) ↔
      ∀ shown ∈ description.shown, ∀ template, shown.Reads template →
        shown.fields.Unmistakable template := by
  apply forall₂_sites_iff expanded
  intro shown member message found
  refine forall₂_congr fun template declared => ?_
  obtain ⟨other, same, reads, suits⟩ := declared
  rw [found] at same
  cases same
  have proper := identifiers shown member
  obtain ⟨subject, attributes, fields⟩ := shown
  cases fields with
  | unit => exact iff_of_true (renders_unit reads suits) trivial
  | tuple fields => exact renders_tuple_iff reads suits
  | named fields => exact renders_named_iff proper reads suits

/-- Messages with braces around placeholders, a name that starts another one, and a letter in
braces that is no position's name. -/
def bracedVariants : Description :=
  ⟨"Braced", [], "", .enum
    [⟨"Plain", [.message "\x7b\x7b0\x7d\x7d"], .unit⟩,
      ⟨"Pair", [.message "\x7b\x7b\x7b1:#x\x7d\x7d\x7d \x7b\x7bf\x7d\x7d \x7b0\x7d"],
        .tuple [⟨"u8", false⟩, ⟨"u8", false⟩]⟩,
      ⟨"Named", [.message "\x7bab\x7d \x7b\x7b\x7ba:?\x7d\x7d\x7d"],
        .named [⟨"a", "u8", false⟩, ⟨"ab", "u8", false⟩]⟩]⟩

theorem generated_writes_render_iff_braced :
    ∃ impls, expand bracedVariants = .ok impls ∧
      (∀ shown ∈ bracedVariants.shown, shown.fields.hasIdentifiers = true) ∧
      List.Forall₂ (fun shown site => ∀ template, shown.Reads template →
        Renders shown.fields template site) bracedVariants.shown (impls.flatMap Impl.sites) := by
  have identifiers : ∀ shown ∈ bracedVariants.shown, shown.fields.hasIdentifiers = true := by
    decide
  refine ⟨_, rfl, identifiers, (generated_writes_render_iff rfl identifiers).mpr ?_⟩
  intro shown member template reads
  obtain ⟨message, found, reads, _⟩ := reads
  rcases List.mem_cons.mp member with rfl | member
  · exact trivial
  · rcases List.mem_cons.mp member with rfl | member
    · cases found
      cases reads
      decide
    · rw [List.mem_singleton.mp member] at found ⊢
      cases found
      cases reads
      decide

def quotedPosition : Description :=
  ⟨"E", [], "", .enum
    [⟨"V", [.message "\x7b\x7b0\x7d\x7d"], .tuple [⟨"u8", false⟩]⟩]⟩

/-- The text is taken for a placeholder, and another one is shown. -/
theorem quoted_position_rewritten :
    ∃ impls, expand quotedPosition = .ok impls ∧
      ¬ List.Forall₂ (fun shown site => ∀ template, shown.Reads template →
        Renders shown.fields template site) quotedPosition.shown (impls.flatMap Impl.sites) := by
  refine ⟨_, rfl, ?_⟩
  intro render
  cases render with
  | cons first _ =>
      have text := (first [.openBrace, .literal '0', .closeBrace]
        ⟨_, rfl, by decide, by decide⟩).text (fun _ _ => [])
      revert text
      decide

end StackAssembler.ErrorType

import StackAssembler.Proofs.ErrorType.FormatString
import StackAssembler.Proofs.ErrorType.PositionNaming

/-!
Plain search in format strings. Besides the placeholders it finds names that are only quoted: an
opening brace that is text, written twice, looks like the start of a placeholder from its second half
on. Renaming positions by search renames all placeholders, and changes text where a position is quoted.
-/

set_option autoImplicit false
set_option relaxedAutoImplicit false

namespace StackAssembler.ErrorType

def Piece.name? : Piece → Option (List Char)
  | .hole name _ => some name
  | .literal _ | .openBrace | .closeBrace => none

def holes (template : Template) : List (List Char) :=
  template.filterMap Piece.name?

/-- Whether a brace in the text is followed by a name as if it opened a placeholder. -/
def quotes (name : List Char) : Template → Bool
  | [] => false
  | .openBrace :: rest => opensName name (written rest) || quotes name rest
  | .literal _ :: rest | .closeBrace :: rest | .hole _ _ :: rest => quotes name rest

private theorem quotes_openBrace (name : List Char) (rest : Template) :
    quotes name (.openBrace :: rest) = (opensName name (written rest) || quotes name rest) :=
  rfl

section Pieces

private def holeEnd : Option (List Char) → List Char
  | none => ['\x7d']
  | some spec => ':' :: (spec ++ ['\x7d'])

private theorem written_hole (name : List Char) (spec : Option (List Char)) (rest : Template) :
    written (.hole name spec :: rest) = '\x7b' :: (name ++ (holeEnd spec ++ written rest)) := by
  cases spec with
  | none => simp [written, Piece.written, holeEnd]
  | some spec => simp [written, Piece.written, holeEnd]

variable {name : List Char} {spec : Option (List Char)} {following : List Char}

private theorem isArgumentName_of_isReadable
    (readable : (Piece.hole name spec).isReadable following = true) : isArgumentName name = true := by
  cases spec with
  | none => exact readable
  | some spec => exact (Bool.and_eq_true_iff.mp (Bool.and_eq_true_iff.mp readable).1).1

private theorem brace_not_mem_of_plain (plain : Plain name) : '\x7b' ∉ name := by
  intro member
  exact (plain _ member).1 rfl

private theorem brace_not_mem_holeEnd
    (readable : (Piece.hole name spec).isReadable following = true) : '\x7b' ∉ holeEnd spec := by
  cases spec with
  | none => decide
  | some spec =>
      have allowed := (Bool.and_eq_true_iff.mp (Bool.and_eq_true_iff.mp readable).1).2
      intro member
      have inside : '\x7b' ∈ spec := by simpa [holeEnd] using member
      have braceless := List.all_eq_true.mp allowed _ inside
      revert braceless
      decide

private theorem brace_not_mem_hole (readable : (Piece.hole name spec).isReadable following = true) :
    '\x7b' ∉ name ++ holeEnd spec := by
  rw [List.mem_append, not_or]
  exact ⟨brace_not_mem_of_plain (plain_of_isArgumentName (isArgumentName_of_isReadable readable)),
    brace_not_mem_holeEnd readable⟩

private theorem literal_ne_brace {c : Char}
    (readable : (Piece.literal c).isReadable following = true) : c ≠ '\x7b' :=
  bne_iff_ne.mp (Bool.and_eq_true_iff.mp readable).1

end Pieces

section Search

variable {name other : List Char}

private theorem ended_prefix_iff {x y : Char} (absent : x ∉ other) (missing : y ∉ name)
    (more : List Char) : name ++ [x] <+: other ++ y :: more ↔ name = other ∧ x = y := by
  induction name generalizing other with
  | nil =>
      cases other with
      | nil => simp
      | cons d other =>
          have differs : x ≠ d := by
            intro same
            exact absent (same ▸ List.mem_cons_self)
          simp [List.cons_prefix_cons, differs]
  | cons c name ih =>
      rw [List.mem_cons, not_or] at missing
      cases other with
      | nil => simp [List.cons_prefix_cons, Ne.symm missing.1]
      | cons d other =>
          rw [List.mem_cons, not_or] at absent
          rw [List.cons_append, List.cons_append, List.cons_prefix_cons, ih absent.2 missing.2,
            List.cons.injEq, and_assoc]

private theorem opensName_hole (plain : Plain name) (proper : Plain other)
    (spec : Option (List Char)) (text : List Char) :
    opensName name (other ++ (holeEnd spec ++ text)) = true ↔ name = other := by
  have closing : '\x7d' ∉ other := fun member => (proper _ member).2.1 rfl
  have colon : ':' ∉ other := fun member => (proper _ member).2.2 rfl
  rw [opensName, Bool.or_eq_true_iff, List.isPrefixOf_iff_prefix, List.isPrefixOf_iff_prefix]
  cases spec with
  | none =>
      have missing : '\x7d' ∉ name := fun member => (plain _ member).2.1 rfl
      rw [holeEnd, List.singleton_append, ended_prefix_iff closing missing,
        ended_prefix_iff colon missing]
      simp
  | some spec =>
      have missing : ':' ∉ name := fun member => (plain _ member).2.2 rfl
      rw [holeEnd, List.cons_append, ended_prefix_iff closing missing,
        ended_prefix_iff colon missing]
      simp

private theorem opensName_brace (plain : '\x7b' ∉ name) (text : List Char) :
    opensName name ('\x7b' :: text) = false := by
  cases name with
  | nil => rfl
  | cons c name =>
      have differs : (c == '\x7b') = false := beq_false_of_ne fun same => plain (same ▸ .head name)
      simp [opensName, List.isPrefixOf_cons_cons, differs]

private theorem behindBraces_append {text : List Char} (plain : '\x7b' ∉ text) (more : List Char) :
    behindBraces (text ++ more) = behindBraces more := by
  induction text with
  | nil => rfl
  | cons c text ih =>
      rw [List.mem_cons, not_or] at plain
      rw [List.cons_append, behindBraces, if_neg (Ne.symm plain.1), ih plain.2]

private theorem opensName_behindBraces_iff (plain : Plain name) {template : Template}
    (readable : isReadable template = true) :
    (∃ behind ∈ behindBraces (written template), opensName name behind = true) ↔
      name ∈ holes template ∨ quotes name template = true := by
  induction template with
  | nil => simp [written, behindBraces, holes, quotes]
  | cons piece rest ih =>
      obtain ⟨first, others⟩ := Bool.and_eq_true_iff.mp readable
      have behind := ih others
      cases piece with
      | literal c =>
          have passed : behindBraces (written (.literal c :: rest)) = behindBraces (written rest) :=
            if_neg (literal_ne_brace first)
          rw [passed]
          exact behind
      | openBrace =>
          -- the first of the two braces is followed by the other one
          have halves : behindBraces (written (.openBrace :: rest)) =
              ('\x7b' :: written rest) :: written rest :: behindBraces (written rest) := rfl
          rw [halves, List.exists_mem_cons_iff, List.exists_mem_cons_iff,
            opensName_brace (brace_not_mem_of_plain plain), behind, quotes_openBrace,
            Bool.or_eq_true_iff, or_iff_right Bool.false_ne_true]
          exact or_left_comm
      | closeBrace => exact behind
      | hole other spec =>
          have proper := plain_of_isArgumentName (isArgumentName_of_isReadable first)
          have start : behindBraces (written (.hole other spec :: rest)) =
              (other ++ (holeEnd spec ++ written rest)) :: behindBraces (written rest) := by
            rw [written_hole, behindBraces, if_pos rfl, ← List.append_assoc,
              behindBraces_append (brace_not_mem_hole first)]
          have named : holes (.hole other spec :: rest) = other :: holes rest := rfl
          rw [start, List.exists_mem_cons_iff, opensName_hole plain proper, behind, named,
            List.mem_cons, quotes, or_assoc]

theorem mentions_iff_hole_or_quotes {message name : String} {template : Template}
    (plain : Plain name.toList) (reads : read? .text message.toList = some template) :
    mentions message name = true ↔
      name.toList ∈ holes template ∨ quotes name.toList template = true := by
  obtain ⟨text, readable⟩ := read?_eq_some_iff.mp reads
  rw [mentions_iff, text]
  exact opensName_behindBraces_iff plain readable

end Search

/-- The template in which positions below `count` are renamed by search. -/
def lettered (count : Nat) : Template → Template
  | [] => []
  | .openBrace :: rest =>
      if opensPosition count (written rest) then
        .openBrace :: .literal 'f' :: lettered count rest
      else .openBrace :: lettered count rest
  | .hole name spec :: rest => .hole ('f' :: name) spec :: lettered count rest
  | .literal c :: rest => .literal c :: lettered count rest
  | .closeBrace :: rest => .closeBrace :: lettered count rest

def Numbered (count : Nat) (template : Template) : Prop :=
  ∀ name ∈ holes template, ∃ i < count, name = (toString i).toList

section Renaming

variable {count : Nat} {template : Template}

private theorem isArgumentName_positionName (i : Nat) :
    isArgumentName ('f' :: (toString i).toList) = true := by
  have start : isIdentifierStart 'f' = true := by decide
  have others : ((toString i).toList.all fun d => isIdentifierStart d || d.isDigit) = true := by
    rw [List.all_eq_true]
    intro d member
    rw [isDigit_of_mem_toString member, Bool.or_true]
  rw [isArgumentName, isIdentifier, start, others]
  rfl

theorem opensName_eq_false {text : List Char} (absent : ¬ opensPosition count text = true) {i : Nat}
    (inside : i < count) : opensName (toString i).toList text = false := by
  rw [Bool.eq_false_iff]
  intro opens
  exact absent (opensPosition_iff.mpr ⟨i, inside, opens⟩)

private theorem opensPosition_brace (text : List Char) :
    opensPosition count ('\x7b' :: text) = false := by
  rw [opensPosition, List.any_eq_false]
  intro i _
  rw [opensName_brace (brace_not_mem_toString i)]
  exact Bool.false_ne_true

private theorem Numbered.rest {piece : Piece} (numbered : Numbered count (piece :: template)) :
    Numbered count template := by
  intro name member
  refine numbered name ?_
  rw [holes, List.filterMap_cons]
  cases piece.name? with
  | none => exact member
  | some other => exact List.mem_cons_of_mem other member

private theorem letterBraces_written (numbered : Numbered count template)
    (readable : isReadable template = true) :
    letterBraces (opensPosition count) (written template) = written (lettered count template) := by
  induction template with
  | nil => rfl
  | cons piece rest ih =>
      obtain ⟨first, others⟩ := Bool.and_eq_true_iff.mp readable
      have behind := ih numbered.rest others
      cases piece with
      | literal c =>
          have text : '\x7b' ∉ [c] := by
            rw [List.mem_singleton]
            exact Ne.symm (literal_ne_brace first)
          exact (letterBraces_append text (written rest)).trans (congrArg (c :: ·) behind)
      | openBrace =>
          have halves : written (.openBrace :: rest) = '\x7b' :: '\x7b' :: written rest := rfl
          rw [halves, letterBraces, if_neg (by simp [opensPosition_brace]), letterBraces, behind,
            lettered]
          cases opensPosition count (written rest) <;> rfl
      | closeBrace =>
          have text : '\x7b' ∉ ['\x7d', '\x7d'] := by decide
          exact (letterBraces_append text (written rest)).trans
            (congrArg (['\x7d', '\x7d'] ++ ·) behind)
      | hole name spec =>
          obtain ⟨i, inside, position⟩ := numbered name List.mem_cons_self
          have plain := plain_of_isArgumentName (isArgumentName_of_isReadable first)
          have found : opensPosition count (name ++ (holeEnd spec ++ written rest)) = true :=
            opensPosition_iff.mpr ⟨i, inside, (opensName_hole (position ▸ plain) plain _ _).mpr
              position.symm⟩
          rw [lettered, written_hole, written_hole, letterBraces, if_pos ⟨rfl, found⟩,
            ← List.append_assoc, letterBraces_append (brace_not_mem_hole first), behind,
            List.append_assoc, List.cons_append]

private theorem startsAligned_letterBraces (sought : List Char → Bool) (text : List Char) :
    startsAligned (letterBraces sought text) = startsAligned text := by
  cases text with
  | nil => rfl
  | cons c rest =>
      rw [letterBraces]
      split <;> rfl

private theorem isReadable_renamed {name other following text : List Char}
    {spec : Option (List Char)} (readable : (Piece.hole name spec).isReadable following = true)
    (isName : isArgumentName other = true) (same : startsAligned text = startsAligned following) :
    (Piece.hole other spec).isReadable text = true := by
  cases spec with
  | none => exact isName
  | some spec =>
      simp only [Piece.isReadable, Bool.and_eq_true] at readable ⊢
      rw [same]
      exact ⟨⟨isName, readable.1.2⟩, readable.2⟩

private theorem isReadable_lettered (numbered : Numbered count template)
    (readable : isReadable template = true) : isReadable (lettered count template) = true := by
  induction template with
  | nil => rfl
  | cons piece rest ih =>
      obtain ⟨first, others⟩ := Bool.and_eq_true_iff.mp readable
      have behind := ih numbered.rest others
      cases piece with
      | literal c => exact Bool.and_eq_true_iff.mpr ⟨first, behind⟩
      | openBrace =>
          rw [lettered]
          split
          · exact behind
          · exact behind
      | closeBrace => exact behind
      | hole name spec =>
          obtain ⟨i, _, rfl⟩ := numbered name List.mem_cons_self
          refine Bool.and_eq_true_iff.mpr ⟨?_, behind⟩
          apply isReadable_renamed first (isArgumentName_positionName i)
          rw [← letterBraces_written numbered.rest others, startsAligned_letterBraces]

theorem holes_lettered (count : Nat) (template : Template) :
    holes (lettered count template) = (holes template).map ('f' :: ·) := by
  induction template with
  | nil => rfl
  | cons piece rest ih =>
      cases piece with
      | literal c => exact ih
      | openBrace =>
          rw [lettered]
          split
          · exact ih
          · exact ih
      | closeBrace => exact ih
      | hole name spec => exact congrArg (('f' :: name) :: ·) ih

private theorem opensName_letter {text : List Char} (found : opensPosition count text = true)
    (name : List Char) : opensName ('f' :: name) text = false := by
  cases text with
  | nil => rfl
  | cons c rest =>
      have differs : c ≠ 'f' := by
        intro same
        rw [same, (undisturbed_opensPosition count).letter] at found
        cases found
      simp [opensName, List.isPrefixOf_cons_cons, Ne.symm differs]

private theorem quotes_lettered (numbered : Numbered count template)
    (readable : isReadable template = true) {i : Nat} (inside : i < count) :
    quotes ('f' :: (toString i).toList) (lettered count template) =
      (quotes ('f' :: (toString i).toList) template || quotes (toString i).toList template) := by
  induction template with
  | nil => rfl
  | cons piece rest ih =>
      obtain ⟨first, others⟩ := Bool.and_eq_true_iff.mp readable
      have behind := ih numbered.rest others
      cases piece with
      | literal c => exact behind
      | openBrace =>
          have text := letterBraces_written numbered.rest others
          have digits := brace_not_mem_toString i
          have named : '\x7b' ∉ 'f' :: (toString i).toList := by
            rw [List.mem_cons, not_or]
            exact ⟨by decide, digits⟩
          rw [lettered]
          by_cases found : opensPosition count (written rest) = true
          · have opens : opensName ('f' :: (toString i).toList)
                (written (.literal 'f' :: lettered count rest)) =
                  opensName (toString i).toList (written rest) := by
              rw [← opensName_letterBraces digits (written rest), text]
              simp [opensName, written, Piece.written]
            have passed : quotes ('f' :: (toString i).toList) (.literal 'f' :: lettered count rest) =
                quotes ('f' :: (toString i).toList) (lettered count rest) := rfl
            rw [if_pos found, quotes_openBrace, opens, passed, behind, quotes_openBrace,
              quotes_openBrace, opensName_letter found, Bool.false_or, Bool.or_left_comm]
          · rw [if_neg found, quotes_openBrace, ← text, opensName_letterBraces named, behind,
              quotes_openBrace, quotes_openBrace, opensName_eq_false found inside, Bool.false_or,
              Bool.or_assoc]
      | closeBrace => exact behind
      | hole name spec => exact behind

variable {message : String}

theorem read?_namePositions (numbered : Numbered count template)
    (reads : read? .text message.toList = some template) :
    read? .text (namePositions message count).toList = some (lettered count template) := by
  obtain ⟨text, readable⟩ := read?_eq_some_iff.mp reads
  rw [namePositions, String.toList_ofList, namePositionsBelow_eq, text,
    letterBraces_written numbered readable]
  exact read?_eq_some_iff.mpr ⟨rfl, isReadable_lettered numbered readable⟩

theorem positionName_mem_holes (i : Nat) :
    (positionName i).toList ∈ holes (lettered count template) ↔
      (toString i).toList ∈ holes template := by
  rw [holes_lettered, toList_positionName, List.mem_map_of_injective List.cons_injective]

theorem mentions_positionName_iff (numbered : Numbered count template)
    (reads : read? .text message.toList = some template) {i : Nat} (inside : i < count) :
    mentions (namePositions message count) (positionName i) = true ↔
      (toString i).toList ∈ holes template ∨ quotes (positionName i).toList template = true ∨
        quotes (toString i).toList template = true := by
  have plain : Plain (positionName i).toList := by
    rw [toList_positionName]
    exact plain_of_isArgumentName (isArgumentName_positionName i)
  have readable := (read?_eq_some_iff.mp reads).2
  rw [mentions_iff_hole_or_quotes plain (read?_namePositions numbered reads),
    positionName_mem_holes, toList_positionName, quotes_lettered numbered readable inside,
    Bool.or_eq_true_iff]

end Renaming

end StackAssembler.ErrorType

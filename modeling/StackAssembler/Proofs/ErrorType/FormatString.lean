import Mathlib.Data.List.Basic
import StackAssembler.ErrorType.Format

/-!
Format strings as the language reads them: text, braces written twice, and placeholders that name what
they stand for. Placeholders that name nothing, and specs with a brace or a dollar sign, are left out;
into other specs nobody looks. Reading is the inverse of writing.
-/

set_option autoImplicit false
set_option relaxedAutoImplicit false

namespace StackAssembler.ErrorType

inductive Piece
  | literal (c : Char)
  /-- An opening brace as text, written twice. -/
  | openBrace
  /-- A closing brace as text, written twice. -/
  | closeBrace
  /-- A placeholder: what it stands for, and how that is formatted. -/
  | hole (name : List Char) (spec : Option (List Char))
  deriving DecidableEq

abbrev Template := List Piece

def Piece.written : Piece → List Char
  | .literal c => [c]
  | .openBrace => ['\x7b', '\x7b']
  | .closeBrace => ['\x7d', '\x7d']
  | .hole name none => '\x7b' :: (name ++ ['\x7d'])
  | .hole name (some spec) => '\x7b' :: (name ++ ':' :: (spec ++ ['\x7d']))

def written (template : Template) : List Char :=
  template.flatMap Piece.written

def isIdentifierStart (c : Char) : Bool :=
  c.isAlpha || c == '_' || 127 < c.toNat

/-- Letters, digits and underscores, no digit first. All characters past the ASCII ones are taken for
letters. -/
def isIdentifier : List Char → Bool
  | [] => false
  | c :: rest => isIdentifierStart c && rest.all fun d => isIdentifierStart d || d.isDigit

/-- What a placeholder may name: an argument by its number or by an identifier. -/
def isArgumentName (name : List Char) : Bool :=
  isIdentifier name || !name.isEmpty && name.all Char.isDigit

def startsAligned (text : List Char) : Bool :=
  text.head?.any fun c => c == '<' || c == '^' || c == '>'

/-- Whether the piece, written before the given text, is read as itself. Directly behind the colon even
a closing brace is a fill character if an alignment follows. -/
def Piece.isReadable (following : List Char) : Piece → Bool
  | .literal c => c != '\x7b' && c != '\x7d'
  | .openBrace | .closeBrace => true
  | .hole name none => isArgumentName name
  | .hole name (some spec) =>
      isArgumentName name && spec.all (fun c => c != '\x7b' && c != '\x7d' && c != '$') &&
        !(spec.isEmpty && startsAligned following)

/-- What a reader of a format string has read of a piece so far. -/
inductive Reading
  | text
  /-- An opening brace and what follows it. -/
  | name (read : List Char)
  /-- A placeholder up to its colon and what follows that. -/
  | spec (name read : List Char)
  /-- A closing brace. -/
  | closing

def Reading.consumed : Reading → List Char
  | .text => []
  | .name read => '\x7b' :: read
  | .spec argument read => '\x7b' :: (argument ++ ':' :: read)
  | .closing => ['\x7d']

def Piece.before (piece : Piece) (following : List Char) (others : Option Template) :
    Option Template :=
  if piece.isReadable following then others.map (piece :: ·) else none

def read? : Reading → List Char → Option Template
  | .text, [] => some []
  | .name _, [] | .spec _ _, [] | .closing, [] => none
  | .text, c :: rest =>
      if c = '\x7b' then read? (.name []) rest
      else if c = '\x7d' then read? .closing rest
      else Piece.before (.literal c) rest (read? .text rest)
  | .closing, c :: rest =>
      if c = '\x7d' then Piece.before .closeBrace rest (read? .text rest) else none
  | .name read, c :: rest =>
      if c = '\x7b' then
        if read = [] then Piece.before .openBrace rest (read? .text rest) else none
      else if c = '\x7d' then Piece.before (.hole read none) rest (read? .text rest)
      else if c = ':' then read? (.spec read []) rest
      else read? (.name (read ++ [c])) rest
  | .spec name read, c :: rest =>
      if c = '\x7d' then Piece.before (.hole name (some read)) rest (read? .text rest)
      else read? (.spec name (read ++ [c])) rest

def isReadable : Template → Bool
  | [] => true
  | piece :: rest => piece.isReadable (written rest) && isReadable rest

private theorem written_of_before {piece : Piece} {following : List Char} {template : Template}
    (reads : piece.before following (read? .text following) = some template)
    (behind : ∀ {rest : Template}, read? .text following = some rest →
      following = written rest ∧ isReadable rest = true) :
    piece.written ++ following = written template ∧ isReadable template = true := by
  unfold Piece.before at reads
  split at reads
  · rename_i readable
    obtain ⟨rest, others, rfl⟩ := Option.map_eq_some_iff.mp reads
    obtain ⟨rfl, remaining⟩ := behind others
    exact ⟨rfl, Bool.and_eq_true_iff.mpr ⟨readable, remaining⟩⟩
  · cases reads

theorem written_of_read? {reading : Reading} {text : List Char} {template : Template}
    (reads : read? reading text = some template) :
    reading.consumed ++ text = written template ∧ isReadable template = true := by
  fun_induction read? reading text generalizing template with
  | case1 =>
      cases reads
      exact ⟨rfl, rfl⟩
  | case2 | case3 | case4 | case9 | case11 => cases reads
  | case5 rest ih => exact ih reads
  | case6 rest _ ih => exact ih reads
  | case7 c rest _ _ ih => exact written_of_before reads ih
  | case8 rest ih => exact written_of_before reads ih
  | case10 rest ih => exact written_of_before reads ih
  | case12 read rest _ ih =>
      have done := written_of_before reads ih
      rw [Piece.written, List.cons_append, List.append_assoc] at done
      exact done
  | case13 read rest _ _ ih =>
      have done := ih reads
      rw [Reading.consumed, List.cons_append, List.append_assoc] at done
      exact done
  | case14 read c rest _ _ _ ih =>
      have done := ih reads
      rw [Reading.consumed, List.cons_append, List.append_assoc] at done
      exact done
  | case15 name read rest ih =>
      have done := written_of_before reads ih
      simp only [Piece.written, List.cons_append, List.append_assoc] at done
      simp only [Reading.consumed, List.cons_append, List.append_assoc]
      exact done
  | case16 name read c rest _ ih =>
      have done := ih reads
      simp only [Reading.consumed, List.cons_append, List.append_assoc] at done ⊢
      exact done

section Names

private theorem isNameChar_of_mem {name : List Char} (isName : isArgumentName name = true) {c : Char}
    (member : c ∈ name) : (isIdentifierStart c || c.isDigit) = true := by
  rcases Bool.or_eq_true_iff.mp isName with identifier | number
  · cases name with
    | nil => cases identifier
    | cons first rest =>
        obtain ⟨start, others⟩ := Bool.and_eq_true_iff.mp identifier
        rcases List.mem_cons.mp member with rfl | inside
        · exact Bool.or_eq_true_iff.mpr (.inl start)
        · exact List.all_eq_true.mp others c inside
  · obtain ⟨_, digits⟩ := Bool.and_eq_true_iff.mp number
    exact Bool.or_eq_true_iff.mpr (.inr (List.all_eq_true.mp digits c member))

/-- A text with none of the characters that stand around a name in a placeholder. -/
def Plain (text : List Char) : Prop :=
  ∀ c ∈ text, c ≠ '\x7b' ∧ c ≠ '\x7d' ∧ c ≠ ':'

theorem plain_of_isArgumentName {name : List Char} (isName : isArgumentName name = true) :
    Plain name := by
  intro c member
  have isChar := isNameChar_of_mem isName member
  refine ⟨?_, ?_, ?_⟩
  all_goals
    intro same
    rw [same] at isChar
    revert isChar
    decide

end Names

private theorem read?_name {more : List Char} (plain : Plain more) (read text : List Char) :
    read? (.name read) (more ++ text) = read? (.name (read ++ more)) text := by
  induction more generalizing read with
  | nil => rw [List.nil_append, List.append_nil]
  | cons c more ih =>
      obtain ⟨opening, closing, colon⟩ := plain c List.mem_cons_self
      rw [List.cons_append, read?, if_neg opening, if_neg closing, if_neg colon,
        ih (fun d member => plain d (List.mem_cons_of_mem c member)), List.append_assoc,
        List.singleton_append]

private theorem read?_spec {more : List Char} (plain : ∀ c ∈ more, c ≠ '\x7d')
    (name read text : List Char) :
    read? (.spec name read) (more ++ text) = read? (.spec name (read ++ more)) text := by
  induction more generalizing read with
  | nil => rw [List.nil_append, List.append_nil]
  | cons c more ih =>
      rw [List.cons_append, read?, if_neg (plain c List.mem_cons_self),
        ih (fun d member => plain d (List.mem_cons_of_mem c member)), List.append_assoc,
        List.singleton_append]

private theorem read?_piece {piece : Piece} {following : List Char}
    (readable : piece.isReadable following = true) :
    read? .text (piece.written ++ following) = (read? .text following).map (piece :: ·) := by
  have done : piece.before following (read? .text following) =
      (read? .text following).map (piece :: ·) := if_pos readable
  rw [← done]
  cases piece with
  | literal c =>
      obtain ⟨opening, closing⟩ := Bool.and_eq_true_iff.mp readable
      rw [Piece.written, List.singleton_append, read?, if_neg (bne_iff_ne.mp opening),
        if_neg (bne_iff_ne.mp closing)]
  | openBrace => rfl
  | closeBrace => rfl
  | hole name spec =>
      cases spec with
      | none =>
          rw [Piece.written, List.cons_append, List.append_assoc]
          exact read?_name (plain_of_isArgumentName readable) [] _
      | some spec =>
          obtain ⟨rest, _⟩ := Bool.and_eq_true_iff.mp readable
          obtain ⟨isName, isSpec⟩ := Bool.and_eq_true_iff.mp rest
          have braceless (c : Char) (member : c ∈ spec) : c ≠ '\x7d' := by
            have allowed := List.all_eq_true.mp isSpec c member
            intro same
            rw [same] at allowed
            revert allowed
            decide
          rw [Piece.written, List.cons_append, List.append_assoc, List.cons_append,
            List.append_assoc]
          exact (read?_name (plain_of_isArgumentName isName) [] _).trans
            (read?_spec braceless name [] _)

/-- A template is read back if its pieces are readable, and only such templates are read. -/
theorem read?_eq_some_iff {text : List Char} {template : Template} :
    read? .text text = some template ↔ text = written template ∧ isReadable template = true := by
  constructor
  · exact written_of_read?
  · intro parts
    obtain ⟨rfl, readable⟩ := parts
    induction template with
    | nil => rfl
    | cons piece rest ih =>
        obtain ⟨first, others⟩ := Bool.and_eq_true_iff.mp readable
        have whole : written (piece :: rest) = piece.written ++ written rest := rfl
        rw [whole, read?_piece first, ih others, Option.map_some]

end StackAssembler.ErrorType

import Mathlib.Data.List.Basic
import StackAssembler.ErrorType.Format

/-!
Placeholders of positions. Renaming them position after position comes to a single pass, which puts
one letter behind each brace that a position follows: a letter put in by one replacement neither makes
nor hides what another one looks for.
-/

set_option autoImplicit false
set_option relaxedAutoImplicit false

namespace StackAssembler.ErrorType

section Numbers

theorem toString_inj {i j : Nat} (same : toString i = toString j) : i = j := by
  have digits : Nat.toDigits 10 i = Nat.toDigits 10 j := by
    rw [← Nat.toList_repr, ← Nat.toList_repr, ← Nat.toString_eq_repr, same, Nat.toString_eq_repr]
  rw [← @Nat.ofDigitChars_ten_toDigits i, digits, Nat.ofDigitChars_ten_toDigits]

theorem toString_ne_nil (i : Nat) : (toString i).toList ≠ [] := by
  rw [Nat.toString_eq_repr, Nat.toList_repr]
  exact Nat.toDigits_ne_nil

theorem isDigit_of_mem_toString {i : Nat} {c : Char} (member : c ∈ (toString i).toList) :
    c.isDigit = true := by
  rw [Nat.toString_eq_repr, Nat.toList_repr] at member
  exact Nat.isDigit_of_mem_toDigits (by omega) (by omega) member

theorem toList_positionName (i : Nat) : (positionName i).toList = 'f' :: (toString i).toList := by
  rw [positionName, String.toList_append]
  rfl

theorem positionName_inj {i j : Nat} (same : positionName i = positionName j) : i = j := by
  have lists := congrArg String.toList same
  rw [toList_positionName, toList_positionName, List.cons.injEq] at lists
  exact toString_inj (String.toList_injective lists.2)

end Numbers

def behindBraces : List Char → List (List Char)
  | [] => []
  | c :: rest => if c = '\x7b' then rest :: behindBraces rest else behindBraces rest

/-- Whether a text goes on with a name and with what ends a name in a placeholder. -/
def opensName (name text : List Char) : Bool :=
  (name ++ ['\x7d']).isPrefixOf text || (name ++ [':']).isPrefixOf text

private theorem occursIn_placeholder (name : String) (finish : Char) (text : List Char) :
    occursIn (placeholder name finish) text =
      (behindBraces text).any (name.toList ++ [finish]).isPrefixOf := by
  induction text with
  | nil => rfl
  | cons c rest ih =>
      rw [occursIn, ih, behindBraces, placeholder, List.isPrefixOf_cons_cons]
      by_cases brace : c = '\x7b'
      · rw [if_pos brace, List.any_cons, brace, beq_self_eq_true, Bool.true_and]
      · have other : ('\x7b' == c) = false := beq_false_of_ne (Ne.symm brace)
        rw [if_neg brace, other, Bool.false_and, Bool.false_or]

theorem mentions_iff {message name : String} :
    mentions message name = true ↔
      ∃ behind ∈ behindBraces message.toList, opensName name.toList behind = true := by
  rw [mentions, occursIn_placeholder, occursIn_placeholder, Bool.or_eq_true, List.any_eq_true,
    List.any_eq_true, ← exists_or]
  simp only [opensName, Bool.or_eq_true, and_or_left]

/-- Puts a letter behind the opening braces that are followed by what is looked for. -/
def letterBraces (sought : List Char → Bool) : List Char → List Char
  | [] => []
  | c :: rest =>
      if c = '\x7b' ∧ sought rest then c :: 'f' :: letterBraces sought rest
      else c :: letterBraces sought rest

section Letters

variable {sought other : List Char → Bool} {target : List Char}

theorem letterBraces_append (plain : '\x7b' ∉ target) (text : List Char) :
    letterBraces sought (target ++ text) = target ++ letterBraces sought text := by
  induction target with
  | nil => rfl
  | cons c rest ih =>
      rw [List.mem_cons, not_or] at plain
      have literal : ¬ (c = '\x7b' ∧ sought (rest ++ text) = true) := by
        intro brace
        exact plain.1 brace.1.symm
      rw [List.cons_append, letterBraces, if_neg literal, ih plain.2, List.cons_append]

private theorem replaceFrom_placeholder (plain : '\x7b' ∉ target) (skip : Nat) (text : List Char) :
    replaceFrom ('\x7b' :: target) ('\x7b' :: 'f' :: target) skip text =
      letterBraces target.isPrefixOf (text.drop skip) := by
  induction text generalizing skip with
  | nil => cases skip <;> rfl
  | cons c rest ih =>
      cases skip with
      | succ skip => exact ih skip
      | zero =>
          rw [replaceFrom, List.drop_zero, letterBraces, List.isPrefixOf_cons_cons]
          by_cases brace : c = '\x7b'
          · subst brace
            by_cases found : target.isPrefixOf rest
            · obtain ⟨behind, rfl⟩ := List.isPrefixOf_iff_prefix.mp found
              rw [if_pos (by simp), if_pos ⟨rfl, found⟩, ih, letterBraces_append plain]
              simp
            · rw [if_neg (by simp [found]), if_neg (by simp [found]), ih, List.drop_zero]
          · have differs : ('\x7b' == c) = false := beq_false_of_ne (Ne.symm brace)
            rw [if_neg (by simp [differs]), if_neg (by simp [brace]), ih, List.drop_zero]

/-- Whether a condition on a text looks neither behind its next opening brace nor for the letter that
is put in. -/
structure Undisturbed (sought : List Char → Bool) : Prop where
  letterBraces : ∀ other text, sought (letterBraces other text) = sought text
  letter : ∀ text, sought ('f' :: text) = false

theorem letterBraces_letterBraces (undisturbed : Undisturbed sought) (text : List Char) :
    letterBraces sought (letterBraces other text) =
      letterBraces (fun rest => sought rest || other rest) text := by
  induction text with
  | nil => rfl
  | cons c rest ih =>
      rw [letterBraces]
      by_cases brace : c = '\x7b'
      · subst brace
        cases found : other rest with
        | true =>
            rw [if_pos ⟨rfl, rfl⟩]
            simp [letterBraces, undisturbed.letter, found, ih]
        | false =>
            rw [if_neg (by simp)]
            simp [letterBraces, undisturbed.letterBraces, found, ih]
      · rw [if_neg (by simp [brace])]
        simp [letterBraces, brace, ih]

private theorem isPrefixOf_letterBraces (plain : '\x7b' ∉ target) (text : List Char) :
    target.isPrefixOf (letterBraces other text) = target.isPrefixOf text := by
  induction target generalizing text with
  | nil => simp
  | cons first target ih =>
      rw [List.mem_cons, not_or] at plain
      cases text with
      | nil => rfl
      | cons c rest =>
          rw [letterBraces]
          by_cases brace : c = '\x7b'
          · have differs : (first == '\x7b') = false := beq_false_of_ne (Ne.symm plain.1)
            subst brace
            split <;> simp [List.isPrefixOf_cons_cons, differs]
          · rw [if_neg (by simp [brace]), List.isPrefixOf_cons_cons, List.isPrefixOf_cons_cons,
              ih plain.2]

theorem opensName_letterBraces {name : List Char} (plain : '\x7b' ∉ name) (text : List Char) :
    opensName name (letterBraces other text) = opensName name text := by
  have ended {finish : Char} (different : '\x7b' ≠ finish) : '\x7b' ∉ name ++ [finish] := by
    rw [List.mem_append, List.mem_singleton, not_or]
    exact ⟨plain, different⟩
  rw [opensName, opensName, isPrefixOf_letterBraces (ended (by decide)),
    isPrefixOf_letterBraces (ended (by decide))]

end Letters

section Positions

theorem brace_not_mem_toString (i : Nat) : '\x7b' ∉ (toString i).toList := by
  intro member
  have digit := isDigit_of_mem_toString member
  revert digit
  decide

private theorem isPrefixOf_letter (i : Nat) (finish : Char) (text : List Char) :
    ((toString i).toList ++ [finish]).isPrefixOf ('f' :: text) = false := by
  -- A number has a first digit, and that is not the letter.
  obtain ⟨digit, others, digits⟩ := List.exists_cons_of_ne_nil (toString_ne_nil i)
  have first : digit.isDigit = true := isDigit_of_mem_toString (digits ▸ List.mem_cons_self)
  have differs : digit ≠ 'f' := by
    intro same
    rw [same] at first
    revert first
    decide
  rw [digits, List.cons_append, List.isPrefixOf_cons_cons, beq_false_of_ne differs, Bool.false_and]

/-- How the placeholder of a position starts: with the position alone, or with the position before a
format spec. -/
inductive Opening
  | bare (position : Nat)
  | formatted (position : Nat)
  deriving DecidableEq

namespace Opening

def position : Opening → Nat
  | .bare i | .formatted i => i

def finish : Opening → Char
  | .bare _ => '\x7d'
  | .formatted _ => ':'

def numbered (opening : Opening) : List Char :=
  placeholder (toString opening.position) opening.finish

def named (opening : Opening) : List Char :=
  placeholder (positionName opening.position) opening.finish

def rename (opening : Opening) (text : List Char) : List Char :=
  replaceAll opening.numbered opening.named text

private def inner (opening : Opening) : List Char :=
  (toString opening.position).toList ++ [opening.finish]

private theorem isPrefixOf_numbered {opening : Opening} {c : Char} {rest : List Char} :
    opening.numbered.isPrefixOf (c :: rest) = true ↔
      c = '\x7b' ∧ opening.inner.isPrefixOf rest = true := by
  rw [numbered, placeholder, List.isPrefixOf_cons_cons, Bool.and_eq_true_iff, beq_iff_eq, eq_comm]
  rfl

private theorem named_eq (opening : Opening) : opening.named = '\x7b' :: 'f' :: opening.inner := by
  rw [named, placeholder, toList_positionName]
  rfl

private theorem brace_not_mem_inner (opening : Opening) : '\x7b' ∉ opening.inner := by
  have different : '\x7b' ≠ opening.finish := by cases opening <;> simp [finish]
  rw [inner, List.mem_append, List.mem_singleton, not_or]
  exact ⟨brace_not_mem_toString opening.position, different⟩

private theorem undisturbed_inner (opening : Opening) : Undisturbed opening.inner.isPrefixOf := by
  constructor
  · intro other text
    exact isPrefixOf_letterBraces opening.brace_not_mem_inner text
  · exact isPrefixOf_letter opening.position opening.finish

private theorem rename_eq (opening : Opening) (text : List Char) :
    opening.rename text = letterBraces opening.inner.isPrefixOf text := by
  rw [rename, replaceAll, named_eq]
  exact replaceFrom_placeholder opening.brace_not_mem_inner 0 text

end Opening

def openingsBelow (count : Nat) : List Opening :=
  (List.range count).flatMap fun i => [.bare i, .formatted i]

theorem mem_openingsBelow {count : Nat} {opening : Opening} :
    opening ∈ openingsBelow count ↔ opening.position < count := by
  cases opening <;> simp [openingsBelow, Opening.position]

/-- Whether a text goes on with a position below `count`, as in a placeholder. -/
def opensPosition (count : Nat) (text : List Char) : Bool :=
  (List.range count).any fun i => opensName (toString i).toList text

theorem opensPosition_iff {count : Nat} {text : List Char} :
    opensPosition count text = true ↔ ∃ i < count, opensName (toString i).toList text = true := by
  simp [opensPosition]

private def opensAny (openings : List Opening) (text : List Char) : Bool :=
  openings.any fun opening => opening.inner.isPrefixOf text

private theorem opensAny_openingsBelow (count : Nat) :
    opensAny (openingsBelow count) = opensPosition count := by
  funext text
  rw [opensAny, openingsBelow, List.any_flatMap, opensPosition]
  simp [opensName, Opening.inner, Opening.position, Opening.finish]

private theorem opensAny_eq_opensPosition {openings : List Opening} {count : Nat}
    (all : ∀ opening, opening ∈ openings ↔ opening.position < count) :
    opensAny openings = opensPosition count := by
  rw [← opensAny_openingsBelow]
  funext text
  rw [Bool.eq_iff_iff, opensAny, opensAny, List.any_eq_true, List.any_eq_true]
  simp only [all, mem_openingsBelow]

private theorem undisturbed_opensAny (openings : List Opening) : Undisturbed (opensAny openings) := by
  constructor
  · intro other text
    simp only [opensAny, (Opening.undisturbed_inner _).letterBraces other text]
  · intro text
    simp only [opensAny, (Opening.undisturbed_inner _).letter text, List.any_eq_false]
    simp

theorem undisturbed_opensPosition (count : Nat) : Undisturbed (opensPosition count) :=
  opensAny_openingsBelow count ▸ undisturbed_opensAny (openingsBelow count)

private theorem foldl_rename (openings : List Opening) (text : List Char) :
    openings.foldl (fun text opening => opening.rename text) text =
      letterBraces (opensAny openings) text := by
  induction openings generalizing text with
  | nil =>
      -- nothing is looked for, so the pass only copies
      induction text with
      | nil => rfl
      | cons c rest ih =>
          rw [List.foldl_nil] at ih ⊢
          rw [letterBraces, if_neg (by simp [opensAny]), ← ih]
  | cons first others ih =>
      rw [List.foldl_cons, ih, first.rename_eq,
        letterBraces_letterBraces (undisturbed_opensAny others)]
      congr 1
      funext rest
      exact Bool.or_comm _ _

private theorem foldl_namePosition (order : List Nat) (text : List Char) :
    order.foldl (fun text i => namePosition i text) text =
      letterBraces (opensAny (order.flatMap fun i => [.bare i, .formatted i])) text := by
  rw [← foldl_rename, List.foldl_flatMap]
  rfl

private theorem namePositionsBelow_eq_foldl (count : Nat) (text : List Char) :
    namePositionsBelow count text =
      (List.range count).reverse.foldl (fun text i => namePosition i text) text := by
  induction count generalizing text with
  | zero => rfl
  | succ count ih =>
      rw [namePositionsBelow, ih, List.range_succ, List.reverse_append, List.reverse_singleton,
        List.singleton_append, List.foldl_cons]

theorem namePositionsBelow_eq (count : Nat) (text : List Char) :
    namePositionsBelow count text = letterBraces (opensPosition count) text := by
  rw [namePositionsBelow_eq_foldl, foldl_namePosition, opensAny_eq_opensPosition]
  intro opening
  cases opening <;> simp [Opening.position]

end Positions

section SinglePass

/-- Passes over `skip` characters, then renames every opening of a position below `count` where it is
met, from the left. -/
def renameOpenings (count : Nat) : Nat → List Char → List Char
  | _, [] => []
  | skip + 1, _ :: rest => renameOpenings count skip rest
  | 0, c :: rest =>
      match (openingsBelow count).find? fun opening => opening.numbered.isPrefixOf (c :: rest) with
      | some opening => opening.named ++ renameOpenings count (opening.numbered.length - 1) rest
      | none => c :: renameOpenings count 0 rest

private theorem opensPosition_iff_inner {count : Nat} {text : List Char} :
    opensPosition count text = true ↔
      ∃ opening ∈ openingsBelow count, opening.inner.isPrefixOf text = true := by
  rw [← opensAny_openingsBelow, opensAny, List.any_eq_true]

private theorem renameOpenings_eq (count skip : Nat) (text : List Char) :
    renameOpenings count skip text = letterBraces (opensPosition count) (text.drop skip) := by
  -- Where an opening is found, the pass goes on behind all of it. No brace is missed in that,
  -- since there is none but the first.
  induction text generalizing skip with
  | nil => cases skip <;> rfl
  | cons c rest ih =>
      cases skip with
      | succ skip => exact ih skip
      | zero =>
          rw [renameOpenings, List.drop_zero]
          cases found : (openingsBelow count).find? fun opening =>
              opening.numbered.isPrefixOf (c :: rest) with
          | none =>
              have absent : ¬ (c = '\x7b' ∧ opensPosition count rest = true) := by
                rintro ⟨brace, opens⟩
                obtain ⟨opening, below, inside⟩ := opensPosition_iff_inner.mp opens
                exact List.find?_eq_none.mp found opening below
                  (Opening.isPrefixOf_numbered.mpr ⟨brace, inside⟩)
              rw [letterBraces, if_neg absent, ih, List.drop_zero]
          | some opening =>
              have below := List.mem_of_find?_eq_some found
              have starts := List.find?_some found
              obtain ⟨rfl, inside⟩ := Opening.isPrefixOf_numbered.mp starts
              have opens := opensPosition_iff_inner.mpr ⟨opening, below, inside⟩
              obtain ⟨behind, rfl⟩ := List.isPrefixOf_iff_prefix.mp inside
              have length : opening.numbered.length - 1 = opening.inner.length := rfl
              dsimp only
              rw [ih, length, List.drop_left, letterBraces, if_pos ⟨rfl, opens⟩,
                letterBraces_append opening.brace_not_mem_inner, opening.named_eq,
                List.cons_append, List.cons_append]

theorem namePositions_eq_renameOpenings (message : String) (count : Nat) :
    namePositions message count = String.ofList (renameOpenings count 0 message.toList) := by
  rw [namePositions, namePositionsBelow_eq, renameOpenings_eq, List.drop_zero]

private theorem opensPosition_max (first second : Nat) (text : List Char) :
    opensPosition (max first second) text =
      (opensPosition second text || opensPosition first text) := by
  have below (i : Nat) : i < max first second ↔ i < second ∨ i < first := by omega
  rw [Bool.eq_iff_iff, Bool.or_eq_true_iff]
  simp only [opensPosition_iff, below, or_and_right, exists_or]

private theorem namePositions_namePositions (message : String) (first second : Nat) :
    namePositions (namePositions message first) second =
      namePositions message (max first second) := by
  have together : opensPosition (max first second) =
      fun text => opensPosition second text || opensPosition first text :=
    funext (opensPosition_max first second)
  rw [namePositions, namePositions, namePositions, String.toList_ofList, namePositionsBelow_eq,
    namePositionsBelow_eq, namePositionsBelow_eq,
    letterBraces_letterBraces (undisturbed_opensPosition second), together]

/-- Renaming the positions of a message, one replacement after another, comes to a single pass from
the left. So the replacements may be made in any order, those of single openings as well as those of
whole positions; nothing is left to be renamed; and of two bounds in a row the larger counts. -/
theorem namePositions_in_one_pass (message : String) (count : Nat) :
    namePositions message count = String.ofList (renameOpenings count 0 message.toList) ∧
      (∀ order : List Opening, (∀ opening, opening ∈ order ↔ opening.position < count) →
        String.ofList (order.foldl (fun text opening => opening.rename text) message.toList) =
          namePositions message count) ∧
      (∀ order : List Nat, order.Perm (List.range count) →
        String.ofList (order.foldl (fun text i => namePosition i text) message.toList) =
          namePositions message count) ∧
      namePositions (namePositions message count) count = namePositions message count ∧
      ∀ first, namePositions (namePositions message first) count =
        namePositions message (max first count) := by
  have renamed : namePositions message count =
      String.ofList (letterBraces (opensPosition count) message.toList) := by
    rw [namePositions, namePositionsBelow_eq]
  refine ⟨namePositions_eq_renameOpenings message count, ?_, ?_, ?_, ?_⟩
  · intro order all
    rw [renamed, foldl_rename, opensAny_eq_opensPosition all]
  · intro order permuted
    rw [renamed, foldl_namePosition, opensAny_eq_opensPosition]
    intro opening
    cases opening <;> simp [Opening.position, permuted.mem_iff]
  · rw [namePositions_namePositions, Nat.max_self]
  · intro first
    exact namePositions_namePositions message first count

/-- Positions in a row, in quoted braces and named already, and numbers that are no positions. -/
def crowdedMessage : String :=
  "\x7b\x7b0\x7d\x7d\x7b1:x\x7d\x7b2\x7d\x7bf0\x7d\x7b02\x7d\x7b3\x7d\x7b0"

theorem namePositions_in_one_pass_crowded :
    [1, 2, 0].Perm (List.range 3) ∧
      (∀ opening : Opening,
        opening ∈ [.bare 2, .formatted 0, .bare 0, .formatted 1, .bare 2, .bare 1, .formatted 2] ↔
          opening.position < 3) ∧
      String.ofList ([1, 2, 0].foldl (fun text i => namePosition i text) crowdedMessage.toList) =
        "\x7b\x7bf0\x7d\x7d\x7bf1:x\x7d\x7bf2\x7d\x7bf0\x7d\x7b02\x7d\x7b3\x7d\x7b0" ∧
      String.ofList
        ([Opening.bare 2, .formatted 0, .bare 0, .formatted 1, .bare 2, .bare 1, .formatted 2].foldl
          (fun text opening => opening.rename text) crowdedMessage.toList) =
        "\x7b\x7bf0\x7d\x7d\x7bf1:x\x7d\x7bf2\x7d\x7bf0\x7d\x7b02\x7d\x7b3\x7d\x7b0" := by
  have renamed : namePositions crowdedMessage 3 =
      "\x7b\x7bf0\x7d\x7d\x7bf1:x\x7d\x7bf2\x7d\x7bf0\x7d\x7b02\x7d\x7b3\x7d\x7b0" := by
    decide
  obtain ⟨_, openings, positions, _⟩ := namePositions_in_one_pass crowdedMessage 3
  have permuted : [1, 2, 0].Perm (List.range 3) := by decide
  have all (opening : Opening) :
      opening ∈ [.bare 2, .formatted 0, .bare 0, .formatted 1, .bare 2, .bare 1, .formatted 2] ↔
        opening.position < 3 := by
    cases opening <;> simp [Opening.position] <;> omega
  exact ⟨permuted, all, (positions _ permuted).trans renamed, (openings _ all).trans renamed⟩

end SinglePass

end StackAssembler.ErrorType

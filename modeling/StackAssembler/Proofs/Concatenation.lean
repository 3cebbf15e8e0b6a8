import StackAssembler.Proofs.Assembly.Symbols
import StackAssembler.Proofs.CompileOutcome

/-!
Programs in a row. Beside what is listed already, all that flattening carries from one directive to
the next is the depth of the stack. So what stands behind a program is flattened as it would be by
itself, once that depth is declared. Without labels, which would reach across, the code is then the
code of the one followed by the code of the other.
-/

set_option autoImplicit false
set_option relaxedAutoImplicit false

namespace StackAssembler.Assembly

section Flattening

theorem Program.flattenAfter_append (first second : Program) (listing : Listing) :
    Program.flattenAfter (first ++ second) listing =
      first.flattenAfter listing >>= second.flattenAfter :=
  List.foldlM_append

theorem Program.flatten_append_of_error {limit : Nat} {first : Program} {error : Error}
    (fails : first.flatten limit = .error error) (second : Program) :
    Program.flatten limit (first ++ second) = .error error := by
  rw [Program.flatten] at fails
  rw [Program.flatten, Program.flattenAfter_append, fails]
  rfl

theorem Program.set_of_flatten {limit : Nat} {program : Program} {listing : Listing}
    (flat : program.flatten limit = .ok listing) :
    StackDepth.set { limit } listing.tracker.depth = .ok listing.tracker := by
  obtain ⟨events, emits, _⟩ := Program.flatten_eq_ok.mp flat
  obtain ⟨tracks, same⟩ := emits.tracks
  refine set_eq_ok.mpr ⟨tracks.le_limit (Nat.zero_le _), ?_⟩
  rw [← same]

theorem Program.flatten_append_eq_ok {limit : Nat} {first second : Program}
    {listing final : Listing} (flat : first.flatten limit = .ok listing) :
    Program.flatten limit (first ++ second) = .ok final ↔
      ∃ rest, Program.flatten limit (.setDepth listing.tracker.depth :: second) = .ok rest ∧
        final = ⟨rest.tracker, listing.items ++ rest.items⟩ := by
  have declared := Program.set_of_flatten flat
  obtain ⟨t, items⟩ := listing
  have whole : Program.flatten limit (first ++ second) = second.flattenAfter ⟨t, items⟩ := by
    rw [Program.flatten] at flat
    rw [Program.flatten, Program.flattenAfter_append, flat]
    rfl
  have alone : Program.flatten limit (.setDepth t.depth :: second) =
      second.flattenAfter ⟨t, #[]⟩ := by
    have first : Directive.flatten (.setDepth t.depth) (.empty limit) = .ok ⟨t, #[]⟩ := by
      rw [Directive.flatten, Listing.empty, track_eq_ok]
      exact ⟨declared, rfl⟩
    rw [Program.flatten, Program.flattenAfter, List.foldlM_cons, first]
    rfl
  rw [whole, alone]
  simp only [Program.flattenAfter_eq_ok]
  constructor
  · rintro ⟨events, emits, same⟩
    refine ⟨⟨final.tracker, (emitted events).toArray⟩, ⟨events, emits, ?_⟩, ?_⟩
    · exact Array.empty_append.symm
    · rw [← same]
  · rintro ⟨rest, ⟨events, emits, same⟩, rfl⟩
    refine ⟨events, emits, ?_⟩
    rw [same, Array.empty_append]

end Flattening

section Unlabelled

/-- The bytes of an item that speaks of no label. -/
def Item.code : Item → List UInt8
  | .op opcode => [opcode.toByte]
  | .push immediate => immediate.assemble
  | _ => []

theorem assemble_of_unlabelled {item : Item} (silent : item.symbol? = none) (width : Nat)
    (table : List (String × Nat)) : item.assemble width table = .ok item.code := by
  cases item with
  | op opcode => rfl
  | push immediate => rfl
  | pushLabel name => cases silent
  | label name => cases silent

variable {items : List Item} (unlabelled : labelNames items = [])
include unlabelled

private theorem symbol?_of_unlabelled : ∀ item ∈ items, item.symbol? = none :=
  List.filterMap_eq_nil_iff.mp (List.map_eq_nil_iff.mp unlabelled)

theorem assembleItems_of_unlabelled (width : Nat) :
    assembleItems width items = .ok (items.flatMap Item.code).toArray := by
  have chunks : items.mapM (Item.assemble width (labelOffsets width 0 items)) =
      .ok (items.map Item.code) := by
    rw [mapM_eq_ok, List.forall₂_map_right_iff, List.forall₂_same]
    intro item member
    exact assemble_of_unlabelled (symbol?_of_unlabelled unlabelled item member) _ _
  rw [assembleItems, chunks, List.flatMap_def]
  rfl

theorem layOut_of_unlabelled {given : Option Nat} {code : Bytes} :
    layOut given items = .ok code ↔
      LegalWidth given ∧ code = (items.flatMap Item.code).toArray := by
  have distinct : (items.filterMap Item.declares?).Nodup := by
    have none : items.filterMap Item.declares? = [] := by
      rw [List.filterMap_eq_nil_iff]
      intro item member
      have silent := symbol?_of_unlabelled unlabelled item member
      cases item with
      | label name => cases silent
      | _ => rfl
    rw [none]
    exact List.nodup_nil
  simp only [layOut_eq_ok, labelWidth_eq_ok, assembleItems_of_unlabelled unlabelled,
    Except.ok.injEq]
  constructor
  · rintro ⟨_, ⟨legal, _⟩, _, same⟩
    exact ⟨legal, same.symm⟩
  · rintro ⟨legal, same⟩
    exact ⟨_, ⟨legal, fun _ => distinct, rfl⟩, distinct, same.symm⟩

omit unlabelled

theorem layOut_append_of_unlabelled {front back : List Item} {given : Option Nat} {code : Bytes}
    (first : labelNames front = []) (second : labelNames back = []) :
    layOut given (front ++ back) = .ok code ↔ ∃ head tail, layOut given front = .ok head ∧
      layOut given back = .ok tail ∧ code = head ++ tail := by
  have both : labelNames (front ++ back) = [] := by
    rw [labelNames, List.filterMap_append, List.map_append, ← labelNames, ← labelNames, first,
      second]
    rfl
  simp only [layOut_of_unlabelled first, layOut_of_unlabelled second, layOut_of_unlabelled both,
    List.flatMap_append, ← List.append_toArray]
  constructor
  · rintro ⟨legal, rfl⟩
    exact ⟨_, _, ⟨legal, rfl⟩, ⟨legal, rfl⟩, rfl⟩
  · rintro ⟨_, _, ⟨legal, rfl⟩, ⟨_, rfl⟩, rfl⟩
    exact ⟨legal, rfl⟩

end Unlabelled

/-- Two programs without labels are assembled in a row exactly if each is assembled by itself, the
second at the depth that the first leaves, and then into the code of the one and that of the other.
A program that cannot be flattened, with labels or without, is refused for the same reason whatever
stands behind it. -/
theorem compile_concatenates (options : Options) (first second : Program) :
    (first.labelNames = [] → second.labelNames = [] →
      ∀ listing, first.flatten options.stackLimit = .ok listing →
        ∀ code, compile options (first ++ second) = .ok code ↔
          ∃ front back, compile options first = .ok front ∧
            compile options ([.setDepth listing.tracker.depth] ++ second) = .ok back ∧
            code = front ++ back) ∧
      ∀ error, first.flatten options.stackLimit = .error error →
        compile options (first ++ second) = .error error := by
  constructor
  · intro unlabelled unlabelled' listing flat code
    have front : labelNames listing.items.toList = [] := by
      rw [Program.labelNames_of_flatten flat, unlabelled]
    have back : ∀ rest, Program.flatten options.stackLimit
        (.setDepth listing.tracker.depth :: second) = .ok rest →
        labelNames rest.items.toList = [] := by
      intro rest flat'
      rw [Program.labelNames_of_flatten flat', ← unlabelled']
      rfl
    simp only [compile_eq_bind, bind_eq_ok, Program.flatten_append_eq_ok flat, flat,
      Except.ok.injEq, exists_eq_left', List.singleton_append]
    constructor
    · rintro ⟨_, ⟨rest, flat', rfl⟩, laid⟩
      rw [Array.toList_append, layOut_append_of_unlabelled front (back rest flat')] at laid
      obtain ⟨head, tail, one, other, same⟩ := laid
      exact ⟨head, tail, one, ⟨rest, flat', other⟩, same⟩
    · rintro ⟨head, tail, one, ⟨rest, flat', other⟩, same⟩
      refine ⟨_, ⟨rest, flat', rfl⟩, ?_⟩
      rw [Array.toList_append, layOut_append_of_unlabelled front (back rest flat')]
      exact ⟨head, tail, one, other, same⟩
  · intro error fails
    rw [compile_eq_bind, Program.flatten_append_of_error fails]
    rfl

def twoWords : Program :=
  [.op .pc, .call .not [.push (.int 7)]]

/-- Duplicates the lower of two words, and needs to find no more than two. -/
def lowerWord : Program :=
  [.expectDepth 2, .inverted (.dup 1)]

def greedy : Program :=
  [.label "start", .op .pop]

theorem compile_concatenates_lowerWord :
    compile {} (twoWords ++ lowerWord) = .ok #[0x58, 0x60, 7, 0x19, 0x81] ∧
      compile {} ([.setDepth 2] ++ lowerWord) = .ok #[0x81] ∧
      compile {} lowerWord = .error (.depthMismatch 2 0) ∧
      compile {} (greedy ++ lowerWord) = .error (.stackUnderflow .pop 1 0) := by
  have flat : twoWords.flatten stackLimit = .ok ⟨⟨2, stackLimit⟩, #[.op .pc,
      .push ⟨[7], by decide, by decide⟩, .op .not]⟩ := by decide +kernel
  have front : compile {} twoWords = .ok #[0x58, 0x60, 7, 0x19] := by decide +kernel
  have back : compile {} ([.setDepth 2] ++ lowerWord) = .ok #[0x81] := by decide +kernel
  have fails : greedy.flatten stackLimit = .error (.stackUnderflow .pop 1 0) := by decide +kernel
  refine ⟨?_, back, by decide +kernel, (compile_concatenates {} greedy lowerWord).2 _ fails⟩
  have both := (compile_concatenates {} twoWords lowerWord).1 (by decide) (by decide) _ flat
  exact (both _).mpr ⟨_, _, front, back, rfl⟩

end StackAssembler.Assembly

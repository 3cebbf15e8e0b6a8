import Mathlib.Order.Bounds.Defs
import StackAssembler.Proofs.CompileOutcome

/-!
The width of label pushes. Widening them moves labels away, by one byte for each push before the
label, while the reach grows by a factor; so a width that is enough stays enough when it grows, and
looking for one from below, in steps as large as the labels call for, comes to the least.
-/

set_option autoImplicit false
set_option relaxedAutoImplicit false

namespace StackAssembler.Assembly

section Widening

def Item.isLabelPush : Item → Bool
  | .pushLabel _ => true
  | _ => false

theorem extent_add (width more : Nat) (items : List Item) :
    extent (width + more) items = extent width items + items.countP Item.isLabelPush * more := by
  induction items with
  | nil => simp
  | cons item rest ih =>
      rw [extent_cons, extent_cons, ih]
      cases item
      case pushLabel name =>
        rw [List.countP_cons_of_pos rfl, Nat.succ_mul, Item.size, Item.size]
        omega
      case op | push | label =>
        rw [List.countP_cons_of_neg Bool.false_ne_true, Item.size, Item.size, Nat.add_assoc]

theorem extent_mono {narrow wide : Nat} (le : narrow ≤ wide) (items : List Item) :
    extent narrow items ≤ extent wide items := by
  obtain ⟨more, rfl⟩ := Nat.exists_eq_add_of_le le
  rw [extent_add]
  exact Nat.le_add_right _ _

theorem countP_le_extent {width : Nat} (positive : 1 ≤ width) (items : List Item) :
    items.countP Item.isLabelPush ≤ extent width items := by
  have total := extent_add 0 width items
  rw [Nat.zero_add] at total
  calc items.countP Item.isLabelPush
      ≤ items.countP Item.isLabelPush * width := Nat.le_mul_of_pos_right _ positive
    _ ≤ extent width items := by omega

theorem extent_lt_pow_of_le {narrow wide : Nat} {items : List Item} (positive : 1 ≤ narrow)
    (le : narrow ≤ wide) (near : extent narrow items < 256 ^ narrow) :
    extent wide items < 256 ^ wide := by
  induction le with
  | refl => exact near
  | @step wide le ih =>
      have moved : extent (wide + 1) items = extent wide items + items.countP Item.isLabelPush := by
        rw [extent_add, Nat.mul_one]
      have few := countP_le_extent (Nat.le_trans positive le) items
      rw [Nat.succ_eq_add_one, moved, Nat.pow_succ]
      omega

theorem Reached.widen {narrow wide : Nat} {items : List Item} {name : String}
    (reached : Reached narrow items name) (positive : 1 ≤ narrow) (le : narrow ≤ wide) :
    Reached wide items name := by
  obtain ⟨front, back, parts, near⟩ := reached
  exact ⟨front, back, parts, extent_lt_pow_of_le positive le near⟩

end Widening

section Choice

/-- The bytes of a label push hold the offset of every label. -/
def ReachesAll (width : Nat) (items : List Item) : Prop :=
  ∀ name offset, (name, offset) ∈ labelOffsets width 0 items → offset < 256 ^ width

theorem reachesAll_iff {width : Nat} {items : List Item} :
    ReachesAll width items ↔ furthestLabel width items < 256 ^ width := by
  have positive : 0 < 256 ^ width := Nat.pow_pos (by decide)
  have bounded : furthestLabel width items < 256 ^ width ↔
      furthestLabel width items ≤ 256 ^ width - 1 := by omega
  rw [bounded, furthestLabel_le_iff]
  constructor
  · intro reaches before name after parts
    have listed : (name, extent width before) ∈ labelOffsets width 0 items :=
      mem_labelOffsets.mpr ⟨before, after, parts, (Nat.zero_add _).symm⟩
    have near := reaches name _ listed
    omega
  · intro near name offset listed
    obtain ⟨before, after, parts, position⟩ := mem_labelOffsets.mp listed
    have bound := near before name after parts
    omega

theorem furthestLabel_mono {narrow wide : Nat} (le : narrow ≤ wide) (items : List Item) :
    furthestLabel narrow items ≤ furthestLabel wide items := by
  rw [furthestLabel_le_iff]
  intro before name after parts
  calc extent narrow before
      ≤ extent wide before := extent_mono le before
    _ ≤ furthestLabel wide items := furthestLabel_le_iff.mp (Nat.le_refl _) before name after parts

theorem minimalWidth_furthestLabel_le {width enough : Nat} {items : List Item}
    (positive : 1 ≤ enough) (reaches : ReachesAll enough items) (le : width ≤ enough) :
    minimalWidth (furthestLabel width items) ≤ enough := by
  have near : furthestLabel width items < 256 ^ enough :=
    Nat.lt_of_le_of_lt (furthestLabel_mono le items) (reachesAll_iff.mp reaches)
  exact Nat.le_trans (Nat.min_le_left _ _) ((BigEndian.byteCount_le_iff positive).mpr near)

theorem growWidth_le {width enough : Nat} {items : List Item} (positive : 1 ≤ enough)
    (reaches : ReachesAll enough items) (le : width ≤ enough) : growWidth items width ≤ enough := by
  fun_induction growWidth items width with
  | case1 width needed settled => exact le
  | case2 width needed short ih => exact ih (minimalWidth_furthestLabel_le positive reaches le)

variable {items : List Item}

theorem reachesAll_eight (small : extent 8 items < 2 ^ 64) : ReachesAll 8 items := by
  rw [reachesAll_iff]
  calc furthestLabel 8 items
      ≤ extent 8 items := furthestLabel_le_extent 8 items
    _ < 256 ^ 8 := small

theorem growWidth_le_eight (small : extent (growWidth items 1) items < 2 ^ 64) :
    growWidth items 1 ≤ 8 := by
  by_contra wide
  -- Pushes of eight bytes would take less room still, and reach all there is.
  have le : 8 ≤ growWidth items 1 := by omega
  have fewer : extent 8 items < 2 ^ 64 := Nat.lt_of_le_of_lt (extent_mono le items) small
  exact wide (growWidth_le (by decide) (reachesAll_eight fewer) (by decide))

end Choice

section Rounds

variable {items : List Item}

end Rounds

/-- The program is assembled, its label pushes having the given width if there is one. -/
def Assembles (limit : Nat) (given : Option Nat) (program : Program) : Prop :=
  ∃ code, compile { stackLimit := limit, labelWidth := given } program = .ok code

section Compilation

variable {limit : Nat} {program : Program}

theorem assembles_given_iff {width : Nat} (legal : 1 ≤ width ∧ width ≤ 32) :
    Assembles limit (some width) program ↔
      ∃ items, Flattens { stackLimit := limit } program items ∧
        (items.filterMap Item.declares?).Nodup ∧
          ∀ name, .pushLabel name ∈ items → Reached width items name := by
  have given : ∀ items, labelWidth (some width) items = .ok width := fun _ => if_pos legal
  rw [Assembles, compile_succeeds]
  constructor
  · rintro ⟨items, flat, chosen, same, distinct, assembled⟩
    rw [given] at same
    cases same
    exact ⟨items, flat, distinct, (assembleItems_succeeds legal distinct).mp assembled⟩
  · rintro ⟨items, flat, distinct, reached⟩
    exact ⟨items, flat, width, given items, distinct,
      (assembleItems_succeeds legal distinct).mpr reached⟩

theorem Assembles.widen {narrow wide : Nat} (assembles : Assembles limit (some narrow) program)
    (positive : 1 ≤ narrow) (le : narrow ≤ wide) (legal : wide ≤ 32) :
    Assembles limit (some wide) program := by
  obtain ⟨items, flat, distinct, reached⟩ :=
    (assembles_given_iff ⟨positive, Nat.le_trans le legal⟩).mp assembles
  refine (assembles_given_iff ⟨Nat.le_trans positive le, legal⟩).mpr ⟨items, flat, distinct, ?_⟩
  intro name pushed
  exact (reached name pushed).widen positive le

theorem compile_of_chosen {code : Bytes}
    (compiled : compile { stackLimit := limit } program = .ok code) :
    ∃ items, Flattens { stackLimit := limit } program items ∧
      compile { stackLimit := limit, labelWidth := some (growWidth items 1) } program =
        .ok code := by
  obtain ⟨listing, flat, behind⟩ := bind_eq_ok.mp compiled
  obtain ⟨width, chosen, behind⟩ := bind_eq_ok.mp behind
  obtain ⟨_, _, rfl⟩ := labelWidth_eq_ok.mp chosen
  have legal := growWidth_bounds listing.items.toList 1 (by decide)
  refine ⟨_, ⟨listing, flat, rfl⟩, bind_eq_ok.mpr ⟨listing, flat, bind_eq_ok.mpr ⟨_, ?_, behind⟩⟩⟩
  exact if_pos legal

theorem Assembles.choose {width : Nat} (assembles : Assembles limit (some width) program)
    (legal : 1 ≤ width ∧ width ≤ 32)
    (small : ∀ items, Flattens { stackLimit := limit } program items → extent 1 items < 2 ^ 64) :
    Assembles limit none program := by
  obtain ⟨items, flat, distinct, reached⟩ := (assembles_given_iff legal).mp assembles
  have chosen := labelWidth_none distinct
  refine compile_succeeds.mpr ⟨items, flat, _, chosen, distinct,
    (assembleItems_succeeds (labelWidth_legal chosen) distinct).mpr ?_⟩
  intro name pushed
  -- What is pushed is declared, and the width that is chosen reaches all declarations.
  obtain ⟨front, back, parts, _⟩ := reached name pushed
  exact ⟨front, back, parts, growWidth_reaches (small items flat) parts⟩

end Compilation

structure WidthsClosed (limit : Nat) (program : Program) : Prop where
  widens : ∀ narrow wide, 1 ≤ narrow → narrow ≤ wide → wide ≤ 32 →
    Assembles limit (some narrow) program → Assembles limit (some wide) program
  chosen_iff : Assembles limit none program ↔ Assembles limit (some 32) program
  chosen : ∀ code, compile { stackLimit := limit } program = .ok code →
    ∃ width, 1 ≤ width ∧ width ≤ 8 ∧
      compile { stackLimit := limit, labelWidth := some width } program = .ok code

/-- The widths in which a program is assembled are all those from some width on, and the one that is
chosen is among them. -/
theorem compile_widths_closed (limit : Nat) (program : Program)
    (small : ∀ items, Flattens { stackLimit := limit } program items → extent 32 items < 2 ^ 64) :
    WidthsClosed limit program := by
  have counted : ∀ items, Flattens { stackLimit := limit } program items →
      ∀ width, width ≤ 32 → extent width items < 2 ^ 64 :=
    fun items flat width legal => Nat.lt_of_le_of_lt (extent_mono legal items) (small items flat)
  have chosen : ∀ code, compile { stackLimit := limit } program = .ok code →
      ∃ width, 1 ≤ width ∧ width ≤ 8 ∧
        compile { stackLimit := limit, labelWidth := some width } program = .ok code := by
    intro code compiled
    obtain ⟨items, flat, given⟩ := compile_of_chosen compiled
    have legal := growWidth_bounds items 1 (by decide)
    exact ⟨_, legal.1, growWidth_le_eight (counted items flat _ legal.2), given⟩
  refine ⟨?_, ⟨?_, ?_⟩, chosen⟩
  · intro narrow wide positive le legal assembles
    exact assembles.widen positive le legal
  · rintro ⟨code, compiled⟩
    obtain ⟨width, positive, narrow, given⟩ := chosen code compiled
    exact Assembles.widen ⟨code, given⟩ positive (by omega) (Nat.le_refl _)
  · intro assembles
    exact assembles.choose (by decide) fun items flat => counted items flat 1 (by decide)

def farJump : Program :=
  [.pushLabel "far", .op .jump] ++ List.replicate 256 (.op .jumpdest) ++ [.label "far"]

theorem compile_widths_closed_farJump :
    (∀ items, Flattens { stackLimit := 1 } farJump items → extent 32 items < 2 ^ 64) ∧
      compile { stackLimit := 1, labelWidth := some 1 } farJump =
        .error (.labelOutOfReach "far" 259 1) ∧
      Assembles 1 (some 2) farJump ∧ Assembles 1 (some 32) farJump ∧ Assembles 1 none farJump := by
  have small : ∀ items, Flattens { stackLimit := 1 } farJump items → extent 32 items < 2 ^ 64 := by
    rintro _ ⟨listing, flat, rfl⟩
    have counted : (farJump.flatten 1).map (fun listing => extent 32 listing.items.toList) =
        .ok 291 := by
      decide +kernel
    rw [flat] at counted
    have size : extent 32 listing.items.toList = 291 := Except.ok.inj counted
    omega
  have closed := compile_widths_closed 1 farJump small
  have two : Assembles 1 (some 2) farJump := by
    have succeeds : (compile { stackLimit := 1, labelWidth := some 2 } farJump).isOk = true := by
      decide +kernel
    cases compiled : compile { stackLimit := 1, labelWidth := some 2 } farJump with
    | ok code => exact ⟨code, compiled⟩
    | error _ =>
        rw [compiled] at succeeds
        cases succeeds
  have widest := closed.widens 2 32 (by decide) (by decide) (by decide) two
  exact ⟨small, by decide +kernel, two, widest, closed.chosen_iff.mpr widest⟩

end StackAssembler.Assembly

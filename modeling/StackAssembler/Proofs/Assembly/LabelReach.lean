import StackAssembler.Proofs.Assembly.Placement

/-!
Which labels a width of label pushes reaches. A label's offset grows with the width, but not beyond a
multiple of what it is at width one, so widening stops at a width whose bytes hold the offset of
every label, the widest push being far beyond the size of any program.
-/

set_option autoImplicit false
set_option relaxedAutoImplicit false

namespace StackAssembler.Assembly

theorem Item.size_le {width : Nat} (legal : width ≤ 32) (item : Item) :
    item.size width ≤ 32 * item.size 1 := by
  cases item <;> simp only [Item.size] <;> omega

theorem extent_le {width : Nat} (legal : width ≤ 32) (items : List Item) :
    extent width items ≤ 32 * extent 1 items := by
  induction items with
  | nil => simp
  | cons item rest ih =>
      have head := item.size_le legal
      rw [extent_cons, extent_cons]
      omega

private theorem foldl_max_le_iff {entries : List (String × Nat)} {start bound : Nat} :
    entries.foldl (fun furthest entry => max furthest entry.2) start ≤ bound ↔
      start ≤ bound ∧ ∀ entry ∈ entries, entry.2 ≤ bound := by
  induction entries generalizing start with
  | nil => simp
  | cons entry rest ih =>
      rw [List.foldl_cons, ih, List.forall_mem_cons, Nat.max_le, and_assoc]

theorem furthestLabel_le_iff {width bound : Nat} {items : List Item} :
    furthestLabel width items ≤ bound ↔ ∀ before name after,
      items = before ++ .label name :: after → extent width before ≤ bound := by
  rw [furthestLabel, foldl_max_le_iff]
  constructor
  · intro bounded before name after parts
    have listed : (name, extent width before) ∈ labelOffsets width 0 items :=
      mem_labelOffsets.mpr ⟨before, after, parts, (Nat.zero_add _).symm⟩
    exact bounded.2 _ listed
  · intro bounded
    refine ⟨Nat.zero_le _, ?_⟩
    intro entry listed
    obtain ⟨before, after, parts, position⟩ := mem_labelOffsets.mp listed
    have near := bounded before entry.1 after parts
    omega

theorem furthestLabel_le_extent (width : Nat) (items : List Item) :
    furthestLabel width items ≤ extent width items := by
  rw [furthestLabel_le_iff]
  intro before name after parts
  rw [parts, extent_append]
  omega

theorem minimalWidth_growWidth_le (items : List Item) (width : Nat) :
    minimalWidth (furthestLabel (growWidth items width) items) ≤ growWidth items width := by
  fun_induction growWidth items width with
  | case1 width needed settled => exact settled
  | case2 width needed short ih => exact ih

theorem lt_pow_of_minimalWidth_le {n width : Nat} (positive : 0 < width) (fits : n < 256 ^ 32)
    (least : minimalWidth n ≤ width) : n < 256 ^ width := by
  have count : BigEndian.byteCount n ≤ 32 := (BigEndian.byteCount_le_iff (by decide)).mpr fits
  have same : minimalWidth n = BigEndian.byteCount n := Nat.min_eq_left count
  rw [same] at least
  exact (BigEndian.byteCount_le_iff positive).mp least

theorem growWidth_reaches {items before after : List Item} {name : String}
    (small : extent 1 items < 2 ^ 64) (parts : items = before ++ .label name :: after) :
    extent (growWidth items 1) before < 256 ^ growWidth items 1 := by
  have legal := growWidth_bounds items 1 (by decide)
  have near : extent (growWidth items 1) before ≤ furthestLabel (growWidth items 1) items :=
    furthestLabel_le_iff.mp (Nat.le_refl _) before name after parts
  have inside := furthestLabel_le_extent (growWidth items 1) items
  have grown := extent_le legal.2 items
  have fits : furthestLabel (growWidth items 1) items < 256 ^ 32 :=
    calc furthestLabel (growWidth items 1) items
        ≤ 32 * extent 1 items := Nat.le_trans inside grown
      _ < 32 * 2 ^ 64 := Nat.mul_lt_mul_of_pos_left small (by decide)
      _ < 256 ^ 32 := by decide
  exact Nat.lt_of_le_of_lt near
    (lt_pow_of_minimalWidth_le legal.1 fits (minimalWidth_growWidth_le items 1))

end StackAssembler.Assembly

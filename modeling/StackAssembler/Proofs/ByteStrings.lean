import StackAssembler.Bytes

set_option autoImplicit false
set_option relaxedAutoImplicit false

namespace StackAssembler.Bytes

theorem byteAt_of_lt {bytes : Bytes} {i : Nat} (inside : i < bytes.size) :
    bytes.byteAt i = bytes[i] := by
  rw [byteAt, Array.getElem?_eq_getElem inside, Option.getD_some]

theorem byteAt_of_size_le {bytes : Bytes} {i : Nat} (outside : bytes.size ≤ i) :
    bytes.byteAt i = 0 := by
  rw [byteAt, Array.getElem?_eq_none outside, Option.getD_none]

theorem ext_byteAt {first second : Bytes} (size : first.size = second.size)
    (same : ∀ i, i < first.size → first.byteAt i = second.byteAt i) : first = second := by
  apply Array.ext size
  intro i left right
  rw [← byteAt_of_lt left, ← byteAt_of_lt right]
  exact same i left

@[simp] theorem byteAt_growTo (bytes : Bytes) (size i : Nat) :
    (bytes.growTo size).byteAt i = bytes.byteAt i := by
  unfold byteAt growTo
  rw [Array.getElem?_append]
  split
  · rfl
  · rename_i outside
    rw [Array.getElem?_replicate, Array.getElem?_eq_none (Nat.le_of_not_lt outside)]
    split <;> rfl

theorem byteAt_overwrite {bytes data : Bytes} {start : Nat}
    (inside : start + data.size ≤ bytes.size) (i : Nat) :
    (bytes.overwrite start data).byteAt i =
      if start ≤ i ∧ i < start + data.size then data.byteAt (i - start) else bytes.byteAt i := by
  unfold byteAt
  rw [getElem?_overwrite]
  by_cases written : start ≤ i ∧ i < start + data.size
  · rw [if_pos written, if_pos ⟨written.1, written.2, by omega⟩]
  · rw [if_neg written, if_neg (fun both => written ⟨both.1, both.2.1⟩)]

theorem byteAt_window {bytes : Bytes} {start count i : Nat} (inside : i < count) :
    (bytes.window start count).byteAt i = bytes.byteAt (start + i) := by
  rw [byteAt_of_lt (by simpa using inside)]
  simp [window]

theorem window_congr {first second : Bytes} (same : ∀ i, first.byteAt i = second.byteAt i)
    (start count : Nat) : first.window start count = second.window start count := by
  unfold window
  simp only [same]

theorem extract_eq_window {bytes : Bytes} {start finish : Nat} (inside : finish ≤ bytes.size) :
    bytes.extract start finish = bytes.window start (finish - start) := by
  have size : (bytes.extract start finish).size = finish - start := by
    rw [Array.size_extract, Nat.min_eq_left inside]
  apply ext_byteAt
  · rw [size, size_window]
  · intro i within
    rw [size] at within
    rw [byteAt_window within, byteAt, byteAt, Array.getElem?_extract, Nat.min_eq_left inside,
      if_pos within]

theorem splice_eq_overwrite {bytes data : Bytes} {start : Nat}
    (inside : start + data.size ≤ bytes.size) :
    bytes.extract 0 start ++ data ++ bytes.extract (start + data.size) bytes.size =
      bytes.overwrite start data := by
  have front : (bytes.extract 0 start).size = start := by
    rw [Array.size_extract, Nat.min_eq_left (by omega), Nat.sub_zero]
  apply Array.ext_getElem?
  intro i
  rw [getElem?_overwrite, Array.append_assoc, Array.getElem?_append, front]
  by_cases before : i < start
  · rw [if_pos before, if_neg (by omega), Array.getElem?_extract, if_pos (by omega), Nat.zero_add]
  · rw [if_neg before, Array.getElem?_append]
    by_cases written : i - start < data.size
    · rw [if_pos written, if_pos (by omega)]
    · rw [if_neg written, if_neg (by omega), Array.getElem?_extract]
      have position : start + data.size + (i - start - data.size) = i := by omega
      rw [position]
      split
      · rfl
      · rw [Array.getElem?_eq_none (by omega)]

theorem window_zero (bytes : Bytes) (start : Nat) : bytes.window start 0 = #[] :=
  Array.eq_empty_of_size_eq_zero (size_window bytes start 0)

end StackAssembler.Bytes

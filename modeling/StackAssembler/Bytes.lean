/-!
Byte strings with reads and writes by position. Reads past the end give zeros, writes past the end
are dropped, so every position is legal and the length of a string changes only by `growTo`.
-/

set_option autoImplicit false
set_option relaxedAutoImplicit false

namespace StackAssembler

abbrev Bytes := Array UInt8

namespace Bytes

def byteAt (bytes : Bytes) (i : Nat) : UInt8 :=
  bytes[i]?.getD 0

/-- The `count` bytes from `start` on, zeros past the end. -/
def window (bytes : Bytes) (start count : Nat) : Bytes :=
  Array.ofFn fun i : Fin count => bytes.byteAt (start + i)

/-- Writes `data` over the bytes from `start` on and drops what lies past the end. -/
def overwrite (bytes : Bytes) (start : Nat) (data : Bytes) : Bytes :=
  data.size.fold (fun i inside acc => acc.setIfInBounds (start + i) data[i]) bytes

def growTo (bytes : Bytes) (size : Nat) : Bytes :=
  bytes ++ Array.replicate (size - bytes.size) 0

@[simp] theorem size_window (bytes : Bytes) (start count : Nat) :
    (bytes.window start count).size = count := by
  simp [window]

theorem window_of_toList {bytes : Bytes} {head middle tail : List UInt8}
    (parts : bytes.toList = head ++ middle ++ tail) :
    bytes.window head.length middle.length = middle.toArray := by
  apply Array.ext
  · simp
  · intro i inside _
    rw [size_window] at inside
    have found : bytes[head.length + i]? = some middle[i] := by
      rw [← Array.getElem?_toList, parts, List.append_assoc,
        List.getElem?_append_right (by omega), Nat.add_sub_cancel_left,
        List.getElem?_append_left inside, List.getElem?_eq_getElem inside]
    simp [window, byteAt, found]

@[simp] theorem size_growTo (bytes : Bytes) (size : Nat) :
    (bytes.growTo size).size = max bytes.size size := by
  simp only [growTo, Array.size_append, Array.size_replicate]
  omega

private theorem size_fold_setIfInBounds (start : Nat) (data : Bytes) (n : Nat)
    (bound : n ≤ data.size) (bytes : Bytes) :
    (n.fold (fun i inside acc => acc.setIfInBounds (start + i) (data[i])) bytes :
      Bytes).size = bytes.size := by
  induction n with
  | zero => simp
  | succ n ih => simpa [Nat.fold_succ] using ih (by omega)

@[simp] theorem size_overwrite (bytes : Bytes) (start : Nat) (data : Bytes) :
    (bytes.overwrite start data).size = bytes.size :=
  size_fold_setIfInBounds start data data.size (Nat.le_refl _) bytes

private theorem getElem?_fold_setIfInBounds (start : Nat) (data : Bytes) (n : Nat)
    (bound : n ≤ data.size) (bytes : Bytes) (i : Nat) :
    (n.fold (fun i inside acc => acc.setIfInBounds (start + i) (data[i])) bytes : Bytes)[i]? =
      if start ≤ i ∧ i < start + n ∧ i < bytes.size then data[i - start]? else bytes[i]? := by
  induction n with
  | zero => rw [if_neg (by omega)]; rfl
  | succ n ih =>
      have size := size_fold_setIfInBounds start data n (by omega) bytes
      rw [Nat.fold_succ, Array.getElem?_setIfInBounds, ih (by omega), size]
      by_cases last : start + n = i
      · subst last
        by_cases inside : start + n < bytes.size
        · rw [if_pos rfl, if_pos inside, if_pos (by omega), Nat.add_sub_cancel_left,
            Array.getElem?_eq_getElem]
        · rw [if_pos rfl, if_neg inside, if_neg (by omega),
            Array.getElem?_eq_none (Nat.le_of_not_lt inside)]
      · rw [if_neg last]
        split
        · rw [if_pos (by omega)]
        · rw [if_neg (by omega)]

theorem getElem?_overwrite (bytes : Bytes) (start : Nat) (data : Bytes) (i : Nat) :
    (bytes.overwrite start data)[i]? =
      if start ≤ i ∧ i < start + data.size ∧ i < bytes.size then data[i - start]? else bytes[i]? :=
  getElem?_fold_setIfInBounds start data data.size (Nat.le_refl _) bytes i

theorem window_overwrite {bytes : Bytes} {start : Nat} {data : Bytes}
    (inside : start + data.size ≤ bytes.size) :
    (bytes.overwrite start data).window start data.size = data := by
  apply Array.ext
  · simp
  · intro i read written
    have found := getElem?_overwrite bytes start data (start + i)
    rw [if_pos (by omega), Nat.add_sub_cancel_left, Array.getElem?_eq_getElem written] at found
    simp [window, byteAt, found]

theorem growTo_of_le {bytes : Bytes} {size : Nat} (enough : size ≤ bytes.size) :
    bytes.growTo size = bytes := by
  rw [growTo, Nat.sub_eq_zero_of_le enough]
  exact Array.append_empty

end Bytes

end StackAssembler

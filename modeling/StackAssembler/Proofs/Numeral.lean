import Mathlib.Algebra.Group.Nat.Defs
import StackAssembler.Word

set_option autoImplicit false
set_option relaxedAutoImplicit false

namespace StackAssembler

namespace BigEndian

theorem pow_bytes (width : Nat) : (256 : Nat) ^ width = 2 ^ (8 * width) := by
  rw [Nat.pow_mul]

theorem byteCount_le_iff {n width : Nat} (positive : 0 < width) :
    byteCount n ≤ width ↔ n < 256 ^ width := by
  have count : byteCount n ≤ width ↔ n.log2 < 8 * width := by
    simp only [byteCount]
    omega
  rw [count, pow_bytes]
  by_cases zero : n = 0
  · subst zero
    simp only [Nat.log2_zero, Nat.two_pow_pos, iff_true]
    omega
  · exact Nat.log2_lt zero

private theorem foldl_decode (bytes : List UInt8) (n : Nat) :
    bytes.foldl (fun n byte => 256 * n + byte.toNat) n =
      n * 256 ^ bytes.length + decode bytes := by
  induction bytes generalizing n with
  | nil => simp [decode]
  | cons byte rest ih =>
      simp only [decode, List.foldl_cons, List.length_cons]
      rw [ih, ih (256 * 0 + byte.toNat)]
      grind

theorem decode_cons (byte : UInt8) (rest : List UInt8) :
    decode (byte :: rest) = byte.toNat * 256 ^ rest.length + decode rest := by
  simp only [decode, List.foldl_cons]
  rw [foldl_decode]
  simp [decode]

theorem decode_zeros_append (n : Nat) (bytes : List UInt8) :
    decode (List.replicate n 0 ++ bytes) = decode bytes := by
  induction n with
  | zero => rfl
  | succ n ih =>
      rw [List.replicate_succ, List.cons_append, decode_cons, ih]
      simp

theorem decode_lt (bytes : List UInt8) : decode bytes < 256 ^ bytes.length := by
  induction bytes with
  | nil => exact Nat.one_pos
  | cons byte rest ih =>
      have digit : byte.toNat + 1 ≤ 256 := byte.toNat_lt
      rw [decode_cons, List.length_cons, Nat.pow_succ, Nat.mul_comm (256 ^ rest.length)]
      calc byte.toNat * 256 ^ rest.length + decode rest
          < byte.toNat * 256 ^ rest.length + 256 ^ rest.length := Nat.add_lt_add_left ih _
        _ = (byte.toNat + 1) * 256 ^ rest.length := (Nat.succ_mul _ _).symm
        _ ≤ 256 * 256 ^ rest.length := Nat.mul_le_mul_right _ digit

theorem getElem?_encode {width i : Nat} (inside : i < width) (n : Nat) :
    (encode width n)[i]? = some (UInt8.ofNat (n / 256 ^ (width - 1 - i) % 256)) := by
  induction width generalizing i with
  | zero => omega
  | succ width ih =>
      rw [encode]
      cases i with
      | zero =>
          rw [List.getElem?_cons_zero, Nat.shiftRight_eq_div_pow, ← pow_bytes]
          exact congrArg some (UInt8.ofNat_mod_size).symm
      | succ i =>
          have places : width + 1 - 1 - (i + 1) = width - 1 - i := by omega
          rw [List.getElem?_cons_succ, ih (by omega), places]

theorem digit_decode {bytes : List UInt8} {i : Nat} (inside : i < bytes.length) :
    decode bytes / 256 ^ (bytes.length - 1 - i) % 256 = bytes[i].toNat := by
  induction bytes generalizing i with
  | nil => cases inside
  | cons byte rest ih =>
      have low := decode_lt rest
      rw [decode_cons, List.length_cons, Nat.add_sub_cancel]
      cases i with
      | zero =>
          rw [Nat.sub_zero, Nat.add_comm, Nat.add_mul_div_right _ _ (Nat.pow_pos (by decide)),
            Nat.div_eq_of_lt low, Nat.zero_add, Nat.mod_eq_of_lt byte.toNat_lt]
          rfl
      | succ i =>
          have within : i < rest.length := Nat.lt_of_succ_lt_succ inside
          have places : rest.length - (i + 1) = rest.length - 1 - i := by omega
          -- The first byte counts for a multiple of what is divided by, and that one of 256.
          have power : 256 ^ rest.length = 256 * 256 ^ i * 256 ^ (rest.length - 1 - i) := by
            rw [Nat.mul_assoc, ← Nat.pow_add, ← Nat.pow_succ']
            congr 1
            omega
          rw [places, power, ← Nat.mul_assoc, Nat.add_comm,
            Nat.add_mul_div_right _ _ (Nat.pow_pos (by decide)), Nat.mul_left_comm,
            Nat.add_mul_mod_self_left, ih within]
          rfl

theorem decode_encode (width n : Nat) : decode (encode width n) = n % 256 ^ width := by
  induction width with
  | zero => simp [encode, decode, Nat.mod_one]
  | succ width ih =>
      rw [encode, decode_cons, ih, length_encode]
      rw [Nat.shiftRight_eq_div_pow, ← pow_bytes, Nat.pow_succ, Nat.mod_mul]
      simp only [UInt8.toNat_ofNat', Nat.reducePow]
      grind

end BigEndian

namespace Word

/-- The bytes of a word as the digits to the base 256: the one at `i` has `31 - i` places behind it. -/
def spelling (w : Word) : Bytes :=
  Array.ofFn fun i : Fin 32 => UInt8.ofNat (w.toNat / 256 ^ (31 - i.val) % 256)

theorem toBytes_eq_spelling (w : Word) : w.toBytes = w.spelling := by
  apply Array.ext_getElem?
  intro i
  rw [toBytes, spelling, List.getElem?_toArray, Array.getElem?_ofFn]
  by_cases inside : i < 32
  · rw [dif_pos inside]
    exact BigEndian.getElem?_encode inside w.toNat
  · rw [dif_neg inside]
    exact List.getElem?_eq_none (by rw [BigEndian.length_encode]; exact Nat.le_of_not_lt inside)

theorem toNat_ofBytes {bytes : Bytes} (short : bytes.size ≤ 32) :
    (ofBytes bytes).toNat = BigEndian.decode bytes.toList := by
  have fits : BigEndian.decode bytes.toList < 2 ^ 256 :=
    calc BigEndian.decode bytes.toList
        < 256 ^ bytes.toList.length := BigEndian.decode_lt _
      _ ≤ 256 ^ 32 := Nat.pow_le_pow_right (by decide) short
      _ = 2 ^ 256 := by decide
  exact Nat.mod_eq_of_lt fits

theorem spelling_ofBytes {bytes : Bytes} (size : bytes.size = 32) :
    (ofBytes bytes).spelling = bytes := by
  apply Array.ext
  · rw [spelling, Array.size_ofFn, size]
  · intro i _ inside
    have places : 31 - i = bytes.toList.length - 1 - i := by
      rw [Array.length_toList, size]
    have digit := BigEndian.digit_decode (Nat.lt_of_lt_of_eq inside Array.length_toList.symm)
    rw [← places, ← toNat_ofBytes (Nat.le_of_eq size), Array.getElem_toList] at digit
    simp only [spelling, Array.getElem_ofFn]
    rw [digit, UInt8.ofNat_toNat]

end Word

end StackAssembler

import Mathlib.Data.List.Basic
import StackAssembler.Hex
import StackAssembler.Proofs.Failure

/-!
Hexadecimal texts, character by character. Digits are read from the bytes of a text; a character that
takes more than one byte has none that is a digit, so what is read is what the characters spell. What
is written has two digits for each byte, with small letters.
-/

set_option autoImplicit false
set_option relaxedAutoImplicit false

namespace StackAssembler.Hex

def digitValue? (code : Nat) : Option Nat :=
  if 48 ≤ code ∧ code ≤ 57 then some (code - 48)
  else if 65 ≤ code ∧ code ≤ 70 then some (code - 55)
  else if 97 ≤ code ∧ code ≤ 102 then some (code - 87)
  else none

/-- Characters spell bytes, two digits to each. -/
inductive Spells : List Char → List UInt8 → Prop
  | nil : Spells [] []
  | pair {high low : Char} {upper lower : Nat} {text : List Char} {bytes : List UInt8} :
      digitValue? high.toNat = some upper → digitValue? low.toNat = some lower →
      Spells text bytes → Spells (high :: low :: text) (UInt8.ofNat (16 * upper + lower) :: bytes)

theorem digitValue?_lt {code value : Nat} (digit : digitValue? code = some value) :
    code < 128 ∧ value < 16 := by
  unfold digitValue? at digit
  split at digit
  · cases digit
    omega
  · split at digit
    · cases digit
      omega
    · split at digit
      · cases digit
        omega
      · cases digit

section Reading

private theorem sub_eq_ofNat {byte : UInt8} {n : Nat} (small : n < 256) (le : n ≤ byte.toNat) :
    byte - UInt8.ofNat n = UInt8.ofNat (byte.toNat - n) := by
  have bound := byte.toNat_lt
  have toNat : (UInt8.ofNat n).toNat = n := Nat.mod_eq_of_lt small
  rw [← UInt8.toNat_inj, UInt8.toNat_sub_of_le, toNat]
  · exact (Nat.mod_eq_of_lt (by omega)).symm
  · rw [UInt8.le_iff_toNat_le, toNat]
    exact le

theorem nibble?_eq (byte : UInt8) :
    nibble? byte = (digitValue? byte.toNat).map UInt8.ofNat := by
  unfold nibble? digitValue?
  simp only [UInt8.le_iff_toNat_le, Bool.and_eq_true, decide_eq_true_eq, UInt8.reduceToNat]
  split
  · rename_i digit
    exact congrArg some (sub_eq_ofNat (by decide) digit.1)
  · split
    · rename_i capital
      exact congrArg some (sub_eq_ofNat (by decide) (Nat.le_trans (by decide) capital.1))
    · split
      · rename_i small
        exact congrArg some (sub_eq_ofNat (by decide) (Nat.le_trans (by decide) small.1))
      · rfl

private theorem nibble?_of_large {n : Nat} (large : 128 ≤ n) (small : n < 256) :
    nibble? (UInt8.ofNat n) = none := by
  have code : (UInt8.ofNat n).toNat = n := Nat.mod_eq_of_lt small
  rw [nibble?_eq, code]
  cases digit : digitValue? n with
  | none => rfl
  | some value =>
      have bound := (digitValue?_lt digit).1
      omega

/-- A digit is one byte, which has its value; any other character starts with a byte that has none. -/
theorem utf8EncodeChar_cases (c : Char) :
    (∃ value byte, digitValue? c.toNat = some value ∧ String.utf8EncodeChar c = [byte] ∧
      nibble? byte = some (UInt8.ofNat value)) ∨
    (digitValue? c.toNat = none ∧ ∃ byte rest, String.utf8EncodeChar c = byte :: rest ∧
      nibble? byte = none) := by
  by_cases ascii : c.toNat ≤ 127
  · have single : String.utf8EncodeChar c = [UInt8.ofNat c.toNat] := if_pos ascii
    have code : (UInt8.ofNat c.toNat).toNat = c.toNat := Nat.mod_eq_of_lt (by omega)
    have value := nibble?_eq (UInt8.ofNat c.toNat)
    rw [code] at value
    cases digit : digitValue? c.toNat with
    | none =>
        rw [digit] at value
        exact .inr ⟨rfl, _, [], single, value⟩
    | some n =>
        rw [digit] at value
        exact .inl ⟨n, _, rfl, single, value⟩
  · have none : digitValue? c.toNat = none := by
      cases digit : digitValue? c.toNat with
      | none => rfl
      | some value =>
          have code := (digitValue?_lt digit).1
          omega
    refine .inr ⟨none, ?_⟩
    have several : ¬ c.val.toNat ≤ 127 := ascii
    unfold String.utf8EncodeChar
    simp only [if_neg several]
    split
    · exact ⟨_, _, rfl, nibble?_of_large (by omega) (by omega)⟩
    · split
      · exact ⟨_, _, rfl, nibble?_of_large (by omega) (by omega)⟩
      · exact ⟨_, _, rfl, nibble?_of_large (by omega) (by omega)⟩

private def utf8 (text : List Char) : List UInt8 :=
  text.flatMap String.utf8EncodeChar

private theorem data_toUTF8 (text : String) : text.toUTF8.data.toList = utf8 text.toList := by
  have encoded : text.toByteArray = text.toList.utf8Encode := by
    rw [← String.toByteArray_ofList, String.ofList_toList]
  rw [String.toUTF8, encoded, List.utf8Encode, List.toList_data_toByteArray]
  rfl

private theorem nibble_eq_ok {byte value : UInt8} {position : Nat} :
    nibble byte position = .ok value ↔ nibble? byte = some value := by
  unfold nibble
  cases nibble? byte <;> simp

private theorem decodePairs_pair {high low : UInt8} {rest bytes : List UInt8} {position : Nat} :
    decodePairs position (high :: low :: rest) = .ok bytes ↔
      ∃ upper lower behind, nibble? high = some upper ∧ nibble? low = some lower ∧
        decodePairs (position + 2) rest = .ok behind ∧ bytes = (16 * upper + lower) :: behind := by
  simp only [decodePairs, bind_eq_ok, nibble_eq_ok]
  constructor
  · rintro ⟨upper, first, lower, second, behind, remaining, same⟩
    cases same
    exact ⟨upper, lower, behind, first, second, remaining, rfl⟩
  · rintro ⟨upper, lower, behind, first, second, remaining, rfl⟩
    exact ⟨upper, first, lower, second, behind, remaining, rfl⟩

private theorem byte_eq_ofNat (upper lower : Nat) :
    16 * UInt8.ofNat upper + UInt8.ofNat lower = UInt8.ofNat (16 * upper + lower) := by
  rw [UInt8.ofNat_add, UInt8.ofNat_mul]
  rfl

private theorem digit_of_read {c : Char} {rest bytes : List UInt8} {position : Nat}
    (even : (String.utf8EncodeChar c ++ rest).length % 2 = 0)
    (read : decodePairs position (String.utf8EncodeChar c ++ rest) = .ok bytes) :
    ∃ value byte, digitValue? c.toNat = some value ∧ String.utf8EncodeChar c = [byte] ∧
      nibble? byte = some (UInt8.ofNat value) := by
  rcases utf8EncodeChar_cases c with digit | ⟨_, byte, more, encoded, other⟩
  · exact digit
  · rw [encoded, List.cons_append] at even read
    cases behind : more ++ rest with
    | nil =>
        rw [behind] at even
        cases even
    | cons next further =>
        rw [behind] at read
        obtain ⟨_, _, _, digit, _⟩ := decodePairs_pair.mp read
        rw [other] at digit
        cases digit

private theorem spells_of_decodePairs {text : List Char} {bytes : List UInt8} {position : Nat}
    (even : (utf8 text).length % 2 = 0) (read : decodePairs position (utf8 text) = .ok bytes) :
    Spells text bytes := by
  match text with
  | [] =>
      cases read
      exact .nil
  | [c] =>
      obtain ⟨_, _, _, single, _⟩ := digit_of_read even read
      rw [utf8, List.flatMap_cons, single] at even
      cases even
  | high :: low :: rest =>
      obtain ⟨upper, first, highDigit, single, highValue⟩ := digit_of_read even read
      have front : utf8 (high :: low :: rest) =
          first :: (String.utf8EncodeChar low ++ utf8 rest) := by
        rw [utf8, List.flatMap_cons, single]
        rfl
      rw [front] at even read
      rcases utf8EncodeChar_cases low with
        ⟨lower, second, lowDigit, single, lowValue⟩ | ⟨_, second, more, encoded, other⟩
      · rw [single] at even read
        obtain ⟨_, _, behind, highRead, lowRead, remaining, rfl⟩ := decodePairs_pair.mp read
        rw [highValue] at highRead
        rw [lowValue] at lowRead
        cases highRead
        cases lowRead
        rw [byte_eq_ofNat]
        have rest_even : (utf8 rest).length % 2 = 0 := by
          rw [List.length_cons, List.length_append, List.length_singleton] at even
          omega
        exact .pair highDigit lowDigit (spells_of_decodePairs rest_even remaining)
      · rw [encoded] at read
        obtain ⟨_, _, _, _, lowRead, _⟩ := decodePairs_pair.mp read
        rw [other] at lowRead
        cases lowRead

private theorem utf8EncodeChar_of_digit {c : Char} {value : Nat}
    (digit : digitValue? c.toNat = some value) :
    ∃ byte, String.utf8EncodeChar c = [byte] ∧ nibble? byte = some (UInt8.ofNat value) := by
  rcases utf8EncodeChar_cases c with ⟨_, byte, found, single, read⟩ | ⟨none, _⟩
  · rw [digit] at found
    cases found
    exact ⟨byte, single, read⟩
  · rw [digit] at none
    cases none

private theorem decodePairs_of_spells {text : List Char} {bytes : List UInt8}
    (spells : Spells text bytes) (position : Nat) :
    (utf8 text).length % 2 = 0 ∧ decodePairs position (utf8 text) = .ok bytes := by
  induction spells generalizing position with
  | nil => exact ⟨rfl, rfl⟩
  | @pair high low upper lower text bytes highDigit lowDigit _ ih =>
      obtain ⟨first, highSingle, highRead⟩ := utf8EncodeChar_of_digit highDigit
      obtain ⟨second, lowSingle, lowRead⟩ := utf8EncodeChar_of_digit lowDigit
      obtain ⟨even, remaining⟩ := ih (position + 2)
      have front : utf8 (high :: low :: text) = first :: second :: utf8 text := by
        rw [utf8, List.flatMap_cons, List.flatMap_cons, highSingle, lowSingle]
        rfl
      rw [front, ← byte_eq_ofNat]
      refine ⟨?_, decodePairs_pair.mpr ⟨_, _, bytes, highRead, lowRead, remaining, rfl⟩⟩
      rw [List.length_cons, List.length_cons]
      omega

theorem decode_eq_ok_iff {text : String} {bytes : Bytes} :
    decode text = .ok bytes ↔ Spells text.toList bytes.toList := by
  simp only [decode, data_toUTF8]
  constructor
  · intro read
    split at read
    · cases read
    · rename_i even
      obtain ⟨listed, pairs, rfl⟩ := map_eq_ok.mp read
      exact spells_of_decodePairs (by omega) pairs
  · intro spells
    obtain ⟨even, pairs⟩ := decodePairs_of_spells spells 0
    rw [if_neg (by omega), pairs]
    rfl

end Reading

section Writing

def lowerDigits : List Char :=
  ['0', '1', '2', '3', '4', '5', '6', '7', '8', '9', 'a', 'b', 'c', 'd', 'e', 'f']

/-- Two digits for each byte, that of its upper half first. -/
def lowerCase (bytes : Bytes) : String :=
  String.ofList (bytes.toList.flatMap fun byte =>
    [lowerDigits.getD (byte.toNat / 16) '0', lowerDigits.getD (byte.toNat % 16) '0'])

private theorem digit_eq {n : Nat} (small : n < 16) : digit n = lowerDigits.getD n '0' := by
  revert n
  decide

private theorem toList_foldl_pushByte (bytes : List UInt8) (text : String) :
    (bytes.foldl pushByte text).toList = text.toList ++ bytes.flatMap fun byte =>
      [lowerDigits.getD (byte.toNat / 16) '0', lowerDigits.getD (byte.toNat % 16) '0'] := by
  induction bytes generalizing text with
  | nil => rw [List.foldl_nil, List.flatMap_nil, List.append_nil]
  | cons byte rest ih =>
      have bound := byte.toNat_lt
      rw [List.foldl_cons, ih, pushByte, digit_eq (by omega), digit_eq (by omega),
        String.toList_push, String.toList_push, List.flatMap_cons]
      simp only [List.append_assoc, List.cons_append, List.nil_append]

theorem encode_eq_lowerCase (bytes : Bytes) : encode bytes = lowerCase bytes := by
  have folded := toList_foldl_pushByte bytes.toList ""
  rw [Array.foldl_toList, String.toList_empty, List.nil_append] at folded
  rw [lowerCase, ← folded]
  exact String.ofList_toList.symm

end Writing

end StackAssembler.Hex

import StackAssembler.Proofs.ByteStrings
import StackAssembler.Proofs.Machine.MemoryAccess
import StackAssembler.Proofs.Machine.Strict

set_option autoImplicit false
set_option relaxedAutoImplicit false

namespace StackAssembler

theorem Word.byteAt_ofBytes {bytes : Bytes} {i : Nat} (size : bytes.size = 32) (inside : i < 32) :
    (Word.ofBytes bytes).byteAt i = bytes.byteAt i := by
  have within : i < bytes.toList.length := by
    rw [Array.length_toList, size]
    exact inside
  have places : bytes.toList.length - 1 - i = 31 - i := by
    rw [Array.length_toList, size]
  have digit := BigEndian.digit_decode within
  rw [places] at digit
  have spelt : UInt8.ofNat (BigEndian.decode bytes.toList / 256 ^ (31 - i) % 256) =
      bytes.toList[i] := by
    rw [digit, UInt8.ofNat_toNat]
  have shown : (Word.ofBytes bytes).byteAt i =
      UInt8.ofNat (BigEndian.decode bytes.toList / 256 ^ (31 - i) % 256) := by
    rw [Word.byteAt, Word.byteLength, if_pos inside, Word.toNat_ofBytes (Nat.le_of_eq size),
      Nat.shiftRight_eq_div_pow, ← BigEndian.pow_bytes]
    exact UInt8.ofNat_mod_size.symm
  rw [shown, spelt, Bytes.byteAt_of_lt (by rwa [size]), Array.getElem_toList]

namespace Machine

section Steps

variable {env : Env} {pc : Nat} {memory : Bytes} {offset dest : Word} {rest : List Word}

private theorem step_proceeds {op : Opcode} {operands results : List Word} {final : Bytes}
    (fetched : env.code[pc]? = some op.toByte) (modelled : op.isModelled = true)
    (count : operands.length = op.pops) (bounded : (operands ++ rest).length ≤ stackLimit)
    (effects : effect env op pc memory operands = .proceed results final)
    (fewer : results.length ≤ operands.length) :
    step env ⟨pc, operands ++ rest, memory⟩ =
      .ok () ⟨pc + op.encodedLength, results ++ rest, final⟩ := by
  rw [List.length_append] at bounded
  have fits : results.length + rest.length ≤ stackLimit := by omega
  rw [step_modelled memory fetched modelled count bounded, effects, Effect.resume, if_pos fits]

theorem step_calldataload (fetched : env.code[pc]? = some (Opcode.toByte .calldataload))
    (bounded : ([offset] ++ rest).length ≤ stackLimit) :
    step env ⟨pc, [offset] ++ rest, memory⟩ =
      .ok () ⟨pc + 1, Word.ofBytes (env.calldata.window offset.toNat 32) :: rest, memory⟩ :=
  step_proceeds fetched rfl rfl bounded rfl (Nat.le_refl 1)

def wordAt (dest : Word) : Region :=
  ⟨dest.toNat, 32⟩

private theorem named_wordAt (inside : dest.toNat + 32 ≤ memoryLimit) :
    Region.ofWords? dest 32 = some (wordAt dest) := by
  rw [Region.ofWords?, if_neg (by decide)]
  exact if_pos inside

theorem step_calldatacopy_word (inside : dest.toNat + 32 ≤ memoryLimit)
    (fetched : env.code[pc]? = some (Opcode.toByte .calldatacopy))
    (bounded : ([dest, offset, 32] ++ rest).length ≤ stackLimit) :
    step env ⟨pc, [dest, offset, 32] ++ rest, memory⟩ =
      .ok () ⟨pc + 1, rest, (wordAt dest).write (memory.growTo (wordAt dest).coveringSize)
        (env.calldata.window offset.toNat 32)⟩ :=
  step_proceeds fetched rfl rfl bounded (effect_copy (named_wordAt inside)) (Nat.zero_le _)

theorem step_mload (env : Env) (memory : Bytes) (inside : dest.toNat + 32 ≤ memoryLimit)
    (fetched : env.code[pc]? = some (Opcode.toByte .mload))
    (bounded : ([dest] ++ rest).length ≤ stackLimit) :
    step env ⟨pc, [dest] ++ rest, memory⟩ = .ok () ⟨pc + 1,
      Word.ofBytes ((wordAt dest).read (memory.growTo (wordAt dest).coveringSize)) :: rest,
      memory.growTo (wordAt dest).coveringSize⟩ :=
  step_proceeds fetched rfl rfl bounded (effect_load (named_wordAt inside)) (Nat.le_refl 1)

end Steps

/-- The word of the calldata at an offset, which a machine with any code gets in both ways. -/
structure ReadBothWays (calldata : Bytes) (offset dest word : Word) : Prop where
  bytes : ∀ j, j < 32 → word.byteAt j =
    if inside : offset.toNat + j < calldata.size then calldata[offset.toNat + j] else 0
  loaded : ∀ (code memory : Bytes) (pc : Nat) (rest : List Word),
    code[pc]? = some (Opcode.toByte .calldataload) → ([offset] ++ rest).length ≤ 1024 →
      step (.of code calldata) ⟨pc, [offset] ++ rest, memory⟩ = .ok () ⟨pc + 1, word :: rest, memory⟩
  /-- Whatever the machine does behind the copy, as long as the memory is what that has left. -/
  copied : ∀ (code memory : Bytes) (pc : Nat) (rest : List Word),
    code[pc]? = some (Opcode.toByte .calldatacopy) →
    ([dest, offset, 32] ++ rest).length ≤ 1024 →
      ∃ copy, step (.of code calldata) ⟨pc, [dest, offset, 32] ++ rest, memory⟩ =
          .ok () ⟨pc + 1, rest, copy⟩ ∧
        ∀ (later : Nat) (below : List Word), code[later]? = some (Opcode.toByte .mload) →
          ([dest] ++ below).length ≤ 1024 →
            step (.of code calldata) ⟨later, [dest] ++ below, copy⟩ =
              .ok () ⟨later + 1, word :: below, copy⟩
  /-- The bytes may as well be fetched by a copy that counts in 64 bits. -/
  counted : calldata.size < 2 ^ 64 → ∃ bytes, Strict.fill 32 calldata offset = .ok bytes ∧
    word = Word.ofBytes bytes

/-- A word can be read in either way wherever the memory has room for it. -/
theorem calldata_read_both_ways (calldata : Bytes) (offset dest : Word)
    (inside : dest.toNat + 32 ≤ 2 ^ 20) : ∃ word, ReadBothWays calldata offset dest word := by
  refine ⟨Word.ofBytes (calldata.window offset.toNat 32), ?_, ?_, ?_, ?_⟩
  · intro j within
    rw [Word.byteAt_ofBytes (Bytes.size_window _ _ _) within, Bytes.byteAt_window within]
    split
    · exact Bytes.byteAt_of_lt ‹_›
    · exact Bytes.byteAt_of_size_le (Nat.le_of_not_lt ‹_›)
  · intro code memory pc rest fetched bounded
    exact step_calldataload fetched bounded
  · intro code memory pc rest fetched bounded
    refine ⟨_, step_calldatacopy_word inside fetched bounded, ?_⟩
    intro later below follows room
    -- The copy has grown the memory over the word already, so reading it changes nothing.
    have covered : (wordAt dest).coveringSize ≤ ((wordAt dest).write
        (memory.growTo (wordAt dest).coveringSize) (calldata.window offset.toNat 32)).size := by
      rw [Region.write, Bytes.size_overwrite, Bytes.size_growTo]
      exact Nat.le_max_right _ _
    have read := (wordAt dest).read_write memory (Bytes.size_window calldata offset.toNat 32)
    have loads := step_mload (.of code calldata) ((wordAt dest).write
      (memory.growTo (wordAt dest).coveringSize) (calldata.window offset.toNat 32)) inside follows room
    rw [read, Bytes.growTo_of_le covered] at loads
    exact loads
  · intro small
    exact ⟨_, Strict.fill_eq_ok small 32 offset, rfl⟩

/-- A word that starts at the last of three bytes and is copied to the end of the memory, and one at an
offset that would be that of the second byte if it were cut to 64 bits. -/
theorem calldata_read_both_ways_at_end :
    (∃ word, ReadBothWays #[1, 2, 3] 2 (BitVec.ofNat 256 (2 ^ 20 - 32)) word ∧
      word.byteAt 0 = 3 ∧ word.byteAt 1 = 0) ∧
    ∃ word, ReadBothWays #[1, 2, 3] (BitVec.ofNat 256 (2 ^ 64 + 1)) 0 word ∧ word.byteAt 0 = 0 := by
  obtain ⟨word, reads⟩ := calldata_read_both_ways #[1, 2, 3] 2
    (BitVec.ofNat 256 (2 ^ 20 - 32)) (by decide)
  obtain ⟨beyond, zeros⟩ := calldata_read_both_ways #[1, 2, 3] (BitVec.ofNat 256 (2 ^ 64 + 1))
    0 (by decide)
  exact ⟨⟨word, reads, reads.bytes 0 (by decide), reads.bytes 1 (by decide)⟩,
    beyond, zeros, zeros.bytes 0 (by decide)⟩

end Machine

end StackAssembler

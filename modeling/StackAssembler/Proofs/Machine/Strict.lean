import StackAssembler.Machine.Step
import StackAssembler.Proofs.ByteStrings
import StackAssembler.Proofs.Numeral

/-!
A machine that takes nothing for granted. Where the machine reads zeros past an end, drops what is
written there and counts without bound, the strict one holds its stack from the bottom up, works on
sequences by index and by slice, copies only between parts of one length, counts in 64 bits, and
gives up at the first access or count that does not hold. Each access comes with the conditions under
which it holds, and with what it then gives in terms of windows and overwriting.
-/

set_option autoImplicit false
set_option relaxedAutoImplicit false

namespace StackAssembler.Machine

inductive Hazard
  | index (i size : Nat)
  | slice (start finish size : Nat)
  | lengths (target source : Nat)
  | overflow
  | underflow
  deriving DecidableEq

abbrev Strict := ExceptT Hazard Exec

namespace Strict

def add (a b : Nat) : Except Hazard Nat :=
  if a + b < 2 ^ 64 then .ok (a + b) else .error .overflow

def sub (a b : Nat) : Except Hazard Nat :=
  if b ≤ a then .ok (a - b) else .error .underflow

def mul (a b : Nat) : Except Hazard Nat :=
  if a * b < 2 ^ 64 then .ok (a * b) else .error .overflow

def saturatingAdd (a b : Nat) : Nat :=
  min (a + b) (2 ^ 64 - 1)

def divCeil (whole part : Nat) : Nat :=
  if whole % part = 0 then whole / part else whole / part + 1

def entry {α : Type} (items : Array α) (i : Nat) : Except Hazard α :=
  if inside : i < items.size then .ok items[i] else .error (.index i items.size)

def setEntry {α : Type} (items : Array α) (i : Nat) (item : α) : Except Hazard (Array α) :=
  if inside : i < items.size then .ok (items.set i item) else .error (.index i items.size)

def swapEntries {α : Type} (items : Array α) (i j : Nat) : Except Hazard (Array α) :=
  if left : i < items.size then
    if right : j < items.size then .ok (items.swap i j) else .error (.index j items.size)
  else .error (.index i items.size)

def slice (bytes : Bytes) (start finish : Nat) : Except Hazard Bytes :=
  if start ≤ finish ∧ finish ≤ bytes.size then .ok (bytes.extract start finish)
  else .error (.slice start finish bytes.size)

/-- Puts data in the place of a slice, which must be as long. -/
def copyInto (bytes : Bytes) (start finish : Nat) (data : Bytes) : Except Hazard Bytes := do
  let target ← slice bytes start finish
  if target.size = data.size then
    .ok (bytes.extract 0 start ++ data ++ bytes.extract finish bytes.size)
  else .error (.lengths target.size data.size)

/-- What a slice of the given length holds once it is filled from a place in the source, with zeros
past its end. -/
def fill (length : Nat) (source : Bytes) (offset : Word) : Except Hazard Bytes :=
  match offset.toCount? with
  | none => .ok (Array.replicate length 0)
  | some start =>
      if start < source.size then do
        let rest ← sub source.size start
        let count := min length rest
        let finish ← add start count
        let part ← slice source start finish
        copyInto (Array.replicate length 0) 0 count part
      else .ok (Array.replicate length 0)

def byteOf (word : Word) (i : Nat) : Except Hazard UInt8 :=
  if 32 ≤ i then .ok 0
  else do
    let last ← sub 32 1
    let place ← sub last i
    .ok (UInt8.ofNat (word.toNat >>> (8 * place)))

/-- The number in the name of an opcode whose family starts at the byte `first`. -/
def familyNumber (op : Opcode) (first : Nat) : Except Hazard Nat := do
  let distance ← sub op.toByte.toNat first
  add distance 1

def fail {α : Type} (fault : Fault) : Strict α :=
  liftM (Site.fail fault : Exec α)

def halt {α : Type} (output : Bytes) : Strict α :=
  liftM (throw (.halted output) : Exec α)

def words : Strict (Array Word) := do
  return (← get).stack.reverse.toArray

def touch (site : Site) (offset size : Word) : Strict Region :=
  if size = 0 then return ⟨0, 0⟩
  else
    match offset.toCount?, size.toCount? with
    | some start, some length =>
        match add start length with
        | .ok finish =>
            if finish ≤ memoryLimit then do
              let grown ← mul (divCeil finish 32) 32
              modify fun s => { s with memory := s.memory.growTo grown }
              return ⟨start, length⟩
            else fail (.memoryLimit offset size site.pc)
        | .error _ => fail (.memoryLimit offset size site.pc)
    | _, _ => fail (.memoryLimit offset size site.pc)

def load (site : Site) (offset size : Word) : Strict Bytes := do
  let region ← touch site offset size
  slice (← get).memory region.start region.finish

def storeBytes (site : Site) (offset size : Word) (data : Bytes) : Strict Unit := do
  let region ← touch site offset size
  let memory ← copyInto (← get).memory region.start region.finish data
  modify fun s => { s with memory }

def storeByte (site : Site) (offset value : Word) : Strict Unit := do
  let region ← touch site offset 1
  let last ← sub 32 1
  let byte ← byteOf value last
  let memory ← setEntry (← get).memory region.start byte
  modify fun s => { s with memory }

def copyFrom (site : Site) (source : Bytes) : Strict Unit := do
  let dest ← site.pop
  let offset ← site.pop
  let size ← site.pop
  let region ← touch site dest size
  let target ← slice (← get).memory region.start region.finish
  let data ← fill target.size source offset
  let memory ← copyInto (← get).memory region.start region.finish data
  modify fun s => { s with memory }

/-- Spells a word from the bytes of the code that are there, and passes over all of the operand. -/
def readOperand (env : Env) (width : Nat) : Strict Word := do
  let pc := (← get).pc
  let start := min pc env.code.size
  let finish := min (saturatingAdd pc width) env.code.size
  let place ← sub 32 width
  let count ← sub finish start
  let stop ← add place count
  let part ← slice env.code start finish
  let bytes ← copyInto (Array.replicate 32 0) place stop part
  modify fun s => { s with pc := saturatingAdd s.pc width }
  return Word.ofBytes bytes

def duplicate (site : Site) (n : Nat) : Strict Unit := do
  let words ← words
  if words.size < n then fail (.stackUnderflow site.op site.pc)
  else
    let place ← sub words.size n
    let word ← entry words place
    site.push word

def exchange (site : Site) (n : Nat) : Strict Unit := do
  let words ← words
  let needed ← add n 1
  if words.size < needed then fail (.stackUnderflow site.op site.pc)
  else
    let top ← sub words.size 1
    let below ← sub top n
    let swapped ← swapEntries words top below
    modify fun s => { s with stack := swapped.toList.reverse }

def output (site : Site) : Strict Bytes := do
  let offset ← site.pop
  let size ← site.pop
  load site offset size

/-- The effect of an instruction. Those not listed count nothing, and look words up only where finding
none is an answer. -/
def exec (env : Env) (site : Site) : Strict Unit :=
  match site.op with
  | .byte => do
      let i ← site.pop
      let word ← site.pop
      let byte ← byteOf word (i.toCount?.getD 32)
      site.push (byte.toBitVec.setWidth 256)
  | .keccak256 => do
      let offset ← site.pop
      let size ← site.pop
      let message ← load site offset size
      site.push (Keccak.digest message)
  | .calldataload => do
      let offset ← site.pop
      let bytes ← fill 32 env.calldata offset
      site.push (Word.ofBytes bytes)
  | .calldatacopy => copyFrom site env.calldata
  | .codecopy => copyFrom site env.code
  | .mload => do
      let offset ← site.pop
      let bytes ← load site offset 32
      let word ← copyInto (Array.replicate 32 0) 0 32 bytes
      site.push (Word.ofBytes word)
  | .mstore => do
      let offset ← site.pop
      let value ← site.pop
      storeBytes site offset 32 value.toBytes
  | .mstore8 => do
      let offset ← site.pop
      let value ← site.pop
      storeByte site offset value
  | .push i => do
      let word ← readOperand env (i + 1)
      site.push word
  | .dup i => do
      let n ← familyNumber (.dup i) 0x80
      duplicate site n
  | .swap i => do
      let n ← familyNumber (.swap i) 0x90
      exchange site n
  | .ret => do
      let data ← output site
      halt data
  | .revert => do
      let data ← output site
      fail (.reverted data)
  | _ => Machine.exec env site

def step (env : Env) : Strict Unit := do
  let pc := (← get).pc
  if pc < env.code.size then
    let byte ← entry env.code pc
    match Opcode.ofByte? byte with
    | none => fail (.invalidOpcode byte pc)
    | some op =>
        let next ← add pc 1
        modify fun s => { s with pc := next }
        exec env ⟨op, pc⟩
  else halt #[]

def mark (marks : Array Bool) (i : Nat) (byte : UInt8) : Except Hazard (Array Bool) :=
  if byte = Opcode.toByte .jumpdest then setEntry marks i true else .ok marks

def landingsFrom (code : Bytes) (i : Nat) (marks : Array Bool) : Except Hazard (Array Bool) :=
  if inside : i < code.size then do
    let byte ← entry code i
    let marks ← mark marks i byte
    if i + operandLength byte + 1 < 2 ^ 64 then landingsFrom code (i + operandLength byte + 1) marks
    else .error .overflow
  else .ok marks
termination_by code.size - i

def landings (code : Bytes) : Except Hazard (Array Bool) :=
  landingsFrom code 0 (Array.replicate code.size false)

theorem add_eq_ok {a b : Nat} (small : a + b < 2 ^ 64) : add a b = .ok (a + b) :=
  if_pos small

theorem sub_eq_ok {a b : Nat} (ordered : b ≤ a) : sub a b = .ok (a - b) :=
  if_pos ordered

theorem mul_eq_ok {a b : Nat} (small : a * b < 2 ^ 64) : mul a b = .ok (a * b) :=
  if_pos small

theorem entry_eq_ok {α : Type} {items : Array α} {i : Nat} (inside : i < items.size) :
    entry items i = .ok items[i] :=
  dif_pos inside

theorem slice_eq_ok {bytes : Bytes} {start finish : Nat} (ordered : start ≤ finish)
    (inside : finish ≤ bytes.size) :
    slice bytes start finish = .ok (bytes.window start (finish - start)) := by
  rw [slice, if_pos ⟨ordered, inside⟩, Bytes.extract_eq_window inside]

theorem copyInto_eq_ok {bytes data : Bytes} {start finish : Nat} (length : start + data.size = finish)
    (inside : finish ≤ bytes.size) :
    copyInto bytes start finish data = .ok (bytes.overwrite start data) := by
  have ordered : start ≤ finish := by omega
  have target : (bytes.window start (finish - start)).size = data.size := by
    rw [Bytes.size_window]
    omega
  subst length
  unfold copyInto
  rw [slice_eq_ok ordered inside]
  show (if (bytes.window start (start + data.size - start)).size = data.size then _ else _) = _
  rw [if_pos target, Bytes.splice_eq_overwrite inside]

theorem toCount?_eq_some {word : Word} (small : word.toNat < 2 ^ 64) :
    word.toCount? = some word.toNat :=
  if_pos small

theorem toCount?_eq_none {word : Word} (large : 2 ^ 64 ≤ word.toNat) :
    word.toCount? = none :=
  if_neg (Nat.not_lt_of_le large)

theorem apply_toCount? {α : Type} {f : Nat → α} {length : Nat} (small : length ≤ 2 ^ 64)
    (constant : ∀ n, length ≤ n → f n = f length) (number : Word) :
    f (number.toCount?.getD length) = f number.toNat := by
  -- What is the same for all numbers past the end of a word does not tell a number that has no
  -- count from one that is just past the end.
  rcases Nat.lt_or_ge number.toNat (2 ^ 64) with counted | large
  · rw [toCount?_eq_some counted, Option.getD_some]
  · rw [toCount?_eq_none large, Option.getD_none, constant _ (Nat.le_trans small large)]

theorem byteAt_toCount? (word i : Word) :
    word.byteAt (i.toCount?.getD Word.byteLength) = word.byteAt i.toNat := by
  refine apply_toCount? (by decide) ?_ i
  intro n past
  rw [Word.byteAt, Word.byteAt, if_neg (Nat.not_lt_of_le past), if_neg (Nat.lt_irrefl _)]

private theorem byteAt_replicate (length i : Nat) :
    Bytes.byteAt (Array.replicate length 0) i = 0 := by
  unfold Bytes.byteAt
  rw [Array.getElem?_replicate]
  split <;> rfl

private theorem overwrite_replicate {source : Bytes} {start length count : Nat}
    (within : count ≤ length) (rest : count = length ∨ source.size ≤ start + count) :
    Bytes.overwrite (Array.replicate length 0) 0 (source.window start count) =
      source.window start length := by
  have fits : 0 + (source.window start count).size ≤ (Array.replicate length (0 : UInt8)).size := by
    rw [Bytes.size_window, Array.size_replicate]
    omega
  apply Bytes.ext_byteAt
  · rw [Bytes.size_overwrite, Array.size_replicate, Bytes.size_window]
  · intro i inside
    rw [Bytes.size_overwrite, Array.size_replicate] at inside
    rw [Bytes.byteAt_overwrite fits, Bytes.size_window, Bytes.byteAt_window inside]
    by_cases written : i < count
    · rw [if_pos (by omega), Nat.sub_zero, Bytes.byteAt_window written]
    · rw [if_neg (by omega), byteAt_replicate, Bytes.byteAt_of_size_le (by omega)]

private theorem overwrite_zeros {start length : Nat} {data : Bytes}
    (inside : start + data.size ≤ length) :
    Bytes.overwrite (Array.replicate length 0) start data =
      Array.replicate start 0 ++ (data ++ Array.replicate (length - (start + data.size)) 0) := by
  have fits : start + data.size ≤ (Array.replicate length (0 : UInt8)).size := by
    rwa [Array.size_replicate]
  rw [← Bytes.splice_eq_overwrite fits, Array.append_assoc, Array.extract_replicate,
    Array.extract_replicate, Array.size_replicate, Nat.min_self, Nat.min_eq_left (by omega),
    Nat.sub_zero]

theorem ofBytes_operand {code : Bytes} {pc width count : Nat} (narrow : width ≤ 32)
    (within : count ≤ width) (rest : count = width ∨ code.size ≤ pc + count) :
    Word.ofBytes (Bytes.overwrite (Array.replicate 32 0) (32 - width) (code.window pc count)) =
      Word.ofBytes (code.window pc width) := by
  have size : (code.window pc count).size = count := Bytes.size_window _ _ _
  have operand : code.window pc width =
      code.window pc count ++ Array.replicate (width - count) 0 := by
    rw [← overwrite_replicate within rest, overwrite_zeros (by omega), size, Nat.zero_add]
    exact Array.empty_append
  have blank : Bytes.overwrite (Array.replicate 32 0) (32 - width) (code.window pc count) =
      Array.replicate (32 - width) 0 ++ code.window pc width := by
    have left : 32 - (32 - width + count) = width - count := by omega
    rw [overwrite_zeros (by omega), size, left, ← operand]
  rw [blank, Word.ofBytes, Word.ofBytes, Array.toList_append, Array.toList_replicate,
    BigEndian.decode_zeros_append]

theorem copyInto_blank {bytes : Bytes} (size : bytes.size = 32) :
    copyInto (Array.replicate 32 0) 0 32 bytes = .ok bytes := by
  have inside : 0 + bytes.size ≤ 32 := by omega
  rw [copyInto_eq_ok (by rw [size]) (Nat.le_of_eq Array.size_replicate.symm),
    overwrite_zeros inside, size]
  exact congrArg Except.ok (Array.empty_append.trans Array.append_empty)

private theorem replicate_eq_window {source : Bytes} {start : Nat} (outside : source.size ≤ start)
    (length : Nat) : Array.replicate length 0 = source.window start length := by
  have empty : Bytes.overwrite (Array.replicate length 0) 0 (source.window start 0) =
      source.window start length := overwrite_replicate (Nat.zero_le length) (.inr outside)
  rwa [Bytes.window_zero] at empty

theorem fill_eq_ok {source : Bytes} (small : source.size < 2 ^ 64) (length : Nat) (offset : Word) :
    fill length source offset = .ok (source.window offset.toNat length) := by
  unfold fill
  by_cases inside : offset.toNat < source.size
  · have rest : sub source.size offset.toNat = .ok (source.size - offset.toNat) :=
      sub_eq_ok (Nat.le_of_lt inside)
    generalize counted : min length (source.size - offset.toNat) = count
    have finish : add offset.toNat count = .ok (offset.toNat + count) := add_eq_ok (by omega)
    have part : slice source offset.toNat (offset.toNat + count) =
        .ok (source.window offset.toNat count) := by
      rw [slice_eq_ok (by omega) (by omega), Nat.add_sub_cancel_left]
    have filled : copyInto (Array.replicate length 0) 0 count (source.window offset.toNat count) =
        .ok (source.window offset.toNat length) := by
      rw [copyInto_eq_ok (by rw [Bytes.size_window, Nat.zero_add])
        (by rw [Array.size_replicate]; omega), overwrite_replicate (by omega) (by omega)]
    simp only [toCount?_eq_some (Nat.lt_trans inside small), if_pos inside, rest, bind,
      Except.bind, counted, finish, part, filled]
  · have blank : Array.replicate length 0 = source.window offset.toNat length :=
      replicate_eq_window (Nat.le_of_not_lt inside) length
    rcases Nat.lt_or_ge offset.toNat (2 ^ 64) with counted | large
    · simp only [toCount?_eq_some counted, if_neg inside, blank]
    · simp only [toCount?_eq_none large, blank]

theorem byteOf_eq_ok (word : Word) (i : Nat) : byteOf word i = .ok (word.byteAt i) := by
  unfold byteOf Word.byteAt Word.byteLength
  by_cases inside : i < 32
  · rw [if_neg (Nat.not_le_of_lt inside), if_pos inside, sub_eq_ok (by decide)]
    show (sub 31 i >>= _) = _
    rw [sub_eq_ok (by omega)]
    rfl
  · rw [if_pos (Nat.le_of_not_lt inside), if_neg inside]

theorem byteOf_eq_ok_of_count (word i : Word) :
    byteOf word (i.toCount?.getD 32) = .ok (word.byteAt i.toNat) := by
  rw [byteOf_eq_ok]
  exact congrArg Except.ok (byteAt_toCount? word i)

theorem familyNumber_eq_ok {op : Opcode} {first : Nat} {i : Fin 16}
    (byte : op.toByte.toNat = first + i) : familyNumber op first = .ok (i + 1) := by
  unfold familyNumber
  rw [byte, sub_eq_ok (Nat.le_add_right _ _), Nat.add_sub_cancel_left]
  exact add_eq_ok (by omega)

end Strict

end StackAssembler.Machine

import StackAssembler.Proofs.CompileOutcome
import StackAssembler.Proofs.Machine.Arithmetic
import StackAssembler.Proofs.Machine.MemoryAccess
import StackAssembler.Proofs.StraightLine
import StackAssembler.Execution

set_option autoImplicit false
set_option relaxedAutoImplicit false

namespace StackAssembler

open Assembly Machine

/-- The input of a selector with the bytes that it is about. -/
def selecting (selector : UInt8) (payload : Bytes) : Bytes :=
  #[selector] ++ payload

section Input

variable (selector : UInt8) (payload : Bytes)

private theorem toList_selecting :
    (selecting selector payload).toList = selector :: payload.toList := by
  simp [selecting]

private theorem window_selecting : (selecting selector payload).window 1 payload.size = payload := by
  have parts : (selecting selector payload).toList = [selector] ++ payload.toList ++ [] := by
    rw [toList_selecting, List.append_nil, List.singleton_append]
  have window := Bytes.window_of_toList parts
  rwa [List.length_singleton, Array.length_toList, Array.toArray_toList] at window

private theorem toNat_selector :
    ((Word.ofBytes ((selecting selector payload).window 0 32)).shr 248).toNat =
      selector.toNat := by
  have first : (selecting selector payload).byteAt 0 = selector := by
    rw [Bytes.byteAt, ← Array.getElem?_toList, toList_selecting]
    rfl
  obtain ⟨rest, listed⟩ : ∃ rest, ((selecting selector payload).window 0 32).toList =
      selector :: rest := by
    rw [Bytes.window, Array.toList_ofFn, List.ofFn_succ]
    exact ⟨_, congrArg (List.cons · _) first⟩
  have length : rest.length = 31 := by
    have whole := congrArg List.length listed
    rw [Array.length_toList, Bytes.size_window, List.length_cons] at whole
    omega
  have low : BigEndian.decode rest < 2 ^ 248 := by
    have bound := BigEndian.decode_lt rest
    rw [length] at bound
    exact bound
  have short : ((selecting selector payload).window 0 32).size ≤ 32 :=
    Nat.le_of_eq (Bytes.size_window _ _ _)
  rw [Word.toNat_shr, Word.toNat_ofBytes short, listed, BigEndian.decode_cons, length]
  omega

private theorem size_selecting :
    BitVec.ofNat 256 (selecting selector payload).size - 1 = BitVec.ofNat 256 payload.size := by
  rw [← Array.length_toList, toList_selecting, List.length_cons, Array.length_toList,
    BitVec.ofNat_add]
  exact BitVec.add_sub_cancel _ _

end Input

theorem placed_of_compile {options : Options} {program : Program} {listing : Listing} {code : Bytes}
    (flat : program.flatten options.stackLimit = .ok listing)
    (compiled : compile options program = .ok code) :
    ∃ width, Placed width listing.items.toList code := by
  obtain ⟨events, final, width, emits, _, placed⟩ := compile_eq_ok compiled
  have same : program.flatten options.stackLimit = .ok ⟨final, (emitted events).toArray⟩ :=
    Program.flatten_eq_ok.mpr ⟨events, emits, rfl⟩
  rw [flat] at same
  cases same
  exact ⟨width, placed⟩

theorem exists_placed {options : Options} {program : Program} {listing : Listing}
    (flat : program.flatten options.stackLimit = .ok listing)
    (legal : LegalWidth options.labelWidth)
    (distinct : (listing.items.toList.filterMap Item.declares?).Nodup)
    (reached : ∀ width, 1 ≤ width → ∀ name, .pushLabel name ∈ listing.items.toList →
      Reached width listing.items.toList name) :
    ∃ code, compile options program = .ok code ∧
      ∃ width, Placed width listing.items.toList code := by
  have chosen := legal.chosen distinct
  have inside := labelWidth_legal chosen
  obtain ⟨code, compiled⟩ := compile_succeeds.mpr ⟨_, ⟨listing, flat, rfl⟩, _, chosen, distinct,
    (assembleItems_succeeds inside distinct).mpr (reached _ inside.1)⟩
  exact ⟨code, compiled, placed_of_compile flat compiled⟩

namespace HashOrEcho

def single (byte : UInt8) : Immediate :=
  ⟨[byte], Nat.one_pos, Nat.le_of_ble_eq_true rfl⟩

private def measuring : List Item :=
  [.push (single 1), .op .calldatasize, .op .sub, .op (.dup ⟨0, by decide⟩), .push (single 1),
    .op .push0]

private def choosing : List Item :=
  [.op .push0, .op .calldataload, .push (single 248), .op .shr, .pushLabel "hash"]

private def returning : List Item :=
  [.label "return", .op .push0]

private def hashing : List Item :=
  [.label "hash", .op .push0]

private def storing : List Item :=
  [.op .push0, .op .mstore, .push (single 32), .pushLabel "return"]

/-- Everything before the label to which both branches come. -/
private def upToReturn : List Item :=
  measuring ++ [.op .calldatacopy] ++ choosing ++ [.op .jumpi]

private def upToHash : List Item :=
  upToReturn ++ returning ++ [.op .ret]

private def upToJump : List Item :=
  upToHash ++ hashing ++ [.op .keccak256] ++ storing

private def items : List Item :=
  upToJump ++ [.op .jump]

private theorem flatten_eq (given : Option Nat) :
    Sample.hashOrEcho.flatten ({ labelWidth := given } : Options).stackLimit =
      .ok ⟨⟨1, stackLimit⟩, items.toArray⟩ := by
  have flat : Sample.hashOrEcho.flatten stackLimit = .ok ⟨⟨1, stackLimit⟩, items.toArray⟩ := by
    decide +kernel
  exact flat

private theorem reached_of_positive {width : Nat} {name : String} (positive : 1 ≤ width)
    (pushed : .pushLabel name ∈ items) : Reached width items name := by
  obtain ⟨more, rfl⟩ : ∃ more, width = more + 1 := ⟨width - 1, by omega⟩
  have wide : more < 256 ^ more := Nat.lt_pow_self (by decide)
  have names : name = "hash" ∨ name = "return" := by
    simpa [items, upToJump, upToHash, upToReturn, measuring, choosing, returning, hashing,
      storing] using pushed
  -- Only one push of a label stands before the labels, so they are all but as near as they can be.
  have position : extent (more + 1) upToReturn = 17 + more := by
    simp [upToReturn, measuring, choosing, Item.size, Opcode.encodedLength, Opcode.immediateLength,
      Immediate.encodedLength, Immediate.width, single]
    omega
  have shift : extent (more + 1) upToHash = extent (more + 1) upToReturn + 3 := by
    rw [upToHash, List.append_assoc, extent_append]
    rfl
  rw [Reached, Nat.pow_succ]
  rcases names with rfl | rfl
  · exact ⟨upToHash, items.drop 17, rfl, by omega⟩
  · exact ⟨upToReturn, items.drop 14, rfl, by omega⟩

private theorem exists_compiled {given : Option Nat} (legal : LegalWidth given) :
    ∃ code, compile { labelWidth := given } Sample.hashOrEcho = .ok code ∧
      ∃ width, Placed width items code := by
  have distinct : (items.filterMap Item.declares?).Nodup := by decide
  exact exists_placed (flatten_eq given) legal distinct fun _ positive _ pushed =>
    reached_of_positive positive pushed

variable {width : Nat} {code calldata memory : Bytes} {size : Word} {region : Region}

/-- The word that the program takes for the length of the payload. -/
private def length (calldata : Bytes) : Word :=
  BitVec.ofNat 256 calldata.size - 1

private theorem reaches_copy (placed : Placed width items code) (calldata : Bytes) :
    Reaches (.of code calldata) {}
      ⟨extent width measuring, [0, 1, length calldata] ++ [length calldata], #[]⟩ := by
  have performed : performAll (.of code calldata) (labelPosition width items) width
      (extent width []) [] #[] measuring =
        some ([0, 1, length calldata] ++ [length calldata], #[]) := rfl
  exact placed.reaches_performed rfl performed (by decide)

private theorem concludes_beyond (placed : Placed width items code)
    (beyond : memoryLimit < (length calldata).toNat) :
    Concludes code calldata (.error (.memoryLimit 0 (length calldata) 8)) := by
  have parts : items = measuring ++ .op .calldatacopy :: items.drop 7 := rfl
  have unnamed := Region.ofWords?_zero_eq_none beyond
  exact (reaches_copy placed calldata).concludes
    (placed.step_finish parts rfl rfl (by simp [stackLimit]) (effect_copy_beyond unnamed))

private theorem reaches_branch (placed : Placed width items code)
    (named : Region.ofWords? 0 (length calldata) = some region) :
    Reaches (.of code calldata) {}
      ⟨extent width (measuring ++ [.op .calldatacopy] ++ choosing),
        [BitVec.ofNat 256 (labelPosition width items "hash"),
          (Word.ofBytes (calldata.window 0 32)).shr 248] ++ [length calldata],
        region.write (Bytes.growTo #[] region.coveringSize) (calldata.window 1 region.length)⟩ := by
  have parts : items = measuring ++ .op .calldatacopy :: items.drop 7 := rfl
  have copied := (reaches_copy placed calldata).tail (placed.step_proceed parts rfl rfl
    (by simp [stackLimit]) (effect_copy named) (by simp [stackLimit]))
  have behind : items = (measuring ++ [.op .calldatacopy]) ++ (choosing ++ items.drop 12) := rfl
  exact copied.trans (placed.reaches_performed behind rfl (by simp [choosing, stackLimit]))

private theorem concludes_return (placed : Placed width items code)
    (reaches : Reaches (.of code calldata) {} ⟨extent width upToReturn, [size], memory⟩)
    (named : Region.ofWords? 0 size = some region) :
    Concludes code calldata (.ok (region.read (memory.growTo region.coveringSize))) := by
  have parts : items = upToReturn ++ (returning ++ items.drop 15) := rfl
  have performed : performAll (.of code calldata) (labelPosition width items) width
      (extent width upToReturn) [size] memory returning = some ([0, size] ++ [], memory) := rfl
  have returned := placed.reaches_performed parts performed (by simp [returning, stackLimit])
  have last : items = (upToReturn ++ returning) ++ .op .ret :: items.drop 16 := rfl
  exact Reaches.concludes (reaches.trans returned)
    (placed.step_finish last rfl rfl (by simp [stackLimit]) (effect_return named))

def firstWord : Region :=
  ⟨0, 32⟩

private theorem performAll_storing (env : Env) (position : String → Nat) (pc : Nat) (word : Word)
    (memory : Bytes) :
    performAll env position width pc [word] memory storing =
      some ([BitVec.ofNat 256 (position "return")] ++ [32],
        firstWord.write (memory.growTo firstWord.coveringSize) word.toBytes) :=
  rfl

private theorem reaches_return (placed : Placed width items code)
    (reaches : Reaches (.of code calldata) {} ⟨extent width upToHash, [size], memory⟩)
    (named : Region.ofWords? 0 size = some region) :
    ∃ before, Reaches (.of code calldata) {} ⟨extent width upToReturn, [32],
      firstWord.write (Bytes.growTo before firstWord.coveringSize)
        (Keccak.digest (region.read (memory.growTo region.coveringSize))).toBytes⟩ := by
  have parts : items = upToHash ++ (hashing ++ items.drop 18) := rfl
  have performed : performAll (.of code calldata) (labelPosition width items) width
      (extent width upToHash) [size] memory hashing = some ([0, size] ++ [], memory) := rfl
  have hashed := placed.reaches_performed parts performed (by simp [hashing, stackLimit])
  have next : items = (upToHash ++ hashing) ++ .op .keccak256 :: items.drop 19 := rfl
  have digested := (reaches.trans hashed).tail (placed.step_proceed next rfl rfl
    (by simp [stackLimit]) (effect_digest named) (by simp [stackLimit]))
  have behind : items = (upToHash ++ hashing ++ [.op .keccak256]) ++ (storing ++ [.op .jump]) := rfl
  have stored := digested.trans
    (placed.reaches_performed behind (performAll_storing ..) (by simp [storing, stackLimit]))
  have last : items = upToJump ++ .op .jump :: [] := rfl
  have declared : items = upToReturn ++ .label "return" :: items.drop 14 := rfl
  refine ⟨memory.growTo region.coveringSize, stored.tail ?_⟩
  exact placed.step_jump last (by decide) declared (by simp [stackLimit])

private theorem concludes_named (placed : Placed width items code)
    (named : Region.ofWords? 0 (length calldata) = some region) :
    Concludes code calldata
      (.ok (if (Word.ofBytes (calldata.window 0 32)).shr 248 = 0 then
          calldata.window 1 region.length
        else (Keccak.digest (calldata.window 1 region.length)).toBytes)) := by
  -- Whichever way the run goes on, the payload is what it reads from the memory first.
  have copied := region.read_write #[] (Bytes.size_window calldata 1 region.length)
  have branch : items = (measuring ++ [.op .calldatacopy] ++ choosing) ++
      .op .jumpi :: items.drop 13 := rfl
  have declared : items = upToHash ++ .label "hash" :: items.drop 17 := rfl
  have jumped := (reaches_branch placed named).tail
    (placed.step_jumpi branch (by decide) declared (by simp [stackLimit]))
  split
  · rename_i zero
    rw [if_pos zero] at jumped
    have concluded := concludes_return placed jumped named
    rwa [copied] at concluded
  · rename_i nonzero
    rw [if_neg nonzero] at jumped
    obtain ⟨before, back⟩ := reaches_return placed jumped named
    have word : Region.ofWords? 0 32 = some firstWord := by decide
    have concluded := concludes_return placed back word
    rwa [copied, firstWord.read_write before (Word.size_toBytes _)] at concluded

private theorem concludes_selecting (placed : Placed width items code) (selector : UInt8)
    {payload : Bytes} (fits : payload.size ≤ memoryLimit) :
    Concludes code (selecting selector payload)
      (.ok (if selector = 0 then payload else (Keccak.digest payload).toBytes)) := by
  have small : (BitVec.ofNat 256 payload.size).toNat = payload.size := by
    have limit : memoryLimit < 2 ^ 256 := by decide
    rw [BitVec.toNat_ofNat, Nat.mod_eq_of_lt (by omega)]
  have named : Region.ofWords? 0 (length (selecting selector payload)) =
      some ⟨0, payload.size⟩ := by
    rw [length, size_selecting, Region.ofWords?_zero (by omega), small]
  have chosen : (Word.ofBytes ((selecting selector payload).window 0 32)).shr 248 = 0 ↔
      selector = 0 := by
    rw [← BitVec.toNat_inj, toNat_selector, ← UInt8.toNat_inj]
    rfl
  have concluded := concludes_named placed named
  simpa only [chosen, window_selecting] using concluded

theorem exists_concludes {given : Option Nat} {code : Bytes}
    (compiled : compile { labelWidth := given } Sample.hashOrEcho = .ok code) (calldata : Bytes) :
    ∃ verdict, Concludes code calldata verdict := by
  obtain ⟨width, placed⟩ := placed_of_compile (flatten_eq given) compiled
  by_cases fits : (length calldata).toNat ≤ memoryLimit
  · exact ⟨_, concludes_named placed (Region.ofWords?_zero fits)⟩
  · exact ⟨_, concludes_beyond placed (Nat.lt_of_not_le fits)⟩

end HashOrEcho

/-- What code does that hashes or echoes the bytes behind a selector. -/
structure HashesOrEchoes (code : Bytes) : Prop where
  echoes : ∀ payload : Bytes, payload.size ≤ memoryLimit →
    Concludes code (selecting 0 payload) (.ok payload)
  hashes : ∀ (selector : UInt8) (payload : Bytes), selector ≠ 0 → payload.size ≤ memoryLimit →
    Concludes code (selecting selector payload) (.ok (Keccak.digest payload).spelling)
  /-- The memory cannot hold the payload, whose length is given as a word. -/
  beyond : ∀ (selector : UInt8) (payload : Bytes), memoryLimit < payload.size →
    payload.size < 2 ^ 256 → Concludes code (selecting selector payload)
      (.error (.memoryLimit 0 (BitVec.ofNat 256 payload.size) 8))
  /-- One less than no bytes is the largest word. -/
  empty : Concludes code #[] (.error (.memoryLimit 0 (BitVec.allOnes 256) 8))

/-- In whatever width its labels are pushed, the program hashes or echoes. -/
theorem compile_hashOrEcho_correct {given : Option Nat} (legal : LegalWidth given) :
    ∃ code, compile { labelWidth := given } Sample.hashOrEcho = .ok code ∧ HashesOrEchoes code := by
  obtain ⟨code, compiled, width, placed⟩ := HashOrEcho.exists_compiled legal
  refine ⟨code, compiled, ?_, ?_, ?_, ?_⟩
  · intro payload fits
    exact HashOrEcho.concludes_selecting placed 0 fits
  · intro selector payload nonzero fits
    have concluded := HashOrEcho.concludes_selecting placed selector fits
    rwa [if_neg nonzero, Word.toBytes_eq_spelling] at concluded
  · intro selector payload beyond inside
    have length : HashOrEcho.length (selecting selector payload) =
        BitVec.ofNat 256 payload.size := size_selecting selector payload
    have size : (BitVec.ofNat 256 payload.size).toNat = payload.size := by
      rw [BitVec.toNat_ofNat, Nat.mod_eq_of_lt inside]
    rw [← length]
    apply HashOrEcho.concludes_beyond placed
    rw [length, size]
    exact beyond
  · have length : HashOrEcho.length #[] = BitVec.allOnes 256 := by decide
    rw [← length]
    apply HashOrEcho.concludes_beyond placed
    rw [length]
    decide

/-- The digest of the bytes 1, 2 and 3. -/
def digestOfThree : Bytes :=
  #[0xf1, 0x88, 0x5e, 0xda, 0x54, 0xb7, 0xa0, 0x53, 0x31, 0x8c, 0xd4,
    0x1e, 0x20, 0x93, 0x22, 0x0d, 0xab, 0x15, 0xd6, 0x53, 0x81, 0xb1,
    0x15, 0x7a, 0x36, 0x33, 0xa8, 0x3b, 0xfd, 0x5c, 0x92, 0x39]

private theorem spelling_digestOfThree : (Keccak.digest #[1, 2, 3]).spelling = digestOfThree := by
  decide +kernel

theorem compile_hashOrEcho_correct_widest :
    LegalWidth (some 32) ∧ ∃ code,
      compile { labelWidth := some 32 } Sample.hashOrEcho = .ok code ∧ HashesOrEchoes code ∧
        Concludes code (selecting 7 #[1, 2, 3]) (.ok digestOfThree) ∧
        Concludes code (selecting 7 (Array.replicate (memoryLimit + 1) 0))
          (.error (.memoryLimit 0 (BitVec.ofNat 256 (memoryLimit + 1)) 8)) := by
  have legal : LegalWidth (some 32) := by
    intro width same
    cases same
    decide
  obtain ⟨code, compiled, correct⟩ := compile_hashOrEcho_correct legal
  have hashed := correct.hashes 7 #[1, 2, 3] (by decide) (by decide)
  rw [spelling_digestOfThree] at hashed
  have size : (Array.replicate (memoryLimit + 1) (0 : UInt8)).size = memoryLimit + 1 :=
    Array.size_replicate
  have refused := correct.beyond 7 (Array.replicate (memoryLimit + 1) 0)
    (by rw [size]; exact Nat.lt_succ_self _) (by rw [size]; decide)
  rw [size] at refused
  exact ⟨legal, code, compiled, correct, hashed, refused⟩

/-- The program, once it is given enough steps, has the result. -/
def Yields (program : Program) (calldata : Bytes) (result : Except RunError Bytes) : Prop :=
  ∃ enough, ∀ steps, enough ≤ steps → runProgram steps program calldata = some result

private theorem yields_of_concludes {program : Program} {code calldata : Bytes} {verdict : Verdict}
    (compiled : compile {} program = .ok code) (concludes : Concludes code calldata verdict) :
    Yields program calldata (verdict.mapError .execute) := by
  obtain ⟨enough, executed⟩ := concludes
  refine ⟨enough, fun steps within => ?_⟩
  rw [runProgram, compiled]
  simp only [executed steps within, Option.map_some]

namespace WholeInput

open HashOrEcho (single firstWord)

private def measuring : List Item :=
  [.op .calldatasize, .op .push0, .op .push0]

private def bounding : List Item :=
  [.op .calldatasize, .op .push0]

private def upToCopied : List Item :=
  measuring ++ [.op .calldatacopy] ++ bounding

private def storing : List Item :=
  [.op .push0, .op .mstore, .push (single 32), .op .push0]

private def echoItems : List Item :=
  upToCopied ++ [.op .ret]

private def keccakItems : List Item :=
  upToCopied ++ [.op .keccak256] ++ storing ++ [.op .ret]

private theorem flatten_echo : Program.flatten stackLimit Sample.echo =
    .ok ⟨⟨0, stackLimit⟩, echoItems.toArray⟩ := by
  decide +kernel

private theorem flatten_keccak : Program.flatten stackLimit Sample.keccak =
    .ok ⟨⟨0, stackLimit⟩, keccakItems.toArray⟩ := by
  decide +kernel

variable {width : Nat} {items rest : List Item} {code calldata : Bytes}

private abbrev length (calldata : Bytes) : Word :=
  BitVec.ofNat 256 calldata.size

private theorem reaches_copy (placed : Placed width items code)
    (parts : items = measuring ++ rest) (calldata : Bytes) :
    Reaches (.of code calldata) {}
      ⟨extent width measuring, [0, 0, length calldata] ++ [], #[]⟩ := by
  have performed : performAll (.of code calldata) (labelPosition width items) width
      (extent width []) [] #[] measuring = some ([0, 0, length calldata] ++ [], #[]) := rfl
  exact placed.reaches_performed parts performed (by decide)

private theorem concludes_beyond (placed : Placed width items code)
    (parts : items = measuring ++ .op .calldatacopy :: rest)
    (beyond : memoryLimit < (length calldata).toNat) :
    Concludes code calldata (.error (.memoryLimit 0 (length calldata) 3)) := by
  have unnamed := Region.ofWords?_zero_eq_none beyond
  exact (reaches_copy placed parts calldata).concludes
    (placed.step_finish parts rfl rfl (by simp [stackLimit]) (effect_copy_beyond unnamed))

private def copied (calldata : Bytes) : Bytes :=
  (Region.mk 0 calldata.size).write
    (Bytes.growTo #[] (Region.mk 0 calldata.size).coveringSize) calldata

private theorem read_copied (calldata : Bytes) :
    (Region.mk 0 calldata.size).read
      ((copied calldata).growTo (Region.mk 0 calldata.size).coveringSize) = calldata :=
  Region.read_write ⟨0, calldata.size⟩ #[] rfl

private theorem window_whole (calldata : Bytes) : calldata.window 0 calldata.size = calldata := by
  have parts : calldata.toList = [] ++ calldata.toList ++ [] := by simp
  have window := Bytes.window_of_toList parts
  rwa [List.length_nil, Array.length_toList, Array.toArray_toList] at window

private theorem reaches_copied (placed : Placed width items code)
    (parts : items = upToCopied ++ rest)
    (named : Region.ofWords? 0 (length calldata) = some ⟨0, calldata.size⟩) :
    Reaches (.of code calldata) {}
      ⟨extent width upToCopied, [0, length calldata] ++ [], copied calldata⟩ := by
  have first : items = measuring ++ .op .calldatacopy :: (bounding ++ rest) := parts
  have stored := (reaches_copy placed first calldata).tail (placed.step_proceed first rfl rfl
    (by simp [stackLimit]) (effect_copy named) (by simp [stackLimit]))
  have source : calldata.window (0 : Word).toNat calldata.size = calldata := window_whole calldata
  rw [Env.calldata_of, source] at stored
  have second : items = (measuring ++ [.op .calldatacopy]) ++ (bounding ++ rest) := parts
  exact stored.trans (placed.reaches_performed second rfl (by simp [bounding, stackLimit]))

private theorem concludes_echo (placed : Placed width echoItems code)
    (named : Region.ofWords? 0 (length calldata) = some ⟨0, calldata.size⟩) :
    Concludes code calldata (.ok calldata) := by
  have reached := reaches_copied placed rfl named
  have concluded := Reaches.concludes reached
    (placed.step_finish rfl rfl rfl (by simp [stackLimit]) (effect_return named))
  rwa [Exit.verdict, read_copied] at concluded

private theorem concludes_keccak (placed : Placed width keccakItems code)
    (named : Region.ofWords? 0 (length calldata) = some ⟨0, calldata.size⟩) :
    Concludes code calldata (.ok (Keccak.digest calldata).toBytes) := by
  have next : keccakItems = upToCopied ++ .op .keccak256 :: (storing ++ [.op .ret]) := rfl
  have digested := (reaches_copied placed next named).tail (placed.step_proceed next rfl rfl
    (by simp [stackLimit]) (effect_digest named) (by simp [stackLimit]))
  rw [read_copied] at digested
  have behind : keccakItems = (upToCopied ++ [.op .keccak256]) ++ (storing ++ [.op .ret]) := rfl
  have performed : performAll (.of code calldata) (labelPosition width keccakItems) width
      (extent width (upToCopied ++ [.op .keccak256])) [Keccak.digest calldata]
      ((copied calldata).growTo (Region.mk 0 calldata.size).coveringSize) storing =
        some ([0, 32] ++ [], firstWord.write
          (((copied calldata).growTo (Region.mk 0 calldata.size).coveringSize).growTo
            firstWord.coveringSize) (Keccak.digest calldata).toBytes) := rfl
  have stored := digested.trans
    (placed.reaches_performed behind performed (by simp [storing, stackLimit]))
  have word : Region.ofWords? 0 32 = some firstWord := by decide
  -- The digest lies over the input, so what is returned is what was written last.
  have concluded := Reaches.concludes stored
    (placed.step_finish rfl rfl rfl (by simp [stackLimit]) (effect_return word))
  rwa [Exit.verdict, firstWord.read_write _ (Word.size_toBytes _)] at concluded

end WholeInput

/-- What a program does that takes its whole input into the memory first: it returns `output` of the
input, or refuses an input that the memory cannot hold, whose length is given as a word. -/
structure Processes (program : Program) (output : Bytes → Bytes) : Prop where
  returns : ∀ calldata : Bytes, calldata.size ≤ memoryLimit →
    Yields program calldata (.ok (output calldata))
  refuses : ∀ calldata : Bytes, memoryLimit < calldata.size → calldata.size < 2 ^ 256 →
    Yields program calldata
      (.error (.execute (.memoryLimit 0 (BitVec.ofNat 256 calldata.size) 3)))

namespace WholeInput

private theorem toNat_length {calldata : Bytes} (short : calldata.size < 2 ^ 256) :
    (length calldata).toNat = calldata.size := by
  rw [BitVec.toNat_ofNat, Nat.mod_eq_of_lt short]

private theorem region_named {calldata : Bytes} (fits : calldata.size ≤ memoryLimit) :
    Region.ofWords? 0 (length calldata) = some ⟨0, calldata.size⟩ := by
  have limit : memoryLimit < 2 ^ 256 := by decide
  have size : (length calldata).toNat = calldata.size := toNat_length (by omega)
  rw [Region.ofWords?_zero (by omega), size]

private theorem processes_of_concludes {program : Program} {depth : StackDepth}
    {items rest : List Item} {output : Bytes → Bytes}
    (flat : program.flatten stackLimit = .ok ⟨depth, items.toArray⟩)
    (unlabelled : items.filterMap Item.declares? = [])
    (unreferenced : ∀ name, .pushLabel name ∉ items)
    (parts : items = measuring ++ .op .calldatacopy :: rest)
    (concludes : ∀ {width : Nat} {code calldata : Bytes}, Placed width items code →
      Region.ofWords? 0 (length calldata) = some ⟨0, calldata.size⟩ →
        Concludes code calldata (.ok (output calldata))) :
    Processes program output := by
  have listed : program.flatten ({} : Options).stackLimit = .ok ⟨depth, items.toArray⟩ := flat
  have legal : LegalWidth ({} : Options).labelWidth := by
    intro width given
    cases given
  have distinct : (items.filterMap Item.declares?).Nodup := by
    rw [unlabelled]
    exact List.nodup_nil
  obtain ⟨code, compiled, width, placed⟩ := exists_placed listed legal distinct
    fun _ _ name pushed => absurd pushed (unreferenced name)
  constructor
  · intro calldata fits
    exact yields_of_concludes compiled (concludes placed (region_named fits))
  · intro calldata beyond short
    have long : memoryLimit < (length calldata).toNat := by
      rw [toNat_length short]
      exact beyond
    exact yields_of_concludes compiled (concludes_beyond placed parts long)

end WholeInput

/-- The echo gives back every input that fits into the memory, and the hashing program its digest. -/
theorem echo_and_keccak_process_input :
    Processes Sample.echo id ∧ Processes Sample.keccak fun calldata =>
      (Keccak.digest calldata).spelling := by
  have plain : ∀ name, Item.pushLabel name ∉ WholeInput.upToCopied := by
    simp [WholeInput.upToCopied, WholeInput.measuring, WholeInput.bounding]
  constructor
  · exact WholeInput.processes_of_concludes WholeInput.flatten_echo rfl
      (by simp [WholeInput.echoItems, plain]) rfl WholeInput.concludes_echo
  · have unreferenced : ∀ name, .pushLabel name ∉ WholeInput.keccakItems := by
      simp [WholeInput.keccakItems, WholeInput.storing, plain]
    apply WholeInput.processes_of_concludes WholeInput.flatten_keccak rfl unreferenced rfl
    intro width code calldata placed named
    have concluded := WholeInput.concludes_keccak placed named
    rwa [Word.toBytes_eq_spelling] at concluded

theorem echo_and_keccak_process_input_boundary :
    Yields Sample.echo (Array.replicate memoryLimit 7) (.ok (Array.replicate memoryLimit 7)) ∧
      Yields Sample.keccak #[1, 2, 3] (.ok digestOfThree) ∧
      Yields Sample.keccak (Array.replicate (memoryLimit + 1) 7)
        (.error (.execute (.memoryLimit 0 (BitVec.ofNat 256 (memoryLimit + 1)) 3))) := by
  obtain ⟨echo, keccak⟩ := echo_and_keccak_process_input
  have size (n : Nat) : (Array.replicate n (7 : UInt8)).size = n := Array.size_replicate
  have refused := keccak.refuses (Array.replicate (memoryLimit + 1) 7)
    (by rw [size]; exact Nat.lt_succ_self _) (by rw [size]; decide)
  rw [size] at refused
  have hashed := keccak.returns #[1, 2, 3] (by decide)
  rw [spelling_digestOfThree] at hashed
  exact ⟨echo.returns _ (Nat.le_of_eq (size _)), hashed, refused⟩

end StackAssembler

import StackAssembler.Hex

/-!
The instruction set: for every opcode its byte, its name, how many words it takes from the stack and
how many it leaves there. The families of pushes with an immediate, duplications, exchanges and logs
are indexed from zero, so `push i` carries `i + 1` immediate bytes.
-/

set_option autoImplicit false
set_option relaxedAutoImplicit false

namespace StackAssembler

inductive Opcode
  | stop | add | mul | sub | div | sdiv | mod | smod | addmod | mulmod | exp | signextend | lt
  | gt | slt | sgt | eq | iszero | and | or | xor | not | byte | shl | shr | sar | keccak256
  | address | balance | origin | caller | callvalue | calldataload | calldatasize | calldatacopy
  | codesize | codecopy | gasprice | extcodesize | extcodecopy | returndatasize | returndatacopy
  | extcodehash | blockhash | coinbase | timestamp | number | prevrandao | gaslimit | chainid
  | selfbalance | basefee | blobhash | blobbasefee | pop | mload | mstore | mstore8 | sload
  | sstore | jump | jumpi | pc | msize | gas | jumpdest | tload | tstore | mcopy | push0 | create
  | call | callcode | ret | delegatecall | create2 | staticcall | revert | invalid | selfdestruct
  | push (i : Fin 32)
  | dup (i : Fin 16)
  | swap (i : Fin 16)
  | log (i : Fin 5)

namespace Opcode

def maxPushWidth : Nat := 32

/-- How many words from the top duplications reach. -/
def stackWindow : Nat := 16

structure Row where
  byte : UInt8
  title : String
  pops : Nat
  pushes : Nat

def row : Opcode → Row
  | .stop => ⟨0x00, "Stop", 0, 0⟩
  | .add => ⟨0x01, "Add", 2, 1⟩
  | .mul => ⟨0x02, "Mul", 2, 1⟩
  | .sub => ⟨0x03, "Sub", 2, 1⟩
  | .div => ⟨0x04, "Div", 2, 1⟩
  | .sdiv => ⟨0x05, "SDiv", 2, 1⟩
  | .mod => ⟨0x06, "Mod", 2, 1⟩
  | .smod => ⟨0x07, "SMod", 2, 1⟩
  | .addmod => ⟨0x08, "AddMod", 3, 1⟩
  | .mulmod => ⟨0x09, "MulMod", 3, 1⟩
  | .exp => ⟨0x0a, "Exp", 2, 1⟩
  | .signextend => ⟨0x0b, "SignExtend", 2, 1⟩
  | .lt => ⟨0x10, "Lt", 2, 1⟩
  | .gt => ⟨0x11, "Gt", 2, 1⟩
  | .slt => ⟨0x12, "SLt", 2, 1⟩
  | .sgt => ⟨0x13, "SGt", 2, 1⟩
  | .eq => ⟨0x14, "Eq", 2, 1⟩
  | .iszero => ⟨0x15, "IsZero", 1, 1⟩
  | .and => ⟨0x16, "And", 2, 1⟩
  | .or => ⟨0x17, "Or", 2, 1⟩
  | .xor => ⟨0x18, "Xor", 2, 1⟩
  | .not => ⟨0x19, "Not", 1, 1⟩
  | .byte => ⟨0x1a, "Byte", 2, 1⟩
  | .shl => ⟨0x1b, "Shl", 2, 1⟩
  | .shr => ⟨0x1c, "Shr", 2, 1⟩
  | .sar => ⟨0x1d, "Sar", 2, 1⟩
  | .keccak256 => ⟨0x20, "Keccak256", 2, 1⟩
  | .address => ⟨0x30, "Address", 0, 1⟩
  | .balance => ⟨0x31, "Balance", 1, 1⟩
  | .origin => ⟨0x32, "Origin", 0, 1⟩
  | .caller => ⟨0x33, "Caller", 0, 1⟩
  | .callvalue => ⟨0x34, "CallValue", 0, 1⟩
  | .calldataload => ⟨0x35, "CallDataLoad", 1, 1⟩
  | .calldatasize => ⟨0x36, "CallDataSize", 0, 1⟩
  | .calldatacopy => ⟨0x37, "CallDataCopy", 3, 0⟩
  | .codesize => ⟨0x38, "CodeSize", 0, 1⟩
  | .codecopy => ⟨0x39, "CodeCopy", 3, 0⟩
  | .gasprice => ⟨0x3a, "GasPrice", 0, 1⟩
  | .extcodesize => ⟨0x3b, "ExtCodeSize", 1, 1⟩
  | .extcodecopy => ⟨0x3c, "ExtCodeCopy", 4, 0⟩
  | .returndatasize => ⟨0x3d, "ReturnDataSize", 0, 1⟩
  | .returndatacopy => ⟨0x3e, "ReturnDataCopy", 3, 0⟩
  | .extcodehash => ⟨0x3f, "ExtCodeHash", 1, 1⟩
  | .blockhash => ⟨0x40, "BlockHash", 1, 1⟩
  | .coinbase => ⟨0x41, "Coinbase", 0, 1⟩
  | .timestamp => ⟨0x42, "Timestamp", 0, 1⟩
  | .number => ⟨0x43, "Number", 0, 1⟩
  | .prevrandao => ⟨0x44, "PrevRandao", 0, 1⟩
  | .gaslimit => ⟨0x45, "GasLimit", 0, 1⟩
  | .chainid => ⟨0x46, "ChainId", 0, 1⟩
  | .selfbalance => ⟨0x47, "SelfBalance", 0, 1⟩
  | .basefee => ⟨0x48, "BaseFee", 0, 1⟩
  | .blobhash => ⟨0x49, "BlobHash", 1, 1⟩
  | .blobbasefee => ⟨0x4a, "BlobBaseFee", 0, 1⟩
  | .pop => ⟨0x50, "Pop", 1, 0⟩
  | .mload => ⟨0x51, "MLoad", 1, 1⟩
  | .mstore => ⟨0x52, "MStore", 2, 0⟩
  | .mstore8 => ⟨0x53, "MStore8", 2, 0⟩
  | .sload => ⟨0x54, "SLoad", 1, 1⟩
  | .sstore => ⟨0x55, "SStore", 2, 0⟩
  | .jump => ⟨0x56, "Jump", 1, 0⟩
  | .jumpi => ⟨0x57, "JumpI", 2, 0⟩
  | .pc => ⟨0x58, "Pc", 0, 1⟩
  | .msize => ⟨0x59, "MSize", 0, 1⟩
  | .gas => ⟨0x5a, "Gas", 0, 1⟩
  | .jumpdest => ⟨0x5b, "JumpDest", 0, 0⟩
  | .tload => ⟨0x5c, "TLoad", 1, 1⟩
  | .tstore => ⟨0x5d, "TStore", 2, 0⟩
  | .mcopy => ⟨0x5e, "MCopy", 3, 0⟩
  | .push0 => ⟨0x5f, "Push0", 0, 1⟩
  | .create => ⟨0xf0, "Create", 3, 1⟩
  | .call => ⟨0xf1, "Call", 7, 1⟩
  | .callcode => ⟨0xf2, "CallCode", 7, 1⟩
  | .ret => ⟨0xf3, "Return", 2, 0⟩
  | .delegatecall => ⟨0xf4, "DelegateCall", 6, 1⟩
  | .create2 => ⟨0xf5, "Create2", 4, 1⟩
  | .staticcall => ⟨0xfa, "StaticCall", 6, 1⟩
  | .revert => ⟨0xfd, "Revert", 2, 0⟩
  | .invalid => ⟨0xfe, "Invalid", 0, 0⟩
  | .selfdestruct => ⟨0xff, "SelfDestruct", 1, 0⟩
  | .push i => ⟨UInt8.ofNat (0x60 + i), "Push" ++ toString (i.val + 1), 0, 1⟩
  | .dup i => ⟨UInt8.ofNat (0x80 + i), "Dup" ++ toString (i.val + 1), i + 1, i + 2⟩
  | .swap i => ⟨UInt8.ofNat (0x90 + i), "Swap" ++ toString (i.val + 1), i + 2, i + 2⟩
  | .log i => ⟨UInt8.ofNat (0xa0 + i), "Log" ++ toString i.val, i + 2, 0⟩

def toByte (op : Opcode) : UInt8 :=
  op.row.byte

def title (op : Opcode) : String :=
  op.row.title

def mnemonic (op : Opcode) : String :=
  String.ofList (op.title.toList.map Char.toUpper)

/-- Words that must be on the stack before the instruction. -/
def pops (op : Opcode) : Nat :=
  op.row.pops

/-- Words that stand in their place afterwards. -/
def pushes (op : Opcode) : Nat :=
  op.row.pushes

def immediateLength : Opcode → Nat
  | .push i => i + 1
  | _ => 0

/-- A push takes its operand from the code; `push0` has none. -/
def isPush (op : Opcode) : Bool :=
  op.immediateLength != 0

def encodedLength (op : Opcode) : Nat :=
  1 + op.immediateLength

/-- The opcodes outside the indexed families, by byte. -/
def plain : List Opcode :=
  [.stop, .add, .mul, .sub, .div, .sdiv, .mod, .smod, .addmod, .mulmod, .exp, .signextend, .lt,
    .gt, .slt, .sgt, .eq, .iszero, .and, .or, .xor, .not, .byte, .shl, .shr, .sar, .keccak256,
    .address, .balance, .origin, .caller, .callvalue, .calldataload, .calldatasize, .calldatacopy,
    .codesize, .codecopy, .gasprice, .extcodesize, .extcodecopy, .returndatasize, .returndatacopy,
    .extcodehash, .blockhash, .coinbase, .timestamp, .number, .prevrandao, .gaslimit, .chainid,
    .selfbalance, .basefee, .blobhash, .blobbasefee, .pop, .mload, .mstore, .mstore8, .sload,
    .sstore, .jump, .jumpi, .pc, .msize, .gas, .jumpdest, .tload, .tstore, .mcopy, .push0,
    .create, .call, .callcode, .ret, .delegatecall, .create2, .staticcall, .revert, .invalid,
    .selfdestruct]

def ofByte? (byte : UInt8) : Option Opcode :=
  let n := byte.toNat
  if inPush : 0x60 ≤ n ∧ n < 0x80 then some (.push ⟨n - 0x60, by omega⟩)
  else if inDup : 0x80 ≤ n ∧ n < 0x90 then some (.dup ⟨n - 0x80, by omega⟩)
  else if inSwap : 0x90 ≤ n ∧ n < 0xa0 then some (.swap ⟨n - 0x90, by omega⟩)
  else if inLog : 0xa0 ≤ n ∧ n < 0xa5 then some (.log ⟨n - 0xa0, by omega⟩)
  else plain.find? fun op => op.toByte == byte

def all : List Opcode :=
  (List.range 256).filterMap fun n => ofByte? (UInt8.ofNat n)

def ofMnemonic? (name : String) : Option Opcode :=
  all.find? fun op => op.mnemonic == name

/-- The push with an immediate of `width` bytes. -/
def push? (width : Nat) : Option Opcode :=
  if inside : 1 ≤ width ∧ width ≤ 32 then some (.push ⟨width - 1, by omega⟩) else none

def dup? (n : Nat) : Option Opcode :=
  if inside : 1 ≤ n ∧ n ≤ 16 then some (.dup ⟨n - 1, by omega⟩) else none

def swap? (n : Nat) : Option Opcode :=
  if inside : 1 ≤ n ∧ n ≤ 16 then some (.swap ⟨n - 1, by omega⟩) else none

def unassignedMessage (byte : UInt8) : String :=
  "unassigned opcode 0x" ++ Hex.ofByte byte

theorem immediateLength_eq_zero {op : Opcode} (plain : op.isPush = false) :
    op.immediateLength = 0 := by
  simpa [isPush] using plain

theorem pushes_le (op : Opcode) : op.pushes ≤ op.pops + 1 := by
  cases op with
  | dup i => exact Nat.le_refl _
  | swap i => exact Nat.le_succ _
  | push i => exact Nat.le_refl _
  | log i => exact Nat.zero_le _
  | _ => decide

theorem toByte_push (i : Fin 32) : (push i).toByte = UInt8.ofNat (0x60 + i) := rfl

theorem toByte_dup (i : Fin 16) : (dup i).toByte = UInt8.ofNat (0x80 + i) := rfl

theorem toByte_swap (i : Fin 16) : (swap i).toByte = UInt8.ofNat (0x90 + i) := rfl

theorem toByte_log (i : Fin 5) : (log i).toByte = UInt8.ofNat (0xa0 + i) := rfl

private theorem ofNat_add_sub (byte : UInt8) (base : Nat) (below : base ≤ byte.toNat) :
    UInt8.ofNat (base + (byte.toNat - base)) = byte := by
  rw [Nat.add_sub_cancel' below, UInt8.ofNat_toNat]

theorem toByte_of_ofByte? {byte : UInt8} {op : Opcode} (assigned : ofByte? byte = some op) :
    op.toByte = byte := by
  simp only [ofByte?] at assigned
  split at assigned
  · rename_i inside
    rw [← Option.some.inj assigned, toByte_push, ofNat_add_sub byte _ inside.1]
  split at assigned
  · rename_i inside
    rw [← Option.some.inj assigned, toByte_dup, ofNat_add_sub byte _ inside.1]
  split at assigned
  · rename_i inside
    rw [← Option.some.inj assigned, toByte_swap, ofNat_add_sub byte _ inside.1]
  split at assigned
  · rename_i inside
    rw [← Option.some.inj assigned, toByte_log, ofNat_add_sub byte _ inside.1]
  · simpa using List.find?_some assigned

theorem ofByte?_toByte (op : Opcode) : ofByte? op.toByte = some op := by
  cases op with
  | push i =>
      have value : (push i).toByte.toNat = 0x60 + i := by
        rw [toByte_push, UInt8.toNat_ofNat']; omega
      simp only [ofByte?, value]
      rw [dif_pos (by omega)]
      simp
  | dup i =>
      have value : (dup i).toByte.toNat = 0x80 + i := by
        rw [toByte_dup, UInt8.toNat_ofNat']; omega
      simp only [ofByte?, value]
      repeat rw [dif_neg (by omega)]
      rw [dif_pos (by omega)]
      simp
  | swap i =>
      have value : (swap i).toByte.toNat = 0x90 + i := by
        rw [toByte_swap, UInt8.toNat_ofNat']; omega
      simp only [ofByte?, value]
      repeat rw [dif_neg (by omega)]
      rw [dif_pos (by omega)]
      simp
  | log i =>
      have value : (log i).toByte.toNat = 0xa0 + i := by
        rw [toByte_log, UInt8.toNat_ofNat']; omega
      simp only [ofByte?, value]
      repeat rw [dif_neg (by omega)]
      rw [dif_pos (by omega)]
      simp
  | _ => rfl

theorem toByte_inj {a b : Opcode} : a.toByte = b.toByte ↔ a = b := by
  refine ⟨fun same => ?_, congrArg toByte⟩
  have found := ofByte?_toByte a
  rw [same, ofByte?_toByte] at found
  exact (Option.some.inj found).symm

instance : DecidableEq Opcode := fun _ _ =>
  decidable_of_iff _ toByte_inj

end Opcode

end StackAssembler

import GuardFinder.Word
import GuardFinder.Text.Blank

/-!
# Opcodes

An opcode is a byte of the code. Three tables say what is known of it:

* `Opcode.mnemonic?`: its name, if the byte is assigned;
* `Opcode.arity`: how many stack items it takes and how many it leaves;
* `Opcode.kind`: what a symbolic run does with it.

An unassigned byte halts the machine, like `INVALID`.
-/

namespace GuardFinder

/-- An opcode of the virtual machine, assigned or not. -/
structure Opcode where
  byte : UInt8
  deriving DecidableEq, Repr, Inhabited

namespace Opcode

/-- What holds of the opcodes of all bytes holds of all opcodes. -/
theorem forall_of_bytes {P : Opcode → Prop} (h : ∀ n < 256, P ⟨UInt8.ofNat n⟩)
    (op : Opcode) : P op := by
  have hop : op = ⟨UInt8.ofNat op.byte.toNat⟩ := by simp
  rw [hop]
  exact h _ op.byte.toNat_lt

/-! ## Opcodes with a name in this library -/

@[match_pattern] def stop : Opcode := ⟨0x00⟩
@[match_pattern] def add : Opcode := ⟨0x01⟩
@[match_pattern] def lt : Opcode := ⟨0x10⟩
@[match_pattern] def gt : Opcode := ⟨0x11⟩
@[match_pattern] def eq : Opcode := ⟨0x14⟩
@[match_pattern] def isZero : Opcode := ⟨0x15⟩
@[match_pattern] def not : Opcode := ⟨0x19⟩
@[match_pattern] def byteOf : Opcode := ⟨0x1a⟩
@[match_pattern] def sha3 : Opcode := ⟨0x20⟩
@[match_pattern] def caller : Opcode := ⟨0x33⟩
@[match_pattern] def callDataLoad : Opcode := ⟨0x35⟩
@[match_pattern] def number : Opcode := ⟨0x43⟩
@[match_pattern] def mload : Opcode := ⟨0x51⟩
@[match_pattern] def sload : Opcode := ⟨0x54⟩
@[match_pattern] def sstore : Opcode := ⟨0x55⟩
@[match_pattern] def jump : Opcode := ⟨0x56⟩
@[match_pattern] def jumpi : Opcode := ⟨0x57⟩
@[match_pattern] def jumpDest : Opcode := ⟨0x5b⟩
@[match_pattern] def push0 : Opcode := ⟨0x5f⟩
@[match_pattern] def push1 : Opcode := ⟨0x60⟩
@[match_pattern] def revert : Opcode := ⟨0xfd⟩

/-! ## Names -/

/-- The mnemonic of an assigned opcode. -/
def mnemonic? (op : Opcode) : Option String :=
  match op.byte.toNat with
  | 0x00 => some "STOP"
  | 0x01 => some "ADD"
  | 0x02 => some "MUL"
  | 0x03 => some "SUB"
  | 0x04 => some "DIV"
  | 0x05 => some "SDIV"
  | 0x06 => some "MOD"
  | 0x07 => some "SMOD"
  | 0x08 => some "ADDMOD"
  | 0x09 => some "MULMOD"
  | 0x0a => some "EXP"
  | 0x0b => some "SIGNEXTEND"
  | 0x10 => some "LT"
  | 0x11 => some "GT"
  | 0x12 => some "SLT"
  | 0x13 => some "SGT"
  | 0x14 => some "EQ"
  | 0x15 => some "ISZERO"
  | 0x16 => some "AND"
  | 0x17 => some "OR"
  | 0x18 => some "XOR"
  | 0x19 => some "NOT"
  | 0x1a => some "BYTE"
  | 0x1b => some "SHL"
  | 0x1c => some "SHR"
  | 0x1d => some "SAR"
  | 0x20 => some "SHA3"
  | 0x30 => some "ADDRESS"
  | 0x31 => some "BALANCE"
  | 0x32 => some "ORIGIN"
  | 0x33 => some "CALLER"
  | 0x34 => some "CALLVALUE"
  | 0x35 => some "CALLDATALOAD"
  | 0x36 => some "CALLDATASIZE"
  | 0x37 => some "CALLDATACOPY"
  | 0x38 => some "CODESIZE"
  | 0x39 => some "CODECOPY"
  | 0x3a => some "GASPRICE"
  | 0x3b => some "EXTCODESIZE"
  | 0x3c => some "EXTCODECOPY"
  | 0x3d => some "RETURNDATASIZE"
  | 0x3e => some "RETURNDATACOPY"
  | 0x3f => some "EXTCODEHASH"
  | 0x40 => some "BLOCKHASH"
  | 0x41 => some "COINBASE"
  | 0x42 => some "TIMESTAMP"
  | 0x43 => some "NUMBER"
  | 0x44 => some "PREVRANDAO"
  | 0x45 => some "GASLIMIT"
  | 0x46 => some "CHAINID"
  | 0x47 => some "SELFBALANCE"
  | 0x48 => some "BASEFEE"
  | 0x49 => some "BLOBHASH"
  | 0x4a => some "BLOBBASEFEE"
  | 0x50 => some "POP"
  | 0x51 => some "MLOAD"
  | 0x52 => some "MSTORE"
  | 0x53 => some "MSTORE8"
  | 0x54 => some "SLOAD"
  | 0x55 => some "SSTORE"
  | 0x56 => some "JUMP"
  | 0x57 => some "JUMPI"
  | 0x58 => some "PC"
  | 0x59 => some "MSIZE"
  | 0x5a => some "GAS"
  | 0x5b => some "JUMPDEST"
  | 0x5c => some "TLOAD"
  | 0x5d => some "TSTORE"
  | 0x5e => some "MCOPY"
  | 0x5f => some "PUSH0"
  | 0xf0 => some "CREATE"
  | 0xf1 => some "CALL"
  | 0xf2 => some "CALLCODE"
  | 0xf3 => some "RETURN"
  | 0xf4 => some "DELEGATECALL"
  | 0xf5 => some "CREATE2"
  | 0xfa => some "STATICCALL"
  | 0xfd => some "REVERT"
  | 0xfe => some "INVALID"
  | 0xff => some "SELFDESTRUCT"
  | n =>
    if 0x60 ≤ n ∧ n ≤ 0x7f then some ("PUSH" ++ toString (n - 0x5f))
    else if 0x80 ≤ n ∧ n ≤ 0x8f then some ("DUP" ++ toString (n - 0x7f))
    else if 0x90 ≤ n ∧ n ≤ 0x9f then some ("SWAP" ++ toString (n - 0x8f))
    else if 0xa0 ≤ n ∧ n ≤ 0xa4 then some ("LOG" ++ toString (n - 0xa0))
    else none

/-- Whether the byte is assigned to an instruction. -/
def isAssigned (op : Opcode) : Bool := op.mnemonic?.isSome

/-- The name of an opcode; all unassigned bytes share one. -/
def name (op : Opcode) : String := op.mnemonic?.getD "UNKNOWN"

/-- The name in lower case, as it stands in the text of terms. -/
def lowerName (op : Opcode) : String := op.name.toLower

/-- The opcode with a given mnemonic, in either case and with blanks around it. `KECCAK256` is a
second name of `SHA3`. -/
def ofName? (name : String) : Option Opcode :=
  let wanted := (Text.trim name).toUpper
  if wanted = "KECCAK256" then some sha3
  else ((List.range 256).map fun n => (⟨UInt8.ofNat n⟩ : Opcode)).find? (·.mnemonic? = some wanted)

/-! ## Immediate data and stack items -/

/-- How many bytes of immediate data follow the opcode. -/
def pushSize (op : Opcode) : Nat :=
  let n := op.byte.toNat
  if 0x60 ≤ n ∧ n ≤ 0x7f then n - 0x5f else 0

/-- How many items an opcode takes from the stack and how many it puts there. -/
def arity (op : Opcode) : Nat × Nat :=
  match op.byte.toNat with
  | 0x01 | 0x02 | 0x03 | 0x04 | 0x05 | 0x06 | 0x07 | 0x0a | 0x0b
  | 0x10 | 0x11 | 0x12 | 0x13 | 0x14 | 0x16 | 0x17 | 0x18
  | 0x1a | 0x1b | 0x1c | 0x1d | 0x20 => (2, 1)
  | 0x08 | 0x09 => (3, 1)
  | 0x15 | 0x19 => (1, 1)
  | 0x30 | 0x32 | 0x33 | 0x34 | 0x36 | 0x38 | 0x3a | 0x3d => (0, 1)
  | 0x31 | 0x35 | 0x3b | 0x3f | 0x40 | 0x49 => (1, 1)
  | 0x37 | 0x39 | 0x3e | 0x5e => (3, 0)
  | 0x3c => (4, 0)
  | 0x41 | 0x42 | 0x43 | 0x44 | 0x45 | 0x46 | 0x47 | 0x48 | 0x4a => (0, 1)
  | 0x50 | 0x56 => (1, 0)
  | 0x51 | 0x54 | 0x5c => (1, 1)
  | 0x52 | 0x53 | 0x55 | 0x57 | 0x5d => (2, 0)
  | 0x58 | 0x59 | 0x5a => (0, 1)
  | 0xf0 => (3, 1)
  | 0xf1 | 0xf2 => (7, 1)
  | 0xf3 | 0xfd => (2, 0)
  | 0xf4 | 0xfa => (6, 1)
  | 0xf5 => (4, 1)
  | 0xff => (1, 0)
  | n =>
    if 0x5f ≤ n ∧ n ≤ 0x7f then (0, 1)
    else if 0x80 ≤ n ∧ n ≤ 0x8f then (n - 0x7f, n - 0x7e)
    else if 0x90 ≤ n ∧ n ≤ 0x9f then (n - 0x8e, n - 0x8e)
    else if 0xa0 ≤ n ∧ n ≤ 0xa4 then (n - 0x9e, 0)
    else (0, 0)

/-- The number of items taken from the stack. -/
def pops (op : Opcode) : Nat := op.arity.1

/-- The number of items put on the stack. -/
def pushes (op : Opcode) : Nat := op.arity.2

/-! ## What a symbolic run does with an opcode -/

/-- The ways in which a symbolic run treats an instruction. -/
inductive Kind
  /-- Puts its argument on the stack. -/
  | push
  /-- Puts item number `n`, counted from one, on the stack once more. -/
  | dup (n : Nat)
  /-- Exchanges the top item with the one `n` places below it. -/
  | swap (n : Nat)
  /-- Ends the path and returns a range of memory. -/
  | giveBack
  /-- Ends the path. -/
  | halt
  /-- Goes on at the address on top of the stack. -/
  | jump
  /-- Goes on at the address on top of the stack if the item below it is not zero. -/
  | branch
  /-- An operation on one word. -/
  | unary
  /-- An operation on two words. -/
  | binary
  /-- Modular arithmetic on three words, of which only the origin is kept. -/
  | modular
  /-- Hashes a range of memory. -/
  | hash
  /-- Reads a word of the call data. -/
  | callDataLoad
  /-- Copies call data to memory. -/
  | callDataCopy
  /-- Copies code to memory. -/
  | codeCopy
  /-- The size of the code. -/
  | codeSize
  /-- Reads a word of memory. -/
  | memoryLoad
  /-- Writes a word to memory. -/
  | memoryStore
  /-- Writes a byte to memory. -/
  | memoryStoreByte
  /-- Reads a storage slot. -/
  | storageLoad
  /-- Writes a storage slot. -/
  | storageStore
  /-- The address of the instruction itself. -/
  | counter
  /-- The size of memory in use. -/
  | memorySize
  /-- A value that the transaction or the block fixes. -/
  | environment
  /-- A question about one word, such as the balance of an account. -/
  | query
  /-- An instruction of which only the presence of a result is kept. -/
  | unmodelled
  /-- An instruction without result and without effect on what is tracked. -/
  | discard
  deriving DecidableEq, Repr

/-- The kind of an opcode. -/
def kind (op : Opcode) : Kind :=
  match op.byte.toNat with
  | 0x01 | 0x02 | 0x03 | 0x04 | 0x05 | 0x06 | 0x07 | 0x0a | 0x0b
  | 0x10 | 0x11 | 0x12 | 0x13 | 0x14 | 0x16 | 0x17 | 0x18
  | 0x1a | 0x1b | 0x1c | 0x1d => .binary
  | 0x08 | 0x09 => .modular
  | 0x15 | 0x19 => .unary
  | 0x20 => .hash
  | 0x30 | 0x32 | 0x33 | 0x34 | 0x36 | 0x3a | 0x3d
  | 0x41 | 0x42 | 0x43 | 0x44 | 0x45 | 0x46 | 0x47 | 0x48 | 0x4a | 0x5a => .environment
  | 0x31 | 0x3b | 0x3f | 0x40 | 0x49 | 0x5c => .query
  | 0x35 => .callDataLoad
  | 0x37 => .callDataCopy
  | 0x38 => .codeSize
  | 0x39 => .codeCopy
  | 0x51 => .memoryLoad
  | 0x52 => .memoryStore
  | 0x53 => .memoryStoreByte
  | 0x54 => .storageLoad
  | 0x55 => .storageStore
  | 0x56 => .jump
  | 0x57 => .branch
  | 0x58 => .counter
  | 0x59 => .memorySize
  | 0x3c | 0x3e | 0x50 | 0x5b | 0x5d | 0x5e => .discard
  | 0xf0 | 0xf1 | 0xf2 | 0xf4 | 0xf5 | 0xfa => .unmodelled
  | 0xf3 => .giveBack
  | n =>
    if 0x5f ≤ n ∧ n ≤ 0x7f then .push
    else if 0x80 ≤ n ∧ n ≤ 0x8f then .dup (n - 0x7f)
    else if 0x90 ≤ n ∧ n ≤ 0x9f then .swap (n - 0x8f)
    else if 0xa0 ≤ n ∧ n ≤ 0xa4 then .discard
    else .halt

/-- Whether a path ends at this opcode. -/
def isHalting (op : Opcode) : Bool :=
  match op.kind with
  | .giveBack | .halt => true
  | _ => false

end Opcode

end GuardFinder

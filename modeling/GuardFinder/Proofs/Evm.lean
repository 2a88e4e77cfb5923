import GuardFinder.Program
import GuardFinder.Proofs.Valuation

/-!
# The virtual machine on words

A machine that runs code on words, without gas, in the surroundings that a valuation fixes. It knows
the instructions for arithmetic, the stack, memory, storage, call data and control, and those that
read what the transaction or the block fixes; it has no meaning for the others and stops at them.

* `Evm.operation?`: the instructions that the machine knows.
* `Evm.turn`: one instruction. It is executed if the code goes on and the stack is high enough for
  it and has room for its result; a jump to no jump destination is executed and ends the run.
* `Evm.run`: the instructions executed in a number of turns, and where the run stands after them.
-/

namespace GuardFinder.Evm

/-! ### Instructions -/

/-- What an instruction does on this machine. -/
inductive Operation
  | push
  /-- Puts item number `n`, counted from one, on the stack once more. -/
  | dup (n : Nat)
  /-- Exchanges the top item with the one `n` places below it. -/
  | swap (n : Nat)
  | pop
  | unary
  | binary
  | counter
  | codeSize
  | environment
  | callDataLoad
  | memoryLoad
  | memoryStore
  | memoryStoreByte
  | storageLoad
  | storageStore
  | jump
  | branch
  | jumpDest
  | halt
  deriving DecidableEq, Repr

/-- The operation of an opcode; none if the machine does not know it. Unassigned bytes halt. -/
def operation? (op : Opcode) : Option Operation :=
  match op.byte.toNat with
  | 0x15 | 0x19 => some .unary
  | 0x01 | 0x02 | 0x03 | 0x04 | 0x05 | 0x06 | 0x07 | 0x0a | 0x0b
  | 0x10 | 0x11 | 0x12 | 0x13 | 0x14 | 0x16 | 0x17 | 0x18
  | 0x1a | 0x1b | 0x1c | 0x1d => some .binary
  | 0x30 | 0x32 | 0x33 | 0x34 | 0x36 | 0x3a | 0x3d
  | 0x41 | 0x42 | 0x43 | 0x44 | 0x45 | 0x46 | 0x47 | 0x48 | 0x4a => some .environment
  | 0x35 => some .callDataLoad
  | 0x38 => some .codeSize
  | 0x50 => some .pop
  | 0x51 => some .memoryLoad
  | 0x52 => some .memoryStore
  | 0x53 => some .memoryStoreByte
  | 0x54 => some .storageLoad
  | 0x55 => some .storageStore
  | 0x56 => some .jump
  | 0x57 => some .branch
  | 0x58 => some .counter
  | 0x5b => some .jumpDest
  | 0x00 | 0xf3 | 0xfd | 0xfe | 0xff => some .halt
  | n =>
    if 0x5f ≤ n ∧ n ≤ 0x7f then some .push
    else if 0x80 ≤ n ∧ n ≤ 0x8f then some (.dup (n - 0x7f))
    else if 0x90 ≤ n ∧ n ≤ 0x9f then some (.swap (n - 0x8f))
    else if op.isAssigned then none
    else some .halt

/-- The instruction whose opcode is the byte at an address. -/
def fetch (code : Bytes) (address : Nat) : Option Instruction :=
  code[address]?.map fun byte => .decode address ⟨byte⟩ (code.drop (address + 1))

/-- The address that a jump goes to, if it is a jump destination. Addresses have 64 bits. -/
def jumpTarget? (code : Bytes) (destination : Word) : Option Nat :=
  (Word.size? destination).filter (Program.ofCode code).isJumpDest

/-- Whether an instruction finds its operands on the stack and room for its result. -/
def fits (op : Opcode) (stack : List Word) : Bool :=
  op.pops ≤ stack.length && stack.length - op.pops + op.pushes ≤ 1024

/-! ### Memory -/

/-- The bytes of memory; those that were never written are zero. -/
abbrev Store := Nat → UInt8

namespace Store

/-- Memory after the bytes of a word were written, the most significant first. -/
def putWord (m : Store) (offset : Nat) (w : Word) : Store :=
  fun a => if offset ≤ a ∧ a < offset + 32 then Word.byteAt w (a - offset) else m a

/-- Memory after the last byte of a word was written. -/
def putByte (m : Store) (offset : Nat) (w : Word) : Store :=
  fun a => if a = offset then Word.byteAt w 31 else m a

/-- The word that 32 bytes of memory spell. -/
def word (m : Store) (offset : Nat) : Word :=
  Word.ofBytes ((List.range 32).map fun i => m (offset + i))

end Store

/-! ### States and runs -/

/-- A state of the machine. -/
structure State where
  pc : Nat
  /-- The stack, from the top. -/
  stack : List Word
  memory : Store
  storage : Word → Word

/-- The state in which a transaction starts. -/
def State.start (ρ : Valuation) : State where
  pc := 0
  stack := []
  memory := fun _ => 0
  storage := ρ.storage

/-- The state after an instruction; none if the run is over. -/
def execute (code : Bytes) (ρ : Valuation) (ins : Instruction) (s : State) : Option State :=
  let next (stack : List Word) : Option State := some { s with pc := ins.nextAddress, stack }
  match operation? ins.opcode, s.stack with
  | some .push, stack => next (ins.argument.getD 0 :: stack)
  | some (.dup n), stack => stack[n - 1]?.bind fun v => next (v :: stack)
  | some (.swap n), top :: rest => rest[n - 1]?.bind fun v => next (v :: rest.set (n - 1) top)
  | some .pop, _ :: rest => next rest
  | some .unary, a :: rest => (unary? ins.opcode a).bind fun v => next (v :: rest)
  | some .binary, a :: b :: rest => next (binary ins.opcode a b :: rest)
  | some .counter, stack => next (BitVec.ofNat 256 s.pc :: stack)
  | some .codeSize, stack => next (BitVec.ofNat 256 code.length :: stack)
  | some .environment, stack => next (ρ.env ins.opcode :: stack)
  | some .callDataLoad, offset :: rest => next (ρ.callData offset :: rest)
  | some .memoryLoad, offset :: rest => next (s.memory.word offset.toNat :: rest)
  | some .memoryStore, offset :: v :: rest =>
    some { s with
      pc := ins.nextAddress, stack := rest, memory := s.memory.putWord offset.toNat v }
  | some .memoryStoreByte, offset :: v :: rest =>
    some { s with
      pc := ins.nextAddress, stack := rest, memory := s.memory.putByte offset.toNat v }
  | some .storageLoad, slot :: rest => next (s.storage slot :: rest)
  | some .storageStore, slot :: v :: rest =>
    some { s with
      pc := ins.nextAddress, stack := rest
      storage := fun k => if k = slot then v else s.storage k }
  | some .jump, destination :: rest =>
    (jumpTarget? code destination).map fun pc => { s with pc, stack := rest }
  | some .branch, destination :: condition :: rest =>
    if condition = 0 then next rest
    else (jumpTarget? code destination).map fun pc => { s with pc, stack := rest }
  | some .jumpDest, stack => next stack
  | _, _ => none

/-- An executed instruction and the stack it found. -/
structure Executed where
  instruction : Instruction
  stack : List Word
  deriving DecidableEq, Repr

/-- The instruction that is executed in a state. -/
def ready? (code : Bytes) (s : State) : Option Instruction :=
  (fetch code s.pc).filter fun ins => fits ins.opcode s.stack

/-- One turn: the instruction executed, if there is one, and the state after it. -/
def turn (code : Bytes) (ρ : Valuation) (s : State) : List Executed × Option State :=
  match ready? code s with
  | none => ([], none)
  | some ins => ([⟨ins, s.stack⟩], execute code ρ ins s)

/-- The instructions executed in at most `n` turns, and the state after them if the run is not over
by then. -/
def run (code : Bytes) (ρ : Valuation) : Nat → State → List Executed × Option State
  | 0, s => ([], some s)
  | n + 1, s =>
    match turn code ρ s with
    | (executed, none) => (executed, none)
    | (executed, some s') =>
      let later := run code ρ n s'
      (executed ++ later.1, later.2)

variable {code : Bytes} {ρ : Valuation} {s s' : State} {n : Nat} {executed : List Executed}

/-- A run goes on with one more turn. -/
theorem run_succ_of_some (h : run code ρ n s = (executed, some s')) :
    run code ρ (n + 1) s = (executed ++ (turn code ρ s').1, (turn code ρ s').2) := by
  induction n generalizing s executed with
  | zero =>
    simp only [run, Prod.mk.injEq, Option.some.injEq] at h
    obtain ⟨rfl, rfl⟩ := h
    unfold run
    rcases turn code ρ s with ⟨now, _ | next⟩
    · rfl
    · simp [run]
  | succ n ih =>
    rw [run] at h ⊢
    rcases hturn : turn code ρ s with ⟨now, _ | next⟩
    · rw [hturn] at h
      simp at h
    · rw [hturn] at h
      simp only [Prod.mk.injEq] at h ⊢
      obtain ⟨rfl, hlater⟩ := h
      have hnext : run code ρ n next = ((run code ρ n next).1, some s') := by
        rw [← hlater]
      rw [ih hnext]
      exact ⟨by rw [List.append_assoc], rfl⟩

/-- A run goes on with the instruction that is executed next. -/
theorem run_succ_of_ready {ins : Instruction} (h : run code ρ n s = (executed, some s'))
    (hready : ready? code s' = some ins) :
    run code ρ (n + 1) s = (executed ++ [⟨ins, s'.stack⟩], execute code ρ ins s') := by
  rw [run_succ_of_some h, turn, hready]

/-- A run is over when no instruction is executed next. -/
theorem run_succ_of_not_ready (h : run code ρ n s = (executed, some s'))
    (hready : ready? code s' = none) : run code ρ (n + 1) s = (executed, none) := by
  rw [run_succ_of_some h, turn, hready, List.append_nil]

/-- A run that is over has executed all that it ever executes. -/
theorem run_prefix_of_over (h : run code ρ n s = (executed, none)) (m : Nat) :
    (run code ρ m s).1 <+: executed := by
  induction n generalizing s executed m with
  | zero => cases h
  | succ n ih =>
    cases m with
    | zero => exact List.nil_prefix
    | succ m =>
      rw [run] at h ⊢
      rcases hturn : turn code ρ s with ⟨now, _ | next⟩
      · simp only [hturn, Prod.mk.injEq, and_true] at h
        exact h ▸ List.prefix_rfl
      · simp only [hturn, Prod.mk.injEq] at h ⊢
        obtain ⟨rfl, hover⟩ := h
        have hnext : run code ρ n next = ((run code ρ n next).1, none) := by rw [← hover]
        exact (List.prefix_append_right_inj now).mpr (ih hnext m)

end GuardFinder.Evm

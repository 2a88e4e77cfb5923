import GuardFinder.Explore.Path
import GuardFinder.Keccak

/-!
# Executing one instruction

`execute` says what an instruction does to the path that executes it. Results of arithmetic, of
comparisons and of hashing start with the taints of their operands; what is read from the
environment, from call data or from storage starts without taints.

Memory operations whose range is not known, or ends beyond `Memory.limit`, have no effect on memory,
and what they read is a result of which only the origin is known.
-/

namespace GuardFinder

/-- Where a path goes after an instruction. -/
inductive Flow
  /-- To the next instruction. -/
  | next
  /-- To a destination. -/
  | jump (destination : Value)
  /-- To a destination if the condition is not zero, and to the next instruction else. -/
  | branch (destination condition : Value)
  /-- Nowhere. The bytes are what the path returned, if it did and they are known. -/
  | halt (returned : Option Bytes)

/-- What an instruction does. -/
structure Effect where
  path : Path
  supply : Supply
  inheritances : List Inheritance := []
  flow : Flow := .next

namespace Path

/-- Puts a new value on the stack, with the taints of its sources. -/
def pushNew (p : Path) (s : Supply) (word : Term) (sources : List Nat) : Effect :=
  let (v, s) := s.value word
  { path := { p with stack := v :: p.stack }
    supply := s
    inheritances := if sources.isEmpty then [] else [⟨v.tag, sources⟩] }

/-- Puts a result on the stack of which only the origin is known. -/
def pushHavoc (p : Path) (s : Supply) (origin : Opcode) (sources : List Nat) : Effect :=
  let (word, s) := s.havoc origin
  p.pushNew s word sources

/-- Stops a path at an instruction that it has too few operands for. -/
def stuck (p : Path) (s : Supply) : Effect := { path := p, supply := s, flow := .halt none }

end Path

/-- The offset of a memory range, when it is known and the range ends within the limit. -/
def memoryOffset? (offset : Value) (length : Nat) : Option Nat :=
  offset.size?.filter (· + length ≤ Memory.limit)

/-- The offset and length of a memory range, when they are known and within the limit. -/
def memoryRange? (offset length : Value) : Option (Nat × Nat) := do
  let n ← length.size?
  let o ← memoryOffset? offset n
  return (o, n)

/-- The hash of a memory range and the tags it is made of. -/
def hashOf (m : Memory) (offset length : Nat) : Term × List Nat :=
  match m.bytes? offset length with
  | some bytes => (.const (Word.ofBytes (Keccak.digest bytes)), [])
  | none => (.keccak (m.words offset length), m.tags offset length)

/-- The bytes that a path returns, when they are known. -/
def returnedBytes? (m : Memory) (offset length : Value) : Option Bytes := do
  let (o, n) ← memoryRange? offset length
  m.bytes? o n

/-- Memory after call data was copied to it. -/
def copyCallData (m : Memory) (s : Supply) (destination source length : Value) : Memory × Supply :=
  match memoryRange? destination length with
  | some (o, n) =>
    m.storeSymbolic s o n fun distance =>
      .callData (.applyBinary .add source.word (.const (BitVec.ofNat 256 distance)))
  | none => (m, s)

/-- The bytes of a code from an offset on, with zeros past its end. -/
def codeBytes (code : Bytes) (offset length : Nat) : Bytes :=
  let bytes := (code.drop offset).take length
  bytes ++ List.replicate (length - bytes.length) 0

/-- Memory after code was copied to it. -/
def copyCode (m : Memory) (code : Bytes) (destination source length : Value) : Memory :=
  match source.size?, memoryRange? destination length with
  | some start, some (o, n) => m.storeBytes o (codeBytes code start n)
  | _, _ => m

/-- What an instruction of a program does to a path. -/
def execute (program : Program) (ins : Instruction) (p : Path) (s : Supply) : Effect :=
  let op := ins.opcode
  match op.kind, p.stack with
  | .push, _ => p.pushNew s (.const (ins.argument.getD 0)) []
  | .dup n, _ =>
    match p.stack[n - 1]? with
    | some v => { path := { p with stack := v :: p.stack }, supply := s }
    | none => p.stuck s
  | .swap n, top :: _ =>
    match p.stack[n]? with
    | some v => { path := { p with stack := (p.stack.set 0 v).set n top }, supply := s }
    | none => p.stuck s
  | .giveBack, offset :: length :: rest =>
    { path := { p with stack := rest }, supply := s
      flow := .halt (returnedBytes? p.memory offset length) }
  | .halt, _ =>
    { path := { p with stack := p.stack.drop op.pops }, supply := s, flow := .halt none }
  | .jump, destination :: rest =>
    { path := { p with stack := rest }, supply := s, flow := .jump destination }
  | .branch, destination :: condition :: rest =>
    { path := { p with stack := rest }, supply := s, flow := .branch destination condition }
  | .unary, a :: rest =>
    { p with stack := rest }.pushNew s (.applyUnary op a.word) [a.tag]
  | .binary, a :: b :: rest =>
    { p with stack := rest }.pushNew s (.applyBinary op a.word b.word) [a.tag, b.tag]
  | .modular, a :: b :: c :: rest =>
    { p with stack := rest }.pushHavoc s op [a.tag, b.tag, c.tag]
  | .hash, offset :: length :: rest =>
    match memoryRange? offset length with
    | some (o, n) =>
      let (word, sources) := hashOf p.memory o n
      { p with stack := rest }.pushNew s word sources
    | none => { p with stack := rest }.pushHavoc s op []
  | .callDataLoad, offset :: rest => { p with stack := rest }.pushNew s (.callData offset.word) []
  | .callDataCopy, destination :: source :: length :: rest =>
    let (memory, s) := copyCallData p.memory s destination source length
    { path := { p with stack := rest, memory }, supply := s }
  | .codeCopy, destination :: source :: length :: rest =>
    let memory := copyCode p.memory program.code destination source length
    { path := { p with stack := rest, memory }, supply := s }
  | .codeSize, _ => p.pushNew s (.const (BitVec.ofNat 256 program.code.length)) []
  | .memoryLoad, offset :: rest =>
    match memoryOffset? offset 32 with
    | some o =>
      let loaded := p.memory.load s o
      { path := { p with stack := loaded.value :: rest, memory := loaded.memory }
        supply := loaded.supply
        inheritances := loaded.inheritances }
    | none => { p with stack := rest }.pushHavoc s op []
  | .memoryStore, offset :: v :: rest =>
    let memory := match memoryOffset? offset 32 with
      | some o => p.memory.storeWord o v
      | none => p.memory
    { path := { p with stack := rest, memory }, supply := s }
  | .memoryStoreByte, offset :: v :: rest =>
    let memory := match memoryOffset? offset 1 with
      | some o => p.memory.storeByte o v
      | none => p.memory
    { path := { p with stack := rest, memory }, supply := s }
  | .storageLoad, slot :: rest =>
    match p.stored? slot.word with
    | some v => { path := { p with stack := v :: rest }, supply := s }
    | none => { p with stack := rest }.pushNew s (.storage slot.word) []
  | .storageStore, slot :: v :: rest =>
    { path := { p with stack := rest }.store slot.word v, supply := s }
  | .counter, _ => p.pushNew s (.const (BitVec.ofNat 256 ins.address)) []
  | .memorySize, _ => p.pushNew s (.const (BitVec.ofNat 256 p.memory.size)) []
  | .environment, _ => p.pushNew s (.env op) []
  | .query, a :: rest => { p with stack := rest }.pushNew s (.unary op a.word) []
  | .unmodelled, _ => { p with stack := p.stack.drop op.pops }.pushHavoc s op []
  | .discard, _ => { path := { p with stack := p.stack.drop op.pops }, supply := s }
  | _, _ => p.stuck s

/-- The name of the function with selector `c`, if the term it is compared with reads the
selector. -/
def selectorName? (c : Word) (other : Term) : Option String :=
  if other.readsSelector ∧ c.toNat < UInt32.size then
    some ("_function_0x" ++ Word.hexDigitsPadded 8 c.toNat)
  else none

/-- The name of the function that a path enters when a condition holds: the condition must compare a
word built on the selector with a constant that is a selector. -/
def selectedFunction? (condition : Term) : Option String :=
  match condition with
  | .binary op a b =>
    if op = .eq then
      match a.const?, b.const? with
      | some c, none => selectorName? c b
      | none, some c => selectorName? c a
      | _, _ => none
    else none
  | _ => none

end GuardFinder

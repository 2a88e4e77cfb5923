import GuardFinder.Opcode

/-!
# Programs

Code is read from its first byte on: each instruction is an opcode and the immediate data that
belongs to it. `layoutFrom` says of every byte whether an instruction starts there; the
instruction list, the look-up by address and the jump destinations are all read off that layout.

Immediate data that the end of the code cuts off is filled up with zero bytes.
-/

namespace GuardFinder

/-- One instruction of a program. -/
structure Instruction where
  /-- The place of the opcode in the code. -/
  address : Nat
  opcode : Opcode
  /-- The value that a push instruction carries. -/
  argument : Option Word
  deriving DecidableEq, Repr

namespace Instruction

/-- The address after the instruction and its data. -/
def nextAddress (ins : Instruction) : Nat := ins.address + 1 + ins.opcode.pushSize

/-- The instruction as text: address, name and argument. -/
def text (ins : Instruction) : String :=
  let head := toString ins.address ++ " " ++ ins.opcode.name
  match ins.argument with
  | some value => head ++ " " ++ Word.toHex value
  | none => head

/-- The value that `size` bytes of immediate data spell, when `data` is what the code has of
them. -/
def immediate (size : Nat) (data : Bytes) : Word :=
  Word.ofBytes (data ++ List.replicate (size - data.length) 0)

/-- The instruction that starts at `address` with the given opcode, followed by `rest`. -/
def decode (address : Nat) (opcode : Opcode) (rest : Bytes) : Instruction :=
  let size := opcode.pushSize
  let argument :=
    if opcode = .push0 then some 0
    else if size = 0 then none
    else some (immediate size (rest.take size))
  { address, opcode, argument }

end Instruction

/-- For each byte of a code the instruction that starts there. The first `skip` bytes are immediate
data; the code starts at `address`. -/
def layoutFrom (address skip : Nat) : Bytes → List (Option Instruction)
  | [] => []
  | byte :: rest =>
    match skip with
    | skip + 1 => none :: layoutFrom (address + 1) skip rest
    | 0 =>
      let ins := Instruction.decode address ⟨byte⟩ rest
      some ins :: layoutFrom (address + 1) ins.opcode.pushSize rest

/-- A program: its code, and for each byte of it the instruction that starts there, if one does. -/
structure Program where
  code : Bytes
  layout : Array (Option Instruction)
  layout_eq : layout = (layoutFrom 0 0 code).toArray

namespace Program

/-- The program with the given code. -/
def ofCode (code : Bytes) : Program where
  code := code
  layout := (layoutFrom 0 0 code).toArray
  layout_eq := rfl

/-- The instructions in the order of their addresses. -/
def instructions (p : Program) : List Instruction := p.layout.toList.filterMap id

/-- The instruction that starts at an address. -/
def at? (p : Program) (address : Nat) : Option Instruction := p.layout[address]?.join

theorem address_of_mem_layoutFrom {address skip i : Nat} {code : Bytes} {ins : Instruction}
    (h : (layoutFrom address skip code)[i]? = some (some ins)) : ins.address = address + i := by
  induction code generalizing address skip i with
  | nil => simp [layoutFrom] at h
  | cons byte rest ih =>
    cases skip with
    | succ skip =>
      cases i with
      | zero => simp [layoutFrom] at h
      | succ i =>
        have := ih (by simpa [layoutFrom] using h)
        omega
    | zero =>
      cases i with
      | zero =>
        simp [layoutFrom] at h
        simp [← h, Instruction.decode]
      | succ i =>
        have := ih (by simpa [layoutFrom] using h)
        omega

theorem length_layoutFrom (address skip : Nat) (code : Bytes) :
    (layoutFrom address skip code).length = code.length := by
  induction code generalizing address skip with
  | nil => rfl
  | cons byte rest ih => cases skip <;> simp [layoutFrom, ih]

/-- The instruction at an address has that address. -/
theorem address_of_at? {p : Program} {address : Nat} {ins : Instruction}
    (h : p.at? address = some ins) : ins.address = address := by
  unfold at? at h
  rw [Option.join_eq_some_iff, p.layout_eq] at h
  have h' : (layoutFrom 0 0 p.code)[address]? = some (some ins) := by simpa using h
  have := address_of_mem_layoutFrom h'
  omega

/-- Instructions stand inside the code. -/
theorem lt_length_of_at? {p : Program} {address : Nat} {ins : Instruction}
    (h : p.at? address = some ins) : address < p.code.length := by
  unfold at? at h
  rw [Option.join_eq_some_iff, p.layout_eq] at h
  obtain ⟨hlt, -⟩ := Array.getElem?_eq_some_iff.mp h
  simpa [length_layoutFrom] using hlt

/-- Whether a jump may go to an address. -/
def isJumpDest (p : Program) (address : Nat) : Bool :=
  match p.at? address with
  | some ins => ins.opcode = .jumpDest
  | none => false

end Program

end GuardFinder

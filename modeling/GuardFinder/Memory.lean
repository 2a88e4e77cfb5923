import GuardFinder.Value

/-!
# Memory

The memory of a path, byte by byte. A byte is known, or it is a byte of a symbolic value, or it was
never written and counts as zero. Known words are kept as bytes only, so they forget their taints;
symbolic words keep the value they came from.

* `Memory.write`: all stores write a row of cells.
* `Memory.knownWord?`, `Memory.bytes?`, `Memory.words`: what memory spells, as a known word, as known
  bytes or as terms.
* `Memory.load`: a word. A word that one symbolic store wrote is that very value.
-/

namespace GuardFinder

/-- A byte of memory that was written. -/
inductive Cell
  /-- A known byte. -/
  | byte (b : UInt8)
  /-- Byte number `index` of a symbolic value, counted from the most significant. -/
  | part (value : Value) (index : Fin 32)
  deriving DecidableEq, Repr

namespace Cell

/-- The value that a cell belongs to. -/
def value? : Cell → Option Value
  | byte _ => none
  | part value _ => some value

/-- The cell with its value replaced. -/
def mapValue (f : Value → Value) : Cell → Cell
  | byte b => byte b
  | part value index => part (f value) index

/-- The byte of a cell that may never have been written, if it is known. -/
def known? : Option Cell → Option UInt8
  | none => some 0
  | some (byte b) => some b
  | some (part ..) => none

/-- The cells of the first `count` bytes of a symbolic value. -/
def ofValue (value : Value) (count : Nat) : List Cell :=
  ((List.finRange 32).take count).map (part value)

end Cell

/-- The memory of a path. -/
structure Memory where
  cells : Std.TreeMap Nat Cell := ∅
  /-- The size in use, in whole words. -/
  size : Nat := 0

namespace Memory

/-- A path does not keep memory at or beyond this offset. -/
def limit : Nat := 1024 * 1024

/-- The first multiple of a word's length that is not below `n`. -/
def wordAligned (n : Nat) : Nat := (n + 31) / 32 * 32

/-- Takes `length` bytes from `offset` into use. -/
def touch (m : Memory) (offset length : Nat) : Memory :=
  if length = 0 then m else { m with size := max m.size (wordAligned (offset + length)) }

/-! ## Stores -/

/-- Puts cells in a row. -/
def putCells (cells : Std.TreeMap Nat Cell) (offset : Nat) : List Cell → Std.TreeMap Nat Cell
  | [] => cells
  | cell :: rest => putCells (cells.insert offset cell) (offset + 1) rest

/-- Writes a row of cells. -/
def write (m : Memory) (offset : Nat) (row : List Cell) : Memory :=
  let m := m.touch offset row.length
  { m with cells := putCells m.cells offset row }

/-- Writes the bytes of a word. -/
def storeWord (m : Memory) (offset : Nat) (v : Value) : Memory :=
  match v.const? with
  | some w => m.write offset ((Word.toBytes w).map .byte)
  | none => m.write offset (Cell.ofValue v 32)

/-- Writes the last byte of a word. -/
def storeByte (m : Memory) (offset : Nat) (v : Value) : Memory :=
  match v.const? with
  | some w => m.write offset [.byte (Word.byteAt w 31)]
  | none => m.write offset [.part v 31]

/-- Writes known bytes. -/
def storeBytes (m : Memory) (offset : Nat) (bytes : Bytes) : Memory :=
  m.write offset (bytes.map .byte)

/-- Writes `length` bytes of new symbolic values. The value for the word at distance `d` from
`offset` has the word `source d`. -/
def storeSymbolic (m : Memory) (s : Supply) (offset length : Nat) (source : Nat → Term) :
    Memory × Supply :=
  let count := (length + 31) / 32
  let row := (List.range count).flatMap fun k =>
    Cell.ofValue ⟨source (32 * k), s.nextTag + k⟩ (length - 32 * k)
  (m.write offset row, { s with nextTag := s.nextTag + count })

/-- Replaces every symbolic value. -/
def mapValues (m : Memory) (f : Value → Value) : Memory :=
  { m with cells := m.cells.map fun _ cell => cell.mapValue f }

/-- The symbolic values in memory in the order of their places, once for each byte of them. -/
def values (m : Memory) : List Value :=
  m.cells.toList.filterMap fun (_, cell) => cell.value?

/-- Memory whose values have new tags, and what that took. -/
structure Detached where
  memory : Memory
  supply : Supply
  inheritances : List Inheritance

/-- Gives every symbolic value a new tag; bytes of one value stay bytes of one value. -/
def detach (m : Memory) (s : Supply) : Detached :=
  let copies := Copies.ofValues s m.values
  { memory := m.mapValues copies.rename
    supply := copies.supply
    inheritances := copies.inheritances }

/-- Gives every symbolic byte a value of its own. -/
def detachBytes (m : Memory) (s : Supply) : Detached :=
  m.cells.foldl (fun d offset cell => match cell with
    | .byte _ => d
    | .part value index =>
      let copy : Value := { value with tag := d.supply.nextTag }
      { memory := { d.memory with cells := d.memory.cells.insert offset (.part copy index) }
        supply := { d.supply with nextTag := d.supply.nextTag + 1 }
        inheritances := ⟨copy.tag, [value.tag]⟩ :: d.inheritances })
    { memory := m, supply := s, inheritances := [] }

/-! ## Reads

Three loops go over cells in a row. One looks for known words only, one reads a range that is hashed
or returned, and one makes a word of at most 32 bytes, known or not. -/

/-- The cells from `offset` on. -/
def row (m : Memory) (offset length : Nat) : List (Option Cell) :=
  (List.range length).map fun i => m.cells[offset + i]?

/-- The bytes of a row of cells; the first that is not known ends the search. -/
def knownBytes? : List (Option Cell) → Option Bytes
  | [] => some []
  | cell :: rest =>
    match Cell.known? cell with
    | none => none
    | some b => (knownBytes? rest).map (b :: ·)

/-- The word at an offset, when all its bytes are known. -/
def knownWord? (m : Memory) (offset : Nat) : Option Word :=
  (knownBytes? (m.row offset 32)).map Word.ofBytes

/-- What was read of a range, the last cell first: its bytes while all of them are known, and the
tags of its symbolic values. -/
structure Region where
  bytes : Option Bytes := some []
  tags : List Nat := []

/-- Reads one more cell of a range. -/
def Region.read (r : Region) : Option Cell → Region
  | some (.byte b) => { r with bytes := r.bytes.map (b :: ·) }
  | none => { r with bytes := r.bytes.map (0 :: ·) }
  | some (.part value _) => { bytes := none, tags := value.tag :: r.tags }

/-- Reads a range. -/
def region (m : Memory) (offset length : Nat) : Region :=
  (m.row offset length).foldl Region.read {}

/-- The bytes of a range, when all are known. -/
def bytes? (m : Memory) (offset length : Nat) : Option Bytes :=
  (m.region offset length).bytes.map List.reverse

/-- The tags of the symbolic values in a range. -/
def tags (m : Memory) (offset length : Nat) : List Nat := (m.region offset length).tags.reverse

/-- What was read of a word, the last cell first. -/
structure Chunk where
  /-- The known bytes, with zeros for the others. -/
  known : Bytes := []
  /-- The bytes as terms. -/
  parts : List Term := []
  symbolic : Bool := false
  tags : List Nat := []

/-- Reads one more cell of a word. -/
def Chunk.read (c : Chunk) : Option Cell → Chunk
  | some (.byte b) =>
    { c with known := b :: c.known, parts := .const (BitVec.ofNat 256 b.toNat) :: c.parts }
  | none => { c with known := 0 :: c.known, parts := .const 0 :: c.parts }
  | some (.part value index) =>
    { known := 0 :: c.known
      parts := .applyBinary .byteOf (.const (BitVec.ofNat 256 index.val)) value.word :: c.parts
      symbolic := true
      tags := value.tag :: c.tags }

/-- The word that was read. -/
def Chunk.word (c : Chunk) : Term :=
  if c.symbolic then .concat c.parts.reverse else .const (Word.ofBytes c.known.reverse)

/-- Reads a word of at most 32 bytes. -/
def chunk (m : Memory) (offset length : Nat) : Chunk :=
  (m.row offset length).foldl Chunk.read {}

/-- The words of a range, the last of which may be shorter. -/
def words (m : Memory) (offset length : Nat) : List Term :=
  (List.range ((length + 31) / 32)).map fun k =>
    (m.chunk (offset + 32 * k) (min 32 (length - 32 * k))).word

/-- The symbolic value whose 32 bytes stand in a row from `offset` on. -/
def wholeValue? (m : Memory) (offset : Nat) : Option Value :=
  match m.cells[offset]? with
  | some (.part value _) =>
    let intact := (List.finRange 32).all fun i =>
      match m.cells[offset + i.val]? with
      | some (.part other index) => other.tag = value.tag && index = i
      | _ => false
    if intact then some value else none
  | _ => none

/-- A word read from memory, which may be a new value, and the tags it inherits from. -/
structure Loaded where
  memory : Memory
  value : Value
  supply : Supply
  inheritances : List Inheritance

/-- Reads a word. -/
def load (m : Memory) (s : Supply) (offset : Nat) : Loaded :=
  let memory := m.touch offset 32
  match m.wholeValue? offset with
  | some value => { memory, value, supply := s, inheritances := [] }
  | none =>
    let chunk := m.chunk offset 32
    let (value, supply) := s.value chunk.word
    { memory, value, supply, inheritances := [⟨value.tag, chunk.tags.reverse⟩] }

end Memory

end GuardFinder

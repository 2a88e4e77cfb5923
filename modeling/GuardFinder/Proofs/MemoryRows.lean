import GuardFinder.Memory

/-!
# Rows of cells

The loops that read memory go from cell to cell, each with what it has read so far. Here it is said
what a whole row of cells spells, and that every loop ends with that.

* `Memory.wordOf`, `Memory.tagsOf`: the word and the tags of a row.
* `Memory.foldl_read_region`, `Memory.foldl_read_chunk`: **what the loops have read after some
  cells**.
* `Memory.bytes?_eq`, `Memory.tags_eq`, `Memory.words_eq`, `Memory.load_eq`: what readers answer.
-/

namespace GuardFinder

namespace Cell

/-- The tag of the value that a cell belongs to. -/
def tag? : Cell → Option Nat
  | byte _ => none
  | part value _ => some value.tag

/-- The byte of a cell that may never have been written, as a term. -/
def term : Option Cell → Term
  | none => .const 0
  | some (byte b) => .const (BitVec.ofNat 256 b.toNat)
  | some (part value index) =>
    .applyBinary .byteOf (.const (BitVec.ofNat 256 index.val)) value.word

/-- The byte of a cell, or zero when it is not known. -/
def byteOrZero (cell : Option Cell) : UInt8 := (known? cell).getD 0

end Cell

namespace Memory

/-- The word that a row of at most 32 cells spells. -/
def wordOf (cells : List (Option Cell)) : Term :=
  match knownBytes? cells with
  | some bytes => .const (Word.ofBytes bytes)
  | none => .concat (cells.map Cell.term)

/-- The tags of the symbolic values in a row of cells. -/
def tagsOf (cells : List (Option Cell)) : List Nat := cells.filterMap (·.bind Cell.tag?)

theorem tagsOf_cons (cell : Option Cell) (rest : List (Option Cell)) :
    tagsOf (cell :: rest) = (cell.bind Cell.tag?).toList ++ tagsOf rest := by
  rw [tagsOf, List.filterMap_cons]
  cases cell.bind Cell.tag? <;> rfl

/-- The bytes of a row are known if none of them is unknown. -/
theorem knownBytes?_eq_ite (cells : List (Option Cell)) :
    knownBytes? cells =
      if cells.any (Cell.known? · = none) then none else some (cells.map Cell.byteOrZero) := by
  induction cells with
  | nil => rfl
  | cons cell rest ih =>
    rw [knownBytes?, ih, List.any_cons, List.map_cons, Cell.byteOrZero]
    cases Cell.known? cell with
    | none => rfl
    | some b => by_cases h : rest.any (Cell.known? · = none) = true <;> simp [h]

/-! ### Ranges -/

/-- **What is read of a range after some cells.** An unknown byte spoils the bytes before and after
it. -/
theorem foldl_read_region (cells : List (Option Cell)) (r : Region) :
    cells.foldl Region.read r =
      ⟨r.bytes.bind fun before => (knownBytes? cells).map fun bytes => bytes.reverse ++ before,
        (tagsOf cells).reverse ++ r.tags⟩ := by
  induction cells generalizing r with
  | nil => simp [knownBytes?, tagsOf]
  | cons cell rest ih =>
    rw [List.foldl_cons, ih, tagsOf_cons, knownBytes?]
    obtain ⟨before, tags⟩ := r
    rcases cell with - | b | ⟨value, index⟩
    · cases before <;> cases knownBytes? rest <;> simp [Region.read, Cell.known?]
    · cases before <;> cases knownBytes? rest <;> simp [Region.read, Cell.known?, Cell.tag?]
    · cases before <;> simp [Region.read, Cell.known?, Cell.tag?]

/-- The bytes of a range are those of its cells. -/
theorem bytes?_eq (m : Memory) (offset length : Nat) :
    m.bytes? offset length = knownBytes? (m.row offset length) := by
  rw [bytes?, region, foldl_read_region]
  cases knownBytes? (m.row offset length) <;> simp

theorem tags_eq (m : Memory) (offset length : Nat) :
    m.tags offset length = tagsOf (m.row offset length) := by
  rw [tags, region, foldl_read_region]
  simp

/-! ### Words -/

/-- **What is read of a word after some cells.** -/
theorem foldl_read_chunk (cells : List (Option Cell)) (c : Chunk) :
    cells.foldl Chunk.read c =
      ⟨(cells.map Cell.byteOrZero).reverse ++ c.known, (cells.map Cell.term).reverse ++ c.parts,
        c.symbolic || cells.any (Cell.known? · = none), (tagsOf cells).reverse ++ c.tags⟩ := by
  induction cells generalizing c with
  | nil => simp [tagsOf]
  | cons cell rest ih =>
    rw [List.foldl_cons, ih, tagsOf_cons]
    rcases cell with - | b | ⟨value, index⟩ <;>
      simp [Chunk.read, Cell.tag?, Cell.term, Cell.byteOrZero, Cell.known?]

/-- A word is that of its cells. -/
theorem word_chunk (m : Memory) (offset length : Nat) :
    (m.chunk offset length).word = wordOf (m.row offset length) := by
  rw [chunk, foldl_read_chunk, Chunk.word, wordOf, knownBytes?_eq_ite]
  cases (m.row offset length).any (Cell.known? · = none) <;> simp

theorem tags_chunk (m : Memory) (offset length : Nat) :
    (m.chunk offset length).tags.reverse = tagsOf (m.row offset length) := by
  rw [chunk, foldl_read_chunk]
  simp

theorem words_eq (m : Memory) (offset length : Nat) :
    m.words offset length = (List.range ((length + 31) / 32)).map fun k =>
      wordOf (m.row (offset + 32 * k) (min 32 (length - 32 * k))) := by
  simp only [words, word_chunk]

theorem load_eq (m : Memory) (s : Supply) (offset : Nat) :
    m.load s offset =
      match m.wholeValue? offset with
      | some value => ⟨m.touch offset 32, value, s, []⟩
      | none => ⟨m.touch offset 32, (s.value (wordOf (m.row offset 32))).1,
          (s.value (wordOf (m.row offset 32))).2,
          [⟨(s.value (wordOf (m.row offset 32))).1.tag, tagsOf (m.row offset 32)⟩]⟩ := by
  cases hwhole : m.wholeValue? offset <;> simp only [load, hwhole, word_chunk, tags_chunk]

end Memory

end GuardFinder

import GuardFinder.Proofs.Bytes
import GuardFinder.Proofs.Evm
import GuardFinder.Proofs.MemoryRows

/-!
# The bytes that memory spells

Let terms have words, such that single bytes of a word and bytes in a row are what they should be.
Then every cell of a path's memory is a byte, and the memory of a path is a memory of the machine.
Stores and loads of words do what the machine does, whatever mix of known bytes, parts of symbolic
values and unwritten bytes they meet. Nothing else has to be known about the words of terms.

* `Spelling`: words for all terms, in which bytes spell numbers.
* `Memory.bytesIn`: the bytes of memory.
* `Memory.bytesIn_storeWord`, `Memory.bytesIn_storeByte`: what a store changes.
* `Memory.word_load`: **a load gives the word that the bytes spell**. A value that comes back as a
  whole is recognised by its tag, so this needs memory in which values with one tag have one word
  (`Memory.Coherent`).
-/

namespace GuardFinder

/-! ### Words for terms -/

/-- Words for all terms, in which constants are themselves, `BYTE` picks a byte of a word and bytes
in a row spell a number. The words of all other terms are free. -/
structure Spelling where
  word : Term → Word
  word_const (w : Word) : word (.const w) = w
  word_byteOf (i : Fin 32) (t : Term) :
    word (.binary .byteOf (.const (BitVec.ofNat 256 i.val)) t) =
      BitVec.ofNat 256 (Word.byteAt (word t) i).toNat
  word_concat (bytes : List Term) :
    bytes.length ≤ 32 → (∀ t ∈ bytes, (word t).toNat < 256) →
      (word (.concat bytes)).toNat = bigEndian (bytes.map word)

/-- A byte operation picks the byte of a word. -/
theorem Evm.binary_byteOf (w : Word) (i : Fin 32) :
    Evm.binary .byteOf (BitVec.ofNat 256 i.val) w = BitVec.ofNat 256 (Word.byteAt w i).toNat := by
  have hi : (BitVec.ofNat 256 i.val).toNat = i.val := by
    rw [BitVec.toNat_ofNat]
    omega
  show (if (BitVec.ofNat 256 i.val).toNat < 32 then _ else _) = _
  rw [hi, if_pos i.isLt, Word.toNat_byteAt i.isLt]

/-- A byte as a word. -/
theorem toNat_ofNat_byte (b : UInt8) : (BitVec.ofNat 256 b.toNat).toNat = b.toNat := by
  have := b.toNat_lt
  rw [BitVec.toNat_ofNat, Nat.mod_eq_of_lt (by omega)]

theorem bigEndian_map_ofNat (bytes : Bytes) :
    bigEndian (bytes.map fun b => BitVec.ofNat 256 b.toNat) = Word.natOfBytes bytes := by
  unfold bigEndian Word.natOfBytes
  rw [List.foldl_map]
  congr 1
  funext n b
  rw [toNat_ofNat_byte]

namespace Spelling

variable (r : Spelling)

/-- Picking a byte has its meaning also where it is carried out at once. -/
theorem word_applyBinary_byteOf (i : Fin 32) (t : Term) :
    r.word (.applyBinary .byteOf (.const (BitVec.ofNat 256 i.val)) t) =
      BitVec.ofNat 256 (Word.byteAt (r.word t) i).toNat := by
  rcases Term.applyBinary_eq_or .byteOf (.const (BitVec.ofNat 256 i.val)) t with
    hkept | ⟨x, y, hx, rfl, hfolded⟩
  · rw [hkept, r.word_byteOf]
  · obtain rfl := Term.const.inj hx
    rw [hfolded, r.word_const, r.word_const, Evm.binary_byteOf]

end Spelling

/-! ### Cells -/

namespace Cell

/-- The byte of a cell that may never have been written. -/
def byteIn (r : Spelling) : Option Cell → UInt8
  | none => 0
  | some (byte b) => b
  | some (part value index) => Word.byteAt (r.word value.word) index

variable (r : Spelling)

theorem byteIn_of_known? {cell : Option Cell} {b : UInt8} (h : known? cell = some b) :
    byteIn r cell = b := by
  rcases cell with _ | b' | ⟨value, index⟩
  · exact Option.some.inj h
  · exact Option.some.inj h
  · exact absurd h nofun

/-- The term of a cell stands for its byte. -/
theorem word_term (cell : Option Cell) :
    r.word (term cell) = BitVec.ofNat 256 (byteIn r cell).toNat := by
  rcases cell with _ | b | ⟨value, index⟩
  · exact r.word_const _
  · exact r.word_const _
  · exact r.word_applyBinary_byteOf index value.word

theorem byteIn_mapValue (f : Value → Value) (hf : ∀ v, (f v).word = v.word)
    (cell : Option Cell) : byteIn r (cell.map (mapValue f)) = byteIn r cell := by
  rcases cell with _ | b | ⟨value, index⟩
  · rfl
  · rfl
  · simp only [Option.map_some, mapValue, byteIn, hf]

end Cell

namespace Memory

variable (r : Spelling)

/-! ### Rows of cells -/

theorem map_byteIn_of_knownBytes? {cells : List (Option Cell)} {bytes : Bytes}
    (h : knownBytes? cells = some bytes) : cells.map (Cell.byteIn r) = bytes := by
  induction cells generalizing bytes with
  | nil =>
    obtain rfl := Option.some.inj h
    rfl
  | cons cell rest ih =>
    rw [knownBytes?] at h
    split at h
    · cases h
    · next b hb =>
      obtain ⟨later, hlater, rfl⟩ := Option.map_eq_some_iff.mp h
      rw [List.map_cons, Cell.byteIn_of_known? r hb, ih hlater]

/-- **A row of cells stands for the number that its bytes spell.** -/
theorem toNat_wordOf {cells : List (Option Cell)} (h : cells.length ≤ 32) :
    (r.word (wordOf cells)).toNat = Word.natOfBytes (cells.map (Cell.byteIn r)) := by
  unfold wordOf
  split
  · next bytes hknown =>
    rw [r.word_const, ← map_byteIn_of_knownBytes? r hknown]
    exact Word.toNat_ofBytes (by rwa [List.length_map])
  · have hterms : (cells.map Cell.term).map r.word =
        (cells.map (Cell.byteIn r)).map fun b => BitVec.ofNat 256 b.toNat := by
      rw [List.map_map, List.map_map]
      exact List.map_congr_left fun cell _ => Cell.word_term r cell
    have hbytes : ∀ t ∈ cells.map Cell.term, (r.word t).toNat < 256 := by
      intro t ht
      obtain ⟨cell, -, rfl⟩ := List.mem_map.mp ht
      rw [Cell.word_term, toNat_ofNat_byte]
      exact UInt8.toNat_lt _
    rw [r.word_concat _ (by rwa [List.length_map]) hbytes, hterms, bigEndian_map_ofNat]

theorem word_wordOf {cells : List (Option Cell)} (h : cells.length ≤ 32) :
    r.word (wordOf cells) = Word.ofBytes (cells.map (Cell.byteIn r)) := by
  apply BitVec.eq_of_toNat_eq
  rw [toNat_wordOf r h, Word.toNat_ofBytes (by rwa [List.length_map])]

theorem length_row (m : Memory) (offset length : Nat) : (m.row offset length).length = length := by
  rw [row, List.length_map, List.length_range]

/-! ### Stores -/

/-- The bytes of memory. -/
def bytesIn (m : Memory) : Evm.Store := fun a => Cell.byteIn r m.cells[a]?

theorem map_byteIn_row (m : Memory) (offset length : Nat) :
    (m.row offset length).map (Cell.byteIn r) =
      (List.range length).map fun i => m.bytesIn r (offset + i) := by
  rw [row, List.map_map]
  rfl

theorem bytesIn_touch (m : Memory) (offset length : Nat) :
    (m.touch offset length).bytesIn r = m.bytesIn r := by
  unfold touch
  split <;> rfl

theorem getElem?_putCells (cells : Std.TreeMap Nat Cell) (offset : Nat) (row : List Cell)
    (a : Nat) :
    (putCells cells offset row)[a]? =
      if offset ≤ a ∧ a < offset + row.length then row[a - offset]? else cells[a]? := by
  induction row generalizing cells offset with
  | nil =>
    rw [List.length_nil, if_neg (by omega)]
    rfl
  | cons cell rest ih =>
    rw [putCells, ih, Std.TreeMap.getElem?_insert, List.length_cons]
    rcases Nat.lt_trichotomy a offset with hlt | heq | hgt
    · rw [if_neg (by omega), if_neg (by simp; omega), if_neg (by omega)]
    · subst heq
      rw [if_neg (by omega), if_pos (by simp), if_pos (by omega), Nat.sub_self]
      rfl
    · by_cases hin : a < offset + (rest.length + 1)
      · rw [if_pos (by omega), if_pos (by omega), show a - offset = (a - (offset + 1)) + 1 by omega,
          List.getElem?_cons_succ]
      · rw [if_neg (by omega), if_neg (by simp; omega), if_neg (by omega)]

theorem cells_write (m : Memory) (offset : Nat) (row : List Cell) :
    (m.write offset row).cells = putCells m.cells offset row := by
  unfold write touch
  simp only
  split <;> rfl

theorem getElem?_write (m : Memory) (offset : Nat) (row : List Cell) (a : Nat) :
    (m.write offset row).cells[a]? =
      if offset ≤ a ∧ a < offset + row.length then row[a - offset]? else m.cells[a]? := by
  rw [cells_write, getElem?_putCells]

theorem length_ofValue (v : Value) : (Cell.ofValue v 32).length = 32 := by
  simp [Cell.ofValue]

theorem getElem?_ofValue (v : Value) {i : Nat} (h : i < 32) :
    (Cell.ofValue v 32)[i]? = some (.part v ⟨i, h⟩) := by
  simp [Cell.ofValue, h]

/-- **Storing a word writes its bytes.** -/
theorem bytesIn_storeWord (m : Memory) (offset : Nat) (v : Value) :
    (m.storeWord offset v).bytesIn r = (m.bytesIn r).putWord offset (r.word v.word) := by
  funext a
  unfold storeWord bytesIn Evm.Store.putWord
  split
  · next w hw =>
    have hword : r.word v.word = w := by rw [Term.eq_const_of_const? hw, r.word_const]
    rw [getElem?_write, List.length_map, Word.length_toBytes, hword]
    split
    · rw [List.getElem?_map, Word.getElem?_toBytes (by omega)]
      rfl
    · rfl
  · rw [getElem?_write, length_ofValue]
    split
    · rw [getElem?_ofValue v (by omega)]
      rfl
    · rfl

/-- **Storing a byte writes the last byte of the word.** -/
theorem bytesIn_storeByte (m : Memory) (offset : Nat) (v : Value) :
    (m.storeByte offset v).bytesIn r = (m.bytesIn r).putByte offset (r.word v.word) := by
  funext a
  unfold storeByte bytesIn Evm.Store.putByte
  split
  · next w hw =>
    have hword : r.word v.word = w := by rw [Term.eq_const_of_const? hw, r.word_const]
    rw [getElem?_write, hword]
    by_cases ha : a = offset
    · subst ha
      simp [Cell.byteIn]
    · rw [if_neg (by simp; omega), if_neg ha]
  · rw [getElem?_write]
    by_cases ha : a = offset
    · subst ha
      simp only [List.length_singleton, Nat.le_refl, Nat.lt_add_one, and_self, if_true,
        Nat.sub_self]
      rfl
    · rw [if_neg (by simp; omega), if_neg ha]

theorem getElem?_mapValues (m : Memory) (f : Value → Value) (a : Nat) :
    (m.mapValues f).cells[a]? = m.cells[a]?.map (Cell.mapValue f) := by
  simp [mapValues]

/-- New tags change no byte. -/
theorem bytesIn_mapValues (m : Memory) (f : Value → Value) (hf : ∀ v, (f v).word = v.word) :
    (m.mapValues f).bytesIn r = m.bytesIn r := by
  funext a
  unfold bytesIn
  rw [getElem?_mapValues, Cell.byteIn_mapValue r f hf]

/-! ### Loads -/

/-- Values in memory that have one tag have one word. -/
def Coherent (m : Memory) : Prop :=
  ∀ ⦃a b : Nat⦄ ⦃v w : Value⦄ ⦃i j : Fin 32⦄, m.cells[a]? = some (.part v i) →
    m.cells[b]? = some (.part w j) → v.tag = w.tag → v.word = w.word

/-- A value that comes back as a whole has its 32 bytes in a row. -/
theorem getElem?_of_wholeValue? {m : Memory} {offset : Nat} {value : Value}
    (h : m.wholeValue? offset = some value) :
    ∃ index, m.cells[offset]? = some (.part value index) ∧
      ∀ i : Fin 32, ∃ other : Value, other.tag = value.tag ∧
        m.cells[offset + i.val]? = some (.part other i) := by
  unfold wholeValue? at h
  split at h
  · next first index hfirst =>
    simp only at h
    split at h
    · next hintact =>
      obtain rfl := Option.some.inj h
      refine ⟨index, hfirst, fun i => ?_⟩
      have hi := List.all_eq_true.mp hintact i (List.mem_finRange i)
      split at hi
      · next other j hcell =>
        simp only [Bool.and_eq_true, decide_eq_true_eq] at hi
        obtain ⟨htag, rfl⟩ := hi
        exact ⟨other, htag, hcell⟩
      · exact absurd hi (by decide)
    · exact absurd h nofun
  · exact absurd h nofun

theorem word_wholeValue? {m : Memory} (hm : m.Coherent) {offset : Nat} {value : Value}
    (h : m.wholeValue? offset = some value) :
    r.word value.word = (m.bytesIn r).word offset := by
  obtain ⟨index, hfirst, hparts⟩ := getElem?_of_wholeValue? h
  have hbytes : (List.range 32).map (fun i => m.bytesIn r (offset + i)) =
      Word.toBytes (r.word value.word) := by
    refine List.map_congr_left fun i hi => ?_
    obtain ⟨other, htag, hcell⟩ := hparts ⟨i, List.mem_range.mp hi⟩
    have hword : other.word = value.word := hm hcell hfirst htag
    rw [bytesIn, hcell, Cell.byteIn, hword]
  rw [Evm.Store.word, hbytes, Word.ofBytes_toBytes]

/-- **A load gives the word that the bytes spell.** -/
theorem word_load {m : Memory} (hm : m.Coherent) (s : Supply) (offset : Nat) :
    r.word (m.load s offset).value.word = (m.bytesIn r).word offset := by
  rw [load_eq]
  split
  · next value h => exact word_wholeValue? r hm h
  · simp only [Supply.value]
    rw [word_wordOf r (Nat.le_of_eq (m.length_row offset 32)), map_byteIn_row]
    rfl

theorem memory_load (m : Memory) (s : Supply) (offset : Nat) :
    (m.load s offset).memory = m.touch offset 32 := by
  unfold load
  split <;> rfl

end Memory

end GuardFinder

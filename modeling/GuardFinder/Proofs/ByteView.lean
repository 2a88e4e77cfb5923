import GuardFinder.Proofs.Spelling

/-!
# The bytes of memory

Under a valuation every cell of a path's memory is a byte, so the memory of a path is a memory of
the machine.

* `Valuation.spelling`: under a valuation bytes spell numbers.
* `Memory.bytesUnder`: the bytes of memory under a valuation.
* `Memory.bytesUnder_storeWord`, `Memory.bytesUnder_storeByte`: what a store changes.
* `Memory.eval_load`: **a load gives the word that the bytes spell**.
-/

namespace GuardFinder

/-- A word has room for the number that at most 32 words spell, each of which is a byte. -/
theorem bigEndian_lt {words : List Word} (hlength : words.length ≤ 32)
    (h : ∀ w ∈ words, w.toNat < 256) : bigEndian words < 2 ^ 256 := by
  have hwords : (words.map fun w => UInt8.ofNat w.toNat).map
      (fun b => BitVec.ofNat 256 b.toNat) = words := by
    rw [List.map_map]
    refine (List.map_congr_left fun w hw => ?_).trans words.map_id
    apply BitVec.eq_of_toNat_eq
    rw [Function.comp_apply, toNat_ofNat_byte, UInt8.toNat_ofNat', Nat.mod_eq_of_lt (h w hw)]
    rfl
  rw [← hwords, bigEndian_map_ofNat, ← Word.toNat_ofBytes (by rwa [List.length_map])]
  exact BitVec.isLt _

/-- Under a valuation bytes spell numbers. -/
def Valuation.spelling (ρ : Valuation) : Spelling where
  word := Term.eval ρ
  word_const := Term.eval_const ρ
  word_byteOf i t := by rw [Term.eval, Term.eval_const, Evm.binary_byteOf]
  word_concat bytes hlength hbytes := by
    rw [Term.eval, Term.evals_eq_map, BitVec.toNat_ofNat]
    refine Nat.mod_eq_of_lt (bigEndian_lt (by rwa [List.length_map]) fun w hw => ?_)
    obtain ⟨t, ht, rfl⟩ := List.mem_map.mp hw
    exact hbytes t ht

/-! ### Cells -/

namespace Cell

/-- The byte of a cell that may never have been written. -/
def byteUnder (ρ : Valuation) : Option Cell → UInt8
  | none => 0
  | some (byte b) => b
  | some (part value index) => Word.byteAt (value.word.eval ρ) index

theorem byteUnder_eq (ρ : Valuation) (cell : Option Cell) :
    byteUnder ρ cell = byteIn ρ.spelling cell := by
  rcases cell with _ | b | ⟨value, index⟩
  · rfl
  · rfl
  · rfl

/-- The term of a cell stands for its byte. -/
theorem eval_term (ρ : Valuation) (cell : Option Cell) :
    (term cell).eval ρ = BitVec.ofNat 256 (byteUnder ρ cell).toNat := by
  rw [byteUnder_eq]
  exact word_term ρ.spelling cell

end Cell

namespace Memory

theorem map_byteUnder_of_knownBytes? {cells : List (Option Cell)} {bytes : Bytes}
    (h : knownBytes? cells = some bytes) (ρ : Valuation) :
    cells.map (Cell.byteUnder ρ) = bytes := by
  rw [funext (Cell.byteUnder_eq ρ)]
  exact map_byteIn_of_knownBytes? ρ.spelling h

/-! ### Stores and loads -/

/-- The bytes of memory under a valuation. -/
def bytesUnder (ρ : Valuation) (m : Memory) : Evm.Store := fun a => Cell.byteUnder ρ m.cells[a]?

theorem bytesUnder_eq (ρ : Valuation) (m : Memory) : m.bytesUnder ρ = m.bytesIn ρ.spelling :=
  funext fun _ => Cell.byteUnder_eq ρ _

theorem bytesUnder_touch (ρ : Valuation) (m : Memory) (offset length : Nat) :
    (m.touch offset length).bytesUnder ρ = m.bytesUnder ρ := by
  rw [bytesUnder_eq, bytesUnder_eq, bytesIn_touch]

/-- **Storing a word writes its bytes.** -/
theorem bytesUnder_storeWord (ρ : Valuation) (m : Memory) (offset : Nat) (v : Value) :
    (m.storeWord offset v).bytesUnder ρ = (m.bytesUnder ρ).putWord offset (v.word.eval ρ) := by
  rw [bytesUnder_eq, bytesUnder_eq, bytesIn_storeWord]
  rfl

/-- **Storing a byte writes the last byte of the word.** -/
theorem bytesUnder_storeByte (ρ : Valuation) (m : Memory) (offset : Nat) (v : Value) :
    (m.storeByte offset v).bytesUnder ρ = (m.bytesUnder ρ).putByte offset (v.word.eval ρ) := by
  rw [bytesUnder_eq, bytesUnder_eq, bytesIn_storeByte]
  rfl

/-- New tags change no byte. -/
theorem bytesUnder_mapValues (ρ : Valuation) (m : Memory) (f : Value → Value)
    (hf : ∀ v, (f v).word = v.word) : (m.mapValues f).bytesUnder ρ = m.bytesUnder ρ := by
  rw [bytesUnder_eq, bytesUnder_eq, bytesIn_mapValues _ m f hf]

/-- **A load gives the word that the bytes spell.** -/
theorem eval_load {m : Memory} (hm : m.Coherent) (s : Supply) (offset : Nat) (ρ : Valuation) :
    (m.load s offset).value.word.eval ρ = (m.bytesUnder ρ).word offset := by
  rw [bytesUnder_eq]
  exact word_load ρ.spelling hm s offset

end Memory

end GuardFinder

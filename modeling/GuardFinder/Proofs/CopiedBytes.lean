import GuardFinder.Proofs.ByteArrays
import GuardFinder.Proofs.Deduplication
import GuardFinder.Proofs.ReturnedCode

/-!
# What the copy instructions write

The machine copies bytes of the call data or of the code to memory, and zeros for what lies past
their end. A source offset is any word, and the offsets that follow it are counted without bound.
Paths copy the same bytes as long as the offsets stay small. Call data is copied word by word, and
the offset of a word is counted modulo the number of words. Code is copied only from an offset that
is a size, and from any other one nothing is written, not even zeros.

* `Evm.callDataWord`, `Valuation.CalledWith`: valuations with given bytes for call data.
* `getElem?_copyCallData`, `getElem?_copyCode`: the cells after a copy.
* `copied_bytes`: **which bytes the copy instructions write**, for all source offsets.
-/

namespace GuardFinder

/-! ### Call data -/

/-- The word of call data at an offset, with zeros past the end of the data. -/
def Evm.callDataWord (data : Bytes) (offset : Nat) : Word :=
  Word.ofBytes ((List.range 32).map fun i => data.getD (offset + i) 0)

theorem Evm.byteAt_callDataWord (data : Bytes) (offset : Nat) {i : Nat} (h : i < 32) :
    Word.byteAt (callDataWord data offset) i = data.getD (offset + i) 0 := by
  rw [callDataWord, Word.byteAt_ofBytes (by rw [List.length_map, List.length_range]) h,
    List.getD_eq_getElem?_getD, List.getElem?_map, List.getElem?_range h]
  rfl

/-- The transaction has the given call data. -/
def Valuation.CalledWith (ρ : Valuation) (data : Bytes) : Prop :=
  ∀ offset : Word, ρ.callData offset = Evm.callDataWord data offset.toNat

/-- A transaction with call data, in which all else is zero. -/
def Valuation.callOf (data : Bytes) : Valuation where
  env _ := 0
  callData offset := Evm.callDataWord data offset.toNat
  storage _ := 0
  query _ _ := 0
  hash _ := 0
  havoc _ _ := 0

theorem Valuation.calledWith_callOf (data : Bytes) : (callOf data).CalledWith data := fun _ => rfl

theorem Evm.toNat_binary_add (x y : Word) :
    (binary .add x y).toNat = (x.toNat + y.toNat) % Word.count :=
  BitVec.toNat_ofNat ..

/-- The word of a copy at a distance from its source. -/
theorem Valuation.CalledWith.eval_callData {ρ : Valuation} {data : Bytes} (h : ρ.CalledWith data)
    {source : Term} {v : Word} (hsource : source.const? = some v) {distance : Nat}
    (hdistance : distance < Word.count) :
    (Term.callData (.applyBinary .add source (.const (BitVec.ofNat 256 distance)))).eval ρ =
      Evm.callDataWord data ((v.toNat + distance) % Word.count) := by
  have hword : (BitVec.ofNat 256 distance).toNat = distance := Nat.mod_eq_of_lt hdistance
  rw [Term.eval, h, Term.eval_applyBinary, Evm.toNat_binary_add, Term.eval_of_const? hsource,
    Term.eval_const, hword]

/-! ### Code -/

theorem length_codeBytes (code : Bytes) (offset length : Nat) :
    (codeBytes code offset length).length = length := by
  rw [codeBytes, List.length_append, List.length_replicate, List.length_take]
  omega

theorem getElem?_codeBytes (code : Bytes) (offset : Nat) {length i : Nat} (h : i < length) :
    (codeBytes code offset length)[i]? = some (code.getD (offset + i) 0) := by
  rw [codeBytes, List.getElem?_append, List.length_take, List.length_drop,
    List.getD_eq_getElem?_getD]
  by_cases hi : offset + i < code.length
  · rw [if_pos (by omega), List.getElem?_take_of_lt h, List.getElem?_drop,
      List.getElem?_eq_getElem hi, Option.getD_some]
  · rw [if_neg (by omega), List.getElem?_replicate, if_pos (by omega),
      List.getElem?_eq_none (Nat.le_of_not_lt hi), Option.getD_none]

/-! ### Copies -/

section

variable {destination source length : Value} {o n : Nat}

theorem getElem?_copyCallData (h : memoryRange? destination length = some (o, n)) (m : Memory)
    (s : Supply) (a : Nat) :
    (copyCallData m s destination source length).1.cells[a]? =
      if o ≤ a ∧ a < o + n then
        some (.part ⟨.callData (.applyBinary .add source.word
            (.const (BitVec.ofNat 256 (32 * ((a - o) / 32))))), s.nextTag + (a - o) / 32⟩
          (Fin.ofNat 32 (a - o)))
      else m.cells[a]? := by
  simp only [copyCallData, h]
  exact Memory.getElem?_storeSymbolic ..

theorem getElem?_copyCode (h : memoryRange? destination length = some (o, n)) {start : Nat}
    (hstart : source.size? = some start) (m : Memory) (code : Bytes) (a : Nat) :
    (copyCode m code destination source length).cells[a]? =
      if o ≤ a ∧ a < o + n then some (.byte (code.getD (start + (a - o)) 0))
      else m.cells[a]? := by
  simp only [copyCode, h, hstart, Memory.storeBytes]
  rw [Memory.getElem?_write, List.length_map, length_codeBytes]
  split
  · next ha =>
    rw [List.getElem?_map, getElem?_codeBytes code start (by omega), Option.map_some]
  · rfl

/-- From an offset that is no size, no code is copied. -/
theorem copyCode_of_size?_eq_none (h : source.size? = none) (m : Memory) (code : Bytes) :
    copyCode m code destination source length = m := by
  simp only [copyCode, h]

/-- **A byte of copied call data**: the word that it belongs to is the one at the offset modulo the
number of words. -/
theorem bytesUnder_copyCallData (h : memoryRange? destination length = some (o, n))
    (hn : n ≤ Memory.limit) {v : Word} (hsource : source.const? = some v) {ρ : Valuation}
    {data : Bytes} (hdata : ρ.CalledWith data) (m : Memory) (s : Supply) {i : Nat} (hi : i < n) :
    (copyCallData m s destination source length).1.bytesUnder ρ (o + i) =
      data.getD ((v.toNat + 32 * (i / 32)) % Word.count + i % 32) 0 := by
  have hdistance : 32 * (i / 32) < Word.count :=
    calc 32 * (i / 32) ≤ i := Nat.mul_div_le i 32
      _ < Memory.limit := Nat.lt_of_lt_of_le hi hn
      _ < Word.count := by decide
  rw [Memory.bytesUnder, getElem?_copyCallData h, if_pos (by omega), Nat.add_sub_cancel_left,
    Cell.byteUnder, hdata.eval_callData hsource hdistance]
  exact Evm.byteAt_callDataWord _ _ (Nat.mod_lt i (by decide))

end

/-- **Which bytes the copy instructions write.** Copied call data has the bytes of the data, and
zeros past its end, in all words that begin below the number of words; those that follow have the
bytes from the start of the data on. Copied code has the bytes of the code, and zeros past its end,
if the source offset fits 64 bits; otherwise memory stays as it was. Nothing else is written. -/
theorem copied_bytes {destination source length : Value} {d v n : Word}
    (hdestination : destination.const? = some d) (hsource : source.const? = some v)
    (hlength : length.const? = some n) (hlimit : d.toNat + n.toNat ≤ Memory.limit)
    {ρ : Valuation} {data : Bytes} (hdata : ρ.CalledWith data) (m : Memory) (s : Supply)
    (code : Bytes) :
    (∀ i < n.toNat, (copyCallData m s destination source length).1.bytesUnder ρ (d.toNat + i) =
      if v.toNat + 32 * (i / 32) < Word.count then data.getD (v.toNat + i) 0
      else data.getD (v.toNat + i - Word.count) 0) ∧
    (v.toNat < UInt64.size → ∀ i < n.toNat,
      (copyCode m code destination source length).cells[d.toNat + i]? =
        some (.byte (code.getD (v.toNat + i) 0))) ∧
    (UInt64.size ≤ v.toNat → copyCode m code destination source length = m) ∧
    ∀ a, ¬(d.toNat ≤ a ∧ a < d.toNat + n.toNat) →
      (copyCallData m s destination source length).1.cells[a]? = m.cells[a]? ∧
      (copyCode m code destination source length).cells[a]? = m.cells[a]? := by
  have hrange : memoryRange? destination length = some (d.toNat, n.toNat) :=
    memoryRange?_eq_some_iff.mpr ⟨d, n, hdestination, hlength, rfl, rfl, hlimit⟩
  have hsize : source.size? = Word.size? v := by rw [Value.size?, hsource, Option.bind_some]
  have hsmall (h : v.toNat < UInt64.size) : source.size? = some v.toNat :=
    hsize.trans ((Word.size?_eq_ite v).trans (if_pos h))
  have hlarge (h : UInt64.size ≤ v.toNat) : source.size? = none :=
    hsize.trans ((Word.size?_eq_ite v).trans (if_neg (Nat.not_lt_of_le h)))
  refine ⟨fun i hi => ?_, fun h i hi => ?_, fun h => copyCode_of_size?_eq_none (hlarge h) m code,
    fun a ha => ⟨?_, ?_⟩⟩
  · rw [bytesUnder_copyCallData hrange (Nat.le_of_add_left_le hlimit) hsource hdata m s hi]
    have hv := v.toNat_lt_count
    split
    · next hword =>
      rw [Nat.mod_eq_of_lt hword, Nat.add_assoc, Nat.div_add_mod]
    · next hword =>
      -- the offset of a word is below twice the number of words
      have hcount : Memory.limit ≤ Word.count := by decide
      have hwrap : (v.toNat + 32 * (i / 32)) % Word.count =
          v.toNat + 32 * (i / 32) - Word.count := by
        rw [Nat.mod_eq_sub_mod (Nat.le_of_not_lt hword), Nat.mod_eq_of_lt (by omega)]
      rw [hwrap, show v.toNat + 32 * (i / 32) - Word.count + i % 32 =
        v.toNat + i - Word.count by omega]
  · rw [getElem?_copyCode hrange (hsmall h), if_pos (by omega), Nat.add_sub_cancel_left]
  · rw [getElem?_copyCallData hrange, if_neg ha]
  · by_cases h : v.toNat < UInt64.size
    · rw [getElem?_copyCode hrange (hsmall h), if_neg ha]
    · rw [copyCode_of_size?_eq_none (hlarge (Nat.le_of_not_lt h))]

/-- Memory in which the first word has all bits set. -/
def filledMemory : Memory := Memory.storeBytes {} 0 (List.replicate 32 0xff)

/-- A copy of a word and one more byte, of which only the first bytes lie within data and code. -/
theorem copied_bytes_short :
    (Valuation.callOf [7, 8, 9]).CalledWith [7, 8, 9] ∧
    (copyCallData filledMemory {} ⟨.const 3, 0⟩ ⟨.const 1, 1⟩ ⟨.const 33, 2⟩).1.bytesUnder
      (.callOf [7, 8, 9]) 4 = 9 ∧
    (copyCode filledMemory [7, 8, 9] ⟨.const 3, 0⟩ ⟨.const 1, 1⟩ ⟨.const 33, 2⟩).cells[5]? =
      some (.byte 0) ∧
    (copyCode filledMemory [7, 8, 9] ⟨.const 3, 0⟩ ⟨.const 1, 1⟩ ⟨.const 33, 2⟩).cells[2]? =
      some (.byte 0xff) := by
  have hdata := Valuation.calledWith_callOf [7, 8, 9]
  have hdestination : (Value.mk (.const 3) 0).const? = some 3 := rfl
  have hsource : (Value.mk (.const 1) 1).const? = some 1 := rfl
  have hlength : (Value.mk (.const 33) 2).const? = some 33 := rfl
  obtain ⟨hcallData, hcode, -, hrest⟩ := copied_bytes hdestination hsource hlength (by decide) hdata
    filledMemory {} [7, 8, 9]
  refine ⟨hdata, (hcallData 1 (by decide)).trans (by decide), ?_, ?_⟩
  · exact (hcode (by decide) 2 (by decide)).trans (by decide)
  · exact (hrest 2 (by decide)).2.trans (by decide +kernel)

/-- Code that stores a 7, copies a word of code from the offset `2 ^ 64` over it, and checks the
owner if the word is not zero. -/
def staleWordCode : Bytes :=
  [0x60, 0x07, 0x5f, 0x52, 0x60, 0x20, 0x68, 0x01, 0x00, 0x00, 0x00, 0x00, 0x00, 0x00, 0x00, 0x00,
   0x5f, 0x39, 0x5f, 0x51, 0x60, 0x18, 0x57, 0x00, 0x5b, 0x33, 0x5f, 0x54, 0x14, 0x60, 0x21, 0x57,
   0x00, 0x5b, 0x00]

/-- Code that copies two words of call data from the last word offset on, and checks the owner if
the second one starts with the selector 7. -/
def wrappedWordCode : Bytes :=
  [0x60, 0x40, 0x7f] ++ List.replicate 31 0xff ++
  [0xe0, 0x5f, 0x37, 0x60, 0x20, 0x51, 0x60, 0xe0, 0x1c, 0x60, 0x07, 0x14, 0x60, 0x32, 0x57, 0x00,
   0x5b, 0x33, 0x5f, 0x54, 0x14, 0x60, 0x3b, 0x57, 0x00, 0x5b, 0x00]

/-- Past the last offset, call data starts again, and code leaves what was there; either can show a
guard that no transaction meets. -/
theorem copied_bytes_past_end :
    (copyCallData {} {} ⟨.const 0, 0⟩
        ⟨.const 0xffffffffffffffffffffffffffffffffffffffffffffffffffffffffffffffe0, 1⟩
        ⟨.const 64, 2⟩).1.bytesUnder (.callOf [7]) 32 = 7 ∧
    (copyCode filledMemory [] ⟨.const 0, 0⟩ ⟨.const 0x10000000000000000, 1⟩
        ⟨.const 32, 2⟩).cells[0]? = some (.byte 0xff) ∧
    (Analysis.ofPatterns {} [.ownership]).listed (.deployed ⟨0⟩ wrappedWordCode) none =
      .ok [[{ functionName := "_function_0x00000007", slot := some 0 }]] ∧
    (Analysis.ofPatterns {} [.ownership]).listed (.deployed ⟨0⟩ staleWordCode) none =
      .ok [[{ functionName := "fallback", slot := some 0 }]] := by
  refine ⟨?_, ?_, ?_, ?_⟩ <;> decide +kernel

end GuardFinder

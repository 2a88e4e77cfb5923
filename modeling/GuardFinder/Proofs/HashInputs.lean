import GuardFinder.Proofs.ByteView
import GuardFinder.Proofs.Deduplication

/-!
# What hashes tell about their inputs

The hash of a range of memory that is not wholly known is a term, made of a word for every 32 bytes
and one for the rest. A word with unknown bytes lists its bytes, so it tells how many they are. A
word of known bytes is just the number that they spell, and leading zeros are lost: where the rest
of a range is known, ranges of different lengths can have the same hash term.

* `Memory.spelled_eq_of_wordOf`: what the word of a row tells about the row.
* `Memory.Hashes`: an instruction that leaves such a term on the stack.
* `Memory.hashed_bytes_agree`: **ranges with the same hash term have the same bytes, or differ only
  in leading zeros of a known rest**.
-/

namespace GuardFinder

/-! ### Rows of cells -/

/-- Terms of bytes are the same only if the bytes are. -/
theorem Cell.byteUnder_eq_of_term_eq {cell cell' : Option Cell} (h : term cell = term cell')
    (ρ : Valuation) : byteUnder ρ cell = byteUnder ρ cell' := by
  have hword := congrArg (fun t => (Term.eval ρ t).toNat) h
  have hb := (byteUnder ρ cell).toNat_lt
  have hb' := (byteUnder ρ cell').toNat_lt
  simp only [eval_term, BitVec.toNat_ofNat] at hword
  rw [Nat.mod_eq_of_lt (by omega), Nat.mod_eq_of_lt (by omega)] at hword
  exact UInt8.toNat_inj.mp hword

namespace Memory

/-- The bytes of a range under a valuation. -/
def spelled (ρ : Valuation) (m : Memory) (offset length : Nat) : Bytes :=
  (m.row offset length).map (Cell.byteUnder ρ)

theorem row_add (m : Memory) (offset a b : Nat) :
    m.row offset (a + b) = m.row offset a ++ m.row (offset + a) b := by
  unfold row
  rw [List.range_add, List.map_append, List.map_map]
  simp only [Function.comp_def, Nat.add_assoc]

theorem spelled_add (ρ : Valuation) (m : Memory) (offset a b : Nat) :
    m.spelled ρ offset (a + b) = m.spelled ρ offset a ++ m.spelled ρ (offset + a) b := by
  unfold spelled
  rw [row_add, List.map_append]

theorem length_spelled (ρ : Valuation) (m : Memory) (offset length : Nat) :
    (m.spelled ρ offset length).length = length := by
  rw [spelled, List.length_map, length_row]

theorem length_of_knownBytes? {cells : List (Option Cell)} {bytes : Bytes}
    (h : knownBytes? cells = some bytes) : bytes.length = cells.length := by
  fun_induction knownBytes? cells generalizing bytes with
  | case1 =>
    obtain rfl := Option.some.inj h
    rfl
  | case2 => exact absurd h nofun
  | case3 cell rest b _ ih =>
    obtain ⟨later, hlater, rfl⟩ := Option.map_eq_some_iff.mp h
    rw [List.length_cons, List.length_cons, ih hlater]

theorem length_of_bytes? {m : Memory} {offset length : Nat} {bytes : Bytes}
    (h : m.bytes? offset length = some bytes) : bytes.length = length :=
  (length_of_knownBytes? (m.bytes?_eq offset length ▸ h)).trans (m.length_row offset length)

theorem spelled_of_bytes? {m : Memory} {offset length : Nat} {bytes : Bytes}
    (h : m.bytes? offset length = some bytes) (ρ : Valuation) :
    m.spelled ρ offset length = bytes :=
  map_byteUnder_of_knownBytes? (m.bytes?_eq offset length ▸ h) ρ

variable {m m' : Memory} {offset offset' length length' : Nat}

/-- **What the word of a row tells about the row**: its length and its bytes, or, where all bytes
are known, the number that they spell. -/
theorem spelled_eq_of_wordOf (hrow : length ≤ 32) (hrow' : length' ≤ 32)
    (h : wordOf (m.row offset length) = wordOf (m'.row offset' length')) :
    (length = length' ∧ ∀ ρ, m.spelled ρ offset length = m'.spelled ρ offset' length') ∨
      ∃ bytes bytes', m.bytes? offset length = some bytes ∧
        m'.bytes? offset' length' = some bytes' ∧
        Word.natOfBytes bytes = Word.natOfBytes bytes' := by
  rw [wordOf, wordOf, ← bytes?_eq, ← bytes?_eq] at h
  split at h <;> split at h
  · next bytes hbytes _ bytes' hbytes' =>
    refine .inr ⟨bytes, bytes', hbytes, hbytes', Word.natOfBytes_eq_of_ofBytes_eq ?_ ?_ ?_⟩
    · rwa [length_of_bytes? hbytes]
    · rwa [length_of_bytes? hbytes']
    · exact Term.const.inj h
  · cases h
  · cases h
  · have hterms := Term.concat.inj h
    have hlength := congrArg List.length hterms
    rw [List.length_map, List.length_map, length_row, length_row] at hlength
    refine .inl ⟨hlength, fun ρ => List.ext_getElem? fun i => ?_⟩
    have hterm := congrArg (·[i]?) hterms
    simp only [List.getElem?_map] at hterm
    unfold spelled
    rw [List.getElem?_map, List.getElem?_map]
    cases hcell : (m.row offset length)[i]? with
    | none =>
      rw [hcell, Option.map_none, eq_comm, Option.map_eq_none_iff] at hterm
      rw [hterm]
    | some cell =>
      rw [hcell, Option.map_some, eq_comm, Option.map_eq_some_iff] at hterm
      obtain ⟨cell', hcell', hterm⟩ := hterm
      rw [hcell', Option.map_some, Option.map_some, Cell.byteUnder_eq_of_term_eq hterm.symm ρ]

/-- Rows of one length with the same word have the same bytes. -/
theorem spelled_eq_of_wordOf_of_length (hrow : length ≤ 32)
    (h : wordOf (m.row offset length) = wordOf (m'.row offset' length)) (ρ : Valuation) :
    m.spelled ρ offset length = m'.spelled ρ offset' length := by
  rcases spelled_eq_of_wordOf hrow hrow h with ⟨-, hbytes⟩ | ⟨bytes, bytes', hb, hb', hnat⟩
  · exact hbytes ρ
  · have hlength : (m.spelled ρ offset length).length = (m'.spelled ρ offset' length).length := by
      rw [length_spelled, length_spelled]
    rw [spelled_of_bytes? hb ρ, spelled_of_bytes? hb' ρ] at hlength ⊢
    exact Word.eq_of_natOfBytes_eq hlength hnat

/-- Ranges of whole words that are the same have the same bytes. -/
theorem spelled_eq_of_words {k : Nat}
    (h : ∀ j < k, wordOf (m.row (offset + 32 * j) 32) = wordOf (m'.row (offset' + 32 * j) 32))
    (ρ : Valuation) : m.spelled ρ offset (32 * k) = m'.spelled ρ offset' (32 * k) := by
  induction k with
  | zero => rfl
  | succ k ih =>
    have hfront := ih fun j hj => h j (Nat.lt_succ_of_lt hj)
    have hlast := spelled_eq_of_wordOf_of_length (Nat.le_refl 32) (h k (Nat.lt_succ_self k)) ρ
    rw [Nat.mul_succ, spelled_add, spelled_add, hfront, hlast]

/-! ### Hashes -/

theorem words_eq_of_hashOf {words : List Term} (h : (hashOf m offset length).1 = .keccak words) :
    m.bytes? offset length = none ∧ words = m.words offset length := by
  unfold hashOf at h
  split at h
  · cases h
  · next hnone => exact ⟨hnone, (Term.keccak.inj h).symm⟩

/-- Ranges with the same words have as many of them, and each is the same. -/
theorem wordOf_eq_of_words_eq (h : m.words offset length = m'.words offset' length') :
    (length + 31) / 32 = (length' + 31) / 32 ∧ ∀ k < (length + 31) / 32,
      wordOf (m.row (offset + 32 * k) (min 32 (length - 32 * k))) =
        wordOf (m'.row (offset' + 32 * k) (min 32 (length' - 32 * k))) := by
  have hcount := congrArg List.length h
  simp only [words, List.length_map, List.length_range] at hcount
  refine ⟨hcount, fun k hk => ?_⟩
  rw [words_eq, words_eq, ← hcount] at h
  exact List.map_inj_left.mp h k (List.mem_range.mpr hk)

/-- Ranges differ only in leading zeros of a rest that is known: after the same whole words, they
end with known bytes that spell the same number. -/
def DiffersInZeros (m : Memory) (offset length : Nat) (m' : Memory) (offset' length' : Nat) : Prop :=
  length ≠ length' ∧ ∃ front bytes bytes', bytes.length ≤ 32 ∧ bytes'.length ≤ 32 ∧
    Word.natOfBytes bytes = Word.natOfBytes bytes' ∧ length = 32 * front + bytes.length ∧
    length' = 32 * front + bytes'.length ∧
    ∀ ρ, m.spelled ρ offset length = m.spelled ρ offset (32 * front) ++ bytes ∧
      m'.spelled ρ offset' length' = m.spelled ρ offset (32 * front) ++ bytes'

/-- **Ranges with the same words have the same bytes, or differ only in leading zeros of a known
rest.** -/
theorem spelled_eq_or_of_words_eq (hlength : 0 < length)
    (h : m.words offset length = m'.words offset' length') :
    (length = length' ∧ ∀ ρ, m.spelled ρ offset length = m'.spelled ρ offset' length') ∨
      m.DiffersInZeros offset length m' offset' length' := by
  obtain ⟨hcount, hwords⟩ := wordOf_eq_of_words_eq h
  -- all words but the last one are whole
  obtain ⟨front, hfront⟩ : ∃ front, (length + 31) / 32 = front + 1 :=
    Nat.exists_eq_add_one.mpr (by omega)
  obtain ⟨rest, hrest⟩ : ∃ rest, length = 32 * front + rest := ⟨length - 32 * front, by omega⟩
  obtain ⟨rest', hrest'⟩ : ∃ rest', length' = 32 * front + rest' := ⟨length' - 32 * front, by omega⟩
  have hwhole (ρ : Valuation) :
      m.spelled ρ offset (32 * front) = m'.spelled ρ offset' (32 * front) := by
    refine spelled_eq_of_words (fun j hj => ?_) ρ
    have hword := hwords j (by omega)
    rwa [Nat.min_eq_left (by omega), Nat.min_eq_left (by omega)] at hword
  have hlast : wordOf (m.row (offset + 32 * front) rest) =
      wordOf (m'.row (offset' + 32 * front) rest') := by
    have hword := hwords front (by omega)
    rwa [show min 32 (length - 32 * front) = rest by omega,
      show min 32 (length' - 32 * front) = rest' by omega] at hword
  subst hrest hrest'
  by_cases hsame : rest = rest'
  · subst hsame
    refine .inl ⟨rfl, fun ρ => ?_⟩
    rw [spelled_add, spelled_add, hwhole ρ, spelled_eq_of_wordOf_of_length (by omega) hlast ρ]
  · rcases spelled_eq_of_wordOf (by omega) (by omega) hlast with
      ⟨heq, -⟩ | ⟨bytes, bytes', hb, hb', hnat⟩
    · exact absurd heq hsame
    · have hlen := length_of_bytes? hb
      have hlen' := length_of_bytes? hb'
      refine .inr ⟨by omega, front, bytes, bytes', by omega, by omega, hnat, by omega, by omega,
        fun ρ => ⟨?_, ?_⟩⟩
      · rw [spelled_add, spelled_of_bytes? hb ρ]
      · rw [spelled_add, spelled_of_bytes? hb' ρ, hwhole ρ]

/-- An instruction takes the hash of a range of memory, which is not known. -/
structure Hashes (program : Program) (ins : Instruction) (p : Path) (s : Supply)
    (offset length : Nat) (words : List Term) : Prop where
  hashes : ins.opcode = .sha3
  range : ∃ a b rest, p.stack = a :: b :: rest ∧ memoryRange? a b = some (offset, length)
  result : ((execute program ins p s).path.stack.head?).map Value.word = some (.keccak words)

theorem Hashes.hashOf {program : Program} {ins : Instruction} {p : Path} {s : Supply}
    {words : List Term} (h : Hashes program ins p s offset length words) :
    (hashOf p.memory offset length).1 = .keccak words := by
  obtain ⟨a, b, rest, hstack, hrange⟩ := h.range
  have hresult := h.result
  have hkind : ins.opcode.kind = .hash := by rw [h.hashes]; rfl
  simp only [execute, hkind, hstack, hrange] at hresult
  exact Option.some.inj hresult

theorem Hashes.length_pos {program : Program} {ins : Instruction} {p : Path} {s : Supply}
    {words : List Term} (h : Hashes program ins p s offset length words) : 0 < length := by
  obtain ⟨hnone, -⟩ := words_eq_of_hashOf h.hashOf
  refine Nat.pos_of_ne_zero ?_
  rintro rfl
  cases hnone

/-- **Ranges with the same hash have the same bytes, or differ only in leading zeros of a known
rest.** -/
theorem hashed_bytes_agree {program program' : Program} {ins ins' : Instruction} {p p' : Path}
    {s s' : Supply} {offset length offset' length' : Nat} {words : List Term}
    (h : Hashes program ins p s offset length words)
    (h' : Hashes program' ins' p' s' offset' length' words) :
    (length = length' ∧
        ∀ ρ, p.memory.spelled ρ offset length = p'.memory.spelled ρ offset' length') ∨
      p.memory.DiffersInZeros offset length p'.memory offset' length' := by
  obtain ⟨-, hwords⟩ := words_eq_of_hashOf h.hashOf
  obtain ⟨-, hwords'⟩ := words_eq_of_hashOf h'.hashOf
  exact spelled_eq_or_of_words_eq h.length_pos (hwords.symm.trans hwords')

/-- A path with the caller in two words of memory that takes the hash of a range. -/
def hashingPath (offset length : Word) : Path :=
  { Path.start "fallback" 0 with
    stack := [⟨.const offset, 2⟩, ⟨.const length, 3⟩]
    memory := (({} : Memory).storeWord 0 ⟨.env .caller, 0⟩).storeWord 32 ⟨.env .caller, 1⟩ }

theorem hashed_bytes_agree_callerTwice :
    ∃ words, Hashes (.ofCode []) ⟨0, .sha3, none⟩ (hashingPath 0 32) {} 0 32 words ∧
      Hashes (.ofCode []) ⟨0, .sha3, none⟩ (hashingPath 32 32) {} 32 32 words ∧
      ∀ ρ, (hashingPath 0 32).memory.spelled ρ 0 32 = (hashingPath 32 32).memory.spelled ρ 32 32 := by
  have hzero : Hashes (.ofCode []) ⟨0, .sha3, none⟩ (hashingPath 0 32) {} 0 32
      ((hashingPath 0 32).memory.words 0 32) :=
    ⟨rfl, ⟨_, _, [], rfl, by decide⟩, by decide +kernel⟩
  have hnext : Hashes (.ofCode []) ⟨0, .sha3, none⟩ (hashingPath 32 32) {} 32 32
      ((hashingPath 0 32).memory.words 0 32) :=
    ⟨rfl, ⟨_, _, [], rfl, by decide⟩, by decide +kernel⟩
  refine ⟨_, hzero, hnext, ?_⟩
  rcases hashed_bytes_agree hzero hnext with ⟨-, hbytes⟩ | ⟨hne, -⟩
  · exact hbytes
  · exact absurd rfl hne

/-- Code that clears the slot at the hash of the caller and a zero byte, and checks the owner if the
slot at the hash of the caller and two zero bytes is not zero. -/
def paddedSlotCode : Bytes :=
  [0x33, 0x5f, 0x52, 0x5f, 0x60, 0x21, 0x5f, 0x20, 0x55, 0x60, 0x22, 0x5f, 0x20, 0x54,
   0x60, 0x12, 0x57, 0x00, 0x5b, 0x33, 0x5f, 0x54, 0x14, 0x60, 0x1b, 0x57, 0x00, 0x5b, 0x00]

/-- Ranges of different lengths can have the same hash, and then two slots are taken for one. -/
theorem hashed_bytes_differ :
    (∃ words, Hashes (.ofCode []) ⟨0, .sha3, none⟩ (hashingPath 32 33) {} 32 33 words ∧
      Hashes (.ofCode []) ⟨0, .sha3, none⟩ (hashingPath 32 34) {} 32 34 words) ∧
    (Analysis.ofPatterns {} [.ownership]).listed (.deployed ⟨0⟩ paddedSlotCode) none =
      .ok [[]] := by
  refine ⟨⟨(hashingPath 32 33).memory.words 32 33, ?_, ?_⟩, by decide +kernel⟩
  · exact ⟨rfl, ⟨_, _, [], rfl, by decide⟩, by decide +kernel⟩
  · exact ⟨rfl, ⟨_, _, [], rfl, by decide⟩, by decide +kernel⟩

end Memory

end GuardFinder

import GuardFinder.Word
import Mathlib.Algebra.Group.Nat.Defs
import Mathlib.Data.List.Induction

/-!
# Words and their bytes

The byte view of words on numbers: bytes in a row spell a number in base 256, and the 32 bytes of a
word spell the word.

* `Word.toNat_ofBytes`: at most 32 bytes spell a number that fits a word.
* `Word.toNat_byteAt`: a byte of a word, by division.
* `Word.ofBytes_toBytes`: **a word is what its bytes spell**.
* `Word.toBytes_ofBytes`: at most 32 bytes are the last bytes of the word that they spell.
-/

namespace GuardFinder.Word

theorem natOfBytes_append_singleton (bytes : Bytes) (b : UInt8) :
    natOfBytes (bytes ++ [b]) = 256 * natOfBytes bytes + b.toNat := by
  simp [natOfBytes]

theorem natOfBytes_lt (bytes : Bytes) : natOfBytes bytes < 256 ^ bytes.length := by
  induction bytes using List.reverseRecOn with
  | nil => exact Nat.one_pos
  | append_singleton bytes b ih =>
    have hb := b.toNat_lt
    rw [natOfBytes_append_singleton, List.length_append, List.length_singleton, Nat.pow_succ]
    omega

/-- A word has room for the number that at most 32 bytes spell. -/
theorem toNat_ofBytes {bytes : Bytes} (h : bytes.length ≤ 32) :
    (ofBytes bytes).toNat = natOfBytes bytes := by
  have hlt : natOfBytes bytes < 2 ^ 256 :=
    calc natOfBytes bytes < 256 ^ bytes.length := natOfBytes_lt bytes
      _ ≤ 256 ^ 32 := Nat.pow_le_pow_right (by decide) h
      _ = 2 ^ 256 := by decide
  rw [ofBytes, BitVec.toNat_ofNat, Nat.mod_eq_of_lt hlt]

theorem toNat_byteAt {w : Word} {i : Nat} (h : i < 32) :
    (byteAt w i).toNat = w.toNat / 256 ^ (31 - i) % 256 := by
  have hpow : 2 ^ (8 * (31 - i)) = 256 ^ (31 - i) := by
    rw [Nat.pow_mul]
  rw [byteAt, if_pos h, UInt8.toNat_ofNat', Nat.shiftRight_eq_div_pow, hpow]

/-- The first `k` bytes of a word spell its quotient by the weight of the others. -/
theorem natOfBytes_map_byteAt (w : Word) {k : Nat} (h : k ≤ 32) :
    natOfBytes ((List.range k).map (byteAt w)) = w.toNat / 256 ^ (32 - k) := by
  induction k with
  | zero =>
    have hlt : w.toNat < 256 ^ 32 := w.isLt
    rw [Nat.sub_zero, Nat.div_eq_of_lt hlt]
    rfl
  | succ k ih =>
    have hweight : 256 ^ (32 - k) = 256 ^ (31 - k) * 256 := by
      rw [← Nat.pow_succ, show (31 - k).succ = 32 - k by omega]
    rw [List.range_succ, List.map_append, List.map_singleton, natOfBytes_append_singleton,
      ih (by omega), toNat_byteAt (by omega), hweight, ← Nat.div_div_eq_div_mul,
      show 32 - (k + 1) = 31 - k by omega]
    exact Nat.div_add_mod _ 256

/-- **A word is what its bytes spell.** -/
theorem ofBytes_toBytes (w : Word) : ofBytes (toBytes w) = w := by
  rw [ofBytes, toBytes, natOfBytes_map_byteAt w (Nat.le_refl 32)]
  apply BitVec.eq_of_toNat_eq
  simp

theorem length_toBytes (w : Word) : (toBytes w).length = 32 := by
  rw [toBytes, List.length_map, List.length_range]

theorem getElem?_toBytes {w : Word} {i : Nat} (h : i < 32) :
    (toBytes w)[i]? = some (byteAt w i) := by
  rw [toBytes, List.getElem?_map, List.getElem?_range h, Option.map_some]

/-- As many bytes spell different numbers if they differ. -/
theorem eq_of_natOfBytes_eq {bytes bytes' : Bytes} (hlength : bytes.length = bytes'.length)
    (h : natOfBytes bytes = natOfBytes bytes') : bytes = bytes' := by
  induction bytes using List.reverseRecOn generalizing bytes' with
  | nil => exact (List.length_eq_zero_iff.mp hlength.symm).symm
  | append_singleton bytes b ih =>
    rcases List.eq_nil_or_concat bytes' with rfl | ⟨bytes', b', rfl⟩
    · simp at hlength
    rw [List.concat_eq_append] at hlength h ⊢
    have hb := b.toNat_lt
    have hb' := b'.toNat_lt
    rw [natOfBytes_append_singleton, natOfBytes_append_singleton] at h
    have hbytes : bytes = bytes' := ih (by simpa using hlength) (by omega)
    have hlast : b = b' := UInt8.toNat_inj.mp (by omega)
    rw [hbytes, hlast]

theorem natOfBytes_eq_of_ofBytes_eq {bytes bytes' : Bytes} (h32 : bytes.length ≤ 32)
    (h32' : bytes'.length ≤ 32) (h : ofBytes bytes = ofBytes bytes') :
    natOfBytes bytes = natOfBytes bytes' := by
  rw [← toNat_ofBytes h32, h, toNat_ofBytes h32']

theorem natOfBytes_replicate_append (k : Nat) (bytes : Bytes) :
    natOfBytes (List.replicate k 0 ++ bytes) = natOfBytes bytes := by
  induction k with
  | zero => rfl
  | succ k ih =>
    rw [List.replicate_succ, List.cons_append, ← ih]
    rfl

/-- **At most 32 bytes are the last bytes of the word that they spell.** -/
theorem toBytes_ofBytes {bytes : Bytes} (h : bytes.length ≤ 32) :
    toBytes (ofBytes bytes) = List.replicate (32 - bytes.length) 0 ++ bytes := by
  have hspelled : natOfBytes (toBytes (ofBytes bytes)) = natOfBytes bytes := by
    rw [toBytes, natOfBytes_map_byteAt _ (Nat.le_refl 32), Nat.sub_self, Nat.pow_zero, Nat.div_one,
      toNat_ofBytes h]
  refine eq_of_natOfBytes_eq ?_ (hspelled.trans (natOfBytes_replicate_append _ _).symm)
  rw [length_toBytes, List.length_append, List.length_replicate]
  omega

theorem byteAt_ofBytes {bytes : Bytes} (h : bytes.length = 32) {i : Nat} (hi : i < 32) :
    byteAt (ofBytes bytes) i = bytes.getD i 0 := by
  have hbytes := toBytes_ofBytes (Nat.le_of_eq h)
  rw [h, Nat.sub_self, List.replicate_zero, List.nil_append] at hbytes
  rw [List.getD_eq_getElem?_getD, ← hbytes, getElem?_toBytes hi, hbytes, Option.getD_some]

end GuardFinder.Word

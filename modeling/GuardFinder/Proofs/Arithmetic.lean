import GuardFinder.Term
import Mathlib.Algebra.Group.Int.Defs
import Mathlib.Algebra.Group.Nat.Defs

/-!
# Arithmetic of the virtual machine

What the machine computes, said on numbers: a word is a number below `2 ^ 256`, or a signed number
in two's complement, and a result is taken modulo `2 ^ 256`.

* `Evm.unary?`, `Evm.binary`: the operations on one and on two words.
* `Term.foldUnary?_eq`, `Term.foldBinary?_eq`: **an operation that is carried out on constants gives
  what the machine computes**.
-/

namespace GuardFinder

namespace Evm

/-- The answer of a comparison. -/
def flag (p : Prop) [Decidable p] : Word := if p then 1 else 0

/-- The result of an operation on one word; none for an opcode that asks something of the world
outside, such as a balance. -/
def unary? (op : Opcode) (x : Word) : Option Word :=
  match op.byte.toNat with
  | 0x15 => some (flag (x.toNat = 0))
  | 0x19 => some (BitVec.ofNat 256 (2 ^ 256 - 1 - x.toNat))
  | _ => none

/-- The result of an operation on two words, of which `x` is on top of the stack; zero for an opcode
that is no such operation. -/
def binary (op : Opcode) (x y : Word) : Word :=
  match op.byte.toNat with
  | 0x01 => BitVec.ofNat 256 (x.toNat + y.toNat)
  | 0x02 => BitVec.ofNat 256 (x.toNat * y.toNat)
  | 0x03 => BitVec.ofInt 256 (x.toNat - y.toNat)
  | 0x04 => if y.toNat = 0 then 0 else BitVec.ofNat 256 (x.toNat / y.toNat)
  | 0x05 => if y.toNat = 0 then 0 else BitVec.ofInt 256 (x.toInt.tdiv y.toInt)
  | 0x06 => if y.toNat = 0 then 0 else BitVec.ofNat 256 (x.toNat % y.toNat)
  | 0x07 => if y.toNat = 0 then 0 else BitVec.ofInt 256 (x.toInt.tmod y.toInt)
  | 0x0a => BitVec.ofNat 256 (x.toNat ^ y.toNat)
  -- The sign bit is the top bit of byte `x`, counted from the least significant one.
  | 0x0b => if x.toNat < 31 then (y.setWidth (8 * (x.toNat + 1))).signExtend 256 else y
  | 0x10 => flag (x.toNat < y.toNat)
  | 0x11 => flag (y.toNat < x.toNat)
  | 0x12 => flag (x.toInt < y.toInt)
  | 0x13 => flag (y.toInt < x.toInt)
  | 0x14 => flag (x.toNat = y.toNat)
  | 0x16 => x &&& y
  | 0x17 => x ||| y
  | 0x18 => x ^^^ y
  | 0x1a =>
    if x.toNat < 32 then BitVec.ofNat 256 (y.toNat / 256 ^ (31 - x.toNat) % 256) else 0
  | 0x1b => BitVec.ofNat 256 (y.toNat * 2 ^ x.toNat)
  | 0x1c => BitVec.ofNat 256 (y.toNat / 2 ^ x.toNat)
  | 0x1d => BitVec.ofInt 256 (y.toInt / 2 ^ x.toNat)
  | _ => 0

end Evm

namespace Word

/-! ### The operations on numbers -/

theorem ofBool_decide (p : Prop) [Decidable p] : ofBool (decide p) = Evm.flag p := by
  unfold ofBool Evm.flag
  split <;> simp_all

theorem eq_zero_iff {w : Word} : w = 0 ↔ w.toNat = 0 := by
  rw [BitVec.toNat_eq]
  rfl

theorem add_eq_ofNat (x y : Word) : x + y = BitVec.ofNat 256 (x.toNat + y.toNat) := by
  apply BitVec.eq_of_toNat_eq
  rw [BitVec.toNat_add, BitVec.toNat_ofNat]

theorem mul_eq_ofNat (x y : Word) : x * y = BitVec.ofNat 256 (x.toNat * y.toNat) := by
  apply BitVec.eq_of_toNat_eq
  rw [BitVec.toNat_mul, BitVec.toNat_ofNat]

theorem sub_eq_ofInt (x y : Word) : x - y = BitVec.ofInt 256 (x.toNat - y.toNat) := by
  apply BitVec.eq_of_toNat_eq
  have hx := x.isLt
  have hy := y.isLt
  rw [BitVec.toNat_sub, BitVec.toNat_ofInt]
  omega

theorem div_eq_ofNat (x y : Word) :
    div x y = if y.toNat = 0 then 0 else BitVec.ofNat 256 (x.toNat / y.toNat) := by
  unfold div
  simp only [eq_zero_iff]
  split
  · rfl
  · apply BitVec.eq_of_toNat_eq
    rw [BitVec.toNat_udiv, BitVec.toNat_ofNat,
      Nat.mod_eq_of_lt (Nat.lt_of_le_of_lt (Nat.div_le_self ..) x.isLt)]

theorem mod_eq_ofNat (x y : Word) :
    mod x y = if y.toNat = 0 then 0 else BitVec.ofNat 256 (x.toNat % y.toNat) := by
  unfold mod
  simp only [eq_zero_iff]
  split
  · rfl
  · apply BitVec.eq_of_toNat_eq
    rw [BitVec.toNat_umod, BitVec.toNat_ofNat,
      Nat.mod_eq_of_lt (Nat.lt_of_le_of_lt (Nat.mod_le ..) x.isLt)]

/-- Repeated squaring computes the power modulo the number of words. -/
theorem powNat_eq_ofNat (base : Word) (n : Nat) :
    powNat base n = BitVec.ofNat 256 (base.toNat ^ n) := by
  induction n using Nat.strongRecOn generalizing base with
  | ind n ih =>
    rw [powNat]
    by_cases hn : n = 0
    · simp [hn]
    · rw [if_neg hn]
      have hhalf :
          powNat (base * base) (n / 2) = BitVec.ofNat 256 (base.toNat ^ (2 * (n / 2))) := by
        rw [ih (n / 2) (by omega)]
        apply BitVec.eq_of_toNat_eq
        rw [BitVec.toNat_ofNat, BitVec.toNat_ofNat, BitVec.toNat_mul, ← Nat.pow_mod, Nat.pow_mul,
          Nat.pow_two]
      simp only [hhalf]
      split
      · next heven => rw [show 2 * (n / 2) = n by omega]
      · next hodd =>
        rw [mul_eq_ofNat]
        apply BitVec.eq_of_toNat_eq
        rw [BitVec.toNat_ofNat, BitVec.toNat_ofNat, BitVec.toNat_ofNat, Nat.mul_mod_mod,
          ← Nat.pow_succ', show (2 * (n / 2)).succ = n by omega]

/-- Comparing sign bits first gives the order of signed numbers. -/
theorem signedLess_eq (a b : Word) : signedLess a b = decide (a.toInt < b.toInt) := by
  have hmsb (w : Word) : w.isNegative = w.msb := (BitVec.msb_eq_getLsbD_last w).symm
  have ha := a.isLt
  have hb := b.isLt
  rw [signedLess, hmsb, hmsb, BitVec.toInt_eq_msb_cond, BitVec.toInt_eq_msb_cond]
  cases a.msb <;> cases b.msb <;>
    simp only [ne_eq, not_true, reduceCtorEq, not_false_eq_true, if_true, if_false, BitVec.lt_def,
      Bool.false_eq_true, decide_eq_decide, true_eq_decide_iff, false_eq_decide_iff] <;>
    omega

/-- A word beyond the sizes is beyond every bound on sizes. -/
theorem ifBelow_eq {bound : Nat} (hbound : bound ≤ UInt64.size) (w : Word) (f : Nat → Word) :
    ifBelow bound w f = if w.toNat < bound then f w.toNat else 0 := by
  rw [ifBelow, size?_eq_ite]
  by_cases h : w.toNat < UInt64.size
  · rw [if_pos h]
  · rw [if_neg h, if_neg fun hlt => h (Nat.lt_of_lt_of_le hlt hbound)]

theorem byte_eq_ofNat (i w : Word) :
    byte i w =
      if i.toNat < 32 then BitVec.ofNat 256 (w.toNat / 256 ^ (31 - i.toNat) % 256) else 0 := by
  rw [byte, ifBelow_eq (by decide)]
  split
  · apply BitVec.eq_of_toNat_eq
    have hmask : (0xff : Word).toNat = 2 ^ 8 - 1 := rfl
    have hpow : 2 ^ (8 * (31 - i.toNat)) = 256 ^ (31 - i.toNat) := by
      rw [Nat.pow_mul]
    rw [BitVec.toNat_and, BitVec.toNat_ushiftRight, hmask, Nat.and_two_pow_sub_one_eq_mod,
      Nat.shiftRight_eq_div_pow, hpow, BitVec.toNat_ofNat]
    omega
  · rfl

theorem shl_eq_ofNat (shift w : Word) :
    shl shift w = BitVec.ofNat 256 (w.toNat * 2 ^ shift.toNat) := by
  rw [shl, ifBelow_eq (by decide)]
  apply BitVec.eq_of_toNat_eq
  split
  · rw [BitVec.toNat_shiftLeft, Nat.shiftLeft_eq, BitVec.toNat_ofNat]
  · next h =>
    -- All bits are shifted out: the product is a multiple of `2 ^ 256`.
    obtain ⟨k, hk⟩ : ∃ k, shift.toNat = 256 + k := ⟨shift.toNat - 256, by omega⟩
    rw [BitVec.toNat_ofNat, hk, Nat.pow_add, ← Nat.mul_assoc, Nat.mul_right_comm, Nat.mul_mod_left]
    rfl

theorem shr_eq_ofNat (shift w : Word) :
    shr shift w = BitVec.ofNat 256 (w.toNat / 2 ^ shift.toNat) := by
  rw [shr, ifBelow_eq (by decide)]
  apply BitVec.eq_of_toNat_eq
  have hle : w.toNat / 2 ^ shift.toNat < 2 ^ 256 :=
    Nat.lt_of_le_of_lt (Nat.div_le_self ..) w.isLt
  rw [BitVec.toNat_ofNat, Nat.mod_eq_of_lt hle]
  split
  · rw [BitVec.toNat_ushiftRight, Nat.shiftRight_eq_div_pow]
  · next h =>
    have : w.toNat < 2 ^ shift.toNat :=
      Nat.lt_of_lt_of_le w.isLt (Nat.pow_le_pow_right (by omega) (by omega))
    rw [Nat.div_eq_of_lt this]
    rfl

end Word

namespace Term

/-! ### Folding -/

/-- **An operation on one word that is carried out gives what the machine computes.** -/
theorem foldUnary?_eq (op : Opcode) (x : Word) : foldUnary? op x = Evm.unary? op x := by
  unfold foldUnary? Evm.unary?
  generalize op.byte.toNat = n
  split
  · rw [Word.ofBool_decide]
    simp only [Word.eq_zero_iff]
  · congr 1
    apply BitVec.eq_of_toNat_eq
    have := x.isLt
    rw [BitVec.toNat_not, BitVec.toNat_ofNat, Nat.mod_eq_of_lt (by omega)]
  · simp

/-- **An operation on two words that is carried out gives what the machine computes.** -/
theorem foldBinary?_eq {op : Opcode} {x y v : Word} (h : foldBinary? op x y = some v) :
    v = Evm.binary op x y := by
  unfold foldBinary? at h
  unfold Evm.binary
  split at h <;> simp_all only [Option.some.injEq, reduceCtorEq]
  all_goals subst h
  · exact Word.add_eq_ofNat x y
  · exact Word.mul_eq_ofNat x y
  · exact Word.sub_eq_ofInt x y
  · exact Word.div_eq_ofNat x y
  · exact Word.mod_eq_ofNat x y
  · exact Word.powNat_eq_ofNat x y.toNat
  · exact Word.ofBool_decide _
  · exact Word.ofBool_decide _
  · rw [Word.signedLess_eq, Word.ofBool_decide]
  · rw [Word.signedLess_eq, Word.ofBool_decide]
  · rw [Word.ofBool_decide]
    simp only [BitVec.toNat_eq]
  · exact Word.byte_eq_ofNat x y
  · exact Word.shl_eq_ofNat x y
  · exact Word.shr_eq_ofNat x y

end Term

end GuardFinder

import GuardFinder.Proofs.Valuation

/-!
# Folding constants

Operations on constants are carried out while terms are built, all but four that stay symbolic. An
interpretation of terms that gives operations the meaning of the machine sees no difference: what is
folded has the same word as what is kept.

* `Interpretation`: words for all terms, in which operations mean what the machine computes.
* `Opcode.foldedBinary`, `Opcode.keptBinary`: the operations on two words that are carried out, and
  those that are not. `Opcode.kind_eq_binary_iff`: there are no others.
* `Word.FoldsTo`: what comes of operations on two constants, said on numbers.
* `Interpretation.value_apply`: **folding has the semantics of the machine**.
-/

namespace GuardFinder

/-! ### Operations on one and on two words -/

namespace Opcode

/-- The operations on two words that are carried out on constants. -/
def foldedBinary : List Opcode :=
  [⟨0x01⟩, ⟨0x02⟩, ⟨0x03⟩, ⟨0x04⟩, ⟨0x06⟩, ⟨0x0a⟩, ⟨0x10⟩, ⟨0x11⟩, ⟨0x12⟩, ⟨0x13⟩, ⟨0x14⟩, ⟨0x16⟩,
    ⟨0x17⟩, ⟨0x18⟩, ⟨0x1a⟩, ⟨0x1b⟩, ⟨0x1c⟩]

/-- The operations on two words that stay symbolic: `SDIV`, `SMOD`, `SIGNEXTEND` and `SAR`. -/
def keptBinary : List Opcode := [⟨0x05⟩, ⟨0x07⟩, ⟨0x0b⟩, ⟨0x1d⟩]

theorem kind_eq_unary_iff (op : Opcode) : op.kind = .unary ↔ op = .isZero ∨ op = .not :=
  forall_of_bytes (P := fun op => op.kind = .unary ↔ op = .isZero ∨ op = .not)
    (by decide +kernel) op

theorem kind_eq_binary_iff (op : Opcode) :
    op.kind = .binary ↔ op ∈ foldedBinary ∨ op ∈ keptBinary :=
  forall_of_bytes (P := fun op => op.kind = .binary ↔ op ∈ foldedBinary ∨ op ∈ keptBinary)
    (by decide +kernel) op

end Opcode

namespace Term

theorem applyUnary_const {op : Opcode} (h : op.kind = .unary) (x : Word) :
    ∃ v, applyUnary op (.const x) = .const v := by
  rcases op.kind_eq_unary_iff.mp h with rfl | rfl
  · exact ⟨_, rfl⟩
  · exact ⟨_, rfl⟩

/-- An operation that is carried out leaves the constant that the machine computes. -/
theorem applyBinary_folded {op : Opcode} (h : op ∈ Opcode.foldedBinary) (x y : Word) :
    applyBinary op (.const x) (.const y) = .const (Evm.binary op x y) := by
  have hsome : (foldBinary? op x y).isSome = true := by
    simp only [Opcode.foldedBinary, List.mem_cons, List.not_mem_nil, or_false] at h
    rcases h with rfl | rfl | rfl | rfl | rfl | rfl | rfl | rfl | rfl | rfl | rfl | rfl | rfl |
      rfl | rfl | rfl | rfl
    all_goals rfl
  obtain ⟨v, hv⟩ := Option.isSome_iff_exists.mp hsome
  simp only [applyBinary, const?, hv]
  rw [foldBinary?_eq hv]

theorem applyBinary_kept {op : Opcode} (h : op ∈ Opcode.keptBinary) (a b : Term) :
    applyBinary op a b = .binary op a b := by
  have hnone (x y : Word) : foldBinary? op x y = none := by
    simp only [Opcode.keptBinary, List.mem_cons, List.not_mem_nil, or_false] at h
    rcases h with rfl | rfl | rfl | rfl
    all_goals rfl
  unfold applyBinary
  split
  · rw [hnone]
  · rfl

end Term

/-! ### Interpretations -/

/-- Words for all terms, with constants and operations read as they should be. The words of all
other terms are free. -/
structure Interpretation where
  value : Term → Word
  value_const (v : Word) : value (.const v) = v
  value_unary (op : Opcode) (a : Term) :
    op.kind = .unary → Evm.unary? op (value a) = some (value (.unary op a))
  value_binary (op : Opcode) (a b : Term) :
    op.kind = .binary → value (.binary op a b) = Evm.binary op (value a) (value b)

/-- A valuation interprets terms. -/
def Valuation.interpretation (ρ : Valuation) : Interpretation where
  value := Term.eval ρ
  value_const v := Term.eval_const ρ v
  value_unary op a h := by
    rw [Term.eval]
    rcases op.kind_eq_unary_iff.mp h with rfl | rfl
    · rfl
    · rfl
  value_binary op a b _ := by rw [Term.eval]

namespace Interpretation

variable {op : Opcode}

theorem value_applyUnary (i : Interpretation) (h : op.kind = .unary) (a : Term) :
    Evm.unary? op (i.value a) = some (i.value (.applyUnary op a)) := by
  rcases Term.applyUnary_eq_or op a with hkept | ⟨x, v, rfl, hv, hfolded⟩
  · rw [hkept]
    exact i.value_unary op a h
  · rw [hfolded, i.value_const, i.value_const, hv]

theorem value_applyBinary (i : Interpretation) (h : op.kind = .binary) (a b : Term) :
    i.value (.applyBinary op a b) = Evm.binary op (i.value a) (i.value b) := by
  rcases Term.applyBinary_eq_or op a b with hkept | ⟨x, y, rfl, rfl, hfolded⟩
  · rw [hkept]
    exact i.value_binary op a b h
  · rw [hfolded, i.value_const, i.value_const, i.value_const]

end Interpretation

/-! ### Numbers -/

/-- A term is the constant with a given number. -/
def Term.IsNumber (t : Term) (n : Nat) : Prop := ∃ v, t = .const v ∧ v.toNat = n

namespace Word

variable {op : Opcode} {x y : Word} {n : Nat}

/-- What comes of operations on two constants, of which `x` is on top of the stack. -/
structure FoldsTo (x y : Word) : Prop where
  add : (Term.applyBinary ⟨0x01⟩ (.const x) (.const y)).IsNumber ((x.toNat + y.toNat) % 2 ^ 256)
  mul : (Term.applyBinary ⟨0x02⟩ (.const x) (.const y)).IsNumber (x.toNat * y.toNat % 2 ^ 256)
  sub : (Term.applyBinary ⟨0x03⟩ (.const x) (.const y)).IsNumber
    ((x.toNat + (2 ^ 256 - y.toNat)) % 2 ^ 256)
  exp : (Term.applyBinary ⟨0x0a⟩ (.const x) (.const y)).IsNumber (x.toNat ^ y.toNat % 2 ^ 256)
  div : (Term.applyBinary ⟨0x04⟩ (.const x) (.const y)).IsNumber
    (if y.toNat = 0 then 0 else x.toNat / y.toNat)
  mod : (Term.applyBinary ⟨0x06⟩ (.const x) (.const y)).IsNumber
    (if y.toNat = 0 then 0 else x.toNat % y.toNat)
  signedLess : (Term.applyBinary ⟨0x12⟩ (.const x) (.const y)).IsNumber
    (if x.toInt < y.toInt then 1 else 0)
  signedGreater : (Term.applyBinary ⟨0x13⟩ (.const x) (.const y)).IsNumber
    (if y.toInt < x.toInt then 1 else 0)
  byte : (Term.applyBinary ⟨0x1a⟩ (.const x) (.const y)).IsNumber
    (if x.toNat < 32 then y.toNat / 256 ^ (31 - x.toNat) % 256 else 0)
  shl : (Term.applyBinary ⟨0x1b⟩ (.const x) (.const y)).IsNumber
    (if x.toNat < 256 then y.toNat * 2 ^ x.toNat % 2 ^ 256 else 0)
  shr : (Term.applyBinary ⟨0x1c⟩ (.const x) (.const y)).IsNumber
    (if x.toNat < 256 then y.toNat / 2 ^ x.toNat else 0)

theorem isNumber_of_folded (hop : op ∈ Opcode.foldedBinary) (h : (Evm.binary op x y).toNat = n) :
    (Term.applyBinary op (.const x) (.const y)).IsNumber n :=
  ⟨_, Term.applyBinary_folded hop x y, h⟩

theorem toNat_flag (p : Prop) [Decidable p] : (Evm.flag p).toNat = if p then 1 else 0 := by
  unfold Evm.flag
  split
  · rfl
  · rfl

/-- A number that is at most a word is not cut off. -/
theorem toNat_ofNat_of_le (h : n ≤ x.toNat) : (BitVec.ofNat 256 n).toNat = n := by
  rw [BitVec.toNat_ofNat]
  exact Nat.mod_eq_of_lt (Nat.lt_of_le_of_lt h x.isLt)

theorem foldsTo (x y : Word) : x.FoldsTo y where
  add := isNumber_of_folded (by decide) (BitVec.toNat_ofNat ..)
  mul := isNumber_of_folded (by decide) (BitVec.toNat_ofNat ..)
  sub := by
    refine isNumber_of_folded (by decide) ?_
    show (BitVec.ofInt 256 (x.toNat - y.toNat)).toNat = _
    rw [← sub_eq_ofInt, BitVec.toNat_sub, Nat.add_comm]
  exp := isNumber_of_folded (by decide) (BitVec.toNat_ofNat ..)
  div := by
    refine isNumber_of_folded (by decide) ?_
    show (if y.toNat = 0 then 0 else BitVec.ofNat 256 (x.toNat / y.toNat)).toNat = _
    split
    · rfl
    · exact toNat_ofNat_of_le (Nat.div_le_self ..)
  mod := by
    refine isNumber_of_folded (by decide) ?_
    show (if y.toNat = 0 then 0 else BitVec.ofNat 256 (x.toNat % y.toNat)).toNat = _
    split
    · rfl
    · exact toNat_ofNat_of_le (Nat.mod_le ..)
  signedLess := isNumber_of_folded (by decide) (toNat_flag _)
  signedGreater := isNumber_of_folded (by decide) (toNat_flag _)
  byte := by
    refine isNumber_of_folded (by decide) ?_
    show (if x.toNat < 32 then BitVec.ofNat 256 (y.toNat / 256 ^ (31 - x.toNat) % 256)
      else 0).toNat = _
    split
    · exact toNat_ofNat_of_le (Nat.le_trans (Nat.mod_le ..) (Nat.div_le_self ..))
    · rfl
  shl := by
    refine isNumber_of_folded (by decide) ?_
    show (BitVec.ofNat 256 (y.toNat * 2 ^ x.toNat)).toNat = _
    rw [BitVec.toNat_ofNat]
    split
    · rfl
    · next h =>
      -- all bits are shifted out: the product is a multiple of `2 ^ 256`
      exact Nat.mod_eq_zero_of_dvd
        (Nat.dvd_mul_left_of_dvd (Nat.pow_dvd_pow 2 (Nat.le_of_not_lt h)) _)
  shr := by
    refine isNumber_of_folded (by decide) ?_
    show (BitVec.ofNat 256 (y.toNat / 2 ^ x.toNat)).toNat = _
    rw [toNat_ofNat_of_le (Nat.div_le_self ..)]
    split
    · rfl
    · next h =>
      have hle : 2 ^ 256 ≤ 2 ^ x.toNat := Nat.pow_le_pow_right (by decide) (Nat.le_of_not_lt h)
      exact Nat.div_eq_of_lt (Nat.lt_of_lt_of_le y.isLt hle)

end Word

/-- **Folding has the semantics of the machine.** In every interpretation the operations on one and
on two words have the words that the machine computes, whether they are folded or not. On constants
the result is a constant, unless the operation is one of the four that stay symbolic. -/
theorem Interpretation.value_apply (i : Interpretation) (a b : Term) :
    (∀ op : Opcode, op.kind = .unary →
      Evm.unary? op (i.value a) = some (i.value (.applyUnary op a))) ∧
    (∀ op : Opcode, op.kind = .binary →
      i.value (.applyBinary op a b) = Evm.binary op (i.value a) (i.value b)) ∧
    ∀ x y : Word, x.FoldsTo y ∧
      (∀ op : Opcode, op.kind = .unary → ∃ v, Term.applyUnary op (.const x) = .const v) ∧
      ∀ op : Opcode, op.kind = .binary → if op ∈ Opcode.keptBinary
        then Term.applyBinary op (.const x) (.const y) = .binary op (.const x) (.const y)
        else ∃ v, Term.applyBinary op (.const x) (.const y) = .const v := by
  refine ⟨fun op hop => i.value_applyUnary hop a, fun op hop => i.value_applyBinary hop a b,
    fun x y => ⟨x.foldsTo y, fun op hop => Term.applyUnary_const hop x, fun op hop => ?_⟩⟩
  split
  · next hkept => exact Term.applyBinary_kept hkept _ _
  · next hkept =>
    have hfolded := (op.kind_eq_binary_iff.mp hop).resolve_right hkept
    exact ⟨_, Term.applyBinary_folded hfolded x y⟩

/-- Where the caller is `7`, shifting `1` by the caller gives `128`, and shifting `1` by `2 ^ 64`
gives the constant zero. -/
theorem Interpretation.value_apply_shifts :
    (Valuation.interpretation ⟨fun _ => 7, id, id, fun _ => id, fun _ => 0, fun _ _ => 0⟩).value
      (.applyBinary ⟨0x1b⟩ (.env .caller) (.const 1)) = 128 ∧
    (Term.applyBinary ⟨0x1b⟩ (.const 0x10000000000000000) (.const 1)).IsNumber 0 := by
  have h := Interpretation.value_apply
    (Valuation.interpretation ⟨fun _ => 7, id, id, fun _ => id, fun _ => 0, fun _ _ => 0⟩)
    (.env .caller) (.const 1)
  constructor
  · rw [h.2.1 ⟨0x1b⟩ rfl]
    decide +kernel
  · have hshift := (h.2.2 0x10000000000000000 1).1.shl
    rwa [if_neg (by decide +kernel)] at hshift

end GuardFinder

/-!
# Machine words

The words of the virtual machine have 256 bits. This file fixes their byte view, their hexadecimal
text and the arithmetic that the machine does on them.

* `Word.ofBytes`, `Word.toBytes`: big-endian bytes to and from a word.
* `Word.size?`: a word as a size, when it fits 64 bits. Offsets, lengths and jump targets of the
  machine are sizes; a word beyond them addresses nothing.
* `Word.div`, `Word.mod`, `Word.pow`, `Word.signedLess`, `Word.byte`, `Word.shl`, `Word.shr`: the
  operations whose corner cases (zero divisor, signs, large index or shift) the machine settles in
  its own way.
-/

namespace GuardFinder

/-- A machine word of 256 bits. -/
abbrev Word := BitVec 256

/-- A string of bytes. -/
abbrev Bytes := List UInt8

namespace Word

/-- The number of words. -/
def count : Nat := 1 <<< 256

theorem toNat_lt_count (w : Word) : w.toNat < count := w.isLt

/-! ## Bytes -/

/-- The number that a string of bytes spells, the first byte being the most significant. -/
def natOfBytes (bytes : Bytes) : Nat :=
  bytes.foldl (fun n b => 256 * n + b.toNat) 0

/-- The word that at most 32 bytes spell, the first byte being the most significant. -/
def ofBytes (bytes : Bytes) : Word := BitVec.ofNat 256 (natOfBytes bytes)

/-- Byte `i` of a word, counted from the most significant one; zero past the last. -/
def byteAt (w : Word) (i : Nat) : UInt8 :=
  if i < 32 then UInt8.ofNat (w.toNat >>> (8 * (31 - i))) else 0

/-- The 32 bytes of a word, the most significant first. -/
def toBytes (w : Word) : Bytes := (List.range 32).map (byteAt w)

/-- The group `i` of 64 bits, counted from the least significant one. -/
def limb (w : Word) (i : Nat) : UInt64 := ⟨w.extractLsb' (64 * i) 64⟩

/-- The word as a size, when it fits 64 bits: the other three groups of bits are zero. -/
def size? (w : Word) : Option Nat :=
  if [1, 2, 3].any (w.limb · ≠ 0) then none else some (w.limb 0).toNat

theorem toNat_limb (w : Word) (i : Nat) :
    (w.limb i).toNat = w.toNat >>> (64 * i) % UInt64.size :=
  BitVec.extractLsb'_toNat ..

theorem limb_eq_zero {w : Word} {i : Nat} :
    w.limb i = 0 ↔ w.toNat >>> (64 * i) % UInt64.size = 0 := by
  rw [← toNat_limb, ← UInt64.toNat_inj]
  rfl

theorem size?_eq_ite (w : Word) :
    size? w = if w.toNat < UInt64.size then some w.toNat else none := by
  have hw := w.isLt
  have hhigh : [1, 2, 3].any (w.limb · ≠ 0) = true ↔ ¬w.toNat < UInt64.size := by
    simp only [List.any_cons, List.any_nil, Bool.or_false, Bool.or_eq_true, decide_eq_true_eq,
      ne_eq, limb_eq_zero, UInt64.size]
    omega
  simp only [size?, hhigh, ite_not]
  split
  · next h =>
    rw [toNat_limb, Nat.mul_zero, Nat.shiftRight_zero, Nat.mod_eq_of_lt h]
  · rfl

theorem size?_eq_some {w : Word} {n : Nat} :
    size? w = some n ↔ w.toNat = n ∧ n < UInt64.size := by
  rw [size?_eq_ite]
  split <;> simp <;> omega

/-! ## Text -/

/-- The digits of a number in base 16, in lower case. -/
def hexDigits (n : Nat) : String := String.ofList (Nat.toDigits 16 n)

/-- The digits of a number in base 16, filled up with zeros to `width` of them. -/
def hexDigitsPadded (width n : Nat) : String :=
  let digits := Nat.toDigits 16 n
  String.ofList (List.replicate (width - digits.length) '0' ++ digits)

/-- A word as `0x` and its digits, without leading zeros. -/
def toHex (w : Word) : String := "0x" ++ hexDigits w.toNat

/-! ## Arithmetic -/

/-- One for true and zero for false, the way comparisons answer. -/
def ofBool (flag : Bool) : Word := if flag then 1 else 0

/-- Division, zero when the divisor is zero. -/
def div (a b : Word) : Word := if b = 0 then 0 else a / b

/-- Remainder, zero when the divisor is zero. -/
def mod (a b : Word) : Word := if b = 0 then 0 else a % b

/-- The power `base ^ n`, by repeated squaring. -/
def powNat (base : Word) (n : Nat) : Word :=
  if n = 0 then 1
  else
    let half := powNat (base * base) (n / 2)
    if n % 2 = 0 then half else base * half
termination_by n

/-- The power `a ^ b` modulo the word size. -/
def pow (a b : Word) : Word := powNat a b.toNat

/-- Whether the sign bit is set. -/
def isNegative (w : Word) : Bool := w.getLsbD 255

/-- The order of signed words: a negative one comes before the others, and words of one sign compare
as numbers. -/
def signedLess (a b : Word) : Bool :=
  if a.isNegative ≠ b.isNegative then a.isNegative else a < b

/-- What `f` makes of a word that is a size below a bound; zero for any other word. -/
def ifBelow (bound : Nat) (w : Word) (f : Nat → Word) : Word :=
  match w.size? with
  | some n => if n < bound then f n else 0
  | none => 0

/-- Byte number `i` of `w` as a word, zero when there is no such byte. -/
def byte (i w : Word) : Word := ifBelow 32 i fun n => (w >>> (8 * (31 - n))) &&& 0xff

/-- Left shift, zero when all bits are shifted out. -/
def shl (shift w : Word) : Word := ifBelow 256 shift fun n => w <<< n

/-- Right shift, zero when all bits are shifted out. -/
def shr (shift w : Word) : Word := ifBelow 256 shift fun n => w >>> n

end Word

end GuardFinder

import GuardFinder.Word

/-!
# Numerals

Words written in digits of a base up to 36. Underscores are passed over, and no digits at all stand
for zero. The first thing wrong is the error: a character that is no digit of the base, or a value
that no word can hold. What comes first depends on the base.

* In a base that is a power of two, every digit has bits of its own in the word. The digits are put
  in place from the last to the first.
* In another base the digits are read from the first to the last, in groups that are as long as a
  number of 64 bits can hold. Whether the value fits is looked at after each group.
-/

namespace GuardFinder.Numeral

/-- Why a text is no numeral of a word. -/
inductive Error
  | badDigit (byte : UInt8)
  | tooLarge
  deriving DecidableEq, Repr

/-- The error in words; a byte outside ASCII is shown as the Latin-1 character of its value. -/
def Error.message : Error → String
  | .badDigit byte => "invalid digit: " ++ String.singleton (Char.ofNat byte.toNat)
  | .tooLarge => "the value is too large to fit the target type"

/-- The value of a digit in the largest base, given as the byte of its ASCII character. -/
def value? (byte : UInt8) : Option Nat :=
  let n := byte.toNat
  if '0'.toNat ≤ n ∧ n ≤ '9'.toNat then some (n - '0'.toNat)
  else if 'a'.toNat ≤ n ∧ n ≤ 'z'.toNat then some (n - 'a'.toNat + 10)
  else if 'A'.toNat ≤ n ∧ n ≤ 'Z'.toNat then some (n - 'A'.toNat + 10)
  else none

/-- The value of a digit of a base. -/
def digit (base : Nat) (byte : UInt8) : Except Error Nat :=
  match (value? byte).filter (· < base) with
  | some d => .ok d
  | none => .error (.badDigit byte)

/-- A value, unless no word can hold it. -/
def checked (n : Nat) : Except Error Nat :=
  if n < Word.count then .ok n else .error .tooLarge

/-- Reads digits with the last one first. The next one counts `weight` times, and those before it
have the value `acc`. -/
def readUp (base acc weight : Nat) : Bytes → Except Error Nat
  | [] => .ok acc
  | byte :: rest => do
    let acc ← checked (acc + (← digit base byte) * weight)
    readUp base acc (base * weight) rest

/-- Whether a group of digits is complete: one more digit would take it beyond 64 bits. The number
`weight` is the base to the power of the number of digits. -/
def isComplete (base weight : Nat) : Bool := UInt64.size ≤ base * weight

/-- Reads digits with the first one first. The complete groups have the value `acc`, the digits of
the present group have the value `group`, and `weight` is the base to the power of their number. -/
def readDown (base acc group weight : Nat) : Bytes → Except Error Nat
  | [] => checked (acc * weight + group)
  | byte :: rest => do
    let group := base * group + (← digit base byte)
    let weight := base * weight
    if isComplete base weight then readDown base (← checked (acc * weight + group)) 0 1 rest
    else readDown base acc group weight rest

/-- The word that a text in digits of a base spells. The text is given by its bytes in UTF-8. -/
def read (base : Nat) (text : Bytes) : Except Error Word :=
  let digits := text.filter (· ≠ 0x5f)
  let value := if 1 <<< base.log2 = base then readUp base 0 1 digits.reverse
    else readDown base 0 0 1 digits
  value.map (BitVec.ofNat 256)

end GuardFinder.Numeral

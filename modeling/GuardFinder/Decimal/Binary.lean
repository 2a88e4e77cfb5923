/-!
# Binary fractions

The exact value of a double: a sign, and a whole number times a power of two.
-/

namespace GuardFinder.Decimal

/-- A sign and the number `mantissa * 2 ^ exponent`. -/
structure Binary where
  negative : Bool
  mantissa : Nat
  exponent : Int
  /-- The next smaller double is only half as far away as the next larger one. -/
  narrowBelow : Bool

namespace Binary

/-- The value of a finite double. -/
def ofFloat (x : Float) : Binary :=
  let bits := x.toBits.toNat
  let fraction := bits % (1 <<< 52)
  let biased := (bits >>> 52) % (1 <<< 11)
  { negative := bits >>> 63 = 1
    mantissa := if biased = 0 then fraction else fraction + (1 <<< 52)
    exponent := Int.ofNat (max biased 1) - 1075
    narrowBelow := fraction = 0 && 1 < biased }

/-- Whether this is the value of a finite double. All others have the largest exponent. -/
def isFinite (b : Binary) : Bool := b.exponent < 972

/-- `n` times the power of two, as numerator and denominator. -/
def scale (exponent : Int) (n : Nat) : Nat × Nat :=
  if 0 ≤ exponent then (n <<< exponent.toNat, 1) else (n, 1 <<< (-exponent).toNat)

end Binary

end GuardFinder.Decimal

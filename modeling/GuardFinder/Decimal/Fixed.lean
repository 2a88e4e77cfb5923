import GuardFinder.Decimal.Binary

/-!
# Two decimal places

A double rounded to two places. The exact value is rounded, a half goes to the even neighbour, and a
negative number keeps its sign even if it rounds to zero. An infinite one is written as a word.
-/

namespace GuardFinder.Decimal

/-- The whole number nearest to `num / den`, the even one if two are equally near. -/
def roundHalfEven (num den : Nat) : Nat :=
  let quotient := num / den
  let rest := 2 * (num % den)
  if den < rest ∨ (rest = den ∧ quotient % 2 = 1) then quotient + 1 else quotient

/-- A double with two places after the point. -/
def twoPlaces (x : Float) : String :=
  let b := Binary.ofFloat x
  let (num, den) := Binary.scale b.exponent (100 * b.mantissa)
  let cents := roundHalfEven num den
  let places := toString (cents % 100)
  let size :=
    if b.isFinite then
      toString (cents / 100) ++ "." ++ (if places.length = 1 then "0" ++ places else places)
    else "inf"
  (if b.negative then "-" else "") ++ size

end GuardFinder.Decimal

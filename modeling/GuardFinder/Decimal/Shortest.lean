import GuardFinder.Decimal.Binary

/-!
# Shortest decimals

The decimal with the fewest digits among those that are nearer to a double than to any other double,
and the nearest to it of those; of two that are equally near, the one with the even last digit. The
search takes the two neighbours of the value with one digit, with two digits and so on, in exact
arithmetic; seventeen digits are always enough.
-/

namespace GuardFinder.Decimal

/-- The whole numbers `value`, `low` and `high`, all over one denominator: a positive number and the
ends of the interval of numbers that are read back as it. -/
structure Interval where
  value : Nat
  low : Nat
  high : Nat
  den : Nat
  /-- The ends belong to the interval. -/
  closed : Bool

/-- The interval around a double other than zero. -/
def Interval.ofBinary (b : Binary) : Interval :=
  let quarter (n : Nat) : Nat := (Binary.scale (b.exponent - 2) n).1
  { value := quarter (4 * b.mantissa)
    low := quarter (4 * b.mantissa - (if b.narrowBelow then 1 else 2))
    high := quarter (4 * b.mantissa + 2)
    den := (Binary.scale (b.exponent - 2) 1).2
    closed := b.mantissa % 2 = 0 }

/-- Digits times a power of ten. -/
structure Digits where
  digits : Nat
  exponent : Int

/-- A decimal as numerator and denominator. -/
def Digits.fraction (d : Digits) : Nat × Nat :=
  if 0 ≤ d.exponent then (d.digits * Nat.pow 10 d.exponent.toNat, 1)
  else (d.digits, Nat.pow 10 (-d.exponent).toNat)

/-- Whether a decimal lies in an interval. -/
def Interval.contains (i : Interval) (d : Digits) : Bool :=
  let (num, den) := d.fraction
  let x := num * i.den
  if i.closed then i.low * den ≤ x && x ≤ i.high * den else i.low * den < x && x < i.high * den

/-- The distance of a decimal from the value of an interval, over the common denominator. -/
def Interval.distance (i : Interval) (d : Digits) : Nat :=
  let (num, den) := d.fraction
  let x := num * i.den
  let y := i.value * den
  if x ≤ y then y - x else x - y

/-- The exponent of the first digit of `num / den`, tried upwards from `start`. -/
def leadingExponent (num den : Nat) (start : Int) : Nat → Int
  | 0 => start
  | tries + 1 =>
    let (n, d) := (Digits.mk 1 (start + 1)).fraction
    if n * den ≤ num * d then leadingExponent num den (start + 1) tries else start

/-- Whether a decimal is nearer to the value of an interval than its neighbour, or as near with an
even last digit. -/
def Interval.prefers (i : Interval) (d neighbour : Digits) : Bool :=
  i.distance d < i.distance neighbour ||
    (i.distance d == i.distance neighbour && d.digits % 2 == 0)

/-- The best decimal of an interval with digits from place `exponent` on. -/
def Interval.best? (i : Interval) (exponent : Int) : Option Digits :=
  let (n, d) := (Digits.mk 1 exponent).fraction
  let below : Digits := ⟨i.value * d / (i.den * n), exponent⟩
  let above : Digits := ⟨below.digits + 1, exponent⟩
  match i.contains below, i.contains above with
  | true, true => some (if i.prefers above below then above else below)
  | true, false => some below
  | false, true => some above
  | false, false => none

/-- The first decimal found with digits from the places `exponent`, `exponent - 1` and so on. -/
def Interval.search (i : Interval) (exponent : Int) : Nat → Digits
  | 0 => ⟨i.value / i.den, 0⟩
  | tries + 1 =>
    match i.best? exponent with
    | some d => d
    | none => i.search (exponent - 1) tries

/-- The shortest decimal of a double other than zero. -/
def shortest (b : Binary) : Digits :=
  let i := Interval.ofBinary b
  i.search (leadingExponent i.value i.den (-330) 700) 18

/-- Digits without the zeros at the end, each of which raises the exponent. -/
def Digits.trimmed (d : Digits) : Nat → Digits
  | 0 => d
  | tries + 1 =>
    if d.digits % 10 = 0 ∧ d.digits ≠ 0 then
      Digits.trimmed ⟨d.digits / 10, d.exponent + 1⟩ tries
    else d

/-- Zeros in a row. -/
def zeros (n : Nat) : String := String.ofList (List.replicate n '0')

/-- The text of a decimal: positional with a point for exponents from -5 to 15, and with the mark
`e` and a signed exponent else. A whole number keeps one zero after the point. -/
def Digits.text (d : Digits) : String :=
  let ds := toString d.digits
  let point : Int := ds.length + d.exponent
  if 0 ≤ d.exponent ∧ point ≤ 16 then ds ++ zeros d.exponent.toNat ++ ".0"
  else if 0 < point ∧ point ≤ 16 then
    String.ofList (ds.toList.take point.toNat) ++ "." ++ String.ofList (ds.toList.drop point.toNat)
  else if -5 < point ∧ point ≤ 0 then "0." ++ zeros (-point).toNat ++ ds
  else
    let head := String.ofList (ds.toList.take 1)
    let tail := String.ofList (ds.toList.drop 1)
    let scale := point - 1
    let mark := (if scale < 0 then "e-" else "e+") ++ toString scale.natAbs
    if tail.isEmpty then head ++ mark else head ++ "." ++ tail ++ mark

/-- A finite double as the shortest text that is read back as it. -/
def shortestText (x : Float) : String :=
  let b := Binary.ofFloat x
  (if b.negative then "-" else "") ++
    (if b.mantissa = 0 then "0.0" else ((shortest b).trimmed 20).text)

end GuardFinder.Decimal

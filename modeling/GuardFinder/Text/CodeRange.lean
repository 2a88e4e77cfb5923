/-!
# Runs of code points

A property of characters is given by runs of code points, each by its first and its last one.
-/

namespace GuardFinder.Text

/-- Whether a character is in one of several runs. -/
def isWithin (runs : List (Nat × Nat)) (c : Char) : Bool :=
  runs.any fun (first, last) => first ≤ c.toNat && c.toNat ≤ last

end GuardFinder.Text

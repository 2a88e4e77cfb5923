/-!
# Cuts at byte positions

A position in a text counts the bytes before it in UTF-8. A text can be cut at a position only if no
character goes on there.
-/

namespace GuardFinder.Text

/-- The characters before a position and those after it, if no character goes on there. -/
def splitAtByte? : Nat → List Char → Option (List Char × List Char)
  | 0, cs => some ([], cs)
  | _ + 1, [] => none
  | n + 1, c :: cs =>
    if c.utf8Size ≤ n + 1 then
      (splitAtByte? (n + 1 - c.utf8Size) cs).map fun (before, after) => (c :: before, after)
    else none

/-- The characters from a position on. -/
def from? (cs : List Char) (first : Nat) : Option (List Char) :=
  (splitAtByte? first cs).map (·.2)

/-- The characters from a position on up to another one. -/
def between? (cs : List Char) (first stop : Nat) : Option (List Char) := do
  let (piece, _) ← splitAtByte? (stop - first) (← from? cs first)
  return piece

end GuardFinder.Text

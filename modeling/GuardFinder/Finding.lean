import GuardFinder.Word

/-!
# Findings

What a detector says of one function.
-/

namespace GuardFinder

/-- A function that a pattern guards. -/
structure Finding where
  functionName : String
  /-- The storage slot of the guarding value, when it is known. -/
  slot : Option Word := none
  /-- What the slot holds, as text. -/
  content : Option String := none
  deriving DecidableEq, Repr

end GuardFinder

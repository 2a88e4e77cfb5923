import GuardFinder.Detect.Watch

/-!
# Ownership

Functions that compare the caller with an account in a plain storage slot: the caller and what is
read from storage are marked, a comparison of the two marks both sides, and a branch on a word with
both marks is a finding.
-/

namespace GuardFinder.Ownership

open Watch

/-- The opcodes to be told about before they are executed. -/
def preOpcodes : List Opcode := [.eq, .jumpi]

/-- The opcodes to be told about after they are executed. -/
def postOpcodes : List Opcode := [.caller, .sload]

/-- Marks what an instruction read. -/
def markRead (e : Event) : Watch Unit := do
  match e.executed? with
  | some .caller => annotate (← item e 0) .caller
  | some .sload =>
    match ← loadedSlot? e with
    | some slot => annotate (← item e 0) (.storage (some slot))
    | none => pure ()
  | _ => pure ()

/-- Marks both sides of a comparison of the caller with a plain slot. -/
def markComparison (ceiling : Word) (a b : Value) : Watch Unit := do
  let left ← taintsOf a
  let right ← taintsOf b
  if .caller ∈ left ∧ (right.slotBelow? ceiling).isSome then
    annotate a (.equality .sender)
    annotate b (.equality .owner)
  else if .caller ∈ right ∧ (left.slotBelow? ceiling).isSome then
    annotate b (.equality .sender)
    annotate a (.equality .owner)

/-- Looks at an event. Slots at or above `ceiling` are no plain slots. -/
def observe (ceiling : Word) (e : Event) : Watch (Option Finding) := do
  match e.phase with
  | .post =>
    markRead e
    return none
  | .pre =>
    match e.state.opcode with
    | .eq =>
      let a ← item e 0
      let b ← item e 1
      markComparison ceiling a b
      return none
    | .jumpi =>
      let condition ← taintsOf (← item e 1)
      if condition.hasAll [.equality .owner, .equality .sender] then
        return some ⟨e.state.functionName, condition.slotBelow? ceiling, none⟩
      else return none
    | _ => return none

end GuardFinder.Ownership

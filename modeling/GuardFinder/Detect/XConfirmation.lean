import GuardFinder.Detect.Watch

/-!
# Block confirmations

Functions that branch on a comparison of the current block number with a stored word.
-/

namespace GuardFinder.XConfirmation

open Watch

/-- The opcodes to be told about before they are executed. -/
def preOpcodes : List Opcode := [.jumpi, .eq, .lt, .gt]

/-- The opcodes to be told about after they are executed. -/
def postOpcodes : List Opcode := [.number, .sload]

/-- Marks what an instruction read. -/
def markRead (e : Event) : Watch Unit := do
  match e.executed? with
  | some .number => annotate (← item e 0) .blockNumber
  | some .sload =>
    let result ← item e 0
    annotate result (.storage (← loadedSlot? e))
  | _ => pure ()

/-- Marks both sides of a comparison of the block number with a stored word. -/
def markComparison (a b : Value) : Watch Unit := do
  let left ← taintsOf a
  let right ← taintsOf b
  if .blockNumber ∈ left ∧ right.toList.any Taint.isStorage then
    annotate a (.comparison .blockNumber)
    annotate b (.comparison .storage)
  else if left.toList.any Taint.isStorage ∧ .blockNumber ∈ right then
    annotate b (.comparison .blockNumber)
    annotate a (.comparison .storage)

/-- Looks at an event. -/
def observe (e : Event) : Watch (Option Finding) := do
  match e.phase with
  | .post =>
    markRead e
    return none
  | .pre =>
    match e.state.opcode with
    | .eq | .lt | .gt =>
      let a ← item e 0
      let b ← item e 1
      markComparison a b
      return none
    | .jumpi =>
      let condition ← taintsOf (← item e 1)
      if condition.hasAll [.comparison .blockNumber, .comparison .storage] then
        return some ⟨e.state.functionName, condition.slot?, none⟩
      else return none
    | _ => return none

end GuardFinder.XConfirmation

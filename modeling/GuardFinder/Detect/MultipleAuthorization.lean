import GuardFinder.Detect.Watch

/-!
# Multiple authorization

Functions that branch on which of two stored words is larger, such as a count of approvals and the
number of them that is needed.
-/

namespace GuardFinder.MultipleAuthorization

open Watch

/-- The opcodes to be told about before they are executed. -/
def preOpcodes : List Opcode := [.jumpi, .sstore]

/-- The opcodes to be told about after they are executed. -/
def postOpcodes : List Opcode := [.sload, .lt, .gt]

/-- Marks the result of comparing two plain slots. -/
def markComparison (ceiling : Word) (e : Event) (previous : Frame) : Watch Unit := do
  let left := (← taintsOf (← itemOf previous 0)).slotBelow? ceiling
  let right := (← taintsOf (← itemOf previous 1)).slotBelow? ceiling
  match left, right with
  | some left, some right =>
    let result ← item e 0
    let _ ← discard result (.storage (some left))
    let _ ← discard result (.storage (some right))
    annotate result (.storageComparison left right)
  | _, _ => pure ()

/-- Marks the result of an instruction. -/
def markResult (ceiling : Word) (e : Event) (previous : Frame) : Watch Unit := do
  match previous.instruction.opcode with
  | .sload =>
    match (← loadedSlot? e).filter (· < ceiling) with
    | some slot => annotate (← item e 0) (.storage (some slot))
    | none => pure ()
  | .lt | .gt => markComparison ceiling e previous
  | _ => pure ()

/-- Looks at an event. Slots at or above `ceiling` are no plain slots. -/
def observe (ceiling : Word) (e : Event) : Watch (Option Finding) := do
  match e.phase, e.previous with
  | .post, some previous =>
    markResult ceiling e previous
    return none
  | .pre, _ =>
    match e.state.opcode with
    | .jumpi =>
      let condition ← taintsOf (← item e 1)
      if condition.toList.any Taint.isStorageComparison then
        return some ⟨e.state.functionName, none, none⟩
      else return none
    | _ => return none
  | .post, none => return none

end GuardFinder.MultipleAuthorization

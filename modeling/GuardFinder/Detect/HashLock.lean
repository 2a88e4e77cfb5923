import GuardFinder.Detect.Watch

/-!
# Hash locks

Functions guarded by a secret whose hash is compared with something, or is looked up in storage.
Only hashes of short inputs count: the key of a mapping is hashed together with the mapping's
slot, which takes more bytes.
-/

namespace GuardFinder.HashLock

open Watch

/-- The opcodes to be told about before they are executed. -/
def preOpcodes : List Opcode := [.jumpi]

/-- The opcodes to be told about after they are executed. -/
def postOpcodes : List Opcode := [.callDataLoad, .sha3, .sload, .eq]

/-- Marks the result of an instruction. -/
def markResult (maxLength : Nat) (e : Event) (previous : Frame) : Watch Unit := do
  let result ← item e 0
  match previous.instruction.opcode with
  | .callDataLoad => annotate result .input
  | .sha3 =>
    match (← itemOf previous 1).size? with
    | some length =>
      if length ≤ maxLength then
        if ← discard result .input then annotate result .hashedInput
    | none => pure ()
  | .sload =>
    match ← loadedSlot? e with
    | some slot => annotate result (.storage (some slot))
    | none => pure ()
    if .hashedInput ∈ (← taintsOf (← itemOf previous 0)) then annotate result .hashedStorage
  | .eq => if .hashedInput ∈ (← taintsOf result) then annotate result .hashedInputEq
  | _ => pure ()

/-- Looks at an event. A secret has at most `maxLength` bytes. -/
def observe (maxLength : Nat) (e : Event) : Watch (Option Finding) := do
  match e.phase, e.previous with
  | .post, some previous =>
    markResult maxLength e previous
    return none
  | .pre, _ =>
    match e.state.opcode with
    | .jumpi =>
      let condition ← taintsOf (← item e 1)
      if condition.hasAny [.hashedStorage, .hashedInputEq] then
        return some ⟨e.state.functionName, condition.slot?, none⟩
      else return none
    | _ => return none
  | .post, none => return none

end GuardFinder.HashLock

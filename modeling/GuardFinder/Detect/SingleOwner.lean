import GuardFinder.Detect.Watch

/-!
# Single owners

Functions with a block that compares the caller with a stored word, where an oracle proves that the
two sides of the comparison are just that: what the last `CALLER` and the last `SLOAD` of the block
put on the stack.
-/

namespace GuardFinder.SingleOwner

open Watch

/-- Whether an oracle refutes a query. An oracle that gives up refutes nothing. -/
def refutes (oracle : Oracle) (q : Query) : Watch Bool := do
  match oracle.check (← nextQuery) q with
  | .ok verdict => return verdict = .unsat
  | .error e =>
    say (.oracleGaveUp e)
    return false

/-- Whether an oracle proves that `a` and `b` are the two given words in one order or the other. -/
def provesPair (oracle : Oracle) (constraints : List Constraint) (a b caller stored : Term) :
    Watch Bool := do
  if ← refutes oracle ⟨constraints, [(a, caller), (b, stored)]⟩ then return true
  refutes oracle ⟨constraints, [(a, stored), (b, caller)]⟩

/-- What an instruction left on top of the stack, read off the frame after it. -/
def resultOf? (rest : List Frame) : Option Value := rest.head?.bind (·.stack.head?)

/-- Looks through the frames of a block. `caller` is the last caller read so far, `stored` the last
word read from storage, with its slot. -/
def inspectFrames (oracle : Oracle) (node : Node) (caller : Option Value)
    (stored : Option (Value × Option Value)) : List Frame → Watch (Option Finding)
  | [] => return none
  | frame :: rest =>
    match frame.instruction.opcode with
    | .caller => do
      say (.foundCaller node.uid frame.instruction.address)
      inspectFrames oracle node (resultOf? rest) stored rest
    | .sload => do
      say (.foundLoad node.uid frame.instruction.address)
      let read := (resultOf? rest).map fun v => (v, frame.stack.head?)
      inspectFrames oracle node caller read rest
    | .eq =>
      match caller, stored with
      | some who, some (v, slot) => do
        let a ← itemOf frame 0
        let b ← itemOf frame 1
        if ← provesPair oracle node.constraints a.word b.word who.word v.word then
          return some ⟨node.functionName, slot.bind Value.const?, none⟩
        else inspectFrames oracle node caller stored rest
      | _, _ => inspectFrames oracle node caller stored rest
    | _ => inspectFrames oracle node caller stored rest

/-- Looks through blocks, passing over functions that have a finding already. -/
def inspectNodes (oracle : Oracle) (found : List Finding) : List Node → Watch (List Finding)
  | [] => return found
  | node :: rest =>
    if found.any (·.functionName = node.functionName) then inspectNodes oracle found rest
    else do
      match ← inspectFrames oracle node none none node.frames.toList with
      | some finding => inspectNodes oracle (found ++ [finding]) rest
      | none => inspectNodes oracle found rest

/-- Looks at a state space. Findings are listed by the names of their functions. -/
def inspect (oracle : Oracle) (space : StateSpace) : Watch (List Finding) := do
  say .analyzingNodes
  let found ← inspectNodes oracle [] space.nodes.toList
  say (.administrators (found.countP (·.slot.isSome)))
  return found.mergeSort fun a b => a.functionName ≤ b.functionName

end GuardFinder.SingleOwner

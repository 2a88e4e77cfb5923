import GuardFinder.Detect.Watch

/-!
# Off-chain secrets

Functions with a block that hashes packed input and a block right after it that reverts: the shape
that a check of a secret against a stored hash is compiled to.
-/

namespace GuardFinder.OffChainSecret

open Watch

/-- Whether three instructions in a row skip the length of a packed input and hash it. -/
def hashesPacked : List Instruction → Bool
  | a :: b :: c :: rest =>
    (a.opcode = .push1 && a.argument = some 0x20 && b.opcode = .add && c.opcode = .sha3) ||
      hashesPacked (b :: c :: rest)
  | _ => false

/-- Whether a block hashes packed input and a block right after it reverts. -/
def isRestricted (space : StateSpace) (node : Node) : Bool :=
  hashesPacked (node.frames.toList.map (·.instruction)) &&
    (space.successors node.uid).any (·.contains .revert)

/-- The functions of the blocks that hash packed input before a revert, in the order of blocks. -/
def restrictedFunctions (space : StateSpace) : List String :=
  (space.nodes.toList.filter (isRestricted space)).map (·.functionName)

/-- Looks at a state space. -/
def inspect (space : StateSpace) : Watch (List Finding) := do
  let names := restrictedFunctions space
  names.forM fun name => say (.restricted name)
  return ((names.mergeSort (· ≤ ·)).eraseReps).map fun name => ⟨name, none, none⟩

end GuardFinder.OffChainSecret

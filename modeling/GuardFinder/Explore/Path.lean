import GuardFinder.StateSpace
import GuardFinder.Explore.Slots
import GuardFinder.Explore.Trail

/-!
# Paths

A path is one way through the code: where it is, its stack, memory and storage, what it knows of
the branches it took, and the jump edges behind it.

* `Path.fork`: a copy of a path in which every value has a new tag. Values that were one value
  inside the path are one value inside the copy.
-/

namespace GuardFinder

/-- One way through the code. -/
structure Path where
  pc : Nat
  /-- The stack, from the top. -/
  stack : List Value
  memory : Memory
  /-- The storage slots that the path wrote. -/
  storage : Slots
  constraints : List Constraint
  functionName : String
  /-- The jump edges taken so far. -/
  trail : Trail
  /-- The node of the state space that the path is in. -/
  node : Nat
  /-- The instruction executed last, if it is in the same node. -/
  lastFrame : Option Frame

namespace Path

/-- A path at the start of the code. -/
def start (functionName : String) (node : Nat) : Path where
  pc := 0
  stack := []
  memory := {}
  storage := {}
  constraints := []
  functionName
  trail := .empty
  node
  lastFrame := none

/-- What observers see of a path that is at an instruction. -/
def view (p : Path) (instruction : Instruction) : StateView where
  instruction
  stack := p.stack
  memory := p.memory
  functionName := p.functionName
  constraints := p.constraints

/-- What the path wrote to a slot. -/
def stored? (p : Path) (slot : Term) : Option Value := p.storage.get? slot

/-- Writes a storage slot. -/
def store (p : Path) (slot : Term) (v : Value) : Path :=
  { p with storage := p.storage.put slot v }

/-! ## Forks -/

/-- All values of a path, as often as they occur. -/
def values (p : Path) : List Value := p.stack ++ p.memory.values ++ p.storage.values

/-- Replaces every value of a path. -/
def mapValues (p : Path) (f : Value → Value) : Path :=
  { p with
    stack := p.stack.map f
    memory := p.memory.mapValues f
    storage := p.storage.mapValues f }

/-- A path and what its copying took. -/
structure Fork where
  path : Path
  supply : Supply
  inheritances : List Inheritance

/-- A copy of a path whose values carry taints of their own. -/
def fork (p : Path) (supply : Supply) : Fork :=
  let copies := Copies.ofValues supply p.values
  { path := { p.mapValues copies.rename with lastFrame := none }
    supply := copies.supply
    inheritances := copies.inheritances }

end Path

end GuardFinder

import GuardFinder.Program
import GuardFinder.Memory

/-!
# State spaces

An exploration yields a state space: its nodes are the basic blocks as paths visited them, its edges
the jumps between them. A frame is an instruction that was executed, with the stack it found. An
event is what an observer is told about an instruction before or after it is executed.

Stacks are listed from the top.
-/

namespace GuardFinder

/-- Whether an observer is told before or after an instruction is executed. -/
inductive Phase
  | pre
  | post
  deriving DecidableEq, Repr

/-- The phase as text. -/
def Phase.text : Phase → String
  | .pre => "Pre"
  | .post => "Post"

/-- A stack too short for what an observer wants to see of it. -/
structure Underflow where
  opcode : Opcode
  address : Nat
  required : Nat
  actual : Nat
  deriving DecidableEq, Repr

/-- The item `depth` places below the top of the stack that an instruction finds. -/
def peekAt (stack : List Value) (ins : Instruction) (depth : Nat) : Except Underflow Value :=
  match stack[depth]? with
  | some v => .ok v
  | none => .error ⟨ins.opcode, ins.address, depth + 1, stack.length⟩

/-- An executed instruction and the stack it found. -/
structure Frame where
  instruction : Instruction
  stack : List Value
  deriving DecidableEq, Repr

/-- The item `depth` places below the top of a frame's stack. -/
def Frame.peek (f : Frame) (depth : Nat) : Except Underflow Value :=
  peekAt f.stack f.instruction depth

/-- A state of a path as observers see it. -/
structure StateView where
  instruction : Instruction
  stack : List Value
  memory : Memory
  functionName : String
  constraints : List Constraint

/-- The opcode of the instruction that a state is at. -/
def StateView.opcode (s : StateView) : Opcode := s.instruction.opcode

/-- The item `depth` places below the top of a state's stack. -/
def StateView.peek (s : StateView) (depth : Nat) : Except Underflow Value :=
  peekAt s.stack s.instruction depth

/-- What an observer is told. -/
structure Event where
  phase : Phase
  state : StateView
  /-- Before an instruction: the one executed before it in the same block, if any. After an
  instruction: that instruction itself. -/
  previous : Option Frame

/-- The opcode of the frame that an event comes with. -/
def Event.executed? (e : Event) : Option Opcode := e.previous.map (·.instruction.opcode)

/-- A basic block as one path visited it. -/
structure Node where
  uid : Nat
  functionName : String
  startAddress : Nat
  frames : Array Frame
  /-- What the path knew when it entered the block. -/
  constraints : List Constraint

/-- Whether an instruction with the given opcode was executed in the block. -/
def Node.contains (n : Node) (op : Opcode) : Bool := n.frames.any (·.instruction.opcode = op)

/-- How a path went from one block to the next. -/
inductive EdgeKind
  | jump
  | conditional (taken : Bool)
  deriving DecidableEq, Repr

/-- A jump from one node to another. -/
structure Edge where
  source : Nat
  target : Nat
  kind : EdgeKind
  deriving DecidableEq, Repr

/-- The outcome of an exploration. -/
structure StateSpace where
  nodes : Array Node := #[]
  edges : Array Edge := #[]
  /-- No limit cut the exploration short. -/
  complete : Bool := true

namespace StateSpace

/-- Adds a node without frames; its uid is the number of nodes before it. -/
def addNode (s : StateSpace) (functionName : String) (startAddress : Nat)
    (constraints : List Constraint) : StateSpace :=
  { s with
    nodes := s.nodes.push { uid := s.nodes.size, functionName, startAddress, frames := #[],
                            constraints } }

/-- Adds an edge. -/
def addEdge (s : StateSpace) (edge : Edge) : StateSpace := { s with edges := s.edges.push edge }

/-- Adds a frame to a node. -/
def addFrame (s : StateSpace) (uid : Nat) (frame : Frame) : StateSpace :=
  { s with nodes := s.nodes.modify uid fun n => { n with frames := n.frames.push frame } }

/-- The nodes that an edge leads to from a node. -/
def successors (s : StateSpace) (uid : Nat) : List Node :=
  (s.edges.toList.filter (·.source = uid)).filterMap fun e => s.nodes[e.target]?

/-- The names of the functions of all nodes, each once and in order. -/
def functionNames (s : StateSpace) : List String :=
  let names := (s.nodes.toList.map (·.functionName)).mergeSort (· ≤ ·)
  names.eraseReps

end StateSpace

end GuardFinder

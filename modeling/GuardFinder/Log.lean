import GuardFinder.StateSpace
import GuardFinder.Oracle

/-!
# Log messages

What the parts of an analysis say about their work. A message is kept as data; `Message.level` and
`Message.text` give its weight and its words.
-/

namespace GuardFinder

/-- The weight of a message. -/
inductive Level
  | debug
  | info
  | warn
  deriving DecidableEq, Repr

/-- The level as text. -/
def Level.text : Level → String
  | .debug => "DEBUG"
  | .info => "INFO"
  | .warn => "WARN"

/-- A message of an analysis. -/
inductive Message
  /-- An instruction found too few items on the stack, or no room for its result. -/
  | stackBounds (ins : Instruction)
  /-- A jump went to no jump destination. -/
  | invalidJump (ins : Instruction)
  /-- A path entered a function. -/
  | entering (functionName : String)
  /-- A path took a jump edge too often. -/
  | loopBound (source target : Nat)
  /-- A path entered too many blocks. -/
  | maxDepth (target : Nat)
  /-- The time for the exploration, in seconds, was over. -/
  | timedOut (seconds : Nat)
  /-- No constructor path returned code. -/
  | noRuntimeCode
  /-- The oracle gave no verdict. -/
  | oracleGaveUp (error : OracleError)
  /-- A detector looks at an event or a state space. -/
  | executing (title : String)
  /-- A detector found a function. -/
  | hit (title functionName : String)
  /-- A function checks a known role. -/
  | roleChecked (functionName : String) (role : Word)
  /-- A role as text. -/
  | roleText (text : String)
  /-- A function is guarded by a secret. -/
  | restricted (functionName : String)
  /-- The search for single owners starts. -/
  | analyzingNodes
  /-- How many slots may hold an administrator. -/
  | administrators (count : Nat)
  /-- A block reads the caller. -/
  | foundCaller (uid address : Nat)
  /-- A block reads storage. -/
  | foundLoad (uid address : Nat)
  /-- A detector asks for events. -/
  | registering (phase : Phase) (op : Opcode) (pattern : String)
  /-- An exploration starts. -/
  | starting (detectors : Nat)
  /-- A limit cut the exploration short. -/
  | partialResults
  /-- How much was explored. -/
  | explored (nodes functions : Nat)
  /-- How long an analysis took and how much it found. -/
  | finished (duration : String) (findings : Nat)
  /-- A report was written to a file. -/
  | reportWritten (path : String)
  deriving DecidableEq, Repr

namespace Message

/-- The weight of a message. -/
def level : Message → Level
  | stackBounds _ | invalidJump _ | entering _ | oracleGaveUp _ | executing _ | restricted _
  | foundCaller .. | foundLoad .. | registering .. => .debug
  | loopBound .. | maxDepth _ | timedOut _ | noRuntimeCode | partialResults => .warn
  | hit .. | roleChecked .. | roleText _ | analyzingNodes | administrators _ | starting _
  | explored .. | finished .. | reportWritten _ => .info

/-- The words of a message. -/
def text : Message → String
  | stackBounds ins => "Stack bounds violated by " ++ ins.text ++ ", path halts exceptionally"
  | invalidJump ins => "Invalid jump destination at " ++ ins.text
  | entering name => "Entering " ++ name
  | loopBound source target =>
    "Loop bound reached on edge " ++ toString source ++ " -> " ++ toString target ++ ", path pruned"
  | maxDepth target => "Max depth reached at " ++ toString target ++ ", path pruned"
  | timedOut seconds =>
    "Exploration timed out after " ++ secondsText seconds ++
      "; findings cover explored paths only"
  | noRuntimeCode =>
    "Constructor returned no concrete runtime code, message calls not explored"
  | oracleGaveUp error => "Constraint oracle gave up: " ++ error.message
  | executing title => "Executing analysis strategy " ++ title
  | hit title name => "Analysis strategy " ++ title ++ " got a hit in function " ++ name
  | roleChecked name role => "Role checked by " ++ name ++ ": " ++ Word.toHex role
  | roleText role => "Role as text: " ++ role
  | restricted name => "Function '" ++ name ++ "' is restricted by off-chain secret"
  | analyzingNodes => "Analyzing nodes of symbolic execution"
  | administrators count =>
    "Found " ++ toString count ++
      " potential storage addresses that might contain administrator accounts"
  | foundCaller uid address =>
    "Found CALLER in node " ++ toString uid ++ " at " ++ toString address
  | foundLoad uid address => "Found SLOAD in node " ++ toString uid ++ " at " ++ toString address
  | registering phase op pattern =>
    "Registering " ++ phase.text ++ " hook on " ++ op.name ++ " for " ++ pattern
  | starting detectors =>
    "Starting symbolic execution with " ++ toString detectors ++ " detector(s)"
  | partialResults => "Exploration stopped early, results are partial"
  | explored nodes functions =>
    "Explored " ++ toString nodes ++ " node(s) across " ++ toString functions ++ " function(s)"
  | finished duration findings =>
    "Analysis finished in " ++ duration ++ " with " ++ toString findings ++ " finding(s)"
  | reportWritten path => "Markdown report written to " ++ path

end Message

/-- What the parts of an analysis write to in turn: the taints of all values, the messages so far,
the last one first, and how many queries an oracle was asked. -/
structure Ledger where
  taints : Taints := ∅
  log : List Message := []
  asked : Nat := 0

/-- The ledger with one more message. -/
def Ledger.say (l : Ledger) (m : Message) : Ledger := { l with log := m :: l.log }

end GuardFinder

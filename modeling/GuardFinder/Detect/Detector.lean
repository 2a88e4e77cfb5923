import GuardFinder.Detect.Ownership
import GuardFinder.Detect.HashLock
import GuardFinder.Detect.MultipleAuthorization
import GuardFinder.Detect.XConfirmation
import GuardFinder.Detect.Roles
import GuardFinder.Detect.OffChainSecret
import GuardFinder.Detect.SingleOwner
import GuardFinder.Pattern
import GuardFinder.Settings
import Std.Data.TreeSet

/-!
# Detectors

A detector looks for one pattern and keeps its findings. It reports a function once: events of a
function that it has reported are passed over.

* `Detector.execute`: shows a detector an event.
* `Detector.inspect`: shows a detector a finished state space.
* `Detector.reset`: forgets what a run has left.
-/

namespace GuardFinder

/-- How a pattern is looked for, with what is remembered between events. -/
inductive Strategy
  | ownership (ceiling : Word)
  | hashLock (maxLength : Nat)
  | roles (memo : Roles.Memo)
  | multipleAuthorization (ceiling : Word)
  | xConfirmation
  | offChainSecret
  | singleOwner

namespace Strategy

/-- The strategy for a pattern. -/
def ofPattern (s : Settings) : Pattern → Strategy
  | .ownership => ownership s.storageIndexCeiling
  | .hashLock => hashLock s.hashLockMaxLength
  | .roles => roles {}
  | .multipleAuthorization => multipleAuthorization s.storageIndexCeiling
  | .xConfirmation => xConfirmation
  | .offChainSecret => offChainSecret
  | .singleOwner => singleOwner

/-- The pattern that a strategy looks for. -/
def pattern : Strategy → Pattern
  | ownership _ => .ownership
  | hashLock _ => .hashLock
  | roles _ => .roles
  | multipleAuthorization _ => .multipleAuthorization
  | xConfirmation => .xConfirmation
  | offChainSecret => .offChainSecret
  | singleOwner => .singleOwner

/-- The opcodes to be told about before and after they are executed. -/
def opcodes : Strategy → List Opcode × List Opcode
  | ownership _ => (Ownership.preOpcodes, Ownership.postOpcodes)
  | hashLock _ => (HashLock.preOpcodes, HashLock.postOpcodes)
  | roles _ => (Roles.preOpcodes, Roles.postOpcodes)
  | multipleAuthorization _ =>
    (MultipleAuthorization.preOpcodes, MultipleAuthorization.postOpcodes)
  | xConfirmation => (XConfirmation.preOpcodes, XConfirmation.postOpcodes)
  | offChainSecret | singleOwner => ([], [])

/-- Whether a strategy looks at events. -/
def watchesEvents : Strategy → Bool
  | offChainSecret | singleOwner => false
  | _ => true

/-- The strategy at the start of a run. -/
def cleared : Strategy → Strategy
  | roles _ => roles {}
  | s => s

/-- Looks at an event. -/
def observe (e : Event) : EStateM Underflow (Strategy × Ledger) (Option Finding) :=
  fun (strategy, ledger) =>
    match strategy with
    | ownership ceiling => (Ownership.observe ceiling e).besides (strategy, ledger)
    | hashLock maxLength => (HashLock.observe maxLength e).besides (strategy, ledger)
    | multipleAuthorization ceiling =>
      (MultipleAuthorization.observe ceiling e).besides (strategy, ledger)
    | xConfirmation => (XConfirmation.observe e).besides (strategy, ledger)
    | roles memo =>
      match Roles.observe e (memo, ledger) with
      | .ok finding (memo, ledger) => .ok finding (roles memo, ledger)
      | .error u (memo, ledger) => .error u (roles memo, ledger)
    | offChainSecret | singleOwner => .ok none (strategy, ledger)

/-- Looks at a state space, if the strategy does that. -/
def inspect? (oracle : Oracle) (space : StateSpace) : Strategy → Option (Watch (List Finding))
  | offChainSecret => some (OffChainSecret.inspect space)
  | singleOwner => some (SingleOwner.inspect oracle space)
  | _ => none

end Strategy

/-- A strategy and what it found in the current run. -/
structure Detector where
  strategy : Strategy
  /-- The functions reported so far. -/
  reported : Std.TreeSet String := ∅
  findings : List Finding := []

namespace Detector

/-- The detector for a pattern. -/
def ofPattern (s : Settings) (p : Pattern) : Detector := { strategy := .ofPattern s p }

/-- The pattern that a detector looks for. -/
def pattern (d : Detector) : Pattern := d.strategy.pattern

/-- The opcodes that a detector wants to be told about, with the phases. -/
def wishes (d : Detector) : List (Phase × Opcode) :=
  d.strategy.opcodes.1.map (Phase.pre, ·) ++ d.strategy.opcodes.2.map (Phase.post, ·)

/-- Adds a finding. -/
def record (f : Finding) : EStateM Underflow (Detector × Ledger) Unit :=
  modify fun (d, ledger) =>
    ({ d with reported := d.reported.insert f.functionName, findings := d.findings ++ [f] },
      ledger.say (.hit d.pattern.title f.functionName))

/-- Shows a detector an event. -/
def execute (e : Event) : EStateM Underflow (Detector × Ledger) (Option Finding) :=
  fun (d, ledger) =>
    if d.reported.contains e.state.functionName then .ok none (d, ledger)
    else if d.strategy.watchesEvents then
      match Strategy.observe e (d.strategy, ledger.say (.executing d.pattern.title)) with
      | .ok none (strategy, ledger) => .ok none ({ d with strategy }, ledger)
      | .ok (some f) (strategy, ledger) =>
        match record f ({ d with strategy }, ledger) with
        | .ok _ state => .ok (some f) state
        | .error u state => .error u state
      | .error u (strategy, ledger) => .error u ({ d with strategy }, ledger)
    else .ok none (d, ledger)

/-- Adds the findings of functions that are not reported yet. -/
def recordNew : List Finding → EStateM Underflow (Detector × Ledger) Unit
  | [] => pure ()
  | f :: rest => do
    unless (← get).1.reported.contains f.functionName do record f
    recordNew rest

/-- Shows a detector a finished state space. -/
def inspect (oracle : Oracle) (space : StateSpace) :
    EStateM Underflow (Detector × Ledger) Unit := do
  let d := (← get).1
  match d.strategy.inspect? oracle space with
  | none => pure ()
  | some look =>
    Watch.say (.executing d.pattern.title)
    recordNew (← look)

/-- The detector at the start of a run. -/
def reset (d : Detector) : Detector := { strategy := d.strategy.cleared }

end Detector

end GuardFinder

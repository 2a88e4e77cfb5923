import GuardFinder.Log
import GuardFinder.Finding

/-!
# Watching events

Detectors work in a monad whose state is the ledger and whose errors are stack underflows. A
detector that fails leaves the ledger as it was at that point, so what it did before it failed
stays.
-/

namespace GuardFinder

/-- A look at events and taints. -/
abbrev Watch := EStateM Underflow Ledger

/-- Work on a ledger next to a state of another kind. -/
def Watch.besides {σ α : Type} (w : Watch α) : EStateM Underflow (σ × Ledger) α :=
  fun (state, ledger) =>
    match w ledger with
    | .ok a ledger => .ok a (state, ledger)
    | .error e ledger => .error e (state, ledger)

instance {σ : Type} : MonadLift Watch (EStateM Underflow (σ × Ledger)) := ⟨Watch.besides⟩

namespace Watch

/-- A look that may fail. -/
def ofExcept {α : Type} (r : Except Underflow α) : Watch α :=
  match r with
  | .ok a => pure a
  | .error e => throw e

/-- Writes a message. -/
def say (m : Message) : Watch Unit := modify (·.say m)

/-- The number of the next query to an oracle. -/
def nextQuery : Watch Nat := modifyGet fun l => (l.asked, { l with asked := l.asked + 1 })

/-- The taints of a value. -/
def taintsOf (v : Value) : Watch TaintSet := do return (← get).taints.get v.tag

/-- Puts a taint on a value. -/
def annotate (v : Value) (a : Taint) : Watch Unit :=
  modify fun l => { l with taints := l.taints.annotate v.tag a }

/-- Takes a taint from a value, and tells whether it was there. -/
def discard (v : Value) (a : Taint) : Watch Bool := do
  let there := (← get).taints.has v.tag a
  modify fun l => { l with taints := l.taints.discard v.tag a }
  return there

/-- An item of the stack of an event's state. -/
def item (e : Event) (depth : Nat) : Watch Value := ofExcept (e.state.peek depth)

/-- An item of the stack that a frame found. -/
def itemOf (f : Frame) (depth : Nat) : Watch Value := ofExcept (f.peek depth)

/-- The slot that the instruction before an event read from storage, when it is known. -/
def loadedSlot? (e : Event) : Watch (Option Word) :=
  match e.previous with
  | some frame => return (← itemOf frame 0).const?
  | none => return none

end Watch

end GuardFinder

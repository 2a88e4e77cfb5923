import GuardFinder.Explore.Machine
import GuardFinder.Target

/-!
# Explorations

An explorer runs the code of a target along all paths and reports to an observer. Observers
subscribe to opcodes, before or after they are executed; they may change taints, keep a state of
their own, and fail, which ends the exploration.

* `runPaths`: advances paths until none is left or the time is over. It ends because steps lose
  weight.
* `transaction`: the paths that start at the first byte of a code.
* `Explorer.explore`: a target. Creation code runs first, and the code it returned after it.
-/

namespace GuardFinder

/-- A wish to be told about an opcode. -/
structure Hook where
  phase : Phase
  opcode : Opcode
  subscriber : Nat
  deriving DecidableEq, Repr

/-- Something that is told about events, with a state of type `σ`. -/
structure Observer (σ : Type) where
  /-- Tells a subscriber about an event. -/
  notify : Nat → Event → EStateM AnalysisError (σ × Ledger) Unit

/-- Where an exploration stands. -/
structure Progress where
  /-- The paths to go on with, the running one first. -/
  paths : List Path
  space : StateSpace
  supply : Supply
  /-- The bytes of the first path that ended by returning known ones. -/
  returned : Option Bytes := none

/-- What an exploration needs to know and never changes. -/
structure Setting (σ : Type) where
  program : Program
  limits : Limits
  /-- The seconds that have passed when a run stands at a point. It looks at its clock before every
  step and never stands at one point twice, so that the looks may show anything. -/
  clock : Progress → Nat := fun _ => 0
  hooks : List Hook
  observer : Observer σ

namespace Setting

variable {σ : Type}

/-- Whether the time is over. -/
def late (x : Setting σ) (g : Progress) : Bool := x.limits.seconds ≤ x.clock g

/-- Those who wait for an opcode, in the order in which they subscribed. -/
def subscribers (x : Setting σ) (phase : Phase) (op : Opcode) : List Nat :=
  (x.hooks.filter fun h => h.phase = phase ∧ h.opcode = op).map (·.subscriber)

/-- Tells subscribers about an event, one after the other. -/
def notifyAll (x : Setting σ) (e : Event) : List Nat → EStateM AnalysisError (σ × Ledger) Unit
  | [] => pure ()
  | subscriber :: rest => do
    x.observer.notify subscriber e
    x.notifyAll e rest

/-- Passes on a signal. -/
def play (x : Setting σ) : Signal → EStateM AnalysisError (σ × Ledger) Unit
  | .event op e => x.notifyAll e (x.subscribers e.phase op)
  | .inherit i => modify fun (state, ledger) =>
    (state, { ledger with taints := ledger.taints.inherit i })
  | .message m => modify fun (state, ledger) => (state, ledger.say m)

/-- Passes on signals in their order. -/
def playAll (x : Setting σ) : List Signal → EStateM AnalysisError (σ × Ledger) Unit
  | [] => pure ()
  | signal :: rest => do
    x.play signal
    x.playAll rest

end Setting

/-- How a run ended: where it stood, what the observer made of it, and the failure that stopped it,
if one did. -/
structure RunEnd (σ : Type) where
  progress : Progress
  watch : σ × Ledger
  failure : Option AnalysisError := none

/-- Whether an instruction finds its operands on a stack and leaves no more than the stack holds. -/
def fitsStack (op : Opcode) (stack : List Value) : Bool :=
  let height := stack.length
  op.pops ≤ height && height - op.pops + op.pushes ≤ stackLimit

set_option linter.unusedVariables false in
/-- Advances the paths until none is left or the time is over. -/
def runPaths {σ : Type} (x : Setting σ) (g : Progress) (watch : σ × Ledger) : RunEnd σ :=
  match hp : g.paths with
  | [] => { progress := g, watch }
  | path :: pending =>
    if x.late g then
      { progress := { g with space := { g.space with complete := false } }
        watch := (watch.1, watch.2.say (.timedOut x.limits.seconds)) }
    else
      match hi : x.program.at? path.pc with
      | none => runPaths x { g with paths := pending } watch
      | some ins =>
        if fitsStack ins.opcode path.stack then
          let event : Event := ⟨.pre, path.view ins, path.lastFrame⟩
          match x.play (.event ins.opcode event) watch with
          | .error failure watch => { progress := g, watch, failure := some failure }
          | .ok _ watch =>
            match hs : stepAt x.program x.limits g.space g.supply path ins with
            | { space, supply, paths, returned, signals } =>
              let g' : Progress :=
                { paths := paths ++ pending, space, supply,
                  returned := g.returned.or returned }
              match x.playAll signals watch with
              | .error failure watch => { progress := g', watch, failure := some failure }
              | .ok _ watch => runPaths x g' watch
        else runPaths x { g with paths := pending } (watch.1, watch.2.say (.stackBounds ins))
termination_by weightSum x.program x.limits g.paths
decreasing_by
  all_goals simp only [hp]
  · exact weightSum_pending_lt ..
  · have h := weightSum_stepAt_lt x.program x.limits g.space g.supply path ins hi
    rw [hs] at h
    simp only [weightSum_append]
    simp only [weightSum] at h ⊢
    omega
  · exact weightSum_pending_lt ..

/-- The name of the function that the paths through creation code are in. -/
def constructorName : String := "constructor"

/-- The name of the function that a message call is in before a selector matched. -/
def fallbackName : String := "fallback"

/-- Explores a code from its first byte on. -/
def transaction {σ : Type} (x : Setting σ) (entry : String) (space : StateSpace) (supply : Supply)
    (watch : σ × Ledger) : RunEnd σ :=
  let root := space.nodes.size
  runPaths x
    { paths := [Path.start entry root]
      space := space.addNode entry 0 []
      supply }
    watch

/-- Explores targets one after the other; keeps its hooks and goes on numbering results. -/
structure Explorer where
  limits : Limits
  /-- The seconds that have passed when an exploration stands at a point. Without a clock, no time
  passes. -/
  clock : Progress → Nat := fun _ => 0
  hooks : List Hook := []
  /-- How many results have been numbered. -/
  havocs : Nat := 0

/-- How an exploration ended. -/
structure Exploration (σ : Type) where
  explorer : Explorer
  watch : σ × Ledger
  result : Except AnalysisError StateSpace

namespace Explorer

variable {σ : Type}

/-- Adds a hook, unless it is there already. -/
def register (x : Explorer) (hook : Hook) : Explorer :=
  if hook ∈ x.hooks then x else { x with hooks := x.hooks ++ [hook] }

/-- Takes all hooks away. -/
def clearHooks (x : Explorer) : Explorer := { x with hooks := [] }

/-- What a run of a code needs to know. -/
def setting (x : Explorer) (observer : Observer σ) (code : Bytes) : Setting σ where
  program := .ofCode code
  limits := x.limits
  clock := x.clock
  hooks := x.hooks
  observer

/-- The outcome when a run was the last one. -/
def finish (x : Explorer) (e : RunEnd σ) : Exploration σ where
  explorer := { x with havocs := e.progress.supply.havocs }
  watch := e.watch
  result := match e.failure with
    | some failure => .error failure
    | none => .ok e.progress.space

/-- Explores a target. Taints start afresh. -/
def explore (x : Explorer) (observer : Observer σ) (target : Target) (watch : σ × Ledger) :
    Exploration σ :=
  let watch := (watch.1, { watch.2 with taints := ∅ })
  let supply : Supply := { havocs := x.havocs }
  match target with
  | .deployed _ code =>
    x.finish (transaction (x.setting observer code) fallbackName {} supply watch)
  | .creation code =>
    let created := transaction (x.setting observer code) constructorName {} supply watch
    match created.failure with
    | some _ => x.finish created
    | none =>
      match created.progress.returned with
      | some (byte :: rest) =>
        x.finish (transaction (x.setting observer (byte :: rest)) fallbackName
          created.progress.space created.progress.supply created.watch)
      | _ =>
        let watch := (created.watch.1, created.watch.2.say .noRuntimeCode)
        x.finish { created with watch }

end Explorer

end GuardFinder

import GuardFinder.Detect.Registry
import GuardFinder.Report
import GuardFinder.Snapshot

/-!
# Analyses

An analysis explores targets one after the other with the same detectors, and reports what they
found. Each run starts with fresh detectors and hooks; only the numbering of results goes on.

* `Analysis.execute`: a run on one target. A run that fails leaves the analysis usable.
-/

namespace GuardFinder

/-- An analysis and what it has written to its log, the last message first. -/
structure Analysis where
  oracle : Oracle
  explorer : Explorer
  registry : Registry
  log : List Message := []

/-- How many seconds explorations and queries have taken whenever they look at the clock. -/
structure Clocks where
  exploration : Progress → Nat := fun _ => 0
  /-- By the number of the query and how often it has looked. -/
  queries : Nat → Nat → Nat := fun _ _ => 0

namespace Analysis

/-- The analysis with other clocks. -/
def withClocks (a : Analysis) (s : Settings) (clocks : Clocks) : Analysis :=
  { a with
    oracle := .structural s.solverTimeout clocks.queries
    explorer.clock := clocks.exploration }

/-- A new analysis. -/
def new (s : Settings) (registry : Registry) : Analysis where
  oracle := .structural s.solverTimeout
  explorer := { limits := s.limits }
  registry

/-- Fresh detectors, with their hooks registered. -/
def prepare (a : Analysis) : Analysis :=
  let registry := a.registry.reset
  let hooks := registry.hooks
  let messages := hooks.map fun (hook, pattern) =>
    Message.registering hook.phase hook.opcode pattern.name
  { a with
    registry
    explorer := (hooks.map (·.1)).foldl Explorer.register a.explorer.clearHooks
    log := messages.reverse ++ a.log }

/-- Fills in what the slot of a finding holds. -/
def resolveFinding (address : Address) (reader : StorageReader) (f : Finding) :
    Except AnalysisError Finding :=
  match f.slot with
  | none => .ok f
  | some slot =>
    match reader.read address slot with
    | .ok value => .ok { f with content := some ("0x" ++ Hex.encode (Word.toBytes value)) }
    | .error reason => .error (.storageRead address slot reason)

/-- Fills in what the slots of all findings hold. -/
def resolveItems (address : Address) (reader : StorageReader) (items : List ReportItem) :
    Except AnalysisError (List ReportItem) :=
  items.mapM fun item => do
    let findings ← item.findings.mapM (resolveFinding address reader)
    return { item with findings }

/-- The item with what a detector found. -/
def reportItem (d : Detector) : ReportItem :=
  d.findings.foldl ReportItem.addFinding (.ofPattern d.pattern)

/-- The report on a target. -/
def report (target : Target) (reader : Option StorageReader) (registry : Registry) :
    Except AnalysisError Report := do
  let items := registry.detectors.map reportItem
  let items ← match target.address?, reader with
    | some address, some reader => resolveItems address reader items
    | _, _ => pure items
  return {
    contractAddress := target.address?.map Address.text
    contractCode := some ("0x" ++ Hex.encode target.code)
    items }

/-- Explores a target and reports what the detectors found. Slots are looked up for deployed targets
only, and only with a reader. -/
def execute (target : Target) (reader : Option StorageReader) :
    EStateM AnalysisError Analysis Report := fun a =>
  let a := a.prepare
  let log := Message.starting a.registry.detectors.length :: a.log
  let explored := a.explorer.explore Registry.observer target (a.registry, { log })
  let (registry, ledger) := explored.watch
  let a := { a with explorer := explored.explorer }
  match explored.result with
  | .error e => .error e { a with registry, log := ledger.log }
  | .ok space =>
    let ledger := if space.complete then ledger else ledger.say .partialResults
    let ledger := ledger.say (.explored space.nodes.size space.functionNames.length)
    match Registry.inspect a.oracle space (registry, ledger) with
    | .error u (registry, ledger) =>
      .error (.stackUnderflow u) { a with registry, log := ledger.log }
    | .ok _ (registry, ledger) =>
      let a := { a with registry, log := ledger.log }
      match report target reader registry with
      | .ok r => .ok r a
      | .error e => .error e a

end Analysis

end GuardFinder

import GuardFinder.Detect.Detector
import GuardFinder.Explore.Explorer

/-!
# Registries

The detectors of an analysis. As subscribers they are numbered by their places.
-/

namespace GuardFinder

/-- The detectors of an analysis. -/
structure Registry where
  detectors : List Detector

namespace Registry

/-- The detectors for all patterns. -/
def full (s : Settings) : Registry := ⟨Pattern.all.map (Detector.ofPattern s)⟩

/-- The detectors for named patterns, in their order. -/
def ofNames (s : Settings) (names : List String) : Except AnalysisError Registry := do
  let detectors ← names.mapM fun name =>
    match Pattern.ofName? name with
    | some p => pure (Detector.ofPattern s p)
    | none => throw (.unknownPattern name)
  return ⟨detectors⟩

/-- The detectors for named patterns, or for all of them when no name is given. -/
def choose (s : Settings) (names : List String) : Except AnalysisError Registry :=
  if names.isEmpty then .ok (full s) else ofNames s names

/-- The hooks of all detectors, each with the name of its pattern. -/
def hooks (r : Registry) : List (Hook × Pattern) :=
  r.detectors.zipIdx.flatMap fun (d, i) =>
    d.wishes.map fun (phase, op) => (⟨phase, op, i⟩, d.pattern)

/-- The detectors at the start of a run. -/
def reset (r : Registry) : Registry := ⟨r.detectors.map Detector.reset⟩

/-- Shows an event to a detector. -/
def dispatch (subscriber : Nat) (e : Event) : EStateM AnalysisError (Registry × Ledger) Unit :=
  fun (r, ledger) =>
    match r.detectors[subscriber]? with
    | none => .error (.unknownSubscriber subscriber) (r, ledger)
    | some d =>
      match Detector.execute e (d, ledger) with
      | .ok _ (d, ledger) => .ok () (⟨r.detectors.set subscriber d⟩, ledger)
      | .error u (d, ledger) =>
        .error (.stackUnderflow u) (⟨r.detectors.set subscriber d⟩, ledger)

/-- The registry as an observer of explorations. -/
def observer : Observer Registry := ⟨dispatch⟩

/-- Shows a finished state space to detectors, one after the other. The detectors before them are
given last first. -/
def inspectAll (oracle : Oracle) (space : StateSpace) (done : List Detector) (ledger : Ledger) :
    List Detector → EStateM.Result Underflow (Registry × Ledger) Unit
  | [] => .ok () (⟨done.reverse⟩, ledger)
  | d :: rest =>
    match Detector.inspect oracle space (d, ledger) with
    | .ok _ (d, ledger) => inspectAll oracle space (d :: done) ledger rest
    | .error u (d, ledger) => .error u (⟨done.reverse ++ d :: rest⟩, ledger)

/-- Shows a finished state space to all detectors. -/
def inspect (oracle : Oracle) (space : StateSpace) :
    EStateM Underflow (Registry × Ledger) Unit :=
  fun (r, ledger) => inspectAll oracle space [] ledger r.detectors

end Registry

end GuardFinder

import GuardFinder.Proofs.Blocks

/-!
# The turns of a run

A run gives the floor to one path after the other. A turn is one step of one path, with all that
was there when it began: so a run is a list of turns, in the order in which instructions were
executed, and what is told of it is told turn by turn.

* `Turn`: a step of a path. `Turn.events`: what is told of it.
* `Progress.Plays`: the turns of a run, in their order.
* `Observer.Records`: a subscriber that notes down all that it is told.
* `runPaths_records`: **what is noted down of a run is what is told of its turns**.
-/

namespace GuardFinder

/-! ### Turns -/

/-- The instruction at an address, or a stop past the end of the code. -/
def Program.instructionAt (program : Program) (address : Nat) : Instruction :=
  (program.at? address).getD ⟨address, .stop, none⟩

/-- A step of a path, with the state space, the supply and the path as they were before it. -/
structure Turn where
  program : Program
  limits : Limits
  space : StateSpace
  supply : Supply
  path : Path
  instruction : Instruction

namespace Turn

/-- The frame that the turn has left. -/
def frame (t : Turn) : Frame := ⟨t.instruction, t.path.stack⟩

/-- Where the frame is: the node, and how many frames the node had before. -/
def place (t : Turn) : Nat × Nat := (t.path.node, (t.space.framesAt t.path.node).length)

/-- The effect of the instruction. -/
def effect (t : Turn) : Effect := execute t.program t.instruction t.path t.supply

/-- The step that the path has taken. -/
def step (t : Turn) : Step := stepAt t.program t.limits t.space t.supply t.path t.instruction

/-- The event before the instruction. -/
def before (t : Turn) : Event := ⟨.pre, t.path.view t.instruction, t.path.lastFrame⟩

/-- The event after the instruction, for a path that has gone on. -/
def after (t : Turn) (q : Path) : Event :=
  ⟨.post, q.view (t.program.instructionAt q.pc), some t.frame⟩

/-- What is told of the turn. Of two paths that go on, the one that did not jump is told of first. -/
def events (t : Turn) : List Event := t.before :: t.step.paths.reverse.map t.after

end Turn

/-- The event of a signal. -/
def Signal.event? : Signal → Option Event
  | .event _ e => some e
  | .inherit _ | .message _ => none

section

variable {program : Program} {limits : Limits} {s : StateSpace} {p : Path}

theorem filterMap_event?_inheritSignals (inheritances : List Inheritance) :
    (inheritSignals inheritances).filterMap Signal.event? = [] := by
  rw [List.filterMap_eq_nil_iff]
  intro signal hsignal
  obtain ⟨i, -, rfl⟩ := List.mem_map.mp hsignal
  rfl

theorem events_follow {frame : Frame} {target : Nat} {kind : EdgeKind} :
    (follow program limits s p frame target kind).signals.filterMap Signal.event? =
      (follow program limits s p frame target kind).paths.reverse.map fun q =>
        ⟨.post, q.view (program.instructionAt q.pc), some frame⟩ := by
  unfold follow
  split <;> rfl

theorem events_forkStep {supply : Supply} {frame : Frame} {destination : Value} {condition : Term} :
    (forkStep program limits s supply p frame destination condition).signals.filterMap
        Signal.event? =
      (forkStep program limits s supply p frame destination condition).paths.reverse.map fun q =>
        ⟨.post, q.view (program.instructionAt q.pc), some frame⟩ := by
  unfold forkStep
  simp only
  have hname (name? : Option String) :
      (name?.map fun name => Signal.message (.entering name)).toList.filterMap Signal.event? =
        [] := by
    cases name? <;> rfl
  cases jumpTarget? program destination with
  | none =>
    simp only [List.filterMap_append, filterMap_event?_inheritSignals, events_follow,
      List.nil_append]
  | some target =>
    simp only [List.filterMap_append, filterMap_event?_inheritSignals, events_follow, hname,
      List.nil_append, List.append_nil, List.reverse_append, List.map_append]

/-- **The events of a step are those after its instruction**, one for each path that goes on. -/
theorem events_stepAt {supply : Supply} {ins : Instruction} :
    (stepAt program limits s supply p ins).signals.filterMap Signal.event? =
      (stepAt program limits s supply p ins).paths.reverse.map fun q =>
        ⟨.post, q.view (program.instructionAt q.pc), some ⟨ins, p.stack⟩⟩ := by
  unfold stepAt
  generalize execute program ins p supply = e
  simp only
  cases e.flow with
  | next =>
    simp only [List.filterMap_append, filterMap_event?_inheritSignals, List.nil_append]
    rfl
  | halt returned => exact filterMap_event?_inheritSignals _
  | jump destination =>
    simp only
    cases jumpTarget? program destination with
    | none =>
      simp only [List.filterMap_append, filterMap_event?_inheritSignals, List.nil_append]
      rfl
    | some target =>
      simp only [List.filterMap_append, filterMap_event?_inheritSignals, List.nil_append,
        events_follow]
  | branch destination condition =>
    simp only
    cases condition.const? with
    | none => exact events_forkStep
    | some v =>
      simp only
      generalize (if v = 0 then some ins.nextAddress else jumpTarget? program destination) = target?
      cases target? with
      | none => exact filterMap_event?_inheritSignals _
      | some target =>
        simp only [List.filterMap_append, filterMap_event?_inheritSignals, List.nil_append,
          events_follow]

end

theorem Progress.events_signals (program : Program) (limits : Limits) (g : Progress) (p : Path)
    (ins : Instruction) :
    (Progress.signals program limits g p ins).filterMap Signal.event? =
      (Turn.mk program limits g.space g.supply p ins).events := by
  have hpre (signals : List Signal) (e : Event) :
      (Signal.event ins.opcode e :: signals).filterMap Signal.event? =
        e :: signals.filterMap Signal.event? := rfl
  rw [Progress.signals, hpre, events_stepAt]
  rfl

/-! ### Runs -/

namespace Progress

/-- The turns of a run from one progress to another, in their order. The run may end early. -/
inductive Plays (program : Program) (limits : Limits) : Progress → List Turn → Progress → Prop
  | done {g : Progress} (finished : g.paths = []) : Plays program limits g [] g
  | late {g : Progress} {p : Path} {ps : List Path} (paths : g.paths = p :: ps) :
      Plays program limits g [] g.cutShort
  | ended {g g' : Progress} {p : Path} {ps : List Path} {turns : List Turn}
      (paths : g.paths = p :: ps) (past : program.at? p.pc = none)
      (rest : Plays program limits { g with paths := ps } turns g') : Plays program limits g turns g'
  | unfit {g g' : Progress} {p : Path} {ps : List Path} {ins : Instruction} {turns : List Turn}
      (paths : g.paths = p :: ps) (at_ins : program.at? p.pc = some ins)
      (unfit : ¬fitsStack ins.opcode p.stack = true)
      (rest : Plays program limits { g with paths := ps } turns g') : Plays program limits g turns g'
  | turn {g g' : Progress} {p : Path} {ps : List Path} {ins : Instruction} {turns : List Turn}
      (paths : g.paths = p :: ps) (at_ins : program.at? p.pc = some ins)
      (fits : fitsStack ins.opcode p.stack = true)
      (rest : Plays program limits (g.stepped program limits p ps ins) turns g') :
      Plays program limits g (⟨program, limits, g.space, g.supply, p, ins⟩ :: turns) g'

end Progress

/-- A subscriber that never fails, and notes down what it is told, last event last. -/
def Observer.Records {σ : Type} (observer : Observer σ) (i : Nat) (record : σ → List Event) :
    Prop :=
  ∀ e watch, ∃ watch', observer.notify i e watch = .ok () watch' ∧
    record watch'.1 = record watch.1 ++ [e]

section

variable {σ : Type} {x : Setting σ} {i : Nat} {record : σ → List Event}

/-- The one subscriber of all opcodes notes down what it is told. -/
structure Setting.Records (x : Setting σ) (i : Nat) (record : σ → List Event) : Prop where
  observer : x.observer.Records i record
  subscribers : ∀ phase op, x.subscribers phase op = [i]

theorem Setting.Records.play (hx : x.Records i record) (signal : Signal) (watch : σ × Ledger) :
    ∃ watch', x.play signal watch = .ok () watch' ∧
      record watch'.1 = record watch.1 ++ signal.event?.toList := by
  cases signal with
  | inherit | message => exact ⟨_, rfl, (List.append_nil _).symm⟩
  | event op e =>
    obtain ⟨watch', hrun, hrecord⟩ := hx.observer e watch
    refine ⟨watch', ?_, hrecord⟩
    simp only [Setting.play, hx.subscribers, Setting.notifyAll, bind_run, hrun, pure_run]

theorem Setting.Records.playAll (hx : x.Records i record) (signals : List Signal) :
    ∀ watch, ∃ watch', x.playAll signals watch = .ok () watch' ∧
      record watch'.1 = record watch.1 ++ signals.filterMap Signal.event? := by
  induction signals with
  | nil => exact fun watch => ⟨watch, rfl, (List.append_nil _).symm⟩
  | cons signal rest ih =>
    intro watch
    obtain ⟨watch₁, hrun₁, hrecord₁⟩ := hx.play signal watch
    obtain ⟨watch₂, hrun₂, hrecord₂⟩ := ih watch₁
    refine ⟨watch₂, by simp only [Setting.playAll, bind_run, hrun₁, hrun₂], ?_⟩
    rw [hrecord₂, hrecord₁, List.append_assoc]
    cases signal <;> rfl

/-- **What is noted down of a run is what is told of its turns.** -/
theorem runPaths_records (hx : x.Records i record) (g : Progress) (watch : σ × Ledger) :
    ∃ turns, Progress.Plays x.program x.limits g turns (runPaths x g watch).progress ∧
      (runPaths x g watch).failure = none ∧
      record (runPaths x g watch).watch.1 = record watch.1 ++ turns.flatMap Turn.events := by
  induction hweight : weightSum x.program x.limits g.paths using Nat.strongRecOn
    generalizing g watch with
  | ind weight ih =>
    subst hweight
    cases hp : g.paths with
    | nil =>
      rw [runPaths_of_nil hp]
      exact ⟨[], .done hp, rfl, (List.append_nil _).symm⟩
    | cons p ps =>
      have hdrop : weightSum x.program x.limits ps < weightSum x.program x.limits (p :: ps) :=
        weightSum_pending_lt ..
      by_cases hs : x.late g = true
      · rw [runPaths_of_late hp hs]
        exact ⟨[], .late hp, rfl, (List.append_nil _).symm⟩
      · cases hi : x.program.at? p.pc with
        | none =>
          rw [runPaths_of_ended hp hs hi]
          obtain ⟨turns, hplays, hend⟩ := ih _ (hp ▸ hdrop) { g with paths := ps } watch rfl
          exact ⟨turns, .ended hp hi hplays, hend⟩
        | some ins =>
          by_cases hf : fitsStack ins.opcode p.stack = true
          · obtain ⟨watch', hplay, hrecord⟩ :=
              hx.playAll (g.signals x.program x.limits p ins) watch
            rw [runPaths_of_step hp hs hi hf hplay]
            have hlt := weightSum_stepAt_lt x.program x.limits g.space g.supply p ins hi
            obtain ⟨turns, hplays, hfailure, hend⟩ := ih _ (by
              rw [hp, Progress.stepped, weightSum_append]
              simp only [weightSum]
              omega) (g.stepped x.program x.limits p ps ins) watch' rfl
            refine ⟨_, .turn hp hi hf hplays, hfailure, ?_⟩
            rw [hend, hrecord, Progress.events_signals, List.flatMap_cons, List.append_assoc]
          · rw [runPaths_of_unfit hp hs hi hf]
            obtain ⟨turns, hplays, hend⟩ := ih _ (hp ▸ hdrop) { g with paths := ps }
              (watch.1, watch.2.say (.stackBounds ins)) rfl
            exact ⟨turns, .unfit hp hi hf hplays, hend⟩

end

end GuardFinder

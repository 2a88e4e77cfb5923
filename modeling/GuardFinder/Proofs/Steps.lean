import GuardFinder.Explore.Explorer
import GuardFinder.Proofs.Effects
import Mathlib.Logic.Relation

/-!
# What a step can do

One place that says what steps do to a state space and to the paths in it. What holds at all times
of an exploration is shown from here, without another look at how steps are made.

* `Path.Enters`: following an edge ends in a new node, or prunes the path for a limit it broke.
* `Steps`: the ways in which a path can go on after an instruction, of which `steps_stepAt` says
  that there are no others. `Steps.rule` looks at them edge by edge.
* `Progress.Advance`: a path runs off the code, does not fit its instruction, or takes a step.
* `runPaths_reaches`: **a run only advances**, and goes on until no path is left unless an observer
  fails or the time is over.
-/

namespace GuardFinder

/-! ### Nodes -/

namespace StateSpace

/-- Adds a node and an edge to it. -/
def addChild (s : StateSpace) (p : Path) (target : Nat) (kind : EdgeKind) : StateSpace :=
  (s.addNode p.functionName target p.constraints).addEdge ⟨p.node, s.nodes.size, kind⟩

theorem size_nodes_addFrame (s : StateSpace) (u : Nat) (f : Frame) :
    (s.addFrame u f).nodes.size = s.nodes.size := by
  simp [addFrame]

theorem getElem?_nodes_addFrame (s : StateSpace) (u : Nat) (f : Frame) (v : Nat) :
    (s.addFrame u f).nodes[v]? =
      s.nodes[v]?.map fun n => if v = u then { n with frames := n.frames.push f } else n := by
  simp only [addFrame, Array.getElem?_modify]
  by_cases hv : v = u
  · simp [hv]
  · simp [hv, Ne.symm hv]

theorem getElem?_nodes_addFrame_self {s : StateSpace} {u : Nat} {n : Node}
    (hn : s.nodes[u]? = some n) (f : Frame) :
    (s.addFrame u f).nodes[u]? = some { n with frames := n.frames.push f } := by
  rw [getElem?_nodes_addFrame, hn, Option.map_some, if_pos rfl]

theorem getElem?_nodes_addChild (s : StateSpace) (p : Path) (target : Nat) (kind : EdgeKind)
    (v : Nat) :
    (s.addChild p target kind).nodes[v]? =
      if v = s.nodes.size then
        some ⟨s.nodes.size, p.functionName, target, #[], p.constraints⟩
      else s.nodes[v]? := by
  simp only [addChild, addNode, addEdge, Array.getElem?_push]

end StateSpace

/-! ### Edges -/

/-- The path that an edge leads to. -/
def Path.moved (p : Path) (source target node : Nat) : Path :=
  { p with trail := p.trail.push (source, target), node, pc := target, lastFrame := none }

/-- A path follows an edge: it goes on in a new node, or it is pruned. -/
inductive Path.Enters (limits : Limits) (p : Path) (source target : Nat) (kind : EdgeKind)
    (s : StateSpace) : StateSpace → List Path → Prop
  | entered
      (loops : (p.trail.push (source, target)).count (source, target) ≤ limits.loopBound)
      (depth : (p.trail.push (source, target)).length ≤ limits.maxDepth) :
      p.Enters limits source target kind s (s.addChild p target kind)
        [p.moved source target s.nodes.size]
  | pruned
      (spent : limits.loopBound < (p.trail.push (source, target)).count (source, target) ∨
        limits.maxDepth < (p.trail.push (source, target)).length) :
      p.Enters limits source target kind s { s with complete := false } []

theorem enters_follow (program : Program) (limits : Limits) (s : StateSpace) (p : Path)
    (frame : Frame) (target : Nat) (kind : EdgeKind) :
    p.Enters limits frame.instruction.address target kind s
      (follow program limits s p frame target kind).space
      (follow program limits s p frame target kind).paths := by
  unfold follow Path.enter
  simp only
  by_cases hloop : limits.loopBound <
      (p.trail.push (frame.instruction.address, target)).count (frame.instruction.address, target)
  · simp only [if_pos hloop]
    exact .pruned (.inl hloop)
  · simp only [if_neg hloop]
    by_cases hdepth : limits.maxDepth <
        (p.trail.push (frame.instruction.address, target)).length
    · simp only [if_pos hdepth]
      exact .pruned (.inr hdepth)
    · simp only [if_neg hdepth]
      exact .entered (Nat.le_of_not_lt hloop) (Nat.le_of_not_lt hdepth)

theorem Path.Enters.mem {limits : Limits} {p q : Path} {source target : Nat} {kind : EdgeKind}
    {s s' : StateSpace} {ps : List Path} (h : p.Enters limits source target kind s s' ps)
    (hq : q ∈ ps) : q = p.moved source target s.nodes.size := by
  cases h with
  | entered => exact List.mem_singleton.mp hq
  | pruned => exact absurd hq List.not_mem_nil

/-! ### Steps -/

/-- The copy of a path that goes on when a condition does not hold. -/
def Path.fallen (p : Path) (s : Supply) (condition : Term) : Path :=
  { (p.fork s).path with constraints := p.constraints ++ [⟨condition, false⟩] }

/-- A path that goes on when a condition holds. -/
def Path.taken (p : Path) (condition : Term) : Path :=
  { p with
    constraints := p.constraints ++ [⟨condition, true⟩]
    functionName := (selectedFunction? condition).getD p.functionName }

theorem isJumpDest_of_jumpTarget? {program : Program} {destination : Value} {target : Nat}
    (h : jumpTarget? program destination = some target) : program.isJumpDest target = true :=
  (Option.filter_eq_some_iff.mp h).2

/-- How a path goes on from an instruction with the given effect: the state space, the paths and the
supply after the step, and what the path returned. The state space before it has the frame of the
instruction already. -/
inductive Steps (program : Program) (limits : Limits) (frame : Frame) (e : Effect)
    (s : StateSpace) : StateSpace → List Path → Supply → Option Bytes → Prop
  | next (flow : e.flow = .next) :
      Steps program limits frame e s s
        [{ e.path with pc := frame.instruction.nextAddress, lastFrame := some frame }] e.supply none
  | halt {returned : Option Bytes} (flow : e.flow = .halt returned) :
      Steps program limits frame e s s [] e.supply returned
  | jump {destination : Value} {target : Nat} {s' : StateSpace} {ps : List Path}
      (flow : e.flow = .jump destination)
      (lands : jumpTarget? program destination = some target)
      (enters : e.path.Enters limits frame.instruction.address target .jump s s' ps) :
      Steps program limits frame e s s' ps e.supply none
  | jumpLost {destination : Value} (flow : e.flow = .jump destination)
      (lost : jumpTarget? program destination = none) :
      Steps program limits frame e s s [] e.supply none
  | knownFalse {destination condition : Value} {s' : StateSpace} {ps : List Path}
      (flow : e.flow = .branch destination condition) (known : condition.const? = some 0)
      (enters : e.path.Enters limits frame.instruction.address frame.instruction.nextAddress
        (.conditional false) s s' ps) :
      Steps program limits frame e s s' ps e.supply none
  | knownTrue {destination condition : Value} {v : Word} {target : Nat} {s' : StateSpace}
      {ps : List Path} (flow : e.flow = .branch destination condition)
      (known : condition.const? = some v) (nonzero : v ≠ 0)
      (lands : jumpTarget? program destination = some target)
      (enters : e.path.Enters limits frame.instruction.address target (.conditional true) s s' ps) :
      Steps program limits frame e s s' ps e.supply none
  | knownLost {destination condition : Value} {v : Word}
      (flow : e.flow = .branch destination condition) (known : condition.const? = some v)
      (nonzero : v ≠ 0) (lost : jumpTarget? program destination = none) :
      Steps program limits frame e s s [] e.supply none
  | fork {destination condition : Value} {target : Nat} {s₁ s₂ : StateSpace} {ps qs : List Path}
      (flow : e.flow = .branch destination condition) (symbolic : condition.const? = none)
      (lands : jumpTarget? program destination = some target)
      (falls : (e.path.fallen e.supply condition.word).Enters limits frame.instruction.address
        frame.instruction.nextAddress (.conditional false) s s₁ ps)
      (jumps : (e.path.taken condition.word).Enters limits frame.instruction.address target
        (.conditional true) s₁ s₂ qs) :
      Steps program limits frame e s s₂ (qs ++ ps) (e.path.fork e.supply).supply none
  | forkLost {destination condition : Value} {s' : StateSpace} {ps : List Path}
      (flow : e.flow = .branch destination condition) (symbolic : condition.const? = none)
      (lost : jumpTarget? program destination = none)
      (falls : (e.path.fallen e.supply condition.word).Enters limits frame.instruction.address
        frame.instruction.nextAddress (.conditional false) s s' ps) :
      Steps program limits frame e s s' ps (e.path.fork e.supply).supply none

theorem steps_stepAt (program : Program) (limits : Limits) (s : StateSpace) (supply : Supply)
    (p : Path) (ins : Instruction) :
    Steps program limits ⟨ins, p.stack⟩ (execute program ins p supply)
      (s.addFrame p.node ⟨ins, p.stack⟩) (stepAt program limits s supply p ins).space
      (stepAt program limits s supply p ins).paths
      (stepAt program limits s supply p ins).supply
      (stepAt program limits s supply p ins).returned := by
  unfold stepAt
  generalize execute program ins p supply = e
  simp only
  split
  next flow => exact .next flow
  next flow => exact .halt flow
  next destination flow =>
    split
    next lost => exact .jumpLost flow lost
    next lands => exact .jump flow lands (enters_follow ..)
  next destination condition flow =>
    split
    next symbolic =>
      unfold forkStep
      simp only
      split
      next lost => exact .forkLost flow symbolic lost (enters_follow ..)
      next lands => exact .fork flow symbolic lands (enters_follow ..) (enters_follow ..)
    next v known =>
      by_cases hv : v = 0
      · subst hv
        exact .knownFalse flow known (enters_follow ..)
      · simp only [if_neg hv]
        split
        next lost => exact .knownLost flow known hv lost
        next lands =>
          simp only [ne_eq, hv, not_false_eq_true, decide_true]
          exact .knownTrue flow known hv lands (enters_follow ..)

/-- The edges that a path may follow from an instruction with the given effect: the path as it sets
out, the address that the edge leads to, and its kind. -/
inductive Effect.SetsOut (program : Program) (frame : Frame) (e : Effect) :
    Path → Nat → EdgeKind → Prop
  | jump {destination : Value} {target : Nat} (flow : e.flow = .jump destination)
      (lands : jumpTarget? program destination = some target) :
      e.SetsOut program frame e.path target .jump
  | knownFalse {destination condition : Value} (flow : e.flow = .branch destination condition)
      (known : condition.const? = some 0) :
      e.SetsOut program frame e.path frame.instruction.nextAddress (.conditional false)
  | knownTrue {destination condition : Value} {v : Word} {target : Nat}
      (flow : e.flow = .branch destination condition) (known : condition.const? = some v)
      (nonzero : v ≠ 0) (lands : jumpTarget? program destination = some target) :
      e.SetsOut program frame e.path target (.conditional true)
  | fallen {destination condition : Value} (flow : e.flow = .branch destination condition)
      (symbolic : condition.const? = none) :
      e.SetsOut program frame (e.path.fallen e.supply condition.word)
        frame.instruction.nextAddress (.conditional false)
  | taken {destination condition : Value} {target : Nat}
      (flow : e.flow = .branch destination condition) (symbolic : condition.const? = none)
      (lands : jumpTarget? program destination = some target) :
      e.SetsOut program frame (e.path.taken condition.word) target (.conditional true)

/-- **What holds when no path goes on, when one goes on in its node, and after each edge that is
followed holds after a step.** -/
theorem Steps.rule {program : Program} {limits : Limits} {frame : Frame} {e : Effect}
    {s s' : StateSpace} {qs : List Path} {supply : Supply} {returned : Option Bytes}
    (h : Steps program limits frame e s s' qs supply returned)
    {Q : StateSpace → List Path → Prop} (hnone : Q s [])
    (hnext : e.flow = .next →
      Q s [{ e.path with pc := frame.instruction.nextAddress, lastFrame := some frame }])
    (henter : ∀ ⦃p target kind s₁ s₂ ps rs⦄, e.SetsOut program frame p target kind →
      p.Enters limits frame.instruction.address target kind s₁ s₂ rs → Q s₁ ps →
        Q s₂ (rs ++ ps)) :
    Q s' qs := by
  have hfirst {p : Path} {target : Nat} {kind : EdgeKind} {s' : StateSpace} {rs : List Path}
      (hout : e.SetsOut program frame p target kind)
      (enters : p.Enters limits frame.instruction.address target kind s s' rs) : Q s' rs := by
    have hQ := henter hout enters hnone
    rwa [List.append_nil] at hQ
  cases h with
  | next flow => exact hnext flow
  | halt | jumpLost | knownLost => exact hnone
  | jump flow lands enters => exact hfirst (.jump flow lands) enters
  | knownFalse flow known enters => exact hfirst (.knownFalse flow known) enters
  | knownTrue flow known nonzero lands enters =>
    exact hfirst (.knownTrue flow known nonzero lands) enters
  | forkLost flow symbolic _ falls => exact hfirst (.fallen flow symbolic) falls
  | fork flow symbolic lands falls jumps =>
    exact henter (.taken flow symbolic lands) jumps (hfirst (.fallen flow symbolic) falls)

/-- An instruction changes the stack, memory and storage of its path and nothing else of it. -/
theorem path_execute (program : Program) (ins : Instruction) (p : Path) (s : Supply) :
    ∃ stack memory storage,
      (execute program ins p s).path = { p with stack, memory, storage } := by
  have heffect := executes_execute program ins p s
  generalize execute program ins p s = e at heffect ⊢
  cases heffect <;> exact ⟨_, _, _, rfl⟩

/-- An instruction does not change the function of a path. -/
theorem functionName_execute (program : Program) (ins : Instruction) (p : Path) (s : Supply) :
    (execute program ins p s).path.functionName = p.functionName := by
  obtain ⟨_, _, _, hpath⟩ := path_execute program ins p s
  rw [hpath]

section

variable {program : Program} {ins : Instruction} {p : Path} {supply : Supply}
  {destination condition : Value}

theorem flow_eq_jump (h : (execute program ins p supply).flow = .jump destination) :
    ins.opcode = .jump ∧ ∃ rest, p.stack = destination :: rest := by
  have hop : ins.opcode.kind = .jump → ins.opcode = .jump := Opcode.forall_of_bytes
    (P := fun op => op.kind = .jump → op = .jump) (by decide +kernel) ins.opcode
  obtain ⟨operands, rest, hstack, hdrops⟩ := drops_of_flow h (by simp) (by simp)
  cases hdrops with
  | jump hkind => exact ⟨hop hkind, rest, hstack⟩

theorem flow_eq_branch (h : (execute program ins p supply).flow = .branch destination condition) :
    ins.opcode = .jumpi ∧ ∃ rest, p.stack = destination :: condition :: rest := by
  have hop : ins.opcode.kind = .branch → ins.opcode = .jumpi := Opcode.forall_of_bytes
    (P := fun op => op.kind = .branch → op = .jumpi) (by decide +kernel) ins.opcode
  obtain ⟨operands, rest, hstack, hdrops⟩ := drops_of_flow h (by simp) (by simp)
  cases hdrops with
  | branch hkind => exact ⟨hop hkind, rest, hstack⟩

/-- The instruction that paths leave a node from along edges of a kind. -/
def EdgeKind.opcode : EdgeKind → Opcode
  | .jump => .jump
  | .conditional _ => .jumpi

theorem Effect.SetsOut.opcode_eq {frame : Frame} {q : Path} {target : Nat} {kind : EdgeKind}
    (h : (execute program ins p supply).SetsOut program frame q target kind) :
    ins.opcode = kind.opcode := by
  cases h with
  | jump flow => exact (flow_eq_jump flow).1
  | knownFalse flow | knownTrue flow | fallen flow | taken flow => exact (flow_eq_branch flow).1

/-- A path sets out from where it is. -/
theorem Effect.SetsOut.node_eq {frame : Frame} {q : Path} {target : Nat} {kind : EdgeKind}
    (h : (execute program ins p supply).SetsOut program frame q target kind) :
    q.node = p.node ∧ q.trail = p.trail := by
  obtain ⟨stack, memory, storage, hpath⟩ := path_execute program ins p supply
  have hplace : (execute program ins p supply).path.node = p.node ∧
      (execute program ins p supply).path.trail = p.trail := by
    rw [hpath]
    exact ⟨rfl, rfl⟩
  cases h <;> exact hplace

end

/-! ### Signals -/

/-- What a step can tell those who watch, with the paths that go on after it. -/
def Signal.Tells (program : Program) (frame : Frame) (qs : List Path) (signal : Signal) : Prop :=
  (∃ q ∈ qs, signal = q.postEvent program frame) ∨ (∃ i, signal = .inherit i) ∨
    ∃ m, signal = .message m

section

variable {program : Program} {limits : Limits} {s : StateSpace} {p : Path} {frame : Frame}

theorem Signal.Tells.mono {qs rs : List Path} {signal : Signal} (h : signal.Tells program frame qs)
    (hsub : ∀ q ∈ qs, q ∈ rs) : signal.Tells program frame rs := by
  rcases h with ⟨q, hq, rfl⟩ | h
  · exact .inl ⟨q, hsub q hq, rfl⟩
  · exact .inr h

theorem tells_inheritSignals {inheritances : List Inheritance} {qs : List Path} :
    ∀ signal ∈ inheritSignals inheritances, signal.Tells program frame qs := by
  intro signal h
  obtain ⟨i, -, rfl⟩ := List.mem_map.mp h
  exact .inr (.inl ⟨i, rfl⟩)

theorem tells_follow {target : Nat} {kind : EdgeKind} :
    ∀ signal ∈ (follow program limits s p frame target kind).signals,
      signal.Tells program frame (follow program limits s p frame target kind).paths := by
  intro signal h
  unfold follow at h ⊢
  split at h
  · obtain rfl := List.mem_singleton.mp h
    exact .inl ⟨_, List.mem_singleton_self _, rfl⟩
  · obtain rfl := List.mem_singleton.mp h
    exact .inr (.inr ⟨_, rfl⟩)

theorem tells_forkStep {supply : Supply} {destination : Value} {condition : Term} :
    ∀ signal ∈ (forkStep program limits s supply p frame destination condition).signals,
      signal.Tells program frame
        (forkStep program limits s supply p frame destination condition).paths := by
  intro signal h
  unfold forkStep at h ⊢
  simp only at h ⊢
  cases htarget : jumpTarget? program destination with
  | none =>
    simp only [htarget] at h ⊢
    rcases List.mem_append.mp h with h | h
    · exact tells_inheritSignals signal h
    · exact tells_follow signal h
  | some target =>
    simp only [htarget] at h ⊢
    rcases List.mem_append.mp h with h | h
    · rcases List.mem_append.mp h with h | h
      · rcases List.mem_append.mp h with h | h
        · exact tells_inheritSignals signal h
        · exact (tells_follow signal h).mono fun q hq => List.mem_append_right _ hq
      · obtain ⟨name, -, rfl⟩ := Option.map_eq_some_iff.mp (Option.mem_toList.mp h)
        exact .inr (.inr ⟨_, rfl⟩)
    · exact (tells_follow signal h).mono fun q hq => List.mem_append_left _ hq

/-- **The events of a step are those after its instruction**, seen from the paths that go on. -/
theorem tells_stepAt {supply : Supply} {ins : Instruction} :
    ∀ signal ∈ (stepAt program limits s supply p ins).signals,
      signal.Tells program ⟨ins, p.stack⟩ (stepAt program limits s supply p ins).paths := by
  intro signal h
  unfold stepAt at h ⊢
  generalize execute program ins p supply = e at h ⊢
  simp only at h ⊢
  cases hflow : e.flow with
  | next =>
    simp only [hflow] at h ⊢
    rcases List.mem_append.mp h with h | h
    · exact tells_inheritSignals signal h
    · exact .inl ⟨_, List.mem_singleton_self _, List.mem_singleton.mp h⟩
  | halt returned =>
    simp only [hflow] at h ⊢
    exact tells_inheritSignals signal h
  | jump destination =>
    simp only [hflow] at h ⊢
    cases htarget : jumpTarget? program destination with
    | none =>
      simp only [htarget] at h ⊢
      rcases List.mem_append.mp h with h | h
      · exact tells_inheritSignals signal h
      · exact .inr (.inr ⟨_, List.mem_singleton.mp h⟩)
    | some target =>
      simp only [htarget] at h ⊢
      rcases List.mem_append.mp h with h | h
      · exact tells_inheritSignals signal h
      · exact tells_follow signal h
  | branch destination condition =>
    simp only [hflow] at h ⊢
    cases hconst : condition.const? with
    | none =>
      simp only [hconst] at h ⊢
      exact tells_forkStep signal h
    | some v =>
      simp only [hconst] at h ⊢
      generalize (if v = 0 then some ins.nextAddress else jumpTarget? program destination) =
        target? at h ⊢
      cases target? with
      | none => exact tells_inheritSignals signal h
      | some target =>
        rcases List.mem_append.mp h with h | h
        · exact tells_inheritSignals signal h
        · exact tells_follow signal h

end

/-! ### Runs -/

theorem pops_le_of_fitsStack {op : Opcode} {stack : List Value} (h : fitsStack op stack = true) :
    op.pops ≤ stack.length := by
  simp only [fitsStack, Bool.and_eq_true, decide_eq_true_eq] at h
  exact h.1

namespace Progress

/-- What happens to the first path of an exploration that goes on. -/
inductive Advance (program : Program) (limits : Limits) : Progress → Progress → Prop
  | ended {p : Path} {ps : List Path} {space : StateSpace} {supply : Supply}
      {returned : Option Bytes} (past : program.at? p.pc = none) :
      Advance program limits ⟨p :: ps, space, supply, returned⟩ ⟨ps, space, supply, returned⟩
  | unfit {p : Path} {ps : List Path} {space : StateSpace} {supply : Supply}
      {returned : Option Bytes} {ins : Instruction} (at_ins : program.at? p.pc = some ins)
      (unfit : fitsStack ins.opcode p.stack = false) :
      Advance program limits ⟨p :: ps, space, supply, returned⟩ ⟨ps, space, supply, returned⟩
  | step {p : Path} {ps qs : List Path} {space space' : StateSpace} {supply supply' : Supply}
      {returned now : Option Bytes} {ins : Instruction} (at_ins : program.at? p.pc = some ins)
      (fits : fitsStack ins.opcode p.stack = true)
      (steps : Steps program limits ⟨ins, p.stack⟩ (execute program ins p supply)
        (space.addFrame p.node ⟨ins, p.stack⟩) space' qs supply' now) :
      Advance program limits ⟨p :: ps, space, supply, returned⟩
        ⟨qs ++ ps, space', supply', returned.or now⟩

/-- Any number of advances. -/
abbrev Reaches (program : Program) (limits : Limits) : Progress → Progress → Prop :=
  Relation.ReflTransGen (Advance program limits)

/-- An exploration that the time has cut short. -/
def cutShort (g : Progress) : Progress :=
  { g with space := { g.space with complete := false } }

theorem advance_stepAt {program : Program} {limits : Limits} {g : Progress} {p : Path}
    {ps qs : List Path} {ins : Instruction} {space : StateSpace} {supply : Supply}
    {returned : Option Bytes} {signals : List Signal} (hp : g.paths = p :: ps)
    (hi : program.at? p.pc = some ins) (hf : fitsStack ins.opcode p.stack = true)
    (hstep : stepAt program limits g.space g.supply p ins =
      ⟨space, supply, qs, returned, signals⟩) :
    Advance program limits g ⟨qs ++ ps, space, supply, g.returned.or returned⟩ := by
  have hsteps := steps_stepAt program limits g.space g.supply p ins
  rw [hstep] at hsteps
  obtain ⟨paths, space₀, supply₀, returned₀⟩ := g
  subst hp
  exact .step hi hf hsteps

end Progress

/-- A step does not make a state space complete. -/
theorem Steps.complete_of {program : Program} {limits : Limits} {frame : Frame} {e : Effect}
    {s s' : StateSpace} {qs : List Path} {supply : Supply} {returned : Option Bytes}
    (h : Steps program limits frame e s s' qs supply returned) (hs' : s'.complete = true) :
    s.complete = true := by
  refine h.rule (Q := fun s' _ => s'.complete = true → s.complete = true) id (fun _ => id) ?_ hs'
  intro p target kind s₁ s₂ ps rs _ henters hs₁ hs₂
  cases henters with
  | entered => exact hs₁ hs₂
  | pruned => cases hs₂

theorem Progress.complete_of_reaches {program : Program} {limits : Limits} {g g' : Progress}
    (h : Reaches program limits g g') (hg' : g'.space.complete = true) : g.space.complete = true := by
  induction h with
  | refl => exact hg'
  | tail _ hadvance ih =>
    cases hadvance with
    | ended | unfit => exact ih hg'
    | step _ _ steps => exact ih (steps.complete_of hg')

/-- **A run only advances.** It ends when no path is left, when an observer fails, or when the time
is over; the state space is not complete then. -/
theorem runPaths_reaches {σ : Type} (x : Setting σ) (g : Progress) (watch : σ × Ledger) :
    ∃ g', Progress.Reaches x.program x.limits g g' ∧
      ((runPaths x g watch).progress = g' ∧
          ((runPaths x g watch).failure = none → g'.paths = []) ∨
        (runPaths x g watch).progress = g'.cutShort) := by
  fun_induction runPaths x g watch with
  | case1 g watch hp => exact ⟨g, .refl, .inl ⟨rfl, fun _ => hp⟩⟩
  | case2 g watch p ps hp hs => exact ⟨g, .refl, .inr rfl⟩
  | case3 g watch p ps hp hs hi ih =>
    obtain ⟨g', hreach, hend⟩ := ih
    obtain ⟨paths, space, supply, returned⟩ := g
    subst hp
    exact ⟨g', .head (.ended hi) hreach, hend⟩
  | case4 g watch p ps hp hs ins hi hf event failure watch' hplay =>
    exact ⟨g, .refl, .inl ⟨rfl, nofun⟩⟩
  | case5 g watch p ps hp hs ins hi hf event _ watch' _ space supply paths returned signals hstep
      g' =>
    exact ⟨g', .single (Progress.advance_stepAt hp hi hf hstep), .inl ⟨rfl, nofun⟩⟩
  | case6 g watch p ps hp hs ins hi hf event _ watch' _ space supply paths returned signals hstep g'
      _ watch'' _ ih =>
    obtain ⟨g'', hreach, hend⟩ := ih
    exact ⟨g'', .head (Progress.advance_stepAt hp hi hf hstep) hreach, hend⟩
  | case7 g watch p ps hp hs ins hi hf ih =>
    obtain ⟨g', hreach, hend⟩ := ih
    obtain ⟨paths, space, supply, returned⟩ := g
    subst hp
    exact ⟨g', .head (.unfit hi (Bool.eq_false_iff.mpr hf)) hreach, hend⟩

/-- A run does not make a state space complete. -/
theorem complete_of_runPaths {σ : Type} {x : Setting σ} {g : Progress} {watch : σ × Ledger}
    (h : (runPaths x g watch).progress.space.complete = true) : g.space.complete = true := by
  obtain ⟨g', hreach, ⟨hend, -⟩ | hend⟩ := runPaths_reaches x g watch
  · exact Progress.complete_of_reaches hreach (hend ▸ h)
  · rw [hend] at h
    cases h

end GuardFinder

import GuardFinder.Explore.Execute
import GuardFinder.Log

/-!
# Steps of an exploration

An exploration keeps a list of paths and advances the first of them by one instruction at a time.
A step records the instruction, executes it, and follows its edges into new nodes. At a branch on
a symbolic condition the path is forked: the copy goes on at the next instruction, the path itself
at the destination of the jump, and the path comes first.

No step looks at taints or at what observers do. What a step means for them it tells in signals:
events, taints to inherit, and messages, in the order in which they happen.

* `Path.enter`: the limits. A path is pruned when it takes a jump edge more often than the loop
  bound allows, or enters more blocks than the depth bound allows.
* `stepAt`: one step of one path.
* `weightSum_stepAt_lt`: the paths that go on after a step weigh less together than the path
  before it. That is why every exploration ends.
-/

namespace GuardFinder

/-- The limits of an exploration. -/
structure Limits where
  /-- The time in seconds. -/
  seconds : Nat
  /-- How many blocks a path may enter. -/
  maxDepth : Nat
  /-- How often a path may take one jump edge. -/
  loopBound : Nat
  deriving DecidableEq, Repr

/-- The largest number of items on a stack. -/
def stackLimit : Nat := 1024

/-- What a step tells those who watch. -/
inductive Signal
  /-- An event for the subscribers of an opcode. -/
  | event (op : Opcode) (event : Event)
  /-- Taints that a new value starts with. -/
  | inherit (inheritance : Inheritance)
  | message (message : Message)

/-! ## Edges -/

namespace Path

/-- Moves a path along a jump edge into a new node, or tells why it is pruned. -/
def enter (limits : Limits) (space : StateSpace) (p : Path) (source target : Nat)
    (kind : EdgeKind) : StateSpace × Except Message Path :=
  let trail := p.trail.push (source, target)
  if limits.loopBound < trail.count (source, target) then
    ({ space with complete := false }, .error (.loopBound source target))
  else if limits.maxDepth < trail.length then
    ({ space with complete := false }, .error (.maxDepth target))
  else
    let node := space.nodes.size
    let space := space.addNode p.functionName target p.constraints
    (space.addEdge ⟨p.node, node, kind⟩,
      .ok { p with trail, node, pc := target, lastFrame := none })

/-- The event after an instruction, for a path that has gone on. -/
def postEvent (program : Program) (p : Path) (frame : Frame) : Signal :=
  let ins := (program.at? p.pc).getD ⟨p.pc, .stop, none⟩
  .event frame.instruction.opcode ⟨.post, p.view ins, some frame⟩

end Path

/-- What comes of an attempt to follow an edge: at most one path, and signals. -/
structure Arrival where
  space : StateSpace
  paths : List Path
  signals : List Signal

/-- Follows an edge from the last instruction of a path. -/
def follow (program : Program) (limits : Limits) (space : StateSpace) (p : Path) (frame : Frame)
    (target : Nat) (kind : EdgeKind) : Arrival :=
  match p.enter limits space frame.instruction.address target kind with
  | (space, .ok p) => ⟨space, [p], [p.postEvent program frame]⟩
  | (space, .error reason) => ⟨space, [], [.message reason]⟩

/-! ## Steps -/

/-- The address that a jump goes to, if it is a jump destination. -/
def jumpTarget? (program : Program) (destination : Value) : Option Nat :=
  destination.size?.filter program.isJumpDest

/-- What a step leads to. -/
structure Step where
  space : StateSpace
  supply : Supply
  /-- The paths that go on, in the order in which they are explored. -/
  paths : List Path
  /-- The bytes that the path returned, if it ended so and they are known. -/
  returned : Option Bytes := none
  signals : List Signal

/-- Signals for taints to inherit. -/
def inheritSignals (inheritances : List Inheritance) : List Signal := inheritances.map .inherit

/-- The step at a branch on a symbolic condition. -/
def forkStep (program : Program) (limits : Limits) (space : StateSpace) (supply : Supply)
    (p : Path) (frame : Frame) (destination : Value) (condition : Term) : Step :=
  let copy := p.fork supply
  let other := { copy.path with constraints := p.constraints ++ [⟨condition, false⟩] }
  let fallen := follow program limits space other frame frame.instruction.nextAddress
    (.conditional false)
  let before := inheritSignals copy.inheritances ++ fallen.signals
  match jumpTarget? program destination with
  | none =>
    { space := fallen.space, supply := copy.supply, paths := fallen.paths, signals := before }
  | some target =>
    let name? := selectedFunction? condition
    let p := { p with
      constraints := p.constraints ++ [⟨condition, true⟩]
      functionName := name?.getD p.functionName }
    let jumped := follow program limits fallen.space p frame target (.conditional true)
    { space := jumped.space
      supply := copy.supply
      paths := jumped.paths ++ fallen.paths
      signals := before ++ (name?.map fun name => Signal.message (.entering name)).toList ++
        jumped.signals }

/-- The step of a path at an instruction. -/
def stepAt (program : Program) (limits : Limits) (space : StateSpace) (supply : Supply) (p : Path)
    (ins : Instruction) : Step :=
  let frame : Frame := ⟨ins, p.stack⟩
  let space := space.addFrame p.node frame
  let effect := execute program ins p supply
  let inherited := inheritSignals effect.inheritances
  match effect.flow with
  | .next =>
    let p := { effect.path with pc := ins.nextAddress, lastFrame := some frame }
    { space
      supply := effect.supply
      paths := [p]
      signals := inherited ++ [p.postEvent program frame] }
  | .halt returned =>
    { space, supply := effect.supply, paths := [], returned, signals := inherited }
  | .jump destination =>
    match jumpTarget? program destination with
    | none =>
      { space, supply := effect.supply, paths := [],
        signals := inherited ++ [.message (.invalidJump ins)] }
    | some target =>
      let arrival := follow program limits space effect.path frame target .jump
      { space := arrival.space, supply := effect.supply, paths := arrival.paths
        signals := inherited ++ arrival.signals }
  | .branch destination condition =>
    match condition.const? with
    | none =>
      forkStep program limits space effect.supply effect.path frame destination condition.word
    | some v =>
      let target? := if v = 0 then some ins.nextAddress else jumpTarget? program destination
      match target? with
      | none => { space, supply := effect.supply, paths := [], signals := inherited }
      | some target =>
        let arrival := follow program limits space effect.path frame target (.conditional (v ≠ 0))
        { space := arrival.space, supply := effect.supply, paths := arrival.paths
          signals := inherited ++ arrival.signals }

/-! ## Every exploration ends -/

/-- A bound on the steps that a path and its forks can still take: blocks left to enter count
fourfold for each level, instructions left in the block count once. -/
def Path.weight (program : Program) (limits : Limits) (p : Path) : Nat :=
  Nat.pow 4 (limits.maxDepth - p.trail.length) * (program.code.length + 1) +
    (program.code.length - p.pc)

/-- The weight of several paths. -/
def weightSum (program : Program) (limits : Limits) : List Path → Nat
  | [] => 0
  | p :: ps => p.weight program limits + weightSum program limits ps

theorem weightSum_append (program : Program) (limits : Limits) (ps qs : List Path) :
    weightSum program limits (ps ++ qs) =
      weightSum program limits ps + weightSum program limits qs := by
  induction ps with
  | nil => exact (Nat.zero_add _).symm
  | cons p ps ih => simp only [List.cons_append, weightSum, ih, Nat.add_assoc]

theorem Path.weight_pos (program : Program) (limits : Limits) (p : Path) :
    0 < p.weight program limits :=
  Nat.add_pos_left (Nat.mul_pos (Nat.pow_pos (by omega)) (by omega)) _

theorem weightSum_pending_lt (program : Program) (limits : Limits) (p : Path) (ps : List Path) :
    weightSum program limits ps < weightSum program limits (p :: ps) :=
  Nat.lt_add_of_pos_left (p.weight_pos program limits)

/-- A path that entered a node is the path before it but for its place. -/
theorem Path.enter_eq_ok {limits : Limits} {space space' : StateSpace} {p q : Path}
    {source target : Nat} {kind : EdgeKind}
    (h : p.enter limits space source target kind = (space', .ok q)) :
    q.trail = p.trail.push (source, target) ∧ q.pc = target ∧
      p.trail.length + 1 ≤ limits.maxDepth := by
  unfold Path.enter at h
  simp only at h
  split at h
  · simp at h
  · split at h
    · simp at h
    · next hd =>
      simp only [Prod.mk.injEq, Except.ok.injEq] at h
      obtain ⟨-, rfl⟩ := h
      rw [Trail.length_push] at hd
      exact ⟨rfl, rfl, by omega⟩

/-- What follows an edge weighs less than half of what went there. -/
theorem weightSum_follow_lt (program : Program) (limits : Limits) (space : StateSpace) (p : Path)
    (frame : Frame) (target : Nat) (kind : EdgeKind) :
    2 * weightSum program limits (follow program limits space p frame target kind).paths <
      p.weight program limits := by
  unfold follow
  split
  · next heq =>
    obtain ⟨ht, -, hd⟩ := Path.enter_eq_ok heq
    simp only [weightSum, Nat.add_zero, Path.weight, ht, Trail.length_push, Nat.pow_eq]
    obtain ⟨d, hd'⟩ : ∃ d, limits.maxDepth - p.trail.length = d + 1 :=
      ⟨limits.maxDepth - p.trail.length - 1, by omega⟩
    have hd'' : limits.maxDepth - (p.trail.length + 1) = d := by omega
    rw [hd', hd'', Nat.pow_succ]
    have hpos : program.code.length + 1 ≤ 4 ^ d * (program.code.length + 1) :=
      Nat.le_mul_of_pos_left _ (Nat.pow_pos (by omega))
    have hfour : 4 ^ d * 4 * (program.code.length + 1) =
        4 * (4 ^ d * (program.code.length + 1)) := by
      rw [Nat.mul_comm (4 ^ d) 4, Nat.mul_assoc]
    omega
  · exact p.weight_pos program limits

/-- A fork has the trail of its path. -/
theorem Path.fork_weight (program : Program) (limits : Limits) (p : Path) (supply : Supply)
    (constraints : List Constraint) :
    Path.weight program limits { (p.fork supply).path with constraints } =
      p.weight program limits := rfl

theorem weightSum_forkStep_lt (program : Program) (limits : Limits) (space : StateSpace)
    (supply : Supply) (p : Path) (frame : Frame) (destination : Value) (condition : Term) :
    weightSum program limits
      (forkStep program limits space supply p frame destination condition).paths <
      p.weight program limits := by
  unfold forkStep
  simp only
  split
  · have h := weightSum_follow_lt program limits space
      { (p.fork supply).path with constraints := p.constraints ++ [⟨condition, false⟩] } frame
      frame.instruction.nextAddress (.conditional false)
    rw [Path.fork_weight] at h
    simp only at h ⊢
    omega
  · next target _ =>
    have h := weightSum_follow_lt program limits space
      { (p.fork supply).path with constraints := p.constraints ++ [⟨condition, false⟩] } frame
      frame.instruction.nextAddress (.conditional false)
    rw [Path.fork_weight] at h
    have h' := weightSum_follow_lt program limits
      (follow program limits space
        { (p.fork supply).path with constraints := p.constraints ++ [⟨condition, false⟩] } frame
        frame.instruction.nextAddress (.conditional false)).space
      { p with
        constraints := p.constraints ++ [⟨condition, true⟩]
        functionName := (selectedFunction? condition).getD p.functionName } frame target
      (.conditional true)
    simp only [weightSum_append]
    simp only [Path.weight] at h h' ⊢
    omega

/-- An instruction keeps the trail of its path. -/
theorem trail_execute (program : Program) (ins : Instruction) (p : Path) (s : Supply) :
    (execute program ins p s).path.trail = p.trail ∧ (execute program ins p s).path.pc = p.pc := by
  unfold execute
  simp only
  split <;> (repeat' split) <;> exact ⟨rfl, rfl⟩

/-- **Steps lose weight**: the paths that go on after a step weigh less together than the path
before it. -/
theorem weightSum_stepAt_lt (program : Program) (limits : Limits) (space : StateSpace)
    (supply : Supply) (p : Path) (ins : Instruction) (h : program.at? p.pc = some ins) :
    weightSum program limits (stepAt program limits space supply p ins).paths <
      p.weight program limits := by
  have hpc := Program.address_of_at? h
  have hlt := Program.lt_length_of_at? h
  obtain ⟨ht, hp⟩ := trail_execute program ins p supply
  have hw : (execute program ins p supply).path.weight program limits =
      p.weight program limits := by
    simp only [Path.weight, ht, hp]
  have hzero := p.weight_pos program limits
  unfold stepAt
  simp only
  split
  · simp only [weightSum, Nat.add_zero, Path.weight, ht, Instruction.nextAddress]
    omega
  · simpa [weightSum] using hzero
  · split
    · simpa [weightSum] using hzero
    · next target _ =>
      have := weightSum_follow_lt program limits (space.addFrame p.node ⟨ins, p.stack⟩)
        (execute program ins p supply).path ⟨ins, p.stack⟩ target .jump
      simp only at this ⊢
      omega
  · split
    · rw [← hw]
      exact weightSum_forkStep_lt ..
    · next v _ =>
      split
      · simpa [weightSum] using hzero
      · next target _ =>
        have := weightSum_follow_lt program limits (space.addFrame p.node ⟨ins, p.stack⟩)
          (execute program ins p supply).path ⟨ins, p.stack⟩ target (.conditional (v ≠ 0))
        simp only at this ⊢
        omega

end GuardFinder

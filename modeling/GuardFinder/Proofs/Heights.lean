import GuardFinder.Proofs.Steps

/-!
# Stack heights

An instruction that is executed finds its operands, and an instruction after which the path goes on
leaves as many items as its table entry says.

* `replaces_execute`: **an instruction puts results in the place of operands**. `length_execute`: the
  height of the stack after it.
* `Event.About`: events that show the operands of an instruction, or its operands and results.
* `sound_stepAt`: all events of a step are of that kind.
* `Progress.supported_of_advance`: all frames have the operands of their instructions.
-/

namespace GuardFinder

/-! ### Instructions -/

section

variable {program : Program} {ins : Instruction} {p : Path} {operands : List Value}

theorem Instruction.Makes.arity_eq {word : Term} {sources : List Nat}
    (h : ins.Makes program p operands word sources) : ins.opcode.arity = (operands.length, 1) := by
  cases h with
  | argument kind | codeSize kind | counter kind | memorySize kind | environment kind | unary kind
  | binary kind | hash kind | callData kind | storage kind | query kind =>
    exact of_decide_eq_true (Opcode.hasArity_of_kind kind)

theorem Instruction.Writes.arity_eq {memory : Memory}
    (h : ins.Writes program p operands memory) : ins.opcode.arity = (operands.length, 0) := by
  cases h with
  | code kind | word kind | byte kind | wordLost kind | byteLost kind =>
    exact of_decide_eq_true (Opcode.hasArity_of_kind kind)

theorem Instruction.Guesses.arity_eq {sources : List Nat} (h : ins.Guesses p operands sources)
    (hfits : ins.opcode.pops ≤ p.stack.length) : ins.opcode.arity = (operands.length, 1) := by
  cases h with
  | modular kind | hash kind | memory kind =>
    exact of_decide_eq_true (Opcode.hasArity_of_kind kind)
  | unmodelled kind =>
    rw [List.length_take_of_le hfits]
    exact Prod.ext rfl (of_decide_eq_true (Opcode.hasArity_of_kind kind))

theorem Instruction.Drops.arity_eq {flow : Flow} (h : ins.Drops p operands flow)
    (hfits : ins.opcode.pops ≤ p.stack.length) :
    (∃ returned, flow = .halt returned) ∨ ins.opcode.arity = (operands.length, 0) := by
  cases h with
  | halt | giveBack => exact .inl ⟨_, rfl⟩
  | jump kind | branch kind => exact .inr (of_decide_eq_true (Opcode.hasArity_of_kind kind))
  | discard kind =>
    rw [List.length_take_of_le hfits]
    exact .inr (Prod.ext rfl (of_decide_eq_true (Opcode.hasArity_of_kind kind)))

end

/-- Two stacks are the same but for items on top, which an instruction takes from the first and puts
on the second. -/
def Opcode.Replaces (op : Opcode) (before after : List Value) : Prop :=
  ∃ operands results rest, before = operands ++ rest ∧ after = results ++ rest ∧
    op.arity = (operands.length, results.length)

/-- **An instruction puts results in the place of operands**, if the path goes on from it. -/
theorem replaces_execute (program : Program) (ins : Instruction) (p : Path) (s : Supply)
    (h : ins.opcode.pops ≤ p.stack.length) :
    (∃ returned, (execute program ins p s).flow = .halt returned) ∨
      ins.opcode.Replaces p.stack (execute program ins p s).path.stack := by
  have heffect := executes_execute program ins p s
  generalize execute program ins p s = e at heffect ⊢
  cases heffect with
  | stuck => exact .inl ⟨_, rfl⟩
  | @dup n v kind item =>
    obtain ⟨-, harity⟩ := Opcode.arity_of_dup kind
    rw [Opcode.pops, harity] at h
    refine .inr ⟨p.stack.take n, v :: p.stack.take n, p.stack.drop n, ?_, ?_, ?_⟩
    · exact (List.take_append_drop ..).symm
    · rw [List.cons_append, List.take_append_drop]
    · rw [harity, List.length_cons, List.length_take_of_le h]
  | @swap n top v rest kind stack item =>
    have harity := Opcode.arity_of_swap kind
    rw [Opcode.pops, harity] at h
    have hrest : ((p.stack.set 0 v).set n top).drop (n + 1) = p.stack.drop (n + 1) := by
      rw [List.drop_set_of_lt (Nat.lt_succ_self n), List.drop_set_of_lt (Nat.succ_pos n)]
    refine .inr ⟨p.stack.take (n + 1), ((p.stack.set 0 v).set n top).take (n + 1),
      p.stack.drop (n + 1), ?_, ?_, ?_⟩
    · exact (List.take_append_drop ..).symm
    · rw [← hrest, List.take_append_drop]
    · rw [harity, List.length_take_of_le h, List.length_take_of_le]
      simpa only [List.length_set] using h
  | drop stack drops =>
    rcases drops.arity_eq h with hhalt | harity
    · exact .inl hhalt
    · exact .inr ⟨_, [], _, stack, rfl, harity⟩
  | make stack makes => exact .inr ⟨_, [_], _, stack, rfl, makes.arity_eq⟩
  | guess stack guesses => exact .inr ⟨_, [_], _, stack, rfl, guesses.arity_eq h⟩
  | load kind stack | fetch kind stack =>
    exact .inr ⟨[_], [_], _, stack, rfl, of_decide_eq_true (Opcode.hasArity_of_kind kind)⟩
  | copy kind stack =>
    exact .inr ⟨[_, _, _], [], _, stack, rfl, of_decide_eq_true (Opcode.hasArity_of_kind kind)⟩
  | write stack writes => exact .inr ⟨_, [], _, stack, rfl, writes.arity_eq⟩
  | store kind stack =>
    exact .inr ⟨[_, _], [], _, stack, rfl, of_decide_eq_true (Opcode.hasArity_of_kind kind)⟩

theorem Opcode.Replaces.length_eq {op : Opcode} {before after : List Value}
    (h : op.Replaces before after) : after.length = before.length - op.pops + op.pushes := by
  obtain ⟨operands, results, rest, rfl, rfl, harity⟩ := h
  simp only [Opcode.pops, Opcode.pushes, harity, List.length_append]
  omega

theorem Opcode.Replaces.drop_eq {op : Opcode} {before after : List Value}
    (h : op.Replaces before after) : after.drop op.pushes = before.drop op.pops := by
  obtain ⟨operands, results, rest, rfl, rfl, harity⟩ := h
  rw [Opcode.pops, Opcode.pushes, harity, List.drop_left, List.drop_left]

/-- The height of the stack after an instruction that the path goes on from. -/
theorem length_execute (program : Program) (ins : Instruction) (p : Path) (s : Supply)
    (h : ins.opcode.pops ≤ p.stack.length) :
    (∃ returned, (execute program ins p s).flow = .halt returned) ∨
      (execute program ins p s).path.stack.length =
        p.stack.length - ins.opcode.pops + ins.opcode.pushes :=
  (replaces_execute program ins p s h).imp_right Opcode.Replaces.length_eq

/-! ### Events -/

/-- An event before or after an instruction with an opcode: before it the state has its operands,
after it the frame has had its operands and the state has its results. -/
inductive Event.About (op : Opcode) : Event → Prop
  | pre {state : StateView} {previous : Option Frame} (opcode : state.opcode = op)
      (operands : op.pops ≤ state.stack.length) : Event.About op ⟨.pre, state, previous⟩
  | post {state : StateView} {frame : Frame} (opcode : frame.instruction.opcode = op)
      (operands : op.pops ≤ frame.stack.length) (results : op.pushes ≤ state.stack.length) :
      Event.About op ⟨.post, state, some frame⟩

/-- Events go to the subscribers of the opcode they are about. -/
def Signal.Sound : Signal → Prop
  | .event op e => e.About op
  | .inherit _ | .message _ => True

section

variable {program : Program} {limits : Limits} {frame : Frame} {e : Effect} {s s' : StateSpace}
  {qs : List Path} {supply : Supply} {returned : Option Bytes} {p : Path} {ins : Instruction}

/-- A path that goes on has the stack that its instruction left. -/
theorem Steps.length_stack (h : Steps program limits frame e s s' qs supply returned) :
    ∀ q ∈ qs, q.stack.length = e.path.stack.length ∧ ∀ r, e.flow ≠ .halt r := by
  have hfork : (e.path.fork e.supply).path.stack.length = e.path.stack.length := List.length_map ..
  intro q hq
  cases h with
  | next flow =>
    obtain rfl := List.mem_singleton.mp hq
    exact ⟨rfl, fun r => by rw [flow]; nofun⟩
  | halt | jumpLost | knownLost => exact absurd hq List.not_mem_nil
  | jump flow _ enters | knownFalse flow _ enters | knownTrue flow _ _ _ enters =>
    obtain rfl := enters.mem hq
    exact ⟨rfl, fun r => by rw [flow]; nofun⟩
  | fork flow _ _ falls jumps =>
    refine ⟨?_, fun r => by rw [flow]; nofun⟩
    rcases List.mem_append.mp hq with hq | hq
    · rw [jumps.mem hq]
      rfl
    · rw [falls.mem hq]
      exact hfork
  | forkLost flow _ _ falls =>
    obtain rfl := falls.mem hq
    exact ⟨hfork, fun r => by rw [flow]; nofun⟩

/-- All events of a step show what the instruction took and left. -/
theorem sound_stepAt (program : Program) (limits : Limits) (s : StateSpace) (supply : Supply)
    (hfits : fitsStack ins.opcode p.stack = true) :
    ∀ signal ∈ (stepAt program limits s supply p ins).signals, signal.Sound := by
  have hpops := pops_le_of_fitsStack hfits
  intro signal h
  rcases tells_stepAt signal h with ⟨q, hq, rfl⟩ | ⟨i, rfl⟩ | ⟨m, rfl⟩
  · obtain ⟨hlength, hflow⟩ := (steps_stepAt program limits s supply p ins).length_stack q hq
    rcases length_execute program ins p supply hpops with ⟨r, hr⟩ | hheight
    · exact absurd hr (hflow r)
    · refine .post rfl hpops ?_
      show ins.opcode.pushes ≤ q.stack.length
      omega
  · trivial
  · trivial

/-! ### Frames -/

/-- All frames have the operands of their instructions. -/
def StateSpace.Supported (s : StateSpace) : Prop :=
  ∀ n ∈ s.nodes, ∀ f ∈ n.frames, f.instruction.opcode.pops ≤ f.stack.length

theorem StateSpace.supported_empty : ({} : StateSpace).Supported :=
  fun n hn => absurd hn (Array.not_mem_empty n)

theorem StateSpace.Supported.addFrame (h : s.Supported) (u : Nat)
    (hf : frame.instruction.opcode.pops ≤ frame.stack.length) : (s.addFrame u frame).Supported := by
  intro n hn f hmem
  obtain ⟨v, hv⟩ := Array.mem_iff_getElem?.mp hn
  rw [StateSpace.getElem?_nodes_addFrame] at hv
  obtain ⟨n₀, hn₀, rfl⟩ := Option.map_eq_some_iff.mp hv
  have hold := h n₀ (Array.mem_of_getElem? hn₀)
  split at hmem
  · rcases Array.mem_push.mp hmem with hmem | rfl
    · exact hold f hmem
    · exact hf
  · exact hold f hmem

theorem StateSpace.Supported.addNode (h : s.Supported) (name : String) (entry : Nat)
    (constraints : List Constraint) : (s.addNode name entry constraints).Supported := by
  intro n hn f hmem
  rcases Array.mem_push.mp hn with hn | rfl
  · exact h n hn f hmem
  · exact absurd hmem (Array.not_mem_empty f)

theorem Path.Enters.supported {source target : Nat} {kind : EdgeKind}
    (h : p.Enters limits source target kind s s' qs) (hs : s.Supported) : s'.Supported := by
  cases h with
  | pruned => exact hs
  | entered => exact hs.addNode p.functionName target p.constraints

theorem Steps.supported (h : Steps program limits frame e s s' qs supply returned)
    (hs : s.Supported) : s'.Supported := by
  cases h with
  | next | halt | jumpLost | knownLost => exact hs
  | jump _ _ enters | knownFalse _ _ enters | knownTrue _ _ _ _ enters => exact enters.supported hs
  | fork _ _ _ falls jumps => exact jumps.supported (falls.supported hs)
  | forkLost _ _ _ falls => exact falls.supported hs

theorem Progress.supported_of_advance {g g' : Progress} (h : Advance program limits g g')
    (hg : g.space.Supported) : g'.space.Supported := by
  cases h with
  | ended | unfit => exact hg
  | step _ fits steps => exact steps.supported (hg.addFrame _ (pops_le_of_fitsStack fits))

end

end GuardFinder

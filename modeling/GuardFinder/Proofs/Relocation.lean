import GuardFinder.Proofs.Lockstep
import GuardFinder.Proofs.Renaming

/-!
# Explorations behind a state space

A transaction that starts with the state space and the names that another one has left goes the same
way as one that starts with nothing. Its nodes stand behind those that were there, and its names are
raised.

* `Renaming.lift`: all names are raised by the same. `StateSpace.behind`: a state space with raised
  names, behind another one.
* `Sight.rename`, `Signal.Renamed`: what subscribers are told, with other tags.
* `relocated_stepAt`: **steps commute with relocation**.
* `lockstep_relocated`: so explorations run in lockstep, together with all who watch them that react
  to other tags in the same way.
-/

namespace GuardFinder

/-- All tags are raised by `a`, and all numbers of results by `b`. -/
def Renaming.lift (a b : Nat) : Renaming where
  tags := (· + a)
  ids := (· + b)
  tags_injective _ _ h := Nat.add_right_cancel h
  ids_injective _ _ h := Nat.add_right_cancel h

theorem Renaming.raises_lift (a b : Nat) (s t : Supply) : (Renaming.lift a b).Raises a b s t :=
  ⟨fun _ _ _ => rfl, fun _ _ _ => rfl⟩

namespace Term

mutual

/-- Terms have no tags. -/
theorem rename_lift_tags (a : Nat) : ∀ t : Term, t.rename (.lift a 0) = t
  | .const _ | .env _ | .havoc _ _ => by simp only [rename, Renaming.lift, Nat.add_zero]
  | .callData x | .storage x | .unary _ x => by simp only [rename, rename_lift_tags a x]
  | .binary _ x y => by simp only [rename, rename_lift_tags a x, rename_lift_tags a y]
  | .keccak xs | .concat xs => by simp only [rename, renameAll_lift_tags a xs]

theorem renameAll_lift_tags (a : Nat) : ∀ ts : List Term, renameAll (.lift a 0) ts = ts
  | [] => rfl
  | t :: ts => by simp only [renameAll, rename_lift_tags a t, renameAll_lift_tags a ts]

end

end Term

/-! ### State spaces -/

/-- The frame with other names. -/
def Frame.rename (ρ : Renaming) (f : Frame) : Frame := ⟨f.instruction, f.stack.map (Value.rename ρ)⟩

/-- The node with other names, `d` places further back. -/
def Node.relocate (ρ : Renaming) (d : Nat) (n : Node) : Node :=
  { n with
    uid := n.uid + d
    frames := n.frames.map (Frame.rename ρ)
    constraints := n.constraints.map (Constraint.rename ρ) }

/-- The edge between nodes that are `d` places further back. -/
def Edge.shift (d : Nat) (e : Edge) : Edge := ⟨e.source + d, e.target + d, e.kind⟩

namespace StateSpace

/-- A state space with other names, behind one that was there before. -/
def behind (front : StateSpace) (ρ : Renaming) (s : StateSpace) : StateSpace where
  nodes := front.nodes ++ s.nodes.map (Node.relocate ρ front.nodes.size)
  edges := front.edges ++ s.edges.map (Edge.shift front.nodes.size)
  complete := front.complete && s.complete

variable (front : StateSpace) (ρ : Renaming) (s : StateSpace)

theorem size_nodes_behind : (front.behind ρ s).nodes.size = s.nodes.size + front.nodes.size := by
  rw [behind, Array.size_append, Array.size_map, Nat.add_comm]

theorem behind_empty (hcomplete : front.complete = true) : front.behind ρ {} = front := by
  obtain ⟨nodes, edges, complete⟩ := front
  obtain rfl : complete = true := hcomplete
  simp [behind]

theorem addFrame_behind (u : Nat) (f : Frame) :
    (front.behind ρ s).addFrame (u + front.nodes.size) (f.rename ρ) =
      front.behind ρ (s.addFrame u f) := by
  simp only [addFrame, behind, StateSpace.mk.injEq, and_self, and_true]
  refine Array.ext_getElem? fun i => ?_
  simp only [Array.getElem?_modify, Array.getElem?_append, Array.getElem?_map]
  -- the nodes in front get no frames
  by_cases hi : i < front.nodes.size
  · have hne : u + front.nodes.size ≠ i := by omega
    rw [if_neg hne, if_pos hi, if_pos hi]
  · have hiff : u + front.nodes.size = i ↔ u = i - front.nodes.size := by omega
    rw [if_neg hi, if_neg hi]
    by_cases hu : u = i - front.nodes.size
    · rw [if_pos (hiff.mpr hu), if_pos hu, Option.map_map, Option.map_map]
      refine congrArg (Option.map · _) (funext fun n => ?_)
      simp [Node.relocate]
    · rw [if_neg (mt hiff.mp hu), if_neg hu]

theorem addNode_behind (name : String) (start : Nat) (known : List Constraint) :
    (front.behind ρ s).addNode name start (known.map (Constraint.rename ρ)) =
      front.behind ρ (s.addNode name start known) := by
  have hsize := size_nodes_behind front ρ s
  simp only [addNode, hsize]
  simp only [behind, Array.map_push, Array.push_append, Node.relocate, Array.map_empty]

theorem addEdge_behind (e : Edge) :
    (front.behind ρ s).addEdge (e.shift front.nodes.size) = front.behind ρ (s.addEdge e) := by
  simp only [addEdge, behind, Array.map_push, Array.push_append]

/-- A limit cuts both short. -/
theorem cut_behind :
    { front.behind ρ s with complete := false } = front.behind ρ { s with complete := false } := by
  simp only [behind, Bool.and_false]

end StateSpace

/-! ### Sights and signals -/

/-- What is seen of a value with another tag. -/
def Item.rename (ρ : Renaming) (i : Item) : Item := ⟨ρ.tags i.tag, i.const?⟩

/-- What is seen of an event, with other tags. -/
def Sight.rename (ρ : Renaming) (s : Sight) : Sight :=
  { s with args := s.args.map (Item.rename ρ), stack := s.stack.map (Item.rename ρ) }

/-- A signal that tells the same with other tags. Messages are not compared. -/
inductive Signal.Renamed (ρ : Renaming) : Signal → Signal → Prop
  | event {e e' : Event} (op : Opcode) (phase : e'.phase = e.phase)
      (sight : e'.sight = e.sight.rename ρ) : Renamed ρ (.event op e) (.event op e')
  | inherit (i : Inheritance) : Renamed ρ (.inherit i) (.inherit (i.rename ρ))
  | message (m m' : Message) : Renamed ρ (.message m) (.message m')

variable {ρ : Renaming} {a b : Nat}

theorem Value.item_rename (v : Value) : (v.rename ρ).item = v.item.rename ρ := by
  rw [item, const?_rename, tag_rename, Item.rename, item]

theorem Value.map_item_rename (vs : List Value) :
    (vs.map (Value.rename ρ)).map Value.item = (vs.map Value.item).map (Item.rename ρ) := by
  simp only [List.map_map]
  exact List.map_congr_left fun v _ => v.item_rename

theorem renamed_inheritSignals (inheritances : List Inheritance) :
    List.Forall₂ (Signal.Renamed ρ) (inheritSignals inheritances)
      (inheritSignals (inheritances.map (Inheritance.rename ρ))) := by
  simp only [inheritSignals, List.forall₂_map_left_iff, List.forall₂_map_right_iff]
  exact List.forall₂_same.mpr fun i _ => .inherit i

/-! ### Steps -/

/-- A path that is another one with other names, at a node that is `d` places further back. -/
structure Path.Relocated (ρ : Renaming) (d : Nat) (p q : Path) : Prop extends p.Renamed ρ q where
  node : q.node = p.node + d
  lastFrame : q.lastFrame = p.lastFrame.map (Frame.rename ρ)

/-- What comes of following an edge, behind a state space. -/
structure Arrival.Relocated (front : StateSpace) (ρ : Renaming) (x y : Arrival) : Prop where
  space : y.space = front.behind ρ x.space
  paths : List.Forall₂ (Path.Relocated ρ front.nodes.size) x.paths y.paths
  signals : List.Forall₂ (Signal.Renamed ρ) x.signals y.signals

/-- A step behind a state space, where `a` tags and `b` numbers more have been given out. -/
structure Step.Relocated (front : StateSpace) (ρ : Renaming) (a b : Nat) (x y : Step) : Prop where
  space : y.space = front.behind ρ x.space
  supply : y.supply = x.supply.raise a b
  paths : List.Forall₂ (Path.Relocated ρ front.nodes.size) x.paths y.paths
  returned : y.returned = x.returned
  signals : List.Forall₂ (Signal.Renamed ρ) x.signals y.signals

section

variable {front : StateSpace} {p q : Path}

/-- Subscribers see the same of two paths, with other tags. -/
theorem Path.Renamed.sight (h : p.Renamed ρ q) (ins : Instruction) (phase : Phase)
    (previous : Option Frame) :
    Event.sight ⟨phase, q.view ins, previous.map (Frame.rename ρ)⟩ =
      (Event.sight ⟨phase, p.view ins, previous⟩).rename ρ := by
  have hwords : q.memory.knownWord? = p.memory.knownWord? := by
    funext offset
    rw [Memory.knownWord?, h.memory.row, Memory.knownBytes?_rename, Memory.knownWord?]
  cases phase <;> cases previous <;>
    simp only [Event.sight, Sight.rename, Option.map_some, Option.map_none, Frame.rename, Path.view,
      h.stack, Value.map_item_rename, h.functionName, hwords, StateView.opcode]

theorem Path.Renamed.postEvent (h : p.Renamed ρ q) (program : Program) (frame : Frame) :
    (p.postEvent program frame).Renamed ρ (q.postEvent program (frame.rename ρ)) := by
  unfold Path.postEvent
  rw [h.pc]
  exact .event _ rfl (h.sight _ .post (some frame))

theorem StateSpace.addChild_behind (s : StateSpace) (h : p.Relocated ρ front.nodes.size q)
    (target : Nat) (kind : EdgeKind) :
    (front.behind ρ s).addChild q target kind = front.behind ρ (s.addChild p target kind) := by
  rw [addChild, h.functionName, h.constraints, addNode_behind, h.node, size_nodes_behind]
  exact addEdge_behind front ρ _ ⟨p.node, s.nodes.size, kind⟩

theorem Path.Relocated.follow (h : p.Relocated ρ front.nodes.size q) (program : Program)
    (limits : Limits) (s : StateSpace) (frame : Frame) (target : Nat) (kind : EdgeKind) :
    (follow program limits s p frame target kind).Relocated front ρ
      (follow program limits (front.behind ρ s) q (frame.rename ρ) target kind) := by
  have hcut : { front.behind ρ s with complete := false } =
      front.behind ρ { s with complete := false } := front.cut_behind ρ s
  unfold GuardFinder.follow Path.enter
  simp only [h.trail, Frame.rename]
  by_cases hloop : limits.loopBound <
      (p.trail.push (frame.instruction.address, target)).count (frame.instruction.address, target)
  · simp only [if_pos hloop]
    exact ⟨hcut, .nil, .cons (.message _ _) .nil⟩
  · simp only [if_neg hloop]
    by_cases hdepth : limits.maxDepth <
        (p.trail.push (frame.instruction.address, target)).length
    · simp only [if_pos hdepth]
      exact ⟨hcut, .nil, .cons (.message _ _) .nil⟩
    · simp only [if_neg hdepth]
      have hmoved : (p.moved frame.instruction.address target s.nodes.size).Relocated ρ
          front.nodes.size
          { q with
            trail := p.trail.push (frame.instruction.address, target)
            node := (front.behind ρ s).nodes.size, pc := target, lastFrame := none } :=
        { h with
          pc := rfl, trail := rfl, node := front.size_nodes_behind ρ s, lastFrame := rfl }
      exact ⟨StateSpace.addChild_behind s h target kind, .cons hmoved .nil,
        .cons (hmoved.postEvent program frame) .nil⟩

variable (hρ : ∀ s t, ρ.Raises a b s t)
include hρ

theorem relocated_forkStep (h : p.Relocated ρ front.nodes.size q) (program : Program)
    (limits : Limits) (s : StateSpace) (supply : Supply) (frame : Frame) (destination : Value)
    (condition : Term) :
    (forkStep program limits s supply p frame destination condition).Relocated front ρ a b
      (forkStep program limits (front.behind ρ s) (supply.raise a b) q (frame.rename ρ)
        (destination.rename ρ) (condition.rename ρ)) := by
  obtain ⟨-, hsupply, hinherited⟩ := Path.renamed_fork h.toRenamed supply (hρ _ _)
  have hother : (p.fallen supply condition).Relocated ρ front.nodes.size
      (q.fallen (supply.raise a b) (condition.rename ρ)) :=
    { h.toRenamed.fallen (hρ _ _) condition with node := h.node, lastFrame := rfl }
  have hfallen := hother.follow program limits s frame frame.instruction.nextAddress
    (.conditional false)
  have htaken : (p.taken condition).Relocated ρ front.nodes.size
      (q.taken (condition.rename ρ)) :=
    { h.toRenamed.taken condition with node := h.node, lastFrame := h.lastFrame }
  have hbefore := List.rel_append
    (renamed_inheritSignals (ρ := ρ) (p.fork supply).inheritances) hfallen.signals
  unfold forkStep
  simp only [jumpTarget?_rename, hinherited]
  cases jumpTarget? program destination with
  | none => exact ⟨hfallen.space, hsupply, hfallen.paths, rfl, hbefore⟩
  | some target =>
    have hjumped := htaken.follow program limits
      (follow program limits s (p.fallen supply condition) frame frame.instruction.nextAddress
        (.conditional false)).space frame target (.conditional true)
    rw [← hfallen.space] at hjumped
    refine ⟨hjumped.space, hsupply, List.rel_append hjumped.paths hfallen.paths, rfl,
      List.rel_append (List.rel_append hbefore ?_) hjumped.signals⟩
    rw [selectedFunction?_rename]
    cases selectedFunction? condition with
    | none => exact .nil
    | some name => exact .cons (.message _ _) .nil

/-- **Steps commute with relocation.** -/
theorem relocated_stepAt (h : p.Relocated ρ front.nodes.size q) (program : Program)
    (limits : Limits) (s : StateSpace) (supply : Supply) (ins : Instruction) :
    (stepAt program limits s supply p ins).Relocated front ρ a b
      (stepAt program limits (front.behind ρ s) (supply.raise a b) q ins) := by
  have he : (execute program ins p supply).Renamed ρ a b
      (execute program ins q (supply.raise a b)) :=
    Path.renamed_execute h.toRenamed program ins supply (hρ _ _)
  obtain ⟨_, _, _, hp⟩ := path_execute program ins p supply
  obtain ⟨_, _, _, hq⟩ := path_execute program ins q (supply.raise a b)
  have hpath : (execute program ins p supply).path.Relocated ρ front.nodes.size
      (execute program ins q (supply.raise a b)).path :=
    { he.path with
      node := by rw [hp, hq, h.node]
      lastFrame := by rw [hp, hq, h.lastFrame] }
  have hframe : (⟨ins, q.stack⟩ : Frame) = (⟨ins, p.stack⟩ : Frame).rename ρ := by
    rw [h.stack, Frame.rename]
  unfold stepAt
  simp only [hframe, h.node, StateSpace.addFrame_behind]
  clear hp hq
  generalize execute program ins q (supply.raise a b) = e' at he hpath ⊢
  generalize execute program ins p supply = e at he hpath ⊢
  simp only [he.supply, he.inheritances, he.flow]
  have hinherited := renamed_inheritSignals (ρ := ρ) e.inheritances
  have hfollow (target : Nat) (kind : EdgeKind) := hpath.follow program limits
    (s.addFrame p.node ⟨ins, p.stack⟩) ⟨ins, p.stack⟩ target kind
  cases e.flow with
  | next =>
    have hnext : { e.path with
          pc := ins.nextAddress, lastFrame := some ⟨ins, p.stack⟩ }.Relocated ρ front.nodes.size
        { e'.path with
          pc := ins.nextAddress, lastFrame := some (Frame.rename ρ ⟨ins, p.stack⟩) } :=
      { hpath with pc := rfl, lastFrame := rfl }
    exact ⟨rfl, rfl, .cons hnext .nil, rfl,
      List.rel_append hinherited (.cons (hnext.postEvent program _) .nil)⟩
  | halt returned => exact ⟨rfl, rfl, .nil, rfl, hinherited⟩
  | jump destination =>
    simp only [Flow.rename, jumpTarget?_rename]
    cases jumpTarget? program destination with
    | none =>
      exact ⟨rfl, rfl, .nil, rfl, List.rel_append hinherited (.cons (.message _ _) .nil)⟩
    | some target =>
      have hjump := hfollow target .jump
      exact ⟨hjump.space, rfl, hjump.paths, rfl, List.rel_append hinherited hjump.signals⟩
  | branch destination condition =>
    simp only [Flow.rename, Value.const?_rename]
    cases condition.const? with
    | none =>
      exact relocated_forkStep hρ hpath program limits _ e.supply _ destination condition.word
    | some v =>
      simp only [jumpTarget?_rename]
      generalize (if v = 0 then some ins.nextAddress else jumpTarget? program destination) = target?
      cases target? with
      | none => exact ⟨rfl, rfl, .nil, rfl, hinherited⟩
      | some target =>
        have hjump := hfollow target (.conditional (v ≠ 0))
        exact ⟨hjump.space, rfl, hjump.paths, rfl, List.rel_append hinherited hjump.signals⟩

end

/-! ### Explorations -/

/-- An exploration behind a state space, where `a` tags and `b` numbers more have been given out. -/
structure Progress.Relocated (front : StateSpace) (ρ : Renaming) (a b : Nat) (g h : Progress) :
    Prop where
  paths : List.Forall₂ (Path.Relocated ρ front.nodes.size) g.paths h.paths
  space : h.space = front.behind ρ g.space
  supply : h.supply = g.supply.raise a b
  returned : h.returned = g.returned

theorem Progress.relocated_begin (front : StateSpace) (ρ : Renaming) (a b : Nat) (entry : String)
    (space : StateSpace) (supply : Supply) :
    (Progress.begin entry space supply).Relocated front ρ a b
      (.begin entry (front.behind ρ space) (supply.raise a b)) := by
  have hstart : (Path.start entry space.nodes.size).Relocated ρ front.nodes.size
      (Path.start entry (front.behind ρ space).nodes.size) :=
    { Path.renamed_start entry _ _ with
      node := front.size_nodes_behind ρ space
      lastFrame := rfl }
  exact ⟨.cons hstart .nil, front.addNode_behind ρ space entry 0 [], rfl, rfl⟩

/-- **Explorations behind a state space run in lockstep** with those that start with nothing, and so
do those who watch them, if signals with other tags keep them related. -/
theorem lockstep_relocated {α β : Type} {hear₁ : α → Signal → α} {hear₂ : β → Signal → β}
    {Q : α → β → Prop} (hρ : ∀ s t, ρ.Raises a b s t)
    (hQ : ∀ {x y signal signal'}, Signal.Renamed ρ signal signal' → Q x y →
      Q (hear₁ x signal) (hear₂ y signal'))
    (limits : Limits) (front : StateSpace) :
    Lockstep limits hear₁ hear₂ fun g h x y => g.Relocated front ρ a b h ∧ Q x y where
  heads := by
    rintro g h x y ⟨hrel, -⟩
    refine hrel.paths.imp fun p q hpq => ⟨hpq.pc.symm, ?_⟩
    rw [hpq.stack, List.length_map]
  returned := fun g h x y hrel => hrel.1.returned.symm
  drop := by
    rintro g h x y p q ps qs hp hq ⟨hrel, hxy⟩
    have hpaths := hrel.paths
    rw [hp, hq] at hpaths
    exact ⟨{ hrel with paths := (List.forall₂_cons.mp hpaths).2 }, hxy⟩
  step := by
    rintro program g h x y p q ps qs ins hp hq - - ⟨hrel, hxy⟩
    have hpaths := hrel.paths
    rw [hp, hq] at hpaths
    obtain ⟨hpq, hrest⟩ := List.forall₂_cons.mp hpaths
    have hstep := relocated_stepAt hρ hpq program limits g.space g.supply ins
    simp only [Progress.stepped, Progress.signals, hrel.space, hrel.supply, hrel.returned]
    refine ⟨⟨List.rel_append hstep.paths hrest, hstep.space, hstep.supply, ?_⟩, ?_⟩
    · simp only [hstep.returned]
    · have hbefore : Signal.Renamed ρ (.event ins.opcode ⟨.pre, p.view ins, p.lastFrame⟩)
          (.event ins.opcode ⟨.pre, q.view ins, q.lastFrame⟩) := by
        rw [hpq.lastFrame]
        exact .event _ rfl (hpq.sight ins .pre p.lastFrame)
      exact List.rel_foldl (R := Signal.Renamed ρ) (fun _ _ hxy _ _ hsignal => hQ hsignal hxy) hxy
        (.cons hbefore hstep.signals)
  cut := by
    rintro g h x y ⟨hrel, hxy⟩
    refine ⟨{ hrel with space := ?_ }, hxy⟩
    rw [Progress.cutShort, hrel.space]
    exact front.cut_behind ρ g.space
  begin := by
    rintro g h x y entry ⟨hrel, hxy⟩
    rw [hrel.space, hrel.supply]
    exact ⟨Progress.relocated_begin front ρ a b entry g.space g.supply, hxy⟩

end GuardFinder

import GuardFinder.Proofs.Forest
import GuardFinder.Proofs.Openings
import Mathlib.Algebra.GroupWithZero.Nat

/-!
# Explorations keep their limits

No clock is needed to end an exploration. Each step loses weight, so that a transaction takes no more
steps than its first path weighs; and each edge counts as one block and as one more pass of its
jump, so that the depth bound and the loop bound hold along every chain of edges.

* `StateSpace.jumpAlong?`: the jump that an edge stands for.
* `Trails`: the trails of all nodes, from which `Trails.within` reads off what holds along chains.
* `Path.room`: how many nodes may still come below a path. `Progress.room_le_of_advance`: **nodes
  come out of the room that is left**.
* `Explorer.explore_within_limits`: explorations end, and keep their limits.
-/

namespace GuardFinder

/-! ### Jumps along edges -/

namespace StateSpace

/-- The jump that an edge stands for: the address of the jump or branch at the end of its source,
and the address at which its target starts. -/
def jumpAlong? (s : StateSpace) (e : Edge) : Option (Nat × Nat) := do
  let parent ← s.nodes[e.source]?
  let child ← s.nodes[e.target]?
  let last ← parent.frames.back?
  if last.instruction.opcode = .jump ∨ last.instruction.opcode = .jumpi then
    some (last.instruction.address, child.startAddress)
  else none

/-- The depth bound and the loop bound are kept along all chains of edges: each edge stands for a
jump, and no jump comes more often than the loop bound allows. -/
def Within (s : StateSpace) (limits : Limits) : Prop :=
  ∀ ⦃u v es⦄, s.Chain u v es → es.length ≤ limits.maxDepth ∧
    ∃ jumps : List (Nat × Nat), es.map s.jumpAlong? = jumps.map some ∧
      ∀ jump, jumps.count jump ≤ limits.loopBound

theorem jumpAlong?_eq_some_iff {s : StateSpace} {e : Edge} {jump : Nat × Nat} :
    s.jumpAlong? e = some jump ↔ ∃ parent child last, s.nodes[e.source]? = some parent ∧
      s.nodes[e.target]? = some child ∧ parent.frames.back? = some last ∧
      (last.instruction.opcode = .jump ∨ last.instruction.opcode = .jumpi) ∧
      (last.instruction.address, child.startAddress) = jump := by
  simp only [jumpAlong?, Option.bind_eq_bind, Option.bind_eq_some_iff, Option.ite_none_right_eq_some,
    Option.some.injEq]
  grind

/-- A frame at a node that has not been left changes no jump. -/
theorem jumpAlong?_addFrame {s : StateSpace} {e : Edge} {u : Nat} (hsource : e.source ≠ u)
    (f : Frame) : (s.addFrame u f).jumpAlong? e = s.jumpAlong? e := by
  simp only [jumpAlong?, getElem?_nodes_addFrame, if_neg hsource]
  cases s.nodes[e.source]? with
  | none => rfl
  | some parent =>
    cases s.nodes[e.target]? with
    | none => rfl
    | some child =>
      simp only [Option.map_some, Option.bind_eq_bind, Option.bind_some]
      split <;> rfl

theorem jumpAlong?_mono {s s' : StateSpace} {e : Edge} {jump : Nat × Nat}
    (hold : ∀ v < s.nodes.size, s'.nodes[v]? = s.nodes[v]?) (h : s.jumpAlong? e = some jump) :
    s'.jumpAlong? e = some jump := by
  obtain ⟨parent, child, last, hparent, hchild, hlast⟩ := jumpAlong?_eq_some_iff.mp h
  refine jumpAlong?_eq_some_iff.mpr ⟨parent, child, last, ?_, ?_, hlast⟩
  · rw [hold _ (Array.getElem?_eq_some_iff.mp hparent).1, hparent]
  · rw [hold _ (Array.getElem?_eq_some_iff.mp hchild).1, hchild]

end StateSpace

/-! ### Trails of nodes -/

/-- A trail for each node, the last jump first, which keeps the limits and goes on along edges. Paths
have the trails of their nodes. -/
structure Trails (limits : Limits) (s : StateSpace) (trail : Nat → List (Nat × Nat))
    (ps : List Path) : Prop where
  length_le : ∀ u, (trail u).length ≤ limits.maxDepth
  count_le : ∀ u jump, (trail u).count jump ≤ limits.loopBound
  edge : ∀ e ∈ s.edges, ∃ jump, s.jumpAlong? e = some jump ∧ trail e.target = jump :: trail e.source
  path : ∀ p ∈ ps, p.node < s.nodes.size ∧ trail p.node = p.trail.edges

namespace Trails

variable {limits : Limits} {s s' : StateSpace} {trail : Nat → List (Nat × Nat)} {p : Path}
  {ps qs : List Path}

theorem empty (limits : Limits) : Trails limits {} (fun _ => []) [] where
  length_le _ := Nat.zero_le _
  count_le _ _ := Nat.zero_le _
  edge _ he := absurd he (Array.not_mem_empty _)
  path _ hp := absurd hp List.not_mem_nil

/-- The jumps along a chain are the last ones of the trail of its end. -/
theorem exists_jumps (h : Trails limits s trail ps) {u v : Nat} {es : List Edge}
    (hchain : s.Chain u v es) :
    ∃ jumps : List (Nat × Nat), es.map s.jumpAlong? = jumps.map some ∧
      trail v = jumps.reverse ++ trail u := by
  induction hchain with
  | nil => exact ⟨[], rfl, rfl⟩
  | snoc _ mem ih =>
    obtain ⟨jumps, hjumps, htrail⟩ := ih
    obtain ⟨jump, hjump, hnext⟩ := h.edge _ mem
    exact ⟨jumps ++ [jump], by simp [hjumps, hjump], by simp [hnext, htrail]⟩

theorem within (h : Trails limits s trail ps) : s.Within limits := by
  intro u v es hchain
  obtain ⟨jumps, hjumps, htrail⟩ := h.exists_jumps hchain
  have hes : es.length = jumps.length := by simpa using congrArg List.length hjumps
  have hlength := h.length_le v
  refine ⟨?_, jumps, hjumps, fun jump => ?_⟩
  · rw [htrail, List.length_append, List.length_reverse] at hlength
    omega
  · have hcount := h.count_le v jump
    rw [htrail, List.count_append, List.count_reverse] at hcount
    omega

theorem of_subset (h : Trails limits s trail ps) (hsub : ∀ q ∈ qs, q ∈ ps) :
    Trails limits s trail qs :=
  ⟨h.length_le, h.count_le, h.edge, fun q hq => h.path q (hsub q hq)⟩

theorem cutShort (h : Trails limits s trail ps) :
    Trails limits { s with complete := false } trail ps :=
  ⟨h.length_le, h.count_le, h.edge, h.path⟩

theorem addFrame (h : Trails limits s trail ps) {u : Nat} (hleaf : ∀ e ∈ s.edges, e.source ≠ u)
    (f : Frame) : Trails limits (s.addFrame u f) trail ps where
  length_le := h.length_le
  count_le := h.count_le
  edge e he := by
    rw [StateSpace.jumpAlong?_addFrame (hleaf e he)]
    exact h.edge e he
  path q hq := by
    rw [StateSpace.size_nodes_addFrame]
    exact h.path q hq

/-- The root of one more transaction has no jumps behind it. -/
theorem begin (h : Trails limits s trail []) (entry : String) (supply : Supply) :
    ∃ trail, Trails limits (Progress.begin entry s supply).space trail
      (Progress.begin entry s supply).paths := by
  have hold : ∀ v < s.nodes.size, (s.addNode entry 0 []).nodes[v]? = s.nodes[v]? := fun v hv =>
    Array.getElem?_push.trans (if_neg (Nat.ne_of_lt hv))
  refine ⟨fun v => if v < s.nodes.size then trail v else [], fun v => ?_, fun v jump => ?_,
    fun e he => ?_, fun p hp => ?_⟩
  · split
    · exact h.length_le v
    · exact Nat.zero_le _
  · split
    · exact h.count_le v jump
    · exact Nat.zero_le _
  · obtain ⟨jump, hjump, hnext⟩ := h.edge e he
    obtain ⟨parent, child, -, hparent, hchild, -⟩ := StateSpace.jumpAlong?_eq_some_iff.mp hjump
    refine ⟨jump, StateSpace.jumpAlong?_mono hold hjump, ?_⟩
    rw [if_pos (Array.getElem?_eq_some_iff.mp hparent).1,
      if_pos (Array.getElem?_eq_some_iff.mp hchild).1, hnext]
  · rw [List.mem_singleton.mp hp]
    exact ⟨by simp [Progress.begin, StateSpace.addNode, Path.start],
      if_neg (Nat.lt_irrefl s.nodes.size)⟩

/-- A path that follows an edge has one jump more behind it. -/
theorem enters (h : Trails limits s trail ps) {source target : Nat} {kind : EdgeKind}
    (henters : p.Enters limits source target kind s s' qs) {n : Node} {f : Frame}
    (hn : s.nodes[p.node]? = some n) (hf : n.frames.back? = some f)
    (hop : f.instruction.opcode = kind.opcode) (hsource : f.instruction.address = source)
    (htrail : trail p.node = p.trail.edges) :
    ∃ trail', Trails limits s' trail' (qs ++ ps) ∧ trail' p.node = trail p.node ∧
      s'.nodes[p.node]? = some n := by
  have hnode : p.node < s.nodes.size := (Array.getElem?_eq_some_iff.mp hn).1
  cases henters with
  | pruned => exact ⟨trail, h.cutShort, rfl, hn⟩
  | entered loops depth =>
    have hsize : (s.addChild p target kind).nodes.size = s.nodes.size + 1 := Array.size_push _
    have hold : ∀ v < s.nodes.size, (s.addChild p target kind).nodes[v]? = s.nodes[v]? := by
      intro v hv
      rw [StateSpace.getElem?_nodes_addChild, if_neg (Nat.ne_of_lt hv)]
    rw [Trail.count_eq] at loops
    rw [Trail.length_eq] at depth
    have htrails : ∀ v < s.nodes.size, (if v = s.nodes.size then (source, target) :: trail p.node
        else trail v) = trail v := fun v hv => if_neg (Nat.ne_of_lt hv)
    refine ⟨fun v => if v = s.nodes.size then (source, target) :: trail p.node else trail v,
      ⟨fun v => ?_, fun v jump => ?_, fun e he => ?_, fun q hq => ?_⟩, htrails _ hnode,
      (hold _ hnode).trans hn⟩
    · split
      · rw [htrail]
        exact depth
      · exact h.length_le v
    · split
      · by_cases hjump : (source, target) = jump
        · rw [← hjump, htrail]
          exact loops
        · rw [List.count_cons_of_ne hjump]
          exact h.count_le p.node jump
      · exact h.count_le v jump
    · rcases Array.mem_push.mp he with he | rfl
      · obtain ⟨jump, hjump, hnext⟩ := h.edge e he
        obtain ⟨parent, child, -, hparent, hchild, -⟩ := StateSpace.jumpAlong?_eq_some_iff.mp hjump
        refine ⟨jump, StateSpace.jumpAlong?_mono hold hjump, ?_⟩
        rw [htrails _ (Array.getElem?_eq_some_iff.mp hparent).1,
          htrails _ (Array.getElem?_eq_some_iff.mp hchild).1, hnext]
      · refine ⟨(source, target), StateSpace.jumpAlong?_eq_some_iff.mpr ⟨n, _, f,
          (hold _ hnode).trans hn, (StateSpace.getElem?_nodes_addChild ..).trans (if_pos rfl), hf,
          ?_, by rw [hsource]⟩, by simp only [if_true, htrails _ hnode]⟩
        rw [hop]
        cases kind with
        | jump => exact .inl rfl
        | conditional => exact .inr rfl
    · rw [hsize]
      rcases List.mem_cons.mp hq with rfl | hq
      · exact ⟨Nat.lt_succ_self _, (if_pos rfl).trans (congrArg _ htrail)⟩
      · obtain ⟨hlt, hq⟩ := h.path q hq
        exact ⟨Nat.lt_succ_of_lt hlt, (htrails _ hlt).trans hq⟩

/-- **A step gives each path that goes on the trail of its node.** -/
theorem steps {program : Program} {ins : Instruction} {supply supply' : Supply}
    {returned : Option Bytes} (h : Trails limits s trail (p :: ps))
    (hleaf : ∀ e ∈ s.edges, e.source ≠ p.node)
    (hsteps : Steps program limits ⟨ins, p.stack⟩ (execute program ins p supply)
      (s.addFrame p.node ⟨ins, p.stack⟩) s' qs supply' returned) :
    ∃ trail', Trails limits s' trail' (qs ++ ps) := by
  have hframe := h.addFrame hleaf ⟨ins, p.stack⟩
  obtain ⟨hlt, htrail⟩ := h.path p List.mem_cons_self
  obtain ⟨stack, memory, storage, hpath⟩ := path_execute program ins p supply
  obtain ⟨n, hn, hlast⟩ : ∃ n, (s.addFrame p.node ⟨ins, p.stack⟩).nodes[p.node]? = some n ∧
      n.frames.back? = some ⟨ins, p.stack⟩ :=
    ⟨_, StateSpace.getElem?_nodes_addFrame_self (Array.getElem?_eq_getElem hlt) _, Array.back?_push⟩
  -- edge by edge: the node that is left stays as it is
  suffices hall : ∃ trail', Trails limits s' trail' (qs ++ ps) ∧ trail' p.node = p.trail.edges ∧
      s'.nodes[p.node]? = some n from hall.imp fun _ hall => hall.1
  refine hsteps.rule (Q := fun s' qs => ∃ trail', Trails limits s' trail' (qs ++ ps) ∧
      trail' p.node = p.trail.edges ∧ s'.nodes[p.node]? = some n) ?_ ?_ ?_
  · exact ⟨trail, hframe.of_subset fun q hq => List.mem_cons_of_mem _ hq, htrail, hn⟩
  · intro _
    refine ⟨trail, ⟨h.length_le, h.count_le, hframe.edge, fun q hq => ?_⟩, htrail, hn⟩
    rcases List.mem_cons.mp hq with rfl | hq
    · rw [hpath]
      exact hframe.path p List.mem_cons_self
    · exact hframe.path q (List.mem_cons_of_mem _ hq)
  · rintro q target kind s₁ s₂ rs rs' hout henters ⟨trail₁, h₁, htrail₁, hn₁⟩
    obtain ⟨hnode, hsame⟩ := hout.node_eq
    rw [← hnode] at hn₁ htrail₁
    obtain ⟨trail₂, h₂, htrail₂, hn₂⟩ := h₁.enters henters hn₁ hlast hout.opcode_eq rfl
      (by rw [htrail₁, hsame])
    rw [hnode] at htrail₁ htrail₂ hn₂
    rw [List.append_assoc]
    exact ⟨trail₂, h₂, htrail₂.trans htrail₁, hn₂⟩

end Trails

namespace Progress

variable {program : Program} {limits : Limits} {g g' : Progress} {roots : List Nat}
  {entries : List String}

/-- The state space is growing, and its nodes have trails. -/
def Bounded (limits : Limits) (g : Progress) (roots : List Nat) (entries : List String) : Prop :=
  g.Growing roots entries ∧ ∃ trail, Trails limits g.space trail g.paths

theorem bounded_of_advance (h : Advance program limits g g') (hg : g.Bounded limits roots entries) :
    g'.Bounded limits roots entries := by
  obtain ⟨hgrowing, trail, htrails⟩ := hg
  refine ⟨growing_of_advance h hgrowing, ?_⟩
  cases h with
  | ended | unfit => exact ⟨trail, htrails.of_subset fun q hq => List.mem_cons_of_mem _ hq⟩
  | step _ _ steps =>
    obtain ⟨-, root, first, way, hsurvey⟩ := hgrowing
    exact htrails.steps (hsurvey.leaf _ List.mem_cons_self) steps

/-- A transaction keeps the limits, along its own chains and along those that were there before. -/
theorem trails_of_reaches {space : StateSpace} {entry : String} {supply : Supply}
    (h : Reaches program limits (begin entry space supply) g) (hspace : space.Planted roots entries)
    {trail : Nat → List (Nat × Nat)} (htrails : Trails limits space trail []) :
    ∃ trail', Trails limits g.space trail' [] := by
  suffices hg : g.Bounded limits (roots ++ [space.nodes.size]) (entries ++ [entry]) by
    obtain ⟨-, trail', h'⟩ := hg
    exact ⟨trail', h'.of_subset fun q hq => absurd hq List.not_mem_nil⟩
  induction h with
  | refl => exact ⟨growing_begin hspace entry supply, htrails.begin entry supply⟩
  | tail _ hadvance ih => exact bounded_of_advance hadvance ih

end Progress

/-! ### Room for nodes -/

/-- How many nodes may still come below a path: the nodes of a binary tree without its root. -/
def Path.room (limits : Limits) (p : Path) : Nat :=
  2 ^ (limits.maxDepth - p.trail.length + 1) - 2

/-- How many nodes may still come below several paths. -/
def roomSum (limits : Limits) (ps : List Path) : Nat := (ps.map (Path.room limits)).sum

theorem roomSum_append (limits : Limits) (ps qs : List Path) :
    roomSum limits (ps ++ qs) = roomSum limits ps + roomSum limits qs := by
  simp [roomSum]

theorem roomSum_cons (limits : Limits) (p : Path) (ps : List Path) :
    roomSum limits (p :: ps) = p.room limits + roomSum limits ps := by
  simp [roomSum]

/-- A node and what may come below it take half of the room above it. -/
theorem Path.Enters.room_le {limits : Limits} {p : Path} {source target : Nat} {kind : EdgeKind}
    {s s' : StateSpace} {qs : List Path} (h : p.Enters limits source target kind s s' qs) :
    2 * (s'.nodes.size + roomSum limits qs) ≤ 2 * s.nodes.size + p.room limits := by
  cases h with
  | pruned => exact Nat.le_add_right _ _
  | entered loops depth =>
    have hsize : (s.addChild p target kind).nodes.size = s.nodes.size + 1 := Array.size_push _
    rw [Trail.length_push] at depth
    -- one level less is left
    obtain ⟨k, hk⟩ : ∃ k, limits.maxDepth - p.trail.length = k + 1 :=
      ⟨limits.maxDepth - p.trail.length - 1, by omega⟩
    have hk' : limits.maxDepth - (p.trail.length + 1) = k := by omega
    have hpos : 0 < 2 ^ k := Nat.pow_pos (by omega)
    simp only [hsize, roomSum_cons, Path.room, Path.moved, Trail.length_push, hk, hk', Nat.pow_succ]
    simp only [roomSum, List.map_nil, List.sum_nil]
    omega

theorem Steps.room_le {program : Program} {limits : Limits} {frame : Frame} {e : Effect}
    {s s' : StateSpace} {qs : List Path} {supply : Supply} {returned : Option Bytes}
    (h : Steps program limits frame e s s' qs supply returned) :
    s'.nodes.size + roomSum limits qs ≤ s.nodes.size + e.path.room limits := by
  cases h with
  | next => exact Nat.le_refl _
  | halt | jumpLost | knownLost => exact Nat.le_add_right _ _
  | jump _ _ enters | knownFalse _ _ enters | knownTrue _ _ _ _ enters =>
    have := enters.room_le
    omega
  | forkLost _ _ _ falls =>
    have hroom : 2 * (s'.nodes.size + roomSum limits qs) ≤
      2 * s.nodes.size + e.path.room limits := falls.room_le
    omega
  | @fork _ _ _ s₁ _ ps qs _ _ _ falls jumps =>
    have hfalls : 2 * (s₁.nodes.size + roomSum limits ps) ≤
      2 * s.nodes.size + e.path.room limits := falls.room_le
    have hjumps : 2 * (s'.nodes.size + roomSum limits qs) ≤
      2 * s₁.nodes.size + e.path.room limits := jumps.room_le
    rw [roomSum_append]
    omega

namespace Progress

variable {program : Program} {limits : Limits} {g g' : Progress}

/-- **Nodes come out of the room that is left.** -/
theorem room_le_of_advance (h : Advance program limits g g') :
    g'.space.nodes.size + roomSum limits g'.paths ≤
      g.space.nodes.size + roomSum limits g.paths := by
  cases h with
  | ended | unfit =>
    simp only [roomSum_cons]
    omega
  | @step p _ _ _ _ supply _ _ _ ins _ _ steps =>
    have hroom := steps.room_le
    have hsame : (execute program ins p supply).path.room limits = p.room limits := by
      rw [Path.room, (trail_execute program ins p supply).1, Path.room]
    rw [StateSpace.size_nodes_addFrame, hsame] at hroom
    simp only [roomSum_append, roomSum_cons]
    omega

theorem nodes_le_of_reaches {entry : String} {space : StateSpace} {supply : Supply}
    (h : Reaches program limits (begin entry space supply) g) :
    g.space.nodes.size ≤ space.nodes.size + (2 ^ (limits.maxDepth + 1) - 1) := by
  suffices hroom : g.space.nodes.size + roomSum limits g.paths ≤
      (begin entry space supply).space.nodes.size +
        roomSum limits (begin entry space supply).paths by
    have hsize : (begin entry space supply).space.nodes.size = space.nodes.size + 1 :=
      Array.size_push _
    have hbegin : roomSum limits (begin entry space supply).paths =
        2 ^ (limits.maxDepth + 1) - 2 := Nat.add_zero _
    have hpos : 0 < 2 ^ limits.maxDepth := Nat.pow_pos (by omega)
    rw [hsize, hbegin] at hroom
    rw [Nat.pow_succ] at hroom ⊢
    omega
  induction h with
  | refl => exact Nat.le_refl _
  | tail _ hadvance ih => exact Nat.le_trans (room_le_of_advance hadvance) ih

end Progress

/-! ### Explorations -/

namespace Explorer

variable {σ : Type}

/-- **A transaction keeps its limits**, after others that have kept them. -/
theorem run_within (x : Explorer) (observer : Observer σ) {o : Opening σ} {roots : List Nat}
    {entries : List String} (hplanted : o.space.Planted roots entries)
    {trail : Nat → List (Nat × Nat)} (htrails : Trails x.limits o.space trail []) :
    (∃ trail', Trails x.limits (x.run observer o).progress.space trail' []) ∧
      (x.run observer o).progress.space.nodes.size ≤ o.root + (2 ^ (x.limits.maxDepth + 1) - 1) := by
  refine x.run_rule observer o (J := fun s => (∃ trail', Trails x.limits s trail' []) ∧
      s.nodes.size ≤ o.root + (2 ^ (x.limits.maxDepth + 1) - 1)) ?_ ?_
  · intro g hreach
    exact ⟨Progress.trails_of_reaches hreach hplanted htrails, Progress.nodes_le_of_reaches hreach⟩
  · rintro s ⟨⟨trail', htrails'⟩, hsize⟩
    exact ⟨⟨trail', htrails'.cutShort⟩, hsize⟩

/-- The loop of a transaction ends: before the paths have taken more steps than they may weigh, none
is left, unless the observer has failed. -/
theorem exists_last_moment (x : Explorer) (observer : Observer σ) (o : Opening σ)
    (htime : x.InTime) :
    ∃ n ≤ 4 ^ x.limits.maxDepth * (o.code.length + 1) + o.code.length, ∃ last,
      (x.setting observer o.code).after? n o.start = some last ∧
        (x.setting observer o.code).next? last = none ∧
        ((x.run observer o).failure = none →
          last.tracks = [] ∧ (x.run observer o).progress = last.progress) := by
  obtain ⟨n, hn, last, hlast, hnone⟩ := (x.setting observer o.code).exists_after?_last o.start
  refine ⟨n, hn, last, hlast, hnone, fun hfailure => ?_⟩
  have hrun : x.run observer o =
      runPaths (x.setting observer o.code) last.progress last.watch :=
    Setting.runPaths_of_visits (Setting.visits_of_after? hlast)
  rw [hrun] at hfailure ⊢
  have htracks := (Setting.tracks_eq_nil_or hnone hfailure).resolve_right
    ((htime.setting observer o.code).not_late _)
  exact ⟨htracks, by rw [runPaths_of_nil (congrArg (List.map Prod.fst) htracks)]⟩

/-- **Explorations end within their limits, without a clock.** Whatever is explored, under whatever
limits and before whatever observer: as long as the time is not over, each transaction comes to a last
moment in boundedly many steps, at which no path is left unless the observer has failed. Along each
chain of edges there are no more edges than the depth bound allows, each stands for a jump, and no
jump occurs more often than the loop bound allows. And each transaction has no more nodes than a
binary tree of that depth. -/
theorem explore_within_limits (x : Explorer) (observer : Observer σ) (target : Target)
    (watch : σ × Ledger) (htime : x.InTime) :
    (∀ o ∈ x.openings observer target watch,
      (∃ n ≤ 4 ^ x.limits.maxDepth * (o.code.length + 1) + o.code.length, ∃ last,
        (x.setting observer o.code).after? n o.start = some last ∧
          (x.setting observer o.code).next? last = none ∧
          ((x.run observer o).failure = none →
            last.tracks = [] ∧ (x.run observer o).progress = last.progress)) ∧
      (x.run observer o).progress.space.Within x.limits ∧
      (x.run observer o).progress.space.nodes.size - o.root ≤ 2 ^ (x.limits.maxDepth + 1) - 1) ∧
    ∀ space, (x.explore observer target watch).result = .ok space → space.Within x.limits := by
  obtain ⟨hall, trail, htrails⟩ := x.openings_rule observer target watch
    (I := fun os space _ => (∀ o ∈ os, (x.run observer o).progress.space.Within x.limits ∧
        (x.run observer o).progress.space.nodes.size ≤ o.root + (2 ^ (x.limits.maxDepth + 1) - 1)) ∧
      ∃ trail, Trails x.limits space trail [])
    ⟨fun o ho => absurd ho List.not_mem_nil, _, .empty _⟩ (by
      rintro os o roots entries hplanted ⟨hos, trail, htrails⟩
      obtain ⟨⟨trail', htrails'⟩, hsize⟩ := x.run_within observer hplanted htrails
      refine ⟨fun o' ho' => ?_, trail', htrails'⟩
      rcases List.mem_append.mp ho' with ho' | ho'
      · exact hos o' ho'
      · rw [List.mem_singleton.mp ho']
        exact ⟨htrails'.within, hsize⟩)
  refine ⟨fun o ho => ⟨x.exists_last_moment observer o htime, (hall o ho).1,
    Nat.sub_le_of_le_add (Nat.add_comm _ _ ▸ (hall o ho).2)⟩, fun space hspace => ?_⟩
  rw [← eq_of_explore hspace]
  exact htrails.within

end Explorer

/-- Code that goes back to its first byte when the call comes with value. -/
def loopingCode : Bytes := [0x5b, 0x34, 0x5f, 0x57, 0x00]

/-- An explorer that follows two edges at most. -/
def shallowExplorer : Explorer where
  limits := ⟨60, 2, 2⟩

/-- The loop is entered twice, and left at each pass. -/
theorem Explorer.explore_within_limits_looping :
    shallowExplorer.InTime ∧
      ∃ o ∈ shallowExplorer.openings stoppingObserver (.deployed ⟨0⟩ loopingCode) ((), {}),
        (shallowExplorer.run stoppingObserver o).failure = none ∧
          (∃ n ≤ 101, ∃ last, (shallowExplorer.setting stoppingObserver o.code).after? n o.start =
            some last ∧ last.tracks = []) ∧
          (shallowExplorer.run stoppingObserver o).progress.space.nodes.size = 5 ∧
          (shallowExplorer.run stoppingObserver o).progress.space.complete = false ∧
          (shallowExplorer.run stoppingObserver o).progress.space.Within ⟨60, 2, 2⟩ := by
  have htime : shallowExplorer.InTime := fun _ => Nat.succ_pos _
  refine ⟨htime, _, List.mem_cons_self, ?_⟩
  have hfailure : (shallowExplorer.run stoppingObserver (shallowExplorer.opening
      (.deployed ⟨0⟩ loopingCode) ((), {}))).failure.isNone = true := by decide +kernel
  rw [Option.isNone_iff_eq_none] at hfailure
  obtain ⟨⟨n, hn, last, hlast, -, hend⟩, hwithin, -⟩ := (explore_within_limits shallowExplorer
    stoppingObserver (.deployed ⟨0⟩ loopingCode) ((), {}) htime).1 _ List.mem_cons_self
  exact ⟨hfailure, ⟨n, hn, last, hlast, (hend hfailure).1⟩, by decide +kernel, by decide +kernel,
    hwithin⟩

end GuardFinder

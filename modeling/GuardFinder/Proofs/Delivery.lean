import GuardFinder.Proofs.Turns

/-!
# What is told of an exploration

Someone who subscribed to all opcodes is told of everything that the state space of an exploration
shows, once each, and of nothing else: of each frame before its instruction, of each frame that falls
through after its instruction, and of each edge.

* `Cause`: what an event is told for. `StateSpace.Causes`: the causes that a state space shows.
* `Turn.Tells`: what is told for a cause.
* `Delivered`: each cause of a state space is told of once, in the order of the turns.
* `Delivered.turn`, `Delivered.plays`: **a turn tells of what it adds, and so does a run**.
* `Explorer.explore_delivers`: events and causes of an exploration correspond one to one.
-/

namespace GuardFinder

/-! ### Causes -/

/-- What an event is told for: a frame of a node, before or after its instruction, or an edge. -/
inductive Cause where
  | before (node index : Nat)
  | after (node index : Nat)
  | along (edge : Nat)
  deriving DecidableEq

/-- The frame that is about to be left. -/
def Cause.place? : Cause → Option (Nat × Nat)
  | .before u i => some (u, i)
  | .after _ _ | .along _ => none

/-- What there is to tell of a state space. -/
def StateSpace.Causes (s : StateSpace) : Cause → Prop
  | .before u i => i < (s.framesAt u).length
  | .after u i => ∃ f, (s.framesAt u)[i]? = some f ∧ f.instruction.opcode.fallsThrough = true
  | .along k => k < s.edges.size

/-- A turn has left a frame of a state space. -/
def Turn.Left (t : Turn) (s : StateSpace) (u i : Nat) : Prop :=
  t.place = (u, i) ∧ (s.framesAt u)[i]? = some t.frame

/-- What is told in a turn for a cause. -/
def Turn.Tells (t : Turn) (s : StateSpace) (e : Event) : Cause → Prop
  | .before u i => t.Left s u i ∧ e.phase = .pre ∧ e.state.instruction = t.instruction ∧
    e.state.stack = t.path.stack ∧ e.previous = ((s.framesAt u).take i).getLast?
  | .after u i => t.Left s u i ∧ e.phase = .post ∧ e.previous = some t.frame ∧
    e.state.instruction = t.program.instructionAt t.instruction.nextAddress ∧
    e.state.stack = t.effect.path.stack ∧
    ∀ f, (s.framesAt u)[i + 1]? = some f → e.state.stack = f.stack
  | .along k => ∃ edge child, s.edges[k]? = some edge ∧ s.nodes[edge.target]? = some child ∧
    t.path.node = edge.source ∧ (s.framesAt edge.source).getLast? = some t.frame ∧
    e.phase = .post ∧ e.previous = some t.frame ∧
    e.state.instruction = t.program.instructionAt child.startAddress ∧
    e.state.functionName = child.functionName ∧ e.state.constraints = child.constraints

section

variable {s s' : StateSpace} {t : Turn} {e : Event} {c : Cause} {u : Nat}

namespace StateSpace

theorem lt_size_of_mem_framesAt {f : Frame} (h : f ∈ s.framesAt u) : u < s.nodes.size := by
  refine Nat.lt_of_not_le fun hle => ?_
  rw [framesAt, Array.getElem?_eq_none hle] at h
  exact absurd h List.not_mem_nil

theorem Continues.framesAt_eq (h : s.Continues s') (hu : u < s.nodes.size) :
    s'.framesAt u = s.framesAt u := by
  rw [framesAt, h.node u hu, framesAt]

theorem not_causes_after (s : StateSpace) (u : Nat) :
    ¬s.Causes (.after u (s.framesAt u).length) := by
  rintro ⟨f, hf, -⟩
  exact Nat.lt_irrefl _ (List.getElem?_eq_some_iff.mp hf).1

/-- One more frame is something to tell of, and something more if it falls through. -/
theorem causes_addFrame (hu : u < s.nodes.size) (f : Frame) :
    (s.addFrame u f).Causes c ↔ s.Causes c ∨ c = .before u (s.framesAt u).length ∨
      c = .after u (s.framesAt u).length ∧ f.instruction.opcode.fallsThrough = true := by
  cases c with
  | along k => simp [Causes, addFrame]
  | before v i =>
    simp only [Causes, framesAt_addFrame hu, Cause.before.injEq, reduceCtorEq, false_and, or_false]
    by_cases hv : v = u
    · subst hv
      simp only [if_true, List.length_append, List.length_singleton, true_and]
      omega
    · simp [hv]
  | after v i =>
    simp only [Causes, framesAt_addFrame hu, Cause.after.injEq, reduceCtorEq, false_or]
    by_cases hv : v = u
    · subst hv
      simp only [if_true, true_and]
      rcases Nat.lt_trichotomy i (s.framesAt v).length with hlt | rfl | hgt
      · simp [List.getElem?_append_left hlt, Nat.ne_of_lt hlt]
      · simp
      · have hlength : (s.framesAt v ++ [f]).length ≤ i := by
          rw [List.length_append, List.length_singleton]
          exact hgt
        simp [List.getElem?_eq_none (Nat.le_of_lt hgt), List.getElem?_eq_none hlength,
          Nat.ne_of_gt hgt]
    · simp [hv]

theorem causes_addChild (p : Path) (target : Nat) (kind : EdgeKind) :
    (s.addChild p target kind).Causes c ↔ s.Causes c ∨ c = .along s.edges.size := by
  cases c with
  | before v i => simp [Causes, framesAt_addChild]
  | after v i => simp [Causes, framesAt_addChild]
  | along k =>
    simp only [Causes, addChild, addEdge, addNode, Array.size_push, Cause.along.injEq]
    omega

end StateSpace

theorem Turn.Left.lt_size {i : Nat} (h : t.Left s u i) : u < s.nodes.size :=
  StateSpace.lt_size_of_mem_framesAt (List.mem_of_getElem? h.2)

/-- What has been told stays true when nodes and edges are added. -/
theorem Turn.Tells.continues (h : t.Tells s e c) (hs : s.Continues s') : t.Tells s' e c := by
  cases c with
  | before u i =>
    have hframes := hs.framesAt_eq h.1.lt_size
    simpa only [Turn.Tells, Turn.Left, hframes] using h
  | after u i =>
    have hframes := hs.framesAt_eq h.1.lt_size
    simpa only [Turn.Tells, Turn.Left, hframes] using h
  | along k =>
    obtain ⟨edge, child, hedge, hchild, hnode, hlast, htold⟩ := h
    have hsource := StateSpace.lt_size_of_mem_framesAt (List.mem_of_getLast? hlast)
    refine ⟨edge, child, ?_, ?_, hnode, ?_, htold⟩
    · rw [hs.edge k (Array.getElem?_eq_some_iff.mp hedge).1, hedge]
    · rw [hs.node _ (Array.getElem?_eq_some_iff.mp hchild).1, hchild]
    · rw [hs.framesAt_eq hsource, hlast]

/-- What has been told stays true after one more frame in a leaf, which has the stack that was told
after the frame before it. -/
theorem Turn.Tells.addFrame (h : t.Tells s e c) (hu : u < s.nodes.size)
    (hleaf : ∀ edge ∈ s.edges, edge.source ≠ u) {f : Frame}
    (hstack : ∀ i, c = .after u i → i + 1 = (s.framesAt u).length → e.state.stack = f.stack) :
    t.Tells (s.addFrame u f) e c := by
  have hleft {v i : Nat} (hleft : t.Left s v i) : t.Left (s.addFrame u f) v i := by
    refine ⟨hleft.1, ?_⟩
    rw [StateSpace.framesAt_addFrame hu]
    split
    · next hv =>
      rw [← hv, List.getElem?_append_left (List.getElem?_eq_some_iff.mp hleft.2).1, hleft.2]
    · exact hleft.2
  cases c with
  | before v i =>
    obtain ⟨hplace, hphase, hins, hpath, hprevious⟩ := h
    refine ⟨hleft hplace, hphase, hins, hpath, ?_⟩
    have hlt := (List.getElem?_eq_some_iff.mp hplace.2).1
    rw [hprevious, StateSpace.framesAt_addFrame hu]
    split
    · next hv => rw [← hv, List.take_append_of_le_length (Nat.le_of_lt hlt)]
    · rfl
  | after v i =>
    obtain ⟨hplace, hphase, hprevious, hins, hafter, hnext⟩ := h
    refine ⟨hleft hplace, hphase, hprevious, hins, hafter, fun g hg => ?_⟩
    have hlt := (List.getElem?_eq_some_iff.mp hplace.2).1
    rw [StateSpace.framesAt_addFrame hu] at hg
    split at hg
    · next hv =>
      subst hv
      by_cases hlast : i + 1 = (s.framesAt v).length
      · rw [hlast, List.getElem?_concat_length] at hg
        rw [← Option.some.inj hg]
        exact hstack i rfl hlast
      · rw [List.getElem?_append_left (by omega)] at hg
        exact hnext g hg
    · exact hnext g hg
  | along k =>
    obtain ⟨edge, child, hedge, hchild, hnode, hlast, htold⟩ := h
    have hne := hleaf edge (Array.mem_of_getElem? hedge)
    refine ⟨edge, if edge.target = u then { child with frames := child.frames.push f } else child,
      hedge, ?_, hnode, ?_, ?_⟩
    · rw [StateSpace.getElem?_nodes_addFrame, hchild, Option.map_some]
    · rw [StateSpace.framesAt_addFrame hu, if_neg hne, hlast]
    · split <;> exact htold

end

/-! ### Deliveries -/

/-- Events with what they are told for: each cause of a state space once, the frames in the order of
the turns that left them, and what comes after an instruction right after what came before it. -/
structure Delivered (s : StateSpace) (turns : List Turn) (reports : List (Cause × Event)) :
    Prop where
  told : ∀ c e, (c, e) ∈ reports → ∃ t ∈ turns, t.Tells s e c
  once : (reports.map Prod.fst).Nodup
  all : ∀ c, c ∈ reports.map Prod.fst ↔ s.Causes c
  order : (reports.map Prod.fst).filterMap Cause.place? = turns.map Turn.place
  follows : ∀ u i, s.Causes (.after u i) →
    [.before u i, .after u i] <:+: reports.map Prod.fst

/-- How a path waits in a state space: it knows the last frame of its node, and has the stack that
was told after that frame. -/
structure Path.Waits (p : Path) (s : StateSpace) (reports : List (Cause × Event)) : Prop where
  last : p.lastFrame = (s.framesAt p.node).getLast?
  stack : ∀ i e, (.after p.node i, e) ∈ reports → i + 1 = (s.framesAt p.node).length →
    e.state.stack = p.stack

namespace Delivered

variable {s s' : StateSpace} {turns : List Turn} {reports : List (Cause × Event)}

theorem empty : Delivered {} [] [] where
  told _ _ h := absurd h List.not_mem_nil
  once := List.nodup_nil
  all c := by cases c <;> simp [StateSpace.Causes, StateSpace.framesAt]
  order := rfl
  follows u i h := by simp [StateSpace.Causes, StateSpace.framesAt] at h

/-- More is delivered when new causes are told of, as long as what was told before stays true. -/
theorem extend (h : Delivered s turns reports) (added : List Turn) (more : List (Cause × Event))
    (hold : ∀ (t : Turn) c e, (c, e) ∈ reports → t.Tells s e c → t.Tells s' e c)
    (hnew : ∀ c e, (c, e) ∈ more → ∃ t ∈ turns ++ added, t.Tells s' e c)
    (honce : (more.map Prod.fst).Nodup) (hfresh : ∀ c ∈ more.map Prod.fst, ¬s.Causes c)
    (hall : ∀ c, s'.Causes c ↔ s.Causes c ∨ c ∈ more.map Prod.fst)
    (horder : (more.map Prod.fst).filterMap Cause.place? = added.map Turn.place)
    (hfollows : ∀ u i, .after u i ∈ more.map Prod.fst →
      [.before u i, .after u i] <:+: more.map Prod.fst) :
    Delivered s' (turns ++ added) (reports ++ more) where
  told c e hmem := by
    rcases List.mem_append.mp hmem with hmem | hmem
    · obtain ⟨t, ht, htells⟩ := h.told c e hmem
      exact ⟨t, List.mem_append_left _ ht, hold t c e hmem htells⟩
    · exact hnew c e hmem
  once := by
    rw [List.map_append]
    refine List.nodup_append.mpr ⟨h.once, honce, fun c hc c' hc' heq => ?_⟩
    exact hfresh c' hc' (heq ▸ (h.all c).mp hc)
  all c := by rw [List.map_append, List.mem_append, h.all, hall]
  order := by rw [List.map_append, List.filterMap_append, h.order, horder, List.map_append]
  follows u i hcause := by
    rw [List.map_append]
    rcases (hall _).mp hcause with hcause | hcause
    · exact (h.follows u i hcause).trans (List.infix_append' [] _ _)
    · exact (hfollows u i hcause).trans (List.suffix_append _ _).isInfix

/-- Nothing has to be told when there are no new causes. -/
theorem continues (h : Delivered s turns reports) (hs : s.Continues s')
    (hall : ∀ c, s'.Causes c ↔ s.Causes c) : Delivered s' turns reports := by
  have hextend := h.extend [] [] (fun t c e _ htells => htells.continues hs)
    (fun _ _ hmem => absurd hmem List.not_mem_nil) List.nodup_nil
    (fun _ hmem => absurd hmem List.not_mem_nil) (fun c => by simp [hall]) rfl
    fun _ _ hmem => absurd hmem List.not_mem_nil
  rwa [List.append_nil, List.append_nil] at hextend

theorem cutShort (h : Delivered s turns reports) :
    Delivered { s with complete := false } turns reports :=
  h.continues ⟨fun _ _ => rfl, fun _ _ => rfl⟩ fun c => by cases c <;> exact Iff.rfl

theorem addNode (h : Delivered s turns reports) (name : String) (start : Nat)
    (constraints : List Constraint) :
    Delivered (s.addNode name start constraints) turns reports :=
  h.continues (.addNode ..) fun c => by
    cases c with
    | along => exact Iff.rfl
    | before u i | after u i => simp only [StateSpace.Causes, StateSpace.framesAt_addNode]

end Delivered

theorem Path.Waits.mono {p : Path} {s s' : StateSpace} {reports more : List (Cause × Event)}
    (h : p.Waits s reports) (hframes : s'.framesAt p.node = s.framesAt p.node)
    (hmore : ∀ i, .after p.node i ∉ more.map Prod.fst) : p.Waits s' (reports ++ more) where
  last := by rw [h.last, hframes]
  stack i e hmem hlast := by
    rw [hframes] at hlast
    rcases List.mem_append.mp hmem with hmem | hmem
    · exact h.stack i e hmem hlast
    · exact absurd (List.mem_map_of_mem hmem) (hmore i)

/-- A path waits at the start of a node. -/
theorem Path.waits_of_nil {p : Path} {s : StateSpace} {reports : List (Cause × Event)}
    (hlast : p.lastFrame = none) (hframes : s.framesAt p.node = []) : p.Waits s reports where
  last := by rw [hlast, hframes, List.getLast?_nil]
  stack i e _ hi := by
    rw [hframes] at hi
    exact absurd hi (Nat.succ_ne_zero i)

/-! ### Turns -/

theorem Steps.eq_of_next {program : Program} {limits : Limits} {frame : Frame} {e : Effect}
    {s s' : StateSpace} {qs : List Path} {supply : Supply} {returned : Option Bytes}
    (h : Steps program limits frame e s s' qs supply returned) (hflow : e.flow = .next) :
    s' = s ∧ qs = [{ e.path with
      pc := frame.instruction.nextAddress, lastFrame := some frame }] := by
  cases h with
  | next => exact ⟨rfl, rfl⟩
  | halt flow | jump flow | jumpLost flow | knownFalse flow | knownTrue flow | knownLost flow
  | fork flow | forkLost flow => cases hflow.symm.trans flow

namespace Turn

variable {t : Turn} {turns : List Turn} {reports : List (Cause × Event)} {root first : Nat}
  {way : Nat → List Frame} {ps : List Path}

/-- The state space with the frame of the turn. -/
def recorded (t : Turn) : StateSpace := t.space.addFrame t.path.node t.frame

theorem steps (t : Turn) : Steps t.program t.limits t.frame t.effect t.recorded t.step.space
    t.step.paths t.step.supply t.step.returned :=
  steps_stepAt ..

theorem node_effect (t : Turn) : t.effect.path.node = t.path.node := by
  obtain ⟨_, _, _, hpath⟩ := path_execute t.program t.instruction t.path t.supply
  rw [effect, hpath]

theorem framesAt_recorded (hlt : t.path.node < t.space.nodes.size) :
    t.recorded.framesAt t.path.node = t.space.framesAt t.path.node ++ [t.frame] := by
  rw [recorded, StateSpace.framesAt_addFrame hlt, if_pos rfl]

theorem left_recorded (hlt : t.path.node < t.space.nodes.size) :
    t.Left t.recorded t.path.node (t.space.framesAt t.path.node).length :=
  ⟨rfl, by rw [framesAt_recorded hlt, List.getElem?_concat_length]⟩

/-- What is told before the instruction. -/
theorem tells_before (hlt : t.path.node < t.space.nodes.size)
    (hlast : t.path.lastFrame = (t.space.framesAt t.path.node).getLast?) :
    t.Tells t.recorded t.before (.before t.path.node (t.space.framesAt t.path.node).length) :=
  ⟨left_recorded hlt, rfl, rfl, rfl, by
    rw [framesAt_recorded hlt, List.take_left, ← hlast]
    rfl⟩

end Turn

namespace Delivered

variable {t : Turn} {turns : List Turn} {reports : List (Cause × Event)} {root first : Nat}
  {way : Nat → List Frame} {ps : List Path}

/-- The frame of a turn is told of before its instruction, and after it if that falls through. -/
theorem records (h : Delivered t.space turns reports)
    (hsurvey : Survey root first t.space way (t.path :: ps))
    (hwaits : t.path.Waits t.space reports) {after : List (Cause × Event)}
    (hcauses : after.map Prod.fst = if t.instruction.opcode.fallsThrough then
      [.after t.path.node (t.space.framesAt t.path.node).length] else [])
    (hafter : ∀ c e, (c, e) ∈ after → t.Tells t.recorded e c) :
    Delivered t.recorded (turns ++ [t]) (reports ++
      (.before t.path.node (t.space.framesAt t.path.node).length, t.before) :: after) := by
  have hlt := hsurvey.node_lt List.mem_cons_self
  have ht : t ∈ turns ++ [t] := List.mem_append_right _ (List.mem_singleton_self t)
  refine h.extend [t] _ (fun t' c e hmem htells => ?_) (fun c e hmem => ?_) ?_ ?_ (fun c => ?_) ?_
    ?_
  · exact htells.addFrame hlt (hsurvey.leaf _ List.mem_cons_self) fun j hj hlast =>
      hwaits.stack j e (hj ▸ hmem) hlast
  · rcases List.mem_cons.mp hmem with heq | hmem
    · obtain ⟨rfl, rfl⟩ := Prod.mk.inj heq
      exact ⟨t, ht, Turn.tells_before hlt hwaits.last⟩
    · exact ⟨t, ht, hafter c e hmem⟩
  all_goals rw [List.map_cons, hcauses]
  · split <;> simp
  · intro c hc hcause
    rcases List.mem_cons.mp hc with rfl | hc
    · exact Nat.lt_irrefl _ hcause
    · split at hc
      · exact StateSpace.not_causes_after _ _ (List.mem_singleton.mp hc ▸ hcause)
      · exact absurd hc List.not_mem_nil
  · rw [Turn.recorded, StateSpace.causes_addFrame hlt]
    split
    · next hfalls => simp [Turn.frame, hfalls]
    · next hfalls => simp [Turn.frame, hfalls]
  · split <;> rfl
  · intro u i hmem
    by_cases hfalls : t.instruction.opcode.fallsThrough = true
    · rw [if_pos hfalls] at hmem ⊢
      rcases List.mem_pair.mp hmem with heq | heq
      · cases heq
      · cases heq
        exact List.infix_refl _
    · rw [if_neg hfalls] at hmem
      cases List.mem_singleton.mp hmem

/-- A turn whose instruction falls through tells of its frame, before and after the instruction. -/
theorem falls (h : Delivered t.space turns reports)
    (hsurvey : Survey root first t.space way (t.path :: ps))
    (hfits : t.instruction.opcode.pops ≤ t.path.stack.length)
    (hwaits : ∀ q ∈ t.path :: ps, q.Waits t.space reports)
    (hfalls : t.instruction.opcode.fallsThrough = true) :
    ∃ more, more.map Prod.snd = t.events ∧ Delivered t.step.space (turns ++ [t]) (reports ++ more) ∧
      ∀ q ∈ t.step.paths ++ ps, q.Waits t.step.space (reports ++ more) := by
  have hlt := hsurvey.node_lt List.mem_cons_self
  obtain ⟨hspace, hpaths⟩ := t.steps.eq_of_next (flow_eq_next hfits hfalls)
  rw [Turn.events, hspace, hpaths]
  let u := t.path.node
  let i := (t.space.framesAt u).length
  let q : Path := { t.effect.path with pc := t.instruction.nextAddress, lastFrame := some t.frame }
  have hafter : t.Tells t.recorded (t.after q) (.after u i) := by
    refine ⟨Turn.left_recorded hlt, rfl, rfl, rfl, rfl, fun f hf => ?_⟩
    rw [Turn.framesAt_recorded hlt, List.getElem?_eq_none (by simp [i, u])] at hf
    cases hf
  refine ⟨[(.before u i, t.before), (.after u i, t.after q)], rfl,
    h.records hsurvey (hwaits _ List.mem_cons_self) (if_pos hfalls).symm fun c e hmem => ?_,
    fun r hr => ?_⟩
  · obtain ⟨rfl, rfl⟩ := Prod.mk.inj (List.mem_singleton.mp hmem)
    exact hafter
  · rcases List.mem_cons.mp hr with rfl | hr
    · have hnode : q.node = u := t.node_effect
      refine ⟨?_, fun j e hmem hlast => ?_⟩
      · rw [hnode, Turn.framesAt_recorded hlt, List.getLast?_concat]
      · -- what is told after the frame of this turn is told now
        rw [hnode, Turn.framesAt_recorded hlt, List.length_append, List.length_singleton] at hlast
        obtain rfl : j = i := Nat.succ.inj hlast
        rw [hnode] at hmem
        rcases List.mem_append.mp hmem with hmem | hmem
        · exact absurd ((h.all _).mp (List.mem_map_of_mem hmem)) (StateSpace.not_causes_after _ _)
        · rcases List.mem_pair.mp hmem with heq | heq
          · cases heq
          · obtain ⟨-, rfl⟩ := Prod.mk.inj heq
            rfl
    · have hne := hsurvey.node_ne r hr
      refine (hwaits r (List.mem_cons_of_mem _ hr)).mono ?_ fun j hmem => ?_
      · rw [Turn.recorded, StateSpace.framesAt_addFrame hlt, if_neg hne]
      · rcases List.mem_pair.mp hmem with heq | heq
        · cases heq
        · exact hne (Cause.after.inj heq).1

/-- A path that sets out from the frame of a turn and enters a node is told of. -/
theorem enters {s : StateSpace} (h : Delivered s (turns ++ [t]) reports) {q : Path} (target : Nat)
    (kind : EdgeKind) (hnode : q.node = t.path.node)
    (hlast : (s.framesAt t.path.node).getLast? = some t.frame) :
    Delivered (s.addChild q target kind) (turns ++ [t]) (reports ++
      [(.along s.edges.size,
        t.after (q.moved t.frame.instruction.address target s.nodes.size))]) := by
  rw [← List.append_nil (turns ++ [t])]
  refine h.extend [] _ (fun t c e _ htells => htells.continues (.addChild ..)) (fun c e hmem => ?_)
    (List.nodup_singleton _) (fun c hc hcause => ?_) (fun c => ?_) rfl fun u i hmem => ?_
  · obtain ⟨rfl, rfl⟩ := Prod.mk.inj (List.mem_singleton.mp hmem)
    refine ⟨t, List.mem_append_left _ (List.mem_append_right _ (List.mem_singleton_self t)),
      ⟨q.node, s.nodes.size, kind⟩, ⟨s.nodes.size, q.functionName, target, #[], q.constraints⟩,
      ?_, ?_, hnode.symm, ?_, rfl, rfl, rfl, rfl, rfl⟩
    · simp [StateSpace.addChild, StateSpace.addEdge, StateSpace.addNode]
    · rw [StateSpace.getElem?_nodes_addChild, if_pos rfl]
    · rw [StateSpace.framesAt_addChild, hnode, hlast]
  · rw [List.map_singleton, List.mem_singleton] at hc
    subst hc
    exact Nat.lt_irrefl _ hcause
  · rw [StateSpace.causes_addChild, List.map_singleton, List.mem_singleton]
  · cases List.mem_singleton.mp hmem

/-- A turn whose instruction does not fall through tells of its frame and of each edge that is
followed from there. -/
theorem leaves (h : Delivered t.space turns reports)
    (hsurvey : Survey root first t.space way (t.path :: ps))
    (hwaits : ∀ q ∈ t.path :: ps, q.Waits t.space reports)
    (hfalls : ¬t.instruction.opcode.fallsThrough = true) :
    ∃ more, more.map Prod.snd = t.events ∧ Delivered t.step.space (turns ++ [t]) (reports ++ more) ∧
      ∀ q ∈ t.step.paths ++ ps, q.Waits t.step.space (reports ++ more) := by
  have hlt := hsurvey.node_lt List.mem_cons_self
  let before : Cause × Event :=
    (.before t.path.node (t.space.framesAt t.path.node).length, t.before)
  -- along each edge one more event is told, and the path waits in a node without frames
  obtain ⟨along, hevents, hdelivered, hcontinues, hnew, hedges⟩ := t.steps.rule
    (Q := fun s qs => ∃ along : List (Cause × Event),
      along.map Prod.snd = qs.reverse.map t.after ∧
      Delivered s (turns ++ [t]) (reports ++ [before] ++ along) ∧ t.recorded.Continues s ∧
      (∀ q ∈ qs, q.lastFrame = none ∧ s.framesAt q.node = []) ∧
      ∀ u i, .after u i ∉ along.map Prod.fst)
    ⟨[], rfl, by
      rw [List.append_nil]
      exact h.records hsurvey (hwaits _ List.mem_cons_self) (if_neg hfalls).symm
        fun _ _ hmem => absurd hmem List.not_mem_nil, .refl _,
      fun q hq => absurd hq List.not_mem_nil, fun _ _ => List.not_mem_nil⟩
    (fun hflow => absurd (fallsThrough_of_flow hflow) hfalls) (by
      rintro q target kind s₁ s₂ qs rs hout henters ⟨along, hevents, hdelivered, hs₁, hnew, hedges⟩
      cases henters with
      | pruned =>
        exact ⟨along, hevents, hdelivered.cutShort, hs₁.trans ⟨fun _ _ => rfl, fun _ _ => rfl⟩,
          hnew, hedges⟩
      | entered =>
        have hlast : (s₁.framesAt t.path.node).getLast? = some t.frame := by
          rw [hs₁.framesAt_eq (by rwa [Turn.recorded, StateSpace.size_nodes_addFrame]),
            Turn.framesAt_recorded hlt, List.getLast?_concat]
        refine ⟨along ++ [(.along s₁.edges.size,
          t.after (q.moved t.frame.instruction.address target s₁.nodes.size))], ?_, ?_,
          hs₁.trans (.addChild ..), fun r hr => ?_, fun u i hmem => ?_⟩
        · rw [List.map_append, hevents, List.singleton_append, List.reverse_cons, List.map_append]
          rfl
        · rw [← List.append_assoc]
          exact hdelivered.enters target kind hout.node_eq.1 hlast
        · rw [StateSpace.framesAt_addChild]
          rcases List.mem_cons.mp hr with rfl | hr
          · exact ⟨rfl, by simp [StateSpace.framesAt, Path.moved]⟩
          · exact hnew r hr
        · rw [List.map_append] at hmem
          rcases List.mem_append.mp hmem with hmem | hmem
          · exact hedges u i hmem
          · cases List.mem_singleton.mp hmem)
  refine ⟨before :: along, by rw [List.map_cons, hevents]; rfl, by
    rwa [List.append_assoc] at hdelivered, fun r hr => ?_⟩
  rcases List.mem_append.mp hr with hr | hr
  · exact Path.waits_of_nil (hnew r hr).1 (hnew r hr).2
  · have hr' := hsurvey.node_lt (List.mem_cons_of_mem _ hr)
    refine (hwaits r (List.mem_cons_of_mem _ hr)).mono ?_ fun i hmem => ?_
    · rw [hcontinues.framesAt_eq (by rwa [Turn.recorded, StateSpace.size_nodes_addFrame]),
        Turn.recorded, StateSpace.framesAt_addFrame hlt, if_neg (hsurvey.node_ne r hr)]
    · rw [List.map_cons] at hmem
      rcases List.mem_cons.mp hmem with heq | hmem
      · cases heq
      · exact hedges _ i hmem

/-- **A turn tells of what it adds to the state space**, and of nothing else. -/
theorem turn (h : Delivered t.space turns reports)
    (hsurvey : Survey root first t.space way (t.path :: ps))
    (hfits : fitsStack t.instruction.opcode t.path.stack = true)
    (hwaits : ∀ q ∈ t.path :: ps, q.Waits t.space reports) :
    ∃ more, more.map Prod.snd = t.events ∧ Delivered t.step.space (turns ++ [t]) (reports ++ more) ∧
      ∀ q ∈ t.step.paths ++ ps, q.Waits t.step.space (reports ++ more) := by
  by_cases hfalls : t.instruction.opcode.fallsThrough = true
  · exact h.falls hsurvey (pops_le_of_fitsStack hfits) hwaits hfalls
  · exact h.leaves hsurvey hwaits hfalls

/-- **A run tells of what it adds to the state space**, turn by turn. -/
theorem plays {program : Program} {limits : Limits} {g g' : Progress} {played : List Turn}
    (hplays : Progress.Plays program limits g played g') :
    ∀ {turns reports way}, Delivered g.space turns reports → Survey root first g.space way g.paths →
      (∀ q ∈ g.paths, q.Waits g.space reports) →
      ∃ more, more.map Prod.snd = played.flatMap Turn.events ∧
        Delivered g'.space (turns ++ played) (reports ++ more) := by
  induction hplays with
  | done =>
    intro turns reports way h _ _
    refine ⟨[], rfl, ?_⟩
    rwa [List.append_nil, List.append_nil]
  | late =>
    intro turns reports way h _ _
    refine ⟨[], rfl, ?_⟩
    rw [List.append_nil, List.append_nil]
    exact h.cutShort
  | ended paths _ _ ih | unfit paths _ _ _ ih =>
    intro turns reports way h hsurvey hwaits
    rw [paths] at hsurvey hwaits
    exact ih h hsurvey.tail fun q hq => hwaits q (List.mem_cons_of_mem _ hq)
  | @turn g g' p ps ins played paths at_ins fits _ ih =>
    intro turns reports way h hsurvey hwaits
    obtain ⟨way', hsurvey'⟩ :=
      Progress.survey_of_advance (Progress.advance_stepped paths at_ins fits) hsurvey
    rw [paths] at hsurvey hwaits
    obtain ⟨more, hevents, hdelivered, hwaits'⟩ :=
      Delivered.turn (t := ⟨program, limits, g.space, g.supply, p, ins⟩) h hsurvey fits hwaits
    obtain ⟨rest, hrest, hend⟩ := ih hdelivered hsurvey' hwaits'
    refine ⟨more ++ rest, ?_, ?_⟩
    · rw [List.map_append, hevents, hrest, List.flatMap_cons]
    · rwa [List.append_assoc, List.append_assoc, List.singleton_append] at hend

end Delivered

/-! ### Explorations -/

namespace Explorer

variable {σ : Type} {i : Nat} {record : σ → List Event}

/-- The turns of a transaction. -/
def Turns (x : Explorer) (observer : Observer σ) (o : Opening σ) (turns : List Turn) : Prop :=
  Progress.Plays (.ofCode o.code) x.limits (.begin o.entry o.space o.supply) turns
    (x.run observer o).progress

/-- A transaction tells of what it adds to the state space. -/
theorem run_delivers {x : Explorer} {observer : Observer σ} {o : Opening σ} {roots : List Nat}
    {entries : List String} (hx : (x.setting observer o.code).Records i record)
    (hplanted : o.space.Planted roots entries) {turns : List Turn} {reports : List (Cause × Event)}
    (h : Delivered o.space turns reports) :
    ∃ played more, x.Turns observer o played ∧
      record (x.run observer o).watch.1 = record o.watch.1 ++ more.map Prod.snd ∧
      Delivered (x.run observer o).progress.space (turns ++ played) (reports ++ more) := by
  obtain ⟨played, hplays, -, hrecord⟩ :=
    runPaths_records hx (.begin o.entry o.space o.supply) o.watch
  have hbegin : Progress.Reaches (.ofCode o.code) x.limits (.begin o.entry o.space o.supply)
      (.begin o.entry o.space o.supply) := .refl
  obtain ⟨-, way, hsurvey⟩ := Progress.continues_of_reaches hbegin hplanted
  obtain ⟨more, hevents, hdelivered⟩ := Delivered.plays hplays (h.addNode o.entry 0 []) hsurvey
    fun q hq => by
      obtain rfl := List.mem_singleton.mp hq
      refine Path.waits_of_nil rfl ?_
      rw [Progress.begin, StateSpace.framesAt_addNode]
      simp [StateSpace.framesAt, Path.start]
  exact ⟨played, more, hplays, by rw [hevents]; exact hrecord, hdelivered⟩

/-- A subscriber that was registered for all opcodes, however often, is the only one and is told
once. -/
theorem records_registered {observer : Observer σ} (hobserver : observer.Records i record)
    (limits : Limits) (clock : Progress → Nat) (havocs : Nat) {hooks : List Hook}
    (honly : ∀ hook ∈ hooks, hook.subscriber = i) (hevery : ∀ phase op, ⟨phase, op, i⟩ ∈ hooks)
    (code : Bytes) :
    ((hooks.foldl register { limits, clock, havocs }).setting observer code).Records i record := by
  refine ⟨hobserver, fun phase op => ?_⟩
  let x := (hooks.foldl register { limits, clock, havocs }).setting observer code
  have hnodup : (x.subscribers phase op).Nodup :=
    Setting.nodup_subscribers (nodup_hooks_registered hooks _ List.nodup_nil) phase op
  have hmem (j : Nat) : j ∈ x.subscribers phase op ↔ j = i := by
    rw [Setting.mem_subscribers]
    refine (mem_hooks_registered hooks { limits, clock, havocs }).trans ⟨?_, ?_⟩
    · rintro (hmem | hmem)
      · exact absurd hmem List.not_mem_nil
      · exact honly _ hmem
    · rintro rfl
      exact .inr (hevery phase op)
  exact List.perm_singleton.mp ((List.perm_ext_iff_of_nodup hnodup (List.nodup_singleton i)).mpr
    fun j => by rw [hmem, List.mem_singleton])

/-- **Events are delivered exactly.** An exploration before one subscriber that is registered for
both phases of all opcodes, however often, and that notes down what it is told, returns a state space,
at the latest when its time is over. What was noted down are the causes of that state space, each told
of once, in the order of the turns of the transactions. -/
theorem explore_delivers {observer : Observer σ} (hobserver : observer.Records i record)
    (limits : Limits) (clock : Progress → Nat) (havocs : Nat) (hooks : List Hook)
    (honly : ∀ hook ∈ hooks, hook.subscriber = i) (hevery : ∀ phase op, ⟨phase, op, i⟩ ∈ hooks)
    (target : Target) (watch : σ × Ledger) :
    let x := hooks.foldl register { limits, clock, havocs }
    ∃ space turns reports, (x.explore observer target watch).result = .ok space ∧
      List.Forall₂ (x.Turns observer) (x.openings observer target watch) turns ∧
      record (x.explore observer target watch).watch.1 =
        record watch.1 ++ reports.map Prod.snd ∧
      Delivered space turns.flatten reports := by
  intro x
  have hx (code : Bytes) : (x.setting observer code).Records i record :=
    records_registered hobserver limits clock havocs honly hevery code
  have hend := x.openings_rule observer target watch
    (I := fun os space state => ∃ turns reports, List.Forall₂ (x.Turns observer) os turns ∧
      record state = record watch.1 ++ reports.map Prod.snd ∧
      Delivered space turns.flatten reports)
    ⟨[], [], .nil, (List.append_nil _).symm, .empty⟩
    fun os o roots entries hplanted ⟨turns, reports, hturns, hrecord, hdelivered⟩ => by
      obtain ⟨played, more, hplayed, hmore, hdelivered'⟩ :=
        run_delivers (hx o.code) hplanted hdelivered
      refine ⟨turns ++ [played], reports ++ more, ?_, ?_, ?_⟩
      · exact List.rel_append hturns (.cons hplayed .nil)
      · rw [hmore, hrecord, List.map_append, List.append_assoc]
      · rwa [List.flatten_append, List.flatten_singleton]
  obtain ⟨turns, reports, hturns, hrecord, hdelivered⟩ := hend
  let o := x.closing observer target watch
  have hfailure : (x.run observer o).failure = none :=
    (runPaths_records (hx o.code) (.begin o.entry o.space o.supply) o.watch).choose_spec.2.1
  refine ⟨_, turns, reports, ?_, hturns, hrecord, hdelivered⟩
  rw [(x.explore_eq_closing observer target watch).1, finish]
  simp only [o] at hfailure
  rw [hfailure]

end Explorer

/-- Notes down all events. -/
def recordingObserver : Observer (List Event) where
  notify _ e := modify fun (events, ledger) => (events ++ [e], ledger)

/-- A hook for each phase of each opcode. -/
def everyHook : List Hook :=
  (List.range 256).flatMap fun n =>
    [⟨.pre, ⟨UInt8.ofNat n⟩, 0⟩, ⟨.post, ⟨UInt8.ofNat n⟩, 0⟩]

/-- The two branches of a code are told of, once each, also if all hooks are registered twice. -/
theorem Explorer.explore_delivers_registered_twice :
    recordingObserver.Records 0 id ∧ (∀ hook ∈ everyHook ++ everyHook, hook.subscriber = 0) ∧
      (∀ phase op, ⟨phase, op, 0⟩ ∈ everyHook ++ everyHook) ∧
      let x := (everyHook ++ everyHook).foldl register { limits := ⟨60, 10, 3⟩, havocs := 0 }
      let target := .deployed ⟨0⟩ keepingCode
      ∃ space turns reports, (x.explore recordingObserver target ([], {})).result = .ok space ∧
        List.Forall₂ (x.Turns recordingObserver) (x.openings recordingObserver target ([], {}))
          turns ∧
        (x.explore recordingObserver target ([], {})).watch.1 = reports.map Prod.snd ∧
        Delivered space turns.flatten reports ∧
        (reports.map Prod.fst).count (.along 0) = 1 ∧
        (reports.map Prod.fst).count (.along 1) = 1 := by
  have hrecords : recordingObserver.Records 0 id := fun e watch => ⟨_, rfl, rfl⟩
  have honly : ∀ hook ∈ everyHook ++ everyHook, hook.subscriber = 0 := by
    intro hook hmem
    obtain ⟨n, -, hhook⟩ := List.mem_flatMap.mp ((List.mem_append.mp hmem).elim id id)
    rcases List.mem_pair.mp hhook with rfl | rfl <;> rfl
  have hevery : ∀ phase op, ⟨phase, op, 0⟩ ∈ everyHook ++ everyHook := by
    intro phase op
    refine Opcode.forall_of_bytes (P := fun op => ⟨phase, op, 0⟩ ∈ everyHook ++ everyHook)
      (fun n hn => List.mem_append_left _ (List.mem_flatMap.mpr ⟨n, List.mem_range.mpr hn, ?_⟩)) op
    cases phase <;> simp
  refine ⟨hrecords, honly, hevery, ?_⟩
  -- from here on the hooks are only known by these two facts, and never computed
  obtain ⟨hooks, hhooks⟩ : ∃ hooks, hooks = everyHook ++ everyHook := ⟨_, rfl⟩
  rw [← hhooks] at honly hevery ⊢
  intro x target
  obtain ⟨space, turns, reports, hspace, hturns, hrecord, hdelivered⟩ :=
    explore_delivers hrecords ⟨60, 10, 3⟩ (fun _ => 0) 0 hooks honly hevery target ([], {})
  rw [id_eq, id_eq, List.nil_append] at hrecord
  -- the edges are those of a run with few hooks, which is soon computed
  have hnever : wipingObserver.NeverFails := fun _ _ _ => ⟨_, rfl⟩
  have hnever' : recordingObserver.NeverFails := fun _ _ _ => ⟨_, rfl⟩
  have hfew : (runPaths (wipingExplorer.setting wipingObserver keepingCode)
      (.begin fallbackName {} {}) ((), {})).progress.space.edges.size = 2 := by decide +kernel
  have hlimits : x.limits = ⟨60, 10, 3⟩ := limits_foldl_register ..
  have hlate (g : Progress) : (x.setting recordingObserver keepingCode).late g =
      (wipingExplorer.setting wipingObserver keepingCode).late g := by
    have hclock : x.clock = fun _ => 0 := clock_foldl_register ..
    simp only [Setting.late, Explorer.setting, hlimits, hclock]
    rfl
  have hhavocs : x.havocs = 0 := havocs_foldl_register ..
  have hrun : x.run recordingObserver (x.closing recordingObserver target ([], {})) =
      runPaths (x.setting recordingObserver keepingCode)
        (.begin fallbackName {} { havocs := x.havocs }) ([], {}) := rfl
  rw [hhavocs] at hrun
  have hedges : space.edges.size = 2 := by
    rw [← eq_of_explore hspace, hrun, progress_runPaths
      (hnever.reliable wipingExplorer keepingCode) (hnever'.reliable x keepingCode) rfl hlimits
      hlate _ ((), {}) ([], {}) trivial trivial, hfew]
  have hlt (k : Nat) (hk : k < 2) : Cause.along k ∈ reports.map Prod.fst :=
    (hdelivered.all _).mpr (Nat.lt_of_lt_of_eq hk hedges.symm)
  exact ⟨space, turns, reports, hspace, hturns, hrecord, hdelivered,
    List.count_eq_one_of_mem hdelivered.once (hlt 0 (by decide)),
    List.count_eq_one_of_mem hdelivered.once (hlt 1 (by decide))⟩

end GuardFinder

import GuardFinder.Proofs.Forks

/-!
# Trees of nodes

The nodes of a transaction form a tree. Each node but the root was added together with the edge that
leads to it, so there is one chain of edges from the root to each node, and the frames along the
chain are what a path executed up to the end of the node. Paths that still run are in leaves of the
tree, no two of them in the same leaf: what one of them does changes nothing on the chains of the
others.

* `StateSpace.Chain`, `StateSpace.framesAlong`: chains of edges and the frames along them.
* `StateSpace.GrownFrom`: the numbers of nodes and edges, from which
  `StateSpace.GrownFrom.existsUnique_chain` finds one chain for each node.
* `Survey`: a tree, the frames on the way to each node, and the paths in its leaves.
* `Survey.steps`: **a step extends the way of its path and of no other**.
-/

namespace GuardFinder

/-! ### Chains -/

namespace StateSpace

/-- The frames of a node. -/
def framesAt (s : StateSpace) (u : Nat) : List Frame :=
  (s.nodes[u]?.map (·.frames.toList)).getD []

/-- A chain of edges from a root to a node. -/
inductive Chain (s : StateSpace) (root : Nat) : Nat → List Edge → Prop
  | nil : Chain s root root []
  | snoc {es : List Edge} {e : Edge} (chain : Chain s root e.source es) (mem : e ∈ s.edges) :
      Chain s root e.target (es ++ [e])

theorem Chain.eq_or_exists {s : StateSpace} {root u : Nat} {es : List Edge}
    (h : s.Chain root u es) :
    u = root ∧ es = [] ∨ ∃ es' e, es = es' ++ [e] ∧ e ∈ s.edges ∧ e.target = u ∧
      s.Chain root e.source es' := by
  cases h with
  | nil => exact .inl ⟨rfl, rfl⟩
  | snoc chain mem => exact .inr ⟨_, _, rfl, mem, rfl, chain⟩

/-- The frames of a root and of the nodes along a chain of edges from it. -/
def framesAlong (s : StateSpace) (root : Nat) (es : List Edge) : List Frame :=
  s.framesAt root ++ es.flatMap fun e => s.framesAt e.target

theorem framesAlong_append_singleton (s : StateSpace) (root : Nat) (es : List Edge) (e : Edge) :
    s.framesAlong root (es ++ [e]) = s.framesAlong root es ++ s.framesAt e.target := by
  simp [framesAlong]

theorem framesAt_addFrame {s : StateSpace} {u : Nat} (hu : u < s.nodes.size) (f : Frame) (v : Nat) :
    (s.addFrame u f).framesAt v = if v = u then s.framesAt u ++ [f] else s.framesAt v := by
  unfold framesAt
  rw [getElem?_nodes_addFrame]
  by_cases hv : v = u
  · subst hv
    simp [hu]
  · simp [hv]

theorem framesAt_addNode (s : StateSpace) (name : String) (start : Nat)
    (constraints : List Constraint) (v : Nat) :
    (s.addNode name start constraints).framesAt v = s.framesAt v := by
  unfold framesAt
  simp only [addNode, Array.getElem?_push]
  split
  · next hv => simp [hv]
  · rfl

theorem framesAt_addChild (s : StateSpace) (p : Path) (target : Nat) (kind : EdgeKind) (v : Nat) :
    (s.addChild p target kind).framesAt v = s.framesAt v :=
  s.framesAt_addNode ..

/-! ### Trees -/

/-- What a transaction made of a state space that had `root` nodes and `first` edges: its own root
is the next node, and each further node came with an edge to it. -/
structure GrownFrom (s : StateSpace) (root first : Nat) : Prop where
  first_le : first ≤ s.edges.size
  size : s.nodes.size + first = root + 1 + s.edges.size
  uid : ∀ ⦃u : Nat⦄ ⦃n : Node⦄, s.nodes[u]? = some n → n.uid = u
  before : ∀ ⦃i e⦄, i < first → s.edges[i]? = some e → e.source < e.target ∧ e.target < root
  since : ∀ ⦃i e⦄, first ≤ i → s.edges[i]? = some e →
    root ≤ e.source ∧ e.source < e.target ∧ e.target + first = root + 1 + i

namespace GrownFrom

variable {s : StateSpace} {root first : Nat} {e e' : Edge}

theorem source_lt (h : s.GrownFrom root first) (he : e ∈ s.edges) : e.source < e.target := by
  obtain ⟨i, hi⟩ := Array.mem_iff_getElem?.mp he
  by_cases hfirst : i < first
  · exact (h.before hfirst hi).1
  · exact (h.since (Nat.le_of_not_lt hfirst) hi).2.1

theorem target_lt (h : s.GrownFrom root first) (he : e ∈ s.edges) : e.target < s.nodes.size := by
  obtain ⟨i, hi⟩ := Array.mem_iff_getElem?.mp he
  have hsize := h.size
  have hle := h.first_le
  have hlt : i < s.edges.size := (Array.getElem?_eq_some_iff.mp hi).1
  by_cases hfirst : i < first
  · have := (h.before hfirst hi).2
    omega
  · have := (h.since (Nat.le_of_not_lt hfirst) hi).2.2
    omega

/-- An edge to a node of the transaction comes from one. -/
theorem root_le_source (h : s.GrownFrom root first) (he : e ∈ s.edges) (hroot : root ≤ e.target) :
    root ≤ e.source := by
  obtain ⟨i, hi⟩ := Array.mem_iff_getElem?.mp he
  refine (h.since (Nat.le_of_not_lt fun hlt => ?_) hi).1
  have := (h.before hlt hi).2
  omega

/-- No two edges lead to one node of the transaction. -/
theorem eq_of_target_eq (h : s.GrownFrom root first) (he : e ∈ s.edges) (he' : e' ∈ s.edges)
    (hroot : root ≤ e.source) (htarget : e.target = e'.target) : e = e' := by
  obtain ⟨i, hi⟩ := Array.mem_iff_getElem?.mp he
  obtain ⟨j, hj⟩ := Array.mem_iff_getElem?.mp he'
  have hlt := h.source_lt he
  have hfirst : first ≤ i := Nat.le_of_not_lt fun hlt' => by
    have := h.before hlt' hi
    omega
  have hfirst' : first ≤ j := Nat.le_of_not_lt fun hlt' => by
    have := h.before hlt' hj
    omega
  have hij : i = j := by
    have := (h.since hfirst hi).2.2
    have := (h.since hfirst' hj).2.2
    omega
  rw [hij, hj] at hi
  exact (Option.some.inj hi).symm

theorem root_le_of_chain (h : s.GrownFrom root first) {u : Nat} {es : List Edge}
    (hchain : s.Chain root u es) : root ≤ u := by
  induction hchain with
  | nil => exact Nat.le_refl _
  | snoc _ mem ih => exact Nat.le_trans ih (Nat.le_of_lt (h.source_lt mem))

theorem exists_chain (h : s.GrownFrom root first) : ∀ u, root ≤ u → u < s.nodes.size →
    ∃ es, s.Chain root u es := by
  intro u
  induction u using Nat.strongRecOn with
  | ind u ih =>
    intro hroot hu
    by_cases heq : u = root
    · exact ⟨[], heq ▸ .nil⟩
    · -- the edge that came with the node
      have hsize := h.size
      have hlt : u + first - root - 1 < s.edges.size := by omega
      have he := Array.getElem?_eq_getElem hlt
      obtain ⟨hsource, hless, htarget⟩ := h.since (by omega) he
      have hu' : s.edges[u + first - root - 1].target = u := by omega
      obtain ⟨es, hes⟩ := ih _ (by omega) hsource (by omega)
      have hchain := Chain.snoc hes (Array.getElem_mem hlt)
      rw [hu'] at hchain
      exact ⟨_, hchain⟩

theorem chain_unique (h : s.GrownFrom root first) {u : Nat} {es : List Edge}
    (hchain : s.Chain root u es) : ∀ es', s.Chain root u es' → es' = es := by
  have hroot : ∀ e ∈ s.edges, root ≤ e.source → e.target ≠ root := by
    intro e he hle heq
    have := h.source_lt he
    omega
  induction hchain with
  | nil =>
    intro es' hchain'
    rcases hchain'.eq_or_exists with ⟨-, rfl⟩ | ⟨es', e, rfl, mem, htarget, chain⟩
    · rfl
    · exact absurd htarget (hroot e mem (h.root_le_of_chain chain))
  | @snoc es e chain mem ih =>
    intro es' hchain'
    rcases hchain'.eq_or_exists with ⟨htarget, -⟩ | ⟨es', e', rfl, mem', htarget, chain'⟩
    · exact absurd htarget (hroot e mem (h.root_le_of_chain chain))
    · obtain rfl := h.eq_of_target_eq mem mem' (h.root_le_of_chain chain) htarget.symm
      rw [ih _ chain']

/-- **One chain leads from the root to each node** of the transaction. -/
theorem existsUnique_chain (h : s.GrownFrom root first) {u : Nat} (hroot : root ≤ u)
    (hu : u < s.nodes.size) : ∃ es, s.Chain root u es ∧ ∀ es', s.Chain root u es' → es' = es := by
  obtain ⟨es, hes⟩ := h.exists_chain u hroot hu
  exact ⟨es, hes, h.chain_unique hes⟩

/-! What steps do to trees. -/

theorem addFrame (h : s.GrownFrom root first) (u : Nat) (f : Frame) :
    (s.addFrame u f).GrownFrom root first := by
  refine ⟨h.first_le, by rw [size_nodes_addFrame]; exact h.size, fun v n hn => ?_, h.before,
    h.since⟩
  rw [getElem?_nodes_addFrame] at hn
  obtain ⟨n, hold, rfl⟩ := Option.map_eq_some_iff.mp hn
  have huid : n.uid = v := h.uid hold
  split <;> exact huid

theorem addChild (h : s.GrownFrom root first) {p : Path} (hroot : root ≤ p.node)
    (hp : p.node < s.nodes.size) (target : Nat) (kind : EdgeKind) :
    (s.addChild p target kind).GrownFrom root first := by
  have hsize := h.size
  have hle := h.first_le
  refine ⟨?_, ?_, fun v n hn => ?_, fun i e hi he => ?_, fun i e hi he => ?_⟩
  · simp only [StateSpace.addChild, addEdge, addNode, Array.size_push]
    omega
  · simp only [StateSpace.addChild, addEdge, addNode, Array.size_push]
    omega
  · rw [getElem?_nodes_addChild] at hn
    split at hn
    · next hv =>
      obtain rfl := Option.some.inj hn
      exact hv.symm
    · exact h.uid hn
  all_goals simp only [StateSpace.addChild, addEdge, addNode, Array.getElem?_push] at he
  · rw [if_neg (by omega)] at he
    exact h.before hi he
  · split at he
    · next heq =>
      obtain rfl := Option.some.inj he
      exact ⟨hroot, hp, by simp only; omega⟩
    · exact h.since hi he

end GrownFrom

end StateSpace

/-! ### Surveys -/

/-- A transaction in progress: the tree of its nodes, the frames on the way from the root to the end
of each node, and the paths that still run, each alone in a leaf. -/
structure Survey (root first : Nat) (s : StateSpace) (way : Nat → List Frame) (ps : List Path) :
    Prop where
  tree : s.GrownFrom root first
  way_root : way root = s.framesAt root
  way_edge : ∀ e ∈ s.edges, root ≤ e.source →
    way e.target = way e.source ++ s.framesAt e.target
  node : ∀ p ∈ ps, root ≤ p.node ∧ ∃ n, s.nodes[p.node]? = some n ∧
    n.functionName = p.functionName ∧ n.constraints = p.constraints
  leaf : ∀ p ∈ ps, ∀ e ∈ s.edges, e.source ≠ p.node
  nodup : (ps.map Path.node).Nodup

/-- The ways after one more frame at a node. -/
def Survey.record (way : Nat → List Frame) (u : Nat) (f : Frame) (v : Nat) : List Frame :=
  if v = u then way u ++ [f] else way v

/-- What steps do to a state space from a node `u` on: nodes and ways stay as they were, and the new
nodes are those of new paths, whose way is that to `u`. -/
structure Grafts (s : StateSpace) (way : Nat → List Frame) (u : Nat) (s' : StateSpace)
    (way' : Nat → List Frame) (qs : List Path) : Prop where
  size_le : s.nodes.size ≤ s'.nodes.size
  node_old : ∀ v < s.nodes.size, s'.nodes[v]? = s.nodes[v]?
  way_old : ∀ v < s.nodes.size, way' v = way v
  node_new : ∀ v < s'.nodes.size, s.nodes.size ≤ v → ∃ q ∈ qs, q.node = v
  way_new : ∀ q ∈ qs, way' q.node = way u
  complete : s'.complete = true → s.complete = true

namespace Grafts

variable {s s₁ s₂ : StateSpace} {way way₁ way₂ : Nat → List Frame} {u : Nat} {ps qs : List Path}

theorem refl (h : ∀ q ∈ qs, q.node = u) : Grafts s way u s way qs where
  size_le := Nat.le_refl _
  node_old _ _ := rfl
  way_old _ _ := rfl
  node_new _ hlt hle := absurd hlt (Nat.not_lt_of_le hle)
  way_new q hq := by rw [h q hq]
  complete := id

theorem trans (h₁ : Grafts s way u s₁ way₁ ps) (h₂ : Grafts s₁ way₁ u s₂ way₂ qs)
    (hu : u < s.nodes.size) (hps : ∀ p ∈ ps, p.node < s₁.nodes.size) :
    Grafts s way u s₂ way₂ (qs ++ ps) where
  size_le := Nat.le_trans h₁.size_le h₂.size_le
  node_old v hv := by
    rw [h₂.node_old v (Nat.lt_of_lt_of_le hv h₁.size_le), h₁.node_old v hv]
  way_old v hv := by
    rw [h₂.way_old v (Nat.lt_of_lt_of_le hv h₁.size_le), h₁.way_old v hv]
  node_new v hlt hle := by
    by_cases hv : v < s₁.nodes.size
    · obtain ⟨q, hq, hnode⟩ := h₁.node_new v hv hle
      exact ⟨q, List.mem_append_right _ hq, hnode⟩
    · obtain ⟨q, hq, hnode⟩ := h₂.node_new v hlt (Nat.le_of_not_lt hv)
      exact ⟨q, List.mem_append_left _ hq, hnode⟩
  way_new q hq := by
    rcases List.mem_append.mp hq with hq | hq
    · rw [h₂.way_new q hq, h₁.way_old u hu]
    · rw [h₂.way_old q.node (hps q hq), h₁.way_new q hq]
  complete := h₁.complete ∘ h₂.complete

/-! What came of a frame and the steps after it. -/

variable {s' : StateSpace} {way' : Nat → List Frame} {f : Frame}

theorem way_here (h : Grafts (s.addFrame u f) (Survey.record way u f) u s' way' qs)
    (hu : u < s.nodes.size) : way' u = way u ++ [f] := by
  rw [h.way_old u (by rwa [StateSpace.size_nodes_addFrame]), Survey.record, if_pos rfl]

theorem way_other (h : Grafts (s.addFrame u f) (Survey.record way u f) u s' way' qs) {v : Nat}
    (hv : v < s.nodes.size) (hne : v ≠ u) : way' v = way v := by
  rw [h.way_old v (by rwa [StateSpace.size_nodes_addFrame]), Survey.record, if_neg hne]

theorem way_beyond (h : Grafts (s.addFrame u f) (Survey.record way u f) u s' way' qs) {q : Path}
    (hq : q ∈ qs) : way' q.node = way u ++ [f] := by
  rw [h.way_new q hq, Survey.record, if_pos rfl]

end Grafts

namespace Survey

variable {root first : Nat} {s s' : StateSpace} {way : Nat → List Frame} {p q : Path}
  {ps qs : List Path}

theorem node_lt (h : Survey root first s way ps) (hp : p ∈ ps) : p.node < s.nodes.size := by
  obtain ⟨-, n, hn, -⟩ := h.node p hp
  exact (Array.getElem?_eq_some_iff.mp hn).1

/-- The way to a node has the frames along the chain to it. -/
theorem way_eq (h : Survey root first s way ps) {u : Nat} {es : List Edge}
    (hchain : s.Chain root u es) : way u = s.framesAlong root es := by
  induction hchain with
  | nil => simp [StateSpace.framesAlong, h.way_root]
  | snoc chain mem ih =>
    rw [h.way_edge _ mem (h.tree.root_le_of_chain chain), ih,
      StateSpace.framesAlong_append_singleton]

theorem tail (h : Survey root first s way (p :: ps)) : Survey root first s way ps where
  tree := h.tree
  way_root := h.way_root
  way_edge := h.way_edge
  node q hq := h.node q (List.mem_cons_of_mem _ hq)
  leaf q hq := h.leaf q (List.mem_cons_of_mem _ hq)
  nodup := (List.nodup_cons.mp h.nodup).2

theorem node_ne (h : Survey root first s way (p :: ps)) : ∀ q ∈ ps, q.node ≠ p.node := by
  intro q hq heq
  exact (List.nodup_cons.mp h.nodup).1 (List.mem_map.mpr ⟨q, hq, heq⟩)

theorem cutShort (h : Survey root first s way ps) :
    Survey root first { s with complete := false } way ps where
  tree := ⟨h.tree.first_le, h.tree.size, h.tree.uid, h.tree.before, h.tree.since⟩
  way_root := h.way_root
  way_edge := h.way_edge
  node := h.node
  leaf := h.leaf
  nodup := h.nodup

/-- A transaction that has not begun, after others. -/
theorem start (huid : ∀ ⦃u : Nat⦄ ⦃n : Node⦄, s.nodes[u]? = some n → n.uid = u)
    (hedges : ∀ e ∈ s.edges, e.source < e.target ∧ e.target < s.nodes.size) (entry : String) :
    Survey s.nodes.size s.edges.size (s.addNode entry 0 []) (fun _ => [])
      [Path.start entry s.nodes.size] := by
  have hnodes (u : Nat) : (s.addNode entry 0 []).nodes[u]? =
      if u = s.nodes.size then some ⟨s.nodes.size, entry, 0, #[], []⟩ else s.nodes[u]? :=
    Array.getElem?_push
  have hsource : ∀ e ∈ s.edges, e.source < s.nodes.size := fun e he =>
    Nat.lt_trans (hedges e he).1 (hedges e he).2
  refine ⟨⟨Nat.le_refl _, ?_, fun u n hn => ?_, fun i e _ he => ?_, fun i e hi he => ?_⟩, ?_,
    fun e he hroot => ?_, fun p hp => ?_, fun p hp e he => ?_, ?_⟩
  · simp only [StateSpace.addNode, Array.size_push]
  · rw [hnodes] at hn
    split at hn
    · next hu => rw [← Option.some.inj hn, hu]
    · exact huid hn
  · exact hedges e (Array.mem_of_getElem? he)
  · have hlt : i < s.edges.size := (Array.getElem?_eq_some_iff.mp he).1
    omega
  · rw [StateSpace.framesAt, hnodes, if_pos rfl]
    rfl
  · have := hsource e he
    omega
  · obtain rfl := List.mem_singleton.mp hp
    exact ⟨Nat.le_refl _, _, (hnodes _).trans (if_pos rfl), rfl, rfl⟩
  · obtain rfl := List.mem_singleton.mp hp
    exact Nat.ne_of_lt (hsource e he)
  · simp

/-- A frame at the leaf of a path is on the way to that leaf only. -/
theorem addFrame (h : Survey root first s way (p :: ps)) (f : Frame) (hnode : q.node = p.node)
    (hname : q.functionName = p.functionName) (hconstraints : q.constraints = p.constraints) :
    Survey root first (s.addFrame p.node f) (record way p.node f) (q :: ps) := by
  have hp := h.node_lt List.mem_cons_self
  have hleaf := h.leaf p List.mem_cons_self
  refine ⟨h.tree.addFrame p.node f, ?_, fun e he hroot => ?_, fun r hr => ?_, fun r hr => ?_, ?_⟩
  · rw [StateSpace.framesAt_addFrame hp, ← h.way_root, record]
    split
    · next heq => rw [← heq, h.way_root]
    · rfl
  · rw [StateSpace.framesAt_addFrame hp, record, record, if_neg (hleaf e he)]
    split
    · next heq => rw [← heq, h.way_edge e he hroot, List.append_assoc]
    · exact h.way_edge e he hroot
  · have hkept : ∀ r' ∈ p :: ps, r.node = r'.node → r.functionName = r'.functionName →
        r.constraints = r'.constraints → root ≤ r.node ∧ ∃ n,
          (s.addFrame p.node f).nodes[r.node]? = some n ∧ n.functionName = r.functionName ∧
            n.constraints = r.constraints := by
      intro r' hr' hnode' hname' hconstraints'
      obtain ⟨hle, n, hn, hn'⟩ := h.node r' hr'
      rw [StateSpace.getElem?_nodes_addFrame, hnode', hn, hname', hconstraints']
      refine ⟨hle, _, rfl, ?_⟩
      split
      · exact hn'
      · exact hn'
    rcases List.mem_cons.mp hr with rfl | hr
    · exact hkept p List.mem_cons_self hnode hname hconstraints
    · exact hkept r (List.mem_cons_of_mem _ hr) rfl rfl rfl
  · rcases List.mem_cons.mp hr with rfl | hr
    · rw [hnode]
      exact hleaf
    · exact h.leaf r (List.mem_cons_of_mem _ hr)
  · rw [List.map_cons, hnode]
    exact h.nodup

/-- A path that follows an edge from a node goes on in a leaf of its own. -/
theorem enters {limits : Limits} {source target u : Nat} {kind : EdgeKind}
    (h : Survey root first s way ps) (hroot : root ≤ u) (hp : u < s.nodes.size)
    (hfree : ∀ q ∈ ps, q.node ≠ u) (henters : p.Enters limits source target kind s s' qs)
    (hnode : p.node = u) :
    ∃ way', Survey root first s' way' (qs ++ ps) ∧ Grafts s way u s' way' qs := by
  subst hnode
  cases henters with
  | pruned =>
    exact ⟨way, h.cutShort, ⟨Nat.le_refl _, fun _ _ => rfl, fun _ _ => rfl,
      fun v hlt hle => absurd hlt (Nat.not_lt_of_le hle), nofun, nofun⟩⟩
  | entered =>
    have hedges : ∀ e ∈ (s.addChild p target kind).edges,
        e ∈ s.edges ∨ e = ⟨p.node, s.nodes.size, kind⟩ := fun e he => by
      simpa [StateSpace.addChild, StateSpace.addEdge, StateSpace.addNode] using he
    have hways : ∀ v < s.nodes.size,
        (if v = s.nodes.size then way p.node else way v) = way v := fun v hv =>
      if_neg (Nat.ne_of_lt hv)
    have hroot' : root < s.nodes.size := Nat.lt_of_le_of_lt hroot hp
    refine ⟨fun v => if v = s.nodes.size then way p.node else way v, ⟨h.tree.addChild hroot hp ..,
      ?_, fun e he hsource => ?_, fun r hr => ?_, fun r hr e he => ?_, ?_⟩, ⟨?_, fun v hv => ?_,
      hways, fun v hlt hle => ?_, fun r hr => ?_, id⟩⟩
    · rw [hways root hroot', StateSpace.framesAt_addChild, h.way_root]
    · rw [StateSpace.framesAt_addChild]
      rcases hedges e he with he | rfl
      · have htarget := h.tree.target_lt he
        rw [hways _ htarget, hways _ (Nat.lt_trans (h.tree.source_lt he) htarget)]
        exact h.way_edge e he hsource
      · have hempty : s.framesAt s.nodes.size = [] := by simp [StateSpace.framesAt]
        simp only [if_true, hways _ hp, hempty, List.append_nil]
    · rcases List.mem_cons.mp hr with rfl | hr
      · refine ⟨Nat.le_of_lt hroot', ⟨s.nodes.size, p.functionName, target, #[], p.constraints⟩,
          ?_, rfl, rfl⟩
        rw [StateSpace.getElem?_nodes_addChild]
        exact if_pos rfl
      · rw [StateSpace.getElem?_nodes_addChild, if_neg (Nat.ne_of_lt (h.node_lt hr))]
        exact h.node r hr
    · rcases List.mem_cons.mp hr with rfl | hr <;> rcases hedges e he with he | rfl
      · exact Nat.ne_of_lt (Nat.lt_trans (h.tree.source_lt he) (h.tree.target_lt he))
      · exact Nat.ne_of_lt hp
      · exact h.leaf r hr e he
      · exact (hfree r hr).symm
    · refine List.nodup_cons.mpr ⟨fun hmem => ?_, h.nodup⟩
      obtain ⟨r, hr, heq⟩ := List.mem_map.mp hmem
      exact Nat.ne_of_lt (h.node_lt hr) heq
    · simp [StateSpace.addChild, StateSpace.addEdge, StateSpace.addNode]
    · rw [StateSpace.getElem?_nodes_addChild, if_neg (Nat.ne_of_lt hv)]
    · refine ⟨_, List.mem_cons_self, ?_⟩
      simp only [StateSpace.addChild, StateSpace.addEdge, StateSpace.addNode,
        Array.size_push] at hlt
      exact Nat.le_antisymm hle (Nat.le_of_lt_succ hlt)
    · rw [List.mem_singleton.mp hr]
      exact if_pos rfl

/-- **A step extends the way of its path and of no other.** -/
theorem steps {program : Program} {limits : Limits} {frame : Frame} {e : Effect}
    {supply : Supply} {returned : Option Bytes} (h : Survey root first s way (e.path :: ps))
    (hsteps : Steps program limits frame e s s' qs supply returned) :
    ∃ way', Survey root first s' way' (qs ++ ps) ∧ Grafts s way e.path.node s' way' qs := by
  have hroot := (h.node _ List.mem_cons_self).1
  have hlt := h.node_lt List.mem_cons_self
  have hfree := h.node_ne
  cases hsteps with
  | next =>
    refine ⟨way, ⟨h.tree, h.way_root, h.way_edge, fun r hr => ?_, fun r hr => ?_, h.nodup⟩,
      .refl fun q hq => by rw [List.mem_singleton.mp hq]⟩
    · rcases List.mem_cons.mp hr with rfl | hr
      · exact h.node e.path List.mem_cons_self
      · exact h.node r (List.mem_cons_of_mem _ hr)
    · rcases List.mem_cons.mp hr with rfl | hr
      · exact h.leaf e.path List.mem_cons_self
      · exact h.leaf r (List.mem_cons_of_mem _ hr)
  | halt | jumpLost | knownLost => exact ⟨way, h.tail, .refl nofun⟩
  | jump _ _ enters | knownFalse _ _ enters | knownTrue _ _ _ _ enters =>
    exact h.tail.enters hroot hlt hfree enters rfl
  | forkLost _ _ _ falls => exact h.tail.enters hroot hlt hfree falls rfl
  | @fork _ _ _ _ _ fallen _ _ _ _ falls jumps =>
    obtain ⟨way₁, h₁, hgrafts₁⟩ := h.tail.enters hroot hlt hfree falls rfl
    -- the node of the copy is new, so the path itself is still the only one at its own
    have hfree₁ : ∀ q ∈ fallen ++ ps, q.node ≠ e.path.node := by
      intro q hq
      rcases List.mem_append.mp hq with hq | hq
      · rw [falls.mem hq]
        exact Nat.ne_of_gt hlt
      · exact hfree q hq
    obtain ⟨way₂, h₂, hgrafts₂⟩ :=
      h₁.enters hroot (Nat.lt_of_lt_of_le hlt hgrafts₁.size_le) hfree₁ jumps rfl
    rw [List.append_assoc]
    exact ⟨way₂, h₂, hgrafts₁.trans hgrafts₂ hlt fun q hq =>
      h₁.node_lt (List.mem_append_left _ hq)⟩

end Survey

/-- Paths that go on stay alone in leaves. -/
theorem Progress.survey_of_advance {program : Program} {limits : Limits} {g g' : Progress}
    {root first : Nat} {way : Nat → List Frame} (h : Advance program limits g g')
    (hg : Survey root first g.space way g.paths) :
    ∃ way', Survey root first g'.space way' g'.paths := by
  cases h with
  | ended | unfit => exact ⟨way, hg.tail⟩
  | @step p ps _ space _ supply _ _ _ ins _ _ steps =>
    obtain ⟨stack, memory, storage, hpath⟩ := path_execute program ins p supply
    have hframe : Survey root first (space.addFrame p.node ⟨ins, p.stack⟩)
        (Survey.record way p.node ⟨ins, p.stack⟩) ((execute program ins p supply).path :: ps) :=
      hg.addFrame _ (by rw [hpath]) (by rw [hpath]) (by rw [hpath])
    obtain ⟨way', hsurvey, -⟩ := hframe.steps steps
    exact ⟨way', hsurvey⟩

end GuardFinder

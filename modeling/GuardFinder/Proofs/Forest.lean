import GuardFinder.Proofs.Signals
import GuardFinder.Proofs.Survey
import Mathlib.Data.List.Nodup
import Mathlib.Data.List.Perm.Subperm

/-!
# Forests of nodes

Each transaction of an exploration grows a tree. A node that has been left is left from its last
frame, a jump or a branch, and gets no more frames. What a child knows beyond its parent is what the
branch has decided, if that was open.

* `Frame.Leaves`: how nodes are left, and what is learned by that.
* `StateSpace.Planted`: what all steps keep. `Progress.planted_of_reaches`: **a transaction grows
  one tree more**.
* `StateSpace.Continues`: the trees that were there before. `Progress.continues_of_reaches`: they
  stay as they are.
* `StateSpace.Planted.isForest`: the shape of a planted state space.
-/

namespace GuardFinder

/-! ### How nodes are left -/

/-- The frame is one of a branch on a condition. -/
def Frame.BranchesOn (f : Frame) (condition : Value) : Prop :=
  f.instruction.opcode = .jumpi ∧ f.stack[1]? = some condition

/-- How a node is left from its last frame: the kind of the edge and what is learned along it. -/
inductive Frame.Leaves (f : Frame) : EdgeKind → List Constraint → Prop
  | jump (op : f.instruction.opcode = .jump) : f.Leaves .jump []
  | known {condition : Value} {v : Word} (branches : f.BranchesOn condition)
      (known : condition.const? = some v) : f.Leaves (.conditional (v ≠ 0)) []
  | symbolic {condition : Value} (branches : f.BranchesOn condition)
      (symbolic : condition.const? = none) (taken : Bool) :
      f.Leaves (.conditional taken) [⟨condition.word, taken⟩]

namespace Frame

variable {f : Frame} {c d : Value} {kind kind' : EdgeKind} {added added' : List Constraint}

theorem BranchesOn.eq (h : f.BranchesOn c) (h' : f.BranchesOn d) : c = d :=
  Option.some.inj (h.2.symm.trans h'.2)

theorem Leaves.eq_jump (h : f.Leaves .jump added) : f.instruction.opcode = .jump := by
  cases h with
  | jump op => exact op

theorem Leaves.conditional {taken : Bool} (h : f.Leaves (.conditional taken) added) :
    f.instruction.opcode = .jumpi := by
  cases h with
  | known branches => exact branches.1
  | symbolic branches => exact branches.1

/-- Only branches on symbolic conditions are left in two ways. -/
theorem Leaves.exists_symbolic (h : f.Leaves kind added) (h' : f.Leaves kind' added')
    (hne : kind ≠ kind') : ∃ c, f.BranchesOn c ∧ c.const? = none := by
  cases h with
  | jump op =>
    cases h' with
    | jump => exact absurd rfl hne
    | known branches | symbolic branches => cases op.symm.trans branches.1
  | symbolic branches symbolic => exact ⟨_, branches, symbolic⟩
  | known branches known =>
    cases h' with
    | jump op => cases op.symm.trans branches.1
    | symbolic branches symbolic => exact ⟨_, branches, symbolic⟩
    | known branches' known' =>
      obtain rfl := branches.eq branches'
      obtain rfl := Option.some.inj (known.symm.trans known')
      exact absurd rfl hne

/-- What is learned from a branch on a symbolic condition. -/
theorem Leaves.of_symbolic (h : f.Leaves kind added) (hc : f.BranchesOn c)
    (hsymbolic : c.const? = none) :
    ∃ taken, kind = .conditional taken ∧ added = [⟨c.word, taken⟩] := by
  cases h with
  | jump op => cases op.symm.trans hc.1
  | known branches known =>
    obtain rfl := hc.eq branches
    rw [hsymbolic] at known
    cases known
  | symbolic branches _ taken =>
    obtain rfl := hc.eq branches
    exact ⟨taken, rfl, rfl⟩

end Frame

/-! ### Planted state spaces -/

namespace StateSpace

/-- The child of an edge knows what its parent knows and what is learned by leaving that. -/
def Learns (s : StateSpace) (e : Edge) : Prop :=
  ∃ parent child f added, s.nodes[e.source]? = some parent ∧ s.nodes[e.target]? = some child ∧
    parent.frames.back? = some f ∧ f.Leaves e.kind added ∧
    child.constraints = parent.constraints ++ added

theorem Learns.mono {s s' : StateSpace} {e : Edge} (h : s.Learns e)
    (hold : ∀ v < s.nodes.size, s'.nodes[v]? = s.nodes[v]?) : s'.Learns e := by
  obtain ⟨parent, child, f, added, hparent, hchild, hf⟩ := h
  refine ⟨parent, child, f, added, ?_, ?_, hf⟩
  · rw [hold _ (Array.getElem?_eq_some_iff.mp hparent).1, hparent]
  · rw [hold _ (Array.getElem?_eq_some_iff.mp hchild).1, hchild]

/-- A state space of transactions with the given roots and entries: edges are listed in the order of
the nodes they lead to, which are all nodes but the roots. -/
structure Planted (s : StateSpace) (roots : List Nat) (entries : List String) : Prop where
  uid : ∀ ⦃u : Nat⦄ ⦃n : Node⦄, s.nodes[u]? = some n → n.uid = u
  size : s.edges.size + roots.length = s.nodes.size
  targets : s.edges.toList.map Edge.target = (List.range s.nodes.size).filter (· ∉ roots)
  forward : ∀ e ∈ s.edges, e.source < e.target
  entry : roots.map s.nameAt? = entries.map some
  learns : ∀ e ∈ s.edges, s.Learns e
  siblings : ∀ e ∈ s.edges, ∀ e' ∈ s.edges, e.source = e'.source → e.kind = e'.kind → e = e'

namespace Planted

variable {s s' : StateSpace} {roots : List Nat} {entries : List String} {u : Nat} {e : Edge}

theorem empty : ({} : StateSpace).Planted [] [] where
  uid _ _ h := by simp at h
  size := rfl
  targets := rfl
  forward _ h := absurd h (Array.not_mem_empty _)
  entry := rfl
  learns _ h := absurd h (Array.not_mem_empty _)
  siblings _ h := absurd h (Array.not_mem_empty _)

theorem target_lt (h : s.Planted roots entries) (he : e ∈ s.edges) : e.target < s.nodes.size := by
  have hmem : e.target ∈ s.edges.toList.map Edge.target :=
    List.mem_map_of_mem (Array.mem_toList_iff.mpr he)
  rw [h.targets, List.mem_filter, List.mem_range] at hmem
  exact hmem.1

theorem root_lt (h : s.Planted roots entries) {r : Nat} (hr : r ∈ roots) : r < s.nodes.size := by
  have hmem : s.nameAt? r ∈ entries.map some := h.entry ▸ List.mem_map_of_mem hr
  obtain ⟨name, -, hname⟩ := List.mem_map.mp hmem
  exact lt_of_nameAt? hname.symm

theorem entry_mono (h : s.Planted roots entries)
    (hold : ∀ v < s.nodes.size, s'.nodes[v]? = s.nodes[v]?) :
    roots.map s'.nameAt? = entries.map some := by
  rw [← h.entry]
  refine List.map_congr_left fun r hr => ?_
  rw [nameAt?, hold r (h.root_lt hr), nameAt?]

/-! What steps do to planted state spaces. -/

theorem cutShort (h : s.Planted roots entries) :
    { s with complete := false }.Planted roots entries :=
  ⟨h.uid, h.size, h.targets, h.forward, h.entry, h.learns, h.siblings⟩

/-- The root of one more transaction. -/
theorem addNode (h : s.Planted roots entries) (entry : String) :
    (s.addNode entry 0 []).Planted (roots ++ [s.nodes.size]) (entries ++ [entry]) := by
  have hnodes (v : Nat) : (s.addNode entry 0 []).nodes[v]? =
      if v = s.nodes.size then some ⟨s.nodes.size, entry, 0, #[], []⟩ else s.nodes[v]? :=
    Array.getElem?_push
  have hold : ∀ v < s.nodes.size, (s.addNode entry 0 []).nodes[v]? = s.nodes[v]? := by
    intro v hv
    rw [hnodes, if_neg (Nat.ne_of_lt hv)]
  have hsize : (s.addNode entry 0 []).nodes.size = s.nodes.size + 1 := Array.size_push _
  refine ⟨fun v n hn => ?_, ?_, ?_, h.forward, ?_, fun e he => (h.learns e he).mono hold,
    h.siblings⟩
  · rw [hnodes] at hn
    split at hn
    · next hv =>
      rw [← Option.some.inj hn, hv]
    · exact h.uid hn
  · have := h.size
    rw [hsize, List.length_append, List.length_singleton]
    show s.edges.size + _ = _
    omega
  · rw [hsize, List.range_succ, List.filter_append]
    show s.edges.toList.map Edge.target = _
    rw [h.targets]
    have hnew : List.filter (fun v => decide (v ∉ roots ++ [s.nodes.size])) [s.nodes.size] = [] := by
      simp
    rw [hnew, List.append_nil]
    refine List.filter_congr fun v hv => ?_
    have hne : v ≠ s.nodes.size := Nat.ne_of_lt (List.mem_range.mp hv)
    simp [hne]
  · rw [List.map_append, List.map_append, h.entry_mono hold]
    simp [nameAt?, hnodes]

/-- A frame at a node that has not been left. -/
theorem addFrame (h : s.Planted roots entries) (hleaf : ∀ e ∈ s.edges, e.source ≠ u) (f : Frame) :
    (s.addFrame u f).Planted roots entries := by
  refine ⟨fun v n hn => ?_, ?_, ?_, h.forward, ?_, fun e he => ?_, h.siblings⟩
  · rw [getElem?_nodes_addFrame] at hn
    obtain ⟨n, hold, rfl⟩ := Option.map_eq_some_iff.mp hn
    have huid : n.uid = v := h.uid hold
    split <;> exact huid
  · rw [size_nodes_addFrame]
    exact h.size
  · rw [size_nodes_addFrame]
    exact h.targets
  · rw [← h.entry]
    exact List.map_congr_left fun r _ => nameAt?_addFrame s u f r
  · obtain ⟨parent, child, g, added, hparent, hchild, hg, hleaves, hconstraints⟩ := h.learns e he
    refine ⟨parent, if e.target = u then { child with frames := child.frames.push f } else child,
      g, added, ?_, ?_, hg, hleaves, ?_⟩
    · rw [getElem?_nodes_addFrame, hparent, Option.map_some, if_neg (hleaf e he)]
    · rw [getElem?_nodes_addFrame, hchild, Option.map_some]
    · split <;> exact hconstraints

/-- A child of a node that is left in a new way. -/
theorem addChild (h : s.Planted roots entries) {p : Path} {n : Node} {f : Frame} {kind : EdgeKind}
    {added : List Constraint} (hn : s.nodes[p.node]? = some n) (hf : n.frames.back? = some f)
    (hleaves : f.Leaves kind added) (hconstraints : p.constraints = n.constraints ++ added)
    (hkind : ∀ e ∈ s.edges, e.source = p.node → e.kind ≠ kind) (target : Nat) :
    (s.addChild p target kind).Planted roots entries := by
  have hsize : (s.addChild p target kind).nodes.size = s.nodes.size + 1 := Array.size_push _
  have hedges : (s.addChild p target kind).edges = s.edges.push ⟨p.node, s.nodes.size, kind⟩ := rfl
  have hold : ∀ v < s.nodes.size, (s.addChild p target kind).nodes[v]? = s.nodes[v]? := by
    intro v hv
    rw [getElem?_nodes_addChild, if_neg (Nat.ne_of_lt hv)]
  have hnode : p.node < s.nodes.size := (Array.getElem?_eq_some_iff.mp hn).1
  have hfresh : s.nodes.size ∉ roots := fun hr => Nat.lt_irrefl _ (h.root_lt hr)
  refine ⟨fun v m hm => ?_, ?_, ?_, fun e he => ?_, h.entry_mono hold, fun e he => ?_,
    fun e he e' he' => ?_⟩
  · rw [getElem?_nodes_addChild] at hm
    split at hm
    · next hv => rw [← Option.some.inj hm, hv]
    · exact h.uid hm
  · have := h.size
    rw [hedges, hsize, Array.size_push]
    omega
  · rw [hedges, hsize, Array.toList_push, List.map_append, h.targets, List.range_succ,
      List.filter_append]
    simp [hfresh]
  · rcases Array.mem_push.mp (hedges ▸ he) with he | rfl
    · exact h.forward e he
    · exact hnode
  · rcases Array.mem_push.mp (hedges ▸ he) with he | rfl
    · exact (h.learns e he).mono hold
    · refine ⟨n, ⟨s.nodes.size, p.functionName, target, #[], p.constraints⟩, f, added, ?_, ?_, hf,
        hleaves, hconstraints⟩
      · rw [hold _ hnode, hn]
      · rw [getElem?_nodes_addChild, if_pos rfl]
  · rcases Array.mem_push.mp (hedges ▸ he) with he | rfl <;>
      rcases Array.mem_push.mp (hedges ▸ he') with he' | rfl
    · exact h.siblings e he e' he'
    · exact fun hsource heq => absurd heq (hkind e he hsource)
    · exact fun hsource heq => absurd heq.symm (hkind e' he' hsource.symm)
    · exact fun _ _ => rfl

/-- A path leaves a node in a new way; the node stays as it is. -/
theorem enters (h : s.Planted roots entries) {p : Path} {limits : Limits} {source target : Nat}
    {kind : EdgeKind} {qs : List Path} (henters : p.Enters limits source target kind s s' qs)
    {n : Node} {f : Frame} {added : List Constraint} (hn : s.nodes[p.node]? = some n)
    (hf : n.frames.back? = some f) (hleaves : f.Leaves kind added)
    (hconstraints : p.constraints = n.constraints ++ added)
    (hkind : ∀ e ∈ s.edges, e.source = p.node → e.kind ≠ kind) :
    s'.Planted roots entries ∧ s'.nodes[p.node]? = some n ∧
      ∀ e ∈ s'.edges, e ∈ s.edges ∨ e.kind = kind := by
  cases henters with
  | pruned => exact ⟨h.cutShort, hn, fun e he => .inl he⟩
  | entered =>
    have hnode : p.node < s.nodes.size := (Array.getElem?_eq_some_iff.mp hn).1
    refine ⟨h.addChild hn hf hleaves hconstraints hkind target, ?_, fun e he => ?_⟩
    · rw [getElem?_nodes_addChild, if_neg (Nat.ne_of_lt hnode), hn]
    · rcases Array.mem_push.mp he with he | rfl
      · exact .inl he
      · exact .inr rfl

end Planted

end StateSpace

/-! ### Steps and runs -/

/-- **A step leaves a planted state space planted.** The path is in a node that has not been left. -/
theorem StateSpace.Planted.steps {s s' : StateSpace} {roots : List Nat} {entries : List String}
    {program : Program} {limits : Limits} {ins : Instruction} {p : Path} {supply supply' : Supply}
    {qs : List Path} {returned : Option Bytes} (h : s.Planted roots entries) {n : Node}
    (hn : s.nodes[p.node]? = some n) (hconstraints : p.constraints = n.constraints)
    (hleaf : ∀ e ∈ s.edges, e.source ≠ p.node)
    (hsteps : Steps program limits ⟨ins, p.stack⟩ (execute program ins p supply)
      (s.addFrame p.node ⟨ins, p.stack⟩) s' qs supply' returned) :
    s'.Planted roots entries := by
  have hplanted := h.addFrame hleaf ⟨ins, p.stack⟩
  obtain ⟨stack, memory, storage, hpath⟩ := path_execute program ins p supply
  have hnode := getElem?_nodes_addFrame_self hn ⟨ins, p.stack⟩
  have hlast : (n.frames.push ⟨ins, p.stack⟩).back? = some ⟨ins, p.stack⟩ := Array.back?_push
  have hsame : p.constraints = n.constraints ++ [] := by rw [hconstraints, List.append_nil]
  have hbranch {destination condition : Value}
      (flow : (execute program ins p supply).flow = .branch destination condition) :
      (Frame.mk ins p.stack).BranchesOn condition := by
    obtain ⟨hop, rest, hstack⟩ := flow_eq_branch flow
    exact ⟨hop, by rw [hstack]; rfl⟩
  have hfree (kind : EdgeKind) : ∀ e ∈ (s.addFrame p.node ⟨ins, p.stack⟩).edges,
      e.source = p.node → e.kind ≠ kind := fun e he hsource => absurd hsource (hleaf e he)
  cases hsteps with
  | next | halt | jumpLost | knownLost => exact hplanted
  | jump flow _ enters =>
    rw [hpath] at enters
    exact (hplanted.enters enters hnode hlast (.jump (flow_eq_jump flow).1) hsame (hfree _)).1
  | knownFalse flow known enters =>
    rw [hpath] at enters
    exact (hplanted.enters enters hnode hlast (.known (hbranch flow) known) hsame (hfree _)).1
  | knownTrue flow known nonzero _ enters =>
    rw [hpath] at enters
    have hleaves := Frame.Leaves.known (hbranch flow) known
    rw [decide_eq_true nonzero] at hleaves
    exact (hplanted.enters enters hnode hlast hleaves hsame (hfree _)).1
  | forkLost flow symbolic _ falls =>
    rw [hpath] at falls
    exact (hplanted.enters falls hnode hlast (.symbolic (hbranch flow) symbolic false)
      (congrArg (· ++ _) hconstraints) (hfree _)).1
  | fork flow symbolic _ falls jumps =>
    rw [hpath] at falls jumps
    obtain ⟨hplanted', hnode', hkinds⟩ := hplanted.enters falls hnode hlast
      (.symbolic (hbranch flow) symbolic false) (congrArg (· ++ _) hconstraints) (hfree _)
    -- by now the node has been left, but not by a jump
    refine (hplanted'.enters jumps hnode' hlast (.symbolic (hbranch flow) symbolic true)
      (congrArg (· ++ _) hconstraints) fun e he hsource => ?_).1
    rcases hkinds e he with he | hkind
    · exact absurd hsource (hleaf e he)
    · rw [hkind]
      decide

namespace Progress

variable {program : Program} {limits : Limits} {g g' : Progress} {roots : List Nat}
  {entries : List String}

/-- The state space is planted, and the paths that still run are each alone in a leaf. -/
def Growing (g : Progress) (roots : List Nat) (entries : List String) : Prop :=
  g.space.Planted roots entries ∧ ∃ root first way, Survey root first g.space way g.paths

theorem growing_of_advance (h : Advance program limits g g') (hg : g.Growing roots entries) :
    g'.Growing roots entries := by
  obtain ⟨hplanted, root, first, way, hsurvey⟩ := hg
  refine ⟨?_, root, first, survey_of_advance h hsurvey⟩
  cases h with
  | ended | unfit => exact hplanted
  | @step p ps qs space space' supply supply' returned now ins at_ins fits steps =>
    obtain ⟨-, n, hn, -, hconstraints⟩ := hsurvey.node p List.mem_cons_self
    exact hplanted.steps hn hconstraints.symm (hsurvey.leaf p List.mem_cons_self) steps

theorem growing_begin {space : StateSpace} (h : space.Planted roots entries) (entry : String)
    (supply : Supply) :
    (begin entry space supply).Growing (roots ++ [space.nodes.size]) (entries ++ [entry]) :=
  ⟨h.addNode entry, _, _, _,
    Survey.start h.uid (fun e he => ⟨h.forward e he, h.target_lt he⟩) entry⟩

/-- **A transaction grows one tree more.** -/
theorem planted_of_reaches {space : StateSpace} {entry : String} {supply : Supply}
    (h : Reaches program limits (begin entry space supply) g) (hspace : space.Planted roots entries) :
    g.space.Planted (roots ++ [space.nodes.size]) (entries ++ [entry]) := by
  suffices hg : g.Growing (roots ++ [space.nodes.size]) (entries ++ [entry]) from hg.1
  induction h with
  | refl => exact growing_begin hspace entry supply
  | tail _ hadvance ih => exact growing_of_advance hadvance ih

end Progress

/-! ### Trees that were there before -/

/-- Nodes and edges of the one state space are those of the other, as far as there are any. -/
structure StateSpace.Continues (s s' : StateSpace) : Prop where
  node : ∀ v < s.nodes.size, s'.nodes[v]? = s.nodes[v]?
  edge : ∀ i < s.edges.size, s'.edges[i]? = s.edges[i]?

namespace StateSpace.Continues

variable {s s' s'' : StateSpace}

theorem refl (s : StateSpace) : s.Continues s := ⟨fun _ _ => rfl, fun _ _ => rfl⟩

theorem size_le (h : s.Continues s') : s.nodes.size ≤ s'.nodes.size := by
  refine Nat.le_of_not_lt fun hlt => ?_
  have hnone := h.node _ hlt
  rw [Array.getElem?_eq_none (Nat.le_refl _), Array.getElem?_eq_getElem hlt] at hnone
  cases hnone

theorem edges_le (h : s.Continues s') : s.edges.size ≤ s'.edges.size := by
  refine Nat.le_of_not_lt fun hlt => ?_
  have hnone := h.edge _ hlt
  rw [Array.getElem?_eq_none (Nat.le_refl _), Array.getElem?_eq_getElem hlt] at hnone
  cases hnone

theorem trans (h : s.Continues s') (h' : s'.Continues s'') : s.Continues s'' where
  node v hv := (h'.node v (Nat.lt_of_lt_of_le hv h.size_le)).trans (h.node v hv)
  edge i hi := (h'.edge i (Nat.lt_of_lt_of_le hi h.edges_le)).trans (h.edge i hi)

theorem mem_edges (h : s.Continues s') {e : Edge} (he : e ∈ s.edges) : e ∈ s'.edges := by
  obtain ⟨i, hi⟩ := Array.mem_iff_getElem?.mp he
  exact Array.mem_of_getElem? ((h.edge i (Array.getElem?_eq_some_iff.mp hi).1).trans hi)

/-- Edges to nodes that were there before were there before. -/
theorem mem_edges_of_target_lt (h : s.Continues s')
    (htree : s'.GrownFrom s.nodes.size s.edges.size) {e : Edge} (he : e ∈ s'.edges)
    (htarget : e.target < s.nodes.size) : e ∈ s.edges := by
  obtain ⟨i, hi⟩ := Array.mem_iff_getElem?.mp he
  by_cases hlt : i < s.edges.size
  · exact Array.mem_of_getElem? ((h.edge i hlt).symm.trans hi)
  · obtain ⟨hsource, hless, -⟩ := htree.since (Nat.le_of_not_lt hlt) hi
    omega

theorem addFrame (h : s.Continues s') {u : Nat} (hu : s.nodes.size ≤ u) (f : Frame) :
    s.Continues (s'.addFrame u f) where
  node v hv := by
    have hne : v ≠ u := Nat.ne_of_lt (Nat.lt_of_lt_of_le hv hu)
    rw [getElem?_nodes_addFrame, ← h.node v hv]
    cases s'.nodes[v]? with
    | none => rfl
    | some n => rw [Option.map_some, if_neg hne]
  edge := h.edge

theorem addNode (s : StateSpace) (entry : String) (start : Nat) (constraints : List Constraint) :
    s.Continues (s.addNode entry start constraints) where
  node _ hv := Array.getElem?_push.trans (if_neg (Nat.ne_of_lt hv))
  edge _ _ := rfl

theorem addChild (s : StateSpace) (p : Path) (target : Nat) (kind : EdgeKind) :
    s.Continues (s.addChild p target kind) where
  node v hv := by rw [getElem?_nodes_addChild, if_neg (Nat.ne_of_lt hv)]
  edge _ hi := Array.getElem?_push.trans (if_neg (Nat.ne_of_lt hi))

end StateSpace.Continues

theorem Path.Enters.continues {limits : Limits} {p : Path} {source target : Nat} {kind : EdgeKind}
    {s s' : StateSpace} {qs : List Path} (h : p.Enters limits source target kind s s' qs) :
    s.Continues s' := by
  cases h with
  | entered => exact .addChild s p target kind
  | pruned => exact ⟨fun _ _ => rfl, fun _ _ => rfl⟩

theorem Steps.continues {program : Program} {limits : Limits} {frame : Frame} {e : Effect}
    {s s' : StateSpace} {qs : List Path} {supply : Supply} {returned : Option Bytes}
    (h : Steps program limits frame e s s' qs supply returned) : s.Continues s' :=
  h.rule (Q := fun s' _ => s.Continues s') (.refl s) (fun _ => .refl s)
    fun _ _ _ _ _ _ _ _ henters h => h.trans henters.continues

namespace Progress

variable {program : Program} {limits : Limits} {g : Progress} {roots : List Nat}
  {entries : List String}

/-- **A transaction leaves the trees that were there before as they are**, and each path of it is
alone in a leaf of its own tree. -/
theorem continues_of_reaches {space : StateSpace} {entry : String} {supply : Supply}
    (h : Reaches program limits (begin entry space supply) g) (hspace : space.Planted roots entries) :
    space.Continues g.space ∧
      ∃ way, Survey space.nodes.size space.edges.size g.space way g.paths := by
  induction h with
  | refl =>
    exact ⟨.addNode .., _,
      Survey.start hspace.uid (fun e he => ⟨hspace.forward e he, hspace.target_lt he⟩) entry⟩
  | tail _ hadvance ih =>
    obtain ⟨hcontinues, way, hsurvey⟩ := ih
    refine ⟨?_, survey_of_advance hadvance hsurvey⟩
    cases hadvance with
    | ended | unfit => exact hcontinues
    | step _ _ steps =>
      have hroot := (hsurvey.node _ List.mem_cons_self).1
      exact (hcontinues.addFrame hroot _).trans steps.continues

end Progress

/-! ### The shape of forests -/

namespace StateSpace

/-- A chain of edges leads from one node to another. -/
def Above (s : StateSpace) (u v : Nat) : Prop := ∃ es, s.Chain u v es

theorem Above.refl (s : StateSpace) (u : Nat) : s.Above u u := ⟨[], .nil⟩

theorem Above.snoc {s : StateSpace} {u : Nat} {e : Edge} (h : s.Above u e.source)
    (he : e ∈ s.edges) : s.Above u e.target := by
  obtain ⟨es, hchain⟩ := h
  exact ⟨es ++ [e], .snoc hchain he⟩

theorem Above.mono {s s' : StateSpace} {u v : Nat} (h : s.Above u v) (hs : s.GrowsTo s') :
    s'.Above u v := by
  obtain ⟨es, hchain⟩ := h
  induction hchain with
  | nil => exact .refl ..
  | snoc _ he ih => exact ih.snoc (hs.edge he)

/-- A forest with the given roots, in which nodes know what their parents know and what is learned by
leaving these. -/
structure IsForest (s : StateSpace) (roots : List Nat) : Prop where
  uid : ∀ ⦃u : Nat⦄ ⦃n : Node⦄, s.nodes[u]? = some n → n.uid = u
  forward : ∀ e ∈ s.edges, e.source < e.target ∧ e.target < s.nodes.size
  /-- One edge leads to each node that is no root, and none to a root. -/
  incoming : ∀ u < s.nodes.size,
    s.edges.toList.countP (·.target = u) = if u ∈ roots then 0 else 1
  root_lt : ∀ r ∈ roots, r < s.nodes.size
  size : s.edges.size + roots.length = s.nodes.size
  outgoing : ∀ u, s.edges.toList.countP (·.source = u) ≤ 2
  /-- Two edges lead away from branches on symbolic conditions only. -/
  forked : ∀ u, s.edges.toList.countP (·.source = u) = 2 →
    ∃ n f c, s.nodes[u]? = some n ∧ n.frames.back? = some f ∧ f.BranchesOn c ∧ c.const? = none
  learns : ∀ e ∈ s.edges, s.Learns e
  /-- A node has at most one child of each kind. -/
  siblings : ∀ e ∈ s.edges, ∀ e' ∈ s.edges, e.source = e'.source → e.kind = e'.kind → e = e'

namespace Planted

variable {s : StateSpace} {roots : List Nat} {entries : List String} {e e' : Edge}

theorem nodup_targets (h : s.Planted roots entries) : (s.edges.toList.map Edge.target).Nodup := by
  rw [h.targets]
  exact List.nodup_range.filter _

theorem incoming (h : s.Planted roots entries) {u : Nat} (hu : u < s.nodes.size) :
    s.edges.toList.countP (·.target = u) = if u ∈ roots then 0 else 1 := by
  have hcount : s.edges.toList.countP (·.target = u) =
      (s.edges.toList.map Edge.target).count u := by
    rw [List.count, List.countP_map]
    exact List.countP_congr fun e _ => by simp
  have hmem : u ∈ s.edges.toList.map Edge.target ↔ u ∉ roots := by
    rw [h.targets, List.mem_filter, List.mem_range, decide_eq_true_eq]
    exact and_iff_right hu
  rw [hcount]
  by_cases hroot : u ∈ roots
  · rw [if_pos hroot, List.count_eq_zero]
    exact fun hu' => hmem.mp hu' hroot
  · rw [if_neg hroot]
    exact List.count_eq_one_of_mem h.nodup_targets (hmem.mpr hroot)

/-- Every node is in the tree of a root. -/
theorem exists_root (h : s.Planted roots entries) {u : Nat} (hu : u < s.nodes.size) :
    ∃ r ∈ roots, s.Above r u := by
  induction u using Nat.strongRecOn with
  | ind u ih =>
    by_cases hroot : u ∈ roots
    · exact ⟨u, hroot, [], .nil⟩
    · have hmem : u ∈ s.edges.toList.map Edge.target := by
        rw [h.targets, List.mem_filter, List.mem_range, decide_eq_true_eq]
        exact ⟨hu, hroot⟩
      obtain ⟨e, he, rfl⟩ := List.mem_map.mp hmem
      rw [Array.mem_toList_iff] at he
      have hlt := h.forward e he
      obtain ⟨r, hr, es, hes⟩ := ih e.source hlt (Nat.lt_trans hlt hu)
      exact ⟨r, hr, es ++ [e], .snoc hes he⟩

/-- Both edges that lead away from a node are left from its last frame. -/
theorem exists_leaves (h : s.Planted roots entries) (he : e ∈ s.edges) (he' : e' ∈ s.edges)
    (hsource : e.source = e'.source) :
    ∃ n f added added', s.nodes[e.source]? = some n ∧ n.frames.back? = some f ∧
      f.Leaves e.kind added ∧ f.Leaves e'.kind added' := by
  obtain ⟨n, -, f, added, hn, -, hf, hleaves, -⟩ := h.learns e he
  obtain ⟨n', -, f', added', hn', -, hf', hleaves', -⟩ := h.learns e' he'
  rw [hsource] at hn
  obtain rfl := Option.some.inj (hn.symm.trans hn')
  obtain rfl := Option.some.inj (hf.symm.trans hf')
  exact ⟨n, f, added, added', hsource ▸ hn, hf, hleaves, hleaves'⟩

/-- The kinds of the edges that lead away from a node. -/
theorem nodup_kinds (h : s.Planted roots entries) (u : Nat) :
    ((s.edges.toList.filter (·.source = u)).map Edge.kind).Nodup := by
  have hedges : (s.edges.toList.filter (·.source = u)).Nodup :=
    (List.Nodup.of_map _ h.nodup_targets).filter _
  refine hedges.map_on fun e he e' he' => ?_
  rw [List.mem_filter, decide_eq_true_eq, Array.mem_toList_iff] at he he'
  exact h.siblings e he.1 e' he'.1 (he.2.trans he'.2.symm)

theorem outgoing (h : s.Planted roots entries) (u : Nat) :
    s.edges.toList.countP (·.source = u) ≤ 2 := by
  have hlength : ((s.edges.toList.filter (·.source = u)).map Edge.kind).length =
      (s.edges.toList.filter (·.source = u)).length := List.length_map _
  rw [List.countP_eq_length_filter, ← hlength]
  have hnodup := h.nodup_kinds u
  by_cases hjump : EdgeKind.jump ∈ (s.edges.toList.filter (·.source = u)).map Edge.kind
  · -- a jump leaves in one way only
    have hsub : (s.edges.toList.filter (·.source = u)).map Edge.kind ⊆ [.jump] := by
      intro kind hkind
      obtain ⟨e, he, hjump⟩ := List.mem_map.mp hjump
      obtain ⟨e', he', rfl⟩ := List.mem_map.mp hkind
      rw [List.mem_filter, decide_eq_true_eq, Array.mem_toList_iff] at he he'
      obtain ⟨-, f, added, added', -, -, hleaves, hleaves'⟩ :=
        h.exists_leaves he.1 he'.1 (he.2.trans he'.2.symm)
      rw [hjump] at hleaves
      cases hkind' : e'.kind with
      | jump => exact List.mem_singleton_self _
      | conditional taken =>
        rw [hkind'] at hleaves'
        cases hleaves.eq_jump.symm.trans hleaves'.conditional
    exact Nat.le_succ_of_le (List.Nodup.subperm hnodup hsub).length_le
  · have hsub : (s.edges.toList.filter (·.source = u)).map Edge.kind ⊆
        [.conditional false, .conditional true] := by
      intro kind hkind
      cases kind with
      | jump => exact absurd hkind hjump
      | conditional taken => cases taken <;> simp
    exact (List.Nodup.subperm hnodup hsub).length_le

theorem forked (h : s.Planted roots entries) {u : Nat}
    (hu : s.edges.toList.countP (·.source = u) = 2) :
    ∃ n f c, s.nodes[u]? = some n ∧ n.frames.back? = some f ∧ f.BranchesOn c ∧
      c.const? = none := by
  rw [List.countP_eq_length_filter] at hu
  obtain ⟨e, e', hedges⟩ := List.length_eq_two.mp hu
  have hnodup := h.nodup_kinds u
  have hmem (d : Edge) (hd : d ∈ [e, e']) : d ∈ s.edges ∧ d.source = u := by
    rw [← hedges, List.mem_filter, decide_eq_true_eq, Array.mem_toList_iff] at hd
    exact hd
  obtain ⟨he, hsource⟩ := hmem e (by simp)
  obtain ⟨he', hsource'⟩ := hmem e' (by simp)
  have hne : e.kind ≠ e'.kind := by
    rw [hedges] at hnodup
    simpa using hnodup
  obtain ⟨n, f, added, added', hn, hf, hleaves, hleaves'⟩ :=
    h.exists_leaves he he' (hsource.trans hsource'.symm)
  obtain ⟨c, hc, hsymbolic⟩ := hleaves.exists_symbolic hleaves' hne
  exact ⟨n, f, c, hsource ▸ hn, hf, hc, hsymbolic⟩

theorem isForest (h : s.Planted roots entries) : s.IsForest roots where
  uid := h.uid
  forward e he := ⟨h.forward e he, h.target_lt he⟩
  incoming _ hu := h.incoming hu
  root_lt _ hr := h.root_lt hr
  size := h.size
  outgoing := h.outgoing
  forked _ hu := h.forked hu
  learns := h.learns
  siblings := h.siblings

end Planted

end StateSpace

end GuardFinder

import GuardFinder.Proofs.Simulation

/-!
# Complete explorations miss no run

An exploration that no limit cut short has followed all runs of the code, as long as it met only
instructions of the fragment and jumps to known destinations. For each valuation there is at all
times a path that the run agrees with, or a node at whose end the run is over.

* `StateSpace.Exact`: the explorations of which that can be said.
* `Steps.covers`: a run that goes on goes on along one of the new paths.
* `Progress.covered_of_advance`: **no advance loses a run**.
* `run_ends_at_node`: every run is found in a complete exploration as a whole.
-/

namespace GuardFinder

/-- No limit cut the exploration short, and all frames are in the fragment and jump to known
destinations. -/
structure StateSpace.Exact (s : StateSpace) : Prop where
  complete : s.complete = true
  fragment : ∀ n ∈ s.nodes, ∀ f ∈ n.frames, f.inFragment = true
  known : ∀ n ∈ s.nodes, ∀ f ∈ n.frames,
    f.instruction.opcode = .jump ∨ f.instruction.opcode = .jumpi → f.top?.isSome = true

/-! ### Steps -/

section

variable {ρ : Valuation} {code : Bytes} {limits : Limits} {program : Program} {ins : Instruction}
  {p : Path} {supply : Supply} {destination condition : Value}

/-- Where a frame has a known destination on top, so has the jump that it makes. -/
theorem known_of_top? (h : ins.opcode = .jump ∨ ins.opcode = .jumpi →
      (Frame.mk ins p.stack).top?.isSome = true)
    (hflow : (execute program ins p supply).flow = .jump destination ∨
      (execute program ins p supply).flow = .branch destination condition) :
    ∃ w, destination.const? = some w := by
  rcases hflow with hflow | hflow
  · obtain ⟨hop, rest, hstack⟩ := flow_eq_jump hflow
    have htop := h (.inl hop)
    rw [hstack] at htop
    exact Option.isSome_iff_exists.mp htop
  · obtain ⟨hop, rest, hstack⟩ := flow_eq_branch hflow
    have htop := h (.inr hop)
    rw [hstack] at htop
    exact Option.isSome_iff_exists.mp htop

theorem Path.Enters.exists_of_complete {source target : Nat} {kind : EdgeKind} {s s' : StateSpace}
    {ps : List Path} (h : p.Enters limits source target kind s s' ps) (hs : s'.complete = true) :
    s.complete = true ∧ ∃ q ∈ ps, q.constraints = p.constraints := by
  cases h with
  | entered => exact ⟨hs, _, List.mem_singleton_self _, rfl⟩
  | pruned => cases hs

/-- **A run that goes on goes on along one of the new paths.** -/
theorem Steps.covers {frame : Frame} {e : Effect} {s s' : StateSpace} {qs : List Path}
    {returned : Option Bytes} (h : Steps (.ofCode code) limits frame e s s' qs supply returned)
    (hs : s'.complete = true) (hsat : ρ.Satisfies e.path.constraints)
    (hknown : ∀ destination condition, e.flow = .jump destination ∨
      e.flow = .branch destination condition → ∃ w, destination.const? = some w) :
    e.under ρ code frame.instruction = none ∨ ∃ q ∈ qs, ρ.Satisfies q.constraints := by
  cases h with
  | next => exact .inr ⟨_, List.mem_singleton_self _, hsat⟩
  | halt flow =>
    rw [Effect.under, flow]
    exact .inl rfl
  | jump _ _ enters | knownFalse _ _ enters | knownTrue _ _ _ _ enters =>
    obtain ⟨-, q, hq, hconstraints⟩ := enters.exists_of_complete hs
    exact .inr ⟨q, hq, hconstraints ▸ hsat⟩
  | @jumpLost destination flow lost =>
    obtain ⟨w, hw⟩ := hknown destination destination (.inl flow)
    rw [Effect.under, flow, Flow.under, jumpTarget?_under hw, lost]
    exact .inl rfl
  | @knownLost destination condition v flow known nonzero lost =>
    obtain ⟨w, hw⟩ := hknown destination condition (.inr flow)
    rw [← Term.eval_of_const? known ρ] at nonzero
    rw [Effect.under, flow, Flow.under, if_neg nonzero, jumpTarget?_under hw, lost]
    exact .inl rfl
  | @fork _ condition _ _ _ _ _ flow _ _ falls jumps =>
    obtain ⟨hs₁, q, hq, hjumped⟩ := jumps.exists_of_complete hs
    obtain ⟨-, r, hr, hfell⟩ := falls.exists_of_complete hs₁
    by_cases hcondition : condition.word.eval ρ = 0
    · refine .inr ⟨r, List.mem_append_right _ hr, ?_⟩
      rw [hfell]
      exact (satisfies_fallen e.supply).mpr ⟨hsat, hcondition⟩
    · refine .inr ⟨q, List.mem_append_left _ hq, ?_⟩
      rw [hjumped]
      exact satisfies_taken.mpr ⟨hsat, hcondition⟩
  | @forkLost destination condition _ _ flow _ lost falls =>
    obtain ⟨w, hw⟩ := hknown destination condition (.inr flow)
    obtain ⟨-, r, hr, hfell⟩ := falls.exists_of_complete hs
    by_cases hcondition : condition.word.eval ρ = 0
    · refine .inr ⟨r, hr, ?_⟩
      rw [hfell]
      exact (satisfies_fallen e.supply).mpr ⟨hsat, hcondition⟩
    · rw [Effect.under, flow, Flow.under, if_neg hcondition, jumpTarget?_under hw, lost]
      exact .inl rfl

end

/-! ### Frames stay -/

theorem StateSpace.exists_node_of_mem_framesAt {s : StateSpace} {u : Nat} {f : Frame}
    (h : f ∈ s.framesAt u) : ∃ n ∈ s.nodes, f ∈ n.frames := by
  unfold StateSpace.framesAt at h
  cases hn : s.nodes[u]? with
  | none => simp [hn] at h
  | some n =>
    rw [hn] at h
    exact ⟨n, Array.mem_of_getElem? hn, Array.mem_toList_iff.mp h⟩

theorem Survey.exists_node_of_mem_way {root first : Nat} {s : StateSpace} {way : Nat → List Frame}
    {ps : List Path} (h : Survey root first s way ps) {u : Nat} (hroot : root ≤ u)
    (hu : u < s.nodes.size) {f : Frame} (hf : f ∈ way u) : ∃ n ∈ s.nodes, f ∈ n.frames := by
  obtain ⟨es, hchain⟩ := h.tree.exists_chain u hroot hu
  rw [h.way_eq hchain, StateSpace.framesAlong] at hf
  rcases List.mem_append.mp hf with hf | hf
  · exact StateSpace.exists_node_of_mem_framesAt hf
  · obtain ⟨e, -, hf⟩ := List.mem_flatMap.mp hf
    exact StateSpace.exists_node_of_mem_framesAt hf

/-- Frames that were recorded stay, and the new one is among them. -/
theorem Grafts.exists_node {s s' : StateSpace} {way way' : Nat → List Frame} {u : Nat} {f : Frame}
    {qs : List Path} (h : Grafts (s.addFrame u f) way u s' way' qs) {v : Nat} {n : Node}
    (hn : s.nodes[v]? = some n) :
    ∃ n', s'.nodes[v]? = some n' ∧ n'.constraints = n.constraints ∧
      (∀ g ∈ n.frames, g ∈ n'.frames) ∧ (v = u → f ∈ n'.frames) := by
  have hv : v < (s.addFrame u f).nodes.size := by
    rw [StateSpace.size_nodes_addFrame]
    exact (Array.getElem?_eq_some_iff.mp hn).1
  rw [h.node_old v hv, StateSpace.getElem?_nodes_addFrame, hn, Option.map_some]
  by_cases heq : v = u
  · rw [if_pos heq]
    exact ⟨_, rfl, rfl, fun g hg => Array.mem_push_of_mem _ hg, fun _ => Array.mem_push_self⟩
  · rw [if_neg heq]
    exact ⟨n, rfl, rfl, fun g hg => hg, fun h => absurd h heq⟩

theorem Grafts.exact {s s' : StateSpace} {way way' : Nat → List Frame} {u : Nat} {f : Frame}
    {qs : List Path} (h : Grafts (s.addFrame u f) way u s' way' qs) (hexact : s'.Exact) :
    s.Exact := by
  refine ⟨h.complete hexact.complete, fun n hn g hg => ?_, fun n hn g hg => ?_⟩
  all_goals
    obtain ⟨v, hv⟩ := Array.mem_iff_getElem?.mp hn
    obtain ⟨n', hn', -, hframes, -⟩ := h.exists_node hv
  · exact hexact.fragment n' (Array.mem_of_getElem? hn') g (hframes g hg)
  · exact hexact.known n' (Array.mem_of_getElem? hn') g (hframes g hg)

/-! ### Coverage -/

/-- A run agrees with a path that still runs, or it is over and a node has all that it executed on
its way. -/
def Covered (code : Bytes) (ρ : Valuation) (root : Nat) (s : StateSpace) (way : Nat → List Frame)
    (ps : List Path) : Prop :=
  (∃ p ∈ ps, ρ.Satisfies p.constraints) ∨
    ∃ u n m, root ≤ u ∧ s.nodes[u]? = some n ∧ ρ.Satisfies n.constraints ∧
      Evm.run code ρ m (.start ρ) = ((way u).map (Frame.under ρ), none)

namespace Progress

variable {ρ : Valuation} {code : Bytes} {limits : Limits} {root first : Nat}
  {way : Nat → List Frame} {p : Path} {ps qs : List Path} {space space' : StateSpace}
  {supply supply' : Supply} {returned now : Option Bytes} {ins : Instruction}

/-- A run that agrees with a path has executed what is on the way of the path. -/
theorem Sound.run_eq (hg : Sound code root first ⟨ps, space, supply, returned⟩ way)
    (hexact : space.Exact) (hp : p ∈ ps) (hsat : ρ.Satisfies p.constraints) :
    Evm.run code ρ (way p.node).length (.start ρ) =
      ((way p.node).map (Frame.under ρ), some (p.under ρ)) := by
  refine (hg.simulated ρ).running p hp hsat fun f hf => ?_
  obtain ⟨n, hn, hf⟩ :=
    hg.survey.exists_node_of_mem_way (hg.survey.node p hp).1 (hg.survey.node_lt hp) hf
  exact hexact.fragment n hn f hf

/-- A path that finds no instruction to execute leaves its node to the runs that agree with it. -/
theorem covered_of_not_ready
    (hg : Sound code root first ⟨p :: ps, space, supply, returned⟩ way) (hexact : space.Exact)
    (hready : Evm.ready? code (p.under ρ) = none) (h : Covered code ρ root space way (p :: ps)) :
    Covered code ρ root space way ps := by
  rcases h with ⟨q, hq, hsat⟩ | hover
  · rcases List.mem_cons.mp hq with rfl | hq
    · have hrun := hg.run_eq hexact List.mem_cons_self hsat
      obtain ⟨hroot, n, hn, -, hconstraints⟩ := hg.survey.node q List.mem_cons_self
      exact .inr ⟨q.node, n, _, hroot, hn, hconstraints ▸ hsat,
        Evm.run_succ_of_not_ready hrun hready⟩
    · exact .inl ⟨q, hq, hsat⟩
  · exact .inr hover

/-- A step leads a run that agrees with its path to a new path or to its end. -/
theorem covered_of_step
    (hg : Sound code root first ⟨p :: ps, space, supply, returned⟩ way)
    (hexact : space'.Exact) {way' : Nat → List Frame}
    (at_ins : (Program.ofCode code).at? p.pc = some ins)
    (fits : fitsStack ins.opcode p.stack = true)
    (steps : Steps (.ofCode code) limits ⟨ins, p.stack⟩ (execute (.ofCode code) ins p supply)
      (space.addFrame p.node ⟨ins, p.stack⟩) space' qs supply' now)
    (hgrafts : Grafts (space.addFrame p.node ⟨ins, p.stack⟩)
      (Survey.record way p.node ⟨ins, p.stack⟩) p.node space' way' qs)
    (h : Covered code ρ root space way (p :: ps)) :
    Covered code ρ root space' way' (qs ++ ps) := by
  have hp := List.mem_cons_self (a := p) (l := ps)
  obtain ⟨hroot, n, hn, -, hconstraints⟩ := hg.survey.node p hp
  obtain ⟨n', hn', hsame, -, hframe⟩ := hgrafts.exists_node hn
  have hmem := Array.mem_of_getElem? hn'
  have hrun : ρ.Satisfies p.constraints →
      Evm.run code ρ (way p.node ++ [Frame.mk ins p.stack]).length (.start ρ) =
        ((way p.node ++ [Frame.mk ins p.stack]).map (Frame.under ρ),
          (execute (.ofCode code) ins p supply).under ρ code ins) := fun hsat =>
    run_record at_ins fits (hg.boundary p hp) (hg.tidy p hp)
      (hg.run_eq (hgrafts.exact hexact) hp hsat) (hexact.fragment n' hmem _ (hframe rfl))
  rcases h with ⟨q, hq, hsat⟩ | ⟨u, m, k, hroot', hm, hsat, hover⟩
  · rcases List.mem_cons.mp hq with rfl | hq
    · obtain ⟨stack, memory, storage, hpath⟩ := path_execute (.ofCode code) ins q supply
      have hsat' : ρ.Satisfies (execute (.ofCode code) ins q supply).path.constraints := by
        rw [hpath]
        exact hsat
      rcases steps.covers hexact.complete hsat' fun _ _ =>
        known_of_top? (hexact.known n' hmem _ (hframe rfl)) with hnone | ⟨r, hr, hsat'⟩
      · refine .inr ⟨q.node, n', (way q.node ++ [Frame.mk ins q.stack]).length, hroot, hn', ?_, ?_⟩
        · rw [hsame, hconstraints]
          exact hsat
        · rw [hgrafts.way_here (hg.survey.node_lt hp), hrun hsat, hnone]
      · exact .inl ⟨r, List.mem_append_left _ hr, hsat'⟩
    · exact .inl ⟨q, List.mem_append_right _ hq, hsat⟩
  · have hne : u ≠ p.node := by
      -- the run has one more instruction to execute there
      rintro rfl
      obtain rfl := Option.some.inj (hm.symm.trans hn)
      have hprefix := Evm.run_prefix_of_over hover
        (way p.node ++ [Frame.mk ins p.stack]).length
      rw [hrun (hconstraints ▸ hsat)] at hprefix
      have := hprefix.length_le
      simp only [List.length_map, List.length_append, List.length_singleton] at this
      omega
    obtain ⟨m', hm', hsame', -⟩ := hgrafts.exists_node hm
    refine .inr ⟨u, m', k, hroot', hm', hsame' ▸ hsat, ?_⟩
    have hu : u < space.nodes.size := (Array.getElem?_eq_some_iff.mp hm).1
    rw [hgrafts.way_other hu hne]
    exact hover

variable {g g' : Progress}

/-- **No advance loses a run.** -/
theorem covered_of_advance (h : Advance (.ofCode code) limits g g')
    (hg : g.Sound code root first way)
    (hcovered : g.space.Exact → ∀ ρ, Covered code ρ root g.space way g.paths) :
    ∃ way', g'.Sound code root first way' ∧
      (g'.space.Exact → ∀ ρ, Covered code ρ root g'.space way' g'.paths) := by
  cases h with
  | @ended p _ _ _ _ past =>
    refine ⟨way, hg.tail, fun hexact ρ => covered_of_not_ready hg hexact ?_ (hcovered hexact ρ)⟩
    rw [ready?_under (hg.boundary p List.mem_cons_self), past]
    rfl
  | @unfit p _ _ _ _ _ at_ins unfit =>
    refine ⟨way, hg.tail, fun hexact ρ => covered_of_not_ready hg hexact ?_ (hcovered hexact ρ)⟩
    rw [ready?_under (hg.boundary p List.mem_cons_self), at_ins]
    exact if_neg (Bool.eq_false_iff.mp unfit)
  | step at_ins fits steps =>
    obtain ⟨way', hsound, hgrafts⟩ := hg.step at_ins fits steps
    exact ⟨way', hsound, fun hexact ρ => covered_of_step hg hexact at_ins fits steps hgrafts
      (hcovered (hgrafts.exact hexact) ρ)⟩

theorem covered_of_reaches (h : Reaches (.ofCode code) limits g g')
    (hg : g.Sound code root first way)
    (hcovered : g.space.Exact → ∀ ρ, Covered code ρ root g.space way g.paths) :
    ∃ way', g'.Sound code root first way' ∧
      (g'.space.Exact → ∀ ρ, Covered code ρ root g'.space way' g'.paths) := by
  induction h with
  | refl => exact ⟨way, hg, hcovered⟩
  | tail _ hadvance ih =>
    obtain ⟨way', hsound, hcovered'⟩ := ih
    exact covered_of_advance hadvance hsound hcovered'

end Progress

/-- **A complete exploration misses no run.** If no limit cut the exploration short, all frames are
in the fragment and all jumps have known destinations, then every run of the code comes to an end,
and what it executed is what lies along the chain of edges to a node whose constraints it agrees
with. -/
theorem run_ends_at_node {σ : Type} (x : Explorer) (observer : Observer σ) (address : Address)
    (code : Bytes) (watch : σ × Ledger) {space : StateSpace}
    (h : (x.explore observer (.deployed address code) watch).result = .ok space)
    (hcomplete : space.complete = true)
    (hfragment : ∀ n ∈ space.nodes, ∀ f ∈ n.frames, f.inFragment = true)
    (hknown : ∀ n ∈ space.nodes, ∀ f ∈ n.frames,
      f.instruction.opcode = .jump ∨ f.instruction.opcode = .jumpi → f.top?.isSome = true)
    (ρ : Valuation) :
    ∃ n ∈ space.nodes, ρ.Satisfies n.constraints ∧ ∃ es m, space.Chain 0 n.uid es ∧
      Evm.run code ρ m (.start ρ) = ((space.framesAlong 0 es).map (Frame.under ρ), none) := by
  obtain ⟨g, hreach, ⟨rfl, hpaths⟩ | rfl⟩ := explore_reaches h
  · have hstart : ∀ ρ, Covered code ρ 0 (Progress.initial fallbackName { havocs := x.havocs }).space
        (fun _ => []) (Progress.initial fallbackName { havocs := x.havocs }).paths := fun ρ =>
      .inl ⟨_, List.mem_singleton_self _, fun c hc => absurd hc List.not_mem_nil⟩
    obtain ⟨way, hsound, hcovered⟩ := Progress.covered_of_reaches hreach
      (Progress.sound_initial ..) fun _ => hstart
    rcases hcovered ⟨hcomplete, hfragment, hknown⟩ ρ with ⟨p, hp, -⟩ | ⟨u, n, m, -, hn, hsat, hrun⟩
    · rw [hpaths] at hp
      cases hp
    · have hu : u < g.space.nodes.size := (Array.getElem?_eq_some_iff.mp hn).1
      obtain ⟨es, hchain⟩ := hsound.survey.tree.exists_chain u (Nat.zero_le u) hu
      refine ⟨n, Array.mem_of_getElem? hn, hsat, es, m, ?_, ?_⟩
      · rw [hsound.survey.tree.uid hn]
        exact hchain
      · rw [← hsound.survey.way_eq hchain]
        exact hrun
  · cases hcomplete

theorem run_ends_at_node_of_branch :
    ∃ space, (Explorer.explore { limits := ⟨60, 10, 3⟩ } (Observer.mk fun _ _ => pure ())
        (.deployed ⟨0⟩ branchingCode) ((), {})).result = .ok space ∧ space.complete = true ∧
      ∃ n ∈ space.nodes, (Valuation.constant 0).Satisfies n.constraints ∧
        ∃ es m, space.Chain 0 n.uid es ∧
          Evm.run branchingCode (.constant 0) m (.start (.constant 0)) =
            ((space.framesAlong 0 es).map (Frame.under (.constant 0)), none) := by
  have hcheck : (match (Explorer.explore { limits := ⟨60, 10, 3⟩ } (Observer.mk fun _ _ => pure ())
      (.deployed ⟨0⟩ branchingCode) ((), {})).result with
    | .ok space => decide (space.complete = true ∧
      (∀ n ∈ space.nodes, ∀ f ∈ n.frames, f.inFragment = true) ∧
      ∀ n ∈ space.nodes, ∀ f ∈ n.frames,
        f.instruction.opcode = .jump ∨ f.instruction.opcode = .jumpi → f.top?.isSome = true)
    | .error _ => false) = true := by decide +kernel
  split at hcheck
  · next space hspace =>
    obtain ⟨hcomplete, hfragment, hknown⟩ := of_decide_eq_true hcheck
    exact ⟨space, hspace, hcomplete,
      run_ends_at_node _ _ _ _ _ hspace hcomplete hfragment hknown (.constant 0)⟩
  · cases hcheck

end GuardFinder

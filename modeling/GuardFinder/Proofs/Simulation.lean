import GuardFinder.Proofs.Boundary
import GuardFinder.Proofs.Execution
import GuardFinder.Proofs.Survey

/-!
# Explored paths are runs of the machine

A path of an exploration stands for runs of the machine: for all runs under valuations that agree
with its constraints. The frames on its way are what such a run executes, instruction by instruction
and with the same words on the stack.

* `Steps.under`: a path that goes on after an instruction goes where the machine goes.
* `Progress.Sound`: what holds of an exploration of a code at all times.
* `Progress.sound_of_advance`: **each advance of a path is a turn of the machine**.
* `run_along_chain`: every node of an exploration is reached by real runs.
-/

namespace GuardFinder

/-! ### Jumps and forks under a valuation -/

section

variable {ρ : Valuation} {code : Bytes}

/-- A known destination is the same for the explorer and for the machine. -/
theorem jumpTarget?_under {destination : Value} {w : Word} (h : destination.const? = some w) :
    Evm.jumpTarget? code (destination.word.eval ρ) = jumpTarget? (.ofCode code) destination := by
  rw [Evm.jumpTarget?, jumpTarget?, Value.size?, h, Option.bind_some, Term.eval_of_const? h]

theorem const_of_jumpTarget? {program : Program} {destination : Value} {target : Nat}
    (h : jumpTarget? program destination = some target) :
    ∃ w, destination.const? = some w := by
  cases hconst : destination.const? with
  | some w => exact ⟨w, rfl⟩
  | none => simp [jumpTarget?, Value.size?, hconst] at h

/-- A copy has the words of its path. -/
theorem under_fork (p : Path) (s : Supply) : (p.fork s).path.under ρ = p.under ρ := by
  have hrename : ∀ v, ((Copies.ofValues s p.values).rename v).word = v.word := fun _ => rfl
  simp only [Path.under, Path.fork, Path.mapValues, Path.stored?, List.map_map, Function.comp_def,
    Memory.bytesUnder_mapValues ρ _ _ hrename, Slots.get?_mapValues, Option.map_map, hrename]

theorem satisfies_fallen {p : Path} (s : Supply) {condition : Term} :
    ρ.Satisfies (p.fallen s condition).constraints ↔
      ρ.Satisfies p.constraints ∧ condition.eval ρ = 0 := by
  simp only [Path.fallen, Valuation.satisfies_append, Valuation.satisfies_singleton,
    Constraint.HoldsUnder, Bool.false_eq_true, iff_false, Decidable.not_not]

theorem satisfies_taken {p : Path} {condition : Term} :
    ρ.Satisfies (p.taken condition).constraints ↔
      ρ.Satisfies p.constraints ∧ condition.eval ρ ≠ 0 := by
  simp only [Path.taken, Valuation.satisfies_append, Valuation.satisfies_singleton,
    Constraint.HoldsUnder, iff_true]

theorem under_of_falls {limits : Limits} {ins : Instruction} {e : Effect}
    {destination condition : Value} {s s' : StateSpace} {ps : List Path} {q : Path}
    (flow : e.flow = .branch destination condition)
    (falls : (e.path.fallen e.supply condition.word).Enters limits ins.address ins.nextAddress
      (.conditional false) s s' ps) (hq : q ∈ ps) (hsat : ρ.Satisfies q.constraints) :
    e.under ρ code ins = some (q.under ρ) ∧ ρ.Satisfies e.path.constraints := by
  obtain rfl := falls.mem hq
  obtain ⟨hsat, hcondition⟩ := (satisfies_fallen e.supply).mp hsat
  rw [Effect.under, flow, Flow.under, if_pos hcondition, ← under_fork e.path e.supply]
  exact ⟨rfl, hsat⟩

/-- **A path that goes on goes where the machine goes**, in each run that agrees with what the path
knows by then. -/
theorem Steps.under {limits : Limits} {frame : Frame} {e : Effect} {s s' : StateSpace}
    {qs : List Path} {supply : Supply} {returned : Option Bytes} {q : Path}
    (h : Steps (.ofCode code) limits frame e s s' qs supply returned) (hq : q ∈ qs)
    (hsat : ρ.Satisfies q.constraints) :
    e.under ρ code frame.instruction = some (q.under ρ) ∧ ρ.Satisfies e.path.constraints := by
  cases h with
  | next flow =>
    obtain rfl := List.mem_singleton.mp hq
    rw [Effect.under, flow]
    exact ⟨rfl, hsat⟩
  | halt | jumpLost | knownLost => exact absurd hq List.not_mem_nil
  | jump flow lands enters =>
    obtain ⟨w, hw⟩ := const_of_jumpTarget? lands
    obtain rfl := enters.mem hq
    rw [Effect.under, flow, Flow.under, jumpTarget?_under hw, lands]
    exact ⟨rfl, hsat⟩
  | knownFalse flow known enters =>
    obtain rfl := enters.mem hq
    rw [Effect.under, flow, Flow.under, if_pos (Term.eval_of_const? known ρ)]
    exact ⟨rfl, hsat⟩
  | knownTrue flow known nonzero lands enters =>
    obtain ⟨w, hw⟩ := const_of_jumpTarget? lands
    obtain rfl := enters.mem hq
    rw [← Term.eval_of_const? known ρ] at nonzero
    rw [Effect.under, flow, Flow.under, if_neg nonzero, jumpTarget?_under hw, lands]
    exact ⟨rfl, hsat⟩
  | fork flow symbolic lands falls jumps =>
    rcases List.mem_append.mp hq with hq | hq
    · obtain ⟨w, hw⟩ := const_of_jumpTarget? lands
      obtain rfl := jumps.mem hq
      obtain ⟨hsat, hcondition⟩ := satisfies_taken.mp hsat
      rw [Effect.under, flow, Flow.under, if_neg hcondition, jumpTarget?_under hw, lands]
      exact ⟨rfl, hsat⟩
    · exact under_of_falls flow falls hq hsat
  | forkLost flow symbolic lost falls => exact under_of_falls flow falls hq hsat

end

/-! ### Soundness -/

/-- Runs of a code that agree with a path execute the frames on its way, and with each node that was
recorded likewise. -/
structure Simulated (code : Bytes) (ρ : Valuation) (root : Nat) (s : StateSpace)
    (way : Nat → List Frame) (ps : List Path) : Prop where
  running : ∀ p ∈ ps, ρ.Satisfies p.constraints → (∀ f ∈ way p.node, f.inFragment = true) →
    Evm.run code ρ (way p.node).length (.start ρ) =
      ((way p.node).map (Frame.under ρ), some (p.under ρ))
  recorded : ∀ u n, root ≤ u → s.nodes[u]? = some n → ρ.Satisfies n.constraints →
    (∀ f ∈ way u, f.inFragment = true) →
      (Evm.run code ρ (way u).length (.start ρ)).1 = (way u).map (Frame.under ρ)

/-- A step keeps what was simulated: runs that agree with the path execute the new frame and then
are where the new paths are. -/
theorem Simulated.step {code : Bytes} {ρ : Valuation} {root first : Nat} {s s' : StateSpace}
    {way way' : Nat → List Frame} {p : Path} {ps qs : List Path} {f : Frame}
    (after : Option Evm.State) (h : Simulated code ρ root s way (p :: ps))
    (hsurvey : Survey root first s way (p :: ps)) (hsurvey' : Survey root first s' way' (qs ++ ps))
    (hgrafts : Grafts (s.addFrame p.node f) (Survey.record way p.node f) p.node s' way' qs)
    (hrecord : Evm.run code ρ (way p.node).length (.start ρ) =
        ((way p.node).map (Frame.under ρ), some (p.under ρ)) → f.inFragment = true →
      Evm.run code ρ (way p.node ++ [f]).length (.start ρ) =
        ((way p.node ++ [f]).map (Frame.under ρ), after))
    (hafter : ∀ q ∈ qs, ρ.Satisfies q.constraints →
      after = some (q.under ρ) ∧ ρ.Satisfies p.constraints) :
    Simulated code ρ root s' way' (qs ++ ps) := by
  have hp := hsurvey.node_lt List.mem_cons_self
  have hrun : ρ.Satisfies p.constraints → (∀ f' ∈ way p.node ++ [f], f'.inFragment = true) →
      Evm.run code ρ (way p.node ++ [f]).length (.start ρ) =
        ((way p.node ++ [f]).map (Frame.under ρ), after) := by
    intro hsat hin
    refine hrecord ?_ (hin f (by simp))
    exact h.running p List.mem_cons_self hsat fun f' hf' => hin f' (List.mem_append_left _ hf')
  have hrunning : ∀ q ∈ qs ++ ps, ρ.Satisfies q.constraints →
      (∀ f ∈ way' q.node, f.inFragment = true) →
      Evm.run code ρ (way' q.node).length (.start ρ) =
        ((way' q.node).map (Frame.under ρ), some (q.under ρ)) := by
    intro q hq hsat hin
    rcases List.mem_append.mp hq with hq | hq
    · obtain ⟨hunder, hsat'⟩ := hafter q hq hsat
      rw [hgrafts.way_beyond hq] at hin ⊢
      rw [hrun hsat' hin, hunder]
    · have hq' := List.mem_cons_of_mem p hq
      rw [hgrafts.way_other (hsurvey.node_lt hq') (hsurvey.node_ne q hq)] at hin ⊢
      exact h.running q hq' hsat hin
  refine ⟨hrunning, fun u n hroot hn hsat hin => ?_⟩
  have hu' : u < s'.nodes.size := (Array.getElem?_eq_some_iff.mp hn).1
  by_cases hu : u < s.nodes.size
  · rw [hgrafts.node_old u (by rwa [StateSpace.size_nodes_addFrame]),
      StateSpace.getElem?_nodes_addFrame] at hn
    obtain ⟨n₀, hn₀, rfl⟩ := Option.map_eq_some_iff.mp hn
    by_cases heq : u = p.node
    · subst heq
      obtain ⟨-, n₁, hn₁, -, hconstraints⟩ := hsurvey.node p List.mem_cons_self
      obtain rfl := Option.some.inj (hn₀.symm.trans hn₁)
      rw [if_pos rfl] at hsat
      rw [hgrafts.way_here hp] at hin ⊢
      rw [hrun (hconstraints ▸ hsat) hin]
    · rw [if_neg heq] at hsat
      rw [hgrafts.way_other hu heq] at hin ⊢
      exact h.recorded u n₀ hroot hn₀ hsat hin
  · obtain ⟨q, hq, rfl⟩ := hgrafts.node_new u hu'
      (by rw [StateSpace.size_nodes_addFrame]; exact Nat.le_of_not_lt hu)
    have hq' := List.mem_append_left ps hq
    obtain ⟨-, n₁, hn₁, -, hconstraints⟩ := hsurvey'.node q hq'
    obtain rfl := Option.some.inj (hn.symm.trans hn₁)
    rw [hrunning q hq' (hconstraints ▸ hsat) hin]

/-- What holds of an exploration of a code at all times. -/
structure Progress.Sound (code : Bytes) (root first : Nat) (g : Progress)
    (way : Nat → List Frame) : Prop where
  survey : Survey root first g.space way g.paths
  tidy : g.Tidy
  boundary : ∀ p ∈ g.paths, (Program.ofCode code).IsBoundary p.pc
  simulated : ∀ ρ, Simulated code ρ root g.space way g.paths

section

variable {ρ : Valuation} {code : Bytes} {ins : Instruction} {p : Path} {s : Supply}

theorem ready?_under (hboundary : (Program.ofCode code).IsBoundary p.pc) :
    Evm.ready? code (p.under ρ) =
      ((Program.ofCode code).at? p.pc).filter fun ins => fitsStack ins.opcode p.stack := by
  have hfetch : Evm.fetch code p.pc = (Program.ofCode code).at? p.pc :=
    Program.fetch_eq_at? hboundary
  have hfits : ∀ ins : Instruction,
      Evm.fits ins.opcode (p.under ρ).stack = fitsStack ins.opcode p.stack := by
    intro ins
    simp only [Evm.fits, fitsStack, Path.under, List.length_map]
    rfl
  simp only [Evm.ready?, hfits]
  rw [← hfetch]
  rfl

/-- A run that has come as far as a path executes the instruction that the path executes. -/
theorem run_record {fs : List Frame} (hat : (Program.ofCode code).at? p.pc = some ins)
    (hfits : fitsStack ins.opcode p.stack = true)
    (hboundary : (Program.ofCode code).IsBoundary p.pc) (htidy : p.Tidy s)
    (hrun : Evm.run code ρ fs.length (.start ρ) = (fs.map (Frame.under ρ), some (p.under ρ)))
    (hin : (Frame.mk ins p.stack).inFragment = true) :
    Evm.run code ρ (fs ++ [Frame.mk ins p.stack]).length (.start ρ) =
      ((fs ++ [Frame.mk ins p.stack]).map (Frame.under ρ),
        (execute (.ofCode code) ins p s).under ρ code ins) := by
  have hready : Evm.ready? code (p.under ρ) = some ins := by
    rw [ready?_under hboundary, hat]
    exact if_pos hfits
  rw [List.length_append, List.length_singleton, Evm.run_succ_of_ready hrun hready,
    execute_under hin (pops_le_of_fitsStack hfits) (Program.address_of_at? hat) htidy.coherent,
    List.map_append]
  rfl

theorem Steps.boundary {limits : Limits} {e : Effect} {space space' : StateSpace}
    {stack : List Value} {qs : List Path} {supply : Supply} {returned : Option Bytes}
    {address : Nat} {program : Program} (hat : program.at? address = some ins)
    (h : Steps program limits ⟨ins, stack⟩ e space space' qs supply returned) :
    ∀ q ∈ qs, program.IsBoundary q.pc := by
  have hnext := Program.isBoundary_nextAddress hat
  intro q hq
  cases h with
  | next =>
    obtain rfl := List.mem_singleton.mp hq
    exact hnext
  | halt | jumpLost | knownLost => exact absurd hq List.not_mem_nil
  | jump _ lands enters | knownTrue _ _ _ lands enters =>
    obtain rfl := enters.mem hq
    exact Program.isBoundary_of_isJumpDest (isJumpDest_of_jumpTarget? lands)
  | knownFalse _ _ enters =>
    obtain rfl := enters.mem hq
    exact hnext
  | fork _ _ lands falls jumps =>
    rcases List.mem_append.mp hq with hq | hq
    · obtain rfl := jumps.mem hq
      exact Program.isBoundary_of_isJumpDest (isJumpDest_of_jumpTarget? lands)
    · obtain rfl := falls.mem hq
      exact hnext
  | forkLost _ _ _ falls =>
    obtain rfl := falls.mem hq
    exact hnext

end

namespace Progress

variable {code : Bytes} {limits : Limits} {root first : Nat} {g g' : Progress}
  {way : Nat → List Frame}

theorem Sound.tail {p : Path} {ps : List Path} {space : StateSpace} {supply : Supply}
    {returned : Option Bytes} (h : Sound code root first ⟨p :: ps, space, supply, returned⟩ way) :
    Sound code root first ⟨ps, space, supply, returned⟩ way where
  survey := h.survey.tail
  tidy q hq := h.tidy q (List.mem_cons_of_mem _ hq)
  boundary q hq := h.boundary q (List.mem_cons_of_mem _ hq)
  simulated ρ := ⟨fun q hq => (h.simulated ρ).running q (List.mem_cons_of_mem _ hq),
    (h.simulated ρ).recorded⟩

/-- A step of a sound exploration. The ways that come of it are the old ones with the new frame, and
those to new nodes. -/
theorem Sound.step {p : Path} {ps qs : List Path} {space space' : StateSpace}
    {supply supply' : Supply} {returned now : Option Bytes} {ins : Instruction}
    (hg : Sound code root first ⟨p :: ps, space, supply, returned⟩ way)
    (at_ins : (Program.ofCode code).at? p.pc = some ins)
    (fits : fitsStack ins.opcode p.stack = true)
    (steps : Steps (.ofCode code) limits ⟨ins, p.stack⟩ (execute (.ofCode code) ins p supply)
      (space.addFrame p.node ⟨ins, p.stack⟩) space' qs supply' now) :
    ∃ way', Sound code root first ⟨qs ++ ps, space', supply', returned.or now⟩ way' ∧
      Grafts (space.addFrame p.node ⟨ins, p.stack⟩) (Survey.record way p.node ⟨ins, p.stack⟩)
        p.node space' way' qs := by
  obtain ⟨stack, memory, storage, hpath⟩ := path_execute (.ofCode code) ins p supply
  have hnode : (execute (.ofCode code) ins p supply).path.node = p.node := by rw [hpath]
  have hconstraints : (execute (.ofCode code) ins p supply).path.constraints = p.constraints := by
    rw [hpath]
  have hrecord := hg.survey.addFrame ⟨ins, p.stack⟩ hnode (by rw [hpath]) hconstraints
  obtain ⟨way', hsurvey, hgrafts⟩ := hrecord.steps steps
  rw [hnode] at hgrafts
  refine ⟨way', ⟨hsurvey, ?_, fun q hq => ?_, fun ρ => ?_⟩, hgrafts⟩
  · exact tidy_of_advance (.step at_ins fits steps) hg.tidy
  · rcases List.mem_append.mp hq with hq | hq
    · exact steps.boundary at_ins q hq
    · exact hg.boundary q (List.mem_cons_of_mem _ hq)
  · refine Simulated.step ((execute (.ofCode code) ins p supply).under ρ code ins)
      (hg.simulated ρ) hg.survey hsurvey hgrafts ?_ fun q hq hsat => ?_
    · exact run_record at_ins fits (hg.boundary p List.mem_cons_self)
        (hg.tidy p List.mem_cons_self)
    · rw [← hconstraints]
      exact steps.under hq hsat

/-- **Each advance of a path is a turn of the machine.** -/
theorem sound_of_advance (h : Advance (.ofCode code) limits g g')
    (hg : g.Sound code root first way) : ∃ way', g'.Sound code root first way' := by
  cases h with
  | ended | unfit => exact ⟨way, hg.tail⟩
  | step at_ins fits steps =>
    obtain ⟨way', hsound, -⟩ := hg.step at_ins fits steps
    exact ⟨way', hsound⟩

theorem Sound.cutShort (h : g.Sound code root first way) :
    g.cutShort.Sound code root first way where
  survey := h.survey.cutShort
  tidy := h.tidy
  boundary := h.boundary
  simulated ρ := ⟨(h.simulated ρ).running, (h.simulated ρ).recorded⟩

/-- An exploration of a code that has not begun. -/
def initial (entry : String) (supply : Supply) : Progress where
  paths := [Path.start entry 0]
  space := ({} : StateSpace).addNode entry 0 []
  supply

theorem sound_initial (code : Bytes) (entry : String) (supply : Supply) :
    (initial entry supply).Sound code 0 0 fun _ => [] := by
  have hempty : ∀ e ∈ ({} : StateSpace).edges, e.source < e.target ∧ e.target < 0 :=
    fun e he => absurd he (Array.not_mem_empty e)
  refine ⟨Survey.start (fun u n hn => by simp at hn) hempty entry, fun p hp => ?_, fun p hp => ?_,
    fun ρ => ⟨fun p hp hsat _ => ?_, fun u n _ hn hsat _ => rfl⟩⟩
  · obtain rfl := List.mem_singleton.mp hp
    exact Path.tidy_start ..
  · obtain rfl := List.mem_singleton.mp hp
    exact Program.isBoundary_zero _
  · obtain rfl := List.mem_singleton.mp hp
    rw [under_start]
    rfl

theorem sound_of_reaches (h : Reaches (.ofCode code) limits g g')
    (hg : g.Sound code root first way) : ∃ way', g'.Sound code root first way' := by
  induction h with
  | refl => exact ⟨way, hg⟩
  | tail _ hadvance ih =>
    obtain ⟨way', hsound⟩ := ih
    exact sound_of_advance hadvance hsound

end Progress

/-- An exploration of deployed code is a run from the start that left no path, or that the time cut
short. -/
theorem explore_reaches {σ : Type} {x : Explorer} {observer : Observer σ} {address : Address}
    {code : Bytes} {watch : σ × Ledger} {space : StateSpace}
    (h : (x.explore observer (.deployed address code) watch).result = .ok space) :
    ∃ g, Progress.Reaches (.ofCode code) x.limits
        (Progress.initial fallbackName { havocs := x.havocs }) g ∧
      (g.space = space ∧ g.paths = [] ∨ g.cutShort.space = space) := by
  have hend := runPaths_reaches (x.setting observer code)
    (Progress.initial fallbackName { havocs := x.havocs })
    (watch.1, { watch.2 with taints := ∅ })
  simp only [Explorer.explore, Explorer.finish, transaction] at h
  split at h
  · cases h
  · next hfailure =>
    obtain rfl := Except.ok.inj h
    obtain ⟨g, hreach, ⟨hprogress, hpaths⟩ | hprogress⟩ := hend
    · exact ⟨g, hreach, .inl ⟨congrArg Progress.space hprogress.symm, hpaths hfailure⟩⟩
    · exact ⟨g, hreach, .inr (congrArg Progress.space hprogress.symm)⟩

/-- The state space that an exploration returns is that of a sound exploration. -/
theorem exists_sound {σ : Type} {x : Explorer} {observer : Observer σ} {address : Address}
    {code : Bytes} {watch : σ × Ledger} {space : StateSpace}
    (h : (x.explore observer (.deployed address code) watch).result = .ok space) :
    ∃ g way, g.space = space ∧ Progress.Sound code 0 0 g way := by
  obtain ⟨g, hreach, hspace⟩ := explore_reaches h
  obtain ⟨way, hsound⟩ := Progress.sound_of_reaches hreach (Progress.sound_initial ..)
  rcases hspace with ⟨hspace, -⟩ | hspace
  · exact ⟨g, way, hspace, hsound⟩
  · exact ⟨g.cutShort, way, hspace, hsound.cutShort⟩

/-- **Every explored path is a real one.** One chain of edges leads from the root to each node of an
exploration. If the frames along it are in the fragment, then a run under a valuation that satisfies
the constraints of the node begins with these frames: the same instructions in the same order, each
with the words that its stack has under the valuation. -/
theorem run_along_chain {σ : Type} (x : Explorer) (observer : Observer σ) (address : Address)
    (code : Bytes) (watch : σ × Ledger) {space : StateSpace}
    (h : (x.explore observer (.deployed address code) watch).result = .ok space) {n : Node}
    (hn : n ∈ space.nodes) :
    ∃ es, space.Chain 0 n.uid es ∧ (∀ es', space.Chain 0 n.uid es' → es' = es) ∧
      ∀ ρ : Valuation, (∀ f ∈ space.framesAlong 0 es, f.inFragment = true) →
        ρ.Satisfies n.constraints →
          (Evm.run code ρ (space.framesAlong 0 es).length (.start ρ)).1 =
            (space.framesAlong 0 es).map (Frame.under ρ) := by
  obtain ⟨g, way, rfl, hsound⟩ := exists_sound h
  obtain ⟨u, hu⟩ := Array.mem_iff_getElem?.mp hn
  have hlt : u < g.space.nodes.size := (Array.getElem?_eq_some_iff.mp hu).1
  obtain ⟨es, hchain, hunique⟩ := hsound.survey.tree.existsUnique_chain (Nat.zero_le u) hlt
  rw [hsound.survey.tree.uid hu]
  refine ⟨es, hchain, hunique, fun ρ hin hsat => ?_⟩
  rw [← hsound.survey.way_eq hchain] at hin ⊢
  exact (hsound.simulated ρ).recorded u n (Nat.zero_le u) hu hsat hin

/-- The valuation that is the same word everywhere. -/
def Valuation.constant (w : Word) : Valuation where
  env _ := w
  callData _ := w
  storage _ := w
  query _ _ := w
  hash _ := w
  havoc _ _ := w

/-- Code that jumps to its last byte if the first word of the call data is not zero. -/
def branchingCode : Bytes := [0x5f, 0x35, 0x60, 0x06, 0x57, 0x00, 0x5b]

theorem run_along_chain_of_branch :
    ∃ space, (Explorer.explore { limits := ⟨60, 10, 3⟩ } (Observer.mk fun _ _ => pure ())
        (.deployed ⟨0⟩ branchingCode) ((), {})).result = .ok space ∧
      ∃ n ∈ space.nodes, n.constraints = [⟨.callData (.const 0), true⟩] ∧
        (space.framesAlong 0 [⟨0, n.uid, .conditional true⟩]).length = 5 ∧
        (Evm.run branchingCode (.constant 1) 5 (.start (.constant 1))).1 =
          (space.framesAlong 0 [⟨0, n.uid, .conditional true⟩]).map
            (Frame.under (.constant 1)) := by
  have hcheck : (match (Explorer.explore { limits := ⟨60, 10, 3⟩ } (Observer.mk fun _ _ => pure ())
      (.deployed ⟨0⟩ branchingCode) ((), {})).result with
    | .ok space => space.nodes.any fun n =>
      n.constraints = [⟨.callData (.const 0), true⟩] ∧
        ⟨0, n.uid, .conditional true⟩ ∈ space.edges ∧
        (space.framesAlong 0 [⟨0, n.uid, .conditional true⟩]).length = 5 ∧
        ∀ f ∈ space.framesAlong 0 [⟨0, n.uid, .conditional true⟩], f.inFragment = true
    | .error _ => false) = true := by decide +kernel
  split at hcheck
  · next space hspace =>
    obtain ⟨n, hn, hcheck⟩ := Array.any_eq_true'.mp hcheck
    obtain ⟨hconstraints, hedge, hlength, hin⟩ := of_decide_eq_true hcheck
    obtain ⟨es, -, hunique, hrun⟩ := run_along_chain _ _ _ _ _ hspace hn
    have hchain : space.Chain 0 n.uid ([] ++ [⟨0, n.uid, .conditional true⟩]) := .snoc .nil hedge
    rw [List.nil_append] at hchain
    obtain rfl := hunique _ hchain
    have hsat : (Valuation.constant 1).Satisfies n.constraints := by
      rw [hconstraints]
      decide
    refine ⟨space, hspace, n, hn, hconstraints, hlength, ?_⟩
    rw [← hrun _ hin hsat, hlength]
  · cases hcheck

end GuardFinder

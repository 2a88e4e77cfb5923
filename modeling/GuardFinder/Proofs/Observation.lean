import GuardFinder.Proofs.Lockstep

/-!
# Explorations before different observers

Observers are told of every step, and may change all taints when they are. Steps are taken without a
look at taints, though, so that observers reach the exploration in one way only: by failing.

* `Observer.NeverFails`: an observer that cannot stop an exploration.
* `progress_runPaths`: **a run is the same before all reliable observers.**
* `Explorer.explore_unperturbed`: and so is the state space that an exploration returns.
-/

namespace GuardFinder

/-- An observer that takes all that it is told. -/
def Observer.NeverFails {σ : Type} (observer : Observer σ) : Prop :=
  ∀ i e watch, ∃ watch', observer.notify i e watch = .ok () watch'

theorem Observer.NeverFails.reliable {σ : Type} {observer : Observer σ} (h : observer.NeverFails)
    (x : Explorer) (code : Bytes) : (x.setting observer code).Reliable fun _ => True := by
  intro op e _ i _ watch _
  obtain ⟨watch', hrun⟩ := h i e watch
  exact ⟨watch', hrun, trivial⟩

section

variable {σ ρ : Type} {P : σ → Prop} {Q : ρ → Prop}

/-- A run goes on with the step of a path whoever is told of it, if that is taken well. -/
theorem runPaths_step_reliable {y : Setting ρ} (hy : y.Reliable Q) {g : Progress} {p : Path}
    {ps : List Path} {ins : Instruction} (hp : g.paths = p :: ps) (hs : ¬y.late g = true)
    (hi : y.program.at? p.pc = some ins) (hf : fitsStack ins.opcode p.stack = true)
    {watch : ρ × Ledger} (hwatch : Q watch.1) :
    ∃ watch', Q watch'.1 ∧
      runPaths y g watch = runPaths y (g.stepped y.program y.limits p ps ins) watch' := by
  obtain ⟨watch', hrun, hkept⟩ := hy.playAll _ (g.sound_signals hf) watch hwatch
  exact ⟨watch', hkept, runPaths_of_step hp hs hi hf hrun⟩

/-- Runs before reliable observers are the same if their steps are. A step that leaves a state space
incomplete is one of a run that does. -/
theorem progress_runPaths_of_steps {x : Setting σ} {y : Setting ρ} (hx : x.Reliable P)
    (hy : y.Reliable Q) (hprogram : y.program = x.program)
    (hlate : ∀ g, y.late g = x.late g) (g : Progress) (w : σ × Ledger) (v : ρ × Ledger) (hw : P w.1)
    (hv : Q v.1)
    (hsteps : ∀ s supply p ins, ((runPaths x g w).progress.space.complete = true →
        (stepAt x.program x.limits s supply p ins).space.complete = true) →
      stepAt x.program y.limits s supply p ins = stepAt x.program x.limits s supply p ins) :
    (runPaths y g v).progress = (runPaths x g w).progress := by
  fun_induction runPaths x g w generalizing v with
  | case1 g w hp => rw [runPaths_of_nil hp]
  | case2 g w p ps hp hs =>
    rw [runPaths_of_late hp ((hlate g).trans hs)]
    rfl
  | case3 g w p ps hp hs hi ih =>
    rw [runPaths_of_ended hp (hlate g ▸ hs) (hprogram ▸ hi)]
    exact ih v hw hv hsteps
  | case4 g w p ps hp hs ins hi hf event failure w' hplay =>
    exact absurd hplay ((hx.keeps_before hf).not_error hw failure)
  | case5 g w p ps hp hs ins hi hf event _ w' hplay space supply paths returned signals hstep g'
      failure w'' hplayAll =>
    have hw' := (hx.keeps_before hf).of_ok hw hplay
    exact absurd hplayAll ((hx.keeps_after hf hstep).not_error hw' failure)
  | case6 g w p ps hp hs ins hi hf event _ w' hplay space supply paths returned signals hstep g'
      _ w'' hplayAll ih =>
    have hw' := (hx.keeps_before hf).of_ok hw hplay
    have hw'' := (hx.keeps_after hf hstep).of_ok hw' hplayAll
    obtain ⟨v', hv', hrun⟩ :=
      runPaths_step_reliable hy hp (hlate g ▸ hs) (hprogram ▸ hi) hf hv
    -- both have taken the same step
    have hsame := hsteps g.space g.supply p ins fun hcomplete => by
      rw [hstep]
      exact complete_of_runPaths hcomplete
    have hg' : g.stepped y.program y.limits p ps ins = g' := by
      rw [hprogram]
      simp only [Progress.stepped, hsame, hstep]
      rfl
    rw [hrun, hg']
    exact ih v' hw'' hv' hsteps
  | case7 g w p ps hp hs ins hi hf ih =>
    rw [runPaths_of_unfit hp (hlate g ▸ hs) (hprogram ▸ hi) hf]
    exact ih _ hw hv hsteps

/-- **A run is the same before all reliable observers.** -/
theorem progress_runPaths {x : Setting σ} {y : Setting ρ} (hx : x.Reliable P) (hy : y.Reliable Q)
    (hprogram : y.program = x.program) (hlimits : y.limits = x.limits)
    (hlate : ∀ g, y.late g = x.late g) (g : Progress) (w : σ × Ledger) (v : ρ × Ledger) (hw : P w.1) (hv : Q v.1) :
    (runPaths y g v).progress = (runPaths x g w).progress :=
  progress_runPaths_of_steps hx hy hprogram hlate g w v hw hv fun _ _ _ _ _ => by rw [hlimits]

variable {x y : Explorer} {observer : Observer σ} {observer' : Observer ρ}

/-- A transaction comes to the same end before both observers. -/
theorem Explorer.transaction_unperturbed {code : Bytes}
    (hx : (x.setting observer code).Reliable P) (hy : (y.setting observer' code).Reliable Q)
    (hlimits : y.limits = x.limits) (hlate : ∀ g, y.late g = x.late g) (entry : String)
    {space : StateSpace} (hspace : space.Supported) (supply : Supply) {w : σ × Ledger}
    {v : ρ × Ledger} (hw : P w.1) (hv : Q v.1) :
    (transaction (x.setting observer code) entry space supply w).Succeeded P ∧
      (transaction (y.setting observer' code) entry space supply v).Succeeded Q ∧
      (transaction (y.setting observer' code) entry space supply v).progress =
        (transaction (x.setting observer code) entry space supply w).progress :=
  ⟨transaction_succeeds hx entry hspace supply w hw,
    transaction_succeeds hy entry hspace supply v hv,
    progress_runPaths hx hy rfl hlimits hlate _ w v hw hv⟩

theorem Explorer.finish_unperturbed {e : RunEnd σ} {e' : RunEnd ρ}
    (he : e.failure = none) (he' : e'.failure = none) (h : e'.progress = e.progress) :
    ∃ space, (x.finish e).result = .ok space ∧ (y.finish e').result = .ok space ∧
      (y.finish e').explorer.havocs = (x.finish e).explorer.havocs := by
  refine ⟨e.progress.space, ?_, ?_, ?_⟩
  · simp only [finish, he]
  · simp only [finish, he', h]
  · simp only [finish, h]

/-- **Observation does not perturb an exploration.** Explorers with the same limits that have
numbered as many results, each with its own clock, its own hooks and its own observer, return the
same state space, and have numbered as many results afterwards, if the observers do not fail on what
an exploration tells them. The time is over for both at the same points, if at all. -/
theorem Explorer.explore_unperturbed
    (hx : ∀ code, (x.setting observer code).Reliable P)
    (hy : ∀ code, (y.setting observer' code).Reliable Q) (hlimits : y.limits = x.limits)
    (hlate : ∀ g, y.late g = x.late g) (hhavocs : y.havocs = x.havocs) (target : Target)
    (w : σ × Ledger) (v : ρ × Ledger) (hw : P w.1) (hv : Q v.1) :
    ∃ space, (x.explore observer target w).result = .ok space ∧
      (y.explore observer' target v).result = .ok space ∧
      (y.explore observer' target v).explorer.havocs =
        (x.explore observer target w).explorer.havocs := by
  have hempty : ({} : StateSpace).Supported := fun n hn => absurd hn (Array.not_mem_empty n)
  cases target with
  | deployed address code =>
    obtain ⟨hend, hend', hprogress⟩ := transaction_unperturbed (w := (w.1, { w.2 with taints := ∅ }))
      (v := (v.1, { v.2 with taints := ∅ })) (hx code) (hy code) hlimits hlate fallbackName hempty
      { havocs := x.havocs } hw hv
    simp only [explore, hhavocs]
    exact finish_unperturbed hend.failure hend'.failure hprogress
  | creation code =>
    obtain ⟨hcreated, hcreated', hprogress⟩ :=
      transaction_unperturbed (w := (w.1, { w.2 with taints := ∅ }))
        (v := (v.1, { v.2 with taints := ∅ })) (hx code) (hy code) hlimits hlate constructorName
        hempty { havocs := x.havocs } hw hv
    simp only [explore, hhavocs, hcreated.failure, hcreated'.failure, hprogress]
    split
    · -- the code that was returned is the same, and is explored from the same space on
      next byte rest _ =>
      obtain ⟨hend, hend', hprogress'⟩ := transaction_unperturbed (hx (byte :: rest))
        (hy (byte :: rest)) hlimits hlate fallbackName hcreated.supported _ hcreated.kept
        hcreated'.kept
      exact finish_unperturbed hend.failure hend'.failure hprogress'
    · exact finish_unperturbed rfl rfl rfl

end

/-- An observer that takes all taints away. -/
def wipingObserver : Observer Unit where
  notify _ _ := modify fun (u, l) => (u, { l with taints := ∅ })

/-- Creation code for code that compares the caller with slot 0 and branches on the result. -/
def createdCheckCode : Bytes :=
  [0x60, 0x0a, 0x60, 0x0a, 0x5f, 0x39, 0x60, 0x0a, 0x5f, 0xf3,
   0x33, 0x5f, 0x54, 0x14, 0x60, 0x08, 0x57, 0x00, 0x5b, 0x00]

/-- An explorer with the hooks of a detector. -/
def ownershipExplorer : Explorer where
  limits := ⟨60, 10, 3⟩
  hooks := (Registry.mk [.ofPattern {} .ownership]).hooks.map (·.1)

/-- An explorer with hooks of its own. -/
def wipingExplorer : Explorer where
  limits := ⟨60, 10, 3⟩
  hooks := [⟨.post, .caller, 0⟩, ⟨.post, .sload, 0⟩]

theorem Explorer.explore_unperturbed_wiping :
    wipingObserver.NeverFails ∧
      ∃ space, (ownershipExplorer.explore Registry.observer (.creation createdCheckCode)
          (⟨[.ofPattern {} .ownership]⟩, {})).result = .ok space ∧
        (wipingExplorer.explore wipingObserver (.creation createdCheckCode)
          ((), {})).result = .ok space ∧ space.nodes.size = 4 := by
  have hnever : wipingObserver.NeverFails := fun _ _ _ => ⟨_, rfl⟩
  obtain ⟨space, hspace, hspace', -⟩ := explore_unperturbed (x := ownershipExplorer)
    (y := wipingExplorer) (Registry.reliable_setting _) (hnever.reliable _) rfl (fun _ => rfl) rfl
    (.creation createdCheckCode) (⟨[.ofPattern {} .ownership]⟩, {}) ((), {})
    (Registry.serves_hooks _) trivial
  have hsize : (match (wipingExplorer.explore wipingObserver (.creation createdCheckCode)
      ((), {})).result with
    | .ok space => decide (space.nodes.size = 4)
    | .error _ => false) = true := by decide +kernel
  rw [hspace'] at hsize
  exact ⟨hnever, space, hspace, hspace', of_decide_eq_true hsize⟩

end GuardFinder

import GuardFinder.Proofs.Inspections

/-!
# One analysis after the other

An analysis that has been used before finds what a new one finds. Detectors forget what a run has
left, hooks are set anew, taints start afresh; what stays is the numbering of results, and two
explorations that differ only in that run in lockstep and end in the same findings.

* `Analysis.Alike`: analyses that differ only in the numbers they start with.
  `Analysis.Alike.explored`: they explore alike.
* `Analysis.outcome_afterAll`: **the outcome of a run does not depend on earlier ones**.
-/

namespace GuardFinder

namespace Explorer

/-- An exploration changes no more of its explorer than how many results have been numbered. -/
theorem explorer_explore {σ : Type} (x : Explorer) (observer : Observer σ) (target : Target)
    (watch : σ × Ledger) :
    ∃ n, (x.explore observer target watch).explorer = { x with havocs := n } := by
  unfold explore
  cases target with
  | deployed => exact ⟨_, rfl⟩
  | creation =>
    simp only
    split
    · exact ⟨_, rfl⟩
    · split <;> exact ⟨_, rfl⟩

end Explorer

namespace Analysis

/-- Analyses that a run starts from in the same way, but for the numbers of results. Their clocks
stand still at the same time. -/
structure Alike (a b : Analysis) : Prop where
  oracle : b.oracle = a.oracle
  limits : b.explorer.limits = a.explorer.limits
  clock : ∀ g h, b.explorer.clock h = a.explorer.clock g
  reset : b.registry.reset = a.registry.reset

variable {a b : Analysis}

theorem Alike.explorer_prepare (h : a.Alike b) :
    b.prepare.explorer = { a.prepare.explorer with havocs := b.explorer.havocs } := by
  have hclear : b.explorer.clearHooks =
      { a.explorer.clearHooks with havocs := b.explorer.havocs } := by
    simp only [Explorer.clearHooks, h.limits, funext fun g => h.clock g g]
  simp only [prepare, h.reset, hclear, Explorer.foldl_register_havocs]

/-- Such analyses explore a target in the same way. -/
theorem Alike.explored (h : a.Alike b) (hnew : a.explorer.havocs = 0) (target : Target) :
    ∃ space, (a.explored target).result = .ok space ∧
      (b.explored target).result = .ok (space.renumber b.explorer.havocs) ∧
      (b.explored target).watch.1 = (a.explored target).watch.1 := by
  have hregistry : b.prepare.registry = a.prepare.registry := h.reset
  have hhavocs : a.prepare.explorer.havocs = 0 :=
    (Explorer.havocs_foldl_register _ _).trans hnew
  have hbegin (entry : String) (r : Registry) :
      (Progress.begin entry {} { havocs := a.prepare.explorer.havocs }).Renumbered
          b.explorer.havocs (.begin entry {} { havocs := b.explorer.havocs }) ∧
        (r, (∅ : Taints)) = (r, ∅) := by
    refine ⟨?_, rfl⟩
    have hbegin :=
      Progress.relocated_begin {} (.shift b.explorer.havocs) 0 b.explorer.havocs entry {} {}
    rw [hhavocs]
    simpa [StateSpace.behind, Supply.raise] using hbegin
  have hlate (g g' : Progress) : a.prepare.explorer.late g' = a.prepare.explorer.late g := by
    rw [Explorer.late, Explorer.late, clock_prepare, ← h.clock g' g, h.clock g]
  have hserves := And.intro a.serves_prepare a.registry.reset_reset
  have hfollows : ∀ code,
      (({ a.prepare.explorer with havocs := b.explorer.havocs } : Explorer).setting
        Registry.observer code).Follows Registry.react _ := a.follows_prepare
  obtain ⟨-, -, g, g', hg, hg', hrel, hwatch⟩ := Explorer.explore_lockstep
    a.follows_prepare hfollows rfl (fun g g' _ _ _ => hlate g g')
    (fun code => lockstep_renumbered (a.prepare.explorer.setting Registry.observer code)
      Registry.react b.explorer.havocs)
    target
    (a.prepare.registry,
      { log := .starting a.prepare.registry.detectors.length :: a.prepare.log })
    (a.prepare.registry,
      { log := .starting a.prepare.registry.detectors.length :: b.prepare.log })
    hserves hserves (fun entry => hbegin entry _)
  refine ⟨g.space, hg, ?_, ?_⟩
  · rw [← hrel.space_eq, Analysis.explored, h.explorer_prepare, hregistry]
    exact hg'
  · rw [Analysis.explored, h.explorer_prepare, hregistry]
    exact (Prod.mk.inj hwatch).1

/-- **Such analyses come to the same.** -/
theorem Alike.outcome (h : a.Alike b) (ho : a.oracle.Blind) (hnew : a.explorer.havocs = 0)
    (target : Target) (reader : Option StorageReader) :
    b.outcome target reader = a.outcome target reader := by
  obtain ⟨space, ha, hb, hwatch⟩ := h.explored hnew target
  obtain ⟨_, ha', hspace⟩ := (a.explored_succeeds target).space
  obtain ⟨_, hb', hspace'⟩ := (b.explored_succeeds target).space
  cases ha.symm.trans ha'
  cases hb.symm.trans hb'
  rw [outcome_eq ho ha hspace, outcome_eq (h.oracle ▸ ho) hb hspace', hwatch, h.oracle,
    Registry.inspected_renumber ho hspace]

/-- A run leaves an analysis that later runs start from in the same way. -/
theorem Alike.after (h : a.Alike b) (ho : a.oracle.Blind) (target : Target)
    (reader : Option StorageReader) : a.Alike (b.after target reader) := by
  have ho' : b.oracle.Blind := h.oracle ▸ ho
  have hexplored := b.explored_succeeds target
  obtain ⟨space, hresult, hspace⟩ := hexplored.space
  obtain ⟨log, hafter⟩ := after_eq ho' hresult hspace reader
  rw [hafter]
  obtain ⟨n, hexplorer⟩ :
      ∃ n, (b.explored target).explorer = { b.prepare.explorer with havocs := n } :=
    Explorer.explorer_explore ..
  refine ⟨h.oracle, ?_, fun g g' => ?_, ?_⟩
  · rw [hexplorer]
    exact (limits_prepare b).trans h.limits
  · rw [hexplorer]
    exact (congrFun (clock_prepare b) g').trans (h.clock g g')
  · calc ((b.explored target).watch.1.inspected b.oracle space).reset
      _ = (b.explored target).watch.1.reset := Registry.reset_inspected ho' hspace _
      _ = b.registry.reset := hexplored.kept.2
      _ = a.registry.reset := h.reset

/-- The analysis after several runs, whatever they came to. -/
def afterAll (a : Analysis) (runs : List (Target × Option StorageReader)) : Analysis :=
  runs.foldl (fun a (target, reader) => a.after target reader) a

theorem Alike.afterAll (h : a.Alike b) (ho : a.oracle.Blind)
    (runs : List (Target × Option StorageReader)) : a.Alike (b.afterAll runs) := by
  induction runs generalizing b with
  | nil => exact h
  | cons run rest ih => exact ih (h.after ho run.1 run.2)

/-- **Runs do not depend on earlier ones.** After any runs, on any targets, with or without readers
of storage and whether they ended with a report or with an error, an analysis reports what a new one
with the same settings and detectors reports, or fails with the same error. -/
theorem outcome_afterAll (s : Settings) (r : Registry)
    (earlier : List (Target × Option StorageReader)) (target : Target)
    (reader : Option StorageReader) :
    ((new s r).afterAll earlier).outcome target reader = (new s r).outcome target reader := by
  have ho : (new s r).oracle.Blind := Oracle.blind_structural s.solverTimeout
  have halike : (new s r).Alike ((new s r).afterAll earlier) :=
    Alike.afterAll ⟨rfl, rfl, fun _ _ => rfl, rfl⟩ ho earlier
  exact halike.outcome ho rfl target reader

end Analysis

end GuardFinder

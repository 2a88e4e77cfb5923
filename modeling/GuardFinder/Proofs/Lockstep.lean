import GuardFinder.Proofs.Safety
import GuardFinder.Proofs.Separation
import Mathlib.Data.List.Forall2

/-!
# Explorations in lockstep

Two explorations that are compared take the same steps, so that a relation between them that every
step keeps holds at their ends. What observers make of a step is said without their logs, by the
way their subscribers react to sights.

* `Setting.Follows`: an observer whose subscribers react in a given way, and do not fail.
* `Lockstep`: a relation between two explorations and their observers that all steps keep.
* `runPaths_lockstep`, `Explorer.explore_lockstep`: **it holds at the ends**, and both
  explorations end with a state space.
-/

namespace GuardFinder

/-! ### Observers without their logs -/

/-- How a subscriber reacts to what it sees. -/
abbrev Reaction (σ : Type) := Nat → Sight → σ × Taints → σ × Taints

/-- The state of an observer and the taints. -/
def withoutLog {σ : Type} (watch : σ × Ledger) : σ × Taints := (watch.1, watch.2.taints)

/-- What a computation is sure to end with, it has ended with. -/
theorem of_ok {ε σ : Type} {result : EStateM.Result ε σ Unit} {Q : σ → Prop} {s : σ}
    (h : ∃ s, result = .ok () s ∧ Q s) (hs : result = .ok () s) : Q s := by
  obtain ⟨s', hs', hQ⟩ := h
  rw [hs] at hs'
  cases hs'
  exact hQ

namespace Setting

variable {σ : Type} {x : Setting σ} {react : Reaction σ} {P : σ → Prop}

/-- What becomes of an observer and of the taints when a signal is passed on. -/
def hear (x : Setting σ) (react : Reaction σ) (s : σ × Taints) : Signal → σ × Taints
  | .event op e => (x.subscribers e.phase op).foldl (fun s i => react i e.sight s) s
  | .inherit i => (s.1, s.2.inherit i)
  | .message _ => s

/-- What becomes of them when signals are passed on in their order. -/
def hearAll (x : Setting σ) (react : Reaction σ) (s : σ × Taints) (signals : List Signal) :
    σ × Taints :=
  signals.foldl (x.hear react) s

/-- The subscribers of an observer react in the given way to all that an exploration can tell them,
while the state of the observer has a property that it keeps. -/
def Follows (x : Setting σ) (react : Reaction σ) (P : σ → Prop) : Prop :=
  ∀ ⦃op : Opcode⦄ ⦃e : Event⦄, e.About op → ∀ i ∈ x.subscribers e.phase op,
    ∀ watch, P watch.1 → ∃ watch', x.observer.notify i e watch = .ok () watch' ∧
      withoutLog watch' = react i e.sight (withoutLog watch) ∧ P watch'.1

theorem Follows.reliable (h : x.Follows react P) : x.Reliable P := by
  intro op e he i hi watch hwatch
  obtain ⟨watch', hrun, -, hkept⟩ := h he i hi watch hwatch
  exact ⟨watch', hrun, hkept⟩

/-- A property that subscribers keep while they react so may be added. -/
theorem Follows.and (h : x.Follows react P) {Q : σ → Prop}
    (hQ : ∀ ⦃op : Opcode⦄ ⦃e : Event⦄, ∀ i ∈ x.subscribers e.phase op, ∀ v τ, P v → Q v →
      Q (react i e.sight (v, τ)).1) :
    x.Follows react fun v => P v ∧ Q v := by
  rintro op e he i hi watch ⟨hP, hwatch⟩
  obtain ⟨watch', hrun, hreact, hP'⟩ := h he i hi watch hP
  refine ⟨watch', hrun, hreact, hP', ?_⟩
  have heq : watch'.1 = (react i e.sight (withoutLog watch)).1 := congrArg Prod.fst hreact
  rw [heq]
  exact hQ i hi _ _ hP hwatch

theorem Follows.notifyAll (h : x.Follows react P) {op : Opcode} {e : Event} (he : e.About op)
    (subscribers : List Nat) (hmem : ∀ i ∈ subscribers, i ∈ x.subscribers e.phase op)
    (watch : σ × Ledger) (hwatch : P watch.1) :
    ∃ watch', x.notifyAll e subscribers watch = .ok () watch' ∧
      withoutLog watch' = subscribers.foldl (fun s i => react i e.sight s) (withoutLog watch) ∧
      P watch'.1 := by
  induction subscribers generalizing watch with
  | nil => exact ⟨watch, rfl, rfl, hwatch⟩
  | cons i rest ih =>
    obtain ⟨watch₁, hrun₁, hsee₁, hkept₁⟩ := h he i (hmem i List.mem_cons_self) watch hwatch
    obtain ⟨watch₂, hrun₂, hsee₂, hkept₂⟩ :=
      ih (fun j hj => hmem j (List.mem_cons_of_mem _ hj)) watch₁ hkept₁
    refine ⟨watch₂, ?_, by rw [hsee₂, hsee₁]; rfl, hkept₂⟩
    show (x.observer.notify i e >>= fun _ => x.notifyAll e rest) watch = _
    rw [bind_run, hrun₁]
    exact hrun₂

theorem Follows.play (h : x.Follows react P) {signal : Signal} (hsound : signal.Sound)
    (watch : σ × Ledger) (hwatch : P watch.1) :
    ∃ watch', x.play signal watch = .ok () watch' ∧
      withoutLog watch' = x.hear react (withoutLog watch) signal ∧ P watch'.1 := by
  cases signal with
  | inherit i => exact ⟨_, rfl, rfl, hwatch⟩
  | message m => exact ⟨_, rfl, rfl, hwatch⟩
  | event op e => exact h.notifyAll hsound _ (fun _ hi => hi) watch hwatch

theorem Follows.playAll (h : x.Follows react P) (signals : List Signal)
    (hsound : ∀ signal ∈ signals, signal.Sound) (watch : σ × Ledger) (hwatch : P watch.1) :
    ∃ watch', x.playAll signals watch = .ok () watch' ∧
      withoutLog watch' = x.hearAll react (withoutLog watch) signals ∧ P watch'.1 := by
  induction signals generalizing watch with
  | nil => exact ⟨watch, rfl, rfl, hwatch⟩
  | cons signal rest ih =>
    obtain ⟨watch₁, hrun₁, hsee₁, hkept₁⟩ :=
      h.play (hsound signal List.mem_cons_self) watch hwatch
    obtain ⟨watch₂, hrun₂, hsee₂, hkept₂⟩ :=
      ih (fun s hs => hsound s (List.mem_cons_of_mem _ hs)) watch₁ hkept₁
    refine ⟨watch₂, ?_, by rw [hsee₂, hsee₁]; rfl, hkept₂⟩
    show (x.play signal >>= fun _ => x.playAll rest) watch = _
    rw [bind_run, hrun₁]
    exact hrun₂

end Setting

/-! ### Runs, case by case -/

/-- The time is never over. -/
def Setting.InTime {σ : Type} (x : Setting σ) : Prop := ∀ g, x.clock g < x.limits.seconds

theorem Setting.InTime.not_late {σ : Type} {x : Setting σ} (h : x.InTime) (g : Progress) :
    ¬x.late g = true :=
  fun hlate => Nat.not_le.mpr (h g) (of_decide_eq_true hlate)

namespace Explorer

@[inherit_doc Setting.late]
def late (x : Explorer) (g : Progress) : Bool := x.limits.seconds ≤ x.clock g

@[inherit_doc Setting.InTime]
def InTime (x : Explorer) : Prop := ∀ g, x.clock g < x.limits.seconds

theorem InTime.setting {σ : Type} {x : Explorer} (h : x.InTime) (observer : Observer σ)
    (code : Bytes) : (x.setting observer code).InTime := h

theorem InTime.late {x : Explorer} (h : x.InTime) (g : Progress) : x.late g = false :=
  decide_eq_false (Nat.not_le.mpr (h g))

end Explorer

namespace Progress

/-- What the step of a path tells, from the event before the instruction on. -/
def signals (program : Program) (limits : Limits) (g : Progress) (p : Path) (ins : Instruction) :
    List Signal :=
  .event ins.opcode ⟨.pre, p.view ins, p.lastFrame⟩ ::
    (stepAt program limits g.space g.supply p ins).signals

/-- Where an exploration stands after the step of a path, with the other paths. -/
def stepped (program : Program) (limits : Limits) (g : Progress) (p : Path) (ps : List Path)
    (ins : Instruction) : Progress where
  paths := (stepAt program limits g.space g.supply p ins).paths ++ ps
  space := (stepAt program limits g.space g.supply p ins).space
  supply := (stepAt program limits g.space g.supply p ins).supply
  returned := g.returned.or (stepAt program limits g.space g.supply p ins).returned

theorem sound_signals {program : Program} {limits : Limits} (g : Progress) {p : Path}
    {ins : Instruction} (hf : fitsStack ins.opcode p.stack = true) :
    ∀ signal ∈ g.signals program limits p ins, signal.Sound := by
  intro signal hsignal
  rcases List.mem_cons.mp hsignal with rfl | hsignal
  · exact .pre rfl (pops_le_of_fitsStack hf)
  · exact sound_stepAt program limits g.space g.supply hf signal hsignal

theorem advance_stepped {program : Program} {limits : Limits} {g : Progress} {p : Path}
    {ps : List Path} {ins : Instruction} (hp : g.paths = p :: ps)
    (hi : program.at? p.pc = some ins) (hf : fitsStack ins.opcode p.stack = true) :
    Advance program limits g (g.stepped program limits p ps ins) :=
  advance_stepAt hp hi hf rfl

end Progress

section

variable {σ : Type} {x : Setting σ} {g : Progress} {p : Path} {ps : List Path} {ins : Instruction}
  {watch watch₁ watch₂ : σ × Ledger}

theorem runPaths_of_nil (hp : g.paths = []) :
    runPaths x g watch = { progress := g, watch } := by
  rw [runPaths]
  split
  · rfl
  · next hp' => simp [hp] at hp'

theorem runPaths_of_late (hp : g.paths = p :: ps) (hs : x.late g = true) :
    runPaths x g watch =
      { progress := g.cutShort
        watch := (watch.1, watch.2.say (.timedOut x.limits.seconds)) } := by
  rw [runPaths]
  split
  · next hp' => simp [hp] at hp'
  · simp [hs, Progress.cutShort]

/-- **One turn of a run that has time**, in which its first path goes on. -/
theorem runPaths_cons (hp : g.paths = p :: ps) (hs : ¬x.late g = true) :
    runPaths x g watch =
      match x.program.at? p.pc with
      | none => runPaths x { g with paths := ps } watch
      | some ins =>
        if fitsStack ins.opcode p.stack then
          match x.play (.event ins.opcode ⟨.pre, p.view ins, p.lastFrame⟩) watch with
          | .error failure watch => { progress := g, watch, failure := some failure }
          | .ok _ watch =>
            match x.playAll (stepAt x.program x.limits g.space g.supply p ins).signals watch with
            | .error failure watch =>
              { progress := g.stepped x.program x.limits p ps ins, watch, failure := some failure }
            | .ok _ watch => runPaths x (g.stepped x.program x.limits p ps ins) watch
        else runPaths x { g with paths := ps } (watch.1, watch.2.say (.stackBounds ins)) := by
  rw [runPaths]
  split
  · next hp' => simp [hp] at hp'
  · next hp' =>
    obtain ⟨rfl, rfl⟩ := List.cons.inj (hp.symm.trans hp')
    rw [if_neg hs]
    split
    · next hi => rw [hi]
    · next hi =>
      rw [hi]
      rfl

theorem runPaths_of_ended (hp : g.paths = p :: ps) (hs : ¬x.late g = true)
    (hi : x.program.at? p.pc = none) :
    runPaths x g watch = runPaths x { g with paths := ps } watch := by
  rw [runPaths_cons hp hs, hi]

theorem runPaths_of_unfit (hp : g.paths = p :: ps) (hs : ¬x.late g = true)
    (hi : x.program.at? p.pc = some ins) (hf : ¬fitsStack ins.opcode p.stack = true) :
    runPaths x g watch =
      runPaths x { g with paths := ps } (watch.1, watch.2.say (.stackBounds ins)) := by
  rw [runPaths_cons hp hs, hi]
  exact if_neg hf

section

variable (hp : g.paths = p :: ps) (hs : ¬x.late g = true) (hi : x.program.at? p.pc = some ins)
  (hf : fitsStack ins.opcode p.stack = true)
include hp hs hi hf

theorem runPaths_of_step
    (hplay : x.playAll (g.signals x.program x.limits p ins) watch = .ok () watch₂) :
    runPaths x g watch = runPaths x (g.stepped x.program x.limits p ps ins) watch₂ := by
  rw [runPaths_cons hp hs, hi]
  simp only [Progress.signals, Setting.playAll, bind_run] at hplay
  simp only [hf, if_true]
  split at hplay
  · next hrun =>
    rw [hrun]
    dsimp only
    rw [hplay]
  · cases hplay

/-- A run ends with the failure of an observer. -/
theorem failure_runPaths {failure : AnalysisError}
    (hplay : x.playAll (g.signals x.program x.limits p ins) watch = .error failure watch₂) :
    (runPaths x g watch).failure = some failure := by
  rw [runPaths_cons hp hs, hi]
  simp only [Progress.signals, Setting.playAll, bind_run] at hplay
  simp only [hf, if_true]
  split at hplay
  · next hrun =>
    rw [hrun]
    dsimp only
    rw [hplay]
  · next hrun =>
    cases hplay
    rw [hrun]

end

end

/-! ### Two explorations -/

/-- A relation between two explorations and what watches them that is kept when both go on. -/
structure Lockstep {α β : Type} (limits : Limits) (hear₁ : α → Signal → α)
    (hear₂ : β → Signal → β) (R : Progress → Progress → α → β → Prop) : Prop where
  /-- The paths are at the same instructions, with equally high stacks. -/
  heads : ∀ ⦃g h a b⦄, R g h a b →
    List.Forall₂ (fun p q : Path => p.pc = q.pc ∧ p.stack.length = q.stack.length) g.paths h.paths
  returned : ∀ ⦃g h a b⦄, R g h a b → g.returned = h.returned
  drop : ∀ ⦃g h a b p q ps qs⦄, g.paths = p :: ps → h.paths = q :: qs → R g h a b →
    R { g with paths := ps } { h with paths := qs } a b
  step : ∀ ⦃program : Program⦄ ⦃g h a b p q ps qs ins⦄, g.paths = p :: ps → h.paths = q :: qs →
    program.at? p.pc = some ins → fitsStack ins.opcode p.stack = true → R g h a b →
    R (g.stepped program limits p ps ins) (h.stepped program limits q qs ins)
      ((g.signals program limits p ins).foldl hear₁ a)
      ((h.signals program limits q ins).foldl hear₂ b)
  cut : ∀ ⦃g h a b⦄, R g h a b → R g.cutShort h.cutShort a b
  begin : ∀ ⦃g h a b⦄ (entry : String), R g h a b →
    R (.begin entry g.space g.supply) (.begin entry h.space h.supply) a b

/-- Explorations of the same code go on in the same way, and so do those who watch them if what
they hear of it keeps them related. -/
theorem lockstep_same {α β : Type} {hear₁ : α → Signal → α} {hear₂ : β → Signal → β}
    {Q : α → β → Prop}
    (hQ : ∀ a b signal, signal.Sound → Q a b → Q (hear₁ a signal) (hear₂ b signal))
    (limits : Limits) : Lockstep limits hear₁ hear₂ fun g g' a b => g' = g ∧ Q a b where
  heads := by
    rintro _ g a b ⟨rfl, -⟩
    exact List.forall₂_same.mpr fun p _ => ⟨rfl, rfl⟩
  returned := by
    rintro _ g a b ⟨rfl, -⟩
    rfl
  drop := by
    rintro _ g a b p q ps qs hp hq ⟨rfl, h⟩
    obtain ⟨rfl, rfl⟩ := List.cons.inj (hp.symm.trans hq)
    exact ⟨rfl, h⟩
  step := by
    rintro program _ g a b p q ps qs ins hp hq hi hf ⟨rfl, h⟩
    obtain ⟨rfl, rfl⟩ := List.cons.inj (hp.symm.trans hq)
    exact ⟨rfl, List.foldl_rel h fun signal hsignal a b =>
      hQ a b signal (Progress.sound_signals _ hf signal hsignal)⟩
  cut := by
    rintro _ g a b ⟨rfl, h⟩
    exact ⟨rfl, h⟩
  begin := by
    rintro _ g a b entry ⟨rfl, h⟩
    exact ⟨rfl, h⟩

/-- Two runs that no failure ended, with a relation between them. -/
structure RunEnd.Related {σ₁ σ₂ : Type} (P₁ : σ₁ → Prop) (P₂ : σ₂ → Prop)
    (R : Progress → Progress → σ₁ × Taints → σ₂ × Taints → Prop) (e₁ : RunEnd σ₁)
    (e₂ : RunEnd σ₂) : Prop where
  failure₁ : e₁.failure = none
  failure₂ : e₂.failure = none
  kept₁ : P₁ e₁.watch.1
  kept₂ : P₂ e₂.watch.1
  related : R e₁.progress e₂.progress (withoutLog e₁.watch) (withoutLog e₂.watch)

section

variable {σ₁ σ₂ : Type} {P₁ : σ₁ → Prop} {P₂ : σ₂ → Prop} {react₁ : Reaction σ₁}
  {react₂ : Reaction σ₂} {R : Progress → Progress → σ₁ × Taints → σ₂ × Taints → Prop}

theorem Setting.Follows.step {σ : Type} {x : Setting σ} {react : Reaction σ} {P : σ → Prop}
    (h : x.Follows react P) {p : Path} {ins : Instruction}
    (hf : fitsStack ins.opcode p.stack = true) (g : Progress) (watch : σ × Ledger)
    (hwatch : P watch.1) :
    ∃ watch', x.playAll (g.signals x.program x.limits p ins) watch = .ok () watch' ∧
      withoutLog watch' =
        (g.signals x.program x.limits p ins).foldl (x.hear react) (withoutLog watch) ∧
      P watch'.1 :=
  h.playAll _ (g.sound_signals hf) watch hwatch

/-- **Runs in lockstep end in a related way.** -/
theorem runPaths_lockstep {x₁ : Setting σ₁} {x₂ : Setting σ₂} (hx₁ : x₁.Follows react₁ P₁)
    (hx₂ : x₂.Follows react₂ P₂) (hprogram : x₂.program = x₁.program)
    (hlimits : x₂.limits = x₁.limits)
    (hlate : ∀ ⦃g h a b⦄, R g h a b → x₂.late h = x₁.late g)
    (hR : Lockstep x₁.limits (x₁.hear react₁) (x₂.hear react₂) R) (g h : Progress)
    (w₁ : σ₁ × Ledger) (w₂ : σ₂ × Ledger) (h₁ : P₁ w₁.1) (h₂ : P₂ w₂.1)
    (hrel : R g h (withoutLog w₁) (withoutLog w₂)) :
    (runPaths x₁ g w₁).Related P₁ P₂ R (runPaths x₂ h w₂) := by
  have hheads := hR.heads hrel
  fun_induction runPaths x₁ g w₁ generalizing h w₂ with
  | case1 g w₁ hp =>
    rw [hp] at hheads
    rw [runPaths_of_nil (List.forall₂_nil_left_iff.mp hheads)]
    exact ⟨rfl, rfl, h₁, h₂, hrel⟩
  | case2 g w₁ p ps hp hs =>
    rw [hp] at hheads
    obtain ⟨q, qs, -, -, hq⟩ := List.forall₂_cons_left_iff.mp hheads
    rw [runPaths_of_late hq (hlate hrel ▸ hs)]
    exact ⟨rfl, rfl, h₁, h₂, hR.cut hrel⟩
  | case3 g w₁ p ps hp hs hi ih =>
    rw [hp] at hheads
    obtain ⟨q, qs, ⟨hpc, -⟩, -, hq⟩ := List.forall₂_cons_left_iff.mp hheads
    rw [runPaths_of_ended hq (hlate hrel ▸ hs) (by rw [hprogram, ← hpc, hi])]
    have hrel' := hR.drop hp hq hrel
    exact ih _ _ h₁ h₂ hrel' (hR.heads hrel')
  | case4 g w₁ p ps hp hs ins hi hf event failure w₁' hplay =>
    obtain ⟨_, hrun, -⟩ := hx₁.step hf g w₁ h₁
    simp only [Progress.signals, Setting.playAll, bind_run] at hrun
    rw [hplay] at hrun
    cases hrun
  | case5 g w₁ p ps hp hs ins hi hf event _ w₁' hplay space supply paths returned signals hstep g'
      failure w₁'' hplayAll =>
    obtain ⟨_, hrun, -⟩ := hx₁.step hf g w₁ h₁
    simp only [Progress.signals, Setting.playAll, bind_run, hstep] at hrun
    rw [hplay] at hrun
    simp only [hplayAll] at hrun
    cases hrun
  | case6 g w₁ p ps hp hs ins hi hf event _ w₁' hplay space supply paths returned signals hstep g'
      _ w₁'' hplayAll ih =>
    obtain ⟨_, hrun, hsee₁, hkept₁⟩ := hx₁.step hf g w₁ h₁
    simp only [Progress.signals, Setting.playAll, bind_run, hstep] at hrun
    rw [hplay] at hrun
    simp only [hplayAll] at hrun
    cases hrun
    rw [hp] at hheads
    obtain ⟨q, qs, ⟨hpc, hheight⟩, -, hq⟩ := List.forall₂_cons_left_iff.mp hheads
    have hf' : fitsStack ins.opcode q.stack = true := by
      rw [fitsStack, ← hheight]
      exact hf
    obtain ⟨w₂', hrun₂, hsee₂, hkept₂⟩ := hx₂.step hf' h w₂ h₂
    rw [runPaths_of_step hq (hlate hrel ▸ hs) (by rw [hprogram, ← hpc, hi]) hf' hrun₂]
    rw [hprogram, hlimits] at hsee₂ ⊢
    have hrel' := hR.step hp hq hi hf hrel
    have hg' : g.stepped x₁.program x₁.limits p ps ins = g' := by
      simp only [Progress.stepped, hstep]
      rfl
    rw [← hsee₁, ← hsee₂, hg'] at hrel'
    exact ih _ _ hkept₁ hkept₂ hrel' (hR.heads hrel')
  | case7 g w₁ p ps hp hs ins hi hf ih =>
    rw [hp] at hheads
    obtain ⟨q, qs, ⟨hpc, hheight⟩, -, hq⟩ := List.forall₂_cons_left_iff.mp hheads
    have hf' : ¬fitsStack ins.opcode q.stack = true := by
      rw [fitsStack, ← hheight]
      exact hf
    rw [runPaths_of_unfit hq (hlate hrel ▸ hs) (by rw [hprogram, ← hpc, hi]) hf']
    have hrel' := hR.drop hp hq hrel
    exact ih _ _ h₁ h₂ hrel' (hR.heads hrel')

/-- Two explorations that ended with state spaces, with a relation between them. -/
structure Exploration.Related (P₁ : σ₁ → Prop) (P₂ : σ₂ → Prop)
    (R : Progress → Progress → σ₁ × Taints → σ₂ × Taints → Prop) (e₁ : Exploration σ₁)
    (e₂ : Exploration σ₂) : Prop where
  kept₁ : P₁ e₁.watch.1
  kept₂ : P₂ e₂.watch.1
  related : ∃ g h, e₁.result = .ok g.space ∧ e₂.result = .ok h.space ∧
    R g h (withoutLog e₁.watch) (withoutLog e₂.watch)

namespace Explorer

theorem related_finish (x₁ x₂ : Explorer) {e₁ : RunEnd σ₁} {e₂ : RunEnd σ₂}
    (h : e₁.Related P₁ P₂ R e₂) : (x₁.finish e₁).Related P₁ P₂ R (x₂.finish e₂) where
  kept₁ := h.kept₁
  kept₂ := h.kept₂
  related := by
    refine ⟨e₁.progress, e₂.progress, ?_, ?_, h.related⟩
    · simp only [finish, h.failure₁]
    · simp only [finish, h.failure₂]

/-- **Explorations in lockstep end in a related way**, also those of the code that creation code
returned. -/
theorem explore_lockstep {x₁ x₂ : Explorer} {observer₁ : Observer σ₁} {observer₂ : Observer σ₂}
    (hx₁ : ∀ code, (x₁.setting observer₁ code).Follows react₁ P₁)
    (hx₂ : ∀ code, (x₂.setting observer₂ code).Follows react₂ P₂)
    (hlimits : x₂.limits = x₁.limits)
    (hlate : ∀ ⦃g h a b⦄, R g h a b → x₂.late h = x₁.late g)
    (hR : ∀ code, Lockstep x₁.limits ((x₁.setting observer₁ code).hear react₁)
      ((x₂.setting observer₂ code).hear react₂) R)
    (target : Target) (w₁ : σ₁ × Ledger) (w₂ : σ₂ × Ledger) (h₁ : P₁ w₁.1) (h₂ : P₂ w₂.1)
    (hrel : ∀ entry, R (.begin entry {} { havocs := x₁.havocs })
      (.begin entry {} { havocs := x₂.havocs }) (w₁.1, ∅) (w₂.1, ∅)) :
    (x₁.explore observer₁ target w₁).Related P₁ P₂ R (x₂.explore observer₂ target w₂) := by
  have hrun (code : Bytes) (g h : Progress) (w₁ : σ₁ × Ledger) (w₂ : σ₂ × Ledger) (h₁ : P₁ w₁.1)
      (h₂ : P₂ w₂.1) (hrel : R g h (withoutLog w₁) (withoutLog w₂)) :
      (runPaths (x₁.setting observer₁ code) g w₁).Related P₁ P₂ R
        (runPaths (x₂.setting observer₂ code) h w₂) :=
    runPaths_lockstep (hx₁ code) (hx₂ code) rfl hlimits hlate (hR code) g h w₁ w₂ h₁ h₂ hrel
  cases target with
  | deployed address code =>
    exact related_finish x₁ x₂ (hrun code _ _ (w₁.1, { w₁.2 with taints := ∅ })
      (w₂.1, { w₂.2 with taints := ∅ }) h₁ h₂ (hrel fallbackName))
  | creation code =>
    have hcreated : (transaction (x₁.setting observer₁ code) constructorName {}
          { havocs := x₁.havocs } (w₁.1, { w₁.2 with taints := ∅ })).Related P₁ P₂ R
        (transaction (x₂.setting observer₂ code) constructorName {}
          { havocs := x₂.havocs } (w₂.1, { w₂.2 with taints := ∅ })) :=
      hrun code _ _ _ _ h₁ h₂ (hrel constructorName)
    simp only [explore, hcreated.failure₁, hcreated.failure₂,
      ← (hR code).returned hcreated.related]
    split
    · exact related_finish x₁ x₂ (hrun _ _ _ _ _ hcreated.kept₁ hcreated.kept₂
        ((hR code).begin fallbackName hcreated.related))
    · exact related_finish x₁ x₂ ⟨rfl, rfl, hcreated.kept₁, hcreated.kept₂, hcreated.related⟩

end Explorer

end

/-! ### Detectors -/

namespace Registry

/-- How a detector of a registry reacts to what it sees. -/
def react : Reaction Registry := fun i sight s =>
  match s.1.detectors[i]? with
  | none => s
  | some d => (⟨s.1.detectors.set i (d.after s.2 sight)⟩, s.2.editAll (d.edits s.2 sight))

theorem map_set {α : Type} {g : Detector → α} {r : Registry} {i : Nat} {d d' : Detector}
    (hd : r.detectors[i]? = some d) (h : g d' = g d) :
    (r.detectors.set i d').map g = r.detectors.map g := by
  obtain ⟨hi, rfl⟩ := List.getElem?_eq_some_iff.mp hd
  have hi' : i < (r.detectors.map g).length := by rwa [List.length_map]
  have hplace : g d' = (r.detectors.map g).get ⟨i, hi'⟩ := by
    rw [h, List.get_eq_getElem, List.getElem_map]
  rw [List.map_set, hplace, List.get_eq_getElem, List.set_getElem_self]

/-- A detector may be replaced by one that forgets down to the same. -/
theorem reset_set {r : Registry} {i : Nat} {d d' : Detector} (hd : r.detectors[i]? = some d)
    (hreset : d'.reset = d.reset) : (Registry.mk (r.detectors.set i d')).reset = r.reset :=
  congrArg Registry.mk (map_set hd hreset)

/-- Detectors with their own hooks react to what they see. What is left of them between runs never
changes. -/
theorem follows_setting (x : Explorer) (code : Bytes) (r₀ : Registry) :
    (x.setting observer code).Follows react fun r => r.Serves x.hooks ∧ r.reset = r₀.reset := by
  rintro op e he i hi ⟨r, l⟩ ⟨hserves, hreset⟩
  obtain ⟨d, hd, hwish⟩ := hserves _ (mem_hooks_of_mem_subscribers hi)
  obtain ⟨found, log, hrun⟩ := Detector.execute_eq he hwish l
  refine ⟨(⟨r.detectors.set i (d.after l.taints e.sight)⟩,
    { l with taints := l.taints.editAll (d.edits l.taints e.sight), log }), ?_, ?_, ?_, ?_⟩
  · simp only [Explorer.setting, observer, dispatch, hd, hrun]
  · simp only [react, withoutLog, hd]
  · exact hserves.set hd (Detector.wishes_after ..)
  · exact (reset_set hd (Detector.reset_after ..)).trans hreset

end Registry

end GuardFinder

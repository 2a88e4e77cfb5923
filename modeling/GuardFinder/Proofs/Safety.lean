import GuardFinder.Proofs.Hooks
import Mathlib.Data.List.Nodup

/-!
# Analyses never fail

Whatever is analysed, with whatever settings and detectors, there is a report. An exploration tells
its subscribers only of instructions that they asked for, and shows them what these take and leave;
a detector answers each subscription; and the frames that are looked through afterwards have the
operands of their instructions.

* `Keeps`: a step of an observer that succeeds and keeps a property of the observer's state.
* `Setting.Reliable`: an observer that does so on all that an exploration can tell it.
* `runPaths_succeeds`, `Explorer.explore_succeeds`: **explorations before a reliable observer come
  to their end**, and all their frames have operands.
* `Registry.reliable_setting`: detectors with their own hooks are reliable.
* `Setting.mem_subscribers`, `Setting.nodup_subscribers`: who is told, once each.
* `Analysis.execute_reports`: every analysis ends with a report.
-/

namespace GuardFinder

/-! ### Reliable observers -/

section

variable {σ : Type} {x : Setting σ} {P : σ → Prop}

/-- The action succeeds in all states with a property, and the state keeps it. -/
def Keeps (P : σ → Prop) (m : EStateM AnalysisError (σ × Ledger) Unit) : Prop :=
  ∀ watch, P watch.1 → ∃ watch', m watch = .ok () watch' ∧ P watch'.1

theorem keeps_pure : Keeps P (pure ()) := fun watch h => ⟨watch, rfl, h⟩

theorem Keeps.bind {m : EStateM AnalysisError (σ × Ledger) Unit}
    {f : Unit → EStateM AnalysisError (σ × Ledger) Unit} (hm : Keeps P m) (hf : Keeps P (f ())) :
    Keeps P (m >>= f) := by
  intro watch h
  obtain ⟨watch₁, hrun, h₁⟩ := hm watch h
  obtain ⟨watch₂, hrun₂, h₂⟩ := hf watch₁ h₁
  refine ⟨watch₂, ?_, h₂⟩
  show EStateM.bind m f watch = _
  rw [EStateM.bind, hrun]
  exact hrun₂

theorem Keeps.of_ok {m : EStateM AnalysisError (σ × Ledger) Unit} (hm : Keeps P m)
    {watch watch' : σ × Ledger} (h : P watch.1) (hrun : m watch = .ok () watch') : P watch'.1 := by
  obtain ⟨_, hrun', h'⟩ := hm watch h
  cases hrun.symm.trans hrun'
  exact h'

theorem Keeps.not_error {m : EStateM AnalysisError (σ × Ledger) Unit} (hm : Keeps P m)
    {watch watch' : σ × Ledger} (h : P watch.1) (e : AnalysisError) :
    m watch ≠ .error e watch' := by
  obtain ⟨_, hrun', -⟩ := hm watch h
  rw [hrun']
  nofun

namespace Setting

/-- The observer does not fail when its subscribers are told of an instruction that they asked for
and are shown what it takes and leaves. -/
def Reliable (x : Setting σ) (P : σ → Prop) : Prop :=
  ∀ ⦃op : Opcode⦄ ⦃e : Event⦄, e.About op → ∀ i ∈ x.subscribers e.phase op,
    Keeps P (x.observer.notify i e)

theorem keeps_notifyAll {e : Event} (subscribers : List Nat)
    (h : ∀ i ∈ subscribers, Keeps P (x.observer.notify i e)) :
    Keeps P (x.notifyAll e subscribers) := by
  induction subscribers with
  | nil => exact keeps_pure
  | cons i rest ih =>
    exact .bind (h i List.mem_cons_self) (ih fun j hj => h j (List.mem_cons_of_mem _ hj))

theorem Reliable.play (hx : x.Reliable P) {signal : Signal} (hsound : signal.Sound) :
    Keeps P (x.play signal) := by
  cases signal with
  | event op e => exact keeps_notifyAll _ (hx hsound)
  | inherit i => exact fun watch h => ⟨_, rfl, h⟩
  | message m => exact fun watch h => ⟨_, rfl, h⟩

theorem Reliable.playAll (hx : x.Reliable P) (signals : List Signal)
    (hsound : ∀ signal ∈ signals, signal.Sound) : Keeps P (x.playAll signals) := by
  induction signals with
  | nil => exact keeps_pure
  | cons signal rest ih =>
    exact .bind (hx.play (hsound signal List.mem_cons_self))
      (ih fun s hs => hsound s (List.mem_cons_of_mem _ hs))

end Setting

/-! ### Explorations -/

/-- A run that no failure ended, with the property of the observer's state and operands in all
frames. -/
structure RunEnd.Succeeded (P : σ → Prop) (e : RunEnd σ) : Prop where
  failure : e.failure = none
  kept : P e.watch.1
  supported : e.progress.space.Supported

section

variable {p : Path} {ins : Instruction} (hx : x.Reliable P)
  (hf : fitsStack ins.opcode p.stack = true)
include hx hf

theorem Setting.Reliable.keeps_before :
    Keeps P (x.play (.event ins.opcode ⟨.pre, p.view ins, p.lastFrame⟩)) :=
  hx.play (.pre rfl (pops_le_of_fitsStack hf))

theorem Setting.Reliable.keeps_after {s space : StateSpace} {supply supply' : Supply}
    {paths : List Path} {returned : Option Bytes} {signals : List Signal}
    (hstep : stepAt x.program x.limits s supply p ins =
      ⟨space, supply', paths, returned, signals⟩) : Keeps P (x.playAll signals) := by
  have hsound := sound_stepAt x.program x.limits s supply hf
  rw [hstep] at hsound
  exact hx.playAll signals hsound

end

/-- **Runs before a reliable observer come to their end.** -/
theorem runPaths_succeeds (hx : x.Reliable P) (g : Progress) (watch : σ × Ledger)
    (hP : P watch.1) (hg : g.space.Supported) : (runPaths x g watch).Succeeded P := by
  fun_induction runPaths x g watch with
  | case1 g watch hp => exact ⟨rfl, hP, hg⟩
  | case2 g watch p ps hp hs => exact ⟨rfl, hP, hg⟩
  | case3 g watch p ps hp hs hi ih => exact ih hP hg
  -- A run can fail in two places only: where subscribers are told of an instruction before it, and
  -- where they are told after it.
  | case4 g watch p ps hp hs ins hi hf event failure watch' hplay =>
    exact absurd hplay ((hx.keeps_before hf).not_error hP failure)
  | case5 g watch p ps hp hs ins hi hf event _ watch' hplay space supply paths returned signals
      hstep g' failure watch'' hplayAll =>
    have hP' := (hx.keeps_before hf).of_ok hP hplay
    exact absurd hplayAll ((hx.keeps_after hf hstep).not_error hP' failure)
  | case6 g watch p ps hp hs ins hi hf event _ watch' hplay space supply paths returned signals
      hstep g' _ watch'' hplayAll ih =>
    have hP' := (hx.keeps_before hf).of_ok hP hplay
    have hP'' := (hx.keeps_after hf hstep).of_ok hP' hplayAll
    exact ih hP'' (Progress.supported_of_advance (Progress.advance_stepAt hp hi hf hstep) hg)
  | case7 g watch p ps hp hs ins hi hf ih => exact ih hP hg

theorem transaction_succeeds (hx : x.Reliable P) (entry : String) {space : StateSpace}
    (hspace : space.Supported) (supply : Supply) (watch : σ × Ledger) (hP : P watch.1) :
    (transaction x entry space supply watch).Succeeded P :=
  runPaths_succeeds hx _ watch hP (hspace.addNode entry 0 [])

/-- An exploration that ended with a state space, with the property of the observer's state and
operands in all frames. -/
structure Exploration.Succeeded (P : σ → Prop) (e : Exploration σ) : Prop where
  kept : P e.watch.1
  space : ∃ space, e.result = .ok space ∧ space.Supported

namespace Explorer

theorem succeeded_finish (x : Explorer) {e : RunEnd σ} (h : e.Succeeded P) :
    (x.finish e).Succeeded P where
  kept := h.kept
  space := ⟨e.progress.space, by simp only [finish, h.failure], h.supported⟩

/-- **Explorations before a reliable observer come to their end**, also those of the code that
creation code returned. -/
theorem explore_succeeds {x : Explorer} {observer : Observer σ}
    (hx : ∀ code, (x.setting observer code).Reliable P) (target : Target) (watch : σ × Ledger)
    (hP : P watch.1) : (x.explore observer target watch).Succeeded P := by
  cases target with
  | deployed address code =>
    exact x.succeeded_finish (transaction_succeeds (hx code) _ StateSpace.supported_empty _ _ hP)
  | creation code =>
    have hcreated := transaction_succeeds (hx code) constructorName StateSpace.supported_empty
      { havocs := x.havocs } (watch.1, { watch.2 with taints := ∅ }) hP
    simp only [explore, hcreated.failure]
    split
    · exact x.succeeded_finish
        (transaction_succeeds (hx _) _ hcreated.supported _ _ hcreated.kept)
    · exact x.succeeded_finish ⟨rfl, hcreated.kept, hcreated.supported⟩

end Explorer

end

/-! ### Detectors and their hooks -/

namespace Registry

/-- Every hook belongs to a detector that asked for it. -/
def Serves (r : Registry) (hooks : List Hook) : Prop :=
  ∀ hook ∈ hooks, ∃ d, r.detectors[hook.subscriber]? = some d ∧ (hook.phase, hook.opcode) ∈ d.wishes

theorem serves_hooks (r : Registry) : r.Serves (r.hooks.map (·.1)) := by
  intro hook hhook
  obtain ⟨⟨hook, pattern⟩, hmem, rfl⟩ := List.mem_map.mp hhook
  obtain ⟨⟨d, i⟩, hd, hmem⟩ := List.mem_flatMap.mp hmem
  obtain ⟨⟨phase, op⟩, hwish, heq⟩ := List.mem_map.mp hmem
  cases heq
  exact ⟨d, List.mem_zipIdx_iff_getElem?.mp hd, hwish⟩

/-- A detector may be replaced by one that asks for the same events. -/
theorem Serves.set {r : Registry} {hooks : List Hook} (h : r.Serves hooks) {i : Nat}
    {d d' : Detector} (hd : r.detectors[i]? = some d) (hwishes : d'.wishes = d.wishes) :
    Serves ⟨r.detectors.set i d'⟩ hooks := by
  intro hook hhook
  obtain ⟨d₁, hd₁, hwish₁⟩ := h hook hhook
  by_cases hi : i = hook.subscriber
  · subst hi
    obtain rfl := Option.some.inj (hd.symm.trans hd₁)
    refine ⟨d', ?_, hwishes ▸ hwish₁⟩
    rw [List.getElem?_set_self', hd]
    rfl
  · exact ⟨d₁, by rw [List.getElem?_set_ne hi, hd₁], hwish₁⟩

/-- A hook reaches its detector, which does not fail on what it asked for. -/
theorem keeps_dispatch {hooks : List Hook} {op : Opcode} {e : Event} {i : Nat} (he : e.About op)
    (hmem : ⟨e.phase, op, i⟩ ∈ hooks) : Keeps (Serves · hooks) (dispatch i e) := by
  rintro ⟨r, ledger⟩ hserves
  obtain ⟨d, hd, hwish⟩ := hserves _ hmem
  obtain ⟨found, d', ledger', hrun, hwishes⟩ := Detector.safe_execute he hwish ledger
  exact ⟨(⟨r.detectors.set i d'⟩, ledger'), by simp only [dispatch, hd, hrun],
    hserves.set hd hwishes⟩

theorem mem_hooks_of_mem_subscribers {σ : Type} {x : Setting σ} {phase : Phase} {op : Opcode}
    {i : Nat} (h : i ∈ x.subscribers phase op) : ⟨phase, op, i⟩ ∈ x.hooks := by
  obtain ⟨hook, hfilter, rfl⟩ := List.mem_map.mp h
  obtain ⟨hmem, hwanted⟩ := List.mem_filter.mp hfilter
  obtain ⟨rfl, rfl⟩ := of_decide_eq_true hwanted
  exact hmem

/-- Detectors are reliable subscribers of their hooks. -/
theorem reliable_setting (x : Explorer) (code : Bytes) :
    (x.setting observer code).Reliable (Serves · x.hooks) :=
  fun _ _ he _ hi => keeps_dispatch he (mem_hooks_of_mem_subscribers hi)

theorem inspectAll_succeeds (oracle : Oracle) {space : StateSpace} (h : space.Supported)
    (detectors : List Detector) : ∀ done ledger, ∃ r ledger',
      inspectAll oracle space done ledger detectors = .ok () (r, ledger') := by
  induction detectors with
  | nil => exact fun done ledger => ⟨_, ledger, rfl⟩
  | cons d rest ih =>
    intro done ledger
    obtain ⟨_, ⟨d', ledger'⟩, hrun⟩ := Detector.safe_inspect oracle h (d, ledger)
    obtain ⟨r, ledger'', hrest⟩ := ih (d' :: done) ledger'
    exact ⟨r, ledger'', by simp only [inspectAll, hrun, hrest]⟩

/-- No detector fails on a state space whose frames have the operands of their instructions. -/
theorem safe_inspect (oracle : Oracle) {space : StateSpace} (h : space.Supported) :
    Safe (inspect oracle space) := by
  rintro ⟨r, ledger⟩
  obtain ⟨r', ledger', hrun⟩ := inspectAll_succeeds oracle h r.detectors [] ledger
  exact ⟨(), (r', ledger'), hrun⟩

end Registry

/-! ### Subscribers -/

namespace Explorer

theorem foldl_register_havocs (hooks : List Hook) (x : Explorer) (n : Nat) :
    hooks.foldl register { x with havocs := n } =
      { hooks.foldl register x with havocs := n } := by
  induction hooks generalizing x with
  | nil => rfl
  | cons hook rest ih =>
    have hregister : register { x with havocs := n } hook =
        { register x hook with havocs := n } := by
      unfold register
      split <;> rfl
    rw [List.foldl_cons, List.foldl_cons, hregister, ih]

/-- Registering hooks changes the hooks only. -/
theorem foldl_register_eq (hooks : List Hook) (x : Explorer) :
    ∃ registered, hooks.foldl register x = { x with hooks := registered } := by
  induction hooks generalizing x with
  | nil => exact ⟨x.hooks, rfl⟩
  | cons hook rest ih =>
    obtain ⟨registered, h⟩ := ih (x.register hook)
    refine ⟨registered, ?_⟩
    rw [List.foldl_cons, h, register]
    split <;> rfl

theorem havocs_foldl_register (hooks : List Hook) (x : Explorer) :
    (hooks.foldl register x).havocs = x.havocs := by
  obtain ⟨registered, h⟩ := foldl_register_eq hooks x
  rw [h]

theorem limits_foldl_register (hooks : List Hook) (x : Explorer) :
    (hooks.foldl register x).limits = x.limits := by
  obtain ⟨registered, h⟩ := foldl_register_eq hooks x
  rw [h]

theorem clock_foldl_register (hooks : List Hook) (x : Explorer) :
    (hooks.foldl register x).clock = x.clock := by
  obtain ⟨registered, h⟩ := foldl_register_eq hooks x
  rw [h]

theorem mem_hooks_register {x : Explorer} {first hook : Hook} :
    hook ∈ (x.register first).hooks ↔ hook ∈ x.hooks ∨ hook = first := by
  unfold register
  split
  · next hfirst => exact (or_iff_left_of_imp fun heq => heq ▸ hfirst).symm
  · simp

theorem mem_hooks_registered {hook : Hook} (hooks : List Hook) (x : Explorer) :
    hook ∈ (hooks.foldl register x).hooks ↔ hook ∈ x.hooks ∨ hook ∈ hooks := by
  induction hooks generalizing x with
  | nil => simp
  | cons first rest ih => rw [List.foldl_cons, ih, mem_hooks_register, List.mem_cons, or_assoc]

theorem nodup_hooks_registered (hooks : List Hook) (x : Explorer) (h : x.hooks.Nodup) :
    (hooks.foldl register x).hooks.Nodup := by
  induction hooks generalizing x with
  | nil => exact h
  | cons first rest ih =>
    refine ih _ ?_
    unfold register
    split
    · exact h
    · next hfirst =>
      refine List.nodup_append.mpr ⟨h, List.nodup_singleton _, fun hook hhook _ hother heq => ?_⟩
      rw [List.mem_singleton.mp hother] at heq
      exact hfirst (heq ▸ hhook)

end Explorer

theorem Setting.mem_subscribers {σ : Type} {x : Setting σ} {phase : Phase} {op : Opcode} {i : Nat} :
    i ∈ x.subscribers phase op ↔ ⟨phase, op, i⟩ ∈ x.hooks := by
  refine ⟨Registry.mem_hooks_of_mem_subscribers, fun h => ?_⟩
  exact List.mem_map.mpr ⟨⟨phase, op, i⟩, List.mem_filter.mpr ⟨h, decide_eq_true ⟨rfl, rfl⟩⟩, rfl⟩

theorem Setting.nodup_subscribers {σ : Type} {x : Setting σ} (h : x.hooks.Nodup) (phase : Phase)
    (op : Opcode) : (x.subscribers phase op).Nodup := by
  refine (h.filter _).map_on ?_
  intro first hfirst second hsecond hsame
  obtain ⟨hphase, hop⟩ := of_decide_eq_true (List.mem_filter.mp hfirst).2
  obtain ⟨hphase', hop'⟩ := of_decide_eq_true (List.mem_filter.mp hsecond).2
  cases first
  cases second
  simp_all

/-! ### Reports -/

/-- A finding with the content of its slot, if it has one. -/
def Snapshot.fill (s : Snapshot) (f : Finding) : Finding :=
  match f.slot with
  | none => f
  | some slot => { f with content := some ("0x" ++ Hex.encode (Word.toBytes (s.read slot))) }

namespace Analysis

theorem limits_prepare (a : Analysis) : a.prepare.explorer.limits = a.explorer.limits :=
  Explorer.limits_foldl_register ..

theorem clock_prepare (a : Analysis) : a.prepare.explorer.clock = a.explorer.clock :=
  Explorer.clock_foldl_register ..

theorem serves_prepare (a : Analysis) : a.prepare.registry.Serves a.prepare.explorer.hooks := by
  intro hook hhook
  rcases (Explorer.mem_hooks_registered _ _).mp hhook with h | h
  · exact absurd h List.not_mem_nil
  · exact a.registry.reset.serves_hooks hook h

theorem resolveFinding_reader (address : Address) (s : Snapshot) (f : Finding) :
    resolveFinding address s.reader f = .ok (s.fill f) := by
  cases hslot : f.slot with
  | none => simp only [resolveFinding, Snapshot.fill, hslot]
  | some slot => simp only [resolveFinding, Snapshot.fill, Snapshot.reader, hslot]

theorem resolveItems_reader (address : Address) (s : Snapshot) (items : List ReportItem) :
    resolveItems address s.reader items =
      .ok (items.map fun item => { item with findings := item.findings.map s.fill }) := by
  have hfindings (item : ReportItem) :
      item.findings.mapM (resolveFinding address s.reader) = .ok (item.findings.map s.fill) := by
    rw [funext (resolveFinding_reader address s)]
    exact List.mapM_pure
  simp only [resolveItems, hfindings]
  exact List.mapM_pure

theorem foldl_addFinding (fs : List Finding) (item : ReportItem) :
    fs.foldl ReportItem.addFinding item = { item with findings := item.findings ++ fs } := by
  induction fs generalizing item with
  | nil => rw [List.append_nil, List.foldl_nil]
  | cons f fs ih =>
    rw [List.foldl_cons, ih, ReportItem.addFinding, List.append_assoc, List.singleton_append]

/-- An item lists the findings of its detector. -/
@[simp]
theorem reportItem_eq (d : Detector) :
    reportItem d = { ReportItem.ofPattern d.pattern with findings := d.findings } :=
  foldl_addFinding d.findings (.ofPattern d.pattern)

theorem report_succeeds (target : Target) (snapshot : Option Snapshot) (r : Registry) :
    ∃ result, report target (snapshot.map Snapshot.reader) r = .ok result := by
  unfold report
  cases target.address? with
  | none => exact ⟨_, rfl⟩
  | some address =>
    cases snapshot with
    | none => exact ⟨_, rfl⟩
    | some s =>
      simp only [Option.map_some, resolveItems_reader]
      exact ⟨_, rfl⟩

/-- **Every analysis ends with a report**, whatever its settings, its clocks and its detectors are,
whatever it analyses, and with or without a snapshot of the storage. No event makes a detector fail
or misses its detector: the exploration ends with a state space. And no comparison of two words in
it lacks one of them. -/
theorem execute_reports (a : Analysis) (target : Target) (snapshot : Option Snapshot) :
    (∀ ledger, ∃ space,
      (a.prepare.explorer.explore Registry.observer target (a.prepare.registry, ledger)).result =
          .ok space ∧
        ∀ n ∈ space.nodes, ∀ f ∈ n.frames, f.instruction.opcode = .eq → 2 ≤ f.stack.length) ∧
      ∃ report a', execute target (snapshot.map Snapshot.reader) a = .ok report a' := by
  have hexplore (ledger : Ledger) :=
    Explorer.explore_succeeds (Registry.reliable_setting a.prepare.explorer) target
      (a.prepare.registry, ledger) a.serves_prepare
  constructor
  · intro ledger
    obtain ⟨space, hresult, hspace⟩ := (hexplore ledger).space
    refine ⟨space, hresult, fun n hn f hf heq => ?_⟩
    have hpops := hspace n hn f hf
    rwa [heq] at hpops
  · obtain ⟨space, hresult, hspace⟩ :=
      (hexplore { log := .starting a.prepare.registry.detectors.length :: a.prepare.log }).space
    simp only [execute, hresult]
    split
    · next hinspect =>
      obtain ⟨_, _, hsafe⟩ := Registry.safe_inspect a.prepare.oracle hspace _
      cases hinspect.symm.trans hsafe
    · next r _ _ =>
      obtain ⟨result, hreport⟩ := report_succeeds target snapshot r
      simp only [hreport]
      exact ⟨result, _, rfl⟩

end Analysis

end GuardFinder

import GuardFinder.Proofs.Emissions
import GuardFinder.Proofs.Order
import GuardFinder.Proofs.SideBySide

/-!
# Who is told of a step

In each step of an exploration, signals are passed on to the detectors one after the other, and each
detector that subscribed to an event is told of it after those that subscribed before it. We follow
a single detector through a step, with any detectors beside it.

* `Moment.Notifies`: a detector is told of an event in the next step of an exploration.
* `Setting.Informs`: what may become of a detector when an event is passed on.
* `Moment.Notified`: the events of a step that a detector is told of, and as which detector.
* `Analysis.Sound.notified`: **it is told before the instruction, as it is, and after it**, with
  nothing between that would change it.
* `Analysis.Sound.exists_notifies`: whoever subscribed is told.
-/

namespace GuardFinder

/-! ### Registries -/

namespace Registry

variable {a : Registry × Taints} {r r' : Registry} {i j : Nat} {d : Detector}
  {subscribers : List Nat}

theorem getElem?_react (hd : a.1.detectors[i]? = some d) (s : Sight) :
    (react i s a).1.detectors[i]? = some (d.after a.2 s) := by
  unfold react
  rw [hd]
  exact List.getElem?_set_self (List.getElem?_eq_some_iff.mp hd).1

theorem getElem?_react_of_ne (h : j ≠ i) (s : Sight) (a : Registry × Taints) :
    (react j s a).1.detectors[i]? = a.1.detectors[i]? := by
  unfold react
  cases a.1.detectors[j]? with
  | none => rfl
  | some d => exact List.getElem?_set_ne h

theorem getElem?_foldl_react_of_not_mem (h : i ∉ subscribers) (s : Sight)
    (a : Registry × Taints) :
    (subscribers.foldl (fun a j => react j s a) a).1.detectors[i]? = a.1.detectors[i]? := by
  induction subscribers generalizing a with
  | nil => rfl
  | cons j rest ih =>
    rw [List.foldl_cons, ih (List.not_mem_of_not_mem_cons h),
      getElem?_react_of_ne (Ne.symm (List.ne_of_not_mem_cons h))]

/-- Who is told of an event is told once. -/
theorem exists_foldl_react (hnodup : subscribers.Nodup) (h : i ∈ subscribers)
    (hd : a.1.detectors[i]? = some d) (s : Sight) :
    ∃ τ, (subscribers.foldl (fun a j => react j s a) a).1.detectors[i]? =
      some (d.after τ s) := by
  obtain ⟨before, after, rfl⟩ := List.append_of_mem h
  obtain ⟨hbefore, hafter⟩ : i ∉ before ∧ i ∉ after := by
    have hsplit := List.nodup_middle.mp hnodup
    rw [List.nodup_cons, List.mem_append, not_or] at hsplit
    exact hsplit.1
  rw [List.foldl_append, List.foldl_cons, getElem?_foldl_react_of_not_mem hafter]
  refine ⟨_, getElem?_react ?_ s⟩
  rw [getElem?_foldl_react_of_not_mem hbefore, hd]

end Registry

/-! ### Events -/

/-- The event before an instruction of a path. -/
abbrev Path.eventBefore (p : Path) (ins : Instruction) : Event :=
  ⟨.pre, p.view ins, p.lastFrame⟩

namespace Setting

/-- A detector is told of an event among signals that are passed on, after those who subscribed
before it. It is in the given state then, and the taints and the log are in the given ledger. -/
def Notifies (x : Setting Registry) (signals : List Signal) (watch : Registry × Ledger) (i : Nat)
    (e : Event) (d : Detector) (l : Ledger) : Prop :=
  ∃ before op after w earlier later r, signals = before ++ .event op e :: after ∧
    x.playAll before watch = .ok () w ∧ x.subscribers e.phase op = earlier ++ i :: later ∧
    x.notifyAll e earlier w = .ok () (r, l) ∧ r.detectors[i]? = some d

/-- What may become of a detector when an event is passed on. -/
inductive Informs (x : Setting Registry) (op : Opcode) (e : Event) (i : Nat) (d : Detector) :
    Detector → Prop
  | passed (unasked : i ∉ x.subscribers e.phase op) : Informs x op e i d d
  | told (asked : i ∈ x.subscribers e.phase op) (τ : Taints) :
      Informs x op e i d (d.after τ e.sight)

variable {x : Setting Registry} {op : Opcode} {e : Event} {i : Nat} {d d' : Detector}
  {a : Registry × Taints}

theorem exists_informs (hnodup : (x.subscribers e.phase op).Nodup)
    (hd : a.1.detectors[i]? = some d) :
    ∃ d', (x.hear Registry.react a (.event op e)).1.detectors[i]? = some d' ∧
      x.Informs op e i d d' := by
  by_cases hi : i ∈ x.subscribers e.phase op
  · obtain ⟨τ, hτ⟩ := Registry.exists_foldl_react hnodup hi hd e.sight
    exact ⟨_, hτ, .told hi τ⟩
  · exact ⟨d, (Registry.getElem?_foldl_react_of_not_mem hi e.sight a).trans hd, .passed hi⟩

/-- The event before an instruction, and what is inherited after it. -/
theorem exists_informs_before {p : Path} {ins : Instruction}
    (hnodup : (x.subscribers .pre ins.opcode).Nodup) (inheritances : List Inheritance)
    (hd : a.1.detectors[i]? = some d) :
    ∃ d', (x.hearAll Registry.react a (.event ins.opcode (p.eventBefore ins) ::
        inheritSignals inheritances)).1.detectors[i]? = some d' ∧
      x.Informs ins.opcode (p.eventBefore ins) i d d' := by
  rw [hearAll, List.foldl_cons, foldl_hear_inheritSignals]
  exact exists_informs (e := p.eventBefore ins) hnodup hd

end Setting

/-! ### Notifications of a step -/

namespace Moment

/-- What an instruction of a path does at a moment. -/
abbrev effect (x : Setting Registry) (m : Moment Registry) (p : Path) (ins : Instruction) :
    Effect :=
  execute x.program ins p m.supply

/-- The next step of an exploration is that of a path, with an instruction. -/
structure Takes (x : Setting Registry) (m : Moment Registry) (p : Path) (ins : Instruction) :
    Prop where
  first : ∃ past rest, m.tracks = (p, past) :: rest
  time_left : ¬x.late m.progress = true
  at_ins : x.program.at? p.pc = some ins
  fits : fitsStack ins.opcode p.stack = true

/-- A detector is told of an event in the next step of an exploration. -/
structure Notifies (x : Setting Registry) (m : Moment Registry) (p : Path) (ins : Instruction)
    (i : Nat) (e : Event) (d : Detector) (l : Ledger) : Prop where
  takes : m.Takes x p ins
  told : x.Notifies (m.progress.signals x.program x.limits p ins) m.watch i e d l

/-- The events of a step that detectors are told of: before the instruction, with the detectors as
they are at the moment, and after an instruction with which the path goes on, with what became of
them before it. -/
inductive Notified (x : Setting Registry) (m : Moment Registry) (p : Path) (ins : Instruction)
    (i : Nat) (d₀ : Detector) : Event → Detector → Prop
  | before (asked : i ∈ x.subscribers .pre ins.opcode) :
      Notified x m p ins i d₀ (p.eventBefore ins) d₀
  | after {d : Detector} {state : StateView}
      (informs : x.Informs ins.opcode (p.eventBefore ins) i d₀ d)
      (flow : (m.effect x p ins).flow = .next) (name : state.functionName = p.functionName)
      (stack : state.stack = (m.effect x p ins).path.stack)
      (asked : i ∈ x.subscribers .post ins.opcode) :
      Notified x m p ins i d₀ ⟨.post, state, some ⟨ins, p.stack⟩⟩ d

end Moment

section

variable {inheritances : List Inheritance} {before after : List Signal} {op : Opcode} {e : Event}

theorem event_not_mem_inheritSignals (op : Opcode) (e : Event)
    (inheritances : List Inheritance) : .event op e ∉ inheritSignals inheritances := by
  simp [inheritSignals]

/-- An event among what is inherited and one signal more is this signal. -/
theorem eq_of_append_event_eq {last : Signal}
    (h : before ++ .event op e :: after = inheritSignals inheritances ++ [last]) :
    before = inheritSignals inheritances ∧ .event op e = last := by
  rcases List.append_eq_append_iff.mp h with ⟨more, hmore, hrest⟩ | ⟨more, hmore, hrest⟩
  · cases more with
    | nil =>
      rw [List.append_nil] at hmore
      exact ⟨hmore.symm, (List.cons.inj hrest).1⟩
    | cons signal more =>
      refine absurd ?_ (event_not_mem_inheritSignals op e inheritances)
      rw [hmore, (List.cons.inj hrest).1]
      exact List.mem_append_right _ List.mem_cons_self
  · rcases List.append_eq_singleton_iff.mp hrest.symm with ⟨rfl, hcons⟩ | ⟨-, hcons⟩
    · rw [List.append_nil] at hmore
      exact ⟨hmore, (List.cons.inj hcons).1⟩
    · cases hcons

/-- Of what a step tells after its instruction, detectors are told of one event, right after what is
inherited, if the path goes on with the next instruction. -/
theorem exists_of_signals_stepAt {x : Setting Registry} (hx : x.IgnoresJumps) {limits : Limits}
    {space : StateSpace} {supply : Supply} {p : Path} {ins : Instruction} {i : Nat}
    (h : (stepAt x.program limits space supply p ins).signals = before ++ .event op e :: after)
    (hi : i ∈ x.subscribers e.phase op) :
    ∃ q : Path, (execute x.program ins p supply).flow = .next ∧
      before = inheritSignals (execute x.program ins p supply).inheritances ∧
      .event op e = q.postEvent x.program ⟨ins, p.stack⟩ ∧
      q.functionName = p.functionName ∧ q.stack = (execute x.program ins p supply).path.stack := by
  have hjump {inheritances : List Inheritance} {rest : List Signal}
      (hsignals : (stepAt x.program limits space supply p ins).signals =
        inheritSignals inheritances ++ rest) (hrest : ∀ signal ∈ rest, signal.Unheard) : False := by
    have hmem : .event op e ∈ inheritSignals inheritances ++ rest := by
      rw [← hsignals, h]
      exact List.mem_append_right _ List.mem_cons_self
    obtain ⟨hphase, hop⟩ := hrest _
      ((List.mem_append.mp hmem).resolve_left (event_not_mem_inheritSignals _ _ _))
    rw [hphase, hx op hop] at hi
    exact List.not_mem_nil hi
  cases signals_stepAt x.program limits space supply p ins with
  | @next q flow _ _ name stack _ signals =>
    obtain ⟨hbefore, hevent⟩ := eq_of_append_event_eq (h.symm.trans signals)
    exact ⟨q, flow, hbefore, hevent, name.trans (functionName_execute ..), stack⟩
  | on _ _ signals unheard => exact (hjump signals unheard).elim
  | fork _ _ signals unheard => exact (hjump signals unheard).elim

end

namespace Analysis

variable {a : Analysis} {code : Bytes} {m : Moment Registry} {p : Path} {ins : Instruction}
  {i : Nat} {e : Event} {d : Detector} {l : Ledger}

theorem nodup_subscribers_setting (a : Analysis) (code : Bytes) (phase : Phase) (op : Opcode) :
    ((a.setting code).subscribers phase op).Nodup :=
  Setting.nodup_subscribers (Explorer.nodup_hooks_registered _ _ List.nodup_nil) phase op

/-- Detectors are told of what they ask for. -/
theorem Sound.mem_subscribers (h : a.Sound m) (hd : m.watch.1.detectors[i]? = some d)
    {phase : Phase} {op : Opcode} :
    i ∈ (a.setting code).subscribers phase op ↔ d.strategy.Asks phase op := by
  have hhooks : ⟨phase, op, i⟩ ∈ (a.setting code).hooks ↔
      ⟨phase, op, i⟩ ∈ a.registry.reset.hooks.map (·.1) :=
    (Explorer.mem_hooks_registered _ _).trans (or_iff_right List.not_mem_nil)
  have hplace : a.registry.reset.detectors[i]? = some d.reset := by
    rw [← h.reset, Registry.reset, List.getElem?_map, hd]
    rfl
  rw [Setting.mem_subscribers, hhooks, Registry.mem_hooks]
  constructor
  · rintro ⟨d', hd', hwish⟩
    obtain rfl := Option.some.inj (hplace.symm.trans hd')
    exact (Strategy.asks_cleared ..).mp (Detector.mem_wishes.mp hwish)
  · intro hasks
    exact ⟨_, hplace, Detector.mem_wishes.mpr ((Strategy.asks_cleared ..).mpr hasks)⟩

theorem not_mem_of_subscribers_eq {phase : Phase} {op : Opcode} {earlier later : List Nat}
    (h : (a.setting code).subscribers phase op = earlier ++ i :: later) : i ∉ earlier := by
  have hnodup := a.nodup_subscribers_setting code phase op
  rw [h, List.nodup_middle, List.nodup_cons, List.mem_append, not_or] at hnodup
  exact hnodup.1.1

/-- Whoever is told of an event subscribed to it, and is as the signals before it have left it. -/
theorem Sound.of_notifies (h : a.Sound m) (hnotifies : m.Notifies (a.setting code) p ins i e d l) :
    ∃ before op after, m.progress.signals (a.setting code).program (a.setting code).limits p ins =
        before ++ .event op e :: after ∧
      i ∈ (a.setting code).subscribers e.phase op ∧
      ((a.setting code).hearAll Registry.react (withoutLog m.watch) before).1.detectors[i]? =
        some d ∧
      e.About op ∧ (e.phase, op) ∈ d.wishes := by
  obtain ⟨htakes, before, op, after, w, earlier, later, r, hsignals, hplay, hsubscribers, hrun,
    hd⟩ := hnotifies
  have hasked : i ∈ (a.setting code).subscribers e.phase op := by
    rw [hsubscribers]
    exact List.mem_append_right _ List.mem_cons_self
  have hsound : ∀ signal ∈ before ++ .event op e :: after, signal.Sound :=
    hsignals ▸ m.progress.sound_signals htakes.fits
  have habout : e.About op := hsound _ (List.mem_append_right _ List.mem_cons_self)
  obtain ⟨hsee, hkept⟩ := of_ok ((a.follows_prepare code).playAll before
    (fun signal hsignal => hsound signal (List.mem_append_left _ hsignal)) m.watch
    ⟨h.serves, h.reset⟩) hplay
  obtain ⟨hsee', hserves, -⟩ := of_ok ((a.follows_prepare code).notifyAll habout earlier
    (fun j hj => hsubscribers ▸ List.mem_append_left _ hj) w hkept) hrun
  refine ⟨before, op, after, hsignals, hasked, ?_, habout, ?_⟩
  · have hsame := Registry.getElem?_foldl_react_of_not_mem (not_mem_of_subscribers_eq hsubscribers)
      e.sight (withoutLog w)
    rw [← hsee', hsee] at hsame
    exact hsame.symm.trans hd
  · obtain ⟨d', hd', hwish⟩ := hserves _ (Registry.mem_hooks_of_mem_subscribers hasked)
    obtain rfl := Option.some.inj (hd.symm.trans hd')
    exact hwish

/-- Whoever subscribed is told in its turn, as the detector that it is then. -/
theorem Sound.exists_notifies (h : a.Sound m) (htakes : m.Takes (a.setting code) p ins)
    {before after : List Signal} {op : Opcode}
    (hsignals : m.progress.signals (a.setting code).program (a.setting code).limits p ins =
      before ++ .event op e :: after)
    (hasked : i ∈ (a.setting code).subscribers e.phase op)
    (hd : ((a.setting code).hearAll Registry.react (withoutLog m.watch) before).1.detectors[i]? =
      some d) :
    ∃ l, m.Notifies (a.setting code) p ins i e d l := by
  have hsound : ∀ signal ∈ before ++ .event op e :: after, signal.Sound :=
    hsignals ▸ m.progress.sound_signals htakes.fits
  obtain ⟨w, hplay, hsee, hkept⟩ := (a.follows_prepare code).playAll before
    (fun signal hsignal => hsound signal (List.mem_append_left _ hsignal)) m.watch
    ⟨h.serves, h.reset⟩
  obtain ⟨earlier, later, hsubscribers⟩ := List.append_of_mem hasked
  obtain ⟨⟨r, l⟩, hrun, hsee', -⟩ := (a.follows_prepare code).notifyAll
    (hsound _ (List.mem_append_right _ List.mem_cons_self)) earlier
    (fun j hj => hsubscribers ▸ List.mem_append_left _ hj) w hkept
  have hsame := Registry.getElem?_foldl_react_of_not_mem (not_mem_of_subscribers_eq hsubscribers)
    e.sight (withoutLog w)
  rw [← hsee', hsee, hd] at hsame
  exact ⟨l, htakes, before, op, after, w, earlier, later, r, hsignals, hplay, hsubscribers, hrun,
    hsame⟩

/-- **Detectors are told of a step before its instruction and after it.** -/
theorem Sound.notified (h : a.Sound m) (hnotifies : m.Notifies (a.setting code) p ins i e d l) :
    ∃ d₀, m.watch.1.detectors[i]? = some d₀ ∧ m.Notified (a.setting code) p ins i d₀ e d := by
  obtain ⟨before, op, after, hsignals, hasked, hd, -⟩ := h.of_notifies hnotifies
  cases before with
  | nil =>
    cases hsignals
    exact ⟨d, hd, .before hasked⟩
  | cons first before =>
    obtain ⟨rfl, hstep⟩ := List.cons.inj hsignals
    obtain ⟨q, flow, rfl, hevent, name, stack⟩ :=
      exists_of_signals_stepAt h.serves.ignoresJumps hstep hasked
    cases hevent
    obtain ⟨d₀, hd₀, -⟩ := h.serves _ (Registry.mem_hooks_of_mem_subscribers hasked)
    obtain ⟨d₁, hd₁, hinforms⟩ := Setting.exists_informs_before (a := withoutLog m.watch)
      (a.nodup_subscribers_setting code .pre ins.opcode)
      (m.effect (a.setting code) p ins).inheritances hd₀
    obtain rfl := Option.some.inj (hd.symm.trans hd₁)
    exact ⟨d₀, hd₀, .after hinforms flow name stack hasked⟩

/-- Who is told before an instruction is told as it is at the moment. -/
theorem Sound.notified_before (h : a.Sound m)
    (hnotifies : m.Notifies (a.setting code) p ins i (p.eventBefore ins) d l) :
    m.watch.1.detectors[i]? = some d ∧ i ∈ (a.setting code).subscribers .pre ins.opcode := by
  obtain ⟨d₀, hd₀, hnotified⟩ := h.notified hnotifies
  generalize he : p.eventBefore ins = e at hnotified
  cases hnotified with
  | before asked => exact ⟨hd₀, asked⟩
  | after => cases he

end Analysis

end GuardFinder

import GuardFinder.Proofs.Lineage

/-!
# Where findings come from

A detector that listens to events has its findings from events before branches: it is shown such an
event after the detectors that subscribed before it, and answers with a finding.

* `Setting.Finds`: a subscriber answers an event with a finding.
* `Moment.Emits`: one does so before the next instruction of an exploration.
* `Moment.Emits.finding?`: the finding is that of its strategy, by the taints of the moment.
* `Analysis.exists_emits`: **all findings of an exploration were emitted at one of its moments**.
-/

namespace GuardFinder

/-! ### Events -/

@[simp] theorem Event.phase_sight (e : Event) : e.sight.phase = e.phase := by
  obtain ⟨phase, state, previous⟩ := e
  cases phase <;> cases previous <;> rfl

namespace Strategy

variable {st : Strategy} {τ : Taints} {s : Sight} {f : Finding}

/-- A strategy finds something before branches only. -/
theorem branch_of_finding? (h : st.finding? τ s = some f) :
    s.phase = .pre ∧ s.opcode = .jumpi ∧ ∃ destination condition rest,
      s.args = destination :: condition :: rest ∧ st.isGuard (τ.get condition.tag) = true ∧
        f = ⟨s.functionName, st.guardSlot? (τ.get condition.tag), none⟩ := by
  unfold finding? at h
  split at h
  · next destination condition rest hphase hop hargs =>
    split at h
    · next hguard =>
      exact ⟨hphase, hop, destination, condition, rest, hargs, hguard, (Option.some.inj h).symm⟩
    · cases h
  · cases h

/-- No strategy changes taints at a branch. -/
theorem edits_branch (hphase : s.phase = .pre) (hop : s.opcode = .jumpi) : st.edits τ s = [] := by
  obtain ⟨phase, op, name, args, stack, word?⟩ := s
  obtain rfl : phase = .pre := hphase
  obtain rfl : op = .jumpi := hop
  cases st <;> rfl

end Strategy

namespace Detector

variable {d : Detector} {e : Event} {l : Ledger} {f : Finding}

/-- A detector answers with what its strategy finds. -/
theorem finding?_of_execute {op : Opcode} {state : Detector × Ledger} (he : e.About op)
    (hwish : (e.phase, op) ∈ d.wishes) (h : execute e (d, l) = .ok (some f) state) :
    d.strategy.finding? l.taints e.sight = some f := by
  simp only [execute] at h
  split at h
  · cases h
  · split at h
    · obtain ⟨log, hrun⟩ :=
        Strategy.observe_eq he (mem_wishes.mp hwish) (l.say (.executing d.pattern.title))
      rw [hrun] at h
      revert h
      cases hfound : d.strategy.finding? (l.say (.executing d.pattern.title)).taints e.sight with
      | none =>
        intro h
        cases h
      | some g =>
        intro h
        cases h
        exact hfound
    · cases h

/-- A detector keeps what it answers with. -/
theorem findings_execute {found : Option Finding} {d' : Detector} {l' : Ledger}
    (h : execute e (d, l) = .ok found (d', l')) : d'.findings = d.findings ++ found.toList := by
  simp only [execute] at h
  split at h
  · cases h
    exact (List.append_nil _).symm
  · split at h
    · split at h
      · cases h
        exact (List.append_nil _).symm
      · cases h
        rfl
      · cases h
    · cases h
      exact (List.append_nil _).symm

end Detector

namespace Setting

variable {x : Setting Registry} {e : Event} {watch watch' : Registry × Ledger} {i : Nat}
  {f : Finding}

/-- A subscriber answers an event with a finding, after the subscribers before it. -/
def Finds (x : Setting Registry) (e : Event) (subscribers : List Nat) (watch : Registry × Ledger)
    (i : Nat) (f : Finding) : Prop :=
  ∃ before after w d state, subscribers = before ++ i :: after ∧
    x.notifyAll e before watch = .ok () w ∧ w.1.detectors[i]? = some d ∧
    Detector.execute e (d, w.2) = .ok (some f) state

/-- Detectors have the findings that they had before an event, and those they answer it with. -/
theorem finds_of_notifyAll (hx : x.observer = Registry.observer) {subscribers : List Nat}
    (h : x.notifyAll e subscribers watch = .ok () watch') {d' : Detector}
    (hd : watch'.1.detectors[i]? = some d') (hf : f ∈ d'.findings) :
    (∃ d, watch.1.detectors[i]? = some d ∧ f ∈ d.findings) ∨ x.Finds e subscribers watch i f := by
  induction subscribers generalizing watch with
  | nil =>
    cases h
    exact .inl ⟨d', hd, hf⟩
  | cons j rest ih =>
    have hnotify : x.observer.notify j e = Registry.dispatch j e := by
      rw [hx]
      rfl
    rw [notifyAll, bind_run, hnotify] at h
    split at h
    · next w hrun =>
      rcases ih h with ⟨d₁, hd₁, hf₁⟩ | ⟨before, after, w', d₁, state, hsplit, hbefore, hd₁, hfound⟩
      · -- the finding was there after the first subscriber
        obtain ⟨r, l⟩ := watch
        simp only [Registry.dispatch] at hrun
        split at hrun
        · cases hrun
        · next d hj =>
          split at hrun
          · next found d₂ l₂ hexecute =>
            cases hrun
            by_cases hij : j = i
            · subst hij
              rw [List.getElem?_set_self', hj] at hd₁
              obtain rfl : d₂ = d₁ := Option.some.inj hd₁
              rw [Detector.findings_execute hexecute, List.mem_append] at hf₁
              rcases hf₁ with hf₁ | hf₁
              · exact .inl ⟨d, hj, hf₁⟩
              · rw [Option.mem_toList] at hf₁
                subst hf₁
                exact .inr ⟨[], rest, (r, l), d, _, rfl, rfl, hj, hexecute⟩
            · rw [List.getElem?_set_ne hij] at hd₁
              exact .inl ⟨d₁, hd₁, hf₁⟩
          · cases hrun
      · refine .inr ⟨j :: before, after, w', d₁, state, by rw [hsplit]; rfl, ?_, hd₁, hfound⟩
        rw [notifyAll, bind_run, hnotify, hrun]
        exact hbefore
    · cases h

end Setting

/-- The events of a step are shown after its instruction. -/
theorem phase_of_mem_signals {program : Program} {limits : Limits} {space : StateSpace}
    {supply : Supply} {p : Path} {ins : Instruction} {op : Opcode} {e : Event}
    (h : .event op e ∈ (stepAt program limits space supply p ins).signals) : e.phase = .post := by
  have hinherit (inheritances : List Inheritance) :
      .event op e ∉ inheritSignals inheritances := by
    simp [inheritSignals]
  cases signals_stepAt program limits space supply p ins with
  | next _ _ _ _ _ _ signals =>
    rw [signals, List.mem_append] at h
    have hlast := List.mem_singleton.mp (h.resolve_left (hinherit _))
    rw [Path.postEvent, Signal.event.injEq] at hlast
    rw [hlast.2]
  | on _ _ signals unheard | fork _ _ signals unheard =>
    rw [signals, List.mem_append] at h
    exact (unheard _ (h.resolve_left (hinherit _))).1

namespace Registry

/-- The findings of all detectors. -/
def findings (r : Registry) : List (List Finding) := r.detectors.map Detector.findings

theorem findings_react {sight : Sight} (h : sight.phase = .post) (i : Nat)
    (a : Registry × Taints) : (react i sight a).1.findings = a.1.findings := by
  unfold react
  cases hd : a.1.detectors[i]? with
  | none => rfl
  | some d =>
    have hnone : d.strategy.finding? a.2 sight = none := by
      refine Option.eq_none_iff_forall_ne_some.mpr fun f hf => ?_
      rw [(Strategy.branch_of_finding? hf).1] at h
      cases h
    have hsame : (d.after a.2 sight).findings = d.findings := by
      rw [Detector.findings_after, hnone]
      split
      · rfl
      · exact List.append_nil _
    exact map_set hd hsame

/-- Nothing is found after an instruction. -/
theorem findings_hear (x : Setting Registry) {signals : List Signal}
    (h : ∀ op e, .event op e ∈ signals → e.sight.phase = .post) (a : Registry × Taints) :
    (signals.foldl (x.hear react) a).1.findings = a.1.findings := by
  induction signals generalizing a with
  | nil => rfl
  | cons signal rest ih =>
    rw [List.foldl_cons, ih fun op e he => h op e (List.mem_cons_of_mem _ he)]
    cases signal with
    | inherit i => rfl
    | message m => rfl
    | event op e =>
      have hphase := h op e List.mem_cons_self
      exact List.foldlRecOn (motive := fun b : Registry × Taints =>
        b.1.findings = a.1.findings) _ _ rfl fun b hb i _ => (findings_react hphase i b).trans hb

/-- Detectors at the same place of registries with the same findings have the same. -/
theorem findings_eq {r r' : Registry} (h : r.findings = r'.findings) {i : Nat} {d : Detector}
    (hd : r.detectors[i]? = some d) :
    ∃ d', r'.detectors[i]? = some d' ∧ d'.findings = d.findings := by
  have hplace : (r'.detectors[i]?).map Detector.findings = some d.findings := by
    rw [← List.getElem?_map, ← findings, ← h, findings, List.getElem?_map, hd]
    rfl
  exact Option.map_eq_some_iff.mp hplace

end Registry

/-! ### Moments -/

/-- A subscriber answers with a finding when it is told of the next instruction of a path. -/
structure Moment.Emits (x : Setting Registry) (m : Moment Registry) (p : Path)
    (past : List Frame) (ins : Instruction) (i : Nat) (f : Finding) : Prop where
  first : ∃ rest, m.tracks = (p, past) :: rest
  time_left : ¬x.late m.progress = true
  at_ins : x.program.at? p.pc = some ins
  fits : fitsStack ins.opcode p.stack = true
  finds : x.Finds ⟨.pre, p.view ins, p.lastFrame⟩ (x.subscribers .pre ins.opcode) m.watch i f

namespace Analysis

variable {a : Analysis} {target : Target} {code : Bytes} {m m' : Moment Registry} {p : Path}
  {past : List Frame} {ins : Instruction} {i : Nat} {f : Finding}

/-- **A finding is emitted before a branch**, and is what the strategy of the detector finds by the
taints of the moment. -/
theorem Sound.finding? (h : a.Sound m) (hemits : m.Emits (a.setting code) p past ins i f) :
    ∃ r : Registry, r.reset = a.registry.reset ∧ ∃ d, r.detectors[i]? = some d ∧
      d.strategy.finding? m.watch.2.taints (Event.sight ⟨.pre, p.view ins, p.lastFrame⟩) =
        some f := by
  obtain ⟨before, after, w, d, state, hsplit, hbefore, hd, hfound⟩ := hemits.finds
  have habout : Event.About ins.opcode ⟨.pre, p.view ins, p.lastFrame⟩ :=
    .pre rfl (pops_le_of_fitsStack hemits.fits)
  have hmem : ∀ j ∈ before ++ [i], j ∈ (a.setting code).subscribers .pre ins.opcode := by
    intro j hj
    rw [hsplit]
    simp only [List.mem_append, List.mem_cons, List.not_mem_nil, or_false] at hj ⊢
    exact hj.imp_right .inl
  obtain ⟨hsee, hserves, hreset⟩ := of_ok ((a.follows_prepare code).notifyAll habout before
    (fun j hj => hmem j (List.mem_append_left _ hj)) m.watch ⟨h.serves, h.reset⟩) hbefore
  refine ⟨w.1, hreset, d, hd, ?_⟩
  have hwish : (.pre, ins.opcode) ∈ d.wishes := by
    obtain ⟨d', hd', hwish⟩ := hserves _ (Registry.mem_hooks_of_mem_subscribers
      (hmem i (List.mem_append_right _ List.mem_cons_self)))
    obtain rfl := Option.some.inj (hd.symm.trans hd')
    exact hwish
  have hfinding := Detector.finding?_of_execute habout hwish hfound
  obtain ⟨hphase, hop, -⟩ := Strategy.branch_of_finding? hfinding
  -- the detectors before it have changed no taints
  have htaints : w.2.taints = m.watch.2.taints := by
    refine (congrArg Prod.snd hsee).trans (List.foldlRecOn
      (motive := fun b : Registry × Taints => b.2 = m.watch.2.taints) _ _ rfl fun b hb j _ => ?_)
    unfold Registry.react
    cases b.1.detectors[j]? with
    | none => exact hb
    | some d =>
      simp only [Detector.edits, Strategy.edits_branch hphase hop, ite_self]
      exact hb
  rw [htaints] at hfinding
  exact hfinding

/-- A step adds the findings that are emitted before it. -/
theorem Sound.emits_of_step (h : a.Sound m) {rest : List (Path × List Frame)}
    {w : Registry × Ledger} (htime : ¬(a.setting code).late m.progress = true)
    (htracks : m.tracks = (p, past) :: rest) (hins : (a.setting code).program.at? p.pc = some ins)
    (hfits : fitsStack ins.opcode p.stack = true)
    (hplay : (a.setting code).playAll (m.progress.signals (a.setting code).program
      (a.setting code).limits p ins) m.watch = .ok () w) {d : Detector}
    (hd : w.1.detectors[i]? = some d) (hf : f ∈ d.findings) :
    (∃ d₀, m.watch.1.detectors[i]? = some d₀ ∧ f ∈ d₀.findings) ∨
      m.Emits (a.setting code) p past ins i f := by
  have hfollows := a.follows_prepare code
  rw [Progress.signals, Setting.playAll, bind_run] at hplay
  split at hplay
  · next w₁ hbefore =>
    have hsound : (Signal.event ins.opcode ⟨.pre, p.view ins, p.lastFrame⟩).Sound :=
      .pre rfl (pops_le_of_fitsStack hfits)
    obtain ⟨-, hkept⟩ := of_ok (hfollows.play hsound m.watch ⟨h.serves, h.reset⟩) hbefore
    obtain ⟨hsee, -⟩ := of_ok (hfollows.playAll _ (sound_stepAt (a.setting code).program
      (a.setting code).limits m.progress.space m.progress.supply hfits) w₁ hkept) hplay
    -- the events after the instruction leave the findings as they are
    have hfindings : w.1.findings = w₁.1.findings := by
      refine (congrArg (Registry.findings ·.1) hsee).trans
        (Registry.findings_hear _ (fun op e he => ?_) _)
      rw [Event.phase_sight]
      exact phase_of_mem_signals he
    obtain ⟨d₁, hd₁, hsame⟩ := Registry.findings_eq hfindings hd
    rcases Setting.finds_of_notifyAll rfl hbefore hd₁ (hsame ▸ hf) with hold | hfinds
    · exact .inl hold
    · exact .inr ⟨⟨rest, htracks⟩, htime, hins, hfits, hfinds⟩
  · cases hplay

/-- What a detector has found at the next moment it had found before, or it emits it now. -/
theorem Sound.emits_of_next? (h : a.Sound m) (hnext : (a.setting code).next? m = some m')
    {d : Detector} (hd : m'.watch.1.detectors[i]? = some d) (hf : f ∈ d.findings) :
    (∃ d₀, m.watch.1.detectors[i]? = some d₀ ∧ f ∈ d₀.findings) ∨
      ∃ p past ins, m.Emits (a.setting code) p past ins i f := by
  obtain ⟨hnext, htime⟩ := Setting.next_of_next? hnext
  cases hnext with
  | ended | unfit => exact .inl ⟨d, hd, hf⟩
  | step tracks at_ins fits play =>
    exact (h.emits_of_step htime tracks at_ins fits play hd hf).imp_right fun hemits =>
      ⟨_, _, _, hemits⟩

/-- **All findings of an exploration were emitted at one of its moments.** -/
theorem exists_emits (a : Analysis) (target : Target) {d : Detector}
    (hd : (a.explored target).watch.1.detectors[i]? = some d) (hf : f ∈ d.findings) :
    ∃ code m p past ins, a.Visits target code m ∧ m.Emits (a.setting code) p past ins i f := by
  obtain ⟨space, hresult, -⟩ := (a.explored_succeeds target).space
  obtain ⟨code, m, hvisits, hwatch⟩ := Explorer.exists_visits_end hresult
  have hregistry : (a.explored target).watch.1 = m.watch.1 := (Prod.mk.inj hwatch).1
  rw [hregistry] at hd
  refine Explorer.Visits.rule (I := fun m => ∀ i d f, m.watch.1.detectors[i]? = some d →
    f ∈ d.findings → ∃ code m p past ins, a.Visits target code m ∧
      m.Emits (a.setting code) p past ins i f) ?_ ?_ ?_ hvisits i d f hd hf
  · intro entry i d f hd hf
    -- detectors start without findings
    have hdetectors : (a.registry.detectors.map Detector.reset)[i]? = some d := hd
    rw [List.getElem?_map] at hdetectors
    obtain ⟨d₀, -, rfl⟩ := Option.map_eq_some_iff.mp hdetectors
    exact absurd hf List.not_mem_nil
  · intro code m m' hvisits hnext hm i d f hd hf
    have hsound : a.Sound m := Visits.sound hvisits
    rcases hsound.emits_of_next? hnext hd hf with ⟨d₀, hd₀, hf₀⟩ | ⟨p, past, ins, hemits⟩
    · exact hm i d₀ f hd₀ hf₀
    · exact ⟨code, m, p, past, ins, hvisits, hemits⟩
  · intro m entry space w hw hm i d f hd hf
    have hregistry : w.1 = m.watch.1 := (Prod.mk.inj hw).1
    exact hm i d f (hregistry ▸ hd) hf

end Analysis

end GuardFinder

import GuardFinder.Proofs.Comparisons

/-!
# Each function is reported once

A detector looks at the name of the function that an event happens in before it asks its strategy,
and remembers the name that the finding has. These are the same name. What is found in a state space
may name a function twice, so there each finding is looked at again before it is recorded.

* `Strategy.yields_observe`: findings at events have the names of the functions of these events.
* `Detector.Call`: the calls of a detector. `Detector.called`, `Detector.found`: what a call leaves,
  also if it fails, and what the strategy has found at it.
* `Detector.called_eq`: **a call records what is found**, but for functions that have been reported.
* `Detector.reports_once`: after any calls a detector reports the first finding for each function
  since it was reset.
-/

namespace GuardFinder

open Watch

/-! ### The names of findings -/

/-- What is found at an event has the name of the event's function. -/
def Event.Names (e : Event) (found : Option Finding) : Prop :=
  ∀ f ∈ found, f.functionName = e.state.functionName

section

variable {ε σ : Type} (e : Event)

theorem yields_none : Yields (pure none : EStateM ε σ (Option Finding)) e.Names :=
  yields_pure fun _ hf => absurd hf (Option.not_mem_none _)

theorem yields_some (slot : Option Word) (content : Option String) :
    Yields (pure (some ⟨e.state.functionName, slot, content⟩) : EStateM ε σ (Option Finding))
      e.Names :=
  yields_pure fun _ hf => by rw [← Option.mem_some_iff.mp hf]

/-- Work that finds nothing. -/
theorem yields_work {α : Type} (work : EStateM ε σ α) :
    Yields (work >>= fun _ => pure none : EStateM ε σ (Option Finding)) e.Names :=
  .bind (yields_any work) fun _ _ => yields_none e

/-- A look at a condition. -/
theorem yields_branch (P : TaintSet → Prop) [DecidablePred P] (slot : TaintSet → Option Word) :
    Yields (do
      let condition ← taintsOf (← item e 1)
      if P condition then return some ⟨e.state.functionName, slot condition, none⟩
      else return none : Watch (Option Finding)) e.Names := by
  refine .bind (yields_any _) fun v _ => .bind (yields_any _) fun condition _ => ?_
  split
  · exact yields_some e _ _
  · exact yields_none e

theorem Ownership.yields_observe (ceiling : Word) : Yields (observe ceiling e) e.Names := by
  unfold observe
  split
  · exact yields_work e _
  · split
    · exact .bind (yields_any _) fun a _ => .bind (yields_any _) fun b _ => yields_work e _
    · exact yields_branch e _ _
    · exact yields_none e

theorem HashLock.yields_observe (maxLength : Nat) : Yields (observe maxLength e) e.Names := by
  unfold observe
  split
  · exact yields_work e _
  · split
    · exact yields_branch e _ _
    · exact yields_none e
  · exact yields_none e

theorem MultipleAuthorization.yields_observe (ceiling : Word) :
    Yields (observe ceiling e) e.Names := by
  unfold observe
  split
  · exact yields_work e _
  · split
    · exact yields_branch e _ _
    · exact yields_none e
  · exact yields_none e

theorem XConfirmation.yields_observe : Yields (observe e) e.Names := by
  unfold observe
  split
  · exact yields_work e _
  · split
    iterate 3
      · exact .bind (yields_any _) fun a _ => .bind (yields_any _) fun b _ => yields_work e _
    · exact yields_branch e _ _
    · exact yields_none e

theorem Roles.yields_inspectBranch : Yields (inspectBranch e) e.Names := by
  unfold inspectBranch
  refine .bind (yields_any _) fun v _ => .bind (yields_any _) fun condition _ => ?_
  split
  · refine .bind (yields_any _) fun s _ => ?_
    split
    · exact .bind (yields_any _) fun _ _ => .bind (yields_any _) fun _ _ =>
        .bind (yields_any _) fun _ _ => .bind (yields_any _) fun _ _ => yields_some e _ _
    · exact .bind (yields_any _) fun _ _ => yields_some e _ _
  · exact yields_none e

theorem Roles.yields_observe : Yields (observe e) e.Names := by
  unfold observe
  split
  · split
    · exact .bind (yields_any _) fun _ _ => yields_work e _
    · exact yields_work e _
    · exact yields_work e _
    · exact yields_none e
  · split
    · exact yields_work e _
    · exact yields_work e _
    · exact yields_work e _
    · exact yields_inspectBranch e
    · exact yields_none e

theorem Strategy.yields_observe : Yields (observe e) e.Names := by
  have hbesides {w : Watch (Option Finding)} (hw : Yields w e.Names) {st : Strategy} {l : Ledger}
      {found : Option Finding} {s : Strategy × Ledger} (h : w.besides (st, l) = .ok found s) :
      e.Names found := by
    unfold besides at h
    simp only at h
    split at h
    · next hrun =>
      cases h
      exact hw _ _ _ hrun
    · cases h
  rintro ⟨st, l⟩ found s h
  cases st with
  | ownership ceiling => exact hbesides (Ownership.yields_observe e ceiling) h
  | hashLock maxLength => exact hbesides (HashLock.yields_observe e maxLength) h
  | multipleAuthorization ceiling => exact hbesides (MultipleAuthorization.yields_observe e ceiling) h
  | xConfirmation => exact hbesides (XConfirmation.yields_observe e) h
  | roles memo =>
    simp only [observe] at h
    split at h
    · next hrun =>
      cases h
      exact Roles.yields_observe e _ _ _ hrun
    · cases h
  | offChainSecret | singleOwner =>
    cases h
    exact fun _ hf => absurd hf (Option.not_mem_none _)

end

/-! ### Calls of a detector -/

/-- The state that a computation leaves, whether it has succeeded or failed. -/
def stateLeft {ε σ α : Type} : EStateM.Result ε σ α → σ
  | .ok _ s => s
  | .error _ s => s

/-- A strategy looks for its pattern and never for another one. -/
theorem Strategy.pattern_observe (e : Event) (st : Strategy) (l : Ledger) :
    (stateLeft (observe e (st, l))).1.pattern = st.pattern := by
  have hbesides (w : Watch (Option Finding)) :
      (stateLeft (w.besides (st, l))).1.pattern = st.pattern := by
    unfold besides
    simp only
    cases w l <;> rfl
  cases st with
  | ownership | hashLock | multipleAuthorization | xConfirmation => exact hbesides _
  | roles memo =>
    unfold observe
    simp only
    cases Roles.observe e (memo, l) <;> rfl
  | offChainSecret | singleOwner => rfl

namespace Detector

/-- A call of a detector. The taints that it finds may be any, as others have changed them since the
last call. -/
inductive Call
  | execute (event : Event) (ledger : Ledger)
  | inspect (oracle : Oracle) (space : StateSpace) (ledger : Ledger)
  | reset

/-- The detector after a call, whether that has succeeded or failed. -/
def called (d : Detector) : Call → Detector
  | .execute e l => (stateLeft (execute e (d, l))).1
  | .inspect oracle space l => (stateLeft (inspect oracle space (d, l))).1
  | .reset => d.reset

/-- What the strategy of a detector has found at a call that succeeded. -/
def found (d : Detector) : Call → List Finding
  | .execute e l =>
    match execute e (d, l) with
    | .ok found _ => found.toList
    | .error _ _ => []
  | .inspect oracle space l =>
    match d.strategy.inspect? oracle space with
    | none => []
    | some look =>
      match look (l.say (.executing d.pattern.title)) with
      | .ok found _ => found
      | .error _ _ => []
  | .reset => []

/-- The detector with a finding, unless the function has been reported. -/
def withNew (d : Detector) (f : Finding) : Detector :=
  if d.reported.contains f.functionName then d else d.withFinding f

theorem recordNew_eq (findings : List Finding) (d : Detector) (l : Ledger) :
    ∃ l', recordNew findings (d, l) = .ok () (findings.foldl withNew d, l') := by
  induction findings generalizing d l with
  | nil => exact ⟨l, rfl⟩
  | cons f rest ih =>
    have hrun : recordNew (f :: rest) (d, l) =
        (if d.reported.contains f.functionName then recordNew rest
          else record f >>= fun _ => recordNew rest) (d, l) := rfl
    rw [hrun, List.foldl_cons, withNew]
    by_cases hf : d.reported.contains f.functionName = true
    · rw [if_pos hf, if_pos hf]
      exact ih d l
    · rw [if_neg hf, if_neg hf]
      exact ih (d.withFinding f) _

theorem strategy_foldl_withNew (findings : List Finding) (d : Detector) :
    (findings.foldl withNew d).strategy = d.strategy := by
  induction findings generalizing d with
  | nil => rfl
  | cons f rest ih =>
    rw [List.foldl_cons, ih, withNew]
    split <;> rfl

/-- **A call records what is found**, but for functions that have been reported. It may change what
the strategy remembers, and nothing else. -/
theorem called_eq (d : Detector) (call : Call) (hcall : call ≠ .reset) :
    ∃ st : Strategy, st.pattern = d.pattern ∧
      d.called call = { (d.found call).foldl withNew d with strategy := st } := by
  cases call with
  | reset => exact absurd rfl hcall
  | inspect oracle space l =>
    refine ⟨d.strategy, rfl, ?_⟩
    simp only [called, found, inspect_run]
    cases d.strategy.inspect? oracle space with
    | none => rfl
    | some look =>
      have hrun : ((liftM (say (.executing d.pattern.title)) :
          EStateM Underflow (Detector × Ledger) Unit) >>= fun _ => liftM look >>= recordNew) (d, l) =
          (look.besides >>= recordNew) (d, l.say (.executing d.pattern.title)) := rfl
      simp only [Option.elim_some, hrun, bind_run, besides]
      cases look (l.say (.executing d.pattern.title)) with
      | error u l' => rfl
      | ok findings l' =>
        obtain ⟨l'', hrecord⟩ := recordNew_eq findings d l'
        simp only [hrecord, stateLeft]
        rw [← strategy_foldl_withNew findings d]
  | execute e l =>
    simp only [called, found]
    unfold execute
    simp only
    by_cases hreported : d.reported.contains e.state.functionName = true
    · rw [if_pos hreported]
      exact ⟨d.strategy, rfl, rfl⟩
    · rw [if_neg hreported]
      by_cases hwatches : d.strategy.watchesEvents = true
      · rw [if_pos hwatches]
        have hpattern := Strategy.pattern_observe e d.strategy (l.say (.executing d.pattern.title))
        have hnames := Strategy.yields_observe e (d.strategy, l.say (.executing d.pattern.title))
        cases hrun : Strategy.observe e (d.strategy, l.say (.executing d.pattern.title)) with
        | error u s =>
          rw [hrun] at hpattern
          exact ⟨s.1, hpattern, rfl⟩
        | ok found s =>
          rw [hrun] at hpattern
          refine ⟨s.1, hpattern, ?_⟩
          cases found with
          | none => rfl
          | some f =>
            have hname : f.functionName = e.state.functionName := hnames _ _ hrun f rfl
            have hnew : d.withNew f = d.withFinding f := by
              rw [withNew, hname, if_neg hreported]
            show _ = { d.withNew f with strategy := s.1 }
            rw [hnew]
            rfl
      · rw [if_neg hwatches]
        exact ⟨d.strategy, rfl, rfl⟩

/-! ### Runs of calls -/

/-- What was found since the last reset, in the order in which it was found. -/
def foundSince (found : List Finding) (d : Detector) : List Call → List Finding
  | [] => found
  | .reset :: calls => foundSince [] d.reset calls
  | call :: calls => foundSince (found ++ d.found call) (d.called call) calls

/-- A detector has recorded the first finding for each function. -/
structure Records (d : Detector) (found : List Finding) : Prop where
  findings : d.findings = firstFindings found
  coherent : d.Coherent

theorem Records.withNew {d : Detector} {found : List Finding} (h : d.Records found) (f : Finding) :
    (d.withNew f).Records (found ++ [f]) := by
  have hseen : d.reported.contains f.functionName = true ↔
      ∃ g ∈ found, g.functionName = f.functionName := by
    rw [h.coherent, h.findings, exists_mem_firstFindings]
  unfold Detector.withNew
  by_cases hf : d.reported.contains f.functionName = true
  · rw [if_pos hf]
    refine ⟨?_, h.coherent⟩
    rw [firstFindings_append_singleton, if_pos (hseen.mp hf), List.append_nil, h.findings]
  · rw [if_neg hf]
    refine ⟨?_, h.coherent.withFinding f⟩
    rw [firstFindings_append_singleton, if_neg (mt hseen.mpr hf), ← h.findings]
    rfl

theorem Records.foldl_withNew {d : Detector} {found : List Finding} (h : d.Records found)
    (findings : List Finding) : (findings.foldl Detector.withNew d).Records (found ++ findings) := by
  induction findings generalizing d found with
  | nil =>
    rw [List.append_nil]
    exact h
  | cons f rest ih =>
    rw [List.append_cons]
    exact ih (h.withNew f)

/-- **A call leaves a detector that has recorded what was found before it and at it.** -/
theorem Records.called {d : Detector} {found : List Finding} (h : d.Records found) {call : Call}
    (hcall : call ≠ .reset) : (d.called call).Records (found ++ d.found call) := by
  obtain ⟨st, -, hcalled⟩ := d.called_eq call hcall
  rw [hcalled]
  have hall := h.foldl_withNew (d.found call)
  exact ⟨hall.findings, hall.coherent⟩

theorem records_reset (d : Detector) : d.reset.Records [] := ⟨rfl, d.coherent_reset⟩

theorem Records.foldl_called {d : Detector} {found : List Finding} (h : d.Records found)
    (calls : List Call) : (calls.foldl Detector.called d).Records (d.foundSince found calls) := by
  induction calls generalizing d found with
  | nil => exact h
  | cons call calls ih =>
    rw [List.foldl_cons]
    cases call with
    | reset => exact ih d.records_reset
    | execute e l => exact ih (h.called Call.noConfusion)
    | inspect oracle space l => exact ih (h.called Call.noConfusion)

theorem pattern_called (d : Detector) (call : Call) : (d.called call).pattern = d.pattern := by
  by_cases hcall : call = .reset
  · rw [hcall]
    exact Strategy.pattern_cleared d.strategy
  · obtain ⟨st, hst, hcalled⟩ := d.called_eq call hcall
    rw [hcalled]
    exact hst

/-- A function comes up once among first findings. -/
theorem nodup_firstFindings (findings : List Finding) :
    ((firstFindings findings).map (·.functionName)).Nodup := by
  induction findings with
  | nil => exact List.nodup_nil
  | cons f rest ih =>
    rw [firstFindings, List.map_cons, List.nodup_cons]
    refine ⟨?_, ih.sublist (List.filter_sublist.map _)⟩
    intro hmem
    obtain ⟨g, hg, hname⟩ := List.mem_map.mp hmem
    exact of_decide_eq_true (List.mem_filter.mp hg).2 hname

/-- What is recorded later comes behind what was recorded before. -/
theorem findings_prefix_foldl_withNew (findings : List Finding) (d : Detector) :
    d.findings <+: (findings.foldl withNew d).findings := by
  induction findings generalizing d with
  | nil => exact List.prefix_rfl
  | cons f rest ih =>
    refine List.IsPrefix.trans ?_ (ih (d.withNew f))
    unfold withNew
    split
    · exact List.prefix_rfl
    · exact List.prefix_append d.findings [f]

/-- **A detector reports each function once.** After any calls, on whatever events and state spaces
and whether they succeeded or failed, no two findings of a detector have the same name; the names that
it takes for reported are those of its findings; every further call but a reset keeps its findings as
they are, in front of new ones; and its item of a report, for the pattern it was made for, lists the
first finding for each function since the last reset, in the order in which they were found. -/
theorem reports_once (st : Strategy) (calls : List Call) :
    let d := calls.foldl called { strategy := st }
    (d.findings.map (·.functionName)).Nodup ∧
      (∀ name, name ∈ d.reported ↔ name ∈ d.findings.map (·.functionName)) ∧
      (∀ call, call = .reset ∨ d.findings <+: (d.called call).findings) ∧
      Analysis.reportItem d = { ReportItem.ofPattern st.pattern with
        findings := firstFindings (foundSince [] { strategy := st } calls) } := by
  intro d
  have hnew : Records { strategy := st } [] := ⟨rfl, fun name => by simp⟩
  have hd : d.Records (foundSince [] { strategy := st } calls) := hnew.foldl_called calls
  have hpattern : d.pattern = st.pattern :=
    List.foldlRecOn calls called (motive := fun d => d.pattern = st.pattern) rfl
      fun d hd call _ => (d.pattern_called call).trans hd
  refine ⟨?_, ?_, ?_, ?_⟩
  · rw [hd.findings]
    exact nodup_firstFindings _
  · intro name
    rw [Std.TreeSet.mem_iff_contains, hd.coherent name, List.mem_map]
  · intro call
    by_cases hcall : call = .reset
    · exact .inl hcall
    · obtain ⟨st', -, hcalled⟩ := d.called_eq call hcall
      rw [hcalled]
      exact .inr (findings_prefix_foldl_withNew (d.found call) d)
  · rw [Analysis.reportItem_eq, hpattern, hd.findings]

end Detector

end GuardFinder

import GuardFinder.Proofs.Forest
import GuardFinder.Proofs.Influence
import GuardFinder.Proofs.Inspections
import GuardFinder.Proofs.Tracking

/-!
# Passing over reported functions

A detector passes over the events of a function that it has reported. That saves work, but it also
leaves out taints, which a path may carry on to another function.

* `firstFindings`: the first finding of each function.
* `Strategy.watcher`: an observer that passes over nothing.
* `StateSpace.Beyond`: the functions that a path comes to from others.
* `Analysis.listed_alone`: **what is passed over makes no difference but to these**.
-/

namespace GuardFinder

/-! ### First findings -/

/-- The first finding of each function. -/
def firstFindings : List Finding → List Finding
  | [] => []
  | f :: rest => f :: (firstFindings rest).filter (·.functionName ≠ f.functionName)

theorem exists_mem_firstFindings {name : String} (findings : List Finding) :
    (∃ f ∈ firstFindings findings, f.functionName = name) ↔
      ∃ f ∈ findings, f.functionName = name := by
  induction findings with
  | nil => exact Iff.rfl
  | cons f rest ih =>
    simp only [firstFindings, List.exists_mem_cons_iff, List.mem_filter, decide_eq_true_eq]
    by_cases hf : f.functionName = name
    · simp [hf]
    · simp only [hf, false_or, ← ih]
      refine exists_congr fun g => ⟨fun ⟨⟨hg, _⟩, hname⟩ => ⟨hg, hname⟩, fun ⟨hg, hname⟩ => ?_⟩
      exact ⟨⟨hg, fun heq => hf (heq ▸ hname)⟩, hname⟩

theorem mem_names_firstFindings {name : String} {findings : List Finding} :
    name ∈ (firstFindings findings).map (·.functionName) ↔
      name ∈ findings.map (·.functionName) := by
  simpa using exists_mem_firstFindings findings

theorem firstFindings_append_singleton (findings : List Finding) (f : Finding) :
    firstFindings (findings ++ [f]) =
      firstFindings findings ++
        if ∃ g ∈ findings, g.functionName = f.functionName then [] else [f] := by
  induction findings with
  | nil => simp [firstFindings]
  | cons g rest ih =>
    simp only [List.cons_append, firstFindings, ih, List.filter_append, List.exists_mem_cons_iff]
    by_cases hg : g.functionName = f.functionName
    · simp [hg]
    · by_cases hrest : ∃ h ∈ rest, h.functionName = f.functionName
      · simp [hrest]
      · have hne : f.functionName ≠ g.functionName := Ne.symm hg
        simp [hg, hrest, hne]

/-! ### Observers that pass over nothing -/

/-- An observer that shows a strategy all events and collects what it finds. -/
def Strategy.watcher : Observer (Strategy × List Finding) where
  notify _ e := fun ((st, found), ledger) =>
    match observe e (st, ledger) with
    | .ok finding? (st, ledger) => .ok () ((st, found ++ finding?.toList), ledger)
    | .error u (st, ledger) => .error (.stackUnderflow u) ((st, found), ledger)

/-- How a strategy that passes over nothing reacts to what it sees. -/
def Strategy.react : Reaction (Strategy × List Finding) := fun _ s ((st, found), τ) =>
  ((st.next τ s, found ++ (st.finding? τ s).toList), τ.editAll (st.edits τ s))

theorem Strategy.local_react : Strategy.react.Local := by
  rintro i s ⟨⟨st, found⟩, τ⟩ tag hshows
  refine Taints.get_editAll_of_ne fun edit hedit heq => hshows ?_
  rw [heq]
  exact (mem_edits hedit).shows

/-- A strategy that is shown the events it asked for reacts in its way. -/
theorem Strategy.follows_opcodes {x : Explorer} {d : Detector}
    (h : Registry.Serves ⟨[d]⟩ x.hooks) (code : Bytes) :
    (x.setting watcher code).Follows react fun v => v.1.opcodes = d.strategy.opcodes := by
  rintro op e he i hi ⟨⟨st, found⟩, l⟩ hst
  obtain ⟨d', hd', hwish⟩ := h _ (Registry.mem_hooks_of_mem_subscribers hi)
  obtain rfl : d' = d := List.mem_singleton.mp (List.mem_of_getElem? hd')
  have hasks : st.Asks e.phase op := by
    have hasks := Detector.mem_wishes.mp hwish
    unfold Asks at hasks ⊢
    rw [hst]
    exact hasks
  obtain ⟨log, hrun⟩ := observe_eq he hasks l
  refine ⟨((st.next l.taints e.sight, found ++ (st.finding? l.taints e.sight).toList),
    { l with taints := l.taints.editAll (st.edits l.taints e.sight), log }), ?_, rfl,
    (opcodes_next st _ _).trans hst⟩
  simp only [Explorer.setting, watcher, hrun]

/-- One that remembers nothing stays what it is. -/
theorem Strategy.follows_setting {x : Explorer} {d : Detector}
    (h : Registry.Serves ⟨[d]⟩ x.hooks) (hd : ∀ τ s, d.strategy.next τ s = d.strategy)
    (code : Bytes) :
    (x.setting watcher code).Follows react fun v => v.1 = d.strategy := by
  intro op e he i hi watch hwatch
  obtain ⟨watch', hrun, hreact, -⟩ :=
    follows_opcodes h code he i hi watch (congrArg opcodes hwatch)
  refine ⟨watch', hrun, hreact, ?_⟩
  have hnext : watch'.1.1 = watch.1.1.next watch.2.taints e.sight := congrArg (·.1.1) hreact
  exact hnext.trans (hwatch ▸ hd _ _)

/-! ### Functions beyond others -/

namespace StateSpace

/-- A node of one of the named functions, or one that a path comes to from such a node. -/
def Under (s : StateSpace) (names : List String) (v : Nat) : Prop :=
  ∃ u, s.Above u v ∧ ∃ name ∈ names, s.nameAt? u = some name

/-- A path comes to a function from another one, which is one of the named functions. -/
def Beyond (s : StateSpace) (names : List String) (name : String) : Prop :=
  ∃ u v, s.Above u v ∧ s.nameAt? v = some name ∧
    ∃ other ∈ names, other ≠ name ∧ s.nameAt? u = some other

variable {s s' : StateSpace} {names names' : List String} {name : String} {v : Nat}

theorem Under.mono (h : s.Under names v) (hs : s.GrowsTo s') (hnames : names ⊆ names') :
    s'.Under names' v := by
  obtain ⟨u, habove, name, hname, hu⟩ := h
  exact ⟨u, habove.mono hs, name, hnames hname, hs.name hu⟩

theorem Beyond.mono (h : s.Beyond names name) (hs : s.GrowsTo s') (hnames : names ⊆ names') :
    s'.Beyond names' name := by
  obtain ⟨u, v, habove, hv, other, hother, hne, hu⟩ := h
  exact ⟨u, v, habove.mono hs, hs.name hv, other, hnames hother, hne, hs.name hu⟩

theorem Under.below {e : Edge} (h : s.Under names e.source) (he : e ∈ s.edges) :
    s.Under names e.target := by
  obtain ⟨u, habove, hu⟩ := h
  exact ⟨u, habove.snoc he, hu⟩

theorem Under.of_mem (hv : s.nameAt? v = some name) (hname : name ∈ names) : s.Under names v :=
  ⟨v, .refl s v, name, hname, hv⟩

/-- The function of such a node is one of those named, or beyond them. -/
theorem Under.mem_or_beyond (h : s.Under names v) (hv : s.nameAt? v = some name) :
    name ∈ names ∨ s.Beyond names name := by
  obtain ⟨u, habove, other, hother, hu⟩ := h
  by_cases heq : other = name
  · exact .inl (heq ▸ hother)
  · exact .inr ⟨u, v, habove, hv, other, hother, heq, hu⟩

end StateSpace

/-! ### Findings that agree -/

/-- Two lists of findings agree, but for some functions. -/
def AgreeBut (spoiled : String → Prop) (fs gs : List Finding) : Prop :=
  ∀ keep : String → Bool, (∀ name, keep name = true → ¬spoiled name) →
    fs.filter (keep ·.functionName) = gs.filter (keep ·.functionName)

namespace AgreeBut

variable {spoiled spoiled' : String → Prop} {fs gs : List Finding} {f : Finding} {name : String}

theorem mem_names_iff (h : AgreeBut spoiled fs gs) (hname : ¬spoiled name) :
    name ∈ fs.map (·.functionName) ↔ name ∈ gs.map (·.functionName) := by
  have hkeep := h (· = name) fun other hother => of_decide_eq_true hother ▸ hname
  have hmem (l : List Finding) : name ∈ l.map (·.functionName) ↔
      l.filter (fun f => f.functionName = name) ≠ [] := by
    simp [List.filter_eq_nil_iff]
  rw [hmem, hmem, hkeep]

theorem mono (h : AgreeBut spoiled fs gs) (hspoiled : ∀ name, spoiled name → spoiled' name) :
    AgreeBut spoiled' fs gs :=
  fun keep hkeep => h keep fun name hname hname' => hkeep name hname (hspoiled name hname')

theorem symm (h : AgreeBut spoiled fs gs) : AgreeBut spoiled gs fs :=
  fun keep hkeep => (h keep hkeep).symm

theorem append_left (h : AgreeBut spoiled fs gs) (hf : spoiled f.functionName) :
    AgreeBut spoiled (fs ++ [f]) gs := by
  intro keep hkeep
  have hdrop : keep f.functionName = false :=
    Bool.eq_false_iff.mpr fun hf' => hkeep _ hf' hf
  rw [List.filter_append, List.filter_cons_of_neg (by simp [hdrop]), List.filter_nil,
    List.append_nil, h keep hkeep]

theorem append (h : AgreeBut spoiled fs gs) (added : List Finding) :
    AgreeBut spoiled (fs ++ added) (gs ++ added) := by
  intro keep hkeep
  rw [List.filter_append, List.filter_append, h keep hkeep]

theorem eq (h : AgreeBut spoiled fs gs) (hspoiled : ∀ name, ¬spoiled name) : fs = gs := by
  have hall := h (fun _ => true) fun name _ => hspoiled name
  rwa [List.filter_true, List.filter_true] at hall

end AgreeBut

/-! ### The comparison -/

section

variable {spoiled : String → Prop} {fs found : List Finding} {name : String}
  {finding? finding'? : Option Finding}
  (h : AgreeBut spoiled fs (firstFindings found))
include h

/-- A finding that comes later than others of its function does not count. -/
theorem AgreeBut.firstFindings_append (hfinding : ∀ f ∈ finding?, f.functionName = name)
    (hname : spoiled name ∨ name ∈ fs.map (·.functionName)) :
    AgreeBut spoiled fs (firstFindings (found ++ finding?.toList)) := by
  cases finding? with
  | none => simpa using h
  | some f =>
    rw [Option.toList_some, firstFindings_append_singleton]
    split
    · rw [List.append_nil]
      exact h
    · next hnew =>
      have hf := hfinding f rfl
      have hspoiled : spoiled name := by
        by_contra hspoiled
        have hfound := mem_names_firstFindings.mp
          ((h.mem_names_iff hspoiled).mp (hname.resolve_left hspoiled))
        exact hnew (hf ▸ List.mem_map.mp hfound)
      exact (h.symm.append_left (hf ▸ hspoiled)).symm

/-- Findings of a function that is spoiled do not matter. -/
theorem AgreeBut.append_spoiled (hfinding : ∀ f ∈ finding?, f.functionName = name)
    (hfinding' : ∀ f ∈ finding'?, f.functionName = name) (hname : spoiled name) :
    AgreeBut spoiled (fs ++ finding?.toList) (firstFindings (found ++ finding'?.toList)) := by
  refine AgreeBut.firstFindings_append ?_ hfinding' (.inl hname)
  cases finding? with
  | none => simpa using h
  | some f => exact h.append_left (hfinding f rfl ▸ hname)

/-- A finding that is the first on both sides is added to both. -/
theorem AgreeBut.append_first (hfinding : ∀ f ∈ finding?, f.functionName = name)
    (hname : name ∉ fs.map (·.functionName)) :
    AgreeBut spoiled (fs ++ finding?.toList) (firstFindings (found ++ finding?.toList)) := by
  by_cases hspoiled : spoiled name
  · exact h.append_spoiled hfinding hfinding hspoiled
  · cases finding? with
    | none => simpa using h
    | some f =>
      have hnew : ¬∃ g ∈ found, g.functionName = f.functionName := by
        rw [hfinding f rfl, ← List.mem_map, ← mem_names_firstFindings, ← h.mem_names_iff hspoiled]
        exact hname
      rw [Option.toList_some, firstFindings_append_singleton, if_neg hnew]
      exact h.append [f]

end

section

variable {st : Strategy} {d : Detector} {found : List Finding} {τ τ' : Taints} {s : Sight}
  {space : StateSpace} {node : Nat}

theorem Strategy.functionName_finding? {f : Finding} (h : st.finding? τ s = some f) :
    f.functionName = s.functionName := by
  unfold finding? at h
  split at h
  · split at h
    · rw [← Option.some.inj h]
    · cases h
  · cases h

/-- The functions that a detector has found. -/
def Detector.names (d : Detector) : List String := d.findings.map (·.functionName)

theorem Detector.Coherent.reported_iff (h : d.Coherent) {name : String} :
    d.reported.contains name = true ↔ name ∈ d.names :=
  (h name).trans List.mem_map.symm

theorem Detector.names_subset_after (d : Detector) (τ : Taints) (s : Sight) :
    d.names ⊆ (d.after τ s).names :=
  List.map_subset _ (d.mem_findings_after τ s)

/-- What is compared: a detector of the strategy with the strategy that passes over nothing. Lost
are the nodes of functions that have a finding, and those that paths come to from there. -/
def Strategy.comparison (st : Strategy) : Comparison Registry (Strategy × List Finding) where
  reads := st.Reads
  kept space r v := ∃ d : Detector, r = ⟨[d]⟩ ∧ d.strategy = st ∧ d.Coherent ∧ v.1 = st ∧
    AgreeBut (space.Beyond d.names) d.findings (firstFindings v.2)
  lost space r _ node := ∃ d : Detector, r = ⟨[d]⟩ ∧ space.Under d.names node

/-- A detector that passes over events of functions it has a finding of goes on to have the first
findings of a strategy that passes over nothing, but for functions beyond these. Where the node is
not lost, their taints go on to agree. -/
theorem Detector.agree_after (hcoherent : d.Coherent)
    (hagree : AgreeBut (space.Beyond d.names) d.findings (firstFindings found))
    (hnode : space.nameAt? node = some s.functionName)
    (htaints : space.Under d.names node ∨ s.Agree d.strategy.Reads τ τ') :
    AgreeBut (space.Beyond (d.after τ s).names) (d.after τ s).findings
        (firstFindings (found ++ (d.strategy.finding? τ' s).toList)) ∧
      (space.Under (d.after τ s).names node ∨
        s.Agree d.strategy.Reads (τ.editAll (d.edits τ s))
          (τ'.editAll (d.strategy.edits τ' s))) := by
  have hname : ∀ f ∈ d.strategy.finding? τ s, f.functionName = s.functionName :=
    fun f hf => Strategy.functionName_finding? hf
  have hname' : ∀ f ∈ d.strategy.finding? τ' s, f.functionName = s.functionName :=
    fun f hf => Strategy.functionName_finding? hf
  have hgrown := d.names_subset_after τ s
  have hmono := hagree.mono fun _ h => h.mono (.refl space) hgrown
  by_cases hreported : d.reported.contains s.functionName = true
  · -- the detector passes over the event
    have hknown := hcoherent.reported_iff.mp hreported
    rw [show d.after τ s = d from if_pos hreported]
    exact ⟨hagree.firstFindings_append hname' (.inr hknown), .inl (.of_mem hnode hknown)⟩
  have hunknown : s.functionName ∉ d.names := fun h => hreported (hcoherent.reported_iff.mpr h)
  rw [d.findings_after τ s, if_neg hreported]
  rcases htaints with hunder | hshown
  · -- the taints may differ, and so may the findings of this function
    have hbeyond := (hunder.mem_or_beyond hnode).resolve_left hunknown
    exact ⟨hmono.append_spoiled hname hname' (hbeyond.mono (.refl space) hgrown),
      .inl (hunder.mono (.refl space) hgrown)⟩
  · have hfinding : d.strategy.finding? τ s = d.strategy.finding? τ' s :=
      Strategy.finding?_congr (hshown.mono fun _ h => .inr (.inl h))
        (hshown.mono fun _ h => .inr (.inr h))
    have hedits : d.edits τ s = d.strategy.edits τ' s := by
      rw [Detector.edits, if_neg hreported,
        Strategy.edits_congr (hshown.mono fun _ h => .inl h)]
    rw [hfinding, hedits]
    exact ⟨hmono.append_first hname' hunknown, .inr fun tag htag => (hshown tag htag).editAll _⟩

/-- The comparison outlasts a notification. -/
theorem Strategy.holds_react (hst : ∀ τ s, st.next τ s = st)
    (hnode : space.nameAt? node = some s.functionName) {a : Registry × Taints}
    {b : (Strategy × List Finding) × Taints} (h : st.comparison.Holds space node s.Shows a b) :
    st.comparison.Holds space node s.Shows (Registry.react 0 s a) (react 0 s b) ∧
      ∀ ⦃node⦄, st.comparison.lost space a.1 b.1 node →
        st.comparison.lost space (Registry.react 0 s a).1 (react 0 s b).1 node := by
  obtain ⟨_, τ⟩ := a
  obtain ⟨⟨_, found⟩, τ'⟩ := b
  obtain ⟨⟨d, rfl, rfl, hcoherent, rfl, hagree⟩, htaints⟩ := h
  have hunder : space.Under d.names node ∨ s.Agree d.strategy.Reads τ τ' := by
    refine htaints.imp_left ?_
    rintro ⟨_, heq, hunder⟩
    cases heq
    exact hunder
  have hstrategy : (d.after τ s).strategy = d.strategy := by
    rw [Detector.strategy_after, hst, ite_self]
  obtain ⟨hfindings, hafter⟩ := Detector.agree_after hcoherent hagree hnode hunder
  have hreact : Registry.react 0 s (⟨[d]⟩, τ) =
      (⟨[d.after τ s]⟩, τ.editAll (d.edits τ s)) := rfl
  rw [hreact]
  refine ⟨⟨⟨d.after τ s, rfl, hstrategy, hcoherent.after τ s, hst _ _, hfindings⟩,
    hafter.imp_left fun h => ⟨_, rfl, h⟩⟩, ?_⟩
  rintro node ⟨_, heq, h⟩
  cases heq
  exact ⟨_, rfl, h.mono (.refl space) (d.names_subset_after τ s)⟩

end

theorem Strategy.tracks {st : Strategy} (hst : ∀ τ s, st.next τ s = st) {x : Explorer}
    {d : Detector} (hserves : Registry.Serves ⟨[d]⟩ x.hooks) (code : Bytes) :
    Tracks st.comparison (x.setting Registry.observer code) (x.setting watcher code)
      Registry.react react where
  local₁ := Registry.local_react
  local₂ := local_react
  ignores₁ := hserves.ignoresJumps
  ignores₂ := hserves.ignoresJumps
  event := by
    intro op e habout _ space node a b hnode h
    have hall (subscribers : List Nat) (hzero : ∀ i ∈ subscribers, i = 0)
        (a : Registry × Taints) (b : (Strategy × List Finding) × Taints)
        (h : st.comparison.Holds space node e.sight.Shows a b) :
        st.comparison.Holds space node e.sight.Shows
            (subscribers.foldl (fun a i => Registry.react i e.sight a) a)
            (subscribers.foldl (fun b i => react i e.sight b) b) ∧
          ∀ ⦃node⦄, st.comparison.lost space a.1 b.1 node →
            st.comparison.lost space (subscribers.foldl (fun a i => Registry.react i e.sight a) a).1
              (subscribers.foldl (fun b i => react i e.sight b) b).1 node := by
      induction subscribers generalizing a b with
      | nil => exact ⟨h, fun _ h => h⟩
      | cons i rest ih =>
        obtain rfl := hzero i List.mem_cons_self
        obtain ⟨hfirst, hlost⟩ := holds_react hst hnode h
        obtain ⟨hrest, hlost'⟩ :=
          ih (fun j hj => hzero j (List.mem_cons_of_mem _ hj)) _ _ hfirst
        exact ⟨hrest, fun _ h => hlost' (hlost h)⟩
    refine hall _ (fun i hi => ?_) a b h
    obtain ⟨d', hd', -⟩ := hserves _ (Registry.mem_hooks_of_mem_subscribers hi)
    have hlt := (List.getElem?_eq_some_iff.mp hd').1
    exact Nat.lt_one_iff.mp hlt
  kept_mono := by
    rintro s s' r v hs ⟨d, hr, hd, hcoherent, hv, hagree⟩
    exact ⟨d, hr, hd, hcoherent, hv, hagree.mono fun _ h => h.mono hs (List.Subset.refl _)⟩
  lost_mono := by
    rintro s s' r v node hs ⟨d, hr, hunder⟩
    exact ⟨d, hr, hunder.mono hs (List.Subset.refl _)⟩
  lost_below := by
    rintro s r v e he ⟨d, hr, hunder⟩
    exact ⟨d, hr, hunder.below he⟩

/-! ### Analyses -/

/-- A new analysis for some patterns. -/
def Analysis.ofPatterns (s : Settings) (ps : List Pattern) : Analysis :=
  new s ⟨ps.map (.ofPattern s)⟩

/-- The findings that a report lists for the detectors, one list for each. -/
def Analysis.listed (a : Analysis) (target : Target) (snapshot : Option Snapshot) :
    Except AnalysisError (List (List Finding)) :=
  (a.outcome target (snapshot.map Snapshot.reader)).map fun report => report.items.map (·.findings)

/-- A finding as a report lists it. -/
def Target.fill (target : Target) (snapshot : Option Snapshot) (f : Finding) : Finding :=
  match target.address?, snapshot with
  | some _, some s => s.fill f
  | _, _ => f

theorem Analysis.exists_report (target : Target) (snapshot : Option Snapshot) (r : Registry) :
    ∃ result, report target (snapshot.map Snapshot.reader) r = .ok result ∧
      result.items.map (·.findings) =
        r.detectors.map fun d => d.findings.map (target.fill snapshot) := by
  unfold report Target.fill
  cases target.address? with
  | none =>
    refine ⟨_, rfl, ?_⟩
    simp
  | some address =>
    cases snapshot with
    | none =>
      refine ⟨_, rfl, ?_⟩
      simp
    | some snapshot =>
      simp only [Option.map_some, resolveItems_reader]
      refine ⟨_, rfl, ?_⟩
      simp

theorem Analysis.listed_eq {a : Analysis} (ho : a.oracle.Blind) {target : Target}
    {space : StateSpace} (hresult : (a.explored target).result = .ok space)
    (hspace : space.Supported) (snapshot : Option Snapshot) :
    a.listed target snapshot = .ok
      (((a.explored target).watch.1.inspected a.oracle space).detectors.map
        fun d => d.findings.map (target.fill snapshot)) := by
  obtain ⟨result, hreport, hitems⟩ := exists_report target snapshot
    ((a.explored target).watch.1.inspected a.oracle space)
  rw [listed, outcome_eq ho hresult hspace, hreport]
  exact congrArg Except.ok hitems

/-- The patterns whose detectors remember nothing but their findings. -/
def Pattern.plain : List Pattern := [.ownership, .hashLock, .multipleAuthorization, .xConfirmation]

@[simp] theorem Detector.reset_ofPattern (s : Settings) (p : Pattern) :
    (ofPattern s p).reset = ofPattern s p := by
  cases p <;> rfl

theorem Detector.coherent_ofPattern (s : Settings) (p : Pattern) : (ofPattern s p).Coherent := by
  rw [← reset_ofPattern]
  exact coherent_reset _

end GuardFinder

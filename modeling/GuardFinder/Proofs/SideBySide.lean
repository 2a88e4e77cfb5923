import GuardFinder.Proofs.Deduplication
import GuardFinder.Proofs.Repetition

/-!
# Detectors side by side

All detectors of an analysis work on the same taints. A detector for a pattern that works among
others is compared with one that works alone: as long as the others only put marks that it would put
as well, it finds the same. But the others go on to put marks where it has reported a function and
looks away, and paths may carry these marks on to functions where it looks again.

* `Selection`: what is compared, and of which detectors. `Selection.Valid`: what others may do.
* `Selection.Same`, `Selection.foldl_idle`, `Selection.foldl_live`: detectors for one pattern in one
  analysis do the same.
* `Selection.Matches`, `Selection.Matches.after`: a detector that has found what the one alone has
  found, and an event that both are told of.
* `Selection.tracks`: **they match during an exploration**.
-/

namespace GuardFinder

/-! ### Subscribers -/

theorem Registry.mem_hooks {r : Registry} {hook : Hook} :
    hook ∈ r.hooks.map (·.1) ↔
      ∃ d, r.detectors[hook.subscriber]? = some d ∧ (hook.phase, hook.opcode) ∈ d.wishes := by
  refine ⟨r.serves_hooks hook, fun ⟨d, hd, hwish⟩ => ?_⟩
  have hentry : (d, hook.subscriber) ∈ r.detectors.zipIdx := List.mem_zipIdx_iff_getElem?.mpr hd
  refine List.mem_map.mpr ⟨(hook, d.pattern), List.mem_flatMap.mpr ⟨_, hentry, ?_⟩, rfl⟩
  exact List.mem_map.mpr ⟨_, hwish, rfl⟩

section

variable {s : Settings} {ps : List Pattern} {σ : Type} (observer : Observer σ) (code : Bytes)
  (phase : Phase) (op : Opcode)

theorem Analysis.mem_subscribers {i : Nat} :
    i ∈ ((ofPatterns s ps).prepare.explorer.setting observer code).subscribers phase op ↔
      ∃ p, ps[i]? = some p ∧ (Strategy.ofPattern s p).Asks phase op := by
  have hhooks : ⟨phase, op, i⟩ ∈ (ofPatterns s ps).prepare.explorer.hooks ↔
      ⟨phase, op, i⟩ ∈ (ofPatterns s ps).prepare.registry.hooks.map (·.1) :=
    (Explorer.mem_hooks_registered _ _).trans (or_iff_right List.not_mem_nil)
  rw [Setting.mem_subscribers]
  refine hhooks.trans (Registry.mem_hooks.trans ?_)
  simp only [prepare, ofPatterns, new, Registry.reset, List.map_map, List.getElem?_map,
    Option.map_eq_some_iff, Function.comp_apply, Detector.reset_ofPattern]
  constructor
  · rintro ⟨_, ⟨p, hp, rfl⟩, hwish⟩
    exact ⟨p, hp, Detector.mem_wishes.mp hwish⟩
  · rintro ⟨p, hp, hasks⟩
    exact ⟨_, ⟨p, hp, rfl⟩, Detector.mem_wishes.mpr hasks⟩

theorem Analysis.nodup_subscribers :
    (((ofPatterns s ps).prepare.explorer.setting observer code).subscribers phase op).Nodup :=
  Setting.nodup_subscribers (Explorer.nodup_hooks_registered _ _ List.nodup_nil) phase op

/-- A lone detector is told of the events that it asks for. -/
theorem Analysis.subscribers_alone (p : Pattern) :
    ((ofPatterns s [p]).prepare.explorer.setting observer code).subscribers phase op = [0] ∧
        (Strategy.ofPattern s p).Asks phase op ∨
      ((ofPatterns s [p]).prepare.explorer.setting observer code).subscribers phase op = [] ∧
        ¬(Strategy.ofPattern s p).Asks phase op := by
  have hmem (i : Nat) :
      i ∈ ((ofPatterns s [p]).prepare.explorer.setting observer code).subscribers phase op ↔
        i = 0 ∧ (Strategy.ofPattern s p).Asks phase op := by
    rw [mem_subscribers]
    cases i <;> simp
  have hnodup := @nodup_subscribers s [p] σ observer code phase op
  revert hmem hnodup
  generalize ((ofPatterns s [p]).prepare.explorer.setting observer code).subscribers phase op = l
  intro hmem hnodup
  cases l with
  | nil => exact .inr ⟨rfl, fun hasks => List.not_mem_nil ((hmem 0).mpr ⟨rfl, hasks⟩)⟩
  | cons i rest =>
    obtain ⟨rfl, hasks⟩ := (hmem i).mp List.mem_cons_self
    refine .inl ⟨?_, hasks⟩
    have hrest : rest = [] := by
      refine List.eq_nil_iff_forall_not_mem.mpr fun j hj => ?_
      obtain ⟨rfl, -⟩ := (hmem j).mp (List.mem_cons_of_mem _ hj)
      exact (List.nodup_cons.mp hnodup).1 hj
    rw [hrest]

end

theorem Event.About.sight {op : Opcode} {e : Event} (h : e.About op) :
    e.sight.phase = e.phase ∧ e.sight.opcode = op := by
  cases h with
  | pre opcode operands => exact ⟨rfl, opcode⟩
  | post opcode operands results => exact ⟨rfl, opcode⟩

/-! ### What is compared -/

namespace StateSpace

/-- Functions that a path comes to from another one, which is one of those named. For a detector
that remembers words across functions, all functions if there is one of these. -/
def Spoils (space : StateSpace) (p : Pattern) (names : List String) (name : String) : Prop :=
  space.Beyond names name ∨ p = .roles ∧ ∃ other, space.Beyond names other

/-- Nodes of the named functions and those that paths come to from there. For a detector that
remembers words, all nodes if a path comes to another function. -/
def Loses (space : StateSpace) (p : Pattern) (names : List String) (node : Nat) : Prop :=
  space.Under names node ∨ p = .roles ∧ ∃ other, space.Beyond names other

variable {space space' : StateSpace} {p : Pattern} {names names' : List String} {name : String}
  {node : Nat}

theorem Spoils.mono (h : space.Spoils p names name) (hs : space.GrowsTo space')
    (hnames : names ⊆ names') : space'.Spoils p names' name := by
  rcases h with h | ⟨hp, other, h⟩
  · exact .inl (h.mono hs hnames)
  · exact .inr ⟨hp, other, h.mono hs hnames⟩

theorem Loses.mono (h : space.Loses p names node) (hs : space.GrowsTo space')
    (hnames : names ⊆ names') : space'.Loses p names' node := by
  rcases h with h | ⟨hp, other, h⟩
  · exact .inl (h.mono hs hnames)
  · exact .inr ⟨hp, other, h.mono hs hnames⟩

theorem Spoils.exists_beyond (h : space.Spoils p names name) : ∃ other, space.Beyond names other :=
  h.elim (fun h => ⟨_, h⟩) And.right

theorem Loses.mem_or_spoils (h : space.Loses p names node)
    (hnode : space.nameAt? node = some name) : name ∈ names ∨ space.Spoils p names name :=
  h.elim (fun h => (h.mem_or_beyond hnode).imp_right .inl) fun h => .inr (.inr h)

end StateSpace

/-- A way to compare the detectors for a pattern in two analyses, among others and alone. -/
structure Selection where
  settings : Settings
  patterns : List Pattern
  pattern : Pattern
  /-- The taints that are compared. -/
  reads : Taint → Prop
  /-- Other detectors may put some of them. -/
  mixed : Prop
  /-- What is compared of a finding. -/
  view : Finding → Finding

namespace Selection

/-- The strategy at the start of a run. -/
def strategy (c : Selection) : Strategy := .ofPattern c.settings c.pattern

/-- All that matters to the detector is compared, and others do no more than put marks. -/
structure Valid (c : Selection) : Prop where
  listed : c.pattern ∈ c.patterns
  decides : ∀ a, c.strategy.Decides a → c.reads a
  judges : ∀ a, c.strategy.Judges a → c.reads a
  names : (∀ a, c.strategy.Names a → c.reads a) ∨ ∀ f slot, c.view { f with slot } = c.view f
  reads : ∀ a, c.reads a → c.strategy.Reads a
  functionName : ∀ f, (c.view f).functionName = f.functionName
  others : ∀ st : Strategy, st.pattern ∈ c.patterns → st.pattern ≠ c.pattern →
    ∀ τ s, ∀ edit ∈ st.edits τ s, c.reads edit.taint → c.mixed ∧ edit ∈ s.marks

end Selection

section

variable {st : Strategy} {reads : Taint → Prop} {s : Sight} {τ τ' τ'' : Taints}

/-- What matters to a strategy does not depend on what it remembers. -/
theorem Strategy.decides_cleared (st : Strategy) (a : Taint) :
    st.cleared.Decides a ↔ st.Decides a := by
  cases st with
  | roles memo => cases a <;> exact .rfl
  | _ => exact .rfl

theorem Strategy.judges_cleared (st : Strategy) (a : Taint) :
    st.cleared.Judges a ↔ st.Judges a := by
  cases st with
  | roles memo => cases a <;> exact .rfl
  | _ => exact .rfl

theorem Strategy.names_cleared (st : Strategy) (a : Taint) : st.cleared.Names a ↔ st.Names a := by
  cases st with
  | roles memo => cases a <;> exact .rfl
  | _ => exact .rfl

theorem Strategy.reads_cleared (st : Strategy) (a : Taint) : st.cleared.Reads a ↔ st.Reads a :=
  or_congr (st.decides_cleared a) (or_congr (st.judges_cleared a) (st.names_cleared a))

theorem Strategy.next_eq_self (h : st.pattern ≠ .roles) (τ : Taints) (s : Sight) :
    st.next τ s = st := by
  cases st with
  | roles memo => exact absurd rfl h
  | _ => rfl

theorem Sight.Agree.trans (h : s.Agree reads τ τ') (h' : s.Agree reads τ' τ'') :
    s.Agree reads τ τ'' :=
  fun tag hshows a ha => (h tag hshows a ha).trans (h' tag hshows a ha)

end

/-! ### One event, detector by detector -/

namespace Selection

/-- Taints that make a strategy do the same at a sight. -/
structure Alike (c : Selection) (s : Sight) (st : Strategy) (τ τ' : Taints) : Prop where
  edited : s.Agree c.reads (st.edited s τ) (st.edited s τ')
  finding : (st.finding? τ s).map c.view = (st.finding? τ' s).map c.view
  next : st.next τ s = st.next τ' s

variable {c : Selection} {s : Sight} {st : Strategy} {τ τ' τ'' : Taints} {edits : List Edit}

theorem Alike.trans (h : c.Alike s st τ τ') (h' : c.Alike s st τ' τ'') : c.Alike s st τ τ'' where
  edited := h.edited.trans h'.edited
  finding := h.finding.trans h'.finding
  next := h.next.trans h'.next

/-- A copy of the detector before makes no difference. -/
theorem alike_edited (c : Selection) (st : Strategy) (hfresh : s.Fresh) (τ : Taints) :
    c.Alike s st (st.edited s τ) τ where
  edited := (st.edited_edited hfresh τ).agree s c.reads
  finding := by rw [st.finding?_edited]
  next := st.next_edited τ

namespace Valid

variable (hc : c.Valid) (hst : st.cleared = c.strategy)
include hc hst

theorem alike_of_agree (h : s.Agree c.reads τ τ') : c.Alike s st τ τ' := by
  have hdecides : s.Agree st.Decides τ τ' :=
    h.mono fun a ha => hc.decides a (hst ▸ (st.decides_cleared a).mpr ha)
  have hjudges : s.Agree st.Judges τ τ' :=
    h.mono fun a ha => hc.judges a (hst ▸ (st.judges_cleared a).mpr ha)
  refine ⟨fun tag htag => ?_, ?_, Strategy.next_congr hdecides⟩
  · rw [Strategy.edited, Strategy.edited, Strategy.edits_congr hdecides]
    exact (h tag htag).editAll _
  · rcases hc.names with hnames | hview
    · have hnames' : s.Agree st.Names τ τ' :=
        h.mono fun a ha => hnames a (hst ▸ (st.names_cleared a).mpr ha)
      rw [Strategy.finding?_congr hjudges hnames']
    · unfold Strategy.finding?
      split
      · next hargs =>
        rw [Strategy.isGuard_congr (hjudges _ (Sight.shows_second hargs))]
        split
        · have hslot := hview ⟨s.functionName, none, none⟩
          exact congrArg some ((hslot _).trans (hslot _).symm)
        · rfl
      · rfl

/-- Nor do others before, who only put marks. -/
theorem alike_editAll (hedits : ∀ edit ∈ edits, c.reads edit.taint → edit ∈ s.marks) (τ : Taints) :
    c.Alike s st (τ.editAll edits) τ := by
  induction edits generalizing τ with
  | nil => exact hc.alike_of_agree hst fun _ _ _ _ => .rfl
  | cons edit rest ih =>
    refine (ih (fun e he => hedits e (List.mem_cons_of_mem _ he)) (τ.edit edit)).trans ?_
    by_cases hread : c.reads edit.taint
    · have hmark := hedits edit List.mem_cons_self hread
      have hreads : st.Reads edit.taint := (st.reads_cleared _).mp (hst ▸ hc.reads _ hread)
      have hphase := (Sight.mem_marks hmark).1
      refine ⟨(Strategy.edited_mark hmark hreads τ).agree s c.reads, ?_, st.next_mark hmark τ⟩
      rw [st.finding?_of_post hphase, st.finding?_of_post hphase]
    · refine hc.alike_of_agree hst fun tag _ a ha => Taints.mem_get_edit_of_ne ?_
      rintro rfl
      exact hread ha

/-- Others after only put marks that are there. -/
theorem agree_editAll (hedits : ∀ edit ∈ edits, c.reads edit.taint → edit ∈ s.marks)
    (h : s.Agree c.reads τ (st.edited s τ')) :
    s.Agree c.reads (τ.editAll edits) (st.edited s τ') := by
  induction edits generalizing τ with
  | nil => exact h
  | cons edit rest ih =>
    refine ih (fun e he => hedits e (List.mem_cons_of_mem _ he)) ?_
    by_cases hread : c.reads edit.taint
    · have hmark := hedits edit List.mem_cons_self hread
      have hreads : st.Reads edit.taint := (st.reads_cleared _).mp (hst ▸ hc.reads _ hread)
      have hsame := (Strategy.mark_edited hmark hreads τ').agree s c.reads
      refine Sight.Agree.trans (fun tag htag => ?_) hsame
      exact (h tag htag).editAll [edit]
    · refine Sight.Agree.trans (fun tag _ a ha => Taints.mem_get_edit_of_ne ?_) h
      rintro rfl
      exact hread ha

end Valid

/-! ### Detectors in one analysis -/

theorem cleared_of_reset {p : Pattern} {settings : Settings} {d : Detector}
    (h : d.reset = .ofPattern settings p) : d.strategy.cleared = .ofPattern settings p :=
  congrArg Detector.strategy h

theorem pattern_of_reset {p : Pattern} {settings : Settings} {d : Detector}
    (h : d.reset = .ofPattern settings p) : d.strategy.pattern = p := by
  rw [← d.strategy.pattern_cleared, cleared_of_reset h, Strategy.pattern_ofPattern]

theorem exists_detector {settings : Settings} {ps : List Pattern} {r : Registry}
    (h : r.reset = ⟨ps.map (.ofPattern settings)⟩) {i : Nat} {q : Pattern} (hq : ps[i]? = some q) :
    ∃ d, r.detectors[i]? = some d ∧ d.reset = .ofPattern settings q := by
  have hlist : r.detectors.map Detector.reset = ps.map (.ofPattern settings) :=
    congrArg Registry.detectors h
  have hget := congrArg (·[i]?) hlist
  simp only [List.getElem?_map, hq, Option.map_some, Option.map_eq_some_iff] at hget
  exact hget

/-- A detector for the pattern, in the midst of a run. -/
structure IsCopy (c : Selection) (d : Detector) : Prop where
  reset : d.reset = .ofPattern c.settings c.pattern
  coherent : d.Coherent

/-- Another detector for the pattern that remembers the same and has found the same. -/
structure Same (c : Selection) (d e : Detector) : Prop where
  copy : c.IsCopy e
  strategy : e.strategy = d.strategy
  findings : e.findings.map c.view = d.findings.map c.view

variable {space space' : StateSpace} {own d e : Detector} {node : Nat} {name : String}

theorem isCopy_ofPattern (c : Selection) : c.IsCopy (.ofPattern c.settings c.pattern) :=
  ⟨Detector.reset_ofPattern .., Detector.coherent_ofPattern _ _⟩

theorem IsCopy.after (h : c.IsCopy d) (τ : Taints) (s : Sight) : c.IsCopy (d.after τ s) :=
  ⟨(d.reset_after τ s).trans h.reset, h.coherent.after τ s⟩

theorem Valid.names_map_view (hc : c.Valid) (fs : List Finding) :
    (fs.map c.view).map (·.functionName) = fs.map (·.functionName) := by
  simp [hc.functionName]

theorem Same.names_eq (hc : c.Valid) (h : c.Same d e) : e.names = d.names := by
  rw [Detector.names, ← hc.names_map_view, h.findings, hc.names_map_view, Detector.names]

theorem Same.reported_iff (hc : c.Valid) (hd : c.IsCopy d) (h : c.Same d e) :
    e.reported.contains name = true ↔ d.reported.contains name = true := by
  rw [h.copy.coherent.reported_iff, hd.coherent.reported_iff, h.names_eq hc]

theorem findings_after_of_not {τ : Taints} (h : ¬d.reported.contains s.functionName = true) :
    (d.after τ s).findings = d.findings ++ (d.strategy.finding? τ s).toList := by
  rw [Detector.findings_after, if_neg h]

/-- What detectors find that look and see alike is the same. -/
theorem Alike.findings_after (halike : c.Alike s d.strategy τ τ')
    (hstrategy : e.strategy = d.strategy) :
    (e.strategy.finding? τ s).toList.map c.view = (d.strategy.finding? τ' s).toList.map c.view := by
  rw [hstrategy, ← Option.toList_map, ← Option.toList_map, halike.finding]

/-- Where both look and see alike, they go on to be the same. -/
theorem Same.after (h : c.Same d e) (he : ¬e.reported.contains s.functionName = true)
    (hd : ¬d.reported.contains s.functionName = true) (halike : c.Alike s d.strategy τ τ') :
    c.Same (d.after τ' s) (e.after τ s) := by
  refine ⟨h.copy.after τ s, ?_, ?_⟩
  · rw [Detector.strategy_after, Detector.strategy_after, if_neg he, if_neg hd, h.strategy,
      halike.next]
  · rw [findings_after_of_not he, findings_after_of_not hd, List.map_append, List.map_append,
      h.findings, halike.findings_after h.strategy]

/-! ### One event, all detectors -/

/-- All detectors for the pattern have a property. -/
def Copies (c : Selection) (r : Registry) (P : Nat → Detector → Prop) : Prop :=
  ∀ i d, c.patterns[i]? = some c.pattern → r.detectors[i]? = some d → P i d

theorem Copies.set {r : Registry} {P Q : Nat → Detector → Prop} {i : Nat} {d : Detector}
    (h : c.Copies r P) (hother : ∀ j d, j ≠ i → P j d → Q j d)
    (hi : c.patterns[i]? = some c.pattern → Q i d) : c.Copies ⟨r.detectors.set i d⟩ Q := by
  intro j e hj he
  by_cases hij : i = j
  · subst hij
    obtain ⟨_, heq⟩ := List.getElem?_eq_some_iff.mp he
    rw [← heq, List.getElem_set_self]
    exact hi hj
  · rw [List.getElem?_set_ne hij] at he
    exact hother j e (Ne.symm hij) (h j e hj he)

/-- Detectors while an event goes round, and those still to be told. -/
structure Midway (c : Selection) (s : Sight) (rest : List Nat) (r : Registry) : Prop where
  reset : r.reset = ⟨c.patterns.map (.ofPattern c.settings)⟩
  asks : ∀ i ∈ rest, ∃ q, c.patterns[i]? = some q ∧
    (Strategy.ofPattern c.settings q).Asks s.phase s.opcode

/-- What is kept from one detector to the next is kept until all were told. -/
theorem Midway.foldl {J : List Nat → Registry → Taints → Prop}
    (hstep : ∀ i rest r τ q d, i ∉ rest → c.patterns[i]? = some q →
      (Strategy.ofPattern c.settings q).Asks s.phase s.opcode → r.detectors[i]? = some d →
      d.reset = .ofPattern c.settings q → J (i :: rest) r τ →
      J rest ⟨r.detectors.set i (d.after τ s)⟩ (τ.editAll (d.edits τ s)))
    (l : List Nat) (hl : l.Nodup) : ∀ (r : Registry) (τ : Taints), c.Midway s l r → J l r τ →
      let a := l.foldl (fun a i => Registry.react i s a) (r, τ)
      a.1.reset = ⟨c.patterns.map (.ofPattern c.settings)⟩ ∧ J [] a.1 a.2 := by
  induction l with
  | nil => exact fun r τ hmid h => ⟨hmid.reset, h⟩
  | cons i rest ih =>
    intro r τ hmid h
    obtain ⟨hi, hrest⟩ := List.nodup_cons.mp hl
    obtain ⟨q, hq, hasks⟩ := hmid.asks i List.mem_cons_self
    obtain ⟨d, hd, hreset⟩ := exists_detector hmid.reset hq
    have hreact : Registry.react i s (r, τ) =
        (⟨r.detectors.set i (d.after τ s)⟩, τ.editAll (d.edits τ s)) := by
      simp only [Registry.react, hd]
    have hmid' : c.Midway s rest ⟨r.detectors.set i (d.after τ s)⟩ := by
      refine ⟨?_, fun j hj => hmid.asks j (List.mem_cons_of_mem _ hj)⟩
      rw [Registry.reset_set hd (Detector.reset_after ..), hmid.reset]
    rw [List.foldl_cons, hreact]
    exact ih hrest _ _ hmid' (hstep i rest r τ q d hi hq hasks hd hreset h)

section

variable {l : List Nat} {r : Registry}

/-- The edits of a detector for another pattern. -/
theorem Valid.mem_edits_other (hc : c.Valid) {q : Pattern} (hq : q ∈ c.patterns)
    (hne : q ≠ c.pattern) (hd : d.reset = .ofPattern c.settings q) {edit : Edit}
    (hedit : edit ∈ d.edits τ s) (hread : c.reads edit.taint) : c.mixed ∧ edit ∈ s.marks := by
  have hpattern := pattern_of_reset hd
  unfold Detector.edits at hedit
  split at hedit
  · cases hedit
  · exact hc.others d.strategy (hpattern ▸ hq) (hpattern ▸ hne) τ s edit hedit hread

/-- Detectors that do not look at an event stay as they are. So do the taints that are compared,
unless others may put them and the detectors only look away. -/
theorem foldl_idle (hc : c.Valid) (hl : l.Nodup) (hmid : c.Midway s l r) (hd : c.IsCopy d)
    (hidle : c.strategy.Asks s.phase s.opcode → d.reported.contains s.functionName = true)
    (hcopies : c.Copies r fun _ e => c.Same d e) (τ : Taints) :
    let a := l.foldl (fun a i => Registry.react i s a) (r, τ)
    a.1.reset = ⟨c.patterns.map (.ofPattern c.settings)⟩ ∧ (c.Copies a.1 fun _ e => c.Same d e) ∧
      (c.mixed ∧ c.strategy.Asks s.phase s.opcode ∨ s.Agree c.reads a.2 τ) := by
  refine Midway.foldl (J := fun _ r τ' => (c.Copies r fun _ e => c.Same d e) ∧
    (c.mixed ∧ c.strategy.Asks s.phase s.opcode ∨ s.Agree c.reads τ' τ)) ?_ l hl r τ hmid
    ⟨hcopies, .inr fun _ _ _ _ => .rfl⟩
  rintro i rest r τ' q e _ hq hasks he hreset ⟨hcopies, hagree⟩
  by_cases hpattern : q = c.pattern
  · subst hpattern
    have hreported : e.reported.contains s.functionName = true :=
      ((hcopies i e hq he).reported_iff hc hd).mpr (hidle hasks)
    have hafter : e.after τ' s = e := if_pos hreported
    have hedits : e.edits τ' s = [] := if_pos hreported
    rw [hafter, hedits]
    exact ⟨hcopies.set (fun _ _ _ h => h) fun hi => hcopies i e hi he, hagree⟩
  · refine ⟨hcopies.set (fun _ _ _ h => h) fun hi => ?_, ?_⟩
    · exact absurd (Option.some.inj (hq.symm.trans hi)) hpattern
    · refine or_iff_not_imp_left.mpr fun hnot => ?_
      have hagree := hagree.resolve_left hnot
      refine Sight.Agree.trans (fun tag _ a ha => Taints.mem_get_editAll_of_ne ?_) hagree
      rintro edit hedit rfl
      obtain ⟨hmixed, hmark⟩ :=
        hc.mem_edits_other (List.mem_of_getElem? hq) hpattern hreset hedit ha
      exact hnot ⟨hmixed, Strategy.asks_of_reads hmark (hc.reads _ ha)⟩

end

/-- Detectors while an event goes round that those for the pattern look at. Those that were told are
as one that was told first, the others as before. Once one was told, taints agree with those that it
leaves. -/
structure Underway (c : Selection) (s : Sight) (d : Detector) (τ' : Taints) (rest : List Nat)
    (r : Registry) (τ : Taints) : Prop where
  copies : c.Copies r fun i e => (i ∈ rest → c.Same d e) ∧ (i ∉ rest → c.Same (d.after τ' s) e)
  alike : c.Alike s d.strategy τ τ'
  agree : (∃ i, c.patterns[i]? = some c.pattern ∧ i ∉ rest) →
    s.Agree c.reads τ (d.strategy.edited s τ')

namespace Underway

variable {i : Nat} {rest : List Nat} {r : Registry} {q : Pattern}
  (h : c.Underway s d τ' (i :: rest) r τ) (hc : c.Valid)
include h hc

theorem copy (hfresh : s.Fresh) (hd : c.IsCopy d)
    (hunreported : ¬d.reported.contains s.functionName = true) (hi : i ∉ rest)
    (hq : c.patterns[i]? = some c.pattern) (he : r.detectors[i]? = some e) :
    c.Underway s d τ' rest ⟨r.detectors.set i (e.after τ s)⟩ (τ.editAll (e.edits τ s)) := by
  have hsame := (h.copies i e hq he).1 List.mem_cons_self
  have hunreported' : ¬e.reported.contains s.functionName = true := fun hreported =>
    hunreported ((hsame.reported_iff hc hd).mp hreported)
  have hedited : τ.editAll (e.edits τ s) = d.strategy.edited s τ := by
    rw [Detector.edits, if_neg hunreported', hsame.strategy]
    rfl
  rw [hedited]
  refine ⟨h.copies.set (fun j e hj he => ?_) fun _ => ?_,
    (alike_edited c d.strategy hfresh τ).trans h.alike, fun _ => h.alike.edited⟩
  · exact ⟨fun hmem => he.1 (List.mem_cons_of_mem _ hmem),
      fun hnot => he.2 fun hmem => (List.mem_cons.mp hmem).elim hj hnot⟩
  · exact ⟨fun hmem => absurd hmem hi,
      fun _ => hsame.after hunreported' hunreported h.alike⟩

theorem other (hd : c.IsCopy d) (hq : c.patterns[i]? = some q) (hne : q ≠ c.pattern)
    (hreset : e.reset = .ofPattern c.settings q) :
    c.Underway s d τ' rest ⟨r.detectors.set i (e.after τ s)⟩ (τ.editAll (e.edits τ s)) := by
  have hcleared := cleared_of_reset hd.reset
  have hmarks : ∀ edit ∈ e.edits τ s, c.reads edit.taint → edit ∈ s.marks := fun edit hedit hread =>
    (hc.mem_edits_other (List.mem_of_getElem? hq) hne hreset hedit hread).2
  have hother {j : Nat} (hj : c.patterns[j]? = some c.pattern) : j ≠ i := by
    rintro rfl
    exact hne (Option.some.inj (hq.symm.trans hj))
  refine ⟨h.copies.set (fun j e hj he => ?_) fun hi => absurd rfl (hother hi),
    (hc.alike_editAll hcleared hmarks τ).trans h.alike, ?_⟩
  · exact ⟨fun hmem => he.1 (List.mem_cons_of_mem _ hmem),
      fun hnot => he.2 fun hmem => (List.mem_cons.mp hmem).elim hj hnot⟩
  · rintro ⟨j, hj, hnot⟩
    refine hc.agree_editAll hcleared hmarks (h.agree ⟨j, hj, fun hmem => ?_⟩)
    exact (List.mem_cons.mp hmem).elim (hother hj) hnot

end Underway

/-- After an event that they look at, all detectors for the pattern have found what one of them
would have found alone, and taints agree with those that it would have left. -/
theorem foldl_live {l : List Nat} {r : Registry} (hc : c.Valid) (hfresh : s.Fresh) (hl : l.Nodup)
    (hmid : c.Midway s l r) (hd : c.IsCopy d)
    (hunreported : ¬d.reported.contains s.functionName = true)
    (hall : ∀ i, c.patterns[i]? = some c.pattern → i ∈ l)
    (hcopies : c.Copies r fun _ e => c.Same d e) (τ : Taints) :
    let a := l.foldl (fun a i => Registry.react i s a) (r, τ)
    a.1.reset = ⟨c.patterns.map (.ofPattern c.settings)⟩ ∧
      (c.Copies a.1 fun _ e => c.Same (d.after τ s) e) ∧
      s.Agree c.reads a.2 (d.strategy.edited s τ) := by
  have hstart : c.Underway s d τ l r τ := by
    refine ⟨fun i e hi he => ?_,
      hc.alike_of_agree (cleared_of_reset hd.reset) fun _ _ _ _ => .rfl, ?_⟩
    · exact ⟨fun _ => hcopies i e hi he, fun hnot => absurd (hall i hi) hnot⟩
    · exact fun ⟨i, hi, hnot⟩ => absurd (hall i hi) hnot
  have hrun := Midway.foldl (J := c.Underway s d τ)
    (fun i rest r τ q e hi hq _ he hreset h => by
      by_cases hpattern : q = c.pattern
      · subst hpattern
        exact h.copy hc hfresh hd hunreported hi hq he
      · exact h.other hc hd hq hpattern hreset) l hl r τ hmid hstart
  obtain ⟨i, hi⟩ := List.mem_iff_getElem?.mp hc.listed
  exact ⟨hrun.1, fun j e hj he => (hrun.2.copies j e hj he).2 List.not_mem_nil,
    hrun.2.agree ⟨i, hi, List.not_mem_nil⟩⟩

/-! ### Detectors in two analyses -/

/-- The functions that one of two detectors has reported. -/
def reported (own d : Detector) : List String := own.names ++ d.names

/-- Others may have made a difference to what is found for a function. -/
def Spoils (c : Selection) (space : StateSpace) (own d : Detector) (name : String) : Prop :=
  c.mixed ∧ space.Spoils c.pattern (reported own d) name

/-- Others may have made a difference to the taints on the paths of a node. -/
def Loses (c : Selection) (space : StateSpace) (own d : Detector) (node : Nat) : Prop :=
  c.mixed ∧ space.Loses c.pattern (reported own d) node

/-- A detector among others matches the one alone: it finds the same, but for spoiled functions. -/
structure Matches (c : Selection) (space : StateSpace) (own d : Detector) : Prop where
  alone : c.IsCopy own
  among : c.IsCopy d
  strategy : d.strategy = own.strategy ∨
    c.mixed ∧ c.pattern = .roles ∧ ∃ name, space.Beyond (reported own d) name
  findings : AgreeBut (c.Spoils space own d) (own.findings.map c.view) (d.findings.map c.view)

theorem Matches.mono (h : c.Matches space own d) (hs : space.GrowsTo space') :
    c.Matches space' own d where
  alone := h.alone
  among := h.among
  strategy := h.strategy.imp_right fun ⟨hmixed, hp, name, hname⟩ =>
    ⟨hmixed, hp, name, hname.mono hs (List.Subset.refl _)⟩
  findings := h.findings.mono fun _ hname => ⟨hname.1, hname.2.mono hs (List.Subset.refl _)⟩

theorem reported_subset_after (own d : Detector) (τ τ' : Taints) (s : Sight) :
    reported own d ⊆ reported (own.after τ' s) (d.after τ s) :=
  List.append_subset.mpr ⟨fun _ h => List.mem_append_left _ (own.names_subset_after τ' s h),
    fun _ h => List.mem_append_right _ (d.names_subset_after τ s h)⟩

theorem Loses.after (h : c.Loses space own d node) (τ τ' : Taints) (s : Sight) :
    c.Loses space (own.after τ' s) (d.after τ s) node :=
  ⟨h.1, h.2.mono (.refl space) (reported_subset_after ..)⟩

/-- A finding of a spoiled function may be added. -/
theorem Valid.agreeBut_after (hc : c.Valid) {spoiled : String → Prop} {fs : List Finding}
    (h : AgreeBut spoiled (d.findings.map c.view) fs) (hname : spoiled s.functionName)
    (τ : Taints) : AgreeBut spoiled ((d.after τ s).findings.map c.view) fs := by
  rw [Detector.findings_after]
  split
  · exact h
  · cases hfinding : d.strategy.finding? τ s with
    | none => simpa using h
    | some f =>
      rw [Option.toList_some, List.map_append]
      refine h.append_left ?_
      rw [hc.functionName, Strategy.functionName_finding? hfinding]
      exact hname

theorem strategy_after_eq (h : d.strategy.pattern ≠ .roles) (τ : Taints) (s : Sight) :
    (d.after τ s).strategy = d.strategy := by
  rw [Detector.strategy_after, Strategy.next_eq_self h, ite_self]

namespace Matches

variable (hc : c.Valid) (h : c.Matches space own d)
include hc h

/-- Unless a function is spoiled, both have found it or neither has. -/
theorem reported_iff (hname : ¬c.Spoils space own d name) :
    d.reported.contains name = true ↔ own.reported.contains name = true := by
  have hnames := h.findings.mem_names_iff hname
  rw [hc.names_map_view, hc.names_map_view] at hnames
  rw [h.among.coherent.reported_iff, h.alone.coherent.reported_iff]
  exact hnames.symm

/-- At an event of a spoiled function both may find what they will. -/
theorem after_spoiled (hspoiled : c.Spoils space own d s.functionName) (τ τ' : Taints) :
    c.Matches space (own.after τ' s) (d.after τ s) := by
  have hgrown := reported_subset_after own d τ τ' s
  have hspoiled' : c.Spoils space (own.after τ' s) (d.after τ s) s.functionName :=
    ⟨hspoiled.1, hspoiled.2.mono (.refl space) hgrown⟩
  have hmono : AgreeBut (c.Spoils space (own.after τ' s) (d.after τ s))
      (own.findings.map c.view) (d.findings.map c.view) :=
    h.findings.mono fun _ hname => ⟨hname.1, hname.2.mono (.refl space) hgrown⟩
  refine ⟨h.alone.after τ' s, h.among.after τ s, ?_, ?_⟩
  · by_cases hroles : c.pattern = .roles
    · exact .inr ⟨hspoiled.1, hroles, hspoiled'.2.exists_beyond⟩
    · rw [strategy_after_eq (pattern_of_reset h.among.reset ▸ hroles),
        strategy_after_eq (pattern_of_reset h.alone.reset ▸ hroles)]
      exact .inl (h.strategy.resolve_right fun hspoiled => hroles hspoiled.2.1)
  · have hown := hc.agreeBut_after hmono hspoiled' τ'
    exact (hc.agreeBut_after hown.symm hspoiled' τ).symm

/-- At an event on a lost path that is not of a spoiled function, both look away. -/
theorem after_lost (hlost : c.Loses space own d node)
    (hnode : space.nameAt? node = some s.functionName) (τ τ' : Taints) :
    c.Matches space (own.after τ' s) (d.after τ s) := by
  by_cases hspoiled : c.Spoils space own d s.functionName
  · exact h.after_spoiled hc hspoiled τ τ'
  · have hmem : s.functionName ∈ reported own d :=
      (hlost.2.mem_or_spoils hnode).resolve_right fun hname => hspoiled ⟨hlost.1, hname⟩
    have hiff := h.reported_iff hc hspoiled
    have hreported : own.reported.contains s.functionName = true := by
      rcases List.mem_append.mp hmem with hmem | hmem
      · exact h.alone.coherent.reported_iff.mpr hmem
      · exact hiff.mp (h.among.coherent.reported_iff.mpr hmem)
    rw [show own.after τ' s = own from if_pos hreported,
      show d.after τ s = d from if_pos (hiff.mpr hreported)]
    exact h

/-- On a path that is not lost, both look or neither does, and they see the same. -/
theorem after_kept (hlost : ¬c.Loses space own d node)
    (hnode : space.nameAt? node = some s.functionName) (htaints : s.Agree c.reads τ τ') :
    c.Matches space (own.after τ' s) (d.after τ s) ∧
      s.Agree c.reads (τ.editAll (d.edits τ s)) (τ'.editAll (own.edits τ' s)) := by
  have hstrategy : d.strategy = own.strategy :=
    h.strategy.resolve_right fun hroles => hlost ⟨hroles.1, .inr hroles.2⟩
  have hnot (hmixed : c.mixed) : s.functionName ∉ reported own d := fun hmem =>
    hlost ⟨hmixed, .inl (.of_mem hnode hmem)⟩
  have hiff : d.reported.contains s.functionName = true ↔
      own.reported.contains s.functionName = true := by
    by_cases hmixed : c.mixed
    · rw [h.among.coherent.reported_iff, h.alone.coherent.reported_iff]
      exact iff_of_false (fun hmem => hnot hmixed (List.mem_append_right _ hmem))
        fun hmem => hnot hmixed (List.mem_append_left _ hmem)
    · exact h.reported_iff hc fun hname => hmixed hname.1
  by_cases hreported : own.reported.contains s.functionName = true
  · have hreported' := hiff.mpr hreported
    rw [show own.after τ' s = own from if_pos hreported,
      show d.after τ s = d from if_pos hreported', show own.edits τ' s = [] from if_pos hreported,
      show d.edits τ s = [] from if_pos hreported']
    exact ⟨h, htaints⟩
  · have hreported' : ¬d.reported.contains s.functionName = true := mt hiff.mp hreported
    have halike := hc.alike_of_agree (cleared_of_reset h.alone.reset) htaints
    refine ⟨⟨h.alone.after τ' s, h.among.after τ s, .inl ?_, ?_⟩, ?_⟩
    · rw [Detector.strategy_after, Detector.strategy_after, if_neg hreported, if_neg hreported',
        hstrategy, halike.next]
    · have hmono : AgreeBut (c.Spoils space (own.after τ' s) (d.after τ s))
          (own.findings.map c.view) (d.findings.map c.view) :=
        h.findings.mono fun _ hname =>
          ⟨hname.1, hname.2.mono (.refl space) (reported_subset_after ..)⟩
      rw [findings_after_of_not hreported, findings_after_of_not hreported', List.map_append,
        List.map_append, halike.findings_after hstrategy]
      exact hmono.append _
    · rw [Detector.edits, Detector.edits, if_neg hreported, if_neg hreported', hstrategy]
      exact halike.edited

/-- **Detectors that match do so after an event**, and unless the node is lost, taints go on to
agree. -/
theorem after (hnode : space.nameAt? node = some s.functionName)
    (htaints : c.Loses space own d node ∨ s.Agree c.reads τ τ') :
    c.Matches space (own.after τ' s) (d.after τ s) ∧
      (c.Loses space (own.after τ' s) (d.after τ s) node ∨
        s.Agree c.reads (τ.editAll (d.edits τ s)) (τ'.editAll (own.edits τ' s))) := by
  by_cases hlost : c.Loses space own d node
  · exact ⟨h.after_lost hc hlost hnode τ τ', .inl (hlost.after τ τ' s)⟩
  · obtain ⟨hmatches, hagree⟩ := h.after_kept hc hlost hnode (htaints.resolve_left hlost)
    exact ⟨hmatches, .inr hagree⟩

end Matches

/-! ### The comparison -/

/-- The detectors for a pattern among others, compared with the one alone. -/
def comparison (c : Selection) : Comparison Registry Registry where
  reads := c.reads
  kept space r r' := r.reset = ⟨c.patterns.map (.ofPattern c.settings)⟩ ∧
    ∃ own d : Detector, r' = ⟨[own]⟩ ∧ c.Copies r (fun _ e => c.Same d e) ∧ c.Matches space own d
  lost space r r' node := ∃ own d : Detector, r' = ⟨[own]⟩ ∧
    c.Copies r (fun _ e => c.Same d e) ∧ c.Loses space own d node

/-- Detectors that are the same as all those for the pattern have found the same functions. -/
theorem Valid.names_eq_of_copies (hc : c.Valid) {r : Registry} {d' : Detector}
    (hreset : r.reset = ⟨c.patterns.map (.ofPattern c.settings)⟩)
    (h : c.Copies r fun _ e => c.Same d e) (h' : c.Copies r fun _ e => c.Same d' e) :
    d'.names = d.names := by
  obtain ⟨i, hi⟩ := List.mem_iff_getElem?.mp hc.listed
  obtain ⟨e, he, -⟩ := exists_detector hreset hi
  rw [← (h i e hi he).names_eq hc, ← (h' i e hi he).names_eq hc]

/-- A node that is lost is lost for all detectors that are the same. -/
theorem Valid.loses_of_lost (hc : c.Valid) {r : Registry}
    (hreset : r.reset = ⟨c.patterns.map (.ofPattern c.settings)⟩)
    (h : c.Copies r fun _ e => c.Same d e) (hlost : c.comparison.lost space r ⟨[own]⟩ node) :
    c.Loses space own d node := by
  obtain ⟨_, d', heq, h', hmixed, hloses⟩ := hlost
  cases heq
  rw [reported, hc.names_eq_of_copies hreset h h'] at hloses
  exact ⟨hmixed, hloses⟩

/-- **The comparison outlasts an event.** -/
theorem holds_event (hc : c.Valid) (hfresh : s.Fresh)
    (hnode : space.nameAt? node = some s.functionName) {a b : Registry × Taints}
    (h : c.comparison.Holds space node s.Shows a b) {l l' : List Nat} (hl : l.Nodup)
    (hmem : ∀ i, i ∈ l ↔ ∃ q, c.patterns[i]? = some q ∧
      (Strategy.ofPattern c.settings q).Asks s.phase s.opcode)
    (hl' : l' = [0] ∧ c.strategy.Asks s.phase s.opcode ∨
      l' = [] ∧ ¬c.strategy.Asks s.phase s.opcode) :
    c.comparison.Holds space node s.Shows
        (l.foldl (fun a i => Registry.react i s a) a)
        (l'.foldl (fun b i => Registry.react i s b) b) ∧
      ∀ ⦃node⦄, c.comparison.lost space a.1 b.1 node →
        c.comparison.lost space (l.foldl (fun a i => Registry.react i s a) a).1
          (l'.foldl (fun b i => Registry.react i s b) b).1 node := by
  obtain ⟨r, τ⟩ := a
  obtain ⟨_, τ'⟩ := b
  obtain ⟨⟨hreset, own, d, rfl, hcopies, hmatches⟩, htaints⟩ := h
  have hmid : c.Midway s l r := ⟨hreset, fun i hi => (hmem i).mp hi⟩
  have hloses {node : Nat} (hlost : c.comparison.lost space r ⟨[own]⟩ node) :
      c.Loses space own d node := hc.loses_of_lost hreset hcopies hlost
  have htaints : c.Loses space own d node ∨ s.Agree c.reads τ τ' := htaints.imp_left hloses
  rcases hl' with ⟨rfl, hasks⟩ | ⟨rfl, hasks⟩
  · obtain ⟨hmatches', hafter⟩ := hmatches.after hc hnode htaints
    -- the detectors among others are as one that was told alone
    suffices hrun : ∃ a, l.foldl (fun a i => Registry.react i s a) (r, τ) = a ∧
        a.1.reset = ⟨c.patterns.map (.ofPattern c.settings)⟩ ∧
        (c.Copies a.1 fun _ e => c.Same (d.after τ s) e) ∧
        (c.Loses space own d node ∨ s.Agree c.reads a.2 (τ.editAll (d.edits τ s))) by
      obtain ⟨a, rfl, hreset', hcopies', hagree⟩ := hrun
      refine ⟨⟨⟨hreset', _, _, rfl, hcopies', hmatches'⟩, ?_⟩, fun _ hlost =>
        ⟨_, _, rfl, hcopies', (hloses hlost).after τ τ' s⟩⟩
      rcases hagree with hlost | hagree
      · exact .inl ⟨_, _, rfl, hcopies', hlost.after τ τ' s⟩
      · exact hafter.imp (fun hlost => ⟨_, _, rfl, hcopies', hlost⟩) hagree.trans
    refine ⟨_, rfl, ?_⟩
    by_cases hreported : d.reported.contains s.functionName = true
    · obtain ⟨hreset', hcopies', hagree⟩ :=
        foldl_idle hc hl hmid hmatches.among (fun _ => hreported) hcopies τ
      rw [show d.after τ s = d from if_pos hreported, show d.edits τ s = [] from if_pos hreported]
      refine ⟨hreset', hcopies', hagree.imp_left fun hmixed => ⟨hmixed.1, .inl (.of_mem hnode ?_)⟩⟩
      exact List.mem_append_right _ (hmatches.among.coherent.reported_iff.mp hreported)
    · obtain ⟨hreset', hcopies', hagree⟩ := foldl_live hc hfresh hl hmid hmatches.among hreported
        (fun i hi => (hmem i).mpr ⟨_, hi, hasks⟩) hcopies τ
      rw [Detector.edits, if_neg hreported]
      exact ⟨hreset', hcopies', .inr hagree⟩
  · obtain ⟨hreset', hcopies', hagree⟩ :=
      foldl_idle hc hl hmid hmatches.among (fun h => absurd h hasks) hcopies τ
    have hagree := hagree.resolve_left fun hmixed => hasks hmixed.2
    exact ⟨⟨⟨hreset', own, d, rfl, hcopies', hmatches⟩,
      htaints.imp (fun hlost => ⟨own, d, rfl, hcopies', hlost⟩) hagree.trans⟩,
      fun _ hlost => ⟨own, d, rfl, hcopies', hloses hlost⟩⟩

theorem tracks (hc : c.Valid) (code : Bytes) :
    Tracks c.comparison
      ((Analysis.ofPatterns c.settings c.patterns).prepare.explorer.setting Registry.observer code)
      ((Analysis.ofPatterns c.settings [c.pattern]).prepare.explorer.setting Registry.observer code)
      Registry.react Registry.react where
  local₁ := Registry.local_react
  local₂ := Registry.local_react
  ignores₁ := (Analysis.serves_prepare _).ignoresJumps
  ignores₂ := (Analysis.serves_prepare _).ignoresJumps
  event := by
    intro op e habout hfresh space node a b hnode h
    obtain ⟨hphase, hop⟩ := habout.sight
    refine holds_event hc hfresh hnode h (Analysis.nodup_subscribers ..) (fun i => ?_) ?_
    · rw [hphase, hop]
      exact Analysis.mem_subscribers ..
    · rw [hphase, hop]
      exact Analysis.subscribers_alone ..
  kept_mono := by
    rintro space space' r r' hs ⟨hreset, own, d, hr', hcopies, hmatches⟩
    exact ⟨hreset, own, d, hr', hcopies, hmatches.mono hs⟩
  lost_mono := by
    rintro space space' r r' node hs ⟨own, d, hr', hcopies, hmixed, hloses⟩
    exact ⟨own, d, hr', hcopies, hmixed, hloses.mono hs (List.Subset.refl _)⟩
  lost_below := by
    rintro space r r' e he ⟨own, d, hr', hcopies, hmixed, hloses⟩
    exact ⟨own, d, hr', hcopies, hmixed, hloses.imp_left (·.below he)⟩

end Selection

end GuardFinder

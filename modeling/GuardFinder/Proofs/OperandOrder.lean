import GuardFinder.Proofs.OperandMarks

/-!
# The order of operands

A detector that marks the operands of a comparison may mark them in another way if they stand in the
other order. Nobody can tell from the result, or from what is made of it later: it has the same
taints, and a branch on it is answered in the same way. Only operands that go on without the result
show the order.

* `Aftermath`: what is told after a comparison in one order and in the other.
* `Analysis.hear_related`: **what one event keeps**. `Aftermath.related`: what all of them keep.
* `Setting.Gives`: a step that leaves a value, before a lone detector.
* `Analysis.operands_commute`: **the order of operands does not matter** to the two detectors.
-/

namespace GuardFinder

variable {τ τ' : Taints} {s : Sight}

/-- What is told after a comparison in one order of its operands and in the other, with the descents
of all tags before and after it. The same is told but for words, and no branch is on an exposed
value. -/
inductive Aftermath : (Nat → Descent) → List Signal → List Signal → (Nat → Descent) → Prop
  | nil (of : Nat → Descent) : Aftermath of [] [] of
  | inherit {of of' : Nat → Descent} {later later' : List Signal} (i : Inheritance)
      (rest : Aftermath (Descent.inherit of i) later later' of') :
      Aftermath of (.inherit i :: later) (.inherit i :: later') of'
  | message {of of' : Nat → Descent} {later later' : List Signal} (m m' : Message)
      (rest : Aftermath of later later' of') :
      Aftermath of (.message m :: later) (.message m' :: later') of'
  | event {of of' : Nat → Descent} {later later' : List Signal} {op : Opcode} {e e' : Event}
      (about : e.About op) (about' : e'.About op) (alike : e.sight.bare = e'.sight.bare)
      (settled : ∀ v, e.BranchesOn v → of v.tag ≠ .exposed)
      (rest : Aftermath of later later' of') :
      Aftermath of (.event op e :: later) (.event op e' :: later') of'

/-! ### A lone detector -/

section

variable {settings : Settings} {pattern : Pattern} {d : Detector} {k : Pairing}

namespace Analysis

theorem serves_alone (hd : d.strategy = .ofPattern settings pattern) :
    Registry.Serves ⟨[d]⟩ (ofPatterns settings [pattern]).prepare.explorer.hooks := by
  rintro ⟨phase, op, i⟩ hhook
  have hmem : i ∈ ((ofPatterns settings [pattern]).setting []).subscribers phase op :=
    Setting.mem_subscribers.mpr hhook
  obtain ⟨p, hp, hasks⟩ := (mem_subscribers Registry.observer [] phase op).mp hmem
  cases i with
  | zero =>
    obtain rfl : pattern = p := Option.some.inj hp
    exact ⟨d, rfl, Detector.mem_wishes.mpr (hd ▸ hasks)⟩
  | succ i => cases hp

/-- A lone detector that is told of signals. -/
theorem exists_playAll_alone (hd : d.strategy = .ofPattern settings pattern) {code : Bytes}
    {signals : List Signal} (hsound : ∀ signal ∈ signals, signal.Sound) {l : Ledger}
    {d' : Detector} {υ : Taints}
    (h : ((ofPatterns settings [pattern]).setting code).hearAll Registry.react (⟨[d]⟩, l.taints)
      signals = (⟨[d']⟩, υ)) :
    ∃ l', ((ofPatterns settings [pattern]).setting code).playAll signals (⟨[d]⟩, l) =
      .ok () (⟨[d']⟩, l') ∧ l'.taints = υ := by
  obtain ⟨⟨r, l'⟩, hplay, hheard, -⟩ :=
    (Registry.follows_setting (ofPatterns settings [pattern]).prepare.explorer code
      ⟨[d]⟩).playAll signals hsound (⟨[d]⟩, l) ⟨serves_alone hd, rfl⟩
  obtain ⟨rfl, rfl⟩ := Prod.mk.inj (hheard.trans h)
  exact ⟨l', hplay, rfl⟩

theorem hear_alone (hd : d.strategy = .ofPattern settings pattern) (code : Bytes) (op : Opcode)
    (e : Event) (τ : Taints) :
    ((ofPatterns settings [pattern]).setting code).hear Registry.react (⟨[d]⟩, τ) (.event op e) =
      if d.strategy.Asks e.phase op then
        (⟨[d.after τ e.sight]⟩, τ.editAll (d.edits τ e.sight))
      else (⟨[d]⟩, τ) := by
  rw [Setting.hear, hd]
  rcases subscribers_alone Registry.observer code e.phase op pattern with
    ⟨hsubscribers, hasks⟩ | ⟨hsubscribers, hasks⟩
  · rw [hsubscribers, if_pos hasks]
    rfl
  · rw [hsubscribers, if_neg hasks]
    rfl

/-- A lone detector after an event that is told in both orders. -/
theorem hear_related (hd : d.strategy = .ofPattern settings pattern)
    (hk : d.strategy.pairing? = some k) {of : Nat → Descent} (h : k.Related of τ τ') {op : Opcode}
    {e e' : Event} (habout : e.About op) (habout' : e'.About op)
    (halike : e.sight.bare = e'.sight.bare)
    (hsettled : ∀ v, e.BranchesOn v → of v.tag ≠ .exposed) (code : Bytes) :
    ∃ d' υ υ', d'.strategy = d.strategy ∧
      ((ofPatterns settings [pattern]).setting code).hear Registry.react (⟨[d]⟩, τ)
        (.event op e) = (⟨[d']⟩, υ) ∧
      ((ofPatterns settings [pattern]).setting code).hear Registry.react (⟨[d]⟩, τ')
        (.event op e') = (⟨[d']⟩, υ') ∧
      k.Related of υ υ' := by
  obtain ⟨hphase, hopcode⟩ := habout.sight
  obtain ⟨hphase', hopcode'⟩ := habout'.sight
  have hphases : e.phase = e'.phase :=
    hphase.symm.trans ((congrArg Sight.phase halike).trans hphase')
  have hnames : e.sight.functionName = e'.sight.functionName := by
    show e.sight.bare.functionName = e'.sight.bare.functionName
    rw [halike]
  rw [hear_alone hd, hear_alone hd, ← hphases]
  by_cases hasks : d.strategy.Asks e.phase op
  · have hedits : d.strategy.edits τ e.sight = d.strategy.edits τ' e'.sight := by
      obtain ⟨hfirst, hsecond⟩ := Strategy.not_decides_of_pairing hk
      calc d.strategy.edits τ e.sight
          _ = d.strategy.edits τ' e.sight := Strategy.edits_congr fun tag _ t ht =>
            h.others tag t ⟨fun heq => hfirst (heq ▸ ht), fun heq => hsecond (heq ▸ ht)⟩
          _ = d.strategy.edits τ' e.sight.bare :=
            (Strategy.edits_bare hk (by rwa [hphase, hopcode])).symm
          _ = d.strategy.edits τ' e'.sight := by
            rw [halike, Strategy.edits_bare hk (by rwa [hphase', hopcode', ← hphases])]
    have hfinding : d.strategy.finding? τ e.sight = d.strategy.finding? τ' e'.sight := by
      rw [← Strategy.finding?_bare (s := e'.sight), ← halike, Strategy.finding?_bare]
      by_cases hbranch : ∃ v, e.BranchesOn v
      · obtain ⟨v, hv⟩ := hbranch
        rw [hv.finding?, hv.finding?,
          TaintSet.ext fun t => h.settled v.tag (hsettled v hv) t trivial]
      · have hnot (v : Value) : ¬e.BranchesOn v := fun hv => hbranch ⟨v, hv⟩
        rw [Event.finding?_of_not_branchesOn hnot, Event.finding?_of_not_branchesOn hnot]
    have hafter : d.after τ e.sight = d.after τ' e'.sight := by
      simp only [Detector.after, hnames, hfinding, Strategy.next_of_pairing hk]
    have hsame : d.edits τ e.sight = d.edits τ' e'.sight := by
      simp only [Detector.edits, hnames, hedits]
    rw [if_pos hasks, if_pos hasks, ← hafter, ← hsame]
    refine ⟨_, _, _, ?_, rfl, rfl, h.editAll fun tag t hdrop => ?_⟩
    · rw [Detector.strategy_after, Strategy.next_of_pairing hk, ite_self]
    · unfold Detector.edits at hdrop
      split at hdrop
      · exact absurd hdrop List.not_mem_nil
      · exact Strategy.drop_not_mem_of_pairing hk tag t hdrop
  · rw [if_neg hasks, if_neg hasks]
    exact ⟨d, τ, τ', rfl, rfl, rfl, h⟩

end Analysis

theorem Aftermath.sound {of of' : Nat → Descent} {later later' : List Signal}
    (h : Aftermath of later later' of') :
    (∀ signal ∈ later, signal.Sound) ∧ ∀ signal ∈ later', signal.Sound := by
  induction h with
  | nil => exact ⟨fun _ h => absurd h List.not_mem_nil, fun _ h => absurd h List.not_mem_nil⟩
  | inherit i rest ih =>
    exact ⟨List.forall_mem_cons.mpr ⟨trivial, ih.1⟩, List.forall_mem_cons.mpr ⟨trivial, ih.2⟩⟩
  | message m m' rest ih =>
    exact ⟨List.forall_mem_cons.mpr ⟨trivial, ih.1⟩, List.forall_mem_cons.mpr ⟨trivial, ih.2⟩⟩
  | event about about' _ _ rest ih =>
    exact ⟨List.forall_mem_cons.mpr ⟨about, ih.1⟩, List.forall_mem_cons.mpr ⟨about', ih.2⟩⟩

/-- **A lone detector goes on in the same way after a comparison in either order.** -/
theorem Aftermath.related {of of' : Nat → Descent} {later later' : List Signal}
    (h : Aftermath of later later' of') (hd : d.strategy = .ofPattern settings pattern)
    (hk : d.strategy.pairing? = some k) (hrelated : k.Related of τ τ') (code : Bytes) :
    ∃ d' υ υ', d'.strategy = d.strategy ∧
      ((Analysis.ofPatterns settings [pattern]).setting code).hearAll Registry.react (⟨[d]⟩, τ)
        later = (⟨[d']⟩, υ) ∧
      ((Analysis.ofPatterns settings [pattern]).setting code).hearAll Registry.react (⟨[d]⟩, τ')
        later' = (⟨[d']⟩, υ') ∧
      k.Related of' υ υ' := by
  induction h generalizing d τ τ' with
  | nil => exact ⟨d, τ, τ', rfl, rfl, rfl, hrelated⟩
  | inherit i rest ih => exact ih hd hk (hrelated.inherit i)
  | message m m' rest ih => exact ih hd hk hrelated
  | event about about' alike settled rest ih =>
    obtain ⟨d₁, υ, υ', hstrategy, hheard, hheard', hrelated₁⟩ :=
      Analysis.hear_related hd hk hrelated about about' alike settled code
    obtain ⟨d₂, ω, ω', hstrategy₂, hrest, hrest', hrelated₂⟩ :=
      ih (hstrategy.trans hd) (hstrategy ▸ hk) hrelated₁
    refine ⟨d₂, ω, ω', hstrategy₂.trans hstrategy, ?_, ?_, hrelated₂⟩
    · rw [Setting.hearAll, List.foldl_cons, hheard]
      exact hrest
    · rw [Setting.hearAll, List.foldl_cons, hheard']
      exact hrest'

/-! ### Comparisons in either order -/

/-- A path takes a step while a detector watches alone, and the step leaves a value on top of the
stack. The detector is the same after it, and the ledger is another one. -/
structure Setting.Gives (x : Setting Registry) (d : Detector) (g : Progress) (p : Path)
    (ins : Instruction) (l : Ledger) (v : Value) (l' : Ledger) : Prop where
  told : x.playAll (g.signals x.program x.limits p ins) (⟨[d]⟩, l) = .ok () (⟨[d]⟩, l')
  left : ∃ q rest, (stepAt x.program x.limits g.space g.supply p ins).paths = [q] ∧
    q.stack = v :: rest

/-- What a path does at an operation on two words, and what is told of that. -/
theorem stepAt_of_binary (program : Program) (limits : Limits) (g : Progress) {p : Path}
    {ins : Instruction} (hkind : ins.opcode.kind = .binary) {a b : Value} {rest : List Value}
    (hstack : p.stack = a :: b :: rest) :
    ∃ q, (stepAt program limits g.space g.supply p ins).paths = [q] ∧
      q.stack = ⟨.applyBinary ins.opcode a.word b.word, g.supply.nextTag⟩ :: rest ∧
      g.signals program limits p ins =
        [.event ins.opcode ⟨.pre, p.view ins, p.lastFrame⟩,
          .inherit ⟨g.supply.nextTag, [a.tag, b.tag]⟩, q.postEvent program ⟨ins, p.stack⟩] ∧
      ∀ signal ∈ g.signals program limits p ins, signal.Sound := by
  have heffect : execute program ins p g.supply =
      { p with stack := rest }.pushNew g.supply (.applyBinary ins.opcode a.word b.word)
        [a.tag, b.tag] := by
    simp only [execute, hkind, hstack]
  have hflow : (execute program ins p g.supply).flow = .next := by
    rw [heffect]
    rfl
  obtain ⟨q, hpaths, hstack', -, hsignals⟩ := stepAt_of_next limits g.space hflow
  rw [heffect] at hstack' hsignals
  have htold : g.signals program limits p ins =
      [.event ins.opcode ⟨.pre, p.view ins, p.lastFrame⟩,
        .inherit ⟨g.supply.nextTag, [a.tag, b.tag]⟩, q.postEvent program ⟨ins, p.stack⟩] :=
    congrArg _ hsignals
  refine ⟨q, hpaths, hstack', htold, ?_⟩
  -- Both operands and the result are there to be looked at.
  have harity : ins.opcode.arity = (2, 1) := by
    have h := ins.opcode.hasArity_kind
    rw [hkind] at h
    exact of_decide_eq_true h
  have hpops : ins.opcode.pops ≤ p.stack.length := by
    rw [Opcode.pops, harity, hstack]
    exact Nat.le_add_left ..
  have hpushes : ins.opcode.pushes ≤ q.stack.length := by
    rw [Opcode.pushes, harity, hstack']
    exact Nat.le_add_left ..
  rw [htold]
  simp only [List.forall_mem_cons]
  exact ⟨.pre rfl hpops, trivial, .post rfl hpops hpushes, fun _ h => absurd h List.not_mem_nil⟩

/-- The marks that a detector puts on operands: none in functions that it has reported. -/
def Detector.operandMarks (d : Detector) (k : Pairing) (name : String) (τ : Taints) (a b : Nat) :
    List Edit :=
  if d.reported.contains name then [] else k.marks τ a b

theorem Detector.edits_comparison (hk : d.strategy.pairing? = some k) {ins : Instruction}
    (hop : ins.opcode ∈ k.opcodes) {p : Path} {a b : Value} {rest : List Value}
    (hstack : p.stack = a :: b :: rest) :
    d.edits τ (Event.sight ⟨.pre, p.view ins, p.lastFrame⟩) =
      d.operandMarks k p.functionName τ a.tag b.tag := by
  have hargs : (Event.sight ⟨.pre, p.view ins, p.lastFrame⟩).args =
      a.item :: b.item :: rest.map Value.item := by
    show p.stack.map Value.item = _
    rw [hstack]
    rfl
  rw [Detector.edits, Strategy.edits_comparison hk rfl hop hargs]
  rfl

theorem Detector.after_of_not_branch (hk : d.strategy.pairing? = some k)
    (h : ¬(s.phase = .pre ∧ s.opcode = .jumpi)) : d.after τ s = d := by
  rw [Detector.after, Strategy.finding?_of_not_branch h, Strategy.next_of_pairing hk]
  exact ite_self d

namespace Analysis

/-- What comes of a comparison that a lone detector watches. -/
theorem gives_comparison (hd : d.strategy = .ofPattern settings pattern)
    (hk : d.strategy.pairing? = some k) {ins : Instruction} (hop : ins.opcode ∈ k.opcodes)
    (code : Bytes) (g : Progress) {p : Path} {a b : Value} {rest : List Value}
    (hstack : p.stack = a :: b :: rest) (l : Ledger) :
    ∃ l', ((ofPatterns settings [pattern]).setting code).Gives d g p ins l
        ⟨.applyBinary ins.opcode a.word b.word, g.supply.nextTag⟩ l' ∧
      l'.taints =
        (l.taints.editAll (d.operandMarks k p.functionName l.taints a.tag b.tag)).inherit
          ⟨g.supply.nextTag, [a.tag, b.tag]⟩ := by
  have hkind := Strategy.kind_of_pairing hk hop
  obtain ⟨hasks, hnot⟩ := Strategy.asks_of_pairing hk hop
  obtain ⟨q, hpaths, hresult, hsignals, hsound⟩ := stepAt_of_binary
    ((ofPatterns settings [pattern]).setting code).program
    ((ofPatterns settings [pattern]).setting code).limits g hkind hstack
  have hsame : d.after l.taints (Event.sight ⟨.pre, p.view ins, p.lastFrame⟩) = d :=
    Detector.after_of_not_branch hk fun hbranch => by
      have hjumpi : ins.opcode = .jumpi := hbranch.2
      rw [hjumpi] at hkind
      cases hkind
  have hheard : ((ofPatterns settings [pattern]).setting code).hearAll Registry.react
      (⟨[d]⟩, l.taints)
      (g.signals ((ofPatterns settings [pattern]).setting code).program
        ((ofPatterns settings [pattern]).setting code).limits p ins) =
      (⟨[d]⟩, (l.taints.editAll (d.operandMarks k p.functionName l.taints a.tag b.tag)).inherit
        ⟨g.supply.nextTag, [a.tag, b.tag]⟩) := by
    rw [hsignals, Setting.hearAll, List.foldl_cons, hear_alone hd, if_pos hasks, hsame,
      Detector.edits_comparison hk hop hstack]
    exact (hear_alone hd ..).trans (if_neg hnot)
  obtain ⟨l', hplay, htaints⟩ := exists_playAll_alone hd hsound hheard
  exact ⟨l', ⟨hplay, q, rest, hpaths, hresult⟩, htaints⟩

theorem related_comparison (d : Detector) (k : Pairing) (name : String) (τ : Taints)
    (a b result : Nat) :
    k.Related (Descent.start result [a, b])
      ((τ.editAll (d.operandMarks k name τ a b)).inherit ⟨result, [a, b]⟩)
      ((τ.editAll (d.operandMarks k name τ b a)).inherit ⟨result, [b, a]⟩) := by
  unfold Detector.operandMarks
  split
  · exact .of_same (Taints.same_inherit_swap τ result a b)
  · exact k.related_marked τ a b result

theorem mem_union_comparison (d : Detector) (k : Pairing) (name : String) (τ : Taints) (a b : Nat)
    (t : Taint) :
    t ∈ (τ.editAll (d.operandMarks k name τ a b)).union [a, b] ↔
      t ∈ τ.get a ∨ t ∈ τ.get b ∨
        d.reported.contains name = false ∧ k.Matches (τ.get a) (τ.get b) ∧
          (t = k.first ∨ t = k.second) := by
  unfold Detector.operandMarks
  split
  · next hreported =>
    rw [Taints.mem_union]
    simp [hreported, Taints.editAll]
  · next hreported =>
    rw [Pairing.mem_union_marked]
    simp [hreported]

/-- A branch on values with the same taints is answered in the same way. -/
theorem execute_branch (hk : d.strategy.pairing? = some k) {e e' : Event} {v v' : Value}
    (hv : e.BranchesOn v) (hv' : e'.BranchesOn v')
    (hname : e.state.functionName = e'.state.functionName) {l l' : Ledger}
    (htaints : l.taints.get v.tag = l'.taints.get v'.tag) :
    ∃ found d' m m', Detector.execute e (d, l) = .ok found (d', m) ∧
      Detector.execute e' (d, l') = .ok found (d', m') := by
  have hwish {e : Event} {v : Value} (hv : e.BranchesOn v) : (e.phase, .jumpi) ∈ d.wishes := by
    rw [hv.1]
    exact Detector.mem_wishes.mpr (Strategy.asks_branch hk)
  obtain ⟨found, log, hrun⟩ := Detector.execute_eq hv.about (hwish hv) l
  obtain ⟨found', log', hrun'⟩ := Detector.execute_eq hv'.about (hwish hv') l'
  have hafter : d.after l.taints e.sight = d.after l'.taints e'.sight := by
    simp only [Detector.after, Event.functionName_sight, hname, hv.finding?, hv'.finding?, htaints,
      Strategy.next_of_pairing hk]
  rw [← hafter] at hrun'
  -- The answer can be read off the detector, which has kept it.
  have hkept : found.toList = found'.toList := List.append_cancel_left
    ((Detector.findings_execute hrun).symm.trans (Detector.findings_execute hrun'))
  obtain rfl : found = found' := by cases found <;> cases found' <;> simp_all
  exact ⟨found, _, _, _, hrun, hrun'⟩

/-- **The order of operands does not matter** to the detectors that mark them. Let a path compare
two values, or one value with itself, in either order. The result has the same taints: those of both
values, and both marks if the values are those of the two sides. After that, as long as the same is
told but for words and no branch is on an exposed value, the detector goes on in the same way; and a
branch on what is derived from the result, or is apart from the comparison, gives the same finding
or none. -/
theorem operands_commute {ins : Instruction} (hd : d.strategy = .ofPattern settings pattern)
    (hk : d.strategy.pairing? = some k) (hop : ins.opcode ∈ k.opcodes) (code : Bytes)
    (g : Progress) (p : Path) (a b : Value) (rest : List Value) (l : Ledger) :
    ∃ l₁ l₁',
      ((ofPatterns settings [pattern]).setting code).Gives d g { p with stack := a :: b :: rest }
        ins l ⟨.applyBinary ins.opcode a.word b.word, g.supply.nextTag⟩ l₁ ∧
      ((ofPatterns settings [pattern]).setting code).Gives d g { p with stack := b :: a :: rest }
        ins l ⟨.applyBinary ins.opcode b.word a.word, g.supply.nextTag⟩ l₁' ∧
      l₁.taints.get g.supply.nextTag = l₁'.taints.get g.supply.nextTag ∧
      (∀ t, t ∈ l₁.taints.get g.supply.nextTag ↔
        t ∈ l.taints.get a.tag ∨ t ∈ l.taints.get b.tag ∨
          d.reported.contains p.functionName = false ∧
            k.Matches (l.taints.get a.tag) (l.taints.get b.tag) ∧ (t = k.first ∨ t = k.second)) ∧
      ∀ later later' of,
        Aftermath (Descent.start g.supply.nextTag [a.tag, b.tag]) later later' of →
        ∃ d₂ l₂ l₂',
          ((ofPatterns settings [pattern]).setting code).playAll later (⟨[d]⟩, l₁) =
            .ok () (⟨[d₂]⟩, l₂) ∧
          ((ofPatterns settings [pattern]).setting code).playAll later' (⟨[d]⟩, l₁') =
            .ok () (⟨[d₂]⟩, l₂') ∧
          ∀ e e' v v', e.BranchesOn v → e'.BranchesOn v' → v.tag = v'.tag →
            e.state.functionName = e'.state.functionName → of v.tag ≠ .exposed →
            l₂.taints.get v.tag = l₂'.taints.get v'.tag ∧
            ∃ found d₃ l₃ l₃', Detector.execute e (d₂, l₂) = .ok found (d₃, l₃) ∧
              Detector.execute e' (d₂, l₂') = .ok found (d₃, l₃') := by
  obtain ⟨l₁, hgives, htaints⟩ :=
    gives_comparison hd hk hop code g (p := { p with stack := a :: b :: rest }) rfl l
  obtain ⟨l₁', hgives', htaints'⟩ :=
    gives_comparison hd hk hop code g (p := { p with stack := b :: a :: rest }) rfl l
  have hrelated :=
    related_comparison d k p.functionName l.taints a.tag b.tag g.supply.nextTag
  rw [← htaints, ← htaints'] at hrelated
  refine ⟨l₁, l₁', hgives, hgives', ?_, fun t => ?_, ?_⟩
  · have hresult : Descent.start g.supply.nextTag [a.tag, b.tag] g.supply.nextTag ≠ .exposed := by
      rw [Descent.start, if_pos rfl]
      decide
    exact TaintSet.ext fun t => hrelated.settled _ hresult t trivial
  · rw [htaints, Taints.get_inherit, if_pos rfl]
    exact mem_union_comparison d k p.functionName l.taints a.tag b.tag t
  · intro later later' of hafter
    obtain ⟨d₂, υ, υ', hstrategy, hheard, hheard', hrelated₂⟩ :=
      hafter.related hd hk hrelated code
    obtain ⟨l₂, hplay, rfl⟩ := exists_playAll_alone hd hafter.sound.1 hheard
    obtain ⟨l₂', hplay', rfl⟩ := exists_playAll_alone hd hafter.sound.2 hheard'
    refine ⟨d₂, l₂, l₂', hplay, hplay', fun e e' v v' hv hv' htag hname hsettled => ?_⟩
    have hsame : l₂.taints.get v.tag = l₂'.taints.get v'.tag := by
      rw [← htag]
      exact TaintSet.ext fun t => hrelated₂.settled v.tag hsettled t trivial
    exact ⟨hsame, execute_branch (hstrategy ▸ hk) hv hv' hname hsame⟩

end Analysis

end

/-! ### Values of which each could stand on either side -/

/-- Two values that come from the caller and from storage, both of them. -/
def entangledTaints : Taints :=
  ((((∅ : Taints).annotate 0 .caller).annotate 0 (.storage (some 5))).annotate 1 .caller).annotate 1
    (.storage (some 3))

/-- An event before a branch on the value with tag 3. -/
def branchOnThree : Event :=
  ⟨.pre, ⟨⟨7, .jumpi, none⟩, [⟨.const 0, 4⟩, ⟨.env .caller, 3⟩], {}, fallbackName, []⟩, none⟩

/-- What a detector answers to an event, unless it fails. -/
def Detector.answer? (e : Event) (state : Detector × Ledger) : Option (Option Finding) :=
  match execute e state with
  | .ok found _ => some found
  | .error .. => none

/-- Whether signals leave a ledger with a property. -/
def Setting.leaves (x : Setting Registry) (signals : List Signal) (w : Registry × Ledger)
    (P : Ledger → Prop) [DecidablePred P] : Bool :=
  match x.playAll signals w with
  | .ok _ (_, l) => decide (P l)
  | .error .. => false

theorem Setting.Gives.of_leaves {x : Setting Registry} {d : Detector} {g : Progress} {p : Path}
    {ins : Instruction} {l l' : Ledger} {v : Value} (h : x.Gives d g p ins l v l')
    (P : Ledger → Prop) [DecidablePred P]
    (hleaves : x.leaves (g.signals x.program x.limits p ins) (⟨[d]⟩, l) P = true) : P l' := by
  rw [Setting.leaves, h.told] at hleaves
  exact of_decide_eq_true hleaves

theorem Analysis.operands_commute_entangled :
    ∃ l₁ l₁',
      ((ofPatterns {} [.ownership]).setting []).Gives (.ofPattern {} .ownership)
        { paths := [], space := {}, supply := { nextTag := 2 } }
        { Path.start fallbackName 0 with stack := [⟨.env .caller, 0⟩, ⟨.env .number, 1⟩] }
        ⟨0, .eq, none⟩ { taints := entangledTaints }
        ⟨.binary .eq (.env .caller) (.env .number), 2⟩ l₁ ∧
      ((ofPatterns {} [.ownership]).setting []).Gives (.ofPattern {} .ownership)
        { paths := [], space := {}, supply := { nextTag := 2 } }
        { Path.start fallbackName 0 with stack := [⟨.env .number, 1⟩, ⟨.env .caller, 0⟩] }
        ⟨0, .eq, none⟩ { taints := entangledTaints }
        ⟨.binary .eq (.env .number) (.env .caller), 2⟩ l₁' ∧
      l₁.taints.get 0 ≠ l₁'.taints.get 0 ∧ l₁.taints.get 2 = l₁'.taints.get 2 ∧
      ∃ d₃ l₃ l₃',
        Detector.execute branchOnThree
          (.ofPattern {} .ownership, { l₁ with taints := l₁.taints.inherit ⟨3, [2]⟩ }) =
            .ok (some ⟨fallbackName, some 3, none⟩) (d₃, l₃) ∧
        Detector.execute branchOnThree
          (.ofPattern {} .ownership, { l₁' with taints := l₁'.taints.inherit ⟨3, [2]⟩ }) =
            .ok (some ⟨fallbackName, some 3, none⟩) (d₃, l₃') := by
  obtain ⟨l₁, l₁', hgives, hgives', hsame, -, hlater⟩ :=
    @operands_commute {} .ownership (.ofPattern {} .ownership) _ ⟨0, .eq, none⟩ rfl rfl
      (List.mem_singleton_self _) [] { paths := [], space := {}, supply := { nextTag := 2 } }
      (Path.start fallbackName 0) ⟨.env .caller, 0⟩ ⟨.env .number, 1⟩ []
      { taints := entangledTaints }
  obtain ⟨d₂, l₂, l₂', hplay, hplay', hbranch⟩ := hlater _ _ _ (.inherit ⟨3, [2]⟩ (.nil _))
  cases hplay
  cases hplay'
  obtain ⟨-, found, d₃, l₃, l₃', hrun, hrun'⟩ :=
    hbranch branchOnThree branchOnThree ⟨.env .caller, 3⟩ ⟨.env .caller, 3⟩ ⟨rfl, rfl, rfl⟩
      ⟨rfl, rfl, rfl⟩ rfl rfl (by decide)
  -- A value that can be the sender or the owner is taken for the sender where it is the upper one.
  have hmarked : .equality .owner ∉ l₁.taints.get 0 :=
    hgives.of_leaves (fun l => .equality .owner ∉ l.taints.get 0) (by decide +kernel)
  have hmarked' : .equality .owner ∈ l₁'.taints.get 0 :=
    hgives'.of_leaves (fun l => .equality .owner ∈ l.taints.get 0) (by decide +kernel)
  have hanswer := hgives.of_leaves (fun l => Detector.answer? branchOnThree
    (.ofPattern {} .ownership, { l with taints := l.taints.inherit ⟨3, [2]⟩ }) =
      some (some ⟨fallbackName, some 3, none⟩)) (by decide +kernel)
  obtain rfl : found = some ⟨fallbackName, some 3, none⟩ := by
    rw [Detector.answer?, hrun] at hanswer
    exact Option.some.inj hanswer
  exact ⟨l₁, l₁', hgives, hgives', fun heq => hmarked (heq ▸ hmarked'), hsame,
    d₃, l₃, l₃', hrun, hrun'⟩

end GuardFinder

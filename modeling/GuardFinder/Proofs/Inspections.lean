import GuardFinder.Proofs.Renumbering

/-!
# Inspections

What detectors make of a finished state space depends neither on what was written to a log before
nor on the names in it: conditions are only compared with each other. Nor does it matter if the
state space stands behind another one where nothing was compared or hashed.

* `Twin`: two computations that succeed with related results.
* `Oracle.blind_structural`: the structural oracle sees no difference between renumbered queries.
* `StateSpace.Quiet`: nothing was compared or hashed.
* `Registry.inspect_eq`, `Registry.inspected_behind`: **inspections depend on the state space up to
  relocation only**. `Registry.inspected_renumber`: so they do not depend on numbers of results.
-/

namespace GuardFinder

variable {k : Nat} {ρ : Renaming}

/-! ### Computations side by side -/

/-- Two computations that succeed from all states, with related results. -/
def Twin {ε σ τ α β : Type} (R : α → β → Prop) (m : EStateM ε σ α) (m' : EStateM ε τ β) : Prop :=
  ∀ s t, ∃ a s' b t', m s = .ok a s' ∧ m' t = .ok b t' ∧ R a b

section

variable {ε σ τ α β γ δ : Type} {R : α → β → Prop} {Q : γ → δ → Prop}

theorem twin_pure {a : α} {b : β} (h : R a b) :
    Twin R (pure a : EStateM ε σ α) (pure b : EStateM ε τ β) :=
  fun s t => ⟨a, s, b, t, rfl, rfl, h⟩

theorem Twin.bind {m : EStateM ε σ α} {m' : EStateM ε τ β} {f : α → EStateM ε σ γ}
    {f' : β → EStateM ε τ δ} (hm : Twin R m m') (hf : ∀ a b, R a b → Twin Q (f a) (f' b)) :
    Twin Q (m >>= f) (m' >>= f') := by
  intro s t
  obtain ⟨a, s₁, b, t₁, hs, ht, hab⟩ := hm s t
  obtain ⟨c, s₂, d, t₂, hs₂, ht₂, hcd⟩ := hf a b hab s₁ t₁
  refine ⟨c, s₂, d, t₂, ?_, ?_, hcd⟩
  · rw [bind_run, hs]
    exact hs₂
  · rw [bind_run, ht]
    exact ht₂

/-- Twins with equal results have one result, whatever states they start from. -/
theorem Twin.exists_result {m : EStateM ε σ α} {m' : EStateM ε τ α} (h : Twin Eq m m') (s₀ : σ)
    (t₀ : τ) : ∃ a, (∀ s, ∃ s', m s = .ok a s') ∧ ∀ t, ∃ t', m' t = .ok a t' := by
  obtain ⟨a, s₁, _, t₁, hs, ht, rfl⟩ := h s₀ t₀
  refine ⟨a, fun s => ?_, fun t => ?_⟩
  · obtain ⟨b, s', _, _, hs', ht', rfl⟩ := h s t₀
    cases ht.symm.trans ht'
    exact ⟨s', hs'⟩
  · obtain ⟨b, _, _, t', hs', ht', rfl⟩ := h s₀ t
    cases hs.symm.trans hs'
    exact ⟨t', ht'⟩

end

/-! ### Oracles -/

namespace Constraint

theorem stripNegations_renumber : ∀ (condition : Term) (holds : Bool),
    stripNegations (condition.renumber k) holds = (stripNegations condition holds).renumber k
  | .unary op inner, holds => by
    rw [Term.renumber, stripNegations, stripNegations]
    by_cases hop : op = .isZero
    · rw [if_pos hop, if_pos hop]
      exact stripNegations_renumber inner (!holds)
    · rw [if_neg hop, if_neg hop, renumber, Term.renumber]
  | .const _, _ | .env _, _ | .callData _, _ | .storage _, _ | .binary .., _ | .keccak _, _
  | .concat _, _ | .havoc .., _ => by simp only [Term.renumber, stripNegations, renumber]

theorem core_renumber (c : Constraint) : (c.renumber k).core = c.core.renumber k :=
  stripNegations_renumber c.condition c.holds

theorem isAbsurd_renumber (c : Constraint) : (c.renumber k).isAbsurd = c.isAbsurd := by
  simp only [isAbsurd, renumber, Term.const?_renumber]

theorem contradicts_renumber (c d : Constraint) :
    (c.renumber k).contradicts (d.renumber k) = c.contradicts d := by
  unfold contradicts
  rw [core_renumber, core_renumber]
  simp only [renumber, Term.renumber_inj]

theorem asserts_renumber (c : Constraint) (a b : Term) :
    (c.renumber k).asserts (a.renumber k) (b.renumber k) = c.asserts a b := by
  unfold asserts
  rw [core_renumber]
  rcases c.core with ⟨condition, holds⟩
  cases condition <;> cases holds <;> simp [renumber, Term.renumber]

end Constraint

/-- The query with all numbers of results raised by `k`. -/
def Query.renumber (k : Nat) (q : Query) : Query where
  constraints := q.constraints.map (Constraint.renumber k)
  distinct := q.distinct.map fun (a, b) => (a.renumber k, b.renumber k)

theorem Query.refutesDistinct_renumber (cs : List Constraint) (a b : Term) :
    refutesDistinct (cs.map (Constraint.renumber k)) (a.renumber k, b.renumber k) =
      refutesDistinct cs (a, b) := by
  have hany : (cs.map (Constraint.renumber k)).any (·.asserts (a.renumber k) (b.renumber k)) =
      cs.any (·.asserts a b) := by
    rw [List.any_map]
    exact congrArg cs.any (funext fun c => c.asserts_renumber a b)
  simp only [refutesDistinct, hany, Term.renumber_inj]

namespace Oracle

section

variable (seconds : Nat) (clock : Nat → Nat)

theorem searchConstraints_renumber (looks : Nat) (cs : List Constraint) :
    searchConstraints seconds clock looks (cs.map (Constraint.renumber k)) =
      searchConstraints seconds clock looks cs := by
  induction cs generalizing looks with
  | nil => rfl
  | cons c rest ih =>
    have hany : (rest.map (Constraint.renumber k)).any (c.renumber k).contradicts =
        rest.any c.contradicts := by
      rw [List.any_map]
      exact congrArg rest.any (funext fun d => c.contradicts_renumber d)
    rw [List.map_cons, searchConstraints, c.isAbsurd_renumber, hany, ih, searchConstraints]

theorem searchDistinct_renumber (cs : List Constraint) (looks : Nat) (pairs : List (Term × Term)) :
    searchDistinct seconds clock (cs.map (Constraint.renumber k)) looks
        (pairs.map fun (a, b) => (a.renumber k, b.renumber k)) =
      searchDistinct seconds clock cs looks pairs := by
  induction pairs generalizing looks with
  | nil => rfl
  | cons pair rest ih =>
    rw [List.map_cons, searchDistinct, Query.refutesDistinct_renumber, ih, searchDistinct]

end

/-- An oracle that does not look at the number of a query, and at numbers of results only to see
whether they are equal. -/
def Blind (oracle : Oracle) : Prop :=
  ∀ k n n' q, oracle.check n' (q.renumber k) = oracle.check n q

theorem blind_structural (seconds : Nat) : (structural seconds).Blind := by
  intro k n n' q
  simp only [structural, search, Query.renumber, searchConstraints_renumber,
    searchDistinct_renumber, List.length_map]

end Oracle

/-! ### Quiet state spaces -/

/-- Nothing was compared or hashed, and edges start at nodes. -/
structure StateSpace.Quiet (s : StateSpace) : Prop where
  compares : ∀ n ∈ s.nodes, n.contains .eq = false
  hashes : ∀ n ∈ s.nodes, n.contains .sha3 = false
  edges : ∀ e ∈ s.edges, e.source < s.nodes.size

theorem StateSpace.quiet_empty : ({} : StateSpace).Quiet where
  compares n hn := absurd hn (Array.not_mem_empty n)
  hashes n hn := absurd hn (Array.not_mem_empty n)
  edges e he := absurd he (Array.not_mem_empty e)

/-! ### Single owners -/

open Watch

theorem twin_say (m m' : Message) : Twin Eq (say m) (say m') :=
  fun _ _ => ⟨(), _, (), _, rfl, rfl, rfl⟩

theorem twin_nextQuery : Twin (fun _ _ => True) nextQuery nextQuery :=
  fun _ _ => ⟨_, _, _, _, rfl, rfl, trivial⟩

theorem twin_itemOf {f : Frame} {depth : Nat} (h : depth < f.stack.length) :
    Twin (fun v w => w = v.rename ρ) (itemOf f depth) (itemOf (f.rename ρ) depth) := by
  intro s t
  refine ⟨f.stack[depth], s, (f.stack[depth]).rename ρ, t, ?_, ?_, rfl⟩
  · rw [itemOf, Frame.peek, peekAt, List.getElem?_eq_getElem h]
    rfl
  · rw [itemOf, Frame.peek, peekAt, Frame.rename, List.getElem?_map, List.getElem?_eq_getElem h]
    rfl

namespace SingleOwner

theorem resultOf?_rename (frames : List Frame) :
    resultOf? (frames.map (Frame.rename ρ)) = (resultOf? frames).map (Value.rename ρ) := by
  cases frames with
  | nil => rfl
  | cons f rest => exact List.head?_map

/-- Where nothing was compared, nothing is found. -/
theorem inspectFrames_quiet (oracle : Oracle) (node : Node) (frames : List Frame)
    (h : ∀ f ∈ frames, f.instruction.opcode ≠ .eq) (caller : Option Value)
    (stored : Option (Value × Option Value)) (l : Ledger) :
    ∃ l', inspectFrames oracle node caller stored frames l = .ok none l' := by
  fun_induction inspectFrames oracle node caller stored frames generalizing l with
  | case1 => exact ⟨l, rfl⟩
  | case2 _ _ frame rest _ ih | case3 _ _ frame rest _ ih =>
    exact ih (fun f hf => h f (List.mem_cons_of_mem _ hf)) _
  | case4 frame rest heq | case5 _ _ frame rest heq =>
    exact absurd heq (h frame List.mem_cons_self)
  | case6 _ _ frame rest _ _ _ ih => exact ih (fun f hf => h f (List.mem_cons_of_mem _ hf)) l

/-- Nodes where nothing was compared may come first. -/
theorem twin_inspectNodes_append {m : Watch (List Finding)} (oracle : Oracle) (front : List Node)
    (hfront : ∀ n ∈ front, n.contains .eq = false) {nodes : List Node} {found : List Finding}
    (h : Twin Eq m (inspectNodes oracle found nodes)) :
    Twin Eq m (inspectNodes oracle found (front ++ nodes)) := by
  induction front with
  | nil => exact h
  | cons node rest ih =>
    have hrest := ih fun n hn => hfront n (List.mem_cons_of_mem _ hn)
    have hquiet : ∀ f ∈ node.frames.toList, f.instruction.opcode ≠ .eq := by
      have hcontains := hfront node List.mem_cons_self
      simp only [Node.contains, Array.any_eq_false', decide_eq_true_eq] at hcontains
      exact fun f hf => hcontains f (Array.mem_toList_iff.mp hf)
    rw [List.cons_append]
    unfold inspectNodes
    split
    · exact hrest
    · intro s t
      obtain ⟨t₁, hnone⟩ := inspectFrames_quiet oracle node _ hquiet none none t
      obtain ⟨a, s', b, t', hs, ht, hab⟩ := hrest s t₁
      refine ⟨a, s', b, t', hs, ?_, hab⟩
      rw [bind_run, hnone]
      exact ht

variable {oracle : Oracle} (ho : oracle.Blind)
include ho

theorem twin_refutes (q : Query) :
    Twin Eq (refutes oracle q) (refutes oracle (q.renumber k)) := by
  refine .bind twin_nextQuery fun n n' _ => ?_
  rw [ho k n n' q]
  cases oracle.check n q with
  | ok verdict => exact twin_pure rfl
  | error e => exact .bind (twin_say _ _) fun _ _ _ => twin_pure rfl

theorem twin_provesPair (constraints : List Constraint) (a b caller stored : Term) :
    Twin Eq (provesPair oracle constraints a b caller stored)
      (provesPair oracle (constraints.map (Constraint.renumber k)) (a.renumber k) (b.renumber k)
        (caller.renumber k) (stored.renumber k)) := by
  refine .bind (twin_refutes ho ⟨constraints, [(a, caller), (b, stored)]⟩) ?_
  rintro refuted _ rfl
  cases refuted with
  | true => exact twin_pure rfl
  | false => exact twin_refutes ho ⟨constraints, [(a, stored), (b, caller)]⟩

variable (hρ : ρ.ids = (· + k))
include hρ

theorem twin_inspectFrames (node : Node) (d : Nat) (frames : List Frame)
    (h : ∀ f ∈ frames, f.instruction.opcode.pops ≤ f.stack.length) (caller : Option Value)
    (stored : Option (Value × Option Value)) :
    Twin Eq (inspectFrames oracle node caller stored frames)
      (inspectFrames oracle (node.relocate ρ d) (caller.map (Value.rename ρ))
        (stored.map fun (v, slot) => (v.rename ρ, slot.map (Value.rename ρ)))
        (frames.map (Frame.rename ρ))) := by
  induction frames generalizing caller stored with
  | nil => exact twin_pure rfl
  | cons frame rest ih =>
    have hrest := ih fun f hf => h f (List.mem_cons_of_mem _ hf)
    rw [List.map_cons]
    unfold inspectFrames
    have hins : (frame.rename ρ).instruction = frame.instruction := rfl
    rw [hins]
    split
    · rw [resultOf?_rename]
      exact .bind (twin_say _ _) fun _ _ _ => hrest _ _
    · refine .bind (twin_say _ _) fun _ _ _ => ?_
      have hread : ((resultOf? (rest.map (Frame.rename ρ))).map
            fun v => (v, (frame.rename ρ).stack.head?)) =
          ((resultOf? rest).map fun v => (v, frame.stack.head?)).map
            fun (v, slot) => (v.rename ρ, slot.map (Value.rename ρ)) := by
        rw [resultOf?_rename, Option.map_map, Option.map_map]
        exact congrArg (Option.map · _) (funext fun v => Prod.ext rfl List.head?_map)
      rw [hread]
      exact hrest _ _
    · next heq =>
      have htwo := h frame List.mem_cons_self
      rw [heq] at htwo
      rcases caller with - | who
      · exact hrest none stored
      rcases stored with - | ⟨v, slot⟩
      · exact hrest (some who) none
      refine .bind (twin_itemOf (Nat.lt_of_succ_lt htwo)) ?_
      rintro a _ rfl
      refine .bind (twin_itemOf htwo) ?_
      rintro b _ rfl
      have hpair := twin_provesPair (k := k) ho node.constraints a.word b.word who.word v.word
      simp only [Constraint.renumber_eq_of_ids hρ, Term.renumber_eq_of_ids hρ] at hpair
      refine .bind hpair ?_
      rintro proved _ rfl
      cases proved with
      | false => exact hrest (some who) (some (v, slot))
      | true =>
        refine twin_pure (congrArg some (congrArg (Finding.mk node.functionName · none) ?_))
        cases slot with
        | none => rfl
        | some slot => exact (Value.const?_rename slot).symm
    · exact hrest _ _

theorem twin_inspectNodes (d : Nat) (nodes : List Node)
    (h : ∀ n ∈ nodes, ∀ f ∈ n.frames, f.instruction.opcode.pops ≤ f.stack.length)
    (found : List Finding) :
    Twin Eq (inspectNodes oracle found nodes)
      (inspectNodes oracle found (nodes.map (Node.relocate ρ d))) := by
  induction nodes generalizing found with
  | nil => exact twin_pure rfl
  | cons node rest ih =>
    have hrest := ih fun n hn => h n (List.mem_cons_of_mem _ hn)
    rw [List.map_cons]
    unfold inspectNodes
    have hname : (node.relocate ρ d).functionName = node.functionName := rfl
    have hframes : (node.relocate ρ d).frames.toList = node.frames.toList.map (Frame.rename ρ) :=
      Array.toList_map
    rw [hname, hframes]
    split
    · exact hrest _
    · refine .bind (twin_inspectFrames ho hρ node d _ (fun f hf => ?_) none none) ?_
      · exact h node List.mem_cons_self f (Array.mem_toList_iff.mp hf)
      · rintro finding _ rfl
        cases finding <;> exact hrest _

theorem twin_inspect {front space : StateSpace} (hfront : front.Quiet) (h : space.Supported) :
    Twin Eq (inspect oracle space) (inspect oracle (front.behind ρ space)) := by
  have hnodes := twin_inspectNodes_append oracle front.nodes.toList
    (fun n hn => hfront.compares n (Array.mem_toList_iff.mp hn))
    (twin_inspectNodes ho hρ front.nodes.size space.nodes.toList
      (fun n hn => h n (Array.mem_toList_iff.mp hn)) [])
  rw [← Array.toList_map, ← Array.toList_append] at hnodes
  refine .bind (twin_say _ _) fun _ _ _ => .bind hnodes ?_
  rintro found _ rfl
  exact .bind (twin_say _ _) fun _ _ _ => twin_pure rfl

end SingleOwner

/-! ### Off-chain secrets -/

namespace OffChainSecret

theorem exists_hash_of_hashesPacked {instructions : List Instruction}
    (h : hashesPacked instructions = true) : ∃ ins ∈ instructions, ins.opcode = .sha3 := by
  induction instructions with
  | nil => cases h
  | cons a rest ih =>
    rcases rest with - | ⟨b, - | ⟨c, rest⟩⟩
    · cases h
    · cases h
    · rw [hashesPacked, Bool.or_eq_true] at h
      rcases h with h | h
      · simp only [Bool.and_eq_true, decide_eq_true_eq] at h
        exact ⟨c, by simp, h.2⟩
      · obtain ⟨ins, hins, hop⟩ := ih h
        exact ⟨ins, List.mem_cons_of_mem _ hins, hop⟩

variable {front : StateSpace}

theorem isRestricted_of_quiet {space : StateSpace} {n : Node} (h : n.contains .sha3 = false) :
    isRestricted space n = false := by
  rw [isRestricted, Bool.and_eq_false_iff]
  refine .inl (Bool.eq_false_iff.mpr fun hpacked => ?_)
  obtain ⟨_, hmem, hop⟩ := exists_hash_of_hashesPacked hpacked
  obtain ⟨f, hf, rfl⟩ := List.mem_map.mp hmem
  simp only [Node.contains, Array.any_eq_false', decide_eq_true_eq] at h
  exact h f (Array.mem_toList_iff.mp hf) hop

theorem successors_behind (hfront : front.Quiet) (space : StateSpace) (uid : Nat) :
    (front.behind ρ space).successors (uid + front.nodes.size) =
      (space.successors uid).map (Node.relocate ρ front.nodes.size) := by
  have hnone : front.edges.toList.filter (·.source = uid + front.nodes.size) = [] := by
    refine List.filter_eq_nil_iff.mpr fun e he => ?_
    have hsource := hfront.edges e (Array.mem_toList_iff.mp he)
    simp only [decide_eq_true_eq]
    omega
  have hedges : (front.behind ρ space).edges.toList.filter (·.source = uid + front.nodes.size) =
      (space.edges.toList.filter (·.source = uid)).map (Edge.shift front.nodes.size) := by
    simp only [StateSpace.behind, Array.toList_append, Array.toList_map, List.filter_append, hnone,
      List.nil_append, List.filter_map]
    refine congrArg (List.map _) (List.filter_congr fun e _ => ?_)
    simp only [Function.comp_apply, Edge.shift, Nat.add_right_cancel_iff]
  have hnode (target : Nat) : (front.behind ρ space).nodes[target + front.nodes.size]? =
      space.nodes[target]?.map (Node.relocate ρ front.nodes.size) := by
    rw [StateSpace.behind, Array.getElem?_append_right (Nat.le_add_left ..), Nat.add_sub_cancel,
      Array.getElem?_map]
  rw [StateSpace.successors, hedges, List.filterMap_map, StateSpace.successors,
    List.map_filterMap]
  exact List.filterMap_congr fun e _ => hnode e.target

theorem restrictedFunctions_behind (hfront : front.Quiet) (space : StateSpace) :
    restrictedFunctions (front.behind ρ space) = restrictedFunctions space := by
  have hinstructions (n : Node) :
      (n.relocate ρ front.nodes.size).frames.toList.map (·.instruction) =
        n.frames.toList.map (·.instruction) := by
    rw [Node.relocate, Array.toList_map, List.map_map]
    rfl
  have hcontains (n : Node) :
      (n.relocate ρ front.nodes.size).contains .revert = n.contains .revert := by
    simp only [Node.contains, Node.relocate, Array.any_map]
    rfl
  have hrestricted (n : Node) :
      isRestricted (front.behind ρ space) (n.relocate ρ front.nodes.size) =
        isRestricted space n := by
    have huid : (n.relocate ρ front.nodes.size).uid = n.uid + front.nodes.size := rfl
    rw [isRestricted, hinstructions, huid, successors_behind hfront, List.any_map, isRestricted]
    exact congrArg (_ && ·) (congrArg (List.any _) (funext hcontains))
  have hnone : front.nodes.toList.filter (isRestricted (front.behind ρ space)) = [] :=
    List.filter_eq_nil_iff.mpr fun n hn => Bool.eq_false_iff.mp
      (isRestricted_of_quiet (hfront.hashes n (Array.mem_toList_iff.mp hn)))
  have hnodes : (front.behind ρ space).nodes.toList =
      front.nodes.toList ++ space.nodes.toList.map (Node.relocate ρ front.nodes.size) := by
    rw [StateSpace.behind, Array.toList_append, Array.toList_map]
  rw [restrictedFunctions, hnodes, List.filter_append, hnone, List.nil_append, List.filter_map,
    List.map_map]
  exact congrArg (List.map _) (List.filter_congr fun n _ => hrestricted n)

theorem twin_inspect (hfront : front.Quiet) (space : StateSpace) :
    Twin Eq (inspect space) (inspect (front.behind ρ space)) := by
  have hnames (names : List String) :
      Twin Eq (names.forM fun name => say (.restricted name))
        (names.forM fun name => say (.restricted name)) := by
    induction names with
    | nil => exact twin_pure rfl
    | cons name rest ih => exact .bind (twin_say _ _) fun _ _ _ => ih
  unfold inspect
  rw [restrictedFunctions_behind hfront]
  exact .bind (hnames _) fun _ _ _ => twin_pure rfl

end OffChainSecret

/-! ### Detectors -/

namespace Detector

/-- What is left of a detector between runs does not depend on its findings. -/
theorem exists_recordNew (findings : List Finding) (d : Detector) :
    ∃ d', d'.reset = d.reset ∧ ∀ l, ∃ l', recordNew findings (d, l) = .ok () (d', l') := by
  induction findings generalizing d with
  | nil => exact ⟨d, rfl, fun l => ⟨l, rfl⟩⟩
  | cons f rest ih =>
    have hrun (l : Ledger) : recordNew (f :: rest) (d, l) =
        (if d.reported.contains f.functionName then recordNew rest
          else record f >>= fun _ => recordNew rest) (d, l) := rfl
    by_cases hf : d.reported.contains f.functionName = true
    · obtain ⟨d', hreset, hrest⟩ := ih d
      refine ⟨d', hreset, fun l => ?_⟩
      rw [hrun, if_pos hf]
      exact hrest l
    · obtain ⟨d', hreset, hrest⟩ := ih
        { d with
          reported := d.reported.insert f.functionName
          findings := d.findings ++ [f] }
      refine ⟨d', hreset, fun l => ?_⟩
      rw [hrun, if_neg hf]
      exact hrest _

/-- A look at a state space that has one result, and the detector with that result. -/
theorem look_run {look : Watch (List Finding)} {findings : List Finding}
    (hlook : ∀ l, ∃ l', look l = .ok findings l') (m : Message) {d d' : Detector}
    (hrecord : ∀ l, ∃ l', recordNew findings (d, l) = .ok () (d', l')) (l : Ledger) :
    ∃ l', ((liftM (say m) : EStateM Underflow (Detector × Ledger) Unit) >>= fun _ =>
      liftM look >>= recordNew) (d, l) = .ok () (d', l') := by
  obtain ⟨l₁, hlook⟩ := hlook (l.say m)
  obtain ⟨l₂, hrecord⟩ := hrecord l₁
  refine ⟨l₂, ?_⟩
  show (look.besides >>= recordNew) (d, l.say m) = _
  simp only [bind_run, besides, hlook, hrecord]

variable {oracle : Oracle} {front space : StateSpace}

/-- A detector that looks at state spaces records what it finds there. -/
theorem inspect_run (oracle : Oracle) (space : StateSpace) (d : Detector) (l : Ledger) :
    inspect oracle space (d, l) =
      (d.strategy.inspect? oracle space).elim (pure ()) (fun look =>
        (liftM (say (.executing d.pattern.title)) : EStateM Underflow (Detector × Ledger) Unit)
          >>= fun _ => liftM look >>= recordNew) (d, l) := by
  have hget : (get : EStateM Underflow (Detector × Ledger) (Detector × Ledger)) (d, l) =
      .ok (d, l) (d, l) := rfl
  simp only [inspect, bind_run, hget]
  cases d.strategy.inspect? oracle space <;> rfl

theorem exists_inspect (ho : oracle.Blind) (hρ : ρ.ids = (· + k)) (hfront : front.Quiet)
    (h : space.Supported) (d : Detector) :
    ∃ d', d'.reset = d.reset ∧ (∀ l, ∃ l', inspect oracle space (d, l) = .ok () (d', l')) ∧
      ∀ l, ∃ l', inspect oracle (front.behind ρ space) (d, l) = .ok () (d', l') := by
  have htwin {look look' : Watch (List Finding)} (htwin : Twin Eq look look')
      (hsome : d.strategy.inspect? oracle space = some look)
      (hsome' : d.strategy.inspect? oracle (front.behind ρ space) = some look') :
      ∃ d', d'.reset = d.reset ∧ (∀ l, ∃ l', inspect oracle space (d, l) = .ok () (d', l')) ∧
        ∀ l, ∃ l', inspect oracle (front.behind ρ space) (d, l) = .ok () (d', l') := by
    obtain ⟨findings, hlook, hlook'⟩ := htwin.exists_result {} {}
    obtain ⟨d', hreset, hrecord⟩ := exists_recordNew findings d
    refine ⟨d', hreset, fun l => ?_, fun l => ?_⟩
    · rw [inspect_run, hsome]
      exact look_run hlook _ hrecord l
    · rw [inspect_run, hsome']
      exact look_run hlook' _ hrecord l
  cases hstrategy : d.strategy with
  | singleOwner =>
    exact htwin (SingleOwner.twin_inspect ho hρ hfront h) (by rw [hstrategy, Strategy.inspect?])
      (by rw [hstrategy, Strategy.inspect?])
  | offChainSecret =>
    exact htwin (OffChainSecret.twin_inspect hfront space) (by rw [hstrategy, Strategy.inspect?])
      (by rw [hstrategy, Strategy.inspect?])
  | _ =>
    have hnone (space : StateSpace) : d.strategy.inspect? oracle space = none := by
      rw [hstrategy]
      rfl
    refine ⟨d, rfl, fun l => ⟨l, ?_⟩, fun l => ⟨l, ?_⟩⟩ <;> rw [inspect_run, hnone] <;> rfl

/-- The detector after it was shown a finished state space. -/
def inspected (oracle : Oracle) (space : StateSpace) (d : Detector) : Detector :=
  match inspect oracle space (d, {}) with
  | .ok _ (d', _) => d'
  | .error _ (d', _) => d'

theorem inspected_of_run {d d' : Detector}
    (h : ∀ l, ∃ l', inspect oracle space (d, l) = .ok () (d', l')) :
    d.inspected oracle space = d' := by
  obtain ⟨l', hl'⟩ := h {}
  rw [inspected, hl']

variable (ho : oracle.Blind) (h : space.Supported) (d : Detector)
include ho h

theorem inspect_eq (l : Ledger) :
    ∃ l', inspect oracle space (d, l) = .ok () (d.inspected oracle space, l') := by
  obtain ⟨d', -, hrun, -⟩ := d.exists_inspect ho (Renaming.ids_shift 0) StateSpace.quiet_empty h
  rw [inspected_of_run hrun]
  exact hrun l

theorem inspected_behind (hρ : ρ.ids = (· + k)) (hfront : front.Quiet) :
    d.inspected oracle (front.behind ρ space) = d.inspected oracle space := by
  obtain ⟨d', -, hrun, hrun'⟩ := d.exists_inspect ho hρ hfront h
  rw [inspected_of_run hrun, inspected_of_run hrun']

theorem reset_inspected : (d.inspected oracle space).reset = d.reset := by
  obtain ⟨d', hreset, hrun, -⟩ :=
    d.exists_inspect ho (Renaming.ids_shift 0) StateSpace.quiet_empty h
  rw [inspected_of_run hrun, hreset]

end Detector

/-! ### Registries -/

namespace Registry

variable {oracle : Oracle} {space : StateSpace}

/-- The detectors after they were shown a finished state space. -/
def inspected (oracle : Oracle) (space : StateSpace) (r : Registry) : Registry :=
  ⟨r.detectors.map (·.inspected oracle space)⟩

variable (ho : oracle.Blind) (h : space.Supported)
include ho h

theorem inspectAll_eq (detectors : List Detector) (done : List Detector) (l : Ledger) :
    ∃ l', inspectAll oracle space done l detectors =
      .ok () (⟨done.reverse ++ detectors.map (·.inspected oracle space)⟩, l') := by
  induction detectors generalizing done l with
  | nil => exact ⟨l, by rw [inspectAll, List.map_nil, List.append_nil]⟩
  | cons d rest ih =>
    obtain ⟨l₁, hd⟩ := d.inspect_eq ho h l
    obtain ⟨l₂, hrest⟩ := ih (d.inspected oracle space :: done) l₁
    refine ⟨l₂, ?_⟩
    rw [inspectAll, hd]
    simp only [hrest, List.reverse_cons, List.append_assoc, List.cons_append, List.nil_append,
      List.map_cons]

/-- **What detectors make of a state space does not depend on the log.** -/
theorem inspect_eq (r : Registry) (l : Ledger) :
    ∃ l', inspect oracle space (r, l) = .ok () (r.inspected oracle space, l') :=
  inspectAll_eq ho h r.detectors [] l

/-- **Nor does it depend on names, or on what quietly went before.** -/
theorem inspected_behind {front : StateSpace} (hρ : ρ.ids = (· + k)) (hfront : front.Quiet)
    (r : Registry) : r.inspected oracle (front.behind ρ space) = r.inspected oracle space :=
  congrArg mk (List.map_congr_left fun d _ => d.inspected_behind ho h hρ hfront)

theorem inspected_renumber (r : Registry) (k : Nat) :
    r.inspected oracle (space.renumber k) = r.inspected oracle space := by
  rw [StateSpace.renumber_eq_behind]
  exact inspected_behind ho h (Renaming.ids_shift k) StateSpace.quiet_empty r

theorem reset_inspected (r : Registry) : (r.inspected oracle space).reset = r.reset := by
  rw [reset, inspected, List.map_map, reset]
  exact congrArg mk (List.map_congr_left fun d _ => d.reset_inspected ho h)

end Registry

/-! ### Analyses -/

theorem Detector.reset_reset (d : Detector) : d.reset.reset = d.reset := by
  rcases d with ⟨strategy, reported, findings⟩
  cases strategy <;> rfl

theorem Registry.reset_reset (r : Registry) : r.reset.reset = r.reset := by
  rw [reset, reset, List.map_map]
  exact congrArg mk (List.map_congr_left fun d _ => d.reset_reset)

namespace Analysis

/-- How a run explores its target. -/
def explored (a : Analysis) (target : Target) : Exploration Registry :=
  a.prepare.explorer.explore Registry.observer target
    (a.prepare.registry, { log := .starting a.prepare.registry.detectors.length :: a.prepare.log })

/-- What a run comes to: a report, or the error that ended it. -/
def outcome (a : Analysis) (target : Target) (reader : Option StorageReader) :
    Except AnalysisError Report :=
  match execute target reader a with
  | .ok r _ => .ok r
  | .error e _ => .error e

/-- The analysis after a run, whatever that came to. -/
def after (a : Analysis) (target : Target) (reader : Option StorageReader) : Analysis :=
  match execute target reader a with
  | .ok _ a' => a'
  | .error _ a' => a'

/-- While a run explores, its detectors have their hooks and forget down to the same. -/
theorem follows_prepare (a : Analysis) (code : Bytes) :
    (a.prepare.explorer.setting Registry.observer code).Follows Registry.react
      fun r => r.Serves a.prepare.explorer.hooks ∧ r.reset = a.registry.reset :=
  Registry.follows_setting a.prepare.explorer code a.registry

theorem explored_succeeds (a : Analysis) (target : Target) :
    (a.explored target).Succeeded
      fun r => r.Serves a.prepare.explorer.hooks ∧ r.reset = a.registry.reset :=
  Explorer.explore_succeeds (fun code => (a.follows_prepare code).reliable) target _
    ⟨a.serves_prepare, a.registry.reset_reset⟩

section

variable {a : Analysis} (ho : a.oracle.Blind) {target : Target} {space : StateSpace}
  (hresult : (a.explored target).result = .ok space) (hspace : space.Supported)
  (reader : Option StorageReader)
include ho hresult hspace

theorem execute_eq : ∃ log,
    execute target reader a =
      match report target reader ((a.explored target).watch.1.inspected a.oracle space) with
      | .ok r => .ok r ⟨a.oracle, (a.explored target).explorer,
          (a.explored target).watch.1.inspected a.oracle space, log⟩
      | .error e => .error e ⟨a.oracle, (a.explored target).explorer,
          (a.explored target).watch.1.inspected a.oracle space, log⟩ := by
  rw [explored] at hresult
  unfold execute
  simp only [hresult]
  generalize Ledger.say _ _ = l
  obtain ⟨l', hrun⟩ := Registry.inspect_eq ho hspace (a.explored target).watch.1 l
  rw [explored] at hrun
  have horacle : a.prepare.oracle = a.oracle := rfl
  simp only [horacle, hrun]
  exact ⟨l'.log, rfl⟩

theorem outcome_eq : a.outcome target reader =
    report target reader ((a.explored target).watch.1.inspected a.oracle space) := by
  obtain ⟨log, hrun⟩ := execute_eq ho hresult hspace reader
  rw [outcome, hrun]
  cases report target reader ((a.explored target).watch.1.inspected a.oracle space) <;> rfl

theorem after_eq : ∃ log, a.after target reader =
    ⟨a.oracle, (a.explored target).explorer,
      (a.explored target).watch.1.inspected a.oracle space, log⟩ := by
  obtain ⟨log, hrun⟩ := execute_eq ho hresult hspace reader
  refine ⟨log, ?_⟩
  rw [after, hrun]
  cases report target reader ((a.explored target).watch.1.inspected a.oracle space) <;> rfl

end

end Analysis

end GuardFinder

import GuardFinder.Proofs.Forest
import GuardFinder.Proofs.Observation
import GuardFinder.Proofs.Refutation

/-!
# Mutually exclusive paths

Two nodes of one tree are on the way to each other, or the ways to them part at a branch on a
condition that was open. Then one of them knows that the condition holds, and the other that it does
not.

* `StateSpace.Planted.above_or_opposed`: **nodes that are not above each other know opposite
  things**, which the structural oracle refutes together.
* `Explorer.explore_forest`: the state spaces that explorations return are forests of such nodes.
-/

namespace GuardFinder

/-! ### Ways that part -/

namespace StateSpace

variable {s : StateSpace} {roots : List Nat} {entries : List String} {u v w : Nat}

/-- What lies below a node is the node itself or lies below a child of it. -/
theorem Above.eq_or_first (h : s.Above u v) :
    u = v ∨ ∃ e ∈ s.edges, e.source = u ∧ s.Above e.target v := by
  obtain ⟨es, hchain⟩ := h
  induction hchain with
  | nil => exact .inl rfl
  | @snoc es e chain mem ih =>
    rcases ih with rfl | ⟨d, hd, hsource, ds, hds⟩
    · exact .inr ⟨e, mem, rfl, [], .nil⟩
    · exact .inr ⟨d, hd, hsource, ds ++ [e], .snoc hds mem⟩

/-- Some condition is known to hold at one of two nodes and not to hold at the other. -/
def Opposed (s : StateSpace) (u v : Nat) : Prop :=
  ∃ n m condition taken, s.nodes[u]? = some n ∧ s.nodes[v]? = some m ∧
    ⟨condition, taken⟩ ∈ n.constraints ∧ ⟨condition, !taken⟩ ∈ m.constraints

namespace Planted

/-- The node at the other end of an edge knows more. -/
theorem exists_child (h : s.Planted roots entries) {e : Edge} (he : e ∈ s.edges) {n : Node}
    (hn : s.nodes[e.source]? = some n) :
    ∃ m, s.nodes[e.target]? = some m ∧ n.constraints ⊆ m.constraints := by
  obtain ⟨n', m, f, added, hn', hm, -, -, hconstraints⟩ := h.learns e he
  obtain rfl := Option.some.inj (hn.symm.trans hn')
  exact ⟨m, hm, hconstraints ▸ List.subset_append_left _ _⟩

/-- What is known at a node is known at all nodes below it. -/
theorem exists_below (h : s.Planted roots entries) (habove : s.Above u v) {n : Node}
    (hn : s.nodes[u]? = some n) : ∃ m, s.nodes[v]? = some m ∧ n.constraints ⊆ m.constraints := by
  obtain ⟨es, hchain⟩ := habove
  induction hchain with
  | nil => exact ⟨n, hn, List.Subset.refl _⟩
  | snoc _ mem ih =>
    obtain ⟨m, hm, hsub⟩ := ih
    obtain ⟨m', hm', hsub'⟩ := h.exists_child mem hm
    exact ⟨m', hm', List.Subset.trans hsub hsub'⟩

theorem Opposed.below (h : s.Planted roots entries) (hopposed : s.Opposed u v)
    {u' v' : Nat} (hu : s.Above u u') (hv : s.Above v v') : s.Opposed u' v' := by
  obtain ⟨n, m, condition, taken, hn, hm, hmem, hmem'⟩ := hopposed
  obtain ⟨n', hn', hsub⟩ := h.exists_below hu hn
  obtain ⟨m', hm', hsub'⟩ := h.exists_below hv hm
  exact ⟨n', m', condition, taken, hn', hm', hsub hmem, hsub' hmem'⟩

/-- Two children of a node know opposite things. -/
theorem opposed_of_siblings (h : s.Planted roots entries) {e e' : Edge} (he : e ∈ s.edges)
    (he' : e' ∈ s.edges) (hsource : e.source = e'.source) (hne : e ≠ e') :
    s.Opposed e.target e'.target := by
  obtain ⟨n, m, f, added, hn, hm, hf, hleaves, hconstraints⟩ := h.learns e he
  obtain ⟨n', m', f', added', hn', hm', hf', hleaves', hconstraints'⟩ := h.learns e' he'
  rw [hsource] at hn
  obtain rfl := Option.some.inj (hn.symm.trans hn')
  obtain rfl := Option.some.inj (hf.symm.trans hf')
  have hkind : e.kind ≠ e'.kind := fun heq => hne (h.siblings e he e' he' hsource heq)
  obtain ⟨c, hc, hsymbolic⟩ := hleaves.exists_symbolic hleaves' hkind
  obtain ⟨taken, htaken, hadded⟩ := hleaves.of_symbolic hc hsymbolic
  obtain ⟨taken', htaken', hadded'⟩ := hleaves'.of_symbolic hc hsymbolic
  have hnot : taken' = !taken := by
    rw [htaken, htaken'] at hkind
    cases taken <;> cases taken' <;> simp_all
  refine ⟨m, m', c.word, taken, hm, hm', ?_, ?_⟩
  · rw [hconstraints, hadded]
    exact List.mem_append_right _ (List.mem_singleton_self _)
  · rw [hconstraints', hadded', hnot]
    exact List.mem_append_right _ (List.mem_singleton_self _)

/-- **Two nodes below a third are above each other or know opposite things.** -/
theorem above_or_opposed (h : s.Planted roots entries) (hu : s.Above w u) (hv : s.Above w v) :
    s.Above u v ∨ s.Above v u ∨ s.Opposed u v := by
  obtain ⟨es, hchain⟩ := hu
  induction hchain with
  | nil => exact .inl hv
  | @snoc es e chain mem ih =>
    rcases ih with hbelow | habove | hopposed
    · rcases hbelow.eq_or_first with rfl | ⟨d, hd, hsource, hbelow⟩
      · exact .inr (.inl ⟨_, .snoc .nil mem⟩)
      · by_cases heq : d = e
        · exact .inl (heq ▸ hbelow)
        · -- the ways part here
          have hparted := h.opposed_of_siblings mem hd hsource.symm (Ne.symm heq)
          exact .inr (.inr (Opposed.below h hparted ⟨[], .nil⟩ hbelow))
    · exact .inr (.inl (habove.snoc mem))
    · exact .inr (.inr (Opposed.below h hopposed ⟨_, .snoc .nil mem⟩ ⟨[], .nil⟩))

end Planted

end StateSpace

/-! ### Refutations -/

namespace Constraint

theorem stripNegations_not (condition : Term) (holds : Bool) :
    (stripNegations condition !holds).condition = (stripNegations condition holds).condition ∧
      (stripNegations condition !holds).holds = !(stripNegations condition holds).holds := by
  fun_induction stripNegations condition holds with
  | case1 holds inner ih =>
    rw [stripNegations, if_pos rfl]
    exact ih
  | case2 holds op inner hop =>
    rw [stripNegations, if_neg hop]
    exact ⟨rfl, rfl⟩
  | case3 condition holds hcondition =>
    rw [stripNegations.eq_2 _ _ hcondition]
    exact ⟨rfl, rfl⟩

theorem contradicts_not (condition : Term) (holds : Bool) :
    contradicts ⟨condition, holds⟩ ⟨condition, !holds⟩ = true := by
  obtain ⟨hcondition, hholds⟩ := stripNegations_not condition holds
  simp [contradicts, core, hcondition, hholds]

end Constraint

theorem Query.refutesConstraints_of_mem {cs ds : List Constraint} {c d : Constraint}
    (hc : c ∈ cs) (hd : d ∈ ds) (h : c.contradicts d = true) :
    refutesConstraints (cs ++ ds) = true := by
  induction cs with
  | nil => cases hc
  | cons b rest ih =>
    rw [List.cons_append, refutesConstraints, Bool.or_eq_true, Bool.or_eq_true]
    rcases List.mem_cons.mp hc with rfl | hc
    · exact .inl (.inr (List.any_eq_true.mpr ⟨d, List.mem_append_right _ hd, h⟩))
    · exact .inr (ih hc)

/-- Nodes that know opposite things are refuted together. -/
theorem StateSpace.Opposed.check_unsat {s : StateSpace} {u v : Nat} (h : s.Opposed u v)
    {n m : Node} (hn : s.nodes[u]? = some n) (hm : s.nodes[v]? = some m) {seconds k : Nat}
    {clock : Nat → Nat → Nat} (htime : ∀ i, clock k i < seconds) :
    (Oracle.structural seconds clock).check k ⟨n.constraints ++ m.constraints, []⟩ =
      .ok .unsat := by
  obtain ⟨n', m', condition, taken, hn', hm', hmem, hmem'⟩ := h
  obtain rfl := Option.some.inj (hn.symm.trans hn')
  obtain rfl := Option.some.inj (hm.symm.trans hm')
  have hrefuted : Query.isRefuted ⟨n.constraints ++ m.constraints, []⟩ = true := by
    rw [Query.isRefuted, Bool.or_eq_true]
    exact .inl (Query.refutesConstraints_of_mem hmem hmem' (Constraint.contradicts_not ..))
  rw [Oracle.check_structural htime, if_pos hrefuted]

/-! ### Explorations -/

/-- The transactions that the exploration of a target may consist of. -/
def Target.entries : Target → List (List String)
  | .deployed .. => [[fallbackName]]
  | .creation _ => [[constructorName], [constructorName, fallbackName]]

/-- What every transaction adds to a state space, the state space of an exploration has. -/
theorem Explorer.explore_rule {σ : Type} {x : Explorer} {observer : Observer σ} {target : Target}
    {watch : σ × Ledger} {I : List String → StateSpace → Prop} (hempty : I [] {})
    (hrun : ∀ ⦃program : Program⦄ ⦃entries entry space supply g⦄,
      Progress.Reaches program x.limits (.begin entry space supply) g → I entries space →
        I (entries ++ [entry]) g.space)
    (hcut : ∀ ⦃entries space⦄, I entries space → I entries { space with complete := false })
    {space : StateSpace} (h : (x.explore observer target watch).result = .ok space) :
    ∃ entries ∈ target.entries, I entries space := by
  have htransaction (code : Bytes) (entries : List String) (entry : String) (space : StateSpace)
      (supply : Supply) (w : σ × Ledger) (hspace : I entries space) :
      I (entries ++ [entry])
        (transaction (x.setting observer code) entry space supply w).progress.space := by
    obtain ⟨g, hreach, ⟨hend, -⟩ | hend⟩ :=
      runPaths_reaches (x.setting observer code) (.begin entry space supply) w
    · rw [show (transaction (x.setting observer code) entry space supply w).progress = g from hend]
      exact hrun hreach hspace
    · rw [show (transaction (x.setting observer code) entry space supply w).progress = g.cutShort
        from hend]
      exact hcut (hrun hreach hspace)
  have hfinish {e : RunEnd σ} {entries : List String} (h : (x.finish e).result = .ok space)
      (he : I entries e.progress.space) : I entries space := by
    simp only [finish] at h
    split at h
    · cases h
    · exact Except.ok.inj h ▸ he
  cases target with
  | deployed address code =>
    exact ⟨_, List.mem_singleton_self _, hfinish h (htransaction code [] _ _ _ _ hempty)⟩
  | creation code =>
    have hcreated := htransaction code [] constructorName {} { havocs := x.havocs }
      (watch.1, { watch.2 with taints := ∅ }) hempty
    simp only [explore] at h
    split at h
    · exact ⟨_, List.mem_cons_self, hfinish h hcreated⟩
    · split at h
      · exact ⟨_, List.mem_cons_of_mem _ (List.mem_singleton_self _),
          hfinish h (htransaction _ _ fallbackName _ _ _ hcreated)⟩
      · exact ⟨_, List.mem_cons_self, hfinish h hcreated⟩

/-- **State spaces are forests of mutually exclusive paths.** An exploration returns a forest with
one tree for each transaction. If two nodes of one tree are not above each other, then the structural
oracle, given time, refutes what is known at the one together with what is known at the other. -/
theorem Explorer.explore_forest {σ : Type} (x : Explorer) (observer : Observer σ) (target : Target)
    (watch : σ × Ledger) {space : StateSpace}
    (h : (x.explore observer target watch).result = .ok space) :
    ∃ roots, space.IsForest roots ∧
      (∃ entries ∈ target.entries, roots.map space.nameAt? = entries.map some) ∧
      (∀ u < space.nodes.size, ∃ r ∈ roots, space.Above r u) ∧
      ∀ ⦃r u v : Nat⦄ ⦃n m : Node⦄, r ∈ roots → space.Above r u → space.Above r v →
        space.nodes[u]? = some n → space.nodes[v]? = some m →
        ¬space.Above u v → ¬space.Above v u →
        ∀ (seconds : Nat) (clock : Nat → Nat → Nat) (k : Nat), (∀ i, clock k i < seconds) →
          (Oracle.structural seconds clock).check k ⟨n.constraints ++ m.constraints, []⟩ =
            .ok .unsat := by
  obtain ⟨entries, hentries, roots, hplanted⟩ :=
    explore_rule (I := fun entries space => ∃ roots, space.Planted roots entries) ⟨[], .empty⟩
      (fun program entries entry space supply g hreach hspace => by
        obtain ⟨roots, hplanted⟩ := hspace
        exact ⟨_, Progress.planted_of_reaches hreach hplanted⟩)
      (fun entries space hspace => by
        obtain ⟨roots, hplanted⟩ := hspace
        exact ⟨roots, hplanted.cutShort⟩) h
  refine ⟨roots, hplanted.isForest, ⟨entries, hentries, hplanted.entry⟩,
    fun u hu => hplanted.exists_root hu, ?_⟩
  intro r u v n m _ hu hv hn hm hbelow habove seconds clock k htime
  have hopposed := ((hplanted.above_or_opposed hu hv).resolve_left hbelow).resolve_left habove
  exact hopposed.check_unsat hn hm htime

/-- The code that was created branches on whether the caller is in slot 0. -/
theorem Explorer.explore_forest_created :
    ∃ space roots n m,
      (wipingExplorer.explore wipingObserver (.creation createdCheckCode) ((), {})).result =
        .ok space ∧
      space.IsForest roots ∧ roots.length = 2 ∧ space.nodes[2]? = some n ∧
      space.nodes[3]? = some m ∧
      (Oracle.structural 60).check 0 ⟨n.constraints ++ m.constraints, []⟩ = .ok .unsat := by
  have hcheck : (match (wipingExplorer.explore wipingObserver (.creation createdCheckCode)
      ((), {})).result with
    | .ok space => decide (space.nodes.size = 4 ∧
        space.edges = #[⟨1, 2, .conditional false⟩, ⟨1, 3, .conditional true⟩])
    | .error _ => false) = true := by decide +kernel
  split at hcheck
  · next space hspace =>
    obtain ⟨hsize, hedges⟩ := of_decide_eq_true hcheck
    obtain ⟨roots, hforest, -, -, hexclusive⟩ := explore_forest _ _ _ _ hspace
    have hcount := hforest.size
    rw [hsize, hedges] at hcount
    -- no edge leads to node 1, so it is a root
    have hroot : 1 ∈ roots := by
      have hincoming := hforest.incoming 1 (by omega)
      rw [hedges] at hincoming
      by_contra hnot
      rw [if_neg hnot] at hincoming
      revert hincoming
      decide
    have hleft : space.Above 1 2 :=
      ⟨_, .snoc (e := ⟨1, 2, .conditional false⟩) .nil (by simp [hedges])⟩
    have hright : space.Above 1 3 :=
      ⟨_, .snoc (e := ⟨1, 3, .conditional true⟩) .nil (by simp [hedges])⟩
    have hleaf {u v : Nat} (hu : 2 ≤ u) (hne : u ≠ v) : ¬space.Above u v := by
      intro habove
      rcases habove.eq_or_first with heq | ⟨e, he, hsource, -⟩
      · exact hne heq
      · rw [hedges] at he
        simp only [List.mem_toArray, List.mem_cons, List.not_mem_nil, or_false] at he
        rcases he with rfl | rfl <;> simp only at hsource <;> omega
    have hn : space.nodes[2]? = some space.nodes[2] := Array.getElem?_eq_getElem _
    have hm : space.nodes[3]? = some space.nodes[3] := Array.getElem?_eq_getElem _
    refine ⟨space, roots, _, _, hspace, hforest, by simp at hcount; omega, hn, hm, ?_⟩
    exact hexclusive hroot hleft hright hn hm (hleaf (by omega) (by omega))
      (hleaf (by omega) (by omega)) 60 _ 0 (fun _ => by decide)
  · cases hcheck

end GuardFinder

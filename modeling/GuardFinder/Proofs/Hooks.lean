import GuardFinder.Proofs.Sights

/-!
# Hooks find what they look for

Detectors look at fixed places of stacks: at the operands of an instruction before it, and at its
operands and its result after it. All these places are there.

* `Safe`: computations that never fail.
* `Detector.safe_execute`: **no detector fails on an event that it asked for**.
* `Detector.safe_inspect`: nor on a finished state space.
-/

namespace GuardFinder

/-! ### Computations that never fail -/

/-- A computation that never fails. -/
def Safe {ε σ α : Type} (m : EStateM ε σ α) : Prop := ∀ s, ∃ a s', m s = .ok a s'

section

variable {ε σ α β : Type}

theorem safe_pure (a : α) : Safe (pure a : EStateM ε σ α) := fun s => ⟨a, s, rfl⟩

theorem Safe.bind {m : EStateM ε σ α} {f : α → EStateM ε σ β} (hm : Safe m)
    (hf : ∀ a, Safe (f a)) : Safe (m >>= f) := by
  intro s
  obtain ⟨a, s', hs⟩ := hm s
  obtain ⟨b, s'', hs'⟩ := hf a s'
  refine ⟨b, s'', ?_⟩
  show EStateM.bind m f s = _
  rw [EStateM.bind, hs]
  exact hs'

theorem safe_get : Safe (get : EStateM ε σ σ) := fun s => ⟨s, s, rfl⟩

theorem safe_modify (f : σ → σ) : Safe (modify f : EStateM ε σ PUnit) := fun s => ⟨_, f s, rfl⟩

theorem Safe.besides {w : Watch α} (h : Safe w) :
    Safe (w.besides : EStateM Underflow (σ × Ledger) α) := by
  rintro ⟨state, ledger⟩
  obtain ⟨a, ledger', hw⟩ := h ledger
  refine ⟨a, (state, ledger'), ?_⟩
  rw [Watch.besides, hw]

theorem Safe.lift {w : Watch α} (h : Safe w) :
    Safe (liftM w : EStateM Underflow (σ × Ledger) α) := h.besides

end

namespace Watch

theorem safe_say (m : Message) : Safe (say m) := safe_modify _

theorem safe_nextQuery : Safe nextQuery := fun _ => ⟨_, _, rfl⟩

theorem safe_peekAt {stack : List Value} {ins : Instruction} {depth : Nat}
    (h : depth < stack.length) : Safe (ofExcept (peekAt stack ins depth)) := by
  unfold peekAt
  rw [List.getElem?_eq_getElem h]
  exact safe_pure _

theorem safe_itemOf {f : Frame} {depth : Nat} (h : depth < f.stack.length) :
    Safe (itemOf f depth) := safe_peekAt h

end Watch

/-! ### Events -/

open Watch

/-- **No detector fails on an event that it asked for**, and it goes on asking for the same. -/
theorem Detector.safe_execute {e : Event} {op : Opcode} {d : Detector} (h : e.About op)
    (hwish : (e.phase, op) ∈ d.wishes) (ledger : Ledger) :
    ∃ found d' ledger', execute e (d, ledger) = .ok found (d', ledger') ∧ d'.wishes = d.wishes := by
  obtain ⟨found, log, hrun⟩ := execute_eq h hwish ledger
  exact ⟨found, _, _, hrun, wishes_after ..⟩

/-! ### Finished state spaces -/

namespace SingleOwner

theorem safe_refutes (oracle : Oracle) (q : Query) : Safe (refutes oracle q) := by
  refine .bind safe_nextQuery fun n => ?_
  split
  · exact safe_pure _
  · exact .bind (safe_say _) fun _ => safe_pure _

theorem safe_provesPair (oracle : Oracle) (constraints : List Constraint)
    (a b caller stored : Term) :
    Safe (provesPair oracle constraints a b caller stored) := by
  refine .bind (safe_refutes _ _) fun refuted => ?_
  split
  · exact safe_pure _
  · exact safe_refutes _ _

/-- The walk through a block finds both sides of every comparison. -/
theorem safe_inspectFrames (oracle : Oracle) (node : Node) (frames : List Frame)
    (h : ∀ f ∈ frames, f.instruction.opcode.pops ≤ f.stack.length) :
    ∀ caller stored, Safe (inspectFrames oracle node caller stored frames) := by
  induction frames with
  | nil => exact fun _ _ => safe_pure _
  | cons frame rest ih =>
    have hrest := ih fun f hf => h f (List.mem_cons_of_mem _ hf)
    intro caller stored
    unfold inspectFrames
    split
    · exact .bind (safe_say _) fun _ => hrest _ _
    · exact .bind (safe_say _) fun _ => hrest _ _
    · next heq =>
      have htwo := h frame List.mem_cons_self
      rw [heq] at htwo
      split
      · refine .bind (safe_itemOf (Nat.lt_of_succ_lt htwo)) fun _ => .bind (safe_itemOf htwo)
          fun _ => .bind (safe_provesPair _ _ _ _ _ _) fun proved => ?_
        split
        · exact safe_pure _
        · exact hrest _ _
      · exact hrest _ _
    · exact hrest _ _

theorem safe_inspectNodes (oracle : Oracle) (nodes : List Node)
    (h : ∀ n ∈ nodes, ∀ f ∈ n.frames, f.instruction.opcode.pops ≤ f.stack.length) :
    ∀ found, Safe (inspectNodes oracle found nodes) := by
  induction nodes with
  | nil => exact fun _ => safe_pure _
  | cons node rest ih =>
    have hrest := ih fun n hn => h n (List.mem_cons_of_mem _ hn)
    intro found
    unfold inspectNodes
    split
    · exact hrest _
    · refine .bind (safe_inspectFrames oracle node _ (fun f hf => ?_) _ _) fun finding => ?_
      · exact h node List.mem_cons_self f (Array.mem_toList_iff.mp hf)
      · split <;> exact hrest _

theorem safe_inspect (oracle : Oracle) {space : StateSpace} (h : space.Supported) :
    Safe (inspect oracle space) :=
  .bind (safe_say _) fun _ =>
    .bind (safe_inspectNodes oracle _ (fun n hn => h n (Array.mem_toList_iff.mp hn)) _) fun _ =>
      .bind (safe_say _) fun _ => safe_pure _

end SingleOwner

theorem OffChainSecret.safe_inspect (space : StateSpace) : Safe (OffChainSecret.inspect space) := by
  have hnames : ∀ names : List String, Safe (names.forM fun name => say (.restricted name)) := by
    intro names
    induction names with
    | nil => exact safe_pure _
    | cons name rest ih => exact .bind (safe_say _) fun _ => ih
  exact .bind (hnames _) fun _ => safe_pure _

namespace Detector

theorem safe_recordNew (findings : List Finding) : Safe (recordNew findings) := by
  induction findings with
  | nil => exact safe_pure _
  | cons f rest ih =>
    refine .bind safe_get fun state => ?_
    dsimp only
    split
    · exact ih
    · exact .bind (safe_modify _) fun _ => ih

/-- No detector fails on a state space whose frames have the operands of their instructions. -/
theorem safe_inspect (oracle : Oracle) {space : StateSpace} (h : space.Supported) :
    Safe (inspect oracle space) := by
  refine .bind safe_get fun state => ?_
  dsimp only
  cases state.1.strategy with
  | singleOwner =>
    exact .bind (safe_say _).lift fun _ => .bind (SingleOwner.safe_inspect oracle h).lift fun _ =>
      safe_recordNew _
  | offChainSecret =>
    exact .bind (safe_say _).lift fun _ => .bind (OffChainSecret.safe_inspect space).lift fun _ =>
      safe_recordNew _
  | _ => exact safe_pure _

end Detector

end GuardFinder

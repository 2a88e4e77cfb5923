import GuardFinder.Proofs.Coverage
import GuardFinder.Proofs.Deduplication
import GuardFinder.Proofs.Refutation

/-!
# What single owners are reported for

The search for single owners walks through the frames of a block and keeps what the last `CALLER`
and the last `SLOAD` put on the stack. At a comparison it asks the oracle whether the two operands
can differ from the two words *together*. The oracle refutes this as soon as one operand is one of
the words, so a report does not tell that the other operand is the other word.

* `SingleOwner.LastRead`: what an instruction put on the stack when it was executed last.
* `SingleOwner.Comparison`: a comparison after the caller and a stored word were read.
* `SingleOwner.inspect_comparisons`: **comparisons of just the two words are reported, and whatever
  is reported compares one of them**.
-/

namespace GuardFinder

/-! ### What computations yield -/

/-- All results of a computation have a property. -/
def Yields {ε σ α : Type} (m : EStateM ε σ α) (P : α → Prop) : Prop :=
  ∀ s a s', m s = .ok a s' → P a

section

variable {ε σ α β : Type} {P : α → Prop} {Q : β → Prop}

theorem yields_pure {a : α} (h : P a) : Yields (pure a : EStateM ε σ α) P := by
  rintro s _ _ ⟨⟩
  exact h

theorem yields_any (m : EStateM ε σ α) : Yields m fun _ => True := fun _ _ _ _ => trivial

theorem Yields.mono {m : EStateM ε σ α} {P' : α → Prop} (hm : Yields m P) (h : ∀ a, P a → P' a) :
    Yields m P' := fun s a s' hs => h a (hm s a s' hs)

theorem Yields.bind {m : EStateM ε σ α} {f : α → EStateM ε σ β} (hm : Yields m P)
    (hf : ∀ a, P a → Yields (f a) Q) : Yields (m >>= f) Q := by
  intro s b s'' h
  rw [bind_run] at h
  split at h
  · next a s' hs => exact hf a (hm s a s' hs) s' b s'' h
  · cases h

end

theorem Watch.yields_itemOf (f : Frame) (depth : Nat) :
    Yields (itemOf f depth) fun v => f.stack[depth]? = some v := by
  unfold itemOf Frame.peek peekAt
  split
  · next v hv => exact yields_pure hv
  · rintro s _ _ ⟨⟩

namespace SingleOwner

open Watch

/-! ### Reads before a comparison -/

/-- Before place `n` of a block an instruction was executed last as a frame tells, and `result` was
then on top of the stack. -/
def LastRead (frames : List Frame) (op : Opcode) (n : Nat) (frame : Frame) (result : Value) : Prop :=
  ∃ i < n, frames[i]? = some frame ∧ frame.instruction.opcode = op ∧
    resultOf? (frames.drop (i + 1)) = some result ∧
    ∀ m f, i < m → m < n → frames[m]? = some f → f.instruction.opcode ≠ op

section

variable {frames : List Frame} {op : Opcode} {n : Nat} {frame here : Frame} {result : Value}

theorem not_lastRead_zero : ¬LastRead frames op 0 frame result := by
  rintro ⟨i, hi, -⟩
  omega

theorem lastRead_succ_of_eq (hhere : frames[n]? = some here) (hop : here.instruction.opcode = op) :
    LastRead frames op (n + 1) frame result ↔
      frame = here ∧ resultOf? (frames.drop (n + 1)) = some result := by
  constructor
  · rintro ⟨i, hi, hframe, -, hresult, hlast⟩
    rcases Nat.lt_succ_iff_lt_or_eq.mp hi with hlt | rfl
    · exact absurd hop (hlast n here hlt (Nat.lt_succ_self n) hhere)
    · exact ⟨Option.some.inj (hframe.symm.trans hhere), hresult⟩
  · rintro ⟨rfl, hresult⟩
    exact ⟨n, Nat.lt_succ_self n, hhere, hop, hresult, fun m f hm hm' => by omega⟩

theorem lastRead_succ_of_ne (hhere : frames[n]? = some here) (hop : here.instruction.opcode ≠ op) :
    LastRead frames op (n + 1) frame result ↔ LastRead frames op n frame result := by
  constructor
  · rintro ⟨i, hi, hframe, hopcode, hresult, hlast⟩
    have hne : i ≠ n := by
      rintro rfl
      rw [hframe] at hhere
      exact hop (Option.some.inj hhere ▸ hopcode)
    exact ⟨i, by omega, hframe, hopcode, hresult, fun m f hm hm' => hlast m f hm (by omega)⟩
  · rintro ⟨i, hi, hframe, hopcode, hresult, hlast⟩
    refine ⟨i, by omega, hframe, hopcode, hresult, fun m f hm hm' hf => ?_⟩
    rcases Nat.lt_succ_iff_lt_or_eq.mp hm' with hlt | rfl
    · exact hlast m f hm hlt hf
    · rw [hf] at hhere
      exact Option.some.inj hhere ▸ hop

end

/-- A comparison in a block, after the caller and a stored word were read there. -/
structure Comparison (frames : List Frame) where
  place : Nat
  frame : Frame
  left : Value
  right : Value
  callerFrame : Frame
  caller : Value
  loadFrame : Frame
  stored : Value
  at_place : frames[place]? = some frame
  compares : frame.instruction.opcode = .eq
  left_eq : frame.stack[0]? = some left
  right_eq : frame.stack[1]? = some right
  reads_caller : LastRead frames .caller place callerFrame caller
  reads_stored : LastRead frames .sload place loadFrame stored

namespace Comparison

variable {frames : List Frame} (c : Comparison frames)

/-- The slot that the stored word was read from, when it is known. -/
def slot? : Option Word := c.loadFrame.stack.head?.bind Value.const?

/-- The operands are the caller and the stored word, in one order or the other. -/
def IsExact : Prop :=
  c.left.word = c.caller.word ∧ c.right.word = c.stored.word ∨
    c.left.word = c.stored.word ∧ c.right.word = c.caller.word

/-- Wherever the constraints hold, one of the operands is one of the two words. -/
def IsHalf (constraints : List Constraint) : Prop :=
  ∃ operand ∈ [c.left, c.right], ∃ known ∈ [c.caller, c.stored],
    ∀ r : Reading, (∀ k ∈ constraints, r.Agrees k) → r.value operand.word = r.value known.word

end Comparison

/-! ### What the oracle proves -/

variable {seconds : Nat} {clock : Nat → Nat → Nat} {constraints : List Constraint}

/-- A pair of inequalities is refuted when one of them is. -/
theorem value_eq_of_isRefuted {a b caller stored : Term}
    (h : Query.isRefuted ⟨constraints, [(a, caller), (b, stored)]⟩ = true) :
    (∀ r : Reading, (∀ k ∈ constraints, r.Agrees k) → r.value a = r.value caller) ∨
      ∀ r : Reading, (∀ k ∈ constraints, r.Agrees k) → r.value b = r.value stored := by
  simp only [Query.isRefuted, Bool.or_eq_true, List.any_cons, List.any_nil, Bool.or_false] at h
  rcases h with hconstraints | hleft | hright
  · exact .inl fun r hr => absurd hr (Reading.not_agrees_of_refutesConstraints hconstraints)
  · exact .inl fun r hr => Reading.value_eq_of_refutesDistinct hleft hr
  · exact .inr fun r hr => Reading.value_eq_of_refutesDistinct hright hr

theorem yields_refutes (q : Query) :
    Yields (refutes (.structural seconds clock) q) fun refuted =>
      (refuted = true → q.isRefuted = true) ∧
        ((∀ n i, clock n i < seconds) → q.isRefuted = true → refuted = true) := by
  intro ledger refuted ledger' h
  constructor
  · rintro rfl
    exact Oracle.isRefuted_of_check_unsat (check_unsat_of_refutes h)
  · intro htime hq
    rw [refutes_run, Oracle.check_structural (htime _), if_pos hq] at h
    injection h with hrefuted
    exact hrefuted.symm

theorem isRefuted_of_eq {a b caller stored : Term} (h : a = caller) :
    Query.isRefuted ⟨constraints, [(a, caller), (b, stored)]⟩ = true := by
  simp [Query.isRefuted, Query.refutesDistinct, h]

/-- The oracle takes the two operands for the two words if they are, and only if one of them is one
of the words. -/
theorem yields_provesPair {a b caller stored : Value} :
    Yields (provesPair (.structural seconds clock) constraints a.word b.word caller.word stored.word)
      fun proved =>
        (proved = true → ∃ operand ∈ [a, b], ∃ known ∈ [caller, stored], ∀ r : Reading,
          (∀ k ∈ constraints, r.Agrees k) → r.value operand.word = r.value known.word) ∧
        ((∀ n i, clock n i < seconds) → a.word = caller.word ∧ b.word = stored.word ∨
          a.word = stored.word ∧ b.word = caller.word → proved = true) := by
  refine .bind (yields_refutes _) fun inOrder hinOrder => ?_
  split
  · next htrue =>
    refine yields_pure ⟨fun _ => ?_, fun _ _ => rfl⟩
    rcases value_eq_of_isRefuted (hinOrder.1 htrue) with hleft | hright
    · exact ⟨a, by simp, caller, by simp, hleft⟩
    · exact ⟨b, by simp, stored, by simp, hright⟩
  · next hfalse =>
    refine (yields_refutes _).mono fun swapped hswapped => ⟨fun htrue => ?_, fun htime hexact => ?_⟩
    · rcases value_eq_of_isRefuted (hswapped.1 htrue) with hleft | hright
      · exact ⟨a, by simp, stored, by simp, hleft⟩
      · exact ⟨b, by simp, caller, by simp, hright⟩
    · rcases hexact with hexact | hexact
      · exact absurd (hinOrder.2 htime (isRefuted_of_eq hexact.1)) hfalse
      · exact hswapped.2 htime (isRefuted_of_eq hexact.1)

/-! ### The walk through a block -/

/-- What the walk through a block keeps when it has come to place `n`. -/
structure Remembers (frames : List Frame) (n : Nat) (caller : Option Value)
    (stored : Option (Value × Option Value)) : Prop where
  caller_iff : ∀ who, caller = some who ↔ ∃ frame, LastRead frames .caller n frame who
  stored_iff : ∀ v slot, stored = some (v, slot) ↔
    ∃ frame, LastRead frames .sload n frame v ∧ frame.stack.head? = slot

namespace Remembers

variable {frames : List Frame} {n : Nat} {caller : Option Value}
  {stored : Option (Value × Option Value)} {here : Frame}

theorem start : Remembers frames 0 none none where
  caller_iff who := by simp [not_lastRead_zero]
  stored_iff v slot := by simp [not_lastRead_zero]

theorem reads_caller (h : Remembers frames n caller stored) (hhere : frames[n]? = some here)
    (hop : here.instruction.opcode = .caller) :
    Remembers frames (n + 1) (resultOf? (frames.drop (n + 1))) stored where
  caller_iff who := by simp [lastRead_succ_of_eq hhere hop]
  stored_iff v slot := by
    have hne : here.instruction.opcode ≠ .sload := by rw [hop]; decide
    simp only [h.stored_iff, lastRead_succ_of_ne hhere hne]

theorem reads_stored (h : Remembers frames n caller stored) (hhere : frames[n]? = some here)
    (hop : here.instruction.opcode = .sload) :
    Remembers frames (n + 1) caller
      ((resultOf? (frames.drop (n + 1))).map fun v => (v, here.stack.head?)) where
  caller_iff who := by
    have hne : here.instruction.opcode ≠ .caller := by rw [hop]; decide
    simp only [h.caller_iff, lastRead_succ_of_ne hhere hne]
  stored_iff v slot := by
    simp only [Option.map_eq_some_iff, Prod.mk.injEq, lastRead_succ_of_eq hhere hop]
    constructor
    · rintro ⟨_, hresult, rfl, hslot⟩
      exact ⟨here, ⟨rfl, hresult⟩, hslot⟩
    · rintro ⟨_, ⟨rfl, hresult⟩, hslot⟩
      exact ⟨v, hresult, rfl, hslot⟩

theorem passes (h : Remembers frames n caller stored) (hhere : frames[n]? = some here)
    (hcaller : here.instruction.opcode ≠ .caller) (hload : here.instruction.opcode ≠ .sload) :
    Remembers frames (n + 1) caller stored where
  caller_iff who := by simp only [h.caller_iff, lastRead_succ_of_ne hhere hcaller]
  stored_iff v slot := by simp only [h.stored_iff, lastRead_succ_of_ne hhere hload]

end Remembers

/-- A finding tells the function of a block and the slot of a comparison of one of the words. -/
def Explains (node : Node) (f : Finding) : Prop :=
  ∃ c : Comparison node.frames.toList, f = ⟨node.functionName, c.slot?, none⟩ ∧
    c.IsHalf node.constraints

/-- What comes of a walk through a block from place `n` on. -/
structure Walked (seconds : Nat) (clock : Nat → Nat → Nat) (node : Node) (n : Nat)
    (found : Option Finding) : Prop where
  sound : ∀ f, found = some f → Explains node f
  complete : (∀ n i, clock n i < seconds) → ∀ c : Comparison node.frames.toList, n ≤ c.place →
    c.IsExact → found.isSome = true

/-- A walk that goes on from a place other than a comparison of the two words. -/
theorem Walked.of_succ {node : Node} {n : Nat} {found : Option Finding}
    (h : Walked seconds clock node (n + 1) found)
    (hn : (∀ n i, clock n i < seconds) → ∀ c : Comparison node.frames.toList, c.place = n →
      ¬c.IsExact) :
    Walked seconds clock node n found where
  sound := h.sound
  complete htime c hc hexact := by
    rcases Nat.eq_or_lt_of_le hc with heq | hlt
    · exact absurd hexact (hn htime c heq.symm)
    · exact h.complete htime c hlt hexact

theorem yields_inspectFrames (node : Node) (rest : List Frame) {n : Nat} {caller : Option Value}
    {stored : Option (Value × Option Value)} (hrest : node.frames.toList.drop n = rest)
    (h : Remembers node.frames.toList n caller stored) :
    Yields (inspectFrames (.structural seconds clock) node caller stored rest)
      (Walked seconds clock node n) := by
  induction rest generalizing n caller stored with
  | nil =>
    refine yields_pure ⟨nofun, fun _ c hc _ => ?_⟩
    have hlength : node.frames.toList.length ≤ n := List.drop_eq_nil_iff.mp hrest
    obtain ⟨hlt, -⟩ := List.getElem?_eq_some_iff.mp c.at_place
    omega
  | cons frame rest ih =>
    have hhere : node.frames.toList[n]? = some frame := by
      rw [← List.head?_drop, hrest, List.head?_cons]
    have hdrop : node.frames.toList.drop (n + 1) = rest := by
      rw [← List.tail_drop, hrest, List.tail_cons]
    -- a walk that has passed the frame at `n`, where no comparison of the two words stands
    have hpass (hne : frame.instruction.opcode ≠ .eq) {found : Option Finding}
        (hfound : Walked seconds clock node (n + 1) found) : Walked seconds clock node n found := by
      refine hfound.of_succ fun _ c hc _ => hne ?_
      rw [← hc, c.at_place] at hhere
      exact Option.some.inj hhere ▸ c.compares
    unfold inspectFrames
    split
    · next hop =>
      have hnext := h.reads_caller hhere hop
      rw [hdrop] at hnext
      exact .bind (yields_any _) fun _ _ =>
        (ih hdrop hnext).mono fun _ => hpass (by rw [hop]; decide)
    · next hop =>
      have hnext := h.reads_stored hhere hop
      rw [hdrop] at hnext
      exact .bind (yields_any _) fun _ _ =>
        (ih hdrop hnext).mono fun _ => hpass (by rw [hop]; decide)
    · next hop =>
      have hnext := ih hdrop (h.passes hhere (by rw [hop]; decide) (by rw [hop]; decide))
      split
      · next who v slot =>
        obtain ⟨callerFrame, hcaller⟩ := (h.caller_iff who).mp rfl
        obtain ⟨loadFrame, hload, rfl⟩ := (h.stored_iff v slot).mp rfl
        refine .bind (yields_itemOf frame 0) fun a ha => .bind (yields_itemOf frame 1) fun b hb =>
          .bind yields_provesPair fun proved hproved => ?_
        split
        · next htrue =>
          refine yields_pure ⟨?_, fun _ _ _ _ => rfl⟩
          rintro _ ⟨⟩
          exact ⟨⟨n, frame, a, b, callerFrame, who, loadFrame, v, hhere, hop, ha, hb, hcaller,
            hload⟩, rfl, hproved.1 htrue⟩
        · next hfalse =>
          refine hnext.mono fun found hfound => hfound.of_succ ?_
          rintro htime c rfl hexact
          have hframe : c.frame = frame := Option.some.inj (c.at_place.symm.trans hhere)
          obtain rfl : c.left = a := Option.some.inj (c.left_eq.symm.trans (hframe ▸ ha))
          obtain rfl : c.right = b := Option.some.inj (c.right_eq.symm.trans (hframe ▸ hb))
          obtain rfl : who = c.caller :=
            Option.some.inj ((h.caller_iff _).mpr ⟨_, c.reads_caller⟩)
          have hstored := (h.stored_iff _ _).mpr ⟨_, c.reads_stored, rfl⟩
          obtain ⟨rfl, -⟩ := Prod.mk.inj (Option.some.inj hstored)
          exact hfalse (hproved.2 htime hexact)
      · next hnone =>
        refine hnext.mono fun found hfound => hfound.of_succ ?_
        rintro - c rfl -
        exact hnone _ _ _ ((h.caller_iff _).mpr ⟨_, c.reads_caller⟩)
          ((h.stored_iff _ _).mpr ⟨_, c.reads_stored, rfl⟩)
    · next hcaller hload hne =>
      exact (ih hdrop (h.passes hhere hcaller hload)).mono fun _ => hpass hne

/-! ### All blocks -/

theorem yields_inspectNodes (nodes : List Node) (found : List Finding) :
    Yields (inspectNodes (.structural seconds clock) found nodes) fun found' => found ⊆ found' ∧
      (∀ f ∈ found', f ∈ found ∨ ∃ node ∈ nodes, Explains node f) ∧
      ((∀ n i, clock n i < seconds) → ∀ node ∈ nodes, ∀ c : Comparison node.frames.toList,
        c.IsExact → ∃ f ∈ found', f.functionName = node.functionName) := by
  induction nodes generalizing found with
  | nil =>
    refine yields_pure ⟨List.Subset.refl _, fun f hf => .inl hf, fun _ node hnode => ?_⟩
    exact absurd hnode List.not_mem_nil
  | cons node rest ih =>
    have hlater {f : Finding} (h : ∃ n ∈ rest, Explains n f) :
        ∃ n ∈ node :: rest, Explains n f := by
      obtain ⟨n, hn, hf⟩ := h
      exact ⟨n, List.mem_cons_of_mem _ hn, hf⟩
    unfold inspectNodes
    split
    · next hknown =>
      refine (ih found).mono ?_
      rintro found' ⟨hsub, hsound, hcomplete⟩
      refine ⟨hsub, fun f hf => (hsound f hf).imp_right hlater, ?_⟩
      · intro htime n hn c hc
        rcases List.mem_cons.mp hn with rfl | hn
        · obtain ⟨f, hf, hname⟩ := List.any_eq_true.mp hknown
          exact ⟨f, hsub hf, of_decide_eq_true hname⟩
        · exact hcomplete htime n hn c hc
    · refine .bind (yields_inspectFrames node _ rfl .start) fun walked hwalked => ?_
      split
      · next finding =>
        have hexplains := hwalked.sound finding rfl
        refine (ih _).mono ?_
        rintro found' ⟨hsub, hsound, hcomplete⟩
        refine ⟨fun f hf => hsub (List.mem_append_left _ hf), fun f hf => ?_, ?_⟩
        · rcases hsound f hf with hf | hexplained
          · rcases List.mem_append.mp hf with hf | hf
            · exact .inl hf
            · obtain rfl := List.mem_singleton.mp hf
              exact .inr ⟨node, List.mem_cons_self, hexplains⟩
          · exact .inr (hlater hexplained)
        · intro htime n hn c hc
          rcases List.mem_cons.mp hn with rfl | hn
          · obtain ⟨_, rfl, -⟩ := hexplains
            exact ⟨_, hsub (List.mem_append_right _ List.mem_cons_self), rfl⟩
          · exact hcomplete htime n hn c hc
      · refine (ih found).mono ?_
        rintro found' ⟨hsub, hsound, hcomplete⟩
        refine ⟨hsub, fun f hf => (hsound f hf).imp_right hlater, ?_⟩
        · intro htime n hn c hc
          rcases List.mem_cons.mp hn with rfl | hn
          · exact absurd (hwalked.complete htime c (Nat.zero_le _) hc) (by decide)
          · exact hcomplete htime n hn c hc

/-- **Comparisons of just the two words are reported, and whatever is reported compares one of
them**: a report names the function of a block and the slot of a word that was read there before a
comparison, and wherever the constraints of the block hold, an operand of the comparison is that
word or the caller. -/
theorem inspect_comparisons (seconds : Nat) (clock : Nat → Nat → Nat) (space : StateSpace)
    {ledger ledger' : Ledger} {found : List Finding}
    (h : inspect (.structural seconds clock) space ledger = .ok found ledger') :
    (∀ f ∈ found, ∃ node ∈ space.nodes, ∃ c : Comparison node.frames.toList,
      f = ⟨node.functionName, c.slot?, none⟩ ∧ c.IsHalf node.constraints) ∧
    ((∀ n i, clock n i < seconds) → ∀ node ∈ space.nodes, ∀ c : Comparison node.frames.toList,
      c.IsExact → ∃ f ∈ found, f.functionName = node.functionName) := by
  have hyields : Yields (inspect (.structural seconds clock) space) fun found =>
      (∀ f ∈ found, ∃ node ∈ space.nodes.toList, Explains node f) ∧
      ((∀ n i, clock n i < seconds) → ∀ node ∈ space.nodes.toList,
        ∀ c : Comparison node.frames.toList, c.IsExact → ∃ f ∈ found, f.functionName = node.functionName) := by
    refine .bind (yields_any _) fun _ _ => .bind (yields_inspectNodes _ _)
      fun found ⟨_, hsound, hcomplete⟩ => .bind (yields_any _) fun _ _ => yields_pure ?_
    simp only [List.mem_mergeSort]
    exact ⟨fun f hf => (hsound f hf).resolve_left nofun, hcomplete⟩
  simpa only [Array.mem_toList_iff, Explains] using hyields ledger found ledger' h

/-- A state space with one block, in which the caller is compared with slot zero. -/
def ownerChecked : StateSpace where
  nodes := #[⟨0, "fallback", 0,
    #[⟨⟨0, .caller, none⟩, []⟩, ⟨⟨1, .push0, none⟩, [⟨.env .caller, 0⟩]⟩,
      ⟨⟨2, .sload, none⟩, [⟨.const 0, 1⟩, ⟨.env .caller, 0⟩]⟩,
      ⟨⟨3, .eq, none⟩, [⟨.storage (.const 0), 2⟩, ⟨.env .caller, 0⟩]⟩], []⟩]

theorem inspect_comparisons_ownerChecked :
    ∃ ledger, inspect (.structural 10) ownerChecked {} = .ok [⟨"fallback", some 0, none⟩] ledger ∧
      ∃ node ∈ ownerChecked.nodes, ∃ c : Comparison node.frames.toList, c.slot? = some 0 ∧
        c.IsHalf node.constraints := by
  have hcheck : (match inspect (.structural 10) ownerChecked {} with
    | .ok found _ => decide (found = [⟨"fallback", some 0, none⟩])
    | .error _ _ => false) = true := by decide +kernel
  split at hcheck
  · next found ledger hrun =>
    obtain rfl := of_decide_eq_true hcheck
    obtain ⟨node, hnode, c, hf, hhalf⟩ :=
      (inspect_comparisons 10 _ ownerChecked hrun).1 _ List.mem_cons_self
    exact ⟨ledger, hrun, node, hnode, c, (congrArg Finding.slot hf).symm, hhalf⟩
  · cases hcheck

/-- Code that reads slot zero and drops it, and compares the caller with five. -/
def halfCheckCode : Bytes := [0x5f, 0x54, 0x50, 0x33, 0x60, 0x05, 0x14, 0x00]

/-- A report does not tell that both operands are what was read. -/
theorem inspect_comparisons_half :
    (Analysis.ofPatterns {} [.singleOwner]).listed (.deployed ⟨0⟩ halfCheckCode) none =
        .ok [[⟨"fallback", some 0, none⟩]] ∧
      ∃ space, ((Analysis.ofPatterns {} [.singleOwner]).explored
          (.deployed ⟨0⟩ halfCheckCode)).result = .ok space ∧
        ∀ node ∈ space.nodes, ∀ c : Comparison node.frames.toList,
          ∃ ρ : Valuation, ρ.Satisfies node.constraints ∧
            c.left.word.eval ρ ≠ c.caller.word.eval ρ ∧
            c.left.word.eval ρ ≠ c.stored.word.eval ρ := by
  refine ⟨by decide +kernel, ?_⟩
  have hcheck : (match ((Analysis.ofPatterns {} [.singleOwner]).explored
      (.deployed ⟨0⟩ halfCheckCode)).result with
    | .ok space => decide (∀ node ∈ space.nodes, node.constraints = [] ∧
      ∀ i < node.frames.toList.length, ∀ f ∈ node.frames.toList[i]?,
        (f.instruction.opcode = .eq → (f.stack[0]?).map Value.word = some (.const 5)) ∧
        (f.instruction.opcode = .caller →
          (resultOf? (node.frames.toList.drop (i + 1))).map Value.word = some (.env .caller)) ∧
        (f.instruction.opcode = .sload →
          (resultOf? (node.frames.toList.drop (i + 1))).map Value.word =
            some (.storage (.const 0))))
    | .error _ => false) = true := by decide +kernel
  split at hcheck
  · next space hspace =>
    refine ⟨space, hspace, fun node hnode c => ⟨.constant 0, ?_⟩⟩
    obtain ⟨hconstraints, hframes⟩ := of_decide_eq_true hcheck node hnode
    have hat {i : Nat} {f : Frame} (hf : node.frames.toList[i]? = some f) :=
      hframes i (List.getElem?_eq_some_iff.mp hf).1 f hf
    have hleft := (hat c.at_place).1 c.compares
    obtain ⟨i, -, hcaller, hop, hresult, -⟩ := c.reads_caller
    have hcaller := (hat hcaller).2.1 hop
    obtain ⟨j, -, hload, hop', hresult', -⟩ := c.reads_stored
    have hstored := (hat hload).2.2 hop'
    rw [c.left_eq, Option.map_some] at hleft
    rw [hresult, Option.map_some] at hcaller
    rw [hresult', Option.map_some] at hstored
    rw [Option.some.inj hleft, Option.some.inj hcaller, Option.some.inj hstored, hconstraints]
    exact ⟨nofun, by decide, by decide⟩
  · cases hcheck

end SingleOwner

end GuardFinder

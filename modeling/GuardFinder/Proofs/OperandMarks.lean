import GuardFinder.Proofs.Emissions
import GuardFinder.Proofs.Order
import GuardFinder.Proofs.Propagation

/-!
# Marks on operands

Two detectors look at the operands of a comparison before it is executed: one of them must be what
the detector looks for on one side, and the other one what it looks for on the other side. Both get
a mark, and which of them gets which depends on their order if each could stand on either side. The
result of the comparison inherits from both, though, so it has both marks or none.

* `Pairing`, `Strategy.pairing?`: what is looked for on the two sides, and the marks.
* `Pairing.mem_union_marked`: **the taints of the result**, in which nothing is left of the order.
* `Sight.bare`: what matters of a sight.
* `Descent`: what the taints of a value have to do with a comparison.
* `Pairing.Related`: taints after a comparison in one order of its operands and in the other.
  `Pairing.related_marked`: these are related right after it. `Pairing.Related.inherit`,
  `Pairing.Related.editAll`: **and they stay so**.
-/

namespace GuardFinder

variable {τ τ' : Taints} {s : Sight} {st : Strategy}

theorem Taints.same_inherit_swap (τ : Taints) (heir a b : Nat) :
    (τ.inherit ⟨heir, [a, b]⟩).Same (τ.inherit ⟨heir, [b, a]⟩) := by
  intro tag t
  rw [get_inherit, get_inherit]
  split
  · rw [mem_union, mem_union]
    simp [or_comm]
  · exact .rfl

/-! ### Marks on the two sides of a comparison -/

/-- What a detector looks for on the two sides of a comparison. -/
structure Pairing where
  /-- The comparisons. -/
  opcodes : List Opcode
  /-- Whether two sets of taints are those of the one side and of the other. -/
  sides : TaintSet → TaintSet → Bool
  /-- The mark of the one side. -/
  first : Taint
  /-- The mark of the other side. -/
  second : Taint

/-- The strategies that mark the two sides of a comparison. -/
def Strategy.pairing? : Strategy → Option Pairing
  | ownership ceiling => some
    { opcodes := [.eq]
      sides := fun one other => .caller ∈ one ∧ (other.slotBelow? ceiling).isSome
      first := .equality .sender
      second := .equality .owner }
  | xConfirmation => some
    { opcodes := [.eq, .lt, .gt]
      sides := fun one other => .blockNumber ∈ one ∧ other.toList.any Taint.isStorage
      first := .comparison .blockNumber
      second := .comparison .storage }
  | _ => none

namespace Pairing

variable {k : Pairing} {a b tag : Nat} {t : Taint}

/-- Two sets of taints are those of the two sides, in either order. -/
def Matches (k : Pairing) (one other : TaintSet) : Prop := k.sides one other ∨ k.sides other one

/-- The marks on the operands of a comparison. Where either order would do, the upper operand gets
the first mark. -/
def marks (k : Pairing) (τ : Taints) (a b : Nat) : List Edit :=
  if k.sides (τ.get a) (τ.get b) then [.put a k.first, .put b k.second]
  else if k.sides (τ.get b) (τ.get a) then [.put b k.first, .put a k.second]
  else []

theorem mem_marks {edit : Edit} (h : edit ∈ k.marks τ a b) :
    (edit.tag = a ∨ edit.tag = b) ∧ (edit.taint = k.first ∨ edit.taint = k.second) := by
  unfold marks at h
  split at h
  · simp only [List.mem_cons, List.not_mem_nil, or_false] at h
    rcases h with rfl | rfl
    · exact ⟨.inl rfl, .inl rfl⟩
    · exact ⟨.inr rfl, .inr rfl⟩
  · split at h
    · simp only [List.mem_cons, List.not_mem_nil, or_false] at h
      rcases h with rfl | rfl
      · exact ⟨.inr rfl, .inl rfl⟩
      · exact ⟨.inl rfl, .inr rfl⟩
    · exact absurd h List.not_mem_nil

/-- Marks change two taints of two tags. -/
theorem mem_get_marked (h : (t ≠ k.first ∧ t ≠ k.second) ∨ tag ∉ [a, b]) :
    t ∈ (τ.editAll (k.marks τ a b)).get tag ↔ t ∈ τ.get tag := by
  refine Taints.mem_get_editAll_of_not fun edit hedit => ?_
  rintro ⟨rfl, rfl⟩
  obtain ⟨htag, htaint⟩ := mem_marks hedit
  rcases h with ⟨hfirst, hsecond⟩ | hnot
  · exact htaint.elim hfirst hsecond
  · exact hnot (by simpa using htag)

theorem marks_of_not_matches (h : ¬k.Matches (τ.get a) (τ.get b)) : k.marks τ a b = [] := by
  rw [marks, if_neg fun hsides => h (.inl hsides), if_neg fun hsides => h (.inr hsides)]

/-- **The taints of the operands together, after they were marked.** -/
theorem mem_union_marked :
    t ∈ (τ.editAll (k.marks τ a b)).union [a, b] ↔
      t ∈ τ.get a ∨ t ∈ τ.get b ∨
        k.Matches (τ.get a) (τ.get b) ∧ (t = k.first ∨ t = k.second) := by
  simp only [Taints.mem_union, List.mem_cons, List.not_mem_nil, or_false, exists_eq_or_imp,
    exists_eq_left, Matches]
  unfold marks
  split
  · next h =>
    simp only [Taints.editAll, List.foldl_cons, List.foldl_nil, Taints.mem_get_put, h, true_or,
      true_and]
    grind
  · next h =>
    split
    · next h' =>
      simp only [Taints.editAll, List.foldl_cons, List.foldl_nil, Taints.mem_get_put, h', or_true,
        true_and]
      grind
    · next h' =>
      simp only [Taints.editAll, List.foldl_nil, h, h', Bool.false_eq_true, or_self, false_and,
        or_false]

end Pairing

namespace Strategy

variable {k : Pairing} {op : Opcode}

theorem kind_of_pairing (hk : st.pairing? = some k) (hop : op ∈ k.opcodes) : op.kind = .binary := by
  cases st with
  | ownership ceiling =>
    cases hk
    obtain rfl := List.mem_singleton.mp hop
    rfl
  | xConfirmation =>
    cases hk
    simp only [List.mem_cons, List.not_mem_nil, or_false] at hop
    rcases hop with rfl | rfl | rfl <;> rfl
  | _ => cases hk

/-- Comparisons are looked at before they are executed, and not after that. -/
theorem asks_of_pairing (hk : st.pairing? = some k) (hop : op ∈ k.opcodes) :
    st.Asks .pre op ∧ ¬st.Asks .post op := by
  cases st with
  | ownership ceiling =>
    cases hk
    obtain rfl := List.mem_singleton.mp hop
    exact (by decide : .eq ∈ Ownership.preOpcodes ∧ .eq ∉ Ownership.postOpcodes)
  | xConfirmation =>
    cases hk
    simp only [List.mem_cons, List.not_mem_nil, or_false] at hop
    rcases hop with rfl | rfl | rfl <;> decide
  | _ => cases hk

theorem asks_branch (hk : st.pairing? = some k) : st.Asks .pre .jumpi := by
  cases st with
  | ownership ceiling => exact (by decide : .jumpi ∈ Ownership.preOpcodes)
  | xConfirmation => exact (by decide : .jumpi ∈ XConfirmation.preOpcodes)
  | _ => cases hk

theorem edits_comparison (hk : st.pairing? = some k) (hphase : s.phase = .pre)
    (hop : s.opcode ∈ k.opcodes) {a b : Item} {rest : List Item} (hargs : s.args = a :: b :: rest) :
    st.edits τ s = k.marks τ a.tag b.tag := by
  obtain ⟨phase, op, name, args, stack, word?⟩ := s
  obtain rfl : phase = .pre := hphase
  obtain rfl : args = a :: b :: rest := hargs
  cases st with
  | ownership ceiling =>
    cases hk
    obtain rfl : op = .eq := List.mem_singleton.mp hop
    show Ownership.comparisonMarks ceiling τ a.tag b.tag = _
    simp only [Ownership.comparisonMarks, Pairing.marks, decide_eq_true_eq]
  | xConfirmation =>
    cases hk
    have hedits : XConfirmation.edits τ ⟨.pre, op, name, a :: b :: rest, stack, word?⟩ =
        XConfirmation.comparisonMarks τ a.tag b.tag := by
      simp only [List.mem_cons, List.not_mem_nil, or_false] at hop
      rcases hop with rfl | rfl | rfl <;> rfl
    refine hedits.trans ?_
    simp only [XConfirmation.comparisonMarks, Pairing.marks, decide_eq_true_eq]
    exact if_congr .rfl rfl (if_congr and_comm rfl rfl)
  | _ => cases hk

theorem next_of_pairing (hk : st.pairing? = some k) : st.next τ s = st := by
  cases st with
  | roles memo => cases hk
  | _ => rfl

/-- The marks of a comparison decide nothing. -/
theorem not_decides_of_pairing (hk : st.pairing? = some k) :
    ¬st.Decides k.first ∧ ¬st.Decides k.second := by
  cases st with
  | ownership ceiling =>
    cases hk
    exact ⟨id, id⟩
  | xConfirmation =>
    cases hk
    exact ⟨id, id⟩
  | _ => cases hk

/-- Strategies that mark the two sides of a comparison take no taint away. -/
theorem drop_not_mem_of_pairing (hk : st.pairing? = some k) (tag : Nat) (t : Taint) :
    .drop tag t ∉ st.edits τ s := by
  intro h
  cases st with
  | ownership ceiling =>
    simp only [edits, Ownership.edits] at h
    split at h
    · cases List.mem_singleton.mp h
    · obtain ⟨slot, -, heq⟩ := Item.mem_slotMarks.mp h
      cases heq
    · obtain ⟨actor, heq | heq⟩ := Ownership.mem_comparisonMarks h <;> cases heq
    · exact absurd h List.not_mem_nil
  | xConfirmation =>
    simp only [edits, XConfirmation.edits] at h
    split at h
    · cases List.mem_singleton.mp h
    · cases List.mem_singleton.mp h
    iterate 3
      · obtain ⟨item, heq | heq⟩ := XConfirmation.mem_comparisonMarks h <;> cases heq
    · exact absurd h List.not_mem_nil
  | _ => cases hk

end Strategy

/-! ### Sights without words -/

/-- The item without its word. -/
def Item.bare (i : Item) : Item := ⟨i.tag, none⟩

/-- What is left of a sight without all words but the slot that is read from storage. -/
def Sight.bare (s : Sight) : Sight :=
  { s with
    args := match s.args with
      | [] => []
      | key :: rest => (if s.opcode = .sload then key else key.bare) :: rest.map Item.bare
    stack := s.stack.map Item.bare
    word? := fun _ => none }

theorem Ownership.edits_bare {ceiling : Word}
    (h : (Strategy.ownership ceiling).Asks s.phase s.opcode) :
    edits ceiling τ s.bare = edits ceiling τ s := by
  obtain ⟨phase, op, name, args, stack, word?⟩ := s
  cases phase with
  | pre =>
    simp only [Strategy.Asks, Strategy.opcodes, preOpcodes, List.mem_cons, List.not_mem_nil,
      or_false] at h
    rcases h with rfl | rfl
    · rcases args with _ | ⟨a, _ | ⟨b, rest⟩⟩ <;> rfl
    · rfl
  | post =>
    simp only [Strategy.Asks, Strategy.opcodes, postOpcodes, List.mem_cons, List.not_mem_nil,
      or_false] at h
    rcases h with rfl | rfl
    · cases stack <;> rfl
    · cases args <;> cases stack <;> rfl

theorem XConfirmation.edits_bare (h : Strategy.xConfirmation.Asks s.phase s.opcode) :
    edits τ s.bare = edits τ s := by
  obtain ⟨phase, op, name, args, stack, word?⟩ := s
  cases phase with
  | pre =>
    simp only [Strategy.Asks, Strategy.opcodes, preOpcodes, List.mem_cons, List.not_mem_nil,
      or_false] at h
    rcases h with rfl | rfl | rfl | rfl
    · rfl
    all_goals rcases args with _ | ⟨a, _ | ⟨b, rest⟩⟩ <;> rfl
  | post =>
    simp only [Strategy.Asks, Strategy.opcodes, postOpcodes, List.mem_cons, List.not_mem_nil,
      or_false] at h
    rcases h with rfl | rfl
    · cases stack <;> rfl
    · cases args <;> cases stack <;> rfl

namespace Strategy

variable {k : Pairing}

/-- Of the words in a sight, no other ones matter. -/
theorem edits_bare (hk : st.pairing? = some k) (hasks : st.Asks s.phase s.opcode) :
    st.edits τ s.bare = st.edits τ s := by
  cases st with
  | ownership ceiling => exact Ownership.edits_bare hasks
  | xConfirmation => exact XConfirmation.edits_bare hasks
  | _ => cases hk

theorem finding?_of_not_branch (h : ¬(s.phase = .pre ∧ s.opcode = .jumpi)) :
    st.finding? τ s = none := by
  refine Option.eq_none_iff_forall_ne_some.mpr fun f hf => h ?_
  obtain ⟨hphase, hop, -⟩ := branch_of_finding? hf
  exact ⟨hphase, hop⟩

theorem finding?_bare : st.finding? τ s.bare = st.finding? τ s := by
  by_cases h : s.phase = .pre ∧ s.opcode = .jumpi
  · obtain ⟨phase, op, name, args, stack, word?⟩ := s
    obtain ⟨rfl, rfl⟩ : phase = .pre ∧ op = .jumpi := h
    rcases args with _ | ⟨destination, _ | ⟨condition, rest⟩⟩ <;> rfl
  · have h' : ¬(s.bare.phase = .pre ∧ s.bare.opcode = .jumpi) := h
    rw [finding?_of_not_branch h, finding?_of_not_branch h']

end Strategy

/-- An event before a branch on a value. -/
def Event.BranchesOn (e : Event) (v : Value) : Prop :=
  e.phase = .pre ∧ e.state.opcode = .jumpi ∧ e.state.stack[1]? = some v

namespace Event

variable {e : Event} {v : Value}

theorem BranchesOn.about (h : e.BranchesOn v) : e.About .jumpi := by
  obtain ⟨phase, state, previous⟩ := e
  obtain ⟨hphase, hop, hv⟩ := h
  obtain rfl : phase = .pre := hphase
  exact .pre hop (List.getElem?_eq_some_iff.mp hv).1

theorem BranchesOn.finding? (h : e.BranchesOn v) :
    st.finding? τ e.sight =
      if st.isGuard (τ.get v.tag) then
        some ⟨e.state.functionName, st.guardSlot? (τ.get v.tag), none⟩
      else none := by
  obtain ⟨phase, ⟨⟨address, op, argument⟩, stack, memory, name, constraints⟩, previous⟩ := e
  obtain ⟨hphase, hop, hv⟩ := h
  obtain rfl : phase = .pre := hphase
  obtain rfl : op = .jumpi := hop
  rcases stack with _ | ⟨destination, _ | ⟨condition, rest⟩⟩
  · cases hv
  · cases hv
  · cases hv
    rfl

/-- Where nothing branches, nothing is found. -/
theorem finding?_of_not_branchesOn (h : ∀ v, ¬e.BranchesOn v) : st.finding? τ e.sight = none := by
  refine Option.eq_none_iff_forall_ne_some.mpr fun f hf => ?_
  obtain ⟨hphase, hop, destination, condition, rest, hargs, -⟩ := Strategy.branch_of_finding? hf
  obtain ⟨phase, state, previous⟩ := e
  obtain rfl : phase = .pre := (phase_sight _).symm.trans hphase
  obtain ⟨x, others, hstack, -, hothers⟩ := List.map_eq_cons_iff.mp hargs
  obtain ⟨v, others', rfl, -⟩ := List.map_eq_cons_iff.mp hothers
  refine h v ⟨rfl, hop, ?_⟩
  show state.stack[1]? = some v
  rw [hstack]
  rfl

end Event

/-! ### Descents -/

/-- What the taints of a value have to do with a comparison. -/
inductive Descent
  /-- They come from its result, and perhaps from elsewhere as well. -/
  | derived
  /-- They come from one of its operands, and not from its result. -/
  | exposed
  /-- They come from elsewhere. -/
  | apart
  deriving DecidableEq, Repr

namespace Descent

variable {of : Nat → Descent} {sources : List Nat}

/-- The descents of all tags right after a comparison. -/
def start (result : Nat) (operands : List Nat) (tag : Nat) : Descent :=
  if tag = result then derived else if tag ∈ operands then exposed else apart

/-- The descent of an heir. -/
def ofSources (of : Nat → Descent) (sources : List Nat) : Descent :=
  if sources.any (of · = derived) then derived
  else if sources.any (of · = exposed) then exposed
  else apart

/-- The descents of all tags after an inheritance. -/
def inherit (of : Nat → Descent) (i : Inheritance) (tag : Nat) : Descent :=
  if tag = i.heir then ofSources of i.sources else of tag

theorem exists_of_derived (h : ofSources of sources = derived) :
    ∃ source ∈ sources, of source = derived := by
  unfold ofSources at h
  split at h
  · next hany => simpa using hany
  · split at h <;> cases h

theorem of_not_exposed (h : ofSources of sources ≠ exposed) :
    (∃ source ∈ sources, of source = derived) ∨ ∀ source ∈ sources, of source ≠ exposed := by
  unfold ofSources at h
  split at h
  · next hany => exact .inl (by simpa using hany)
  · split at h
    · exact absurd rfl h
    · next hnone => exact .inr (by simpa using hnone)

end Descent

/-! ### Taints after the two orders -/

namespace Pairing

variable {k : Pairing} {of : Nat → Descent} {a b : Nat}

/-- Taints after a comparison in one order of its operands and in the other. They differ in marks of
exposed values only; and if they do so, all derived values have both marks. -/
structure Related (k : Pairing) (of : Nat → Descent) (τ τ' : Taints) : Prop where
  others : ∀ tag, τ.AgreeAt (fun t => t ≠ k.first ∧ t ≠ k.second) τ' tag
  settled : ∀ tag, of tag ≠ .exposed → τ.AgreeAt (fun _ => True) τ' tag
  marked : τ.Same τ' ∨ ∀ tag, of tag = .derived → k.first ∈ τ.get tag ∧ k.second ∈ τ.get tag

theorem Related.of_same (h : τ.Same τ') : k.Related of τ τ' where
  others := fun tag t _ => h tag t
  settled := fun tag _ t _ => h tag t
  marked := .inl h

/-- What is inherited from a derived value covers what is inherited from exposed ones. -/
theorem Related.mem_union (h : k.Related of τ τ') {sources : List Nat}
    (hsources : Descent.ofSources of sources ≠ .exposed) (t : Taint) :
    t ∈ τ.union sources ↔ t ∈ τ'.union sources := by
  rw [Taints.mem_union, Taints.mem_union]
  rcases Descent.of_not_exposed hsources with ⟨source, hmem, hderived⟩ | hnone
  · by_cases ht : t ≠ k.first ∧ t ≠ k.second
    · exact exists_congr fun tag => and_congr_right fun _ => h.others tag t ht
    rcases h.marked with hsame | hmarked
    · exact exists_congr fun tag => and_congr_right fun _ => hsame tag t
    · have hmark : t ∈ τ.get source := by
        obtain ⟨hfirst, hsecond⟩ := hmarked source hderived
        by_cases hne : t = k.first
        · exact hne ▸ hfirst
        · exact (Decidable.not_not.mp fun hne' => ht ⟨hne, hne'⟩) ▸ hsecond
      have hsettled : of source ≠ .exposed := by
        rw [hderived]
        decide
      have hmark' := (h.settled source hsettled t trivial).mp hmark
      exact iff_of_true ⟨source, hmem, hmark⟩ ⟨source, hmem, hmark'⟩
  · exact exists_congr fun tag => and_congr_right fun htag =>
      h.settled tag (hnone tag htag) t trivial

theorem Related.inherit (h : k.Related of τ τ') (i : Inheritance) :
    k.Related (Descent.inherit of i) (τ.inherit i) (τ'.inherit i) where
  others := fun tag => .inherit (fun source _ => h.others source) (h.others tag)
  settled := by
    intro tag htag t _
    unfold Descent.inherit at htag
    rw [Taints.get_inherit, Taints.get_inherit]
    split at htag
    · next heir =>
      rw [if_pos heir, if_pos heir]
      exact h.mem_union htag t
    · next heir =>
      rw [if_neg heir, if_neg heir]
      exact h.settled tag htag t trivial
  marked := by
    rcases h.marked with hsame | hmarked
    · exact .inl (hsame.inherit i)
    · refine .inr fun tag htag => ?_
      unfold Descent.inherit at htag
      rw [Taints.get_inherit]
      split at htag
      · next heir =>
        rw [if_pos heir, Taints.mem_union, Taints.mem_union]
        obtain ⟨source, hmem, hderived⟩ := Descent.exists_of_derived htag
        obtain ⟨hfirst, hsecond⟩ := hmarked source hderived
        exact ⟨⟨source, hmem, hfirst⟩, ⟨source, hmem, hsecond⟩⟩
      · next heir =>
        rw [if_neg heir]
        exact hmarked tag htag

theorem Related.editAll (h : k.Related of τ τ') {edits : List Edit}
    (hdrop : ∀ tag t, .drop tag t ∉ edits) :
    k.Related of (τ.editAll edits) (τ'.editAll edits) where
  others := fun tag => (h.others tag).editAll edits
  settled := fun tag htag => (h.settled tag htag).editAll edits
  marked := by
    rcases h.marked with hsame | hmarked
    · exact .inl (hsame.editAll edits)
    · refine .inr fun tag htag => ?_
      obtain ⟨hfirst, hsecond⟩ := hmarked tag htag
      exact ⟨Taints.mem_get_editAll_of_mem hfirst (hdrop tag _),
        Taints.mem_get_editAll_of_mem hsecond (hdrop tag _)⟩

theorem Matches.symm {one other : TaintSet} (h : k.Matches one other) : k.Matches other one :=
  Or.symm h

/-- The marks of a comparison come down to the result in either order. -/
theorem mem_union_marked_comm (k : Pairing) (τ : Taints) (a b : Nat) (t : Taint) :
    t ∈ (τ.editAll (k.marks τ a b)).union [a, b] ↔
      t ∈ (τ.editAll (k.marks τ b a)).union [b, a] := by
  rw [mem_union_marked, mem_union_marked, or_left_comm]
  exact or_congr_right (or_congr_right (and_congr_left' ⟨.symm, .symm⟩))

theorem related_marked (k : Pairing) (τ : Taints) (a b result : Nat) :
    k.Related (Descent.start result [a, b])
      ((τ.editAll (k.marks τ a b)).inherit ⟨result, [a, b]⟩)
      ((τ.editAll (k.marks τ b a)).inherit ⟨result, [b, a]⟩) := by
  have hresult {tag : Nat} (htag : tag = result) (t : Taint) :
      t ∈ ((τ.editAll (k.marks τ a b)).inherit ⟨result, [a, b]⟩).get tag ↔
        t ∈ ((τ.editAll (k.marks τ b a)).inherit ⟨result, [b, a]⟩).get tag := by
    rw [Taints.get_inherit, Taints.get_inherit, if_pos htag, if_pos htag]
    exact mem_union_marked_comm k τ a b t
  refine ⟨fun tag t ht => ?_, fun tag htag t _ => ?_, ?_⟩
  · by_cases heir : tag = result
    · exact hresult heir t
    · rw [Taints.get_inherit, Taints.get_inherit, if_neg heir, if_neg heir,
        mem_get_marked (.inl ht), mem_get_marked (.inl ht)]
  · by_cases heir : tag = result
    · exact hresult heir t
    · unfold Descent.start at htag
      rw [if_neg heir] at htag
      have hnot : tag ∉ [a, b] := fun hmem => htag (if_pos hmem)
      have hnot' : tag ∉ [b, a] := fun hmem => hnot ((List.Perm.swap a b []).mem_iff.mp hmem)
      rw [Taints.get_inherit, Taints.get_inherit, if_neg heir, if_neg heir,
        mem_get_marked (.inr hnot), mem_get_marked (.inr hnot')]
  · by_cases hmatches : k.Matches (τ.get a) (τ.get b)
    · refine .inr fun tag htag => ?_
      have heir : tag = result := by
        unfold Descent.start at htag
        split at htag
        · assumption
        · split at htag <;> cases htag
      rw [Taints.get_inherit, if_pos heir, mem_union_marked, mem_union_marked]
      exact ⟨.inr (.inr ⟨hmatches, .inl rfl⟩), .inr (.inr ⟨hmatches, .inr rfl⟩)⟩
    · rw [marks_of_not_matches hmatches, marks_of_not_matches fun h => hmatches h.symm]
      exact .inl (Taints.same_inherit_swap τ result a b)

end Pairing

end GuardFinder

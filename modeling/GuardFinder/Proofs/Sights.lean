import GuardFinder.Analysis
import GuardFinder.Proofs.Heights

/-!
# What strategies make of events

A strategy looks at tags, at known words and at taints, never at the terms behind them. A sight is
all that it sees of an event. What it does then is a function of the sight and of the taints: it
edits taints, it may have a finding, and one strategy changes its memo.

* `Sight`, `Event.sight`: an event as strategies see it.
* `Strategy.edits`, `Strategy.finding?`, `Strategy.next`: what a strategy makes of a sight.
* `Strategy.observe_eq`: **that is what it does with every event that it asked for**; only what is
  written to the log is left open.
* `Detector.execute_eq`: so does a detector, but it passes over functions that it has reported.
-/

namespace GuardFinder

/-! ### Edits -/

/-- A change to the taints of a tag. -/
inductive Edit
  | put (tag : Nat) (a : Taint)
  | drop (tag : Nat) (a : Taint)

namespace Edit

/-- The tag that an edit changes. -/
def tag : Edit → Nat
  | put tag _ | drop tag _ => tag

/-- The taint that comes or goes. -/
def taint : Edit → Taint
  | put _ a | drop _ a => a

end Edit

namespace Taints

/-- Makes a change. -/
def edit (τ : Taints) : Edit → Taints
  | .put tag a => τ.annotate tag a
  | .drop tag a => τ.discard tag a

/-- Makes changes in their order. -/
def editAll (τ : Taints) (edits : List Edit) : Taints := edits.foldl edit τ

variable {τ : Taints} {tag other : Nat} {a b : Taint} {edit : Edit} {edits : List Edit}

theorem mem_get_put :
    a ∈ (τ.edit (.put tag b)).get other ↔ (other = tag ∧ a = b) ∨ a ∈ τ.get other := by
  rw [Taints.edit, annotate, get_set]
  split
  · next h => simp [h]
  · next h => simp [h]

theorem mem_get_drop :
    a ∈ (τ.edit (.drop tag b)).get other ↔ ¬(other = tag ∧ a = b) ∧ a ∈ τ.get other := by
  rw [Taints.edit, discard, get_set]
  split
  · next h => simp [h]
  · next h => simp [h]

/-- An edit changes one tag. -/
theorem get_edit_of_ne (h : other ≠ edit.tag) : (τ.edit edit).get other = τ.get other := by
  cases edit with
  | put tag a => exact (get_set ..).trans (if_neg h)
  | drop tag a => exact (get_set ..).trans (if_neg h)

/-- An edit changes one taint. -/
theorem mem_get_edit_of_ne (h : a ≠ edit.taint) :
    a ∈ (τ.edit edit).get other ↔ a ∈ τ.get other := by
  cases edit with
  | put tag b => rw [mem_get_put, or_iff_right fun hb => h hb.2]
  | drop tag b => rw [mem_get_drop, and_iff_right fun hb => h hb.2]

theorem get_editAll_of_ne (h : ∀ edit ∈ edits, other ≠ edit.tag) :
    (τ.editAll edits).get other = τ.get other := by
  induction edits generalizing τ with
  | nil => rfl
  | cons edit rest ih =>
    rw [editAll, List.foldl_cons, ← editAll, ih fun e he => h e (List.mem_cons_of_mem _ he),
      get_edit_of_ne (h edit List.mem_cons_self)]

theorem mem_get_editAll_of_ne (h : ∀ edit ∈ edits, a ≠ edit.taint) :
    a ∈ (τ.editAll edits).get other ↔ a ∈ τ.get other := by
  induction edits generalizing τ with
  | nil => rfl
  | cons edit rest ih =>
    rw [editAll, List.foldl_cons, ← editAll, ih fun e he => h e (List.mem_cons_of_mem _ he),
      mem_get_edit_of_ne (h edit List.mem_cons_self)]

/-- A taint that has come was put. -/
theorem put_mem_of_gained (h : a ∉ τ.get other) (h' : a ∈ (τ.editAll edits).get other) :
    .put other a ∈ edits := by
  induction edits generalizing τ with
  | nil => exact absurd h' h
  | cons edit rest ih =>
    by_cases hmid : a ∈ (τ.edit edit).get other
    · cases edit with
      | put tag b =>
        obtain ⟨rfl, rfl⟩ := (mem_get_put.mp hmid).resolve_right h
        exact List.mem_cons_self
      | drop tag b => exact absurd (mem_get_drop.mp hmid).2 h
    · exact List.mem_cons_of_mem _ (ih hmid h')

/-- A taint that has gone was dropped. -/
theorem drop_mem_of_lost (h : a ∈ τ.get other) (h' : a ∉ (τ.editAll edits).get other) :
    .drop other a ∈ edits := by
  induction edits generalizing τ with
  | nil => exact absurd h h'
  | cons edit rest ih =>
    by_cases hmid : a ∈ (τ.edit edit).get other
    · exact List.mem_cons_of_mem _ (ih hmid h')
    · cases edit with
      | put tag b => exact absurd (mem_get_put.mpr (.inr h)) hmid
      | drop tag b =>
        rw [mem_get_drop, and_iff_left h, Classical.not_not] at hmid
        obtain ⟨rfl, rfl⟩ := hmid
        exact List.mem_cons_self

end Taints

/-- Makes changes to the taints of a ledger. -/
def Ledger.editAll (l : Ledger) (edits : List Edit) : Ledger :=
  { l with taints := l.taints.editAll edits }

/-! ### Sights -/

/-- What strategies see of a value. -/
structure Item where
  tag : Nat
  const? : Option Word

/-- The item as a size, when it is a constant that fits 64 bits. -/
def Item.size? (i : Item) : Option Nat := i.const?.bind Word.size?

/-- What is seen of a value. -/
def Value.item (v : Value) : Item := ⟨v.tag, v.const?⟩

/-- What strategies see of an event. -/
structure Sight where
  phase : Phase
  /-- The opcode of the instruction that the event is about. -/
  opcode : Opcode
  functionName : String
  /-- The stack that the instruction finds. -/
  args : List Item
  /-- The stack at the event. -/
  stack : List Item
  /-- The known words in memory, by offset. -/
  word? : Nat → Option Word

/-- What is seen of an event. -/
def Event.sight : Event → Sight
  | ⟨.post, state, some frame⟩ =>
    ⟨.post, frame.instruction.opcode, state.functionName, frame.stack.map Value.item,
      state.stack.map Value.item, state.memory.knownWord?⟩
  | ⟨phase, state, _⟩ =>
    ⟨phase, state.opcode, state.functionName, state.stack.map Value.item,
      state.stack.map Value.item, state.memory.knownWord?⟩

/-! ### Answers of the strategies -/

/-- Marks a word that was read from a known slot. -/
def Item.slotMarks (result key : Item) : List Edit :=
  key.const?.toList.map fun slot => .put result.tag (.storage (some slot))

namespace Ownership

/-- The marks on both sides of a comparison of the caller with a plain slot. -/
def comparisonMarks (ceiling : Word) (τ : Taints) (a b : Nat) : List Edit :=
  if .caller ∈ τ.get a ∧ ((τ.get b).slotBelow? ceiling).isSome then
    [.put a (.equality .sender), .put b (.equality .owner)]
  else if .caller ∈ τ.get b ∧ ((τ.get a).slotBelow? ceiling).isSome then
    [.put b (.equality .sender), .put a (.equality .owner)]
  else []

/-- The changes at an event. -/
def edits (ceiling : Word) (τ : Taints) (s : Sight) : List Edit :=
  match s.phase, s.opcode, s.args, s.stack with
  | .post, .caller, _, result :: _ => [.put result.tag .caller]
  | .post, .sload, key :: _, result :: _ => result.slotMarks key
  | .pre, .eq, a :: b :: _, _ => comparisonMarks ceiling τ a.tag b.tag
  | _, _, _, _ => []

end Ownership

namespace HashLock

/-- The changes at an event. -/
def edits (maxLength : Nat) (τ : Taints) (s : Sight) : List Edit :=
  match s.phase, s.opcode, s.args, s.stack with
  | .post, .callDataLoad, _, result :: _ => [.put result.tag .input]
  | .post, .sha3, _ :: length :: _, result :: _ =>
    if length.size?.any (· ≤ maxLength) then
      .drop result.tag .input ::
        if .input ∈ τ.get result.tag then [.put result.tag .hashedInput] else []
    else []
  | .post, .sload, key :: _, result :: _ =>
    result.slotMarks key ++
      if .hashedInput ∈ τ.get key.tag then [.put result.tag .hashedStorage] else []
  | .post, .eq, _, result :: _ =>
    if .hashedInput ∈ τ.get result.tag then [.put result.tag .hashedInputEq] else []
  | _, _, _, _ => []

end HashLock

namespace MultipleAuthorization

/-- The marks on the result of comparing two plain slots. -/
def comparisonMarks (ceiling : Word) (τ : Taints) (a b result : Nat) : List Edit :=
  match (τ.get a).slotBelow? ceiling, (τ.get b).slotBelow? ceiling with
  | some left, some right =>
    [.drop result (.storage (some left)), .drop result (.storage (some right)),
      .put result (.storageComparison left right)]
  | _, _ => []

/-- The changes at an event. -/
def edits (ceiling : Word) (τ : Taints) (s : Sight) : List Edit :=
  match s.phase, s.opcode, s.args, s.stack with
  | .post, .sload, key :: _, result :: _ =>
    (key.const?.filter (· < ceiling)).toList.map fun slot =>
      .put result.tag (.storage (some slot))
  | .post, .lt, a :: b :: _, result :: _ =>
    comparisonMarks ceiling τ a.tag b.tag result.tag
  | .post, .gt, a :: b :: _, result :: _ =>
    comparisonMarks ceiling τ a.tag b.tag result.tag
  | _, _, _, _ => []

end MultipleAuthorization

namespace XConfirmation

/-- The marks on both sides of a comparison of the block number with a stored word. -/
def comparisonMarks (τ : Taints) (a b : Nat) : List Edit :=
  if .blockNumber ∈ τ.get a ∧ (τ.get b).toList.any Taint.isStorage then
    [.put a (.comparison .blockNumber), .put b (.comparison .storage)]
  else if (τ.get a).toList.any Taint.isStorage ∧ .blockNumber ∈ τ.get b then
    [.put b (.comparison .blockNumber), .put a (.comparison .storage)]
  else []

/-- The changes at an event. -/
def edits (τ : Taints) (s : Sight) : List Edit :=
  match s.phase, s.opcode, s.args, s.stack with
  | .post, .number, _, result :: _ => [.put result.tag .blockNumber]
  | .post, .sload, key :: _, result :: _ => [.put result.tag (.storage key.const?)]
  | .pre, .eq, a :: b :: _, _ => comparisonMarks τ a.tag b.tag
  | .pre, .lt, a :: b :: _, _ => comparisonMarks τ a.tag b.tag
  | .pre, .gt, a :: b :: _, _ => comparisonMarks τ a.tag b.tag
  | _, _, _, _ => []

end XConfirmation

namespace Roles

/-- The item next to the caller near the top of a stack. -/
def candidate? (τ : Taints) (top second : Item) : Option Item :=
  if .caller ∈ τ.get top.tag then some second
  else if .caller ∈ τ.get second.tag then some top
  else none

/-- The distance that is added to a role or to its hash. -/
def distance? (τ : Taints) (top second : Item) : Option Word :=
  if (τ.get top.tag).hasAny [.role, .hashedRole] then second.const?
  else if (τ.get second.tag).hasAny [.role, .hashedRole] then top.const?
  else none

/-- The changes at an event. -/
def edits (memo : Memo) (τ : Taints) (s : Sight) : List Edit :=
  match s.phase, s.opcode, s.args, s.stack with
  | .post, .caller, _, result :: _ => [.put result.tag .caller]
  | .post, .sha3, _, result :: _ =>
    (if memo.forward then [.put result.tag .hashedRole] else []) ++
      (if .role ∈ τ.get result.tag then [.put result.tag .hashedRole] else []) ++
      if .caller ∈ τ.get result.tag then [.put result.tag .hashedCaller] else []
  | .post, .sload, key :: _, result :: _ =>
    if (τ.get key.tag).hasAll [.hashedCaller, .hashedRole] then
      [.put result.tag .hashedCaller, .put result.tag .hashedRole]
    else []
  | .pre, .jumpDest, top :: second :: _, _ =>
    ((candidate? τ top second).filter (·.const?.isNone)).toList.map fun item =>
      .put item.tag .role
  | _, _, _, _ => []

/-- The memo after an event. -/
def next (memo : Memo) (τ : Taints) (s : Sight) : Memo :=
  match s.phase, s.opcode, s.args, s.stack with
  | .post, .sha3, _, result :: _ =>
    if memo.forward then
      result.const?.elim { memo with forward := false } { memo with forward := false }.addWord
    else memo
  | .pre, .jumpDest, top :: second :: _, _ =>
    ((candidate? τ top second).bind Item.const?).elim memo fun w =>
      (memo.addWord w).addRole s.functionName w
  | .pre, .add, top :: second :: _, _ => (distance? τ top second).elim memo memo.shift
  | .pre, .sha3, offset :: length :: _, _ =>
    match offset.size?, length.size? with
    | some offset, some length =>
      if 32 ≤ length ∧ offset + length ≤ Memory.limit then
        ((List.range ((length + 31) / 32)).filterMap fun k => s.word? (offset + 32 * k)).foldl
          Memo.take memo
      else memo
    | _, _ => memo
  | .pre, .jumpi, _ :: condition :: _, _ =>
    if (τ.get condition.tag).hasAll [.hashedCaller, .hashedRole] then
      { (memo.roles.lookup s.functionName).elim memo (fun _ => memo.dropRole s.functionName) with
        words := ∅ }
    else memo
  | _, _, _, _ => memo

end Roles

namespace Strategy

/-- The changes that a strategy makes at an event. -/
def edits (st : Strategy) (τ : Taints) (s : Sight) : List Edit :=
  match st with
  | ownership ceiling => Ownership.edits ceiling τ s
  | hashLock maxLength => HashLock.edits maxLength τ s
  | roles memo => Roles.edits memo τ s
  | multipleAuthorization ceiling => MultipleAuthorization.edits ceiling τ s
  | xConfirmation => XConfirmation.edits τ s
  | offChainSecret | singleOwner => []

/-- What a strategy remembers after an event. -/
def next (st : Strategy) (τ : Taints) (s : Sight) : Strategy :=
  match st with
  | roles memo => roles (Roles.next memo τ s)
  | st => st

/-- Whether the taints of a condition make a branch on it a guard. -/
def isGuard (st : Strategy) (taints : TaintSet) : Bool :=
  match st with
  | ownership _ => taints.hasAll [.equality .owner, .equality .sender]
  | hashLock _ => taints.hasAny [.hashedStorage, .hashedInputEq]
  | roles _ => taints.hasAll [.hashedCaller, .hashedRole]
  | multipleAuthorization _ => taints.toList.any Taint.isStorageComparison
  | xConfirmation => taints.hasAll [.comparison .blockNumber, .comparison .storage]
  | offChainSecret | singleOwner => false

/-- The slot that the taints of a condition name. -/
def guardSlot? (st : Strategy) (taints : TaintSet) : Option Word :=
  match st with
  | ownership ceiling => taints.slotBelow? ceiling
  | hashLock _ | xConfirmation => taints.slot?
  | _ => none

/-- What a strategy finds at an event: a branch whose condition makes it a guard. -/
def finding? (st : Strategy) (τ : Taints) (s : Sight) : Option Finding :=
  match s.phase, s.opcode, s.args with
  | .pre, .jumpi, _ :: condition :: _ =>
    if st.isGuard (τ.get condition.tag) then
      some ⟨s.functionName, st.guardSlot? (τ.get condition.tag), none⟩
    else none
  | _, _, _ => none

/-- The events that a strategy asks for. -/
def Asks (strategy : Strategy) (phase : Phase) (op : Opcode) : Prop :=
  match phase with
  | .pre => op ∈ strategy.opcodes.1
  | .post => op ∈ strategy.opcodes.2

instance (strategy : Strategy) (phase : Phase) (op : Opcode) :
    Decidable (strategy.Asks phase op) :=
  match phase with
  | .pre => inferInstanceAs (Decidable (op ∈ strategy.opcodes.1))
  | .post => inferInstanceAs (Decidable (op ∈ strategy.opcodes.2))

end Strategy

/-! ### Strategies do what their answers say -/

section

variable {ε σ α β : Type}

theorem bind_run (m : EStateM ε σ α) (f : α → EStateM ε σ β) (s : σ) :
    (m >>= f) s = match m s with
      | .ok a s => f a s
      | .error e s => .error e s := rfl

theorem pure_run (a : α) (s : σ) : (pure a : EStateM ε σ α) s = .ok a s := rfl

theorem ite_run {c : Prop} [Decidable c] (m n : EStateM ε σ α) (s : σ) :
    (if c then m else n) s = if c then m s else n s := by
  split <;> rfl

end

namespace Watch

theorem taintsOf_run (v : Value) (l : Ledger) : taintsOf v l = .ok (l.taints.get v.tag) l := rfl

theorem annotate_run (v : Value) (a : Taint) (l : Ledger) :
    annotate v a l = .ok () { l with taints := l.taints.edit (.put v.tag a) } := rfl

theorem discard_run (v : Value) (a : Taint) (l : Ledger) :
    discard v a l = .ok (decide (a ∈ l.taints.get v.tag))
      { l with taints := l.taints.edit (.drop v.tag a) } := rfl

theorem besides_run {σ α : Type} {w : Watch α} {a : α} {l l' : Ledger} (h : w l = .ok a l')
    (state : σ) :
    (liftM w : EStateM Underflow (σ × Ledger) α) (state, l) = .ok a (state, l') := by
  show w.besides (state, l) = _
  simp only [besides, h]

theorem annotateIf_run {c : Prop} [Decidable c] (v : Value) (a : Taint) (l : Ledger) :
    (if c then annotate v a else pure ()) l =
      .ok () (l.editAll (if c then [.put v.tag a] else [])) := by
  split <;> rfl

end Watch

open Watch

theorem exists_cons_cons_of_length {α : Type} {l : List α} (h : 2 ≤ l.length) :
    ∃ a b rest, l = a :: b :: rest := by
  match l, h with
  | a :: b :: rest, _ => exact ⟨a, b, rest, rfl⟩

/-- At a branch the condition is looked at, and nothing changes. -/
theorem Watch.branch_eq (st : Strategy) {state : StateView} {previous : Option Frame}
    (hop : state.opcode = .jumpi) (h : 2 ≤ state.stack.length) (l : Ledger) :
    (do let condition ← taintsOf (← item ⟨.pre, state, previous⟩ 1)
        if st.isGuard condition then
          return some ⟨state.functionName, st.guardSlot? condition, none⟩
        else return none : Watch (Option Finding)) l =
      .ok (st.finding? l.taints (Event.sight ⟨.pre, state, previous⟩)) l := by
  obtain ⟨⟨address, op, argument⟩, stack, memory, name, constraints⟩ := state
  obtain rfl : op = .jumpi := hop
  obtain ⟨destination, condition, rest, rfl⟩ := exists_cons_cons_of_length h
  have hitem : item ⟨.pre, ⟨⟨address, .jumpi, argument⟩, destination :: condition :: rest, memory,
      name, constraints⟩, previous⟩ 1 l = .ok condition l := rfl
  simp only [bind_run, hitem, taintsOf_run, ite_run, pure_run]
  show _ = EStateM.Result.ok (if st.isGuard (l.taints.get condition.tag) then
    some (⟨name, st.guardSlot? (l.taints.get condition.tag), none⟩ : Finding) else none) l
  split <;> rfl

theorem Ownership.markComparison_eq (ceiling : Word) (a b : Value) (l : Ledger) :
    markComparison ceiling a b l =
      .ok () (l.editAll (comparisonMarks ceiling l.taints a.tag b.tag)) := by
  simp only [markComparison, comparisonMarks, bind_run, taintsOf_run, annotate_run, ite_run,
    pure_run]
  split
  · rfl
  · split <;> rfl

theorem XConfirmation.markComparison_eq (a b : Value) (l : Ledger) :
    markComparison a b l =
      .ok () (l.editAll (comparisonMarks l.taints a.tag b.tag)) := by
  simp only [markComparison, comparisonMarks, bind_run, taintsOf_run, annotate_run, ite_run,
    pure_run]
  split
  · rfl
  · split <;> rfl

section

variable {e : Event} {op : Opcode} {previous : Option Frame}

theorem Ownership.observe_eq (ceiling : Word) (h : e.About op)
    (hasks : (Strategy.ownership ceiling).Asks e.phase op) (l : Ledger) :
    observe ceiling e l =
      .ok ((Strategy.ownership ceiling).finding? l.taints e.sight)
        (l.editAll (edits ceiling l.taints e.sight)) := by
  cases h with
  | @post state frame opcode operands results =>
    obtain ⟨⟨address, op', argument⟩, args⟩ := frame
    obtain ⟨ins, stack, memory, name, constraints⟩ := state
    obtain rfl : op' = op := opcode
    simp only [Strategy.Asks, Strategy.opcodes, postOpcodes, List.mem_cons, List.not_mem_nil,
      or_false] at hasks
    rcases hasks with rfl | rfl
    · obtain ⟨result, rest, rfl⟩ := List.exists_cons_of_length_pos results
      rfl
    · obtain ⟨result, rest, rfl⟩ := List.exists_cons_of_length_pos results
      obtain ⟨⟨word, tag⟩, args, rfl⟩ := List.exists_cons_of_length_pos operands
      cases word <;> rfl
  | @pre state previous opcode operands =>
    obtain ⟨⟨address, op', argument⟩, stack, memory, name, constraints⟩ := state
    obtain rfl : op' = op := opcode
    simp only [Strategy.Asks, Strategy.opcodes, preOpcodes, List.mem_cons, List.not_mem_nil,
      or_false] at hasks
    rcases hasks with rfl | rfl
    · obtain ⟨a, b, rest, rfl⟩ := exists_cons_cons_of_length operands
      show (markComparison ceiling a b >>= fun _ => pure none) l = _
      rw [bind_run, markComparison_eq]
      rfl
    · exact branch_eq (.ownership ceiling) rfl operands l

namespace HashLock

variable {ins : Instruction} {memory : Memory} {name : String} {constraints : List Constraint}
  {argument : Option Word} {args rest : List Value}

theorem markResult_hash (maxLength address : Nat) (offset length result : Value) (l : Ledger) :
    markResult maxLength ⟨.post, ⟨ins, result :: rest, memory, name, constraints⟩, previous⟩
        ⟨⟨address, .sha3, argument⟩, offset :: length :: args⟩ l =
      .ok () (l.editAll
        (if length.size?.any (· ≤ maxLength) then
          .drop result.tag .input ::
            if .input ∈ l.taints.get result.tag then [.put result.tag .hashedInput] else []
        else [])) := by
  have hresult : item ⟨.post, ⟨ins, result :: rest, memory, name, constraints⟩, previous⟩ 0 l =
      .ok result l := rfl
  have hlength : itemOf ⟨⟨address, .sha3, argument⟩, offset :: length :: args⟩ 1 l =
      .ok length l := rfl
  simp only [markResult, bind_run, hresult]
  show (itemOf ⟨⟨address, .sha3, argument⟩, offset :: length :: args⟩ 1 >>= _) l = _
  simp only [bind_run, hlength]
  cases length.size? with
  | none => rfl
  | some n =>
    by_cases hn : n ≤ maxLength
    · simp only [hn, bind_run, discard_run, ite_run, annotate_run, pure_run, if_true,
        Option.any_some, decide_true]
      by_cases hinput : Taint.input ∈ l.taints.get result.tag
      · simp [hinput]; rfl
      · simp [hinput]; rfl
    · simp [hn]; rfl

theorem markResult_load (maxLength address : Nat) (key result : Value) (l : Ledger) :
    markResult maxLength ⟨.post, ⟨ins, result :: rest, memory, name, constraints⟩,
          some ⟨⟨address, .sload, argument⟩, key :: args⟩⟩
        ⟨⟨address, .sload, argument⟩, key :: args⟩ l =
      .ok () (l.editAll (result.item.slotMarks key.item ++
        if .hashedInput ∈ l.taints.get key.tag then [.put result.tag .hashedStorage] else [])) := by
  have hrest (l : Ledger) : (do
      if .hashedInput ∈ (← taintsOf key) then annotate result .hashedStorage : Watch Unit) l =
        .ok () (l.editAll (if .hashedInput ∈ l.taints.get key.tag then
          [.put result.tag .hashedStorage] else [])) := by
    rw [bind_run, taintsOf_run]
    exact annotateIf_run ..
  obtain ⟨word, tag⟩ := key
  cases word with
  | const slot =>
    have hkept : .hashedInput ∈ (l.taints.edit (.put result.tag (.storage (some slot)))).get tag ↔
        .hashedInput ∈ l.taints.get tag := Taints.mem_get_edit_of_ne nofun
    refine (hrest (l.editAll [.put result.tag (.storage (some slot))])).trans ?_
    show EStateM.Result.ok () ((l.editAll [.put result.tag (.storage (some slot))]).editAll
      (if .hashedInput ∈ (l.taints.edit (.put result.tag (.storage (some slot)))).get tag then
        [.put result.tag .hashedStorage] else [])) = _
    simp only [hkept]
    rfl
  | _ => exact hrest l

end HashLock

theorem HashLock.observe_eq (maxLength : Nat) (h : e.About op)
    (hasks : (Strategy.hashLock maxLength).Asks e.phase op) (l : Ledger) :
    observe maxLength e l =
      .ok ((Strategy.hashLock maxLength).finding? l.taints e.sight)
        (l.editAll (edits maxLength l.taints e.sight)) := by
  cases h with
  | @post state frame opcode operands results =>
    obtain ⟨⟨address, op', argument⟩, args⟩ := frame
    obtain ⟨ins, stack, memory, name, constraints⟩ := state
    obtain rfl : op' = op := opcode
    simp only [Strategy.Asks, Strategy.opcodes, postOpcodes, List.mem_cons, List.not_mem_nil,
      or_false] at hasks
    rcases hasks with rfl | rfl | rfl | rfl
    · obtain ⟨result, rest, rfl⟩ := List.exists_cons_of_length_pos results
      rfl
    · obtain ⟨result, rest, rfl⟩ := List.exists_cons_of_length_pos results
      obtain ⟨offset, length, args, rfl⟩ := exists_cons_cons_of_length operands
      show (markResult maxLength _ _ >>= fun _ => pure none) l = _
      rw [bind_run, markResult_hash]
      rfl
    · obtain ⟨result, rest, rfl⟩ := List.exists_cons_of_length_pos results
      obtain ⟨key, args, rfl⟩ := List.exists_cons_of_length_pos operands
      show (markResult maxLength _ _ >>= fun _ => pure none) l = _
      rw [bind_run, markResult_load]
      rfl
    · obtain ⟨result, rest, rfl⟩ := List.exists_cons_of_length_pos results
      show ((if .hashedInput ∈ l.taints.get result.tag then annotate result .hashedInputEq
        else pure ()) >>= fun _ => pure none : Watch (Option Finding)) l = _
      rw [bind_run, annotateIf_run]
      rfl
  | @pre state previous opcode operands =>
    obtain ⟨⟨address, op', argument⟩, stack, memory, name, constraints⟩ := state
    obtain rfl : op' = op := opcode
    simp only [Strategy.Asks, Strategy.opcodes, preOpcodes, List.mem_singleton] at hasks
    subst hasks
    exact branch_eq (.hashLock maxLength) rfl operands l

theorem XConfirmation.observe_eq (h : e.About op)
    (hasks : Strategy.xConfirmation.Asks e.phase op) (l : Ledger) :
    observe e l =
      .ok (Strategy.xConfirmation.finding? l.taints e.sight)
        (l.editAll (edits l.taints e.sight)) := by
  cases h with
  | @post state frame opcode operands results =>
    obtain ⟨⟨address, op', argument⟩, args⟩ := frame
    obtain ⟨ins, stack, memory, name, constraints⟩ := state
    obtain rfl : op' = op := opcode
    simp only [Strategy.Asks, Strategy.opcodes, postOpcodes, List.mem_cons, List.not_mem_nil,
      or_false] at hasks
    rcases hasks with rfl | rfl
    · obtain ⟨result, rest, rfl⟩ := List.exists_cons_of_length_pos results
      rfl
    · obtain ⟨result, rest, rfl⟩ := List.exists_cons_of_length_pos results
      obtain ⟨key, args, rfl⟩ := List.exists_cons_of_length_pos operands
      rfl
  | @pre state previous opcode operands =>
    obtain ⟨⟨address, op', argument⟩, stack, memory, name, constraints⟩ := state
    obtain rfl : op' = op := opcode
    simp only [Strategy.Asks, Strategy.opcodes, preOpcodes, List.mem_cons, List.not_mem_nil,
      or_false] at hasks
    rcases hasks with rfl | rfl | rfl | rfl
    · exact branch_eq .xConfirmation rfl operands l
    all_goals
      obtain ⟨a, b, rest, rfl⟩ := exists_cons_cons_of_length operands
      show (markComparison a b >>= fun _ => pure none) l = _
      rw [bind_run, markComparison_eq]
      rfl

theorem MultipleAuthorization.markComparison_eq (ceiling : Word) {ins ins' : Instruction}
    {memory : Memory} {name : String} {constraints : List Constraint} (a b result : Value)
    (args rest : List Value) (l : Ledger) :
    markComparison ceiling ⟨.post, ⟨ins, result :: rest, memory, name, constraints⟩,
        some ⟨ins', a :: b :: args⟩⟩ ⟨ins', a :: b :: args⟩ l =
      .ok () (l.editAll (comparisonMarks ceiling l.taints a.tag b.tag result.tag)) := by
  unfold comparisonMarks
  show (match (l.taints.get a.tag).slotBelow? ceiling, (l.taints.get b.tag).slotBelow? ceiling with
    | some left, some right => (do
      let result ← item ⟨.post, ⟨ins, result :: rest, memory, name, constraints⟩,
        some ⟨ins', a :: b :: args⟩⟩ 0
      let _ ← discard result (.storage (some left))
      let _ ← discard result (.storage (some right))
      annotate result (.storageComparison left right) : Watch Unit)
    | _, _ => pure ()) l = _
  generalize (l.taints.get a.tag).slotBelow? ceiling = left
  generalize (l.taints.get b.tag).slotBelow? ceiling = right
  cases left <;> cases right <;> rfl

theorem MultipleAuthorization.markResult_load (ceiling : Word) (address : Nat) (key result : Value)
    (l : Ledger) :
    markResult ceiling ⟨.post, ⟨ins, result :: rest, memory, name, constraints⟩,
          some ⟨⟨address, .sload, argument⟩, key :: args⟩⟩
        ⟨⟨address, .sload, argument⟩, key :: args⟩ l =
      .ok () (l.editAll ((key.const?.filter (· < ceiling)).toList.map fun slot =>
        .put result.tag (.storage (some slot)))) := by
  have hslot : loadedSlot? ⟨.post, ⟨ins, result :: rest, memory, name, constraints⟩,
      some ⟨⟨address, .sload, argument⟩, key :: args⟩⟩ l = .ok key.const? l := rfl
  show (loadedSlot? ⟨.post, ⟨ins, result :: rest, memory, name, constraints⟩,
    some ⟨⟨address, .sload, argument⟩, key :: args⟩⟩ >>= _) l = _
  simp only [bind_run, hslot]
  cases key.const?.filter (· < ceiling) <;> rfl

theorem MultipleAuthorization.observe_eq (ceiling : Word) (h : e.About op)
    (hasks : (Strategy.multipleAuthorization ceiling).Asks e.phase op) (l : Ledger) :
    observe ceiling e l =
      .ok ((Strategy.multipleAuthorization ceiling).finding? l.taints e.sight)
        (l.editAll (edits ceiling l.taints e.sight)) := by
  cases h with
  | @post state frame opcode operands results =>
    obtain ⟨⟨address, op', argument⟩, args⟩ := frame
    obtain ⟨ins, stack, memory, name, constraints⟩ := state
    obtain rfl : op' = op := opcode
    simp only [Strategy.Asks, Strategy.opcodes, postOpcodes, List.mem_cons, List.not_mem_nil,
      or_false] at hasks
    rcases hasks with rfl | rfl | rfl
    · obtain ⟨result, rest, rfl⟩ := List.exists_cons_of_length_pos results
      obtain ⟨key, args, rfl⟩ := List.exists_cons_of_length_pos operands
      show (markResult ceiling _ _ >>= fun _ => pure none) l = _
      rw [bind_run, markResult_load]
      rfl
    all_goals
      obtain ⟨result, rest, rfl⟩ := List.exists_cons_of_length_pos results
      obtain ⟨a, b, args, rfl⟩ := exists_cons_cons_of_length operands
      show (markComparison ceiling _ _ >>= fun _ => pure none) l = _
      rw [bind_run, markComparison_eq]
      rfl
  | @pre state previous opcode operands =>
    obtain ⟨⟨address, op', argument⟩, stack, memory, name, constraints⟩ := state
    obtain rfl : op' = op := opcode
    simp only [Strategy.Asks, Strategy.opcodes, preOpcodes, List.mem_cons, List.not_mem_nil,
      or_false] at hasks
    rcases hasks with rfl | rfl
    · exact branch_eq (.multipleAuthorization ceiling) rfl operands l
    · rfl

namespace Roles

variable {ins : Instruction} {stack : List Value} {memory : Memory} {name : String}
  {constraints : List Constraint}

theorem markRole_eq (address : Nat) (argument : Option Word) (memo : Memo) (l : Ledger)
    (he : e = ⟨.pre, ⟨⟨address, .jumpDest, argument⟩, stack, memory, name, constraints⟩,
      previous⟩) :
    markRole e (memo, l) =
      .ok () (next memo l.taints e.sight, l.editAll (edits memo l.taints e.sight)) := by
  subst he
  match stack with
  | [] => rfl
  | [_] => rfl
  | top :: second :: rest =>
    show (if .caller ∈ l.taints.get top.tag then noteRole name second
      else if .caller ∈ l.taints.get second.tag then noteRole name top else pure ()) (memo, l) = _
    have hanswer (item : Option Value)
        (h : candidate? l.taints top.item second.item = item.map Value.item) :
        (item.elim (pure ()) (noteRole name)) (memo, l) = .ok ()
          (((candidate? l.taints top.item second.item).bind Item.const?).elim memo fun w =>
              (memo.addWord w).addRole name w,
            l.editAll (((candidate? l.taints top.item second.item).filter
              (·.const?.isNone)).toList.map fun item => .put item.tag .role)) := by
      rw [h]
      cases item with
      | none => rfl
      | some role =>
        obtain ⟨word, tag⟩ := role
        cases word <;> rfl
    by_cases htop : .caller ∈ l.taints.get top.tag
    · rw [if_pos htop]
      exact hanswer (some second) (if_pos htop)
    · rw [if_neg htop]
      by_cases hsecond : .caller ∈ l.taints.get second.tag
      · rw [if_pos hsecond]
        exact hanswer (some top) ((if_neg htop).trans (if_pos hsecond))
      · rw [if_neg hsecond]
        exact hanswer none ((if_neg htop).trans (if_neg hsecond))

theorem shiftWords_eq (address : Nat) (argument : Option Word) (top second : Value)
    (rest : List Value) (memo : Memo) (l : Ledger)
    (he : e = ⟨.pre, ⟨⟨address, .add, argument⟩, top :: second :: rest, memory, name, constraints⟩,
      previous⟩) :
    shiftWords e (memo, l) = .ok () (next memo l.taints e.sight, l) := by
  have htop : item e 0 l = .ok top l := by
    rw [he]
    rfl
  have hsecond : item e 1 l = .ok second l := by
    rw [he]
    rfl
  have hnext : next memo l.taints e.sight =
      (distance? l.taints top.item second.item).elim memo memo.shift := by
    rw [he]
    rfl
  simp only [shiftWords, bind_run, besides_run htop, besides_run hsecond,
    besides_run (taintsOf_run _ _), hnext]
  split
  · next htop =>
    have hdistance : distance? l.taints top.item second.item = second.const? := if_pos htop
    rw [hdistance]
    cases second.const? <;> rfl
  · next htop =>
    split
    · next hsecond =>
      have hdistance : distance? l.taints top.item second.item = top.const? :=
        (if_neg htop).trans (if_pos hsecond)
      rw [hdistance]
      cases top.const? <;> rfl
    · next hsecond =>
      have hdistance : distance? l.taints top.item second.item = none :=
        (if_neg htop).trans (if_neg hsecond)
      rw [hdistance]
      rfl

theorem matchMemory_eq (address : Nat) (argument : Option Word) (offset length : Value)
    (rest : List Value) (memo : Memo) (l : Ledger)
    (he : e = ⟨.pre, ⟨⟨address, .sha3, argument⟩, offset :: length :: rest, memory, name,
      constraints⟩, previous⟩) :
    matchMemory e (memo, l) = .ok () (next memo l.taints e.sight, l) := by
  subst he
  show (match offset.size?, length.size? with
    | some o, some n =>
      if 32 ≤ n ∧ o + n ≤ Memory.limit then
        remember fun m => (knownWords memory o n).foldl Memo.take m
      else pure ()
    | _, _ => pure ()) (memo, l) = .ok () (match offset.size?, length.size? with
    | some o, some n =>
      if 32 ≤ n ∧ o + n ≤ Memory.limit then (knownWords memory o n).foldl Memo.take memo
      else memo
    | _, _ => memo, l)
  cases offset.size? with
  | none => rfl
  | some o =>
    cases length.size? with
    | none => rfl
    | some n =>
      simp only
      split <;> rfl

theorem markHash_eq (address : Nat) (argument : Option Word) (result : Value)
    (args rest : List Value) (memo : Memo) (l : Ledger)
    (he : e = ⟨.post, ⟨ins, result :: rest, memory, name, constraints⟩,
      some ⟨⟨address, .sha3, argument⟩, args⟩⟩) :
    markHash e (memo, l) =
      .ok () (next memo l.taints e.sight, l.editAll (edits memo l.taints e.sight)) := by
  subst he
  -- The hash of a role is marked first; the mark changes neither of the taints looked at after it.
  have hkept {a : Taint} (ha : a ≠ .hashedRole) (l : Ledger) :
      a ∈ (l.editAll [.put result.tag .hashedRole]).taints.get result.tag ↔
        a ∈ l.taints.get result.tag := by
    show a ∈ (l.taints.edit (.put result.tag .hashedRole)).get result.tag ↔ _
    exact Taints.mem_get_edit_of_ne ha
  have hcaller (memo : Memo) (l : Ledger) : (do
      if .caller ∈ (← taintsOf result) then annotate result .hashedCaller : Recall Unit)
        (memo, l) =
      .ok () (memo, l.editAll
        (if .caller ∈ l.taints.get result.tag then [.put result.tag .hashedCaller] else [])) := by
    show (if .caller ∈ l.taints.get result.tag then (annotate result .hashedCaller : Recall Unit)
      else pure ()) (memo, l) = _
    split <;> rfl
  have hrest (memo : Memo) (l : Ledger) : (do
      if .role ∈ (← taintsOf result) then annotate result .hashedRole
      if .caller ∈ (← taintsOf result) then annotate result .hashedCaller : Recall Unit)
        (memo, l) =
      .ok () (memo, l.editAll
        ((if .role ∈ l.taints.get result.tag then [.put result.tag .hashedRole] else []) ++
          if .caller ∈ l.taints.get result.tag then [.put result.tag .hashedCaller] else [])) := by
    show (if .role ∈ l.taints.get result.tag then (do
        annotate result .hashedRole
        if .caller ∈ (← taintsOf result) then annotate result .hashedCaller : Recall Unit)
      else (do if .caller ∈ (← taintsOf result) then annotate result .hashedCaller))
        (memo, l) = _
    split
    · refine (hcaller memo (l.editAll [.put result.tag .hashedRole])).trans ?_
      simp only [hkept (a := .caller) (by decide)]
      rfl
    · exact hcaller memo l
  obtain ⟨forward, roles, words⟩ := memo
  cases forward with
  | false => exact hrest ⟨false, roles, words⟩ l
  | true =>
    have hmarked (memo : Memo) := hrest memo (l.editAll [.put result.tag .hashedRole])
    simp only [hkept (a := .caller) (by decide), hkept (a := .role) (by decide)] at hmarked
    obtain ⟨word, tag⟩ := result
    cases word with
    | const w => exact hmarked _
    | _ => exact hmarked _

theorem markLoad_eq (address : Nat) (argument : Option Word) (key result : Value)
    (args rest : List Value) (memo : Memo) (l : Ledger)
    (he : e = ⟨.post, ⟨ins, result :: rest, memory, name, constraints⟩,
      some ⟨⟨address, .sload, argument⟩, key :: args⟩⟩) :
    markLoad e ⟨⟨address, .sload, argument⟩, key :: args⟩ (memo, l) =
      .ok () (memo, l.editAll (edits memo l.taints e.sight)) := by
  subst he
  show (if (l.taints.get key.tag).hasAll [.hashedCaller, .hashedRole] then
      (do annotate result .hashedCaller; annotate result .hashedRole : Recall Unit)
    else pure ()) (memo, l) = .ok () (memo, l.editAll
      (if (l.taints.get key.tag).hasAll [.hashedCaller, .hashedRole] then
        [.put result.tag .hashedCaller, .put result.tag .hashedRole] else []))
  split <;> rfl

theorem inspectBranch_eq (address : Nat) (argument : Option Word) (destination condition : Value)
    (rest : List Value) (memo : Memo) (l : Ledger)
    (he : e = ⟨.pre, ⟨⟨address, .jumpi, argument⟩, destination :: condition :: rest, memory, name,
      constraints⟩, previous⟩) :
    ∃ log, inspectBranch e (memo, l) =
      .ok ((Strategy.roles memo).finding? l.taints e.sight)
        (next memo l.taints e.sight, { l with log }) := by
  have hcondition : item e 1 l = .ok condition l := by
    rw [he]
    rfl
  have hname : e.state.functionName = name := by rw [he]
  have hfinding : (Strategy.roles memo).finding? l.taints e.sight =
      if (l.taints.get condition.tag).hasAll [.hashedCaller, .hashedRole] then
        some ⟨name, none, none⟩ else none := by
    rw [he]
    rfl
  have hnext : next memo l.taints e.sight =
      if (l.taints.get condition.tag).hasAll [.hashedCaller, .hashedRole] then
        { (memo.roles.lookup name).elim memo (fun _ => memo.dropRole name) with words := ∅ }
        else memo := by
    rw [he]
    rfl
  have hget : (get : Recall (Memo × Ledger)) (memo, l) = .ok (memo, l) (memo, l) := rfl
  simp only [inspectBranch, bind_run, besides_run hcondition, besides_run (taintsOf_run _ _),
    ite_run, hget, hname, hfinding, hnext]
  split
  · cases memo.roles.lookup name with
    | none => exact ⟨l.log, rfl⟩
    | some role => exact ⟨_, rfl⟩
  · exact ⟨l.log, rfl⟩

theorem observe_eq (memo : Memo) (h : e.About op)
    (hasks : (Strategy.roles memo).Asks e.phase op) (l : Ledger) :
    ∃ log, observe e (memo, l) =
      .ok ((Strategy.roles memo).finding? l.taints e.sight)
        (next memo l.taints e.sight,
          { l with taints := l.taints.editAll (edits memo l.taints e.sight), log }) := by
  cases h with
  | @post state frame opcode operands results =>
    obtain ⟨⟨address, op', argument⟩, args⟩ := frame
    obtain ⟨ins, stack, memory, name, constraints⟩ := state
    obtain rfl : op' = op := opcode
    simp only [Strategy.Asks, Strategy.opcodes, postOpcodes, List.mem_cons, List.not_mem_nil,
      or_false] at hasks
    refine ⟨l.log, ?_⟩
    rcases hasks with rfl | rfl | rfl
    · obtain ⟨result, rest, rfl⟩ := List.exists_cons_of_length_pos results
      rfl
    · obtain ⟨result, rest, rfl⟩ := List.exists_cons_of_length_pos results
      show (markHash _ >>= fun _ => pure none) (memo, l) = _
      rw [bind_run, markHash_eq address argument result args rest memo l rfl]
      rfl
    · obtain ⟨result, rest, rfl⟩ := List.exists_cons_of_length_pos results
      obtain ⟨key, args, rfl⟩ := List.exists_cons_of_length_pos operands
      show (markLoad _ _ >>= fun _ => pure none) (memo, l) = _
      rw [bind_run, markLoad_eq address argument key result args rest memo l rfl]
      rfl
  | @pre state previous opcode operands =>
    obtain ⟨⟨address, op', argument⟩, stack, memory, name, constraints⟩ := state
    obtain rfl : op' = op := opcode
    simp only [Strategy.Asks, Strategy.opcodes, preOpcodes, List.mem_cons, List.not_mem_nil,
      or_false] at hasks
    rcases hasks with rfl | rfl | rfl | rfl
    · obtain ⟨top, second, rest, rfl⟩ := exists_cons_cons_of_length operands
      refine ⟨l.log, ?_⟩
      show (shiftWords _ >>= fun _ => pure none) (memo, l) = _
      rw [bind_run, shiftWords_eq address argument top second rest memo l rfl]
      rfl
    · refine ⟨l.log, ?_⟩
      show (markRole _ >>= fun _ => pure none) (memo, l) = _
      rw [bind_run, markRole_eq address argument memo l rfl]
      rfl
    · obtain ⟨destination, condition, rest, rfl⟩ := exists_cons_cons_of_length operands
      exact inspectBranch_eq address argument destination condition rest memo l rfl
    · obtain ⟨offset, length, rest, rfl⟩ := exists_cons_cons_of_length operands
      refine ⟨l.log, ?_⟩
      show (matchMemory _ >>= fun _ => pure none) (memo, l) = _
      rw [bind_run, matchMemory_eq address argument offset length rest memo l rfl]
      rfl

end Roles

namespace Strategy

theorem cleared_next (st : Strategy) (τ : Taints) (s : Sight) :
    (st.next τ s).cleared = st.cleared := by
  cases st <;> rfl

theorem pattern_cleared (st : Strategy) : st.cleared.pattern = st.pattern := by
  cases st <;> rfl

theorem pattern_ofPattern (settings : Settings) (p : Pattern) :
    (ofPattern settings p).pattern = p := by
  cases p <;> rfl

theorem watchesEvents_of_asks {st : Strategy} {phase : Phase} (h : st.Asks phase op) :
    st.watchesEvents = true := by
  cases st with
  | offChainSecret | singleOwner => cases phase <;> exact absurd h List.not_mem_nil
  | _ => rfl

/-- **A strategy does what its answers say** with every event that it asked for. -/
theorem observe_eq {st : Strategy} (h : e.About op) (hasks : st.Asks e.phase op) (l : Ledger) :
    ∃ log, observe e (st, l) =
      .ok (st.finding? l.taints e.sight)
        (st.next l.taints e.sight,
          { l with taints := l.taints.editAll (st.edits l.taints e.sight), log }) := by
  cases st with
  | ownership ceiling =>
    refine ⟨l.log, ?_⟩
    simp only [observe, Watch.besides, Ownership.observe_eq ceiling h hasks]
    rfl
  | hashLock maxLength =>
    refine ⟨l.log, ?_⟩
    simp only [observe, Watch.besides, HashLock.observe_eq maxLength h hasks]
    rfl
  | multipleAuthorization ceiling =>
    refine ⟨l.log, ?_⟩
    simp only [observe, Watch.besides, MultipleAuthorization.observe_eq ceiling h hasks]
    rfl
  | xConfirmation =>
    refine ⟨l.log, ?_⟩
    simp only [observe, Watch.besides, XConfirmation.observe_eq h hasks]
    rfl
  | roles memo =>
    obtain ⟨log, hrun⟩ := Roles.observe_eq memo h hasks l
    refine ⟨log, ?_⟩
    simp only [observe, hrun]
    rfl
  | offChainSecret | singleOwner => cases watchesEvents_of_asks hasks

theorem opcodes_next (st : Strategy) (τ : Taints) (s : Sight) :
    (st.next τ s).opcodes = st.opcodes := by
  cases st <;> rfl

end Strategy

/-! ### Detectors -/

@[simp] theorem Event.functionName_sight (e : Event) :
    e.sight.functionName = e.state.functionName := by
  obtain ⟨phase, state, previous⟩ := e
  cases phase <;> cases previous <;> rfl

namespace Detector

/-- The changes that a detector makes at an event: none in functions that it has reported. -/
def edits (d : Detector) (τ : Taints) (s : Sight) : List Edit :=
  if d.reported.contains s.functionName then [] else d.strategy.edits τ s

/-- The detector with one more finding. -/
def withFinding (d : Detector) (f : Finding) : Detector :=
  { d with reported := d.reported.insert f.functionName, findings := d.findings ++ [f] }

/-- The detector after an event. -/
def after (d : Detector) (τ : Taints) (s : Sight) : Detector :=
  if d.reported.contains s.functionName then d
  else (d.strategy.finding? τ s).elim { d with strategy := d.strategy.next τ s }
    { d with strategy := d.strategy.next τ s }.withFinding

theorem mem_wishes {d : Detector} {phase : Phase} {op : Opcode} :
    (phase, op) ∈ d.wishes ↔ d.strategy.Asks phase op := by
  cases phase <;> simp [wishes, Strategy.Asks]

theorem wishes_after (d : Detector) (τ : Taints) (s : Sight) : (d.after τ s).wishes = d.wishes := by
  have hnext : ({ d with strategy := d.strategy.next τ s } : Detector).wishes = d.wishes := by
    simp only [wishes, Strategy.opcodes_next]
  unfold after
  split
  · rfl
  · cases d.strategy.finding? τ s with
    | none => exact hnext
    | some f => exact hnext

theorem reset_after (d : Detector) (τ : Taints) (s : Sight) : (d.after τ s).reset = d.reset := by
  have hnext : ({ d with strategy := d.strategy.next τ s } : Detector).reset = d.reset := by
    simp only [reset, Strategy.cleared_next]
  unfold after
  split
  · rfl
  · cases d.strategy.finding? τ s with
    | none => exact hnext
    | some f => exact hnext

/-- **A detector does what its strategy says**, but passes over functions that it has reported. -/
theorem execute_eq {d : Detector} (h : e.About op) (hwish : (e.phase, op) ∈ d.wishes)
    (l : Ledger) :
    ∃ found log, execute e (d, l) =
      .ok found (d.after l.taints e.sight,
        { l with taints := l.taints.editAll (d.edits l.taints e.sight), log }) := by
  have hasks := mem_wishes.mp hwish
  unfold execute after edits
  simp only [Event.functionName_sight, Strategy.watchesEvents_of_asks hasks, if_true]
  split
  · exact ⟨none, l.log, rfl⟩
  · obtain ⟨log, hrun⟩ := Strategy.observe_eq h hasks (l.say (.executing d.pattern.title))
    rw [hrun, show (l.say (.executing d.pattern.title)).taints = l.taints from rfl]
    cases d.strategy.finding? l.taints e.sight with
    | none => exact ⟨none, _, rfl⟩
    | some f => exact ⟨some f, _, rfl⟩

end Detector

end

end GuardFinder

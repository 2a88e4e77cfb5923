import GuardFinder.Proofs.Recording

/-!
# Hooks that fail

A detector that is shown an event it did not ask for may find that a stack is too short for it. It
notices this before it has changed anything: it looks at all the places it needs, and then marks
values and remembers words. Only hash locks look at a place after they have marked a value, and that
place is one they have looked at before.

* `Place`, `Pattern.places`: the places on the stacks of an event that are looked at.
* `Event.Lacks`: a stack of an event is too short, and how this is reported.
* `Cautious`: computations that fail only while nothing is changed, and only for missing places.
* `Strategy.observe_error`: strategies are cautious.
* `Detector.execute_error`: **a detector that fails leaves all as it was**.
-/

namespace GuardFinder

open Watch

/-! ### Places -/

/-- A place on a stack that an event shows, counted from the top: the stack of its state, or the one
that the frame before it found. -/
inductive Place
  | current (depth : Nat)
  | previous (depth : Nat)
  deriving DecidableEq

/-- A place that is not there, with the report of it. -/
inductive Event.Lacks (e : Event) : Place → Underflow → Prop
  | current {depth : Nat} (h : e.state.stack.length ≤ depth) :
    e.Lacks (.current depth) ⟨e.state.instruction.opcode, e.state.instruction.address, depth + 1,
      e.state.stack.length⟩
  | previous {frame : Frame} {depth : Nat} (hframe : e.previous = some frame)
    (h : frame.stack.length ≤ depth) :
    e.Lacks (.previous depth) ⟨frame.instruction.opcode, frame.instruction.address, depth + 1,
      frame.stack.length⟩

theorem Event.Lacks.actual_lt_required {e : Event} {place : Place} {u : Underflow}
    (h : e.Lacks place u) : u.actual < u.required := by
  cases h with
  | current h => exact Nat.lt_succ_of_le h
  | previous hframe h => exact Nat.lt_succ_of_le h

namespace Pattern

/-- The places that are looked at before an instruction, in search of a pattern. -/
def placesBefore (op : Opcode) : Pattern → List Place
  | ownership =>
    match op with
    | .eq => [.current 0, .current 1]
    | .jumpi => [.current 1]
    | _ => []
  | xConfirmation =>
    match op with
    | .eq | .lt | .gt => [.current 0, .current 1]
    | .jumpi => [.current 1]
    | _ => []
  | roles =>
    match op with
    | .add | .sha3 => [.current 0, .current 1]
    | .jumpi => [.current 1]
    | _ => []
  | hashLock | multipleAuthorization =>
    match op with
    | .jumpi => [.current 1]
    | _ => []
  | offChainSecret | singleOwner => []

/-- The places that are looked at after an instruction. -/
def placesAfter (op : Opcode) : Pattern → List Place
  | ownership =>
    match op with
    | .caller => [.current 0]
    | .sload => [.previous 0, .current 0]
    | _ => []
  | hashLock =>
    match op with
    | .sha3 => [.current 0, .previous 1]
    | .sload => [.current 0, .previous 0]
    | _ => [.current 0]
  | multipleAuthorization =>
    match op with
    | .sload => [.previous 0, .current 0]
    | .lt | .gt => [.previous 0, .previous 1, .current 0]
    | _ => []
  | xConfirmation =>
    match op with
    | .number => [.current 0]
    | .sload => [.current 0, .previous 0]
    | _ => []
  | roles =>
    match op with
    | .caller | .sha3 => [.current 0]
    | .sload => [.previous 0, .current 0]
    | _ => []
  | offChainSecret | singleOwner => []

/-- The places that are looked at when an event is told. -/
def places (p : Pattern) (e : Event) : List Place :=
  match e.phase, e.executed? with
  | .pre, _ => p.placesBefore e.state.opcode
  | .post, some op => p.placesAfter op
  | .post, none => []

end Pattern

/-! ### Cautious computations -/

/-- A computation that fails only while nothing is changed, and only as a place is missing. -/
def Cautious {σ α : Type} (e : Event) (places : List Place) (m : EStateM Underflow σ α) : Prop :=
  ∀ s u s', m s = .error u s' → s' = s ∧ ∃ p ∈ places, e.Lacks p u

/-- A cautious computation that never changes anything. -/
structure Looks {σ α : Type} (e : Event) (places : List Place) (m : EStateM Underflow σ α) :
    Prop where
  cautious : Cautious e places m
  unchanged : ∀ s a s', m s = .ok a s' → s' = s

section

variable {σ α β : Type} {e : Event} {places : List Place} {P : α → Prop}

theorem Safe.cautious {m : EStateM Underflow σ α} (h : Safe m) : Cautious e places m := by
  intro s u s' hs
  obtain ⟨a, s'', hok⟩ := h s
  rw [hok] at hs
  cases hs

theorem looks_pure (a : α) : Looks e places (pure a : EStateM Underflow σ α) where
  cautious := (safe_pure a).cautious
  unchanged _ _ _ h := by cases h; rfl

/-- After a cautious computation nothing may fail. -/
theorem Cautious.bind_safe {m : EStateM Underflow σ α} {f : α → EStateM Underflow σ β}
    (hm : Cautious e places m) (hf : ∀ a, Safe (f a)) : Cautious e places (m >>= f) := by
  intro s u s'' h
  rw [bind_run] at h
  split at h
  · next a s' hs =>
    obtain ⟨b, t, hok⟩ := hf a s'
    rw [hok] at h
    cases h
  · next u' s' hs =>
    cases h
    exact hm s u s'' hs

/-- A look may come before a cautious computation, which may rely on what has been seen. -/
theorem Looks.bind_of_yields {m : EStateM Underflow σ α} {f : α → EStateM Underflow σ β}
    (hm : Looks e places m) (hP : Yields m P) (hf : ∀ a, P a → Cautious e places (f a)) :
    Cautious e places (m >>= f) := by
  intro s u s'' h
  rw [bind_run] at h
  split at h
  · next a s' hs =>
    obtain rfl := hm.unchanged s a s' hs
    exact hf a (hP s' a s' hs) s' u s'' h
  · next u' s' hs =>
    cases h
    exact hm.cautious s u s'' hs

theorem Looks.bind {m : EStateM Underflow σ α} {f : α → EStateM Underflow σ β}
    (hm : Looks e places m) (hf : ∀ a, Cautious e places (f a)) : Cautious e places (m >>= f) :=
  hm.bind_of_yields (yields_any m) fun a _ => hf a

theorem Looks.map {m : EStateM Underflow σ α} (hm : Looks e places m) (g : α → β) :
    Looks e places (do return g (← m)) where
  cautious := hm.bind fun a => (safe_pure (g a)).cautious
  unchanged s b s'' h := by
    rw [bind_run] at h
    split at h
    · next a s' hs =>
      cases h
      exact hm.unchanged s a s'' hs
    · cases h

theorem Cautious.besides {w : Watch α} (h : Cautious e places w) :
    Cautious e places (w.besides : EStateM Underflow (σ × Ledger) α) := by
  rintro ⟨state, ledger⟩ u s' hs
  unfold Watch.besides at hs
  simp only at hs
  split at hs
  · cases hs
  · next hw =>
    cases hs
    obtain ⟨rfl, hlacks⟩ := h _ _ _ hw
    exact ⟨rfl, hlacks⟩

theorem Looks.lift {w : Watch α} (h : Looks e places w) :
    Looks e places (liftM w : EStateM Underflow (σ × Ledger) α) where
  cautious := h.cautious.besides
  unchanged := by
    rintro ⟨state, ledger⟩ a s' hs
    change w.besides (state, ledger) = _ at hs
    unfold Watch.besides at hs
    simp only at hs
    split at hs
    · next hw =>
      cases hs
      rw [h.unchanged _ _ _ hw]
    · cases hs

end

namespace Watch

variable {e : Event} {places : List Place} {depth : Nat} {frame : Frame}

theorem looks_peekAt {stack : List Value} {ins : Instruction}
    (h : stack.length ≤ depth →
      ∃ p ∈ places, e.Lacks p ⟨ins.opcode, ins.address, depth + 1, stack.length⟩) :
    Looks e places (ofExcept (peekAt stack ins depth)) := by
  unfold peekAt
  split
  · exact looks_pure _
  · next hnone =>
    constructor
    · rintro s u s' ⟨⟩
      exact ⟨rfl, h (List.getElem?_eq_none_iff.mp hnone)⟩
    · rintro s a s' ⟨⟩

theorem looks_item (h : .current depth ∈ places) : Looks e places (item e depth) :=
  looks_peekAt fun hshort => ⟨_, h, .current hshort⟩

theorem looks_itemOf (hframe : e.previous = some frame) (h : .previous depth ∈ places) :
    Looks e places (itemOf frame depth) :=
  looks_peekAt fun hshort => ⟨_, h, .previous hframe hshort⟩

theorem looks_taintsOf (v : Value) : Looks e places (taintsOf v) where
  cautious _ _ _ h := by cases h
  unchanged _ _ _ h := by cases h; rfl

theorem looks_loadedSlot? (h : .previous 0 ∈ places) : Looks e places (loadedSlot? e) := by
  unfold loadedSlot?
  split
  · next frame hframe => exact (looks_itemOf hframe h).map _
  · exact looks_pure _

/-- A slot that was loaded was on the stack. -/
theorem yields_loadedSlot? (hframe : e.previous = some frame) :
    Yields (loadedSlot? e) fun _ => 0 < frame.stack.length := by
  unfold loadedSlot?
  rw [hframe]
  refine .bind (yields_itemOf frame 0) fun v hv => yields_pure ?_
  exact (List.getElem?_eq_some_iff.mp hv).1

theorem safe_taintsOf (v : Value) : Safe (taintsOf v) := .bind safe_get fun _ => safe_pure _

theorem safe_annotate (v : Value) (a : Taint) : Safe (annotate v a) := safe_modify _

theorem safe_discard (v : Value) (a : Taint) : Safe (discard v a) :=
  .bind safe_get fun _ => .bind (safe_modify _) fun _ => safe_pure _

theorem safe_annotateIf (c : Prop) [Decidable c] (v : Value) (a : Taint) :
    Safe (if c then annotate v a else pure ()) := by
  split
  · exact safe_annotate v a
  · exact safe_pure _

/-- A look at a condition. -/
theorem cautious_branch (h : .current 1 ∈ places) (P : TaintSet → Prop) [DecidablePred P]
    (slot : TaintSet → Option Word) :
    Cautious e places (do
      let condition ← taintsOf (← item e 1)
      if P condition then return some ⟨e.state.functionName, slot condition, none⟩
      else return none : Watch (Option Finding)) := by
  refine (looks_item h).bind fun v => (looks_taintsOf v).bind fun condition => ?_
  split
  · exact (safe_pure _).cautious
  · exact (safe_pure _).cautious

end Watch

/-! ### Strategies -/

section

variable {e : Event} {frame : Frame} {op : Opcode} {places : List Place}

theorem Pattern.places_pre (p : Pattern) (h : e.phase = .pre) (hop : e.state.opcode = op) :
    p.places e = p.placesBefore op := by
  unfold places
  rw [h, hop]

theorem Pattern.places_post (p : Pattern) (h : e.phase = .post) (hop : e.executed? = some op) :
    p.places e = p.placesAfter op := by
  unfold places
  rw [h, hop]

theorem Pattern.places_of_previous (p : Pattern) (h : e.phase = .post)
    (hframe : e.previous = some frame) :
    p.places e = p.placesAfter frame.instruction.opcode := by
  refine p.places_post h ?_
  rw [Event.executed?, hframe, Option.map_some]

theorem Ownership.cautious_markRead (h : e.phase = .post) :
    Cautious e (Pattern.ownership.places e) (markRead e) := by
  unfold markRead
  split
  · next hop =>
    rw [Pattern.places_post _ h hop]
    exact (looks_item (by decide)).bind fun v => (safe_annotate v _).cautious
  · next hop =>
    rw [Pattern.places_post _ h hop]
    refine (looks_loadedSlot? (by decide)).bind fun slot => ?_
    split
    · exact (looks_item (by decide)).bind fun v => (safe_annotate v _).cautious
    · exact (safe_pure _).cautious
  · exact (safe_pure _).cautious

theorem Ownership.safe_markComparison (ceiling : Word) (a b : Value) :
    Safe (markComparison ceiling a b) := by
  refine .bind (safe_taintsOf a) fun left => .bind (safe_taintsOf b) fun right => ?_
  split
  · exact .bind (safe_annotate a _) fun _ => safe_annotate b _
  · split
    · exact .bind (safe_annotate b _) fun _ => safe_annotate a _
    · exact safe_pure _

theorem Ownership.cautious_observe (ceiling : Word) :
    Cautious e (Pattern.ownership.places e) (observe ceiling e) := by
  unfold observe
  split
  · next h => exact (cautious_markRead h).bind_safe fun _ => safe_pure _
  · next h =>
    split
    · next hop =>
      rw [Pattern.places_pre _ h hop]
      refine (looks_item (by decide)).bind fun a => (looks_item (by decide)).bind fun b => ?_
      exact (safe_markComparison ceiling a b).cautious.bind_safe fun _ => safe_pure _
    · next hop =>
      rw [Pattern.places_pre _ h hop]
      exact cautious_branch (by decide) _ _
    · exact (safe_pure _).cautious

theorem HashLock.current_mem_placesAfter (op : Opcode) :
    .current 0 ∈ Pattern.hashLock.placesAfter op := by
  simp only [Pattern.placesAfter]
  split <;> exact List.mem_cons_self

/-- A hash lock looks twice at the slot of a storage read, the second time after it has marked the
result. The place it looks at is there if it was there the first time. -/
theorem HashLock.cautious_markResult (maxLength : Nat) (h : e.phase = .post)
    (hframe : e.previous = some frame) :
    Cautious e (Pattern.hashLock.places e) (markResult maxLength e frame) := by
  rw [Pattern.places_of_previous _ h hframe]
  unfold markResult
  refine (looks_item (current_mem_placesAfter _)).bind fun result => ?_
  split
  · exact (safe_annotate result _).cautious
  · next hsha3 =>
    rw [hsha3]
    refine (looks_itemOf hframe (by decide)).bind fun length => Safe.cautious ?_
    split
    · split
      · exact .bind (safe_discard result _) fun there => safe_annotateIf _ result _
      · exact safe_pure _
    · exact safe_pure _
  · next hsload =>
    rw [hsload]
    refine (looks_loadedSlot? (by decide)).bind_of_yields (yields_loadedSlot? hframe)
      fun slot hthere => Safe.cautious ?_
    have hmark : Safe (do
        if .hashedInput ∈ (← taintsOf (← itemOf frame 0)) then annotate result .hashedStorage) :=
      .bind (safe_itemOf hthere) fun key => .bind (safe_taintsOf key) fun taints =>
        safe_annotateIf _ result _
    split
    · exact .bind (safe_annotate result _) fun _ => hmark
    · exact hmark
  · exact (looks_taintsOf result).bind fun taints => (safe_annotateIf _ result _).cautious
  · exact (safe_pure _).cautious

theorem HashLock.cautious_observe (maxLength : Nat) :
    Cautious e (Pattern.hashLock.places e) (observe maxLength e) := by
  unfold observe
  split
  · next h hframe => exact (cautious_markResult maxLength h hframe).bind_safe fun _ => safe_pure _
  · next h =>
    split
    · next hop =>
      rw [Pattern.places_pre _ h hop]
      exact cautious_branch (by decide) _ _
    · exact (safe_pure _).cautious
  · exact (safe_pure _).cautious

theorem MultipleAuthorization.cautious_markResult (ceiling : Word) (h : e.phase = .post)
    (hframe : e.previous = some frame) :
    Cautious e (Pattern.multipleAuthorization.places e)
      (markResult ceiling e frame) := by
  have hcompare {places : List Place} (hfirst : .previous 0 ∈ places)
      (hsecond : .previous 1 ∈ places) (hresult : .current 0 ∈ places) :
      Cautious e places (markComparison ceiling e frame) := by
    refine (looks_itemOf hframe hfirst).bind fun a => (looks_taintsOf a).bind fun left =>
      (looks_itemOf hframe hsecond).bind fun b => (looks_taintsOf b).bind fun right => ?_
    dsimp only
    split
    · exact (looks_item hresult).bind fun result => (Safe.bind (safe_discard result _) fun _ =>
        .bind (safe_discard result _) fun _ => safe_annotate result _).cautious
    · exact (safe_pure _).cautious
  rw [Pattern.places_of_previous _ h hframe]
  unfold markResult
  split
  · next hop =>
    rw [hop]
    refine (looks_loadedSlot? (by decide)).bind fun slot => ?_
    split
    · exact (looks_item (by decide)).bind fun v => (safe_annotate v _).cautious
    · exact (safe_pure _).cautious
  iterate 2
    · next hop =>
      rw [hop]
      exact hcompare (by decide) (by decide) (by decide)
  · exact (safe_pure _).cautious

theorem MultipleAuthorization.cautious_observe (ceiling : Word) :
    Cautious e (Pattern.multipleAuthorization.places e) (observe ceiling e) := by
  unfold observe
  split
  · next h hframe => exact (cautious_markResult ceiling h hframe).bind_safe fun _ => safe_pure _
  · next h =>
    split
    · next hop =>
      rw [Pattern.places_pre _ h hop]
      exact cautious_branch (by decide) _ _
    · exact (safe_pure _).cautious
  · exact (safe_pure _).cautious

theorem XConfirmation.cautious_markRead (h : e.phase = .post) :
    Cautious e (Pattern.xConfirmation.places e) (markRead e) := by
  unfold markRead
  split
  · next hop =>
    rw [Pattern.places_post _ h hop]
    exact (looks_item (by decide)).bind fun v => (safe_annotate v _).cautious
  · next hop =>
    rw [Pattern.places_post _ h hop]
    exact (looks_item (by decide)).bind fun result => (looks_loadedSlot? (by decide)).bind
      fun slot => (safe_annotate result _).cautious
  · exact (safe_pure _).cautious

theorem XConfirmation.safe_markComparison (a b : Value) : Safe (markComparison a b) := by
  refine .bind (safe_taintsOf a) fun left => .bind (safe_taintsOf b) fun right => ?_
  split
  · exact .bind (safe_annotate a _) fun _ => safe_annotate b _
  · split
    · exact .bind (safe_annotate b _) fun _ => safe_annotate a _
    · exact safe_pure _

theorem XConfirmation.cautious_observe :
    Cautious e (Pattern.xConfirmation.places e) (observe e) := by
  have hcompare {places : List Place} (hfirst : .current 0 ∈ places)
      (hsecond : .current 1 ∈ places) : Cautious e places (do
        let a ← item e 0
        let b ← item e 1
        markComparison a b
        return none : Watch (Option Finding)) :=
    (looks_item hfirst).bind fun a => (looks_item hsecond).bind fun b =>
      (safe_markComparison a b).cautious.bind_safe fun _ => safe_pure _
  unfold observe
  split
  · next h => exact (cautious_markRead h).bind_safe fun _ => safe_pure _
  · next h =>
    split
    iterate 3
      · next hop =>
        rw [Pattern.places_pre _ h hop]
        exact hcompare (by decide) (by decide)
    · next hop =>
      rw [Pattern.places_pre _ h hop]
      exact cautious_branch (by decide) _ _
    · exact (safe_pure _).cautious

namespace Roles

theorem safe_remember (f : Memo → Memo) : Safe (remember f) := safe_modify _

theorem safe_noteRole (functionName : String) (role : Value) :
    Safe (noteRole functionName role) := by
  unfold noteRole
  split
  · exact (safe_annotate role _).lift
  · exact safe_remember _

theorem safe_markRole (e : Event) : Safe (markRole e) := by
  unfold markRole
  split
  · refine .bind (safe_taintsOf _).lift fun top => .bind (safe_taintsOf _).lift fun second => ?_
    split
    · exact safe_noteRole _ _
    · split
      · exact safe_noteRole _ _
      · exact safe_pure _
  · exact safe_pure _

/-- After the look at the hash nothing can fail. -/
theorem cautious_markHash (h : .current 0 ∈ places) : Cautious e places (markHash e) := by
  refine (looks_item h).lift.bind fun result => Safe.cautious ?_
  have hmark (a b : Taint) (s : TaintSet) :
      Safe (if a ∈ s then (annotate result b : Recall Unit) else pure ()) := by
    split
    · exact (safe_annotate result b).lift
    · exact safe_pure _
  have hrest : Safe (do
      if .role ∈ (← taintsOf result) then annotate result .hashedRole
      if .caller ∈ (← taintsOf result) then annotate result .hashedCaller : Recall Unit) := by
    refine .bind (safe_taintsOf result).lift fun taints => ?_
    split
    · exact .bind (safe_annotate result _).lift fun _ =>
        .bind (safe_taintsOf result).lift fun taints => hmark _ _ taints
    · exact .bind (safe_taintsOf result).lift fun taints => hmark _ _ taints
  refine .bind safe_get fun s => ?_
  dsimp only
  split
  · refine .bind (safe_annotate result _).lift fun _ => .bind (safe_remember _) fun _ => ?_
    split
    · exact .bind (safe_remember _) fun _ => hrest
    · exact hrest
  · exact hrest

theorem cautious_shiftWords (hfirst : .current 0 ∈ places) (hsecond : .current 1 ∈ places) :
    Cautious e places (shiftWords e) := by
  refine (looks_item hfirst).lift.bind fun top => (looks_item hsecond).lift.bind fun second =>
    Safe.cautious ?_
  refine .bind (safe_taintsOf top).lift fun a => .bind (safe_taintsOf second).lift fun b => ?_
  dsimp only
  split
  · exact safe_remember _
  · exact safe_pure _

theorem cautious_matchMemory (hfirst : .current 0 ∈ places) (hsecond : .current 1 ∈ places) :
    Cautious e places (matchMemory e) := by
  refine (looks_item hfirst).lift.bind fun offset => (looks_item hsecond).lift.bind fun length =>
    Safe.cautious ?_
  dsimp only
  split
  · split
    · exact safe_remember _
    · exact safe_pure _
  · exact safe_pure _

theorem cautious_markLoad (hframe : e.previous = some frame) (hkey : .previous 0 ∈ places)
    (hresult : .current 0 ∈ places) : Cautious e places (markLoad e frame) := by
  refine (looks_itemOf hframe hkey).lift.bind fun key => (looks_taintsOf key).lift.bind
    fun taints => ?_
  split
  · exact (looks_item hresult).lift.bind fun result => (Safe.bind (safe_annotate result _).lift
      fun _ => (safe_annotate result _).lift).cautious
  · exact (safe_pure _).cautious

theorem cautious_inspectBranch (h : .current 1 ∈ places) :
    Cautious e places (inspectBranch e) := by
  refine (looks_item h).lift.bind fun v => (looks_taintsOf v).lift.bind fun condition =>
    Safe.cautious ?_
  split
  · refine .bind safe_get fun s => ?_
    dsimp only
    have hend : Safe (do
        remember fun m => { m with words := ∅ }
        return some ⟨e.state.functionName, none, none⟩ : Recall (Option Finding)) :=
      .bind (safe_remember _) fun _ => safe_pure _
    split
    · exact .bind (safe_remember _) fun _ => .bind (safe_say _).lift fun _ =>
        .bind (safe_say _).lift fun _ => hend
    · exact hend
  · exact safe_pure _

theorem cautious_observe : Cautious e (Pattern.roles.places e) (observe e) := by
  unfold observe
  split
  · next h =>
    split
    · next hop =>
      rw [Pattern.places_post _ h hop]
      exact (looks_item (by decide)).lift.bind fun v =>
        (safe_annotate v _).lift.cautious.bind_safe fun _ => safe_pure _
    · next hop =>
      rw [Pattern.places_post _ h hop]
      exact (cautious_markHash (by decide)).bind_safe fun _ => safe_pure _
    · next hop hframe =>
      rw [Pattern.places_post _ h hop]
      exact (cautious_markLoad hframe (by decide) (by decide)).bind_safe fun _ => safe_pure _
    · exact (safe_pure _).cautious
  · next h =>
    split
    · exact ((safe_markRole e).bind fun _ => safe_pure _).cautious
    · next hop =>
      rw [Pattern.places_pre _ h hop]
      exact (cautious_shiftWords (by decide) (by decide)).bind_safe fun _ => safe_pure _
    · next hop =>
      rw [Pattern.places_pre _ h hop]
      exact (cautious_matchMemory (by decide) (by decide)).bind_safe fun _ => safe_pure _
    · next hop =>
      rw [Pattern.places_pre _ h hop]
      exact cautious_inspectBranch (by decide)
    · exact (safe_pure _).cautious

end Roles

end

/-- **Strategies are cautious.** -/
theorem Strategy.observe_error {e : Event} {st : Strategy} {l : Ledger} {u : Underflow}
    {s : Strategy × Ledger} (h : observe e (st, l) = .error u s) :
    s = (st, l) ∧ ∃ p ∈ st.pattern.places e, e.Lacks p u := by
  cases st with
  | ownership ceiling => exact (Ownership.cautious_observe ceiling).besides _ _ _ h
  | hashLock maxLength => exact (HashLock.cautious_observe maxLength).besides _ _ _ h
  | multipleAuthorization ceiling =>
    exact (MultipleAuthorization.cautious_observe ceiling).besides _ _ _ h
  | xConfirmation => exact XConfirmation.cautious_observe.besides _ _ _ h
  | roles memo =>
    simp only [observe] at h
    split at h
    · cases h
    · next hrun =>
      cases h
      obtain ⟨hkept, hlacks⟩ := Roles.cautious_observe _ _ _ hrun
      cases hkept
      exact ⟨rfl, hlacks⟩
  | offChainSecret | singleOwner => cases h

/-- **A detector that fails leaves all as it was.** A place that it looks at is missing, which the
error reports. The detector has not changed, and neither have the taints: all that is left is the
message with which the look began. -/
theorem Detector.execute_error {e : Event} {d : Detector} {l : Ledger} {u : Underflow}
    {s : Detector × Ledger} (h : execute e (d, l) = .error u s) :
    (∃ p ∈ d.pattern.places e, e.Lacks p u) ∧ u.actual < u.required ∧
      s.1 = d ∧ s.2.taints = l.taints ∧ s.2 = l.say (.executing d.pattern.title) := by
  simp only [execute] at h
  split at h
  · cases h
  · split at h
    · split at h
      · cases h
      · cases h
      · next hrun =>
        cases h
        obtain ⟨hkept, p, hp, hlacks⟩ := Strategy.observe_error hrun
        cases hkept
        exact ⟨⟨p, hp, hlacks⟩, hlacks.actual_lt_required, rfl, rfl, rfl⟩
    · cases h

/-- A storage read without a slot, next to a result. -/
def Event.slotless : Event where
  phase := .post
  state := ⟨⟨1, .jumpi, none⟩, [⟨.const 7, 0⟩], {}, "guarded()", []⟩
  previous := some ⟨⟨0, .sload, none⟩, []⟩

/-- A hash lock misses the slot of a storage read, and leaves the result without a mark. -/
theorem Detector.execute_error_slotless :
    ∃ s : Detector × Ledger,
      execute .slotless (⟨.hashLock 32, ∅, []⟩, { taints := Taints.annotate {} 0 .input }) =
        .error ⟨.sload, 0, 1, 0⟩ s ∧ s.2.taints = Taints.annotate {} 0 .input := by
  have h : execute .slotless (⟨.hashLock 32, ∅, []⟩, { taints := Taints.annotate {} 0 .input }) =
      .error ⟨.sload, 0, 1, 0⟩ (⟨.hashLock 32, ∅, []⟩,
        { taints := Taints.annotate {} 0 .input
          log := [.executing Pattern.hashLock.title] }) := rfl
  exact ⟨_, h, (Detector.execute_error h).2.2.2.1⟩

end GuardFinder

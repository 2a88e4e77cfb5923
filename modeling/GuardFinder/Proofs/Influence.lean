import GuardFinder.Proofs.Signals
import Mathlib.Data.List.Sort

/-!
# What strategies look at

A strategy looks at a few kinds of taints of the values it is shown, and changes taints of these
values only. Taints of other kinds, and those of other values, do not matter to it.

* `Strategy.Decides`, `Strategy.Judges`: the taints that a strategy edits by, and those that it
  finds guards by.
* `Strategy.mem_edits`: a strategy edits what it is shown, and no taints but its own and the marks.
* `Strategy.edits_congr`, `Strategy.next_congr`, `Strategy.finding?_congr`: **nothing else
  matters to it**.
-/

namespace GuardFinder

/-! ### Sets of taints -/

namespace TaintSet

variable {s t : TaintSet}

/-- Sorted lists of taints with the same members are equal. -/
theorem eq_of_mem_iff {l l' : List Taint} (hl : l.Pairwise (· < ·)) (hl' : l'.Pairwise (· < ·))
    (h : ∀ a, a ∈ l ↔ a ∈ l') : l = l' := by
  have : Std.Antisymm (α := Taint) (· < ·) :=
    ⟨fun a b hab hba => absurd (Taint.lt_trans hab hba) (Taint.lt_irrefl a)⟩
  have : Std.Irrefl (α := Taint) (· < ·) := ⟨Taint.lt_irrefl⟩
  exact hl.eq_of_mem_iff hl' h

theorem ext (h : ∀ a, a ∈ s ↔ a ∈ t) : s = t := by
  obtain ⟨l, hl⟩ := s
  obtain ⟨l', hl'⟩ := t
  obtain rfl : l = l' := eq_of_mem_iff hl hl' h
  rfl

/-- The first answer from a set depends on the members that give one. -/
theorem findSome?_congr {α : Type} {f : Taint → Option α}
    (h : ∀ a, (f a).isSome = true → (a ∈ s ↔ a ∈ t)) :
    s.toList.findSome? f = t.toList.findSome? f := by
  have hfilter (l : List Taint) : l.findSome? f = (l.filter (f · |>.isSome)).findSome? f := by
    induction l with
    | nil => rfl
    | cons a l ih =>
      cases ha : f a with
      | none =>
        rw [List.findSome?_cons_of_isNone (by simp [ha]), List.filter_cons_of_neg (by simp [ha]),
          ih]
      | some b => simp [ha]
  have hlists : s.toList.filter (f · |>.isSome) = t.toList.filter (f · |>.isSome) := by
    refine eq_of_mem_iff (s.sorted.filter _) (t.sorted.filter _) fun a => ?_
    simp only [List.mem_filter]
    exact and_congr_left (h a)
  rw [hfilter, hlists, ← hfilter]

theorem any_congr {f : Taint → Bool} (h : ∀ a, f a = true → (a ∈ s ↔ a ∈ t)) :
    s.toList.any f = t.toList.any f := by
  rw [Bool.eq_iff_iff, List.any_eq_true, List.any_eq_true]
  exact exists_congr fun a => and_congr_left (h a)

theorem hasAny_congr {candidates : List Taint} (h : ∀ a ∈ candidates, (a ∈ s ↔ a ∈ t)) :
    s.hasAny candidates = t.hasAny candidates := by
  rw [hasAny, hasAny, Bool.eq_iff_iff, List.any_eq_true, List.any_eq_true]
  simp only [decide_eq_true_eq]
  exact exists_congr fun a => and_congr_right (h a)

theorem hasAll_congr {candidates : List Taint} (h : ∀ a ∈ candidates, (a ∈ s ↔ a ∈ t)) :
    s.hasAll candidates = t.hasAll candidates := by
  rw [hasAll, hasAll, Bool.eq_iff_iff, List.all_eq_true, List.all_eq_true]
  simp only [decide_eq_true_eq]
  exact forall₂_congr h

theorem slotBelow?_congr {ceiling : Word}
    (h : ∀ slot < ceiling, (.storage (some slot) ∈ s ↔ .storage (some slot) ∈ t)) :
    s.slotBelow? ceiling = t.slotBelow? ceiling := by
  refine findSome?_congr fun a ha => ?_
  obtain ⟨slot, hslot⟩ := Option.isSome_iff_exists.mp ha
  obtain ⟨hslot, hlt⟩ := Option.filter_eq_some_iff.mp hslot
  cases a with
  | storage slot? =>
    obtain rfl : slot? = some slot := hslot
    exact h slot (of_decide_eq_true hlt)
  | _ => cases hslot

theorem slot?_congr (h : ∀ slot, .storage (some slot) ∈ s ↔ .storage (some slot) ∈ t) :
    s.slot? = t.slot? := by
  refine findSome?_congr fun a ha => ?_
  obtain ⟨slot, hslot⟩ := Option.isSome_iff_exists.mp ha
  cases a with
  | storage slot? =>
    obtain rfl : slot? = some slot := hslot
    exact h slot
  | _ => cases hslot

end TaintSet

/-! ### Kinds of taints -/

namespace Strategy

/-- The taints that decide what a strategy edits and remembers. -/
def Decides (st : Strategy) (a : Taint) : Prop :=
  match st, a with
  | ownership _, .caller => True
  | ownership ceiling, .storage (some slot) => slot < ceiling
  | hashLock _, .input | hashLock _, .hashedInput => True
  | roles _, .caller | roles _, .role | roles _, .hashedRole | roles _, .hashedCaller => True
  | multipleAuthorization ceiling, .storage (some slot) => slot < ceiling
  | xConfirmation, .blockNumber | xConfirmation, .storage _ => True
  | _, _ => False

/-- The taints of a condition that make a branch on it a guard. -/
def Judges (st : Strategy) (a : Taint) : Prop :=
  match st, a with
  | ownership _, .equality _ => True
  | hashLock _, .hashedStorage | hashLock _, .hashedInputEq => True
  | roles _, .hashedRole | roles _, .hashedCaller => True
  | multipleAuthorization _, .storageComparison .. => True
  | xConfirmation, .comparison _ => True
  | _, _ => False

/-- The taints of a condition that name the slot of a guard. -/
def Names (st : Strategy) (a : Taint) : Prop :=
  match st, a with
  | ownership ceiling, .storage (some slot) => slot < ceiling
  | hashLock _, .storage (some _) | xConfirmation, .storage (some _) => True
  | _, _ => False

/-- All taints that matter to a strategy. -/
def Reads (st : Strategy) (a : Taint) : Prop := st.Decides a ∨ st.Judges a ∨ st.Names a

end Strategy

/-- The marks that several detectors make and read. -/
inductive Mark
  | caller
  | storage
  deriving DecidableEq, Repr

/-- The marks that the detector for a pattern makes and reads. -/
def Pattern.marks : Pattern → List Mark
  | ownership => [.caller, .storage]
  | roles => [.caller]
  | hashLock | multipleAuthorization | xConfirmation => [.storage]
  | offChainSecret | singleOwner => []

/-- What a taint is used as: a mark, or by the detector for one pattern only. -/
inductive Use
  | mark (m : Mark)
  | only (p : Pattern)
  deriving DecidableEq, Repr

/-- What a taint is used as. -/
def Taint.use : Taint → Use
  | caller => .mark .caller
  | storage (some _) => .mark .storage
  | equality _ => .only .ownership
  | input | hashedInput | hashedInputEq | hashedStorage => .only .hashLock
  | role | hashedRole | hashedCaller => .only .roles
  | storageComparison .. => .only .multipleAuthorization
  | blockNumber | comparison _ | storage none => .only .xConfirmation

/-- The detector for a pattern has to do with a taint. -/
def Pattern.Handles (p : Pattern) (a : Taint) : Prop :=
  match a.use with
  | .mark m => m ∈ p.marks
  | .only q => q = p

theorem Strategy.Reads.handles {st : Strategy} {a : Taint} (h : st.Reads a) :
    st.pattern.Handles a := by
  rcases h with h | h | h
  · unfold Decides at h
    split at h
    case h_11 slot => cases slot <;> simp [Pattern.Handles, Taint.use, pattern, Pattern.marks]
    all_goals simp_all [Pattern.Handles, Taint.use, pattern, Pattern.marks]
  · unfold Judges at h
    split at h
    all_goals simp_all [Pattern.Handles, Taint.use, pattern]
  · unfold Names at h
    split at h
    all_goals simp_all [Pattern.Handles, Taint.use, pattern, Pattern.marks]

variable {τ τ' : Taints} {s : Sight} {st : Strategy} {reads : Taint → Prop}

/-! ### Strategies see nothing else -/

theorem Taints.AgreeAt.mono {tag : Nat} (h : τ.AgreeAt reads τ' tag) {fewer : Taint → Prop}
    (hfewer : ∀ a, fewer a → reads a) : τ.AgreeAt fewer τ' tag :=
  fun a ha => h a (hfewer a ha)

/-- Taints agree on all that is shown. -/
def Sight.Agree (s : Sight) (reads : Taint → Prop) (τ τ' : Taints) : Prop :=
  ∀ tag, s.Shows tag → τ.AgreeAt reads τ' tag

theorem Sight.Agree.mono (h : s.Agree reads τ τ') {fewer : Taint → Prop}
    (hfewer : ∀ a, fewer a → reads a) : s.Agree fewer τ τ' :=
  fun tag hshows => (h tag hshows).mono hfewer

namespace Sight

variable {a b : Item} {rest : List Item}

theorem shows_result (h : s.stack = a :: rest) : s.Shows a.tag :=
  ⟨a, List.mem_append_right _ (h ▸ List.mem_cons_self), rfl⟩

theorem shows_first (h : s.args = a :: rest) : s.Shows a.tag :=
  ⟨a, List.mem_append_left _ (h ▸ List.mem_cons_self), rfl⟩

theorem shows_second (h : s.args = a :: b :: rest) : s.Shows b.tag :=
  ⟨b, List.mem_append_left _ (h ▸ List.mem_cons_of_mem _ List.mem_cons_self), rfl⟩

end Sight

namespace Ownership

theorem comparisonMarks_congr {ceiling : Word} {a b : Nat}
    (ha : τ.AgreeAt (Strategy.ownership ceiling).Decides τ' a)
    (hb : τ.AgreeAt (Strategy.ownership ceiling).Decides τ' b) :
    comparisonMarks ceiling τ a b = comparisonMarks ceiling τ' a b := by
  have hslot {tag : Nat} (h : τ.AgreeAt (Strategy.ownership ceiling).Decides τ' tag) :
      (τ.get tag).slotBelow? ceiling = (τ'.get tag).slotBelow? ceiling :=
    TaintSet.slotBelow?_congr fun slot hlt => h (.storage (some slot)) hlt
  simp only [comparisonMarks, ha .caller trivial, hb .caller trivial, hslot ha, hslot hb]

theorem edits_congr {ceiling : Word} (h : s.Agree (Strategy.ownership ceiling).Decides τ τ') :
    edits ceiling τ s = edits ceiling τ' s := by
  unfold edits
  split
  · rfl
  · rfl
  · next hargs =>
    exact comparisonMarks_congr (h _ (Sight.shows_first hargs)) (h _ (Sight.shows_second hargs))
  · rfl

end Ownership

theorem HashLock.edits_congr {maxLength : Nat}
    (h : s.Agree (Strategy.hashLock maxLength).Decides τ τ') :
    edits maxLength τ s = edits maxLength τ' s := by
  unfold edits
  split
  · rfl
  · next hstack => simp only [h _ (Sight.shows_result hstack) .input trivial]
  · next hargs _ => simp only [h _ (Sight.shows_first hargs) .hashedInput trivial]
  · next hstack => simp only [h _ (Sight.shows_result hstack) .hashedInput trivial]
  · rfl

namespace MultipleAuthorization

theorem comparisonMarks_congr {ceiling : Word} {a b : Nat} (result : Nat)
    (ha : τ.AgreeAt (Strategy.multipleAuthorization ceiling).Decides τ' a)
    (hb : τ.AgreeAt (Strategy.multipleAuthorization ceiling).Decides τ' b) :
    comparisonMarks ceiling τ a b result = comparisonMarks ceiling τ' a b result := by
  have hslot {tag : Nat} (h : τ.AgreeAt (Strategy.multipleAuthorization ceiling).Decides τ' tag) :
      (τ.get tag).slotBelow? ceiling = (τ'.get tag).slotBelow? ceiling :=
    TaintSet.slotBelow?_congr fun slot hlt => h (.storage (some slot)) hlt
  simp only [comparisonMarks, hslot ha, hslot hb]

theorem edits_congr {ceiling : Word}
    (h : s.Agree (Strategy.multipleAuthorization ceiling).Decides τ τ') :
    edits ceiling τ s = edits ceiling τ' s := by
  unfold edits
  split
  · rfl
  · next hargs _ =>
    exact comparisonMarks_congr _ (h _ (Sight.shows_first hargs)) (h _ (Sight.shows_second hargs))
  · next hargs _ =>
    exact comparisonMarks_congr _ (h _ (Sight.shows_first hargs)) (h _ (Sight.shows_second hargs))
  · rfl

end MultipleAuthorization

namespace XConfirmation

theorem comparisonMarks_congr {a b : Nat} (ha : τ.AgreeAt Strategy.xConfirmation.Decides τ' a)
    (hb : τ.AgreeAt Strategy.xConfirmation.Decides τ' b) :
    comparisonMarks τ a b = comparisonMarks τ' a b := by
  have hstorage {tag : Nat} (h : τ.AgreeAt Strategy.xConfirmation.Decides τ' tag) :
      (τ.get tag).toList.any Taint.isStorage = (τ'.get tag).toList.any Taint.isStorage := by
    refine TaintSet.any_congr fun a ha => ?_
    cases a with
    | storage slot => exact h (.storage slot) trivial
    | _ => cases ha
  simp only [comparisonMarks, ha .blockNumber trivial, hb .blockNumber trivial, hstorage ha,
    hstorage hb]

theorem edits_congr (h : s.Agree Strategy.xConfirmation.Decides τ τ') :
    edits τ s = edits τ' s := by
  unfold edits
  split
  · rfl
  · rfl
  iterate 3
    · next hargs =>
      exact comparisonMarks_congr (h _ (Sight.shows_first hargs)) (h _ (Sight.shows_second hargs))
  · rfl

end XConfirmation

namespace Roles

variable {memo : Memo} {top second : Item}

theorem candidate?_congr (htop : τ.AgreeAt (Strategy.roles memo).Decides τ' top.tag)
    (hsecond : τ.AgreeAt (Strategy.roles memo).Decides τ' second.tag) :
    candidate? τ top second = candidate? τ' top second := by
  simp only [candidate?, htop .caller trivial, hsecond .caller trivial]

theorem distance?_congr (htop : τ.AgreeAt (Strategy.roles memo).Decides τ' top.tag)
    (hsecond : τ.AgreeAt (Strategy.roles memo).Decides τ' second.tag) :
    distance? τ top second = distance? τ' top second := by
  have hroles {tag : Nat} (h : τ.AgreeAt (Strategy.roles memo).Decides τ' tag) :
      (τ.get tag).hasAny [.role, .hashedRole] = (τ'.get tag).hasAny [.role, .hashedRole] :=
    TaintSet.hasAny_congr (by simp [h .role trivial, h .hashedRole trivial])
  simp only [distance?, hroles htop, hroles hsecond]

theorem hashed_congr {tag : Nat} (h : τ.AgreeAt (Strategy.roles memo).Decides τ' tag) :
    (τ.get tag).hasAll [.hashedCaller, .hashedRole] =
      (τ'.get tag).hasAll [.hashedCaller, .hashedRole] :=
  TaintSet.hasAll_congr (by simp [h .hashedCaller trivial, h .hashedRole trivial])

theorem edits_congr (h : s.Agree (Strategy.roles memo).Decides τ τ') :
    edits memo τ s = edits memo τ' s := by
  unfold edits
  split
  · rfl
  · next hstack =>
    have hresult := h _ (Sight.shows_result hstack)
    simp only [hresult .role trivial, hresult .caller trivial]
  · next hargs _ => rw [hashed_congr (h _ (Sight.shows_first hargs))]
  · next hargs =>
    rw [candidate?_congr (h _ (Sight.shows_first hargs)) (h _ (Sight.shows_second hargs))]
  · rfl

theorem next_congr (h : s.Agree (Strategy.roles memo).Decides τ τ') :
    next memo τ s = next memo τ' s := by
  unfold next
  split
  · rfl
  · next hargs =>
    rw [candidate?_congr (h _ (Sight.shows_first hargs)) (h _ (Sight.shows_second hargs))]
  · next hargs =>
    rw [distance?_congr (h _ (Sight.shows_first hargs)) (h _ (Sight.shows_second hargs))]
  · rfl
  · next hargs => rw [hashed_congr (h _ (Sight.shows_second hargs))]
  · rfl

end Roles

namespace Strategy

/-- **A strategy edits by the taints that decide for it.** -/
theorem edits_congr (h : s.Agree st.Decides τ τ') : st.edits τ s = st.edits τ' s := by
  cases st with
  | ownership ceiling => exact Ownership.edits_congr h
  | hashLock maxLength => exact HashLock.edits_congr h
  | roles memo => exact Roles.edits_congr h
  | multipleAuthorization ceiling => exact MultipleAuthorization.edits_congr h
  | xConfirmation => exact XConfirmation.edits_congr h
  | offChainSecret | singleOwner => rfl

theorem next_congr (h : s.Agree st.Decides τ τ') : st.next τ s = st.next τ' s := by
  cases st with
  | roles memo => exact congrArg roles (Roles.next_congr h)
  | _ => rfl

theorem isGuard_congr {tag : Nat} (h : τ.AgreeAt st.Judges τ' tag) :
    st.isGuard (τ.get tag) = st.isGuard (τ'.get tag) := by
  cases st with
  | ownership ceiling =>
    exact TaintSet.hasAll_congr (by simp [h (.equality _) trivial])
  | hashLock maxLength =>
    exact TaintSet.hasAny_congr (by simp [h .hashedStorage trivial, h .hashedInputEq trivial])
  | roles memo =>
    exact TaintSet.hasAll_congr (by simp [h .hashedCaller trivial, h .hashedRole trivial])
  | multipleAuthorization ceiling =>
    refine TaintSet.any_congr fun a ha => ?_
    cases a with
    | storageComparison left right => exact h (.storageComparison left right) trivial
    | _ => cases ha
  | xConfirmation =>
    exact TaintSet.hasAll_congr (by simp [h (.comparison _) trivial])
  | offChainSecret | singleOwner => rfl

theorem guardSlot?_congr {tag : Nat} (h : τ.AgreeAt st.Names τ' tag) :
    st.guardSlot? (τ.get tag) = st.guardSlot? (τ'.get tag) := by
  cases st with
  | ownership ceiling =>
    exact TaintSet.slotBelow?_congr fun slot hlt => h (.storage (some slot)) hlt
  | hashLock maxLength => exact TaintSet.slot?_congr fun slot => h (.storage (some slot)) trivial
  | xConfirmation => exact TaintSet.slot?_congr fun slot => h (.storage (some slot)) trivial
  | _ => rfl

/-- **A strategy finds by the taints of conditions.** -/
theorem finding?_congr (hjudges : s.Agree st.Judges τ τ') (hnames : s.Agree st.Names τ τ') :
    st.finding? τ s = st.finding? τ' s := by
  unfold finding?
  split
  · next hargs =>
    rw [isGuard_congr (hjudges _ (Sight.shows_second hargs)),
      guardSlot?_congr (hnames _ (Sight.shows_second hargs))]
  · rfl

end Strategy

/-! ### Strategies change nothing else -/

theorem Item.mem_slotMarks {result key : Item} {edit : Edit} :
    edit ∈ result.slotMarks key ↔
      ∃ slot, key.const? = some slot ∧ edit = .put result.tag (.storage (some slot)) := by
  simp only [slotMarks, List.mem_map, Option.mem_toList, eq_comm]

section

variable {edit : Edit}

theorem Ownership.mem_comparisonMarks {ceiling : Word} {a b : Nat}
    (h : edit ∈ comparisonMarks ceiling τ a b) :
    ∃ actor, edit = .put a (.equality actor) ∨ edit = .put b (.equality actor) := by
  unfold comparisonMarks at h
  split at h
  · simp only [List.mem_cons, List.not_mem_nil, or_false] at h
    exact h.elim (fun h => ⟨_, .inl h⟩) fun h => ⟨_, .inr h⟩
  · split at h
    · simp only [List.mem_cons, List.not_mem_nil, or_false] at h
      exact h.elim (fun h => ⟨_, .inr h⟩) fun h => ⟨_, .inl h⟩
    · exact absurd h List.not_mem_nil

theorem XConfirmation.mem_comparisonMarks {a b : Nat} (h : edit ∈ comparisonMarks τ a b) :
    ∃ item, edit = .put a (.comparison item) ∨ edit = .put b (.comparison item) := by
  unfold comparisonMarks at h
  split at h
  · simp only [List.mem_cons, List.not_mem_nil, or_false] at h
    exact h.elim (fun h => ⟨_, .inl h⟩) fun h => ⟨_, .inr h⟩
  · split at h
    · simp only [List.mem_cons, List.not_mem_nil, or_false] at h
      exact h.elim (fun h => ⟨_, .inr h⟩) fun h => ⟨_, .inl h⟩
    · exact absurd h List.not_mem_nil

theorem MultipleAuthorization.mem_comparisonMarks {ceiling : Word} {a b result : Nat}
    (h : edit ∈ comparisonMarks ceiling τ a b result) :
    ∃ left right, edit = .put result (.storageComparison left right) ∨
      edit = .drop result (.storage (some left)) := by
  unfold comparisonMarks at h
  split at h
  · next left right _ _ =>
    simp only [List.mem_cons, List.not_mem_nil, or_false] at h
    rcases h with h | h | h
    · exact ⟨left, left, .inr h⟩
    · exact ⟨right, right, .inr h⟩
    · exact ⟨left, right, .inl h⟩
  · exact absurd h List.not_mem_nil

/-- The marks on what was read from the environment or from a known slot. -/
def Sight.marks (s : Sight) : List Edit :=
  match s.phase, s.opcode, s.args, s.stack with
  | .post, .caller, _, result :: _ => [.put result.tag .caller]
  | .post, .sload, key :: _, result :: _ => result.slotMarks key
  | _, _, _, _ => []

theorem Sight.put_of_mem_marks (h : edit ∈ s.marks) : ∃ tag a, edit = .put tag a := by
  unfold marks at h
  split at h
  · exact ⟨_, _, List.mem_singleton.mp h⟩
  · obtain ⟨slot, -, heq⟩ := Item.mem_slotMarks.mp h
    exact ⟨_, _, heq⟩
  · exact absurd h List.not_mem_nil

/-- An edit that takes the mark of a slot from the result. -/
def Sight.Takes (s : Sight) (edit : Edit) : Prop :=
  ∃ result rest slot, s.stack = result :: rest ∧ edit = .drop result.tag (.storage (some slot))

namespace Sight

variable {key result : Item} {args rest : List Item}

theorem marks_caller (hphase : s.phase = .post) (hop : s.opcode = .caller)
    (hstack : s.stack = result :: rest) : s.marks = [.put result.tag .caller] := by
  obtain ⟨phase, op, name, args, stack, word?⟩ := s
  obtain rfl : phase = .post := hphase
  obtain rfl : op = .caller := hop
  obtain rfl : stack = result :: rest := hstack
  rfl

theorem marks_load (hphase : s.phase = .post) (hop : s.opcode = .sload)
    (hargs : s.args = key :: args) (hstack : s.stack = result :: rest) :
    s.marks = result.slotMarks key := by
  obtain ⟨phase, op, name, args, stack, word?⟩ := s
  obtain rfl : phase = .post := hphase
  obtain rfl : op = .sload := hop
  obtain rfl : args = key :: _ := hargs
  obtain rfl : stack = result :: rest := hstack
  rfl

end Sight

namespace Strategy

/-- An edit that a strategy may make at a sight: of a value that is shown, and of a taint that is
its own or a mark. Edits of marks are those of the sight, but one strategy also takes them away. -/
structure May (st : Strategy) (s : Sight) (edit : Edit) : Prop where
  shows : s.Shows edit.tag
  handles : st.pattern.Handles edit.taint
  marks : edit.taint.use = .only st.pattern ∨ edit ∈ s.marks ∨
    st.pattern = .multipleAuthorization ∧ s.Takes edit

variable {key result : Item} {args rest : List Item}

theorem May.own (hshows : s.Shows edit.tag) (huse : edit.taint.use = .only st.pattern) :
    st.May s edit where
  shows := hshows
  handles := by rw [Pattern.Handles, huse]
  marks := .inl huse

theorem May.caller (hphase : s.phase = .post) (hop : s.opcode = .caller)
    (hstack : s.stack = result :: rest) (hmarks : .caller ∈ st.pattern.marks) :
    st.May s (.put result.tag .caller) where
  shows := Sight.shows_result hstack
  handles := hmarks
  marks := by
    rw [Sight.marks_caller hphase hop hstack]
    exact .inr (.inl List.mem_cons_self)

theorem May.load (hphase : s.phase = .post) (hop : s.opcode = .sload)
    (hargs : s.args = key :: args) (hstack : s.stack = result :: rest)
    (hmarks : .storage ∈ st.pattern.marks) (h : edit ∈ result.slotMarks key) : st.May s edit := by
  have hmem : edit ∈ s.marks := Sight.marks_load hphase hop hargs hstack ▸ h
  obtain ⟨slot, -, rfl⟩ := Item.mem_slotMarks.mp h
  exact ⟨Sight.shows_result hstack, hmarks, .inr (.inl hmem)⟩

end Strategy

theorem Ownership.mem_edits {ceiling : Word} (h : edit ∈ edits ceiling τ s) :
    (Strategy.ownership ceiling).May s edit := by
  unfold edits at h
  split at h
  · next hphase hop hstack =>
    rw [List.mem_singleton.mp h]
    exact .caller hphase hop hstack List.mem_cons_self
  · next hphase hop hargs hstack =>
    exact .load hphase hop hargs hstack (List.mem_cons_of_mem _ List.mem_cons_self) h
  · next hargs =>
    obtain ⟨actor, rfl | rfl⟩ := mem_comparisonMarks h
    · exact .own (Sight.shows_first hargs) rfl
    · exact .own (Sight.shows_second hargs) rfl
  · exact absurd h List.not_mem_nil

theorem HashLock.mem_edits {maxLength : Nat} (h : edit ∈ edits maxLength τ s) :
    (Strategy.hashLock maxLength).May s edit := by
  unfold edits at h
  split at h
  · next hstack =>
    rw [List.mem_singleton.mp h]
    exact .own (Sight.shows_result hstack) rfl
  · next hstack =>
    split at h
    · rcases List.mem_cons.mp h with rfl | h
      · exact .own (Sight.shows_result hstack) rfl
      · rw [List.mem_ite_nil_right, List.mem_singleton] at h
        rw [h.2]
        exact .own (Sight.shows_result hstack) rfl
    · exact absurd h List.not_mem_nil
  · next hphase hop hargs hstack =>
    rcases List.mem_append.mp h with h | h
    · exact .load hphase hop hargs hstack List.mem_cons_self h
    · rw [List.mem_ite_nil_right, List.mem_singleton] at h
      rw [h.2]
      exact .own (Sight.shows_result hstack) rfl
  · next hstack =>
    rw [List.mem_ite_nil_right, List.mem_singleton] at h
    rw [h.2]
    exact .own (Sight.shows_result hstack) rfl
  · exact absurd h List.not_mem_nil

theorem MultipleAuthorization.mem_edits {ceiling : Word} (h : edit ∈ edits ceiling τ s) :
    (Strategy.multipleAuthorization ceiling).May s edit := by
  have hcomparison {a b : Nat} {result : Item} {rest : List Item}
      (hstack : s.stack = result :: rest) (h : edit ∈ comparisonMarks ceiling τ a b result.tag) :
      (Strategy.multipleAuthorization ceiling).May s edit := by
    obtain ⟨left, right, rfl | rfl⟩ := mem_comparisonMarks h
    · exact .own (Sight.shows_result hstack) rfl
    · exact ⟨Sight.shows_result hstack, List.mem_cons_self,
        .inr (.inr ⟨rfl, result, rest, left, hstack, rfl⟩)⟩
  unfold edits at h
  split at h
  · next hphase hop hargs hstack =>
    obtain ⟨slot, hslot, rfl⟩ := List.mem_map.mp h
    obtain ⟨hslot, -⟩ := Option.filter_eq_some_iff.mp (Option.mem_toList.mp hslot)
    exact .load hphase hop hargs hstack List.mem_cons_self
      (Item.mem_slotMarks.mpr ⟨slot, hslot, rfl⟩)
  · next hstack => exact hcomparison hstack h
  · next hstack => exact hcomparison hstack h
  · exact absurd h List.not_mem_nil

theorem XConfirmation.mem_edits (h : edit ∈ edits τ s) : Strategy.xConfirmation.May s edit := by
  unfold edits at h
  split at h
  · next hstack =>
    rw [List.mem_singleton.mp h]
    exact .own (Sight.shows_result hstack) rfl
  · next key _ result _ hphase hop hargs hstack =>
    rw [List.mem_singleton.mp h]
    cases hslot : key.const? with
    | none => exact .own (Sight.shows_result hstack) rfl
    | some slot =>
      exact .load hphase hop hargs hstack List.mem_cons_self
        (Item.mem_slotMarks.mpr ⟨slot, hslot, rfl⟩)
  iterate 3
    · next hargs =>
      obtain ⟨item, rfl | rfl⟩ := mem_comparisonMarks h
      · exact .own (Sight.shows_first hargs) rfl
      · exact .own (Sight.shows_second hargs) rfl
  · exact absurd h List.not_mem_nil

theorem Roles.mem_edits {memo : Memo} (h : edit ∈ edits memo τ s) :
    (Strategy.roles memo).May s edit := by
  unfold edits at h
  split at h
  · next hphase hop hstack =>
    rw [List.mem_singleton.mp h]
    exact .caller hphase hop hstack List.mem_cons_self
  · next hstack =>
    simp only [List.mem_append, List.mem_ite_nil_right, List.mem_singleton] at h
    rcases h with (⟨-, rfl⟩ | ⟨-, rfl⟩) | ⟨-, rfl⟩ <;> exact .own (Sight.shows_result hstack) rfl
  · next hstack =>
    simp only [List.mem_ite_nil_right, List.mem_cons, List.not_mem_nil, or_false] at h
    rcases h with ⟨-, rfl | rfl⟩ <;> exact .own (Sight.shows_result hstack) rfl
  · next top second rest _ _ hargs =>
    obtain ⟨item, hitem, rfl⟩ := List.mem_map.mp h
    obtain ⟨hitem, -⟩ := Option.filter_eq_some_iff.mp (Option.mem_toList.mp hitem)
    refine .own ?_ rfl
    unfold candidate? at hitem
    split at hitem
    · rw [← Option.some.inj hitem]
      exact Sight.shows_second hargs
    · split at hitem
      · rw [← Option.some.inj hitem]
        exact Sight.shows_first hargs
      · cases hitem
  · exact absurd h List.not_mem_nil

/-- **A strategy edits what it is shown**, and no taints but its own and the marks. -/
theorem Strategy.mem_edits (h : edit ∈ st.edits τ s) : st.May s edit := by
  cases st with
  | ownership ceiling => exact Ownership.mem_edits h
  | hashLock maxLength => exact HashLock.mem_edits h
  | roles memo => exact Roles.mem_edits h
  | multipleAuthorization ceiling => exact MultipleAuthorization.mem_edits h
  | xConfirmation => exact XConfirmation.mem_edits h
  | offChainSecret | singleOwner => exact absurd h List.not_mem_nil

end

/-! ### Detectors -/

theorem Taints.AgreeAt.editAll {tag : Nat} (h : τ.AgreeAt reads τ' tag) (edits : List Edit) :
    (τ.editAll edits).AgreeAt reads (τ'.editAll edits) tag := by
  induction edits generalizing τ τ' with
  | nil => exact h
  | cons edit rest ih =>
    refine ih fun a ha => ?_
    cases edit with
    | put other b => rw [mem_get_put, mem_get_put, h a ha]
    | drop other b => rw [mem_get_drop, mem_get_drop, h a ha]

/-- Detectors change taints only of tags that they see. -/
theorem Registry.local_react : react.Local := by
  rintro i s ⟨r, τ⟩ tag hshows
  unfold react
  cases r.detectors[i]? with
  | none => rfl
  | some d =>
    refine Taints.get_editAll_of_ne fun edit hedit heq => hshows ?_
    unfold Detector.edits at hedit
    split at hedit
    · exact absurd hedit List.not_mem_nil
    · rw [heq]
      exact (Strategy.mem_edits hedit).shows

/-- No strategy asks for the event after a jump. -/
theorem Strategy.not_asks_jump {op : Opcode} (hop : op = .jump ∨ op = .jumpi) :
    ¬st.Asks .post op := by
  have hlisted : .jump ∉ st.opcodes.2 ∧ .jumpi ∉ st.opcodes.2 := by
    cases st with
    | ownership =>
      exact (by decide : .jump ∉ Ownership.postOpcodes ∧ .jumpi ∉ Ownership.postOpcodes)
    | hashLock => exact (by decide : .jump ∉ HashLock.postOpcodes ∧ .jumpi ∉ HashLock.postOpcodes)
    | roles => exact (by decide : .jump ∉ Roles.postOpcodes ∧ .jumpi ∉ Roles.postOpcodes)
    | multipleAuthorization =>
      exact (by decide : .jump ∉ MultipleAuthorization.postOpcodes ∧
        .jumpi ∉ MultipleAuthorization.postOpcodes)
    | xConfirmation =>
      exact (by decide : .jump ∉ XConfirmation.postOpcodes ∧ .jumpi ∉ XConfirmation.postOpcodes)
    | offChainSecret | singleOwner => exact ⟨List.not_mem_nil, List.not_mem_nil⟩
  rcases hop with rfl | rfl
  · exact hlisted.1
  · exact hlisted.2

theorem Registry.Serves.ignoresJumps {σ : Type} {r : Registry} {x : Setting σ}
    (h : r.Serves x.hooks) : x.IgnoresJumps := by
  intro op hop
  refine List.eq_nil_iff_forall_not_mem.mpr fun i hi => ?_
  obtain ⟨d, -, hwish⟩ := h _ (mem_hooks_of_mem_subscribers hi)
  exact Strategy.not_asks_jump hop (Detector.mem_wishes.mp hwish)

namespace Detector

/-- What a detector takes for reported is what it has findings for. -/
def Coherent (d : Detector) : Prop :=
  ∀ name, d.reported.contains name = true ↔ ∃ f ∈ d.findings, f.functionName = name

theorem Coherent.withFinding {d : Detector} (h : d.Coherent) (f : Finding) :
    (d.withFinding f).Coherent := by
  intro name
  simp only [Detector.withFinding, Std.TreeSet.contains_insert, List.mem_append,
    List.mem_singleton, Bool.or_eq_true, beq_iff_eq, Std.LawfulEqCmp.compare_eq_iff_eq, h name]
  constructor
  · rintro (rfl | ⟨g, hg, hname⟩)
    · exact ⟨f, .inr rfl, rfl⟩
    · exact ⟨g, .inl hg, hname⟩
  · rintro ⟨g, hg | rfl, hname⟩
    · exact .inr ⟨g, hg, hname⟩
    · exact .inl hname

theorem Coherent.after {d : Detector} (h : d.Coherent) (τ : Taints) (s : Sight) :
    (d.after τ s).Coherent := by
  unfold Detector.after
  split
  · exact h
  · cases d.strategy.finding? τ s with
    | none => exact h
    | some f =>
      have hnext : Coherent { d with strategy := d.strategy.next τ s } := h
      exact hnext.withFinding f

theorem strategy_after (d : Detector) (τ : Taints) (s : Sight) :
    (d.after τ s).strategy =
      if d.reported.contains s.functionName then d.strategy else d.strategy.next τ s := by
  unfold Detector.after
  split
  · rfl
  · cases d.strategy.finding? τ s <;> rfl

theorem findings_after (d : Detector) (τ : Taints) (s : Sight) :
    (d.after τ s).findings =
      if d.reported.contains s.functionName then d.findings
      else d.findings ++ (d.strategy.finding? τ s).toList := by
  unfold Detector.after
  split
  · rfl
  · cases d.strategy.finding? τ s with
    | none => exact (List.append_nil _).symm
    | some f => rfl

theorem mem_findings_after (d : Detector) (τ : Taints) (s : Sight) :
    ∀ f ∈ d.findings, f ∈ (d.after τ s).findings := by
  intro f hf
  rw [findings_after]
  split
  · exact hf
  · exact List.mem_append_left _ hf

theorem coherent_reset (d : Detector) : d.reset.Coherent := by
  intro name
  simp [reset]

end Detector

end GuardFinder

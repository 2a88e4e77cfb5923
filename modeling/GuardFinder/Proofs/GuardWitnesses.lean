import GuardFinder.Proofs.Deduplication
import GuardFinder.Proofs.Emissions

/-!
# What a path has executed before a guard is found

A detector finds a guard by the taints of a condition, and each taint tells that the path has
executed certain instructions in a certain order. So nothing is found on a path that has not
executed them, whatever other detectors there are and whatever happens on other paths.

* `Pattern.witnesses`: the instructions before a guard of a pattern. `Taint.witnesses`: those
  before a value has a taint.
* `Strategy.witnessed_of_put`: a strategy puts no taint without them.
* `Analysis.findings_witnessed`: **the past of the path has the witnesses of the pattern**.
-/

namespace GuardFinder

/-! ### Instructions in order -/

/-- Instructions of a past pass tests, in the order of the tests. -/
def InOrder (tests : List (Frame → Bool)) (past : List Frame) : Prop :=
  List.SublistForall₂ (fun test f => test f = true) tests past

/-- A past has the instructions for one of several rows of tests. -/
def Witnessed (ways : List (List (Frame → Bool))) (past : List Frame) : Prop :=
  ∃ tests ∈ ways, InOrder tests past

section

variable {test test' : Frame → Bool} {tests : List (Frame → Bool)} {past : List Frame} {f : Frame}

theorem inOrder_singleton : InOrder [test] past ↔ ∃ f ∈ past, test f = true := by
  constructor
  · intro h
    obtain ⟨fs, hfs, hsub⟩ := List.sublistForall₂_iff.mp h
    obtain ⟨f, rest, hf, -, rfl⟩ := List.forall₂_cons_left_iff.mp hfs
    exact ⟨f, hsub.subset List.mem_cons_self, hf⟩
  · rintro ⟨f, hf, htest⟩
    exact List.sublistForall₂_iff.mpr
      ⟨[f], .cons htest .nil, List.singleton_sublist.mpr hf⟩

theorem InOrder.imp (h : InOrder [test] past) (htest : ∀ f, test f = true → test' f = true) :
    InOrder [test'] past := by
  obtain ⟨f, hf, hpass⟩ := inOrder_singleton.mp h
  exact inOrder_singleton.mpr ⟨f, hf, htest f hpass⟩

theorem InOrder.later (h : InOrder tests past) (f : Frame) : InOrder tests (past ++ [f]) := by
  induction h with
  | nil => exact .nil
  | cons hf _ ih => exact .cons hf ih
  | cons_right _ ih => exact .cons_right ih

theorem InOrder.concat (h : InOrder tests past) (hf : test f = true) :
    InOrder (tests ++ [test]) (past ++ [f]) := by
  induction h with
  | @nil past =>
    induction past with
    | nil => exact .cons hf .nil
    | cons g past ih => exact .cons_right ih
  | cons hg _ ih => exact .cons hg ih
  | cons_right _ ih => exact .cons_right ih

/-- An instruction that fails the last test is not needed. -/
theorem InOrder.of_concat (tests : List (Frame → Bool))
    (h : InOrder (tests ++ [test]) (past ++ [f])) (hf : test f = false) :
    InOrder (tests ++ [test]) past := by
  induction past generalizing tests with
  | nil =>
    cases tests with
    | nil =>
      cases h with
      | cons hpass _ => exact absurd hpass (Bool.eq_false_iff.mp hf)
      | cons_right h => cases h
    | cons first tests =>
      cases h with
      | cons _ h => cases tests <;> cases h
      | cons_right h => cases h
  | cons g past ih =>
    cases tests with
    | nil =>
      cases h with
      | cons hg _ => exact .cons hg .nil
      | cons_right h => exact .cons_right (ih [] h)
    | cons first tests =>
      cases h with
      | cons hg h => exact .cons hg (ih tests h)
      | cons_right h => exact .cons_right (ih (first :: tests) h)

/-- Two instructions that pass different tests come in one order or the other. -/
theorem inOrder_pair (hne : ∀ f, ¬(test f = true ∧ test' f = true)) (h : InOrder [test] past)
    (h' : InOrder [test'] past) : InOrder [test, test'] past ∨ InOrder [test', test] past := by
  induction past with
  | nil => cases h
  | cons f past ih =>
    cases h with
    | cons hf _ =>
      cases h' with
      | cons hf' _ => exact absurd ⟨hf, hf'⟩ (hne f)
      | cons_right h' => exact .inl (.cons hf h')
    | cons_right h =>
      cases h' with
      | cons hf' _ => exact .inr (.cons hf' h)
      | cons_right h' => exact (ih h h').imp .cons_right .cons_right

theorem Witnessed.later {ways : List (List (Frame → Bool))} (h : Witnessed ways past)
    (f : Frame) : Witnessed ways (past ++ [f]) := by
  obtain ⟨tests, htests, horder⟩ := h
  exact ⟨tests, htests, horder.later f⟩

theorem witnessed_singleton : Witnessed [tests] past ↔ InOrder tests past := by
  constructor
  · rintro ⟨_, hmem, h⟩
    rwa [List.mem_singleton.mp hmem] at h
  · exact fun h => ⟨tests, List.mem_cons_self, h⟩

end

/-! ### Witnesses -/

namespace Frame

/-- An instruction with one of some opcodes. -/
def isOf (ops : List Opcode) (f : Frame) : Bool := f.instruction.opcode ∈ ops

/-- A read of storage, at a known slot that passes a test. -/
def loads (test : Word → Bool) (f : Frame) : Bool :=
  f.isOf [.sload] && (f.stack.head?.bind Value.const?).any test

/-- The hash of a range, of a known length that passes a test. -/
def hashes (test : Nat → Bool) (f : Frame) : Bool :=
  f.isOf [.sha3] && (f.stack[1]?.bind Value.size?).any test

variable {f : Frame}

theorem isOf_iff {ops : List Opcode} : f.isOf ops = true ↔ f.instruction.opcode ∈ ops :=
  decide_eq_true_iff

/-- An instruction has one opcode. -/
theorem not_isOf_both {op op' : Opcode} (hne : op ≠ op') (h : f.isOf [op] = true)
    (h' : f.isOf [op'] = true) : False := by
  rw [isOf_iff, List.mem_singleton] at h h'
  exact hne (h.symm.trans h')

theorem isOf_of_loads {test : Word → Bool} (h : f.loads test = true) : f.isOf [.sload] = true :=
  (Bool.and_eq_true_iff.mp h).1

theorem not_loads {test : Word → Bool} (h : f.isOf [.sload] = false) : f.loads test = false := by
  rw [loads, h, Bool.false_and]

theorem not_hashes {test : Nat → Bool} (h : f.isOf [.sha3] = false) : f.hashes test = false := by
  rw [hashes, h, Bool.false_and]

theorem loads_mono {test test' : Word → Bool} (h : f.loads test = true)
    (htest : ∀ slot, test slot = true → test' slot = true) : f.loads test' = true := by
  obtain ⟨hop, hany⟩ := Bool.and_eq_true_iff.mp h
  refine Bool.and_eq_true_iff.mpr ⟨hop, ?_⟩
  rw [Option.any_eq_true_iff_get] at hany ⊢
  exact hany.imp fun _ => htest _

end Frame

/-- What a path has executed before a guard of a pattern. -/
def Pattern.witnesses (s : Settings) : Pattern → List (List (Frame → Bool))
  | ownership =>
    [[Frame.isOf [.caller], Frame.loads (· < s.storageIndexCeiling), Frame.isOf [.eq]],
      [Frame.loads (· < s.storageIndexCeiling), Frame.isOf [.caller], Frame.isOf [.eq]]]
  | hashLock =>
    [[Frame.isOf [.callDataLoad], Frame.hashes (· ≤ s.hashLockMaxLength),
      Frame.isOf [.eq, .sload]]]
  | xConfirmation =>
    [[Frame.isOf [.number], Frame.isOf [.sload], Frame.isOf [.eq, .lt, .gt]],
      [Frame.isOf [.sload], Frame.isOf [.number], Frame.isOf [.eq, .lt, .gt]]]
  | multipleAuthorization =>
    [[Frame.loads (· < s.storageIndexCeiling), Frame.isOf [.lt, .gt]]]
  | roles => [[Frame.isOf [.caller], Frame.isOf [.sha3]]]
  | offChainSecret | singleOwner => []

/-- What a path has executed before a value of it has a taint. -/
def Taint.witnesses (s : Settings) : Taint → List (List (Frame → Bool))
  | caller => [[Frame.isOf [.caller]]]
  | storage none => [[Frame.isOf [.sload]]]
  | storage (some slot) => [[Frame.loads (· = slot)]]
  | blockNumber => [[Frame.isOf [.number]]]
  | input => [[Frame.isOf [.callDataLoad]]]
  | hashedInput => [[Frame.isOf [.callDataLoad], Frame.hashes (· ≤ s.hashLockMaxLength)]]
  | equality _ => Pattern.ownership.witnesses s
  | hashedInputEq | hashedStorage => Pattern.hashLock.witnesses s
  | comparison _ => Pattern.xConfirmation.witnesses s
  | storageComparison .. => Pattern.multipleAuthorization.witnesses s
  | hashedCaller => Pattern.roles.witnesses s
  | role | hashedRole => [[]]

/-- All taints of a set have their witnesses in a past. -/
def Backed (s : Settings) (past : List Frame) (taints : TaintSet) : Prop :=
  ∀ a ∈ taints, Witnessed (a.witnesses s) past

namespace TaintSet

variable {taints : TaintSet} {ceiling slot : Word}

theorem mem_of_slotBelow? (h : taints.slotBelow? ceiling = some slot) :
    .storage (some slot) ∈ taints ∧ slot < ceiling := by
  obtain ⟨a, ha, hslot⟩ := List.exists_of_findSome?_eq_some h
  obtain ⟨hslot, hlt⟩ := Option.filter_eq_some_iff.mp hslot
  cases a with
  | storage slot? =>
    obtain rfl : slot? = some slot := hslot
    exact ⟨ha, of_decide_eq_true hlt⟩
  | _ => cases hslot

theorem exists_slotBelow? (h : .storage (some slot) ∈ taints) (hlt : slot < ceiling) :
    ∃ first, taints.slotBelow? ceiling = some first := by
  refine Option.isSome_iff_exists.mp (List.findSome?_isSome_iff.mpr ⟨_, h, ?_⟩)
  simp [Taint.slot?, hlt]

/-- The slot that is picked is the least one. -/
theorem slotBelow?_le {first : Word} (h : taints.slotBelow? ceiling = some first)
    (hmem : .storage (some slot) ∈ taints) (hlt : slot < ceiling) : first ≤ slot := by
  obtain ⟨before, a, after, hlist, hfirst, hnone⟩ := List.findSome?_eq_some_iff.mp h
  obtain ⟨hslot, -⟩ := Option.filter_eq_some_iff.mp hfirst
  have hsorted := taints.sorted
  rw [mem_def, hlist, List.mem_append, List.mem_cons] at hmem
  rw [hlist, List.pairwise_append, List.pairwise_cons] at hsorted
  rcases hmem with hmem | rfl | hmem
  · have hpassed := Option.filter_eq_none_iff.mp (hnone _ hmem) slot rfl
    exact absurd (decide_eq_true hlt) hpassed
  · obtain rfl : slot = first := Option.some.inj hslot
    exact BitVec.le_refl _
  · have hless := hsorted.2.1.1 _ hmem
    cases a with
    | storage slot? =>
      obtain rfl : slot? = some first := hslot
      rw [Taint.lt_def] at hless
      simp only [Taint.rank, Taint.place, Taint.slotPlace] at hless
      rw [BitVec.le_def]
      omega
    | _ => cases hslot

end TaintSet

/-! ### Strategies -/

section

variable {s : Settings} {past : List Frame} {f : Frame} {τ : Taints} {sight : Sight} {tag : Nat}
  {a : Taint}

theorem Witnessed.single {test : Frame → Bool} (hf : test f = true) :
    Witnessed [[test]] (past ++ [f]) :=
  witnessed_singleton.mpr (InOrder.concat .nil hf)

/-- A taint with one witness has it before an instruction of another kind. -/
theorem Witnessed.of_single {test : Frame → Bool} (h : Witnessed [[test]] (past ++ [f]))
    (hf : test f = false) : InOrder [test] past :=
  InOrder.of_concat [] (witnessed_singleton.mp h) hf

/-- Two witnesses in either order, and an instruction after them. -/
theorem witnessed_pair {test test' last : Frame → Bool}
    (hne : ∀ f, ¬(test f = true ∧ test' f = true)) (h : InOrder [test] past)
    (h' : InOrder [test'] past) (hf : last f = true) :
    Witnessed [[test, test', last], [test', test, last]] (past ++ [f]) := by
  rcases inOrder_pair hne h h' with horder | horder
  · exact ⟨_, List.mem_cons_self, horder.concat hf⟩
  · exact ⟨_, List.mem_cons_of_mem _ List.mem_cons_self, horder.concat hf⟩

/-- What is read from storage has been loaded, before an instruction that loads nothing. -/
theorem Witnessed.loaded {slot : Option Word}
    (h : Witnessed ((Taint.storage slot).witnesses s) (past ++ [f]))
    (hop : f.isOf [.sload] = false) : InOrder [Frame.isOf [.sload]] past := by
  cases slot with
  | none => exact h.of_single hop
  | some slot => exact (h.of_single (Frame.not_loads hop)).imp fun _ => Frame.isOf_of_loads

theorem Witnessed.loadedBelow {slot ceiling : Word}
    (h : Witnessed ((Taint.storage (some slot)).witnesses s) (past ++ [f]))
    (hop : f.isOf [.sload] = false) (hlt : slot < ceiling) :
    InOrder [Frame.loads (· < ceiling)] past := by
  refine (h.of_single (Frame.not_loads hop)).imp fun g hg => Frame.loads_mono hg fun w hw => ?_
  obtain rfl := of_decide_eq_true hw
  exact decide_eq_true hlt

namespace Sight.Of

variable {key result : Item} {args rest : List Item} {op : Opcode} {ops : List Opcode}

theorem isOf (h : sight.Of f) (hop : sight.opcode = op) (hmem : op ∈ ops) : f.isOf ops = true :=
  Frame.isOf_iff.mpr (h.opcode ▸ hop ▸ hmem)

theorem not_isOf (h : sight.Of f) (hop : sight.opcode = op) (hmem : op ∉ ops) :
    f.isOf ops = false :=
  decide_eq_false (h.opcode ▸ hop ▸ hmem)

/-- The mark of a slot that is loaded is witnessed by the load. -/
theorem witnessed_load (h : sight.Of f) (hop : sight.opcode = .sload)
    (hargs : sight.args = key :: args) {slot : Word} (hslot : key.const? = some slot) :
    Witnessed ((Taint.storage (some slot)).witnesses s) (past ++ [f]) := by
  refine .single (Bool.and_eq_true_iff.mpr ⟨h.isOf hop (by decide), ?_⟩)
  obtain ⟨v, vs, hstack, hv, -⟩ := List.map_eq_cons_iff.mp (h.args.symm.trans hargs)
  have hconst : v.const? = some slot := by
    rw [← hslot, ← hv]
    rfl
  simp [hstack, hconst]

/-- A hash of a known length passes the test of that length. -/
theorem hashes (h : sight.Of f) (hop : sight.opcode = .sha3)
    (hargs : sight.args = key :: result :: args) {test : Nat → Bool}
    (hlength : result.size?.any test = true) : f.hashes test = true := by
  refine Bool.and_eq_true_iff.mpr ⟨h.isOf hop (by decide), ?_⟩
  obtain ⟨_, vs, hstack, -, hvs⟩ := List.map_eq_cons_iff.mp (h.args.symm.trans hargs)
  obtain ⟨v, ws, rfl, hv, -⟩ := List.map_eq_cons_iff.mp hvs
  have hsize : v.size? = result.size? := by
    rw [← hv]
    rfl
  simp [hstack, hsize, hlength]

end Sight.Of

namespace Ownership

/-- Marks are put if the caller is compared with a plain slot, and the owner's goes to the slot. -/
theorem of_mem_comparisonMarks {ceiling : Word} {a b : Nat} {edit : Edit}
    (h : edit ∈ comparisonMarks ceiling τ a b) :
    ∃ x y slot, (x = a ∧ y = b ∨ x = b ∧ y = a) ∧ .caller ∈ τ.get x ∧
      .storage (some slot) ∈ τ.get y ∧ slot < ceiling ∧
      (edit = .put x (.equality .sender) ∨ edit = .put y (.equality .owner)) := by
  unfold comparisonMarks at h
  split at h
  · next hmarks =>
    obtain ⟨slot, hslot⟩ := Option.isSome_iff_exists.mp hmarks.2
    obtain ⟨hmem, hlt⟩ := TaintSet.mem_of_slotBelow? hslot
    simp only [List.mem_cons, List.not_mem_nil, or_false] at h
    exact ⟨a, b, slot, .inl ⟨rfl, rfl⟩, hmarks.1, hmem, hlt, h⟩
  · split at h
    · next hmarks =>
      obtain ⟨slot, hslot⟩ := Option.isSome_iff_exists.mp hmarks.2
      obtain ⟨hmem, hlt⟩ := TaintSet.mem_of_slotBelow? hslot
      simp only [List.mem_cons, List.not_mem_nil, or_false] at h
      exact ⟨b, a, slot, .inr ⟨rfl, rfl⟩, hmarks.1, hmem, hlt, h⟩
    · exact absurd h List.not_mem_nil

theorem witnessed_of_put (hsight : sight.Of f)
    (hbacked : ∀ tag, sight.Shows tag → Backed s (past ++ [f]) (τ.get tag))
    (h : .put tag a ∈ edits s.storageIndexCeiling τ sight) :
    Witnessed (a.witnesses s) (past ++ [f]) := by
  unfold edits at h
  split at h
  · next hop _ =>
    obtain ⟨rfl, rfl⟩ := Edit.put.inj (List.mem_singleton.mp h)
    exact .single (hsight.isOf hop (by decide))
  · next hop hargs _ =>
    obtain ⟨slot, hslot, heq⟩ := Item.mem_slotMarks.mp h
    obtain ⟨rfl, rfl⟩ := Edit.put.inj heq
    exact hsight.witnessed_load hop hargs hslot
  · next left right rest hphase hop hargs =>
    obtain ⟨x, y, slot, hxy, hcaller, hstored, hlt, hput⟩ := of_mem_comparisonMarks h
    have hshows : sight.Shows x ∧ sight.Shows y := by
      rcases hxy with ⟨rfl, rfl⟩ | ⟨rfl, rfl⟩
      · exact ⟨Sight.shows_first hargs, Sight.shows_second hargs⟩
      · exact ⟨Sight.shows_second hargs, Sight.shows_first hargs⟩
    have hread := (hbacked x hshows.1 _ hcaller).of_single (hsight.not_isOf hop (by decide))
    have hload := (hbacked y hshows.2 _ hstored).loadedBelow (hsight.not_isOf hop (by decide)) hlt
    have hpair : Witnessed (Pattern.ownership.witnesses s) (past ++ [f]) :=
      witnessed_pair (fun g hg => Frame.not_isOf_both (by decide) hg.1 (Frame.isOf_of_loads hg.2))
        hread hload (hsight.isOf hop (by decide))
    rcases hput with heq | heq
    · obtain ⟨rfl, rfl⟩ := Edit.put.inj heq
      exact hpair
    · obtain ⟨rfl, rfl⟩ := Edit.put.inj heq
      exact hpair
  · exact absurd h List.not_mem_nil

end Ownership

namespace HashLock

/-- A comparison of a hashed input, or a load from its place, completes the witnesses. -/
theorem witnessed_of_hashed (h : Witnessed (Taint.hashedInput.witnesses s) (past ++ [f]))
    (hhash : f.isOf [.sha3] = false) (hlast : f.isOf [.eq, .sload] = true) :
    Witnessed (Pattern.hashLock.witnesses s) (past ++ [f]) := by
  have hpast := InOrder.of_concat [Frame.isOf [.callDataLoad]] (witnessed_singleton.mp h)
    (Frame.not_hashes hhash)
  exact witnessed_singleton.mpr (hpast.concat hlast)

theorem witnessed_of_put (hsight : sight.Of f)
    (hbacked : ∀ tag, sight.Shows tag → Backed s (past ++ [f]) (τ.get tag))
    (h : .put tag a ∈ edits s.hashLockMaxLength τ sight) :
    Witnessed (a.witnesses s) (past ++ [f]) := by
  unfold edits at h
  split at h
  · next hop _ =>
    obtain ⟨rfl, rfl⟩ := Edit.put.inj (List.mem_singleton.mp h)
    exact .single (hsight.isOf hop (by decide))
  · next hop hargs hstack =>
    split at h
    · next hlength =>
      rcases List.mem_cons.mp h with heq | h
      · cases heq
      · rw [List.mem_ite_nil_right, List.mem_singleton] at h
        obtain ⟨rfl, rfl⟩ := Edit.put.inj h.2
        have hinput := (hbacked _ (Sight.shows_result hstack) _ h.1).of_single
          (hsight.not_isOf hop (by decide))
        exact witnessed_singleton.mpr (hinput.concat (hsight.hashes hop hargs hlength))
    · exact absurd h List.not_mem_nil
  · next hop hargs hstack =>
    rcases List.mem_append.mp h with h | h
    · obtain ⟨slot, hslot, heq⟩ := Item.mem_slotMarks.mp h
      obtain ⟨rfl, rfl⟩ := Edit.put.inj heq
      exact hsight.witnessed_load hop hargs hslot
    · rw [List.mem_ite_nil_right, List.mem_singleton] at h
      obtain ⟨rfl, rfl⟩ := Edit.put.inj h.2
      exact witnessed_of_hashed (hbacked _ (Sight.shows_first hargs) _ h.1)
        (hsight.not_isOf hop (by decide)) (hsight.isOf hop (by decide))
  · next hop hstack =>
    rw [List.mem_ite_nil_right, List.mem_singleton] at h
    obtain ⟨rfl, rfl⟩ := Edit.put.inj h.2
    exact witnessed_of_hashed (hbacked _ (Sight.shows_result hstack) _ h.1)
      (hsight.not_isOf hop (by decide)) (hsight.isOf hop (by decide))
  · exact absurd h List.not_mem_nil

end HashLock

namespace MultipleAuthorization

theorem witnessed_of_comparison {x y result : Nat} (hx : Backed s (past ++ [f]) (τ.get x))
    (hload : f.isOf [.sload] = false) (hlast : f.isOf [.lt, .gt] = true)
    (h : .put tag a ∈ comparisonMarks s.storageIndexCeiling τ x y result) :
    Witnessed (a.witnesses s) (past ++ [f]) := by
  unfold comparisonMarks at h
  split at h
  · next left right hleft _ =>
    obtain ⟨hmem, hlt⟩ := TaintSet.mem_of_slotBelow? hleft
    have hpast := (hx _ hmem).loadedBelow hload hlt
    simp only [List.mem_cons, List.not_mem_nil, or_false] at h
    rcases h with heq | heq | heq
    · cases heq
    · cases heq
    · obtain ⟨rfl, rfl⟩ := Edit.put.inj heq
      exact witnessed_singleton.mpr (hpast.concat hlast)
  · exact absurd h List.not_mem_nil

theorem witnessed_of_put (hsight : sight.Of f)
    (hbacked : ∀ tag, sight.Shows tag → Backed s (past ++ [f]) (τ.get tag))
    (h : .put tag a ∈ edits s.storageIndexCeiling τ sight) :
    Witnessed (a.witnesses s) (past ++ [f]) := by
  unfold edits at h
  split at h
  · next hop hargs _ =>
    obtain ⟨slot, hslot, heq⟩ := List.mem_map.mp h
    obtain ⟨hslot, -⟩ := Option.filter_eq_some_iff.mp (Option.mem_toList.mp hslot)
    obtain ⟨rfl, rfl⟩ := Edit.put.inj heq
    exact hsight.witnessed_load hop hargs hslot
  iterate 2
    · next hop hargs _ =>
      exact witnessed_of_comparison (hbacked _ (Sight.shows_first hargs))
        (hsight.not_isOf hop (by decide)) (hsight.isOf hop (by decide)) h
  · exact absurd h List.not_mem_nil

end MultipleAuthorization

namespace XConfirmation

/-- Marks are put if the block number is compared with what was read from storage. -/
theorem of_mem_comparisonMarks {a b : Nat} {edit : Edit} (h : edit ∈ comparisonMarks τ a b) :
    ∃ x y slot, (x = a ∧ y = b ∨ x = b ∧ y = a) ∧ .blockNumber ∈ τ.get x ∧
      .storage slot ∈ τ.get y ∧ ∃ tag item, edit = .put tag (.comparison item) := by
  have hstored {tag : Nat} (h : (τ.get tag).toList.any Taint.isStorage = true) :
      ∃ slot, .storage slot ∈ τ.get tag := by
    obtain ⟨a, ha, hstorage⟩ := List.any_eq_true.mp h
    cases a with
    | storage slot => exact ⟨slot, ha⟩
    | _ => cases hstorage
  have hedit {x y : Nat} (h : edit ∈ [.put x (.comparison .blockNumber),
      .put y (.comparison .storage)]) : ∃ tag item, edit = .put tag (.comparison item) := by
    simp only [List.mem_cons, List.not_mem_nil, or_false] at h
    exact h.elim (fun h => ⟨_, _, h⟩) fun h => ⟨_, _, h⟩
  unfold comparisonMarks at h
  split at h
  · next hmarks =>
    obtain ⟨slot, hslot⟩ := hstored hmarks.2
    exact ⟨a, b, slot, .inl ⟨rfl, rfl⟩, hmarks.1, hslot, hedit h⟩
  · split at h
    · next hmarks =>
      obtain ⟨slot, hslot⟩ := hstored hmarks.1
      exact ⟨b, a, slot, .inr ⟨rfl, rfl⟩, hmarks.2, hslot, hedit h⟩
    · exact absurd h List.not_mem_nil

theorem witnessed_of_comparison {x y : Nat} (hx : Backed s (past ++ [f]) (τ.get x))
    (hy : Backed s (past ++ [f]) (τ.get y)) (hnumber : f.isOf [.number] = false)
    (hload : f.isOf [.sload] = false) (hlast : f.isOf [.eq, .lt, .gt] = true)
    (h : .put tag a ∈ comparisonMarks τ x y) : Witnessed (a.witnesses s) (past ++ [f]) := by
  obtain ⟨u, v, slot, huv, hread, hstored, other, item, heq⟩ := of_mem_comparisonMarks h
  have hboth : Backed s (past ++ [f]) (τ.get u) ∧ Backed s (past ++ [f]) (τ.get v) := by
    rcases huv with ⟨rfl, rfl⟩ | ⟨rfl, rfl⟩
    · exact ⟨hx, hy⟩
    · exact ⟨hy, hx⟩
  obtain ⟨rfl, rfl⟩ := Edit.put.inj heq
  exact witnessed_pair (fun g hg => Frame.not_isOf_both (by decide) hg.1 hg.2)
    ((hboth.1 _ hread).of_single hnumber) ((hboth.2 _ hstored).loaded hload) hlast

theorem witnessed_of_put (hsight : sight.Of f)
    (hbacked : ∀ tag, sight.Shows tag → Backed s (past ++ [f]) (τ.get tag))
    (h : .put tag a ∈ edits τ sight) : Witnessed (a.witnesses s) (past ++ [f]) := by
  unfold edits at h
  split at h
  · next hop _ =>
    obtain ⟨rfl, rfl⟩ := Edit.put.inj (List.mem_singleton.mp h)
    exact .single (hsight.isOf hop (by decide))
  · next key _ result _ _ hop hargs _ =>
    obtain ⟨rfl, rfl⟩ := Edit.put.inj (List.mem_singleton.mp h)
    cases hslot : key.const? with
    | none => exact .single (hsight.isOf hop (by decide))
    | some slot => exact hsight.witnessed_load hop hargs hslot
  iterate 3
    · next hop hargs =>
      exact witnessed_of_comparison (hbacked _ (Sight.shows_first hargs))
        (hbacked _ (Sight.shows_second hargs)) (hsight.not_isOf hop (by decide))
        (hsight.not_isOf hop (by decide)) (hsight.isOf hop (by decide)) h
  · exact absurd h List.not_mem_nil

end XConfirmation

theorem Roles.witnessed_of_put {memo : Memo} (hsight : sight.Of f)
    (hbacked : ∀ tag, sight.Shows tag → Backed s (past ++ [f]) (τ.get tag))
    (h : .put tag a ∈ edits memo τ sight) : Witnessed (a.witnesses s) (past ++ [f]) := by
  have hfree : Witnessed [[]] (past ++ [f]) := witnessed_singleton.mpr .nil
  unfold edits at h
  split at h
  · next hop _ =>
    obtain ⟨rfl, rfl⟩ := Edit.put.inj (List.mem_singleton.mp h)
    exact .single (hsight.isOf hop (by decide))
  · next hop hstack =>
    simp only [List.mem_append, List.mem_ite_nil_right, List.mem_singleton] at h
    rcases h with (⟨-, heq⟩ | ⟨-, heq⟩) | ⟨hcaller, heq⟩
    · obtain ⟨rfl, rfl⟩ := Edit.put.inj heq
      exact hfree
    · obtain ⟨rfl, rfl⟩ := Edit.put.inj heq
      exact hfree
    · obtain ⟨rfl, rfl⟩ := Edit.put.inj heq
      have hread := (hbacked _ (Sight.shows_result hstack) _ hcaller).of_single
        (hsight.not_isOf hop (by decide))
      exact witnessed_singleton.mpr (hread.concat (hsight.isOf hop (by decide)))
  · next hargs _ =>
    simp only [List.mem_ite_nil_right, List.mem_cons, List.not_mem_nil, or_false] at h
    obtain ⟨hkey, heq | heq⟩ := h
    · obtain ⟨rfl, rfl⟩ := Edit.put.inj heq
      have hmem := of_decide_eq_true (List.all_eq_true.mp hkey _ List.mem_cons_self)
      exact hbacked _ (Sight.shows_first hargs) _ hmem
    · obtain ⟨rfl, rfl⟩ := Edit.put.inj heq
      exact hfree
  · obtain ⟨item, -, heq⟩ := List.mem_map.mp h
    obtain ⟨rfl, rfl⟩ := Edit.put.inj heq
    exact hfree
  · exact absurd h List.not_mem_nil

namespace Strategy

variable {p : Pattern} {st : Strategy}

theorem pattern_of_cleared (h : st.cleared = .ofPattern s p) : st.pattern = p := by
  rw [← pattern_cleared, h, pattern_ofPattern]

/-- **A strategy puts no taint without its witnesses.** -/
theorem witnessed_of_put (hst : st.cleared = .ofPattern s p) (hsight : sight.Of f)
    (hbacked : ∀ tag, sight.Shows tag → Backed s (past ++ [f]) (τ.get tag))
    (h : .put tag a ∈ st.edits τ sight) : Witnessed (a.witnesses s) (past ++ [f]) := by
  obtain rfl := pattern_of_cleared hst
  cases st with
  | ownership ceiling =>
    obtain rfl := ownership.inj hst
    exact Ownership.witnessed_of_put hsight hbacked h
  | hashLock maxLength =>
    obtain rfl := hashLock.inj hst
    exact HashLock.witnessed_of_put hsight hbacked h
  | multipleAuthorization ceiling =>
    obtain rfl := multipleAuthorization.inj hst
    exact MultipleAuthorization.witnessed_of_put hsight hbacked h
  | roles memo => exact Roles.witnessed_of_put hsight hbacked h
  | xConfirmation => exact XConfirmation.witnessed_of_put hsight hbacked h
  | offChainSecret | singleOwner => exact absurd h List.not_mem_nil

/-- The taints of a guard have the witnesses of its pattern. -/
theorem witnessed_of_isGuard {taints : TaintSet} (hbacked : Backed s past taints)
    (h : st.isGuard taints = true) : Witnessed (st.pattern.witnesses s) past := by
  have hall {candidates : List Taint} (h : taints.hasAll candidates = true) {a : Taint}
      (ha : a ∈ candidates) : a ∈ taints := of_decide_eq_true (List.all_eq_true.mp h a ha)
  cases st with
  | ownership ceiling => exact hbacked (.equality .owner) (hall h (by decide))
  | roles memo => exact hbacked .hashedCaller (hall h (by decide))
  | xConfirmation => exact hbacked (.comparison .storage) (hall h (by decide))
  | hashLock maxLength =>
    obtain ⟨a, ha, hmem⟩ := List.any_eq_true.mp h
    simp only [List.mem_cons, List.not_mem_nil, or_false] at ha
    rcases ha with rfl | rfl
    · exact hbacked _ (of_decide_eq_true hmem)
    · exact hbacked _ (of_decide_eq_true hmem)
  | multipleAuthorization ceiling =>
    obtain ⟨a, ha, hcomparison⟩ := List.any_eq_true.mp h
    cases a with
    | storageComparison left right => exact hbacked _ ha
    | _ => cases hcomparison
  | offChainSecret | singleOwner => cases h

end Strategy

/-- **Taints have their witnesses in the past of the path**, whichever detectors there are. -/
theorem lineage_backed (s : Settings) (ps : List Pattern) : Lineage s ps (Backed s) where
  empty := fun past a ha => absurd ha (TaintSet.not_mem_empty a)
  later := fun past taints f h a ha => (h a ha).later f
  union := fun past taints taints' h h' a ha => (TaintSet.mem_union.mp ha).elim (h a) (h' a)
  edits := by
    intro p st τ sight past f hp hst hsight hbacked tag htag a ha
    by_cases hold : a ∈ τ.get tag
    · exact hbacked tag htag a hold
    · exact Strategy.witnessed_of_put hst hsight hbacked (Taints.put_mem_of_gained hold ha)

/-- What is marked as the owner was read from a plain slot. -/
def OwnsSlot (ceiling : Word) (taints : TaintSet) : Prop :=
  .equality .owner ∈ taints → ∃ slot < ceiling, .storage (some slot) ∈ taints

/-- The owner's mark is put before a comparison of the caller with what carries a plain slot. -/
theorem Ownership.comparison_of_put {ceiling : Word}
    (h : .put tag (.equality .owner) ∈ edits ceiling τ sight) :
    sight.phase = .pre ∧ sight.opcode = .eq ∧ ∃ left right rest slot,
      sight.args = left :: right :: rest ∧ slot < ceiling ∧ .storage (some slot) ∈ τ.get tag ∧
      (tag = right.tag ∧ .caller ∈ τ.get left.tag ∨
        tag = left.tag ∧ .caller ∈ τ.get right.tag) := by
  unfold edits at h
  split at h
  · cases List.mem_singleton.mp h
  · obtain ⟨slot, -, heq⟩ := Item.mem_slotMarks.mp h
    cases heq
  · next left right rest hphase hop hargs =>
    obtain ⟨x, y, slot, hxy, hcaller, hstored, hlt, heq | heq⟩ := of_mem_comparisonMarks h
    · cases heq
    · obtain ⟨rfl, -⟩ := Edit.put.inj heq
      refine ⟨hphase, hop, left, right, rest, slot, hargs, hlt, hstored, ?_⟩
      rcases hxy with ⟨rfl, rfl⟩ | ⟨rfl, rfl⟩
      · exact .inl ⟨rfl, hcaller⟩
      · exact .inr ⟨rfl, hcaller⟩
  · exact absurd h List.not_mem_nil

/-- The owner's mark is put by an owner check and by nothing else. -/
theorem Strategy.owner_put_of_gained {st : Strategy} {p : Pattern}
    (hst : st.cleared = .ofPattern s p) (h : .equality .owner ∉ τ.get tag)
    (h' : .equality .owner ∈ (τ.editAll (st.edits τ sight)).get tag) :
    .put tag (.equality .owner) ∈ Ownership.edits s.storageIndexCeiling τ sight := by
  have hput := Taints.put_mem_of_gained h h'
  have hhandles := (Strategy.mem_edits hput).handles
  obtain rfl := Strategy.pattern_of_cleared hst
  cases st with
  | ownership ceiling =>
    obtain rfl := Strategy.ownership.inj hst
    exact hput
  | _ => cases hhandles

/-- Marks of slots stay, but for one strategy. -/
theorem Strategy.slot_mem_editAll {st : Strategy} {slot : Word}
    (hst : st.pattern ≠ .multipleAuthorization) (h : .storage (some slot) ∈ τ.get tag) :
    .storage (some slot) ∈ (τ.editAll (st.edits τ sight)).get tag := by
  by_contra hlost
  rcases (Strategy.mem_edits (Taints.drop_mem_of_lost h hlost)).marks with huse | hmem | htakes
  · cases huse
  · obtain ⟨_, _, heq⟩ := Sight.put_of_mem_marks hmem
    cases heq
  · exact hst htakes.1

/-- **The owner's mark goes with a slot** as long as no detector takes the marks of slots away. -/
theorem lineage_ownsSlot (s : Settings) {ps : List Pattern}
    (hps : .multipleAuthorization ∉ ps) :
    Lineage s ps fun _ => OwnsSlot s.storageIndexCeiling where
  empty := fun past h => absurd h (TaintSet.not_mem_empty _)
  later := fun past taints f h => h
  union := by
    intro past taints taints' h h' howner
    simp only [TaintSet.mem_union] at howner ⊢
    rcases howner with howner | howner
    · obtain ⟨slot, hlt, hmem⟩ := h howner
      exact ⟨slot, hlt, .inl hmem⟩
    · obtain ⟨slot, hlt, hmem⟩ := h' howner
      exact ⟨slot, hlt, .inr hmem⟩
  edits := by
    intro p st τ sight past f hp hst hsight hgood tag htag howner
    have hpattern := Strategy.pattern_of_cleared hst
    have hother : st.pattern ≠ .multipleAuthorization := fun h => hps (h ▸ hpattern ▸ hp)
    by_cases hold : .equality .owner ∈ τ.get tag
    · obtain ⟨slot, hlt, hmem⟩ := hgood tag htag hold
      exact ⟨slot, hlt, Strategy.slot_mem_editAll hother hmem⟩
    · obtain ⟨-, -, -, -, -, slot, -, hlt, hmem, -⟩ :=
        Ownership.comparison_of_put (Strategy.owner_put_of_gained hst hold howner)
      exact ⟨slot, hlt, Strategy.slot_mem_editAll hother hmem⟩

end

/-! ### Findings -/

/-- **No finding without its witnesses.** A detector emits a finding only before a branch, for the
function that the path is in, and the path has executed the witnesses of the pattern in their order.
Unless marks of slots are taken away, an owner check comes with a plain slot. And nothing is found
by looking at events that was not so emitted. -/
theorem Analysis.findings_witnessed {s : Settings} {ps : List Pattern} {a : Analysis}
    (ha : a.registry.reset = ⟨ps.map (.ofPattern s)⟩) (target : Target) :
    (∀ code m p past ins i f, a.Visits target code m → m.Emits (a.setting code) p past ins i f →
      ins.opcode = .jumpi ∧ f.functionName = p.functionName ∧ ∃ pattern, ps[i]? = some pattern ∧
        Witnessed (pattern.witnesses s) past ∧
        (pattern = .ownership → .multipleAuthorization ∉ ps →
          ∃ slot < s.storageIndexCeiling, f.slot = some slot)) ∧
      ∀ i d f, (a.explored target).watch.1.detectors[i]? = some d → f ∈ d.findings →
        ∃ code m p past ins, a.Visits target code m ∧ m.Emits (a.setting code) p past ins i f := by
  refine ⟨fun code m p past ins i f hvisits hemits => ?_,
    fun i d f hd hf => exists_emits a target hd hf⟩
  obtain ⟨r, hreset, d, hd, hfinding⟩ := hvisits.sound.finding? hemits
  obtain ⟨pattern, hpattern, hst⟩ := Registry.exists_pattern (hreset.trans ha) hd
  obtain ⟨-, hop, destination, condition, rest, hargs, hguard, rfl⟩ :=
    Strategy.branch_of_finding? hfinding
  -- the condition is a value of the path, so its taints tell of the past of the path
  obtain ⟨others, htracks⟩ := hemits.first
  have hmem : (p, past) ∈ m.tracks := htracks ▸ List.mem_cons_self
  obtain ⟨v, hv, hitem⟩ : ∃ v ∈ p.stack, v.item = condition := by
    have hcondition : condition ∈ p.stack.map Value.item := by
      rw [show p.stack.map Value.item = destination :: condition :: rest from hargs]
      exact List.mem_cons_of_mem _ List.mem_cons_self
    exact List.mem_map.mp hcondition
  have htag : condition.tag = v.tag := hitem ▸ rfl
  have hbacked := (lineage_backed s ps).good_of_visits ha hvisits (p, past) hmem v (.inl hv)
  rw [htag] at hguard ⊢
  have hwitnessed := Strategy.witnessed_of_isGuard hbacked hguard
  rw [Strategy.pattern_of_cleared hst] at hwitnessed
  refine ⟨hop, rfl, pattern, hpattern, hwitnessed, ?_⟩
  rintro rfl hps
  have howns := (lineage_ownsSlot s hps).good_of_visits ha hvisits (p, past) hmem v (.inl hv)
  cases hstrategy : d.strategy with
  | ownership ceiling =>
    rw [hstrategy] at hst hguard
    obtain rfl := Strategy.ownership.inj hst
    obtain ⟨slot, hlt, hslot⟩ :=
      howns (of_decide_eq_true (List.all_eq_true.mp hguard _ List.mem_cons_self))
    obtain ⟨first, hfirst⟩ := TaintSet.exists_slotBelow? hslot hlt
    exact ⟨first, (TaintSet.mem_of_slotBelow? hfirst).2, hfirst⟩
  | _ =>
    rw [hstrategy] at hst
    cases hst

/-- Code that checks the owner in slot zero. -/
def ownerCheckCode : Bytes := [0x33, 0x5f, 0x54, 0x14, 0x60, 0x08, 0x57, 0x00, 0x5b, 0x00]

theorem Analysis.findings_witnessed_ownerCheck :
    ∃ code m p past ins f,
      (ofPatterns {} [.roles, .ownership]).Visits (.deployed ⟨0⟩ ownerCheckCode) code m ∧
      m.Emits ((ofPatterns {} [.roles, .ownership]).setting code) p past ins 1 f ∧
      Witnessed (Pattern.ownership.witnesses {}) past ∧
      ∃ slot < ({} : Settings).storageIndexCeiling, f.slot = some slot := by
  have hfindings : ((ofPatterns {} [.roles, .ownership]).explored
      (.deployed ⟨0⟩ ownerCheckCode)).watch.1.findings =
        [[], [⟨"fallback", some 0, none⟩]] := by decide +kernel
  have hreset : (ofPatterns {} [.roles, .ownership]).registry.reset =
      ⟨[.roles, .ownership].map (.ofPattern {})⟩ := rfl
  obtain ⟨hwitnessed, hemitted⟩ := findings_witnessed hreset (.deployed ⟨0⟩ ownerCheckCode)
  have hplace := congrArg (·[1]?) hfindings
  simp only [Registry.findings, List.getElem?_map] at hplace
  obtain ⟨d, hd, hfound⟩ := Option.map_eq_some_iff.mp hplace
  obtain ⟨code, m, p, past, ins, hvisits, hemits⟩ :=
    hemitted 1 d ⟨"fallback", some 0, none⟩ hd (hfound ▸ List.mem_cons_self)
  obtain ⟨-, -, pattern, hpattern, hpast, hslot⟩ := hwitnessed code m p past ins 1 _ hvisits hemits
  obtain rfl := Option.some.inj hpattern
  exact ⟨code, m, p, past, ins, _, hvisits, hemits, hpast, hslot rfl (by decide)⟩

end GuardFinder

import GuardFinder.Proofs.Emissions
import GuardFinder.Proofs.Influence

/-!
# Recognised words

When memory is about to be hashed, the detector of roles looks for words that it remembers in it,
and then waits for the hash in order to mark it. What it remembers has no other effect on taints. So
a strategy that remembers other words keeps up with the detector, and marks all that it marks, as
long as it recognises a word whenever the detector does so.

* `Roles.Memo.Recognises`: a remembered word is about to be hashed.
* `Roles.forward_next`: the hash of a recognised word is waited for.
* `Roles.KeepsUp`: taints of a value that come up to others.
* `Roles.keepsUp_edits`: **whoever keeps up before an event does so after it**.
* `Roles.Beside.heed`: the same of a detector and a strategy.
-/

namespace GuardFinder

/-- Where taints are only put, those are there that were and those that are put. -/
theorem Taints.mem_get_editAll_of_puts {τ : Taints} {edits : List Edit} {tag : Nat} {a : Taint}
    (h : ∀ edit ∈ edits, ∃ t b, edit = .put t b) :
    a ∈ (τ.editAll edits).get tag ↔ .put tag a ∈ edits ∨ a ∈ τ.get tag := by
  induction edits generalizing τ with
  | nil => simp [editAll]
  | cons edit rest ih =>
    obtain ⟨t, b, rfl⟩ := h edit List.mem_cons_self
    rw [editAll, List.foldl_cons, ← editAll, ih fun e he => h e (List.mem_cons_of_mem _ he),
      mem_get_put, List.mem_cons, Edit.put.injEq, ← or_assoc, or_comm (a := .put tag a ∈ rest)]

/-- A detector reports a function at branches only. -/
theorem Detector.reported_after {d : Detector} {τ : Taints} {s : Sight} (h : s.opcode ≠ .jumpi) :
    (d.after τ s).reported = d.reported := by
  have hnone : d.strategy.finding? τ s = none :=
    Option.eq_none_iff_forall_ne_some.mpr fun f hf => h (Strategy.branch_of_finding? hf).2.1
  unfold after
  rw [hnone]
  split <;> rfl

namespace Roles

variable {memo memo' : Memo} {τ υ : Taints} {s : Sight} {tag : Nat}

/-! ### Words in hashed memory -/

/-- The known words in the memory that is about to be hashed. -/
def hashedWords (s : Sight) : List Word :=
  match s.phase, s.opcode, s.args with
  | .pre, .sha3, offset :: length :: _ =>
    match offset.size?, length.size? with
    | some offset, some length =>
      if 32 ≤ length ∧ offset + length ≤ Memory.limit then
        (List.range ((length + 31) / 32)).filterMap fun k => s.word? (offset + 32 * k)
      else []
    | _, _ => []
  | _, _, _ => []

/-- A remembered word is about to be hashed. -/
def Memo.Recognises (memo : Memo) (s : Sight) : Prop := ∃ w ∈ hashedWords s, w ∈ memo.words

instance (memo : Memo) (s : Sight) : Decidable (memo.Recognises s) :=
  inferInstanceAs (Decidable (∃ w ∈ hashedWords s, w ∈ memo.words))

theorem hashedWords_of_ne (h : ¬(s.phase = .pre ∧ s.opcode = .sha3)) : hashedWords s = [] := by
  unfold hashedWords
  split
  · next hphase hop _ => exact absurd ⟨hphase, hop⟩ h
  · rfl

theorem Memo.Recognises.before_hash (h : memo.Recognises s) :
    s.phase = .pre ∧ s.opcode = .sha3 := by
  obtain ⟨w, hw, -⟩ := h
  by_contra hne
  rw [hashedWords_of_ne hne] at hw
  exact List.not_mem_nil hw

theorem Memo.forward_foldl_take (memo : Memo) (words : List Word) :
    (words.foldl take memo).forward = true ↔
      memo.forward = true ∨ ∃ w ∈ words, w ∈ memo.words := by
  induction words generalizing memo with
  | nil => simp
  | cons w rest ih =>
    rw [List.foldl_cons, ih, List.exists_mem_cons_iff]
    by_cases hw : w ∈ memo.words
    · simp [take, hw]
    · simp [take, hw]

theorem Memo.forward_addRole (memo : Memo) (name : String) (w : Word) :
    (memo.addRole name w).forward = memo.forward := by
  unfold addRole
  split <;> rfl

theorem next_before_hash {offset length : Item} {rest : List Item} (hphase : s.phase = .pre)
    (hop : s.opcode = .sha3) (hargs : s.args = offset :: length :: rest) (memo : Memo)
    (τ : Taints) :
    next memo τ s = (hashedWords s).foldl Memo.take memo := by
  obtain ⟨phase, op, name, args, stack, word?⟩ := s
  obtain rfl : phase = .pre := hphase
  obtain rfl : op = .sha3 := hop
  obtain rfl : args = offset :: length :: rest := hargs
  show (match offset.size?, length.size? with
    | some offset, some length =>
      if 32 ≤ length ∧ offset + length ≤ Memory.limit then
        ((List.range ((length + 31) / 32)).filterMap fun k => word? (offset + 32 * k)).foldl
          Memo.take memo
      else memo
    | _, _ => memo) = (match offset.size?, length.size? with
    | some offset, some length =>
      if 32 ≤ length ∧ offset + length ≤ Memory.limit then
        (List.range ((length + 31) / 32)).filterMap fun k => word? (offset + 32 * k)
      else []
    | _, _ => []).foldl Memo.take memo
  cases offset.size? with
  | none => rfl
  | some o =>
    cases length.size? with
    | none => rfl
    | some n =>
      simp only
      split <;> rfl

/-- Other instructions than hashing have nothing to do with it. -/
theorem forward_next_of_ne (h : s.opcode ≠ .sha3) (memo : Memo) (τ : Taints) :
    (next memo τ s).forward = memo.forward := by
  unfold next
  split
  · next hop _ => exact absurd hop h
  · next top second _ _ _ _ =>
    cases (candidate? τ top second).bind Item.const? with
    | none => rfl
    | some w => exact Memo.forward_addRole ..
  · next top second _ _ _ _ => cases distance? τ top second <;> rfl
  · next hop _ => exact absurd hop h
  · split
    · cases memo.roles.lookup s.functionName <;> rfl
    · rfl
  · rfl

/-- The hash of a recognised word is waited for, until it is there. -/
theorem forward_next (memo : Memo) (τ : Taints) (s : Sight) :
    (next memo τ s).forward = true ↔ (memo.forward = true ∨ memo.Recognises s) ∧
      ¬(s.phase = .post ∧ s.opcode = .sha3 ∧ s.stack ≠ []) := by
  by_cases hop : s.opcode = .sha3
  · obtain ⟨phase, op, name, args, stack, word?⟩ := s
    obtain rfl : op = .sha3 := hop
    cases phase with
    | pre =>
      rw [and_iff_left fun h => absurd (show Phase.pre = .post from h.1) (by decide)]
      rcases args with - | ⟨offset, - | ⟨length, rest⟩⟩
      · exact (or_iff_left fun h => List.not_mem_nil h.choose_spec.1).symm
      · exact (or_iff_left fun h => List.not_mem_nil h.choose_spec.1).symm
      · rw [next_before_hash rfl rfl rfl]
        exact Memo.forward_foldl_take ..
    | post =>
      have hnot : ¬memo.Recognises ⟨.post, .sha3, name, args, stack, word?⟩ :=
        fun h => absurd (show Phase.post = .pre from h.before_hash.1) (by decide)
      rw [or_iff_left hnot]
      cases stack with
      | nil => exact (and_iff_left fun h => h.2.2 rfl).symm
      | cons result rest =>
        refine iff_of_false ?_ fun h => h.2 ⟨rfl, rfl, List.cons_ne_nil _ _⟩
        show ¬(if memo.forward then
          result.const?.elim { memo with forward := false } { memo with forward := false }.addWord
          else memo).forward = true
        split
        · cases result.const? <;> exact Bool.false_ne_true
        · assumption
  · have hnot : ¬memo.Recognises s := fun h => hop h.before_hash.2
    rw [forward_next_of_ne hop, or_iff_left hnot, and_iff_left fun h => hop h.2.1]

/-! ### Keeping up -/

/-- Taints of a value that come up to others: they tell the same of callers and roles, and of hashes
no less. -/
structure KeepsUp (τ υ : Taints) (tag : Nat) : Prop where
  same : ∀ a, a = .caller ∨ a = .role → (a ∈ τ.get tag ↔ a ∈ υ.get tag)
  hashes : ∀ a, a = .hashedCaller ∨ a = .hashedRole → a ∈ τ.get tag → a ∈ υ.get tag

theorem KeepsUp.of_get_eq {τ' υ' : Taints} {other : Nat} (h : KeepsUp τ υ tag)
    (hτ : τ'.get other = τ.get tag) (hυ : υ'.get other = υ.get tag) : KeepsUp τ' υ' other := by
  constructor
  · intro a ha
    rw [hτ, hυ]
    exact h.same a ha
  · intro a ha
    rw [hτ, hυ]
    exact h.hashes a ha

theorem KeepsUp.refl (τ : Taints) (tag : Nat) : KeepsUp τ τ tag :=
  ⟨fun _ _ => Iff.rfl, fun _ _ => id⟩

theorem keepsUp_of_empty (hτ : τ.get tag = ∅) (hυ : υ.get tag = ∅) : KeepsUp τ υ tag :=
  (KeepsUp.refl τ tag).of_get_eq rfl (hυ.trans hτ.symm)

/-- What inherits keeps up where the sources do. -/
theorem keepsUp_inheritAll {T : Nat → Prop} {inheritances : List Inheritance}
    (hsources : ∀ i ∈ inheritances, ∀ t ∈ i.sources, T t) (h : ∀ t, T t → KeepsUp τ υ t)
    (htag : T tag) : KeepsUp (τ.inheritAll inheritances) (υ.inheritAll inheritances) tag := by
  induction inheritances generalizing τ υ with
  | nil => exact h tag htag
  | cons i rest ih =>
    refine ih (fun j hj => hsources j (List.mem_cons_of_mem _ hj)) fun t ht => ?_
    by_cases hheir : t = i.heir
    · have hall := fun u hu => h u (hsources i List.mem_cons_self u hu)
      have hmem (τ : Taints) (a : Taint) :
          a ∈ (τ.inherit i).get t ↔ ∃ u ∈ i.sources, a ∈ τ.get u := by
        rw [Taints.get_inherit, if_pos hheir, Taints.mem_union]
      constructor
      · intro a ha
        rw [hmem, hmem]
        exact exists_congr fun u => and_congr_right fun hu => (hall u hu).same a ha
      · intro a ha
        rw [hmem, hmem]
        rintro ⟨u, hu, hτ⟩
        exact ⟨u, hu, (hall u hu).hashes a ha hτ⟩
    · refine (h t ht).of_get_eq ?_ ?_ <;> rw [Taints.get_inherit, if_neg hheir]

/-- Marks keep up with others: the same callers and roles are marked, and no fewer hashes. -/
theorem KeepsUp.editAll {marks marks' : List Edit} (h : KeepsUp τ υ tag)
    (hputs : ∀ mark ∈ marks', ∃ t a, mark = .put t a) (hsub : ∀ mark ∈ marks, mark ∈ marks')
    (hsame : ∀ mark ∈ marks', mark.taint = .caller ∨ mark.taint = .role → mark ∈ marks) :
    KeepsUp (τ.editAll marks) (υ.editAll marks') tag := by
  have hmem {a : Taint} :
      a ∈ (τ.editAll marks).get tag ↔ .put tag a ∈ marks ∨ a ∈ τ.get tag :=
    Taints.mem_get_editAll_of_puts fun mark hmark => hputs mark (hsub mark hmark)
  have hmem' {a : Taint} :
      a ∈ (υ.editAll marks').get tag ↔ .put tag a ∈ marks' ∨ a ∈ υ.get tag :=
    Taints.mem_get_editAll_of_puts hputs
  constructor
  · intro a ha
    rw [hmem, hmem']
    exact or_congr ⟨hsub _, fun hmark => hsame _ hmark ha⟩ (h.same a ha)
  · intro a ha
    rw [hmem, hmem']
    exact Or.imp (hsub _) (h.hashes a ha)

theorem KeepsUp.hasAll (h : KeepsUp τ υ tag)
    (hτ : (τ.get tag).hasAll [.hashedCaller, .hashedRole] = true) :
    (υ.get tag).hasAll [.hashedCaller, .hashedRole] = true := by
  simp only [TaintSet.hasAll, List.all_cons, List.all_nil, Bool.and_true, Bool.and_eq_true,
    decide_eq_true_eq] at hτ ⊢
  exact ⟨h.hashes _ (.inl rfl) hτ.1, h.hashes _ (.inr rfl) hτ.2⟩

/-- Nothing that was marked is unmarked. -/
theorem put_of_mem_edits : ∀ mark ∈ edits memo τ s, ∃ t a, mark = .put t a := by
  intro mark hmark
  unfold edits at hmark
  split at hmark
  · exact ⟨_, _, List.mem_singleton.mp hmark⟩
  · simp only [List.mem_append, List.mem_ite_nil_right, List.mem_singleton] at hmark
    rcases hmark with (⟨-, rfl⟩ | ⟨-, rfl⟩) | ⟨-, rfl⟩ <;> exact ⟨_, _, rfl⟩
  · simp only [List.mem_ite_nil_right, List.mem_cons, List.not_mem_nil, or_false] at hmark
    rcases hmark with ⟨-, rfl | rfl⟩ <;> exact ⟨_, _, rfl⟩
  · obtain ⟨item, -, rfl⟩ := List.mem_map.mp hmark
    exact ⟨_, _, rfl⟩
  · exact absurd hmark List.not_mem_nil

/-- Whoever knows the callers and roles marks the same ones, and whoever knows of more hashes marks
more of them. -/
theorem edits_mono (hshown : ∀ t, s.Shows t → KeepsUp τ υ t)
    (hforward : memo.forward = true → memo'.forward = true) :
    (∀ mark ∈ edits memo τ s, mark ∈ edits memo' υ s) ∧
      ∀ mark ∈ edits memo' υ s, mark.taint = .caller ∨ mark.taint = .role →
        mark ∈ edits memo τ s := by
  unfold edits
  split
  · exact ⟨fun _ => id, fun _ hmark _ => hmark⟩
  · next result rest hphase hop hstack =>
    have hresult := hshown result.tag ⟨result, by rw [hstack]; simp, rfl⟩
    simp only [List.mem_append, List.mem_ite_nil_right, List.mem_singleton]
    constructor
    · rintro mark ((⟨hwaits, rfl⟩ | ⟨hrole, rfl⟩) | ⟨hcaller, rfl⟩)
      · exact .inl (.inl ⟨hforward hwaits, rfl⟩)
      · exact .inl (.inr ⟨(hresult.same _ (.inr rfl)).mp hrole, rfl⟩)
      · exact .inr ⟨(hresult.same _ (.inl rfl)).mp hcaller, rfl⟩
    · rintro mark ((⟨-, rfl⟩ | ⟨-, rfl⟩) | ⟨-, rfl⟩) (h | h) <;> cases h
  · next key args result rest hphase hop hargs hstack =>
    have hkey := hshown key.tag ⟨key, by rw [hargs]; simp, rfl⟩
    simp only [List.mem_ite_nil_right, List.mem_cons, List.not_mem_nil, or_false]
    constructor
    · rintro mark ⟨hkey', hmark⟩
      exact ⟨hkey.hasAll hkey', hmark⟩
    · rintro mark ⟨-, rfl | rfl⟩ (h | h) <;> cases h
  · next top second rest hphase hop hargs =>
    have htop := hshown top.tag ⟨top, by rw [hargs]; simp, rfl⟩
    have hsecond := hshown second.tag ⟨second, by rw [hargs]; simp, rfl⟩
    have hcandidate : candidate? τ top second = candidate? υ top second := by
      simp only [candidate?, htop.same .caller (.inl rfl), hsecond.same .caller (.inl rfl)]
    rw [hcandidate]
    exact ⟨fun _ => id, fun _ hmark _ => hmark⟩
  · exact ⟨fun _ => id, fun _ hmark _ => hmark⟩

/-- **Whoever keeps up before an event does so after it**, if it waits for the same hashes. -/
theorem keepsUp_edits (hshown : ∀ t, s.Shows t → KeepsUp τ υ t)
    (hforward : memo.forward = true → memo'.forward = true) (h : KeepsUp τ υ tag) :
    KeepsUp (τ.editAll (edits memo τ s)) (υ.editAll (edits memo' υ s)) tag := by
  obtain ⟨hsub, hsame⟩ := edits_mono hshown hforward
  exact h.editAll put_of_mem_edits hsub hsame

/-- Nothing happens at an event that is not asked for. -/
theorem idle (h : ¬(Strategy.roles memo).Asks s.phase s.opcode) (τ : Taints) :
    edits memo τ s = [] ∧ next memo τ s = memo ∧ (Strategy.roles memo).finding? τ s = none := by
  have hpre (hphase : s.phase = .pre) : s.opcode ∉ preOpcodes := by
    rw [hphase] at h
    exact h
  have hpost (hphase : s.phase = .post) : s.opcode ∉ postOpcodes := by
    rw [hphase] at h
    exact h
  refine ⟨?_, ?_, Option.eq_none_iff_forall_ne_some.mpr fun f hf => ?_⟩
  · unfold edits
    split
    · next hphase hop _ => exact absurd (by rw [hop]; decide) (hpost hphase)
    · next hphase hop _ => exact absurd (by rw [hop]; decide) (hpost hphase)
    · next hphase hop _ _ => exact absurd (by rw [hop]; decide) (hpost hphase)
    · next hphase hop _ => exact absurd (by rw [hop]; decide) (hpre hphase)
    · rfl
  · unfold next
    split
    · next hphase hop _ => exact absurd (by rw [hop]; decide) (hpost hphase)
    · next hphase hop _ => exact absurd (by rw [hop]; decide) (hpre hphase)
    · next hphase hop _ => exact absurd (by rw [hop]; decide) (hpre hphase)
    · next hphase hop _ => exact absurd (by rw [hop]; decide) (hpre hphase)
    · next hphase hop _ => exact absurd (by rw [hop]; decide) (hpre hphase)
    · rfl
  · obtain ⟨hphase, hop, -⟩ := Strategy.branch_of_finding? hf
    exact absurd (by rw [hop]; decide) (hpre hphase)

/-! ### A detector and a strategy beside it -/

variable {T : Nat → Prop} {d : Detector}

/-- What a detector remembers after an event. It passes over those of functions it has reported. -/
def Memo.heed (memo : Memo) (d : Detector) (τ : Taints) (s : Sight) : Memo :=
  if d.reported.contains s.functionName then memo else next memo τ s

/-- Whoever begins to wait for a hash is told that one is to be made. -/
theorem Memo.forward_heed (hcalm : memo.forward = false)
    (h : (memo.heed d τ s).forward = true) :
    d.reported.contains s.functionName = false ∧ s.opcode = .sha3 := by
  unfold heed at h
  split at h
  · rw [hcalm] at h
    cases h
  · next hheeds =>
    obtain ⟨hforward, -⟩ := (forward_next memo τ s).mp h
    rw [hcalm] at hforward
    exact ⟨Bool.eq_false_iff.mpr hheeds,
      (hforward.resolve_left Bool.false_ne_true).before_hash.2⟩

/-- When there is a hash, it is not waited for any longer. -/
theorem Memo.calm_heed (hphase : s.phase = .post)
    (h : memo.forward = true →
      d.reported.contains s.functionName = false ∧ s.opcode = .sha3 ∧ s.stack ≠ []) :
    (memo.heed d τ s).forward = false := by
  refine Bool.eq_false_iff.mpr fun hforward => ?_
  unfold heed at hforward
  split at hforward
  · next hreported =>
    rw [(h hforward).1] at hreported
    cases hreported
  · obtain ⟨hbefore | hrecognises, hnot⟩ := (forward_next memo τ s).mp hforward
    · exact hnot ⟨hphase, (h hbefore).2⟩
    · rw [hrecognises.before_hash.1] at hphase
      cases hphase

/-- A detector of roles and a strategy that keeps up with it on some tags. When the detector waits
for a hash, the strategy does so too. -/
structure Beside (T : Nat → Prop) (d : Detector) (memo : Memo) (τ : Taints) (memo' : Memo)
    (υ : Taints) : Prop where
  strategy : d.strategy = .roles memo
  waits : memo.forward = true → memo'.forward = true
  keeps : ∀ tag, T tag → KeepsUp τ υ tag

theorem Beside.inheritAll (h : Beside T d memo τ memo' υ) {inheritances : List Inheritance}
    (hsources : ∀ i ∈ inheritances, ∀ t ∈ i.sources, T t) :
    Beside T d memo (τ.inheritAll inheritances) memo' (υ.inheritAll inheritances) :=
  ⟨h.strategy, h.waits, fun _ htag => keepsUp_inheritAll hsources h.keeps htag⟩

/-- A strategy need not be told of what the detector passes over. -/
theorem Beside.pass (h : Beside T d memo τ memo' υ)
    (hreported : d.reported.contains s.functionName = true) :
    Beside T (d.after τ s) (memo.heed d τ s) (τ.editAll (d.edits τ s)) memo' υ := by
  rw [Detector.after, Memo.heed, Detector.edits, if_pos hreported, if_pos hreported,
    if_pos hreported]
  exact h

/-- **A strategy keeps up while it recognises what the detector recognises.** -/
theorem Beside.heed (h : Beside T d memo τ memo' υ) (hshows : ∀ t, s.Shows t → T t)
    (hheeds : d.reported.contains s.functionName = false)
    (hown : memo.Recognises s → memo'.Recognises s) :
    Beside T (d.after τ s) (memo.heed d τ s) (τ.editAll (d.edits τ s)) (next memo' υ s)
      (υ.editAll (edits memo' υ s)) := by
  have hreported : ¬d.reported.contains s.functionName = true := Bool.eq_false_iff.mp hheeds
  rw [Memo.heed, if_neg hreported]
  refine ⟨?_, ?_, fun tag htag => ?_⟩
  · rw [Detector.strategy_after, if_neg hreported, h.strategy]
    rfl
  · rw [forward_next, forward_next]
    exact fun hforward => ⟨hforward.1.imp h.waits hown, hforward.2⟩
  · have hedits : d.edits τ s = edits memo τ s := by
      rw [Detector.edits, if_neg hreported, h.strategy]
      rfl
    rw [hedits]
    exact keepsUp_edits (fun t ht => h.keeps t (hshows t ht)) h.waits (h.keeps tag htag)

end Roles

end GuardFinder

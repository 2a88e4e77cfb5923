import GuardFinder.Proofs.Influence

/-!
# Edits on top of edits

Detectors that are told of the same event work on the same taints, one after the other. So a
detector finds what those before it have edited, and those after it edit what it has left.

* `Taints.Same`: taints that do not differ for any value.
* `Strategy.edited_edited`: **a second look changes nothing more**.
* `Strategy.edited_mark`, `Strategy.mark_edited`: **nor do the marks of others**, before or after.
-/

namespace GuardFinder

variable {τ τ' : Taints} {s : Sight} {st : Strategy}

/-! ### Lists of edits -/

namespace Taints

/-- All values have the same taints. -/
def Same (τ τ' : Taints) : Prop := ∀ tag a, a ∈ τ.get tag ↔ a ∈ τ'.get tag

theorem Same.refl (τ : Taints) : τ.Same τ := fun _ _ => .rfl

theorem Same.agree (h : τ.Same τ') (s : Sight) (reads : Taint → Prop) : s.Agree reads τ τ' :=
  fun tag _ a _ => h tag a

variable {tag : Nat} {a : Taint} {edit : Edit} {edits : List Edit}

theorem mem_get_edit_of_not (h : ¬(edit.tag = tag ∧ edit.taint = a)) :
    a ∈ (τ.edit edit).get tag ↔ a ∈ τ.get tag := by
  by_cases htag : edit.tag = tag
  · exact mem_get_edit_of_ne fun ha => h ⟨htag, ha.symm⟩
  · rw [get_edit_of_ne (Ne.symm htag)]

theorem mem_get_editAll_of_not (h : ∀ edit ∈ edits, ¬(edit.tag = tag ∧ edit.taint = a)) :
    a ∈ (τ.editAll edits).get tag ↔ a ∈ τ.get tag := by
  induction edits generalizing τ with
  | nil => rfl
  | cons edit rest ih =>
    rw [editAll, List.foldl_cons, ← editAll, ih fun e he => h e (List.mem_cons_of_mem _ he),
      mem_get_edit_of_not (h edit List.mem_cons_self)]

/-- Where a taint is edited, it does not matter whether it was there. -/
theorem mem_get_editAll_iff (h : ∃ edit ∈ edits, edit.tag = tag ∧ edit.taint = a) :
    a ∈ (τ.editAll edits).get tag ↔ a ∈ (τ'.editAll edits).get tag := by
  induction edits generalizing τ τ' with
  | nil =>
    obtain ⟨edit, hedit, -⟩ := h
    cases hedit
  | cons edit rest ih =>
    by_cases hrest : ∃ edit ∈ rest, edit.tag = tag ∧ edit.taint = a
    · exact ih hrest
    · obtain ⟨e, he, htag, htaint⟩ := h
      have hedit : e = edit :=
        (List.mem_cons.mp he).resolve_right fun he => hrest ⟨e, he, htag, htaint⟩
      subst hedit
      have hnot : ∀ e ∈ rest, ¬(e.tag = tag ∧ e.taint = a) :=
        fun e he hboth => hrest ⟨e, he, hboth⟩
      have hcons (τ : Taints) : τ.editAll (e :: rest) = (τ.edit e).editAll rest := rfl
      rw [hcons, hcons, mem_get_editAll_of_not hnot, mem_get_editAll_of_not hnot]
      cases e with
      | put other b =>
        obtain rfl : other = tag := htag
        obtain rfl : b = a := htaint
        simp [mem_get_put]
      | drop other b =>
        obtain rfl : other = tag := htag
        obtain rfl : b = a := htaint
        simp [mem_get_drop]

/-- Edits that are made twice are made once. -/
theorem same_editAll_editAll (τ : Taints) (edits : List Edit) :
    ((τ.editAll edits).editAll edits).Same (τ.editAll edits) := by
  intro tag a
  by_cases h : ∃ edit ∈ edits, edit.tag = tag ∧ edit.taint = a
  · exact mem_get_editAll_iff h
  · exact mem_get_editAll_of_not fun edit hedit hboth => h ⟨edit, hedit, hboth⟩

/-- An edit that is made again later need not be made. -/
theorem same_edit_editAll (h : edit ∈ edits) :
    ((τ.edit edit).editAll edits).Same (τ.editAll edits) := by
  intro tag a
  by_cases htouched : ∃ edit ∈ edits, edit.tag = tag ∧ edit.taint = a
  · exact mem_get_editAll_iff htouched
  · have hnot : ∀ edit ∈ edits, ¬(edit.tag = tag ∧ edit.taint = a) :=
      fun edit hedit hboth => htouched ⟨edit, hedit, hboth⟩
    rw [mem_get_editAll_of_not hnot, mem_get_editAll_of_not hnot, mem_get_edit_of_not (hnot edit h)]

theorem mem_get_editAll_of_mem (h : a ∈ τ.get tag) (hnot : .drop tag a ∉ edits) :
    a ∈ (τ.editAll edits).get tag := by
  induction edits generalizing τ with
  | nil => exact h
  | cons edit rest ih =>
    refine ih ?_ fun hdrop => hnot (List.mem_cons_of_mem _ hdrop)
    cases edit with
    | put other b => exact mem_get_put.mpr (.inr h)
    | drop other b =>
      refine mem_get_drop.mpr ⟨?_, h⟩
      rintro ⟨rfl, rfl⟩
      exact hnot List.mem_cons_self

/-- A taint that is put and not dropped is there. -/
theorem mem_get_editAll_of_put (h : .put tag a ∈ edits) (hnot : .drop tag a ∉ edits) :
    a ∈ (τ.editAll edits).get tag := by
  have hput : a ∈ (τ.edit (.put tag a)).get tag := mem_get_put.mpr (.inl ⟨rfl, rfl⟩)
  exact (mem_get_editAll_iff ⟨_, h, rfl, rfl⟩).mp (mem_get_editAll_of_mem hput hnot)

end Taints

/-! ### Looking twice -/

open Taints

theorem Ownership.edits_editAll (ceiling : Word) :
    edits ceiling (τ.editAll (edits ceiling τ s)) s = edits ceiling τ s := by
  have hagree (a b tag : Nat) : (τ.editAll (comparisonMarks ceiling τ a b)).AgreeAt
      (Strategy.ownership ceiling).Decides τ tag := by
    refine fun a ha => mem_get_editAll_of_ne fun edit hedit heq => ?_
    obtain ⟨actor, rfl | rfl⟩ := mem_comparisonMarks hedit <;> subst heq <;> exact ha.elim
  unfold edits
  split
  · rfl
  · rfl
  · exact comparisonMarks_congr (hagree _ _ _) (hagree _ _ _)
  · rfl

theorem XConfirmation.edits_editAll : edits (τ.editAll (edits τ s)) s = edits τ s := by
  have hagree (a b tag : Nat) : (τ.editAll (comparisonMarks τ a b)).AgreeAt
      Strategy.xConfirmation.Decides τ tag := by
    refine fun a ha => mem_get_editAll_of_ne fun edit hedit heq => ?_
    obtain ⟨item, rfl | rfl⟩ := mem_comparisonMarks hedit <;> subst heq <;> exact ha.elim
  unfold edits
  split
  · rfl
  · rfl
  · exact comparisonMarks_congr (hagree _ _ _) (hagree _ _ _)
  · exact comparisonMarks_congr (hagree _ _ _) (hagree _ _ _)
  · exact comparisonMarks_congr (hagree _ _ _) (hagree _ _ _)
  · rfl

theorem MultipleAuthorization.edits_editAll (ceiling : Word) (hfresh : s.Fresh) :
    edits ceiling (τ.editAll (edits ceiling τ s)) s = edits ceiling τ s := by
  have hagree {a b : Nat} {result i : Item} (hne : i.tag ≠ result.tag) :
      (τ.editAll (comparisonMarks ceiling τ a b result.tag)).AgreeAt
        (Strategy.multipleAuthorization ceiling).Decides τ i.tag := by
    intro a _
    rw [get_editAll_of_ne fun edit hedit => ?_]
    obtain ⟨left, right, rfl | rfl⟩ := mem_comparisonMarks hedit <;> exact hne
  unfold edits
  split
  · rfl
  · next a b _ result _ hphase hop hargs hstack =>
    have hne := hfresh hphase (by rw [hop]; rfl) result (by rw [hstack]; rfl)
    rw [hargs] at hne
    exact comparisonMarks_congr _ (hagree (hne a (by simp))) (hagree (hne b (by simp)))
  · next a b _ result _ hphase hop hargs hstack =>
    have hne := hfresh hphase (by rw [hop]; rfl) result (by rw [hstack]; rfl)
    rw [hargs] at hne
    exact comparisonMarks_congr _ (hagree (hne a (by simp))) (hagree (hne b (by simp)))
  · rfl

/-- No strategy edits at a branch or an addition. -/
theorem Strategy.edits_eq_nil (hphase : s.phase = .pre)
    (hop : s.opcode = .jumpi ∨ s.opcode = .add) (st : Strategy) (τ : Taints) :
    st.edits τ s = [] := by
  rcases hop with hop | hop <;> cases st <;>
    simp [edits, Ownership.edits, HashLock.edits, Roles.edits, MultipleAuthorization.edits,
      XConfirmation.edits, hphase, hop, Opcode.jumpi, Opcode.add]

namespace Roles

variable {memo : Memo} {later : List Edit}

theorem candidate?_editAll {top second : Item} (h : ∀ edit ∈ later, edit.taint = .role) :
    candidate? (τ.editAll later) top second = candidate? τ top second := by
  have hkept (tag : Nat) : .caller ∈ (τ.editAll later).get tag ↔ .caller ∈ τ.get tag :=
    mem_get_editAll_of_ne fun edit hedit => by rw [h edit hedit]; exact nofun
  simp only [candidate?, hkept]

theorem edits_editAll (hlater : ∀ edit ∈ later, edit ∈ edits memo τ s) :
    edits memo (τ.editAll later) s = edits memo τ s := by
  unfold edits at hlater ⊢
  split
  · rfl
  · next hphase hop hstack =>
    simp only [hphase, hop, hstack, List.mem_append, List.mem_ite_nil_right,
      List.mem_singleton] at hlater
    have hkept {a : Taint} (hrole : a ≠ .hashedRole) (hcaller : a ≠ .hashedCaller) (tag : Nat) :
        a ∈ (τ.editAll later).get tag ↔ a ∈ τ.get tag := by
      refine mem_get_editAll_of_ne fun edit hedit => ?_
      rcases hlater edit hedit with (⟨-, rfl⟩ | ⟨-, rfl⟩) | ⟨-, rfl⟩
      · exact hrole
      · exact hrole
      · exact hcaller
    simp only [hkept (a := .role) nofun nofun, hkept (a := .caller) nofun nofun]
  · next key _ result _ hphase hop hargs hstack =>
    -- the result may be the key itself, which then has both taints already
    simp only [hphase, hop, hargs, hstack] at hlater
    split at hlater
    · next hhashed =>
      have hlater' :
          ((τ.editAll later).get key.tag).hasAll [.hashedCaller, .hashedRole] = true := by
        simp only [TaintSet.hasAll, List.all_eq_true, decide_eq_true_eq] at hhashed ⊢
        refine fun a ha => mem_get_editAll_of_mem (hhashed a ha) fun hdrop => ?_
        simpa using hlater _ hdrop
      rw [if_pos hhashed, if_pos hlater']
    · rw [List.eq_nil_iff_forall_not_mem.mpr fun edit hedit => List.not_mem_nil (hlater edit hedit)]
      rfl
  · next hphase hop hargs =>
    simp only [hphase, hop, hargs, List.mem_map] at hlater
    rw [candidate?_editAll fun edit hedit => ?_]
    obtain ⟨item, -, rfl⟩ := hlater edit hedit
    rfl
  · rfl

theorem next_editAll (hlater : ∀ edit ∈ later, edit ∈ edits memo τ s) :
    next memo (τ.editAll later) s = next memo τ s := by
  have hnone (hphase : s.phase = .pre) (hop : s.opcode = .jumpi ∨ s.opcode = .add) :
      later = [] := by
    refine List.eq_nil_iff_forall_not_mem.mpr fun edit hedit => ?_
    have hnil : edits memo τ s = [] := (Strategy.roles memo).edits_eq_nil hphase hop τ
    exact List.not_mem_nil (hnil ▸ hlater edit hedit)
  unfold next
  split
  · rfl
  · next hphase hop hargs =>
    simp only [edits, hphase, hop, hargs, List.mem_map] at hlater
    rw [candidate?_editAll fun edit hedit => ?_]
    obtain ⟨item, -, rfl⟩ := hlater edit hedit
    rfl
  · next hphase hop hargs =>
    rw [hnone hphase (.inr hop)]
    rfl
  · rfl
  · next hphase hop hargs =>
    rw [hnone hphase (.inl hop)]
    rfl
  · rfl

end Roles

namespace HashLock

theorem edits_editAll {maxLength : Nat} {later : List Edit} (hop : s.opcode ≠ .sha3)
    (hlater : ∀ edit ∈ later, edit ∈ edits maxLength τ s) :
    edits maxLength (τ.editAll later) s = edits maxLength τ s := by
  unfold edits at hlater ⊢
  split
  · rfl
  · next hsha _ _ => exact absurd hsha hop
  · next hphase hload hargs hstack =>
    simp only [hphase, hload, hargs, hstack, List.mem_append, List.mem_ite_nil_right,
      List.mem_singleton] at hlater
    have hne : ∀ edit ∈ later, .hashedInput ≠ edit.taint := by
      intro edit hedit
      rcases hlater edit hedit with hslot | ⟨-, rfl⟩
      · obtain ⟨slot, -, rfl⟩ := Item.mem_slotMarks.mp hslot
        exact nofun
      · exact nofun
    simp only [mem_get_editAll_of_ne hne]
  · next hphase heq hstack =>
    simp only [hphase, heq, hstack, List.mem_ite_nil_right, List.mem_singleton] at hlater
    have hne : ∀ edit ∈ later, .hashedInput ≠ edit.taint := by
      intro edit hedit
      obtain ⟨-, rfl⟩ := hlater edit hedit
      exact nofun
    simp only [mem_get_editAll_of_ne hne]
  · rfl

/-- At a hash the edits are those of a secret, or there are none. -/
theorem edits_hash (maxLength : Nat) (hop : s.opcode = .sha3) :
    (∀ τ, edits maxLength τ s = []) ∨ ∃ result, ∀ τ, edits maxLength τ s =
      .drop result .input :: if .input ∈ τ.get result then [.put result .hashedInput] else [] := by
  unfold edits
  split
  · next h _ => rw [hop] at h; cases h
  · next length _ result _ _ _ _ _ =>
    split
    · exact .inr ⟨result.tag, fun _ => rfl⟩
    · exact .inl fun _ => rfl
  · next h _ _ => rw [hop] at h; cases h
  · next h _ => rw [hop] at h; cases h
  · exact .inl fun _ => rfl

theorem same_editAll (maxLength : Nat) :
    ((τ.editAll (edits maxLength τ s)).editAll
      (edits maxLength (τ.editAll (edits maxLength τ s)) s)).Same
        (τ.editAll (edits maxLength τ s)) := by
  by_cases hop : s.opcode = .sha3
  · rcases edits_hash maxLength hop with hnone | ⟨result, hsecret⟩
    · rw [hnone, hnone]
      exact .refl _
    · have hgone : .input ∉ (τ.editAll (edits maxLength τ s)).get result := by
        have hcons (rest : List Edit) (h : ∀ edit ∈ rest, .input ≠ edit.taint) :
            .input ∉ (τ.editAll (.drop result .input :: rest)).get result := by
          show ¬.input ∈ ((τ.edit (.drop result .input)).editAll rest).get result
          rw [mem_get_editAll_of_ne h, mem_get_drop]
          exact fun h => h.1 ⟨rfl, rfl⟩
        rw [hsecret]
        refine hcons _ fun edit hedit => ?_
        rw [List.mem_ite_nil_right, List.mem_singleton] at hedit
        rw [hedit.2]
        exact nofun
      rw [hsecret (τ.editAll _), if_neg hgone]
      intro tag a
      show a ∈ ((τ.editAll _).edit (.drop result .input)).get tag ↔ _
      rw [mem_get_drop]
      refine and_iff_right_of_imp ?_
      rintro ha ⟨rfl, rfl⟩
      exact hgone ha
  · rw [edits_editAll hop fun _ h => h]
    exact same_editAll_editAll _ _

end HashLock

namespace Strategy

/-- Taints after a strategy has edited them. -/
def edited (st : Strategy) (s : Sight) (τ : Taints) : Taints := τ.editAll (st.edits τ s)

/-- **A second look changes nothing more.** -/
theorem edited_edited (hfresh : s.Fresh) (st : Strategy) (τ : Taints) :
    (st.edited s (st.edited s τ)).Same (st.edited s τ) := by
  have hequal (h : st.edits (τ.editAll (st.edits τ s)) s = st.edits τ s) :
      (st.edited s (st.edited s τ)).Same (st.edited s τ) := by
    rw [edited, edited, h]
    exact same_editAll_editAll _ _
  cases st with
  | ownership ceiling => exact hequal (Ownership.edits_editAll ceiling)
  | hashLock maxLength => exact HashLock.same_editAll maxLength
  | roles memo => exact hequal (Roles.edits_editAll fun _ h => h)
  | multipleAuthorization ceiling =>
    exact hequal (MultipleAuthorization.edits_editAll ceiling hfresh)
  | xConfirmation => exact hequal XConfirmation.edits_editAll
  | offChainSecret | singleOwner => exact .refl τ

theorem finding?_edited (st : Strategy) (τ : Taints) :
    st.finding? (st.edited s τ) s = st.finding? τ s := by
  unfold finding?
  split
  · next hphase hop _ =>
    rw [edited, edits_eq_nil hphase (.inl hop)]
    rfl
  · rfl

theorem next_edited (st : Strategy) (τ : Taints) : st.next (st.edited s τ) s = st.next τ s := by
  cases st with
  | roles memo => exact congrArg roles (Roles.next_editAll fun _ h => h)
  | _ => rfl

end Strategy

/-! ### Marks of others -/

section

variable {m : Edit}

/-- A mark is put after a caller or a known slot was read. -/
theorem Sight.mem_marks (h : m ∈ s.marks) :
    s.phase = .post ∧ ∃ result rest, s.stack = result :: rest ∧
      (s.opcode = .caller ∧ m = .put result.tag .caller ∨
        s.opcode = .sload ∧ ∃ key args slot, s.args = key :: args ∧ key.const? = some slot ∧
          m = .put result.tag (.storage (some slot))) := by
  unfold marks at h
  split at h
  · next hphase hop hstack =>
    exact ⟨hphase, _, _, hstack, .inl ⟨hop, List.mem_singleton.mp h⟩⟩
  · next hphase hop hargs hstack =>
    obtain ⟨slot, hslot, hm⟩ := Item.mem_slotMarks.mp h
    exact ⟨hphase, _, _, hstack, .inr ⟨hop, _, _, slot, hargs, hslot, hm⟩⟩
  · cases h

namespace Strategy

theorem finding?_of_post (hphase : s.phase = .post) (st : Strategy) (τ : Taints) :
    st.finding? τ s = none := by
  unfold finding?
  split
  · next h _ _ => rw [hphase] at h; cases h
  · rfl

/-- Where marks are put, no strategy edits by marks. -/
theorem edits_mark (hm : m ∈ s.marks) (st : Strategy) (τ : Taints) :
    st.edits (τ.edit m) s = st.edits τ s := by
  obtain ⟨hphase, result, rest, hstack, ⟨hop, rfl⟩ | ⟨hop, key, args, slot, hargs, hslot, rfl⟩⟩ :=
    Sight.mem_marks hm
  · cases st <;> simp [edits, Ownership.edits, HashLock.edits, Roles.edits,
      MultipleAuthorization.edits, XConfirmation.edits, hphase, hop, hstack, Opcode.caller]
  · cases st <;> simp [edits, Ownership.edits, HashLock.edits, Roles.edits,
      MultipleAuthorization.edits, XConfirmation.edits, hphase, hop, hstack, hargs, Opcode.sload,
      mem_get_put, TaintSet.hasAll]

theorem next_mark (hm : m ∈ s.marks) (st : Strategy) (τ : Taints) :
    st.next (τ.edit m) s = st.next τ s := by
  obtain ⟨hphase, result, rest, hstack, ⟨hop, rfl⟩ | ⟨hop, key, args, slot, hargs, hslot, rfl⟩⟩ :=
    Sight.mem_marks hm
  · cases st <;> simp [next, Roles.next, hphase, hop, hstack, Opcode.caller]
  · cases st <;> simp [next, Roles.next, hphase, hop, hstack, Opcode.sload]

/-- A strategy puts the marks that it reads. -/
theorem mem_edits_of_reads (hm : m ∈ s.marks) (hreads : st.Reads m.taint) (τ : Taints) :
    m ∈ st.edits τ s := by
  obtain ⟨hphase, result, rest, hstack, ⟨hop, rfl⟩ | ⟨hop, key, args, slot, hargs, hslot, rfl⟩⟩ :=
    Sight.mem_marks hm
  · cases st <;> simp_all [Reads, Decides, Judges, Names, Edit.taint, edits, Ownership.edits,
      Roles.edits, Opcode.caller]
  · cases st <;> simp_all [Reads, Decides, Judges, Names, Edit.taint, edits, Ownership.edits,
      HashLock.edits, MultipleAuthorization.edits, XConfirmation.edits, Opcode.sload,
      Item.slotMarks, Option.filter]

/-- Where marks are put, no strategy drops a taint. -/
theorem drop_not_mem_edits (hm : m ∈ s.marks) (st : Strategy) (τ : Taints) (tag : Nat) (a : Taint) :
    .drop tag a ∉ st.edits τ s := by
  obtain ⟨hphase, result, rest, hstack, ⟨hop, rfl⟩ | ⟨hop, key, args, slot, hargs, hslot, rfl⟩⟩ :=
    Sight.mem_marks hm
  · cases st <;> simp [edits, Ownership.edits, HashLock.edits, Roles.edits,
      MultipleAuthorization.edits, XConfirmation.edits, hphase, hop, hstack, Opcode.caller]
  · cases st <;> simp [edits, Ownership.edits, HashLock.edits, Roles.edits,
      MultipleAuthorization.edits, XConfirmation.edits, hphase, hop, hstack, hargs, Opcode.sload,
      Item.slotMarks]

/-- A strategy asks for the events at which marks are put that it reads. -/
theorem asks_of_reads (hm : m ∈ s.marks) (hreads : st.Reads m.taint) :
    st.Asks s.phase s.opcode := by
  obtain ⟨hphase, result, rest, hstack, ⟨hop, rfl⟩ | ⟨hop, key, args, slot, hargs, hslot, rfl⟩⟩ :=
    Sight.mem_marks hm
  · cases st <;> simp_all [Reads, Decides, Judges, Names, Edit.taint, Asks, opcodes,
      Ownership.postOpcodes, Roles.postOpcodes]
  · cases st <;> simp_all [Reads, Decides, Judges, Names, Edit.taint, Asks, opcodes,
      Ownership.postOpcodes, HashLock.postOpcodes, MultipleAuthorization.postOpcodes,
      XConfirmation.postOpcodes]

/-- **Marks that others put before make no difference to what is left.** -/
theorem edited_mark (hm : m ∈ s.marks) (hreads : st.Reads m.taint) (τ : Taints) :
    (st.edited s (τ.edit m)).Same (st.edited s τ) := by
  rw [edited, edits_mark hm]
  exact same_edit_editAll (mem_edits_of_reads hm hreads τ)

/-- **Nor do those that they put after.** -/
theorem mark_edited (hm : m ∈ s.marks) (hreads : st.Reads m.taint) (τ : Taints) :
    ((st.edited s τ).edit m).Same (st.edited s τ) := by
  obtain ⟨tag, a, rfl⟩ := Sight.put_of_mem_marks hm
  intro other b
  rw [mem_get_put]
  refine or_iff_right_of_imp ?_
  rintro ⟨rfl, rfl⟩
  exact mem_get_editAll_of_put (mem_edits_of_reads hm hreads τ) (drop_not_mem_edits hm _ _ _ _)

end Strategy

end

end GuardFinder

import GuardFinder.Proofs.Selection
import Mathlib.Data.List.FinRange
import Mathlib.Data.List.Perm.Basic

/-!
# The order of detectors

Detectors that are told of the same event work on the same taints one after the other. No two of
them meet: what one of them edits the other does not look at, or it is a mark, which decides nothing
where it is put; and where both edit a taint, both put the same mark. So they may be told in any
order.

* `Strategy.mem_marks_of_shared`: what detectors for two patterns both have to do with at an event
  are marks.
* `Detector.Meets`: what one detector does does not depend on whether the other was told before.
* `Registry.foldl_react`: **each detector sees the taints as they were before the event**.
* `Analysis.report_reordered`: reports list the same for each detector, in the order of the
  detectors.
-/

namespace GuardFinder

variable {τ τ' : Taints} {s : Sight} {st st' : Strategy}

/-! ### Edits of two strategies -/

namespace Taints

theorem Same.symm (h : τ.Same τ') : τ'.Same τ := fun tag a => (h tag a).symm

theorem Same.trans {τ'' : Taints} (h : τ.Same τ') (h' : τ'.Same τ'') : τ.Same τ'' :=
  fun tag a => (h tag a).trans (h' tag a)

theorem Same.editAll (h : τ.Same τ') (edits : List Edit) :
    (τ.editAll edits).Same (τ'.editAll edits) := by
  intro tag a
  have hagree : τ.AgreeAt (fun _ => True) τ' tag := fun a _ => h tag a
  exact hagree.editAll edits a trivial

theorem Same.inherit (h : τ.Same τ') (i : Inheritance) : (τ.inherit i).Same (τ'.inherit i) := by
  intro tag a
  rw [get_inherit, get_inherit]
  split
  · rw [mem_union, mem_union]
    exact exists_congr fun source => and_congr_right fun _ => h source a
  · exact h tag a

/-- Edits can be made in any order if where they meet all are puts. -/
theorem same_editAll_comm {es fs : List Edit}
    (h : ∀ e ∈ es, ∀ f ∈ fs, e.tag = f.tag → e.taint = f.taint →
      e = .put e.tag e.taint ∧ f = .put f.tag f.taint) (τ : Taints) :
    ((τ.editAll es).editAll fs).Same ((τ.editAll fs).editAll es) := by
  intro tag a
  by_cases hes : ∃ e ∈ es, e.tag = tag ∧ e.taint = a
  · by_cases hfs : ∃ f ∈ fs, f.tag = tag ∧ f.taint = a
    · obtain ⟨e, he, rfl, rfl⟩ := hes
      obtain ⟨f, hf, htag, htaint⟩ := hfs
      obtain ⟨hput, hput'⟩ := h e he f hf htag.symm htaint.symm
      rw [htag, htaint] at hput'
      -- neither list drops the taint, and both put it
      have hdrop : .drop e.tag e.taint ∉ es := fun hmem => by
        have := (h _ hmem f hf htag.symm htaint.symm).1
        cases this
      have hdrop' : .drop e.tag e.taint ∉ fs := fun hmem => by
        have := (h e he _ hmem rfl rfl).2
        cases this
      exact iff_of_true (mem_get_editAll_of_put (hput' ▸ hf) hdrop')
        (mem_get_editAll_of_put (hput ▸ he) hdrop)
    · have hnot : ∀ f ∈ fs, ¬(f.tag = tag ∧ f.taint = a) := fun f hf hboth => hfs ⟨f, hf, hboth⟩
      rw [mem_get_editAll_of_not hnot]
      exact mem_get_editAll_iff hes
  · have hnot : ∀ e ∈ es, ¬(e.tag = tag ∧ e.taint = a) := fun e he hboth => hes ⟨e, he, hboth⟩
    rw [mem_get_editAll_of_not hnot]
    by_cases hfs : ∃ f ∈ fs, f.tag = tag ∧ f.taint = a
    · exact mem_get_editAll_iff hfs
    · have hnot' : ∀ f ∈ fs, ¬(f.tag = tag ∧ f.taint = a) := fun f hf hboth => hfs ⟨f, hf, hboth⟩
      rw [mem_get_editAll_of_not hnot', mem_get_editAll_of_not hnot', mem_get_editAll_of_not hnot]

end Taints

/-- Taints are taken from the results of comparisons only. -/
theorem MultipleAuthorization.comparison_of_drop {ceiling : Word} {tag : Nat} {a : Taint}
    (h : .drop tag a ∈ edits ceiling τ s) :
    s.phase = .post ∧ (s.opcode = .lt ∨ s.opcode = .gt) := by
  unfold edits at h
  split at h
  · simp at h
  · next hphase hop _ _ => exact ⟨hphase, .inl hop⟩
  · next hphase hop _ _ => exact ⟨hphase, .inr hop⟩
  · cases h

namespace Strategy

theorem asks_cleared (st : Strategy) (phase : Phase) (op : Opcode) :
    st.cleared.Asks phase op ↔ st.Asks phase op := by
  cases st <;> exact .rfl

/-- One strategy asks for the results of order comparisons. -/
theorem pattern_of_asks {op : Opcode} (h : st.Asks .post op) (hop : op = .lt ∨ op = .gt) :
    st.pattern = .multipleAuthorization := by
  have hlisted (hne : st.pattern ≠ .multipleAuthorization) :
      .lt ∉ st.opcodes.2 ∧ .gt ∉ st.opcodes.2 := by
    cases st with
    | ownership =>
      exact (by decide : .lt ∉ Ownership.postOpcodes ∧ .gt ∉ Ownership.postOpcodes)
    | hashLock => exact (by decide : .lt ∉ HashLock.postOpcodes ∧ .gt ∉ HashLock.postOpcodes)
    | roles => exact (by decide : .lt ∉ Roles.postOpcodes ∧ .gt ∉ Roles.postOpcodes)
    | multipleAuthorization => exact absurd rfl hne
    | xConfirmation =>
      exact (by decide : .lt ∉ XConfirmation.postOpcodes ∧ .gt ∉ XConfirmation.postOpcodes)
    | offChainSecret | singleOwner => exact ⟨List.not_mem_nil, List.not_mem_nil⟩
  by_contra hne
  rcases hop with rfl | rfl
  · exact (hlisted hne).1 h
  · exact (hlisted hne).2 h

/-- **What two strategies have both to do with at an event are marks.** -/
theorem mem_marks_of_shared (hne : st.pattern ≠ st'.pattern) (hasks : st'.Asks s.phase s.opcode)
    {edit : Edit} (h : edit ∈ st.edits τ s) (hhandles : st'.pattern.Handles edit.taint) :
    edit ∈ s.marks := by
  have hmay := mem_edits h
  obtain ⟨mark, huse, -⟩ := (hmay.handles.eq_or_mark hhandles).resolve_left hne
  rcases hmay.marks with hown | hmem | ⟨hpattern, result, rest, slot, -, rfl⟩
  · rw [huse] at hown
    cases hown
  · exact hmem
  · -- the mark of a slot is taken away where no other strategy looks
    cases st with
    | multipleAuthorization ceiling =>
      obtain ⟨hphase, hop⟩ := MultipleAuthorization.comparison_of_drop h
      rw [hphase] at hasks
      exact absurd (pattern_of_asks hasks hop).symm hne
    | _ => cases hpattern

/-- Edits that do not matter to what a strategy does at a sight. -/
theorem unmoved_editAll {edits : List Edit}
    (h : ∀ edit ∈ edits, st.Reads edit.taint → edit ∈ s.marks) (τ : Taints) :
    st.edits (τ.editAll edits) s = st.edits τ s ∧ st.next (τ.editAll edits) s = st.next τ s ∧
      st.finding? (τ.editAll edits) s = st.finding? τ s := by
  induction edits generalizing τ with
  | nil => exact ⟨rfl, rfl, rfl⟩
  | cons edit rest ih =>
    obtain ⟨hedits, hnext, hfinding⟩ :=
      ih (fun e he => h e (List.mem_cons_of_mem _ he)) (τ.edit edit)
    rw [Taints.editAll, List.foldl_cons, ← Taints.editAll, hedits, hnext, hfinding]
    by_cases hread : st.Reads edit.taint
    · have hmark := h edit List.mem_cons_self hread
      have hphase := (Sight.mem_marks hmark).1
      refine ⟨edits_mark hmark st τ, next_mark hmark st τ, ?_⟩
      rw [finding?_of_post hphase, finding?_of_post hphase]
    · have hagree : s.Agree st.Reads (τ.edit edit) τ := by
        refine fun tag _ a ha => Taints.mem_get_edit_of_ne ?_
        rintro rfl
        exact hread ha
      exact ⟨edits_congr (hagree.mono fun _ ha => .inl ha),
        next_congr (hagree.mono fun _ ha => .inl ha),
        finding?_congr (hagree.mono fun _ ha => .inr (.inl ha))
          (hagree.mono fun _ ha => .inr (.inr ha))⟩

end Strategy

/-! ### Two detectors -/

namespace Detector

/-- Taints after a detector has edited them. -/
def edited (d : Detector) (s : Sight) (τ : Taints) : Taints := τ.editAll (d.edits τ s)

/-- Two detectors that may be told of an event in any order. -/
structure Meets (d d' : Detector) (s : Sight) : Prop where
  /-- The first does the same after the other was told. -/
  after : ∀ τ, d.after (d'.edited s τ) s = d.after τ s
  comm : ∀ τ, (d.edited s (d'.edited s τ)).Same (d'.edited s (d.edited s τ))

variable {d d' : Detector}

theorem edits_congr (h : τ.Same τ') (d : Detector) (s : Sight) : d.edits τ s = d.edits τ' s := by
  unfold edits
  rw [Strategy.edits_congr (h.agree s _)]

theorem after_congr (h : τ.Same τ') (d : Detector) (s : Sight) : d.after τ s = d.after τ' s := by
  unfold after
  rw [Strategy.next_congr (h.agree s _), Strategy.finding?_congr (h.agree s _) (h.agree s _)]

theorem edited_congr (h : τ.Same τ') (d : Detector) (s : Sight) :
    (d.edited s τ).Same (d.edited s τ') := by
  rw [edited, edited, edits_congr h]
  exact h.editAll _

theorem edited_of_reported (h : d.reported.contains s.functionName = true) (τ : Taints) :
    d.edited s τ = τ := by
  rw [edited, edits, if_pos h]
  rfl

theorem edited_of_not_reported (h : ¬d.reported.contains s.functionName = true) (τ : Taints) :
    d.edited s τ = d.strategy.edited s τ := by
  rw [edited, edits, if_neg h, Strategy.edited]

/-- A copy of a detector that was told before makes no difference. -/
theorem meets_self (d : Detector) (s : Sight) : d.Meets d s where
  after τ := by
    by_cases h : d.reported.contains s.functionName = true
    · rw [edited_of_reported h]
    · rw [edited_of_not_reported h, after, after, if_neg h, if_neg h, Strategy.next_edited,
        Strategy.finding?_edited]
  comm _ := .refl _

/-- **Detectors for two patterns may be told in any order.** -/
theorem meets_of_ne (hne : d.strategy.pattern ≠ d'.strategy.pattern)
    (hasks : d.strategy.Asks s.phase s.opcode) (hasks' : d'.strategy.Asks s.phase s.opcode) :
    d.Meets d' s := by
  by_cases h : d.reported.contains s.functionName = true
  · refine ⟨fun τ => ?_, fun τ => ?_⟩
    · rw [after, after, if_pos h, if_pos h]
    · rw [edited_of_reported h, edited_of_reported h]
      exact .refl _
  by_cases h' : d'.reported.contains s.functionName = true
  · refine ⟨fun τ => ?_, fun τ => ?_⟩
    · rw [edited_of_reported h']
    · rw [edited_of_reported h', edited_of_reported h']
      exact .refl _
  -- both look: what the one reads of the edits of the other are marks
  have hmarks (τ : Taints) : ∀ edit ∈ d.strategy.edits τ s, d'.strategy.Reads edit.taint →
      edit ∈ s.marks := fun edit hedit hreads =>
    Strategy.mem_marks_of_shared hne hasks' hedit hreads.handles
  have hmarks' (τ : Taints) : ∀ edit ∈ d'.strategy.edits τ s, d.strategy.Reads edit.taint →
      edit ∈ s.marks := fun edit hedit hreads =>
    Strategy.mem_marks_of_shared (Ne.symm hne) hasks hedit hreads.handles
  refine ⟨fun τ => ?_, fun τ => ?_⟩
  · obtain ⟨-, hnext, hfinding⟩ := Strategy.unmoved_editAll (hmarks' τ) τ
    rw [edited_of_not_reported h', after, after, if_neg h, if_neg h, Strategy.edited, hnext,
      hfinding]
  · have hedits := (Strategy.unmoved_editAll (hmarks' τ) τ).1
    have hedits' := (Strategy.unmoved_editAll (hmarks τ) τ).1
    simp only [edited_of_not_reported h, edited_of_not_reported h', Strategy.edited, hedits,
      hedits']
    refine (Taints.same_editAll_comm (fun e he f hf _ htaint => ?_) τ).symm
    have he' := Strategy.mem_marks_of_shared hne hasks' he
      (htaint ▸ (Strategy.mem_edits hf).handles)
    have hf' := Strategy.mem_marks_of_shared (Ne.symm hne) hasks hf
      (htaint ▸ (Strategy.mem_edits he).handles)
    obtain ⟨tag, a, rfl⟩ := Sight.put_of_mem_marks he'
    obtain ⟨tag', a', rfl⟩ := Sight.put_of_mem_marks hf'
    exact ⟨rfl, rfl⟩

end Detector

/-! ### All detectors that are told -/

/-- Taints after detectors have edited them, one after the other. -/
def Detector.editedAll (s : Sight) (τ : Taints) (ds : List Detector) : Taints :=
  ds.foldl (fun τ d => d.edited s τ) τ

namespace Detector

variable {ds ds' : List Detector}

theorem editedAll_congr (h : τ.Same τ') (ds : List Detector) :
    (editedAll s τ ds).Same (editedAll s τ' ds) := by
  induction ds generalizing τ τ' with
  | nil => exact h
  | cons d rest ih => exact ih (edited_congr h d s)

/-- **Any order will do.** -/
theorem editedAll_perm (hperm : ds.Perm ds') (hmeets : ∀ d ∈ ds, ∀ d' ∈ ds, d.Meets d' s)
    (τ : Taints) : (editedAll s τ ds).Same (editedAll s τ ds') := by
  induction hperm generalizing τ with
  | nil => exact .refl τ
  | cons d _ ih =>
    exact ih (fun d hd d' hd' => hmeets d (List.mem_cons_of_mem _ hd) d' (List.mem_cons_of_mem _ hd'))
      (d.edited s τ)
  | swap d d' rest =>
    have hcomm := (hmeets d (List.mem_cons_of_mem _ List.mem_cons_self) d' List.mem_cons_self).comm τ
    exact editedAll_congr hcomm rest
  | trans hperm _ ih ih' =>
    refine (ih hmeets τ).trans (ih' (fun d hd d' hd' => ?_) τ)
    exact hmeets d (hperm.mem_iff.mpr hd) d' (hperm.mem_iff.mpr hd')

end Detector

/-- **Each detector that is told of an event does what it would have done at first.** -/
theorem Registry.foldl_react {subscribers : List Nat} (hnodup : subscribers.Nodup)
    (ds : List Detector) (hlisted : ∀ i ∈ subscribers, ∃ d, ds[i]? = some d)
    (hmeets : ∀ i ∈ subscribers, ∀ j ∈ subscribers, ∀ d d', ds[i]? = some d → ds[j]? = some d' →
      d.Meets d' s) (τ : Taints) :
    (∀ j : Nat, (subscribers.foldl (fun a i => react i s a) (⟨ds⟩, τ)).1.detectors[j]? =
        if j ∈ subscribers then ds[j]?.map (·.after τ s) else ds[j]?) ∧
      (subscribers.foldl (fun a i => react i s a) (⟨ds⟩, τ)).2 =
        Detector.editedAll s τ (subscribers.filterMap (ds[·]?)) := by
  induction subscribers generalizing ds τ with
  | nil => exact ⟨fun j => by rw [if_neg List.not_mem_nil]; rfl, rfl⟩
  | cons i rest ih =>
    obtain ⟨hi, hrest⟩ := List.nodup_cons.mp hnodup
    obtain ⟨d, hd⟩ := hlisted i List.mem_cons_self
    have hlt : i < ds.length := (List.getElem?_eq_some_iff.mp hd).1
    have hreact : react i s (⟨ds⟩, τ) = (⟨ds.set i (d.after τ s)⟩, d.edited s τ) := by
      simp only [react, hd, Detector.edited]
    -- those who are told later are as they were
    have hlater {j : Nat} (hj : j ∈ rest) : (ds.set i (d.after τ s))[j]? = ds[j]? := by
      rw [List.getElem?_set_ne]
      rintro rfl
      exact hi hj
    obtain ⟨hplaces, htaints⟩ := ih hrest (ds.set i (d.after τ s))
      (fun j hj => by rw [hlater hj]; exact hlisted j (List.mem_cons_of_mem _ hj))
      (fun j hj k hk d d' => by
        rw [hlater hj, hlater hk]
        exact hmeets j (List.mem_cons_of_mem _ hj) k (List.mem_cons_of_mem _ hk) d d')
      (d.edited s τ)
    rw [List.foldl_cons, hreact]
    refine ⟨fun j => ?_, ?_⟩
    · rw [hplaces j]
      by_cases hj : j = i
      · subst hj
        rw [if_neg hi, if_pos List.mem_cons_self, hd, List.getElem?_set_self hlt]
        rfl
      · by_cases hmem : j ∈ rest
        · obtain ⟨other, hother⟩ := hlisted j (List.mem_cons_of_mem _ hmem)
          have hmeets := hmeets j (List.mem_cons_of_mem _ hmem) i List.mem_cons_self other d
            hother hd
          rw [if_pos hmem, if_pos (List.mem_cons_of_mem _ hmem), hlater hmem, hother,
            Option.map_some, Option.map_some, hmeets.after]
        · rw [if_neg hmem, if_neg fun h => (List.mem_cons.mp h).elim hj hmem,
            List.getElem?_set_ne (Ne.symm hj)]
    · have hsame : rest.filterMap ((ds.set i (d.after τ s))[·]?) = rest.filterMap (ds[·]?) :=
        List.filterMap_congr fun j hj => hlater hj
      rw [htaints, hsame, List.filterMap_cons_some hd]
      rfl

/-! ### Analyses -/

/-- The places of a list at which something holds, taken in any order, are those of the members for
which it holds. -/
theorem perm_filterMap_getElem? {α β : Type} {l : List α} {places : List Nat} (g : α → β)
    {keep : α → Prop} [DecidablePred keep] (hnodup : places.Nodup)
    (hplaces : ∀ i, i ∈ places ↔ ∃ a, l[i]? = some a ∧ keep a) :
    (places.filterMap ((l.map g)[·]?)).Perm ((l.filter keep).map g) := by
  have hperm : places.Perm ((l.zipIdx.filter (keep ·.1)).map Prod.snd) := by
    refine (List.perm_ext_iff_of_nodup hnodup ?_).mpr fun i => ?_
    · refine List.Nodup.sublist (List.filter_sublist.map _) ?_
      rw [List.zipIdx_map_snd]
      exact List.nodup_range'
    · rw [hplaces i]
      simp only [List.mem_map, List.mem_filter, decide_eq_true_eq, Prod.exists, exists_eq_right,
        List.mem_zipIdx_iff_getElem?]
  refine (hperm.filterMap _).trans (List.Perm.of_eq ?_)
  rw [List.filterMap_map]
  have hentries : (l.zipIdx.filter (keep ·.1)).filterMap ((fun i => (l.map g)[i]?) ∘ Prod.snd) =
      (l.zipIdx.filter (keep ·.1)).map (g ∘ Prod.fst) := by
    rw [← List.filterMap_eq_map (f := g ∘ Prod.fst)]
    refine List.filterMap_congr fun entry hentry => ?_
    have hplace := List.mem_zipIdx_iff_getElem?.mp (List.mem_of_mem_filter hentry)
    simp only [Function.comp_apply, List.getElem?_map, hplace, Option.map_some]
  have hfirsts : (l.zipIdx.filter (keep ·.1)).map Prod.fst = l.filter keep := by
    conv_rhs => rw [← List.zipIdx_map_fst 0 l]
    rw [List.filter_map]
    rfl
  rw [hentries, ← List.map_map, hfirsts]

namespace Analysis

variable {settings : Settings} {ps qs : List Pattern} {a b : Registry × Taints}

/-- The detectors of two analyses, in two orders: those for a pattern are the same, and so are the
taints. -/
def Reordered (settings : Settings) (ps qs : List Pattern) (a b : Registry × Taints) : Prop :=
  ∃ f : Pattern → Detector, (∀ p, (f p).reset = .ofPattern settings p) ∧
    a.1 = ⟨ps.map f⟩ ∧ b.1 = ⟨qs.map f⟩ ∧ a.2.Same b.2

/-- The detectors after an event: those that ask for it have been told. -/
def told (settings : Settings) (op : Opcode) (e : Event) (τ : Taints) (f : Pattern → Detector)
    (p : Pattern) : Detector :=
  if (Strategy.ofPattern settings p).Asks e.phase op then (f p).after τ e.sight else f p

/-- Two detectors for patterns, the same for copies, may be told in any order. -/
theorem meets_of_asks {f : Pattern → Detector} (hf : ∀ p, (f p).reset = .ofPattern settings p)
    {op : Opcode} {e : Event} (he : e.About op) {p q : Pattern}
    (hp : (Strategy.ofPattern settings p).Asks e.phase op)
    (hq : (Strategy.ofPattern settings q).Asks e.phase op) : (f p).Meets (f q) e.sight := by
  obtain ⟨hphase, hop⟩ := he.sight
  have hasks {p : Pattern} (hp : (Strategy.ofPattern settings p).Asks e.phase op) :
      (f p).strategy.Asks e.sight.phase e.sight.opcode := by
    rw [← Selection.cleared_of_reset (hf p), Strategy.asks_cleared] at hp
    rwa [hphase, hop]
  by_cases hpq : p = q
  · rw [hpq]
    exact Detector.meets_self _ _
  · refine Detector.meets_of_ne ?_ (hasks hp) (hasks hq)
    rwa [Selection.pattern_of_reset (hf p), Selection.pattern_of_reset (hf q)]

/-- What the detectors make of an event. -/
theorem hear_event {f : Pattern → Detector} (hf : ∀ p, (f p).reset = .ofPattern settings p)
    {op : Opcode} {e : Event} (he : e.About op) (code : Bytes) (τ : Taints) :
    ∃ ds, ds.Perm ((ps.filter fun p => (Strategy.ofPattern settings p).Asks e.phase op).map f) ∧
      ((ofPatterns settings ps).prepare.explorer.setting Registry.observer code).hear Registry.react
          (⟨ps.map f⟩, τ) (.event op e) =
        (⟨ps.map (told settings op e τ f)⟩, Detector.editedAll e.sight τ ds) := by
  have hmem (i : Nat) :=
    @mem_subscribers settings ps Registry Registry.observer code e.phase op i
  have hnodup := @nodup_subscribers settings ps Registry Registry.observer code e.phase op
  generalize hsubscribers : ((ofPatterns settings ps).prepare.explorer.setting Registry.observer
    code).subscribers e.phase op = subscribers at hmem hnodup
  obtain ⟨hplaces, htaints⟩ := Registry.foldl_react hnodup (ps.map f)
    (fun i hi => by
      obtain ⟨p, hp, -⟩ := (hmem i).mp hi
      exact ⟨f p, by rw [List.getElem?_map, hp]; rfl⟩)
    (fun i hi j hj d d' hd hd' => by
      obtain ⟨p, hp, hasks⟩ := (hmem i).mp hi
      obtain ⟨q, hq, hasks'⟩ := (hmem j).mp hj
      rw [List.getElem?_map, hp] at hd
      rw [List.getElem?_map, hq] at hd'
      obtain rfl := Option.some.inj hd
      obtain rfl := Option.some.inj hd'
      exact meets_of_asks hf he hasks hasks') τ
  refine ⟨_, perm_filterMap_getElem? f hnodup hmem, ?_⟩
  rw [Setting.hear, hsubscribers, ← htaints]
  refine Prod.ext (congrArg Registry.mk (List.ext_getElem? fun j => ?_)) rfl
  rw [hplaces j, List.getElem?_map, List.getElem?_map]
  cases hp : ps[j]? with
  | none => simp
  | some p =>
    have hasks : j ∈ subscribers ↔ (Strategy.ofPattern settings p).Asks e.phase op := by
      rw [hmem j, hp]
      simp
    simp only [Option.map_some, hasks, told]
    split <;> rfl

/-- **Detectors in two orders stay the same during an exploration.** -/
theorem reordered_hear (hperm : ps.Perm qs) (code : Bytes) {signal : Signal} (hsound : signal.Sound)
    (h : Reordered settings ps qs a b) :
    Reordered settings ps qs
      (((ofPatterns settings ps).prepare.explorer.setting Registry.observer code).hear
        Registry.react a signal)
      (((ofPatterns settings qs).prepare.explorer.setting Registry.observer code).hear
        Registry.react b signal) := by
  obtain ⟨r, τ⟩ := a
  obtain ⟨r', τ'⟩ := b
  obtain ⟨f, hf, rfl, rfl, hsame⟩ := h
  cases signal with
  | inherit i => exact ⟨f, hf, rfl, rfl, hsame.inherit i⟩
  | message m => exact ⟨f, hf, rfl, rfl, hsame⟩
  | event op e =>
    obtain ⟨ds, hds, heq⟩ := @hear_event settings ps f hf op e hsound code τ
    obtain ⟨ds', hds', heq'⟩ := @hear_event settings qs f hf op e hsound code τ'
    have htold : told settings op e τ' f = told settings op e τ f := by
      funext p
      rw [told, told, Detector.after_congr hsame.symm]
    rw [heq, heq', htold]
    refine ⟨told settings op e τ f, fun p => ?_, rfl, rfl, ?_⟩
    · rw [told]
      split
      · rw [Detector.reset_after, hf]
      · exact hf p
    · have hperm' : ds.Perm ds' :=
        (hds.trans ((hperm.filter _).map f)).trans hds'.symm
      refine (Detector.editedAll_perm hperm' (fun d hd d' hd' => ?_) τ).trans
        (Detector.editedAll_congr hsame ds')
      obtain ⟨p, hp, rfl⟩ := List.mem_map.mp (hds.mem_iff.mp hd)
      obtain ⟨q, hq, rfl⟩ := List.mem_map.mp (hds.mem_iff.mp hd')
      exact meets_of_asks hf hsound (of_decide_eq_true (List.mem_filter.mp hp).2)
        (of_decide_eq_true (List.mem_filter.mp hq).2)

/-- **What a detector finds depends on its pattern, and not on its place.** -/
theorem exists_explored (settings : Settings) (hperm : ps.Perm qs) (target : Target) :
    ∃ f : Pattern → Detector, (∀ p, (f p).reset = .ofPattern settings p) ∧
      ((ofPatterns settings ps).explored target).watch.1 = ⟨ps.map f⟩ ∧
      ((ofPatterns settings qs).explored target).watch.1 = ⟨qs.map f⟩ := by
  have hlockstep (code : Bytes) : Lockstep settings.limits
      (((ofPatterns settings ps).prepare.explorer.setting Registry.observer code).hear
        Registry.react)
      (((ofPatterns settings qs).prepare.explorer.setting Registry.observer code).hear
        Registry.react) fun g g' a b => g' = g ∧ Reordered settings ps qs a b := by
    refine lockstep_same (fun a b signal hsound h => ?_) _
    exact reordered_hear hperm code hsound h
  obtain ⟨_, _, -, -, -, f, hf, hps, hqs, -⟩ :=
    explored_lockstep settings ps qs target hlockstep fun entry =>
      ⟨rfl, .ofPattern settings, Detector.reset_ofPattern settings, rfl, rfl, .refl _⟩
  exact ⟨f, hf, hps, hqs⟩

/-! ### Reports -/

/-- An item with what its slots hold filled in, or as it is where a slot cannot be read. -/
def resolved (address : Address) (reader : StorageReader) (item : ReportItem) : ReportItem :=
  { item with
    findings := item.findings.mapM (resolveFinding address reader) |>.toOption.getD item.findings }

/-- Items are resolved one by one, and all of them or none. -/
theorem resolveItems_eq_ok_iff {address : Address} {reader : StorageReader}
    {items items' : List ReportItem} : resolveItems address reader items = .ok items' ↔
      (∀ item ∈ items, ∃ fs, item.findings.mapM (resolveFinding address reader) = .ok fs) ∧
        items' = items.map (resolved address reader) := by
  unfold resolveItems
  induction items generalizing items' with
  | nil =>
    rw [List.mapM_nil]
    exact ⟨fun h => ⟨by simp, (Except.ok.inj h).symm⟩, fun h => h.2 ▸ rfl⟩
  | cons item rest ih =>
    rw [List.mapM_cons, List.forall_mem_cons, List.map_cons]
    cases hitem : item.findings.mapM (resolveFinding address reader) with
    | error e =>
      refine ⟨fun h => (by cases h), ?_⟩
      rintro ⟨⟨⟨fs, h⟩, -⟩, -⟩
      cases h
    | ok fs =>
      have hresolved : resolved address reader item = { item with findings := fs } := by
        rw [resolved, hitem]
        rfl
      rw [hresolved]
      constructor
      · intro h
        cases hrest : rest.mapM fun item => do
            let findings ← item.findings.mapM (resolveFinding address reader)
            return { item with findings } with
        | error e =>
          rw [hrest] at h
          cases h
        | ok items =>
          rw [hrest] at h
          obtain ⟨hall, rfl⟩ := ih.mp hrest
          exact ⟨⟨⟨fs, rfl⟩, hall⟩, (Except.ok.inj h).symm⟩
      · rintro ⟨⟨-, hrest⟩, rfl⟩
        rw [ih.mpr ⟨hrest, rfl⟩]
        rfl

/-- **A report on the same detectors in another order** has the same items in that order. -/
theorem report_perm (hperm : ps.Perm qs) (d : Pattern → Detector) {target : Target}
    {reader : Option StorageReader} {r : Report} (h : report target reader ⟨ps.map d⟩ = .ok r) :
    ∃ item : Pattern → ReportItem, r.items = ps.map item ∧
      report target reader ⟨qs.map d⟩ = .ok { r with items := qs.map item } := by
  simp only [report, List.map_map] at h ⊢
  generalize reportItem ∘ d = item at h ⊢
  cases haddress : target.address? with
  | none =>
    simp only [haddress] at h ⊢
    obtain rfl := Except.ok.inj h
    exact ⟨item, rfl, rfl⟩
  | some address =>
    cases reader with
    | none =>
      simp only [haddress] at h ⊢
      obtain rfl := Except.ok.inj h
      exact ⟨item, rfl, rfl⟩
    | some reader =>
      simp only [haddress] at h ⊢
      cases hitems : resolveItems address reader (ps.map item) with
      | error e =>
        rw [hitems] at h
        cases h
      | ok items =>
        rw [hitems] at h
        obtain rfl := Except.ok.inj h
        obtain ⟨hall, rfl⟩ := resolveItems_eq_ok_iff.mp hitems
        have hitems' : resolveItems address reader (qs.map item) =
            .ok ((qs.map item).map (resolved address reader)) :=
          resolveItems_eq_ok_iff.mpr ⟨fun i hi => hall i ((hperm.map item).mem_iff.mpr hi), rfl⟩
        rw [hitems']
        exact ⟨resolved address reader ∘ item, List.map_map, by rw [← List.map_map]; rfl⟩

/-- **The order of the patterns is irrelevant.** A run with the patterns in another order ends with
a report whenever the run with the patterns in this order does, and it has the same items, each at
the new place of its pattern. -/
theorem report_reordered (settings : Settings) (ps : List Pattern)
    (π : Equiv.Perm (Fin ps.length)) (target : Target) :
    (∀ snapshot : Option Snapshot, ∃ report,
      (ofPatterns settings ps).outcome target (snapshot.map Snapshot.reader) = .ok report) ∧
    ∀ (reader : Option StorageReader) (report : Report),
      (ofPatterns settings ps).outcome target reader = .ok report →
      ∃ report', (ofPatterns settings (List.ofFn fun i => ps.get (π i))).outcome target reader =
          .ok report' ∧
        report.items.length = ps.length ∧ report'.items.length = ps.length ∧
        ∀ i : Fin ps.length, report'.items[i.val]? = report.items[(π i).val]? := by
  generalize hqs : (List.ofFn fun i => ps.get (π i)) = qs
  have hperm : ps.Perm qs := by
    have h := (π.ofFn_comp_perm ps.get).symm
    rw [List.ofFn_get] at h
    exact hqs ▸ h
  obtain ⟨f, -, hwatch, hwatch'⟩ := exists_explored settings hperm target
  obtain ⟨space, hspace, hspace', hsupported⟩ := result_explored settings ps qs target
  -- The detectors are shown the same state space, each for itself.
  let d := fun p => (f p).inspected (.structural settings.solverTimeout) space
  have houtcome (reader : Option StorageReader) :
      (ofPatterns settings ps).outcome target reader = report target reader ⟨ps.map d⟩ := by
    rw [outcome_eq (Oracle.blind_structural _) hspace hsupported reader, hwatch,
      Registry.inspected, List.map_map]
    rfl
  have houtcome' (reader : Option StorageReader) :
      (ofPatterns settings qs).outcome target reader = report target reader ⟨qs.map d⟩ := by
    rw [outcome_eq (Oracle.blind_structural _) hspace' hsupported reader, hwatch',
      Registry.inspected, List.map_map]
    rfl
  constructor
  · intro snapshot
    rw [houtcome]
    exact report_succeeds target snapshot _
  · intro reader report hreport
    rw [houtcome] at hreport
    obtain ⟨item, hitems, hreport'⟩ := report_perm hperm d hreport
    refine ⟨_, (houtcome' reader).trans hreport', ?_, ?_, fun i => ?_⟩
    · rw [hitems, List.length_map]
    · rw [List.length_map, hperm.length_eq]
    · rw [hitems, List.getElem?_map, List.getElem?_map, ← hqs, List.getElem?_ofFn]
      simp

/-- Of three detectors the first two change their places. -/
theorem report_reordered_readAgain :
    ∃ report report',
      (ofPatterns {} [.ownership, .xConfirmation, .ownership]).outcome
        (.deployed ⟨0⟩ readAgainCode) none = .ok report ∧
      (ofPatterns {} [.xConfirmation, .ownership, .ownership]).outcome
        (.deployed ⟨0⟩ readAgainCode) none = .ok report' ∧
      report'.items[1]?.map (·.findings) =
        some [⟨"fallback", some 0, none⟩, ⟨"_function_0x00000007", some 0, none⟩] ∧
      report'.items[0]? = report.items[1]? ∧ report'.items[2]? = report.items[2]? := by
  obtain ⟨hreports, hreordered⟩ := report_reordered {} [.ownership, .xConfirmation, .ownership]
    (Equiv.swap 0 1) (.deployed ⟨0⟩ readAgainCode)
  obtain ⟨report, hreport⟩ := hreports none
  obtain ⟨report', hreport', -, -, hitems⟩ := hreordered none report hreport
  refine ⟨report, report', hreport, hreport', ?_, hitems 0, hitems 2⟩
  have hfirst : report'.items[1]? = report.items[0]? := hitems 1
  have hfindings : (ofPatterns {} [.ownership, .xConfirmation, .ownership]).listed
      (.deployed ⟨0⟩ readAgainCode) none = .ok [
        [⟨"fallback", some 0, none⟩, ⟨"_function_0x00000007", some 0, none⟩], [],
        [⟨"fallback", some 0, none⟩, ⟨"_function_0x00000007", some 0, none⟩]] := by
    decide +kernel
  have hlists : report.items.map (·.findings) = [
      [⟨"fallback", some 0, none⟩, ⟨"_function_0x00000007", some 0, none⟩], [],
      [⟨"fallback", some 0, none⟩, ⟨"_function_0x00000007", some 0, none⟩]] := by
    rw [listed, hreport] at hfindings
    exact Except.ok.inj hfindings
  rw [hfirst, ← List.getElem?_map, hlists]
  rfl

end Analysis

end GuardFinder

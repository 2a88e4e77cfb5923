import GuardFinder.Proofs.GuardWitnesses
import GuardFinder.Proofs.Stories

/-!
# The slot of an owner

An owner check is found at a branch, by the marks of the two sides of a comparison that have come
down to the condition. What else has come down to it shows there as well: the slot that is reported
is the least plain slot of all that the condition carries. A compared slot is among them, but it
need not be the least.

* `Moment.Compares`: a path is about to compare the caller with what carries a slot.
  `Analysis.Compared`: it has done so.
* `Analysis.ownsCompared_of_visits`: the owner's mark goes with a slot that was compared.
* `Analysis.owner_slot_least`: **an owner check is reported with the least plain slot of its
  condition, and the condition carries a compared one**.
-/

namespace GuardFinder

/-! ### Comparisons -/

/-- The taints of a value at a moment. -/
def Moment.taintsOf (m : Moment Registry) (v : Value) : TaintSet := m.watch.2.taints.get v.tag

/-- The first path of a moment is about to compare the caller with what carries a slot. The list is
what the path will have executed then. -/
inductive Moment.Compares (x : Setting Registry) (m : Moment Registry) (slot : Word) :
    List Frame → Prop
  | intro {p : Path} {past : List Frame} {rest : List (Path × List Frame)} {ins : Instruction}
      {left right : Value} {others : List Value} (first : m.tracks = (p, past) :: rest)
      (at_ins : x.program.at? p.pc = some ins) (opcode : ins.opcode = .eq)
      (stack : p.stack = left :: right :: others)
      (sides : .caller ∈ m.taintsOf left ∧ .storage (some slot) ∈ m.taintsOf right ∨
        .caller ∈ m.taintsOf right ∧ .storage (some slot) ∈ m.taintsOf left) :
      Compares x m slot (past ++ [⟨ins, p.stack⟩])

/-- Whether the first path of a moment is about to compare the caller with what carries a slot. -/
def Moment.compares (x : Setting Registry) (m : Moment Registry) (slot : Word) : Bool :=
  match m.tracks with
  | (p, _) :: _ =>
    match p.stack with
    | left :: right :: _ =>
      (x.program.at? p.pc).any (·.opcode = .eq) &&
        (.caller ∈ m.taintsOf left && .storage (some slot) ∈ m.taintsOf right ||
          .caller ∈ m.taintsOf right && .storage (some slot) ∈ m.taintsOf left)
    | _ => false
  | [] => false

theorem Moment.Compares.compares {x : Setting Registry} {m : Moment Registry} {slot : Word}
    {done : List Frame} (h : m.Compares x slot done) : m.compares x slot = true := by
  cases h with
  | intro first at_ins opcode stack sides =>
    simp only [Moment.compares, first, stack, at_ins, opcode, Option.any_some, decide_true,
      Bool.true_and, Bool.or_eq_true, Bool.and_eq_true, decide_eq_true_eq]
    exact sides

namespace Analysis

variable {a : Analysis} {target : Target} {code : Bytes} {slot : Word} {past : List Frame}

/-- A path has compared the caller with what carried a slot. The frames of its past have the values
that they found, which no other path has. -/
def Compared (a : Analysis) (target : Target) (code : Bytes) (slot : Word) (past : List Frame) :
    Prop :=
  ∃ m done, a.Visits target code m ∧ m.Compares (a.setting code) slot done ∧ done <+: past

theorem Compared.later (h : a.Compared target code slot past) (f : Frame) :
    a.Compared target code slot (past ++ [f]) := by
  obtain ⟨m, done, hvisits, hcompares, hprefix⟩ := h
  exact ⟨m, done, hvisits, hcompares, hprefix.trans (List.prefix_append past [f])⟩

/-- What is marked as the owner carries a plain slot that was compared. -/
def OwnsCompared (a : Analysis) (target : Target) (code : Bytes) (ceiling : Word)
    (past : List Frame) (taints : TaintSet) : Prop :=
  .equality .owner ∈ taints → ∃ slot < ceiling, .storage (some slot) ∈ taints ∧
    a.Compared target code slot past

theorem heritable_ownsCompared (a : Analysis) (target : Target) (code : Bytes) (ceiling : Word) :
    Heritable (a.OwnsCompared target code ceiling) where
  empty := fun past h => absurd h (TaintSet.not_mem_empty _)
  later := by
    intro past taints f h howner
    obtain ⟨slot, hlt, hmem, hcompared⟩ := h howner
    exact ⟨slot, hlt, hmem, hcompared.later f⟩
  union := by
    intro past taints taints' h h' howner
    simp only [TaintSet.mem_union] at howner ⊢
    rcases howner with howner | howner
    · obtain ⟨slot, hlt, hmem, hcompared⟩ := h howner
      exact ⟨slot, hlt, .inl hmem, hcompared⟩
    · obtain ⟨slot, hlt, hmem, hcompared⟩ := h' howner
      exact ⟨slot, hlt, .inr hmem, hcompared⟩

end Analysis

/-! ### Events -/

section

variable {s : Settings} {st : Strategy} {τ : Taints} {sight : Sight} {tag : Nat}

/-- Before an instruction no strategy changes the marks on what was read. -/
theorem Strategy.mark_mem_editAll {a : Taint} {mark : Mark}
    (hst : st.pattern ≠ .multipleAuthorization) (hphase : sight.phase = .pre)
    (ha : a.use = .mark mark) :
    a ∈ (τ.editAll (st.edits τ sight)).get tag ↔ a ∈ τ.get tag := by
  refine Taints.mem_get_editAll_of_ne fun edit hedit heq => ?_
  rcases (Strategy.mem_edits hedit).marks with huse | hmem | htakes
  · rw [← heq, ha] at huse
    cases huse
  · unfold Sight.marks at hmem
    rw [hphase] at hmem
    exact absurd hmem List.not_mem_nil
  · exact hst htakes.1

/-- The owner's mark is put on one side of a comparison, while the other side is the caller. -/
theorem Moment.compares_of_put {x : Setting Registry} {m : Moment Registry} {p : Path}
    {past : List Frame} {rest : List (Path × List Frame)} {ins : Instruction} {ceiling : Word}
    (htracks : m.tracks = (p, past) :: rest) (hins : x.program.at? p.pc = some ins)
    (hmarks : ∀ tag a mark, a.use = .mark mark → (a ∈ τ.get tag ↔ a ∈ m.watch.2.taints.get tag))
    (hput : .put tag (.equality .owner) ∈
      Ownership.edits ceiling τ (Event.sight ⟨.pre, p.view ins, p.lastFrame⟩)) :
    ∃ slot < ceiling, .storage (some slot) ∈ τ.get tag ∧
      m.Compares x slot (past ++ [⟨ins, p.stack⟩]) := by
  obtain ⟨-, hop, left, right, others, slot, hargs, hlt, hslot, hsides⟩ :=
    Ownership.comparison_of_put hput
  obtain ⟨l, others', hstack, rfl, hothers⟩ := List.map_eq_cons_iff.mp hargs
  obtain ⟨r, others'', rfl, rfl, -⟩ := List.map_eq_cons_iff.mp hothers
  refine ⟨slot, hlt, hslot, .intro htracks hins hop hstack ?_⟩
  rcases hsides with ⟨rfl, hcaller⟩ | ⟨rfl, hcaller⟩
  · exact .inl ⟨(hmarks _ _ _ rfl).mp hcaller, (hmarks _ _ _ rfl).mp hslot⟩
  · exact .inr ⟨(hmarks _ _ _ rfl).mp hcaller, (hmarks _ _ _ rfl).mp hslot⟩

end

namespace Analysis

variable {s : Settings} {ps : List Pattern} {a : Analysis} {target : Target} {code : Bytes}
  {past : List Frame} {T : Nat → Prop}

theorem OwnsCompared.editAll {st : Strategy} {pattern : Pattern} {τ : Taints} {sight : Sight}
    {tag : Nat} (hst : st.cleared = .ofPattern s pattern)
    (hother : st.pattern ≠ .multipleAuthorization)
    (h : a.OwnsCompared target code s.storageIndexCeiling past (τ.get tag))
    (hput : .put tag (.equality .owner) ∈ Ownership.edits s.storageIndexCeiling τ sight →
      ∃ slot < s.storageIndexCeiling, .storage (some slot) ∈ τ.get tag ∧
        a.Compared target code slot past) :
    a.OwnsCompared target code s.storageIndexCeiling past
      ((τ.editAll (st.edits τ sight)).get tag) := by
  intro howner
  obtain ⟨slot, hlt, hslot, hcompared⟩ : ∃ slot < s.storageIndexCeiling,
      .storage (some slot) ∈ τ.get tag ∧ a.Compared target code slot past := by
    by_cases hold : .equality .owner ∈ τ.get tag
    · exact h hold
    · exact hput (Strategy.owner_put_of_gained hst hold howner)
  exact ⟨slot, hlt, Strategy.slot_mem_editAll hother hslot, hcompared⟩

/-- The subscribers react one after the other. What all of them keep about the taints is there when
the owner's mark is put. -/
theorem ownsCompared_hear (hps : .multipleAuthorization ∉ ps) (x : Setting Registry)
    {c : Registry × Taints} (hc : c.1.reset = ⟨ps.map (.ofPattern s)⟩) {op : Opcode} {e : Event}
    {I : Taints → Prop} (hI : I c.2)
    (hkeeps : ∀ (st : Strategy) τ, st.pattern ≠ .multipleAuthorization → I τ →
      I (τ.editAll (st.edits τ e.sight)))
    (hput : ∀ τ tag, I τ →
      .put tag (.equality .owner) ∈ Ownership.edits s.storageIndexCeiling τ e.sight →
      ∃ slot < s.storageIndexCeiling, .storage (some slot) ∈ τ.get tag ∧
        a.Compared target code slot past)
    (h : ∀ tag, T tag → a.OwnsCompared target code s.storageIndexCeiling past (c.2.get tag)) :
    ∀ tag, T tag → a.OwnsCompared target code s.storageIndexCeiling past
      ((x.hear Registry.react c (.event op e)).2.get tag) := by
  let good (b : Registry × Taints) : Prop :=
    b.1.reset = ⟨ps.map (.ofPattern s)⟩ ∧ I b.2 ∧
    ∀ tag, T tag → a.OwnsCompared target code s.storageIndexCeiling past (b.2.get tag)
  suffices hgood : good (x.hear Registry.react c (.event op e)) from hgood.2.2
  refine List.foldlRecOn (motive := good) _ _ ⟨hc, hI, h⟩ ?_
  rintro b ⟨hreset, hI, howns⟩ i -
  refine ⟨(Registry.reset_react ..).trans hreset, ?_⟩
  rcases Registry.taints_react hreset i _ with heq | ⟨pattern, hmem, st, hst, heq⟩
  · rw [heq]
    exact ⟨hI, howns⟩
  · have hother : st.pattern ≠ .multipleAuthorization :=
      fun h => hps (h ▸ Strategy.pattern_of_cleared hst ▸ hmem)
    rw [heq]
    exact ⟨hkeeps st b.2 hother hI,
      fun tag htag => (howns tag htag).editAll hst hother (hput b.2 tag hI)⟩

/-- Before an instruction the owner's mark is put on what is compared now. -/
theorem ownsCompared_before (ha : a.registry.reset = ⟨ps.map (.ofPattern s)⟩)
    (hps : .multipleAuthorization ∉ ps) {m : Moment Registry} {p : Path}
    {rest : List (Path × List Frame)} {ins : Instruction} (hvisits : a.Visits target code m)
    (htracks : m.tracks = (p, past) :: rest) (hins : (a.setting code).program.at? p.pc = some ins)
    (h : ∀ tag, T tag → a.OwnsCompared target code s.storageIndexCeiling
      (past ++ [⟨ins, p.stack⟩]) (m.watch.2.taints.get tag)) :
    ∀ tag, T tag → a.OwnsCompared target code s.storageIndexCeiling (past ++ [⟨ins, p.stack⟩])
      (((a.setting code).hear Registry.react (withoutLog m.watch)
        (.event ins.opcode ⟨.pre, p.view ins, p.lastFrame⟩)).2.get tag) := by
  -- while the subscribers react, what was read keeps the marks that it has at the moment
  refine ownsCompared_hear (I := fun τ => ∀ tag taint mark, taint.use = .mark mark →
      (taint ∈ τ.get tag ↔ taint ∈ m.watch.2.taints.get tag)) hps _
    (hvisits.sound.reset.trans ha) (fun _ _ _ _ => Iff.rfl) ?_ ?_ h
  · intro st τ hother hmarks tag taint mark huse
    exact (Strategy.mark_mem_editAll hother rfl huse).trans (hmarks tag taint mark huse)
  · intro τ tag hmarks hput
    obtain ⟨slot, hlt, hslot, hcompares⟩ := Moment.compares_of_put htracks hins hmarks hput
    exact ⟨slot, hlt, hslot, m, _, hvisits, hcompares, List.prefix_refl _⟩

/-- After an instruction no owner's mark is put. -/
theorem ownsCompared_after (hps : .multipleAuthorization ∉ ps) (x : Setting Registry)
    {c : Registry × Taints} (hc : c.1.reset = ⟨ps.map (.ofPattern s)⟩) {e : Event}
    (he : e.phase = .post)
    (h : ∀ tag, T tag → a.OwnsCompared target code s.storageIndexCeiling past (c.2.get tag))
    (op : Opcode) :
    ∀ tag, T tag → a.OwnsCompared target code s.storageIndexCeiling past
      ((x.hear Registry.react c (.event op e)).2.get tag) := by
  refine ownsCompared_hear (I := fun _ => True) hps x hc trivial (fun _ _ _ _ => trivial) ?_ h
  intro τ tag _ hput
  obtain ⟨hphase, -⟩ := Ownership.comparison_of_put hput
  rw [Event.phase_sight, he] at hphase
  cases hphase

/-- **The owner's mark goes with a slot that was compared**, as long as no detector takes the marks
of slots away. -/
theorem ownsCompared_of_visits (ha : a.registry.reset = ⟨ps.map (.ofPattern s)⟩)
    (hps : .multipleAuthorization ∉ ps) {m : Moment Registry} (h : a.Visits target code m) :
    ∀ t ∈ m.tracks, ∀ v, t.1.Has v →
      a.OwnsCompared target code s.storageIndexCeiling t.2 (m.taintsOf v) :=
  (a.heritable_ownsCompared target code s.storageIndexCeiling).good_of_visits
    (fun _ _ _ _ _ hvisits htracks hins _ hgood =>
      ownsCompared_before ha hps hvisits htracks hins hgood)
    (fun _ _ _ _ _ _ hreset hphase _ _ hgood =>
      ownsCompared_after hps _ (hreset.trans ha) hphase hgood _) h

/-! ### Findings -/

/-- **An owner check is reported with the least plain slot of its condition.** The condition carries
a plain slot that the path has compared with the caller, so this is the one that is reported if the
condition carries no other; a lesser one that it also carries is reported in its place. -/
theorem owner_slot_least (ha : a.registry.reset = ⟨ps.map (.ofPattern s)⟩)
    (hps : .multipleAuthorization ∉ ps) {m : Moment Registry} {p : Path} {ins : Instruction}
    {i : Nat} {f : Finding} (hi : ps[i]? = some .ownership) (hvisits : a.Visits target code m)
    (hemits : m.Emits (a.setting code) p past ins i f) :
    ∃ destination condition rest slot compared, p.stack = destination :: condition :: rest ∧
      f.slot = some slot ∧ slot < s.storageIndexCeiling ∧
      .storage (some slot) ∈ m.taintsOf condition ∧
      (∀ other < s.storageIndexCeiling, .storage (some other) ∈ m.taintsOf condition →
        slot ≤ other) ∧
      compared < s.storageIndexCeiling ∧ .storage (some compared) ∈ m.taintsOf condition ∧
      a.Compared target code compared past := by
  obtain ⟨r, hreset, d, hd, hfinding⟩ := hvisits.sound.finding? hemits
  obtain ⟨pattern, hpattern, hst⟩ := Registry.exists_pattern (hreset.trans ha) hd
  obtain rfl := Option.some.inj (hi.symm.trans hpattern)
  obtain ⟨-, -, destination, condition, rest, hargs, hguard, rfl⟩ :=
    Strategy.branch_of_finding? hfinding
  obtain ⟨first, others, hstack, rfl, hothers⟩ := List.map_eq_cons_iff.mp hargs
  obtain ⟨v, others', rfl, rfl, -⟩ := List.map_eq_cons_iff.mp hothers
  obtain ⟨tracks, htracks⟩ := hemits.first
  have hstack : p.stack = first :: v :: others' := hstack
  have hv : v ∈ p.stack := hstack ▸ List.mem_cons_of_mem _ List.mem_cons_self
  have howns := ownsCompared_of_visits ha hps hvisits (p, past) (htracks ▸ List.mem_cons_self) v
    (.inl hv)
  cases hstrategy : d.strategy with
  | ownership ceiling =>
    rw [hstrategy] at hst hguard
    obtain rfl := Strategy.ownership.inj hst
    have howner : .equality .owner ∈ m.taintsOf v :=
      of_decide_eq_true (List.all_eq_true.mp hguard _ List.mem_cons_self)
    obtain ⟨compared, hlt, hmem, hcompared⟩ := howns howner
    obtain ⟨slot, hslot⟩ := TaintSet.exists_slotBelow? hmem hlt
    obtain ⟨hslotmem, hslotlt⟩ := TaintSet.mem_of_slotBelow? hslot
    exact ⟨first, v, others', slot, compared, hstack, hslot, hslotlt, hslotmem,
      fun other hother hothermem => TaintSet.slotBelow?_le hslot hothermem hother, hlt, hmem,
      hcompared⟩
  | _ =>
    rw [hstrategy] at hst
    cases hst

/-- Code that checks the owner in slot five. What it reads from slot zero cannot matter. -/
def maskedSlotCode : Bytes :=
  [0x33, 0x60, 0x05, 0x54, 0x14, 0x5f, 0x54, 0x5f, 0x16, 0x17, 0x60, 0x0e, 0x57, 0x00, 0x5b, 0x00]

theorem exists_emits_maskedSlot :
    ∃ m p past ins,
      (ofPatterns {} [.ownership]).Visits (.deployed ⟨0⟩ maskedSlotCode) maskedSlotCode m ∧
      m.Emits ((ofPatterns {} [.ownership]).setting maskedSlotCode) p past ins 0
        ⟨"fallback", some 0, none⟩ := by
  have hfound : (ofPatterns {} [.ownership]).emitsAt maskedSlotCode 10 0
      ⟨"fallback", some 0, none⟩ (fun _ _ => true) = true := by decide +kernel
  obtain ⟨m, p, past, ins, story, others, hrecounts, hemits, -⟩ := exists_of_emitsAt hfound ⟨0⟩
  exact ⟨m, p, past, ins, hrecounts.visits, hemits⟩

theorem not_compared_maskedSlot (past : List Frame) :
    ¬(ofPatterns {} [.ownership]).Compared (.deployed ⟨0⟩ maskedSlotCode) maskedSlotCode 0
      past := by
  rintro ⟨m, done, hvisits, hcompares, -⟩
  have hnever : ((ofPatterns {} [.ownership]).setting maskedSlotCode).passes
      (fun m => !m.compares ((ofPatterns {} [.ownership]).setting maskedSlotCode) 0) 16
      ((ofPatterns {} [.ownership]).prepare.explorer.start
        ((ofPatterns {} [.ownership]).prepare.registry,
          { log := .starting (ofPatterns {} [.ownership]).prepare.registry.detectors.length ::
            (ofPatterns {} [.ownership]).prepare.log }) fallbackName) = true := by decide +kernel
  cases hvisits with
  | deployed visits =>
    have hnot := Setting.of_passes hnever visits
    rw [hcompares.compares] at hnot
    cases hnot

theorem owner_slot_least_masked :
    ∃ m p past ins destination condition rest compared,
      (ofPatterns {} [.ownership]).Visits (.deployed ⟨0⟩ maskedSlotCode) maskedSlotCode m ∧
      m.Emits ((ofPatterns {} [.ownership]).setting maskedSlotCode) p past ins 0
        ⟨"fallback", some 0, none⟩ ∧
      p.stack = destination :: condition :: rest ∧
      .storage (some 0) ∈ m.taintsOf condition ∧
      .storage (some compared) ∈ m.taintsOf condition ∧ compared ≠ 0 ∧
      (ofPatterns {} [.ownership]).Compared (.deployed ⟨0⟩ maskedSlotCode) maskedSlotCode compared
        past := by
  have hreset : (ofPatterns {} [.ownership]).registry.reset =
      ⟨[.ownership].map (.ofPattern {})⟩ := rfl
  obtain ⟨m, p, past, ins, hvisits, hemits⟩ := exists_emits_maskedSlot
  obtain ⟨destination, condition, rest, slot, compared, hstack, hslot, -, hmem, -, -, hmem',
    hcompared⟩ := owner_slot_least hreset (by decide) rfl hvisits hemits
  obtain rfl := Option.some.inj hslot
  exact ⟨m, p, past, ins, destination, condition, rest, compared, hvisits, hemits, hstack, hmem,
    hmem', fun h => not_compared_maskedSlot past (h ▸ hcompared), hcompared⟩

/-- Slot zero is reported for the check of the owner in slot five, though no path has compared it
with the caller. -/
theorem owner_slot_not_compared :
    ∃ m p past ins,
      (ofPatterns {} [.ownership]).Visits (.deployed ⟨0⟩ maskedSlotCode) maskedSlotCode m ∧
      m.Emits ((ofPatterns {} [.ownership]).setting maskedSlotCode) p past ins 0
        ⟨"fallback", some 0, none⟩ ∧
      ¬(ofPatterns {} [.ownership]).Compared (.deployed ⟨0⟩ maskedSlotCode) maskedSlotCode 0
        past := by
  obtain ⟨m, p, past, ins, hvisits, hemits⟩ := exists_emits_maskedSlot
  exact ⟨m, p, past, ins, hvisits, hemits, not_compared_maskedSlot past⟩

end Analysis

end GuardFinder

import GuardFinder.Proofs.Influence
import GuardFinder.Proofs.Inspections
import GuardFinder.Proofs.Moments

/-!
# Taints and the past of their paths

A value has its taints from the path that it is on: detectors put them there at instructions that
the path has executed, or it inherits them from other values of the path. So a property of a past
and of a set of taints that values start with, that stays when the past gets longer, that passes on
to heirs and that detectors keep holds of all values of all paths.

* `Heritable`, `Lineage`: such a property, without detectors and with them.
* `Heritable.good_stepAt`: what a step makes of a path.
* `Heritable.good_of_visits`: what events keep holds at all moments.
* `Lineage.good_of_visits`: **it holds of all values of all paths, at all moments**.
-/

namespace GuardFinder

/-- A sight of an instruction: its opcode, and the stack that it finds. -/
structure Sight.Of (sight : Sight) (f : Frame) : Prop where
  opcode : sight.opcode = f.instruction.opcode
  args : sight.args = f.stack.map Value.item

/-- A property of the past of a path and the taints of its values that values start with, that stays
when the past gets longer, and that passes on to heirs. -/
structure Heritable (good : List Frame → TaintSet → Prop) : Prop where
  empty : ∀ past, good past ∅
  later : ∀ ⦃past taints⦄ (f : Frame), good past taints → good (past ++ [f]) taints
  union : ∀ ⦃past taints taints'⦄, good past taints → good past taints' →
    good past (taints.union taints')

/-- A heritable property that the detectors for some patterns keep. While an instruction is
executed, it belongs to the past already. -/
structure Lineage (s : Settings) (ps : List Pattern) (good : List Frame → TaintSet → Prop) : Prop
    extends Heritable good where
  edits : ∀ ⦃p : Pattern⦄ ⦃st : Strategy⦄ ⦃τ : Taints⦄ ⦃sight : Sight⦄ ⦃past : List Frame⦄
    ⦃f : Frame⦄, p ∈ ps → st.cleared = .ofPattern s p → sight.Of f →
    (∀ tag, sight.Shows tag → good (past ++ [f]) (τ.get tag)) →
    ∀ tag, sight.Shows tag → good (past ++ [f]) ((τ.editAll (st.edits τ sight)).get tag)

namespace Registry

variable {s : Settings} {ps : List Pattern} {r : Registry}

/-- A detector looks for the pattern at its place. -/
theorem exists_pattern (hr : r.reset = ⟨ps.map (.ofPattern s)⟩) {i : Nat} {d : Detector}
    (hd : r.detectors[i]? = some d) :
    ∃ p, ps[i]? = some p ∧ d.strategy.cleared = .ofPattern s p := by
  have hdetectors : r.detectors.map Detector.reset = ps.map (.ofPattern s) :=
    congrArg detectors hr
  have hplace := congrArg (·[i]?) hdetectors
  simp only [List.getElem?_map, hd, Option.map_some] at hplace
  obtain ⟨p, hp, heq⟩ := Option.map_eq_some_iff.mp hplace.symm
  exact ⟨p, hp, congrArg Detector.strategy heq.symm⟩

theorem reset_react (i : Nat) (sight : Sight) (a : Registry × Taints) :
    (react i sight a).1.reset = a.1.reset := by
  unfold react
  cases hd : a.1.detectors[i]? with
  | none => rfl
  | some d => exact reset_set hd (Detector.reset_after ..)

/-- A reaction leaves the taints as they are, or makes the edits of a strategy. -/
theorem taints_react {a : Registry × Taints} (ha : a.1.reset = ⟨ps.map (.ofPattern s)⟩) (i : Nat)
    (sight : Sight) :
    (react i sight a).2 = a.2 ∨ ∃ p ∈ ps, ∃ st : Strategy, st.cleared = .ofPattern s p ∧
      (react i sight a).2 = a.2.editAll (st.edits a.2 sight) := by
  unfold react
  cases hd : a.1.detectors[i]? with
  | none => exact .inl rfl
  | some d =>
    obtain ⟨p, hp, hst⟩ := exists_pattern ha hd
    simp only [Detector.edits]
    split
    · exact .inl rfl
    · exact .inr ⟨p, List.mem_of_getElem? hp, d.strategy, hst, rfl⟩

theorem reset_hear (x : Setting Registry) (a : Registry × Taints) (op : Opcode) (e : Event) :
    (x.hear react a (.event op e)).1.reset = a.1.reset :=
  List.foldlRecOn (motive := fun b : Registry × Taints => b.1.reset = a.1.reset) _ _ rfl
    fun _ hb _ _ => (reset_react ..).trans hb

end Registry

/-! ### Steps -/

/-- The tags that a step of a path has to do with: those of its values, and new ones. -/
def Path.Concerns (p : Path) (s : Supply) (tag : Nat) : Prop := p.HasTag tag ∨ s.nextTag ≤ tag

namespace Heritable

variable {good : List Frame → TaintSet → Prop} {past : List Frame} {τ : Taints} {T : Nat → Prop}

theorem good_union (hl : Heritable good) {tags : List Nat}
    (h : ∀ tag ∈ tags, good past (τ.get tag)) : good past (τ.union tags) := by
  exact List.foldlRecOn (motive := good past) _ _ (hl.empty past) fun taints htaints tag htag =>
    hl.union htaints (h tag htag)

/-- Heirs of good values are good. -/
theorem good_inheritAll (hl : Heritable good) {inheritances : List Inheritance}
    (hsources : ∀ i ∈ inheritances, ∀ tag ∈ i.sources, T tag)
    (h : ∀ tag, T tag → good past (τ.get tag)) :
    ∀ tag, T tag → good past ((τ.inheritAll inheritances).get tag) := by
  induction inheritances generalizing τ with
  | nil => exact h
  | cons i rest ih =>
    refine ih (fun j hj => hsources j (List.mem_cons_of_mem _ hj)) fun tag htag => ?_
    rw [Taints.get_inherit]
    split
    · exact hl.good_union fun tag htag => h tag (hsources i List.mem_cons_self tag htag)
    · exact h tag htag

section

variable {g : Progress} {p q : Path} {ins : Instruction} {limits : Limits} {program : Program}

/-- **The property is kept for a path that executes an instruction**, and for its fork, if the
event after the instruction keeps it. -/
theorem good_stepAt (hl : Heritable good) {x : Setting Registry} (hx : x.IgnoresJumps)
    {b : Registry × Taints} (htidy : p.Tidy g.supply)
    (hbefore : ∀ tag, p.Concerns g.supply tag → good (past ++ [⟨ins, p.stack⟩]) (b.2.get tag))
    (hafter : ∀ (c : Registry × Taints) (op : Opcode) (e : Event), c.1 = b.1 → e.phase = .post →
      e.sight.Of ⟨ins, p.stack⟩ → (∀ tag, e.sight.Shows tag → p.Concerns g.supply tag) →
      (∀ tag, p.Concerns g.supply tag → good (past ++ [⟨ins, p.stack⟩]) (c.2.get tag)) →
      ∀ tag, p.Concerns g.supply tag →
        good (past ++ [⟨ins, p.stack⟩]) ((x.hear Registry.react c (.event op e)).2.get tag))
    (hq : q ∈ (stepAt program limits g.space g.supply p ins).paths) {v : Value} (hv : q.Has v) :
    good (past ++ [⟨ins, p.stack⟩])
      (((stepAt program limits g.space g.supply p ins).signals.foldl (x.hear Registry.react)
        b).2.get v.tag) := by
  have hmade {tag : Nat} (h : (execute program ins p g.supply).path.HasTag tag) :
      p.Concerns g.supply tag := (hasTag_execute h).imp_right And.left
  have hsources : ∀ i ∈ (execute program ins p g.supply).inheritances, ∀ tag ∈ i.sources,
      p.Concerns g.supply tag :=
    fun i hi tag htag => .inl ((Path.inheritsFrom_execute program ins p g.supply i hi).2.2 tag htag)
  cases signals_stepAt program limits g.space g.supply p ins with
  | @next r flow paths has name stack supply signals =>
    rw [paths, List.mem_singleton] at hq
    subst hq
    rw [signals, List.foldl_append, Setting.foldl_hear_inheritSignals, List.foldl_cons,
      List.foldl_nil]
    exact hafter (b.1, b.2.inheritAll _) _ _ rfl rfl ⟨rfl, rfl⟩
      (fun tag hshows => shows_next has hshows) (hl.good_inheritAll hsources hbefore) v.tag
      (hmade ⟨v, has v hv, rfl⟩)
  | on has supply signals unheard =>
    rw [signals, Setting.foldl_hear_jump hx unheard]
    exact hl.good_inheritAll hsources hbefore v.tag (hmade ⟨v, has q hq v hv, rfl⟩)
  | fork has supply signals unheard =>
    rw [signals, Setting.foldl_hear_jump hx unheard]
    -- the values of the path keep their taints, and those of its fork start with them
    have hlt {w : Value} (hw : (execute program ins p g.supply).path.Has w) :
        w.tag < (execute program ins p g.supply).supply.nextTag :=
      (htidy.of_adds (Path.adds_execute program ins p g.supply)).tag_lt hw
    obtain ⟨w, hw, hget⟩ := Path.exists_get_fork (fun _ hw => hlt hw) (has q hq v hv)
    rw [hget]
    exact hbefore w.tag (hmade ⟨w, hw, rfl⟩)

end

end Heritable

/-! ### Events -/

namespace Lineage

variable {s : Settings} {ps : List Pattern} {good : List Frame → TaintSet → Prop}
  {past : List Frame} {f : Frame} {T : Nat → Prop}

/-- What detectors do with a sight of tags keeps the property for these tags. -/
theorem good_react (hl : Lineage s ps good) {a : Registry × Taints}
    (ha : a.1.reset = ⟨ps.map (.ofPattern s)⟩) {sight : Sight} (hsight : sight.Of f)
    (hshows : ∀ tag, sight.Shows tag → T tag)
    (h : ∀ tag, T tag → good (past ++ [f]) (a.2.get tag)) (i : Nat) :
    ∀ tag, T tag → good (past ++ [f]) ((Registry.react i sight a).2.get tag) := by
  intro tag htag
  by_cases hshown : sight.Shows tag
  · rcases Registry.taints_react ha i sight with heq | ⟨p, hp, st, hst, heq⟩
    · rw [heq]
      exact h tag htag
    · rw [heq]
      exact hl.edits hp hst hsight (fun tag htag => h tag (hshows tag htag)) tag hshown
  · rw [Registry.local_react i sight a tag hshown]
    exact h tag htag

theorem good_hear_event (hl : Lineage s ps good) (x : Setting Registry) {a : Registry × Taints}
    (ha : a.1.reset = ⟨ps.map (.ofPattern s)⟩) {e : Event} (hsight : e.sight.Of f)
    (hshows : ∀ tag, e.sight.Shows tag → T tag)
    (h : ∀ tag, T tag → good (past ++ [f]) (a.2.get tag)) (op : Opcode) :
    ∀ tag, T tag → good (past ++ [f]) ((x.hear Registry.react a (.event op e)).2.get tag) := by
  -- the subscribers react one after the other
  let keeps (b : Registry × Taints) : Prop :=
    b.1.reset = ⟨ps.map (.ofPattern s)⟩ ∧ ∀ tag, T tag → good (past ++ [f]) (b.2.get tag)
  have hkeeps : keeps (x.hear Registry.react a (.event op e)) :=
    List.foldlRecOn (motive := keeps) _ _ ⟨ha, h⟩ fun b hb i _ =>
      ⟨(Registry.reset_react ..).trans hb.1, hl.good_react hb.1 hsight hshows hb.2 i⟩
  exact hkeeps.2

end Lineage

/-! ### Explorations -/

namespace Analysis

variable {a : Analysis} {target : Target} {code : Bytes} {m m' : Moment Registry}

/-- What the exploration of a code is set to in a run of an analysis. -/
abbrev setting (a : Analysis) (code : Bytes) : Setting Registry :=
  a.prepare.explorer.setting Registry.observer code

/-- The moments that a run of an analysis comes through, with the code that is explored. -/
def Visits (a : Analysis) (target : Target) (code : Bytes) (m : Moment Registry) : Prop :=
  a.prepare.explorer.Visits Registry.observer
    (a.prepare.registry, { log := .starting a.prepare.registry.detectors.length :: a.prepare.log })
    target code m

/-- What is always so in a run of an analysis: the detectors are those of the analysis, paths are
tidy and apart, and taints are on tags that have been given out. -/
structure Sound (a : Analysis) (m : Moment Registry) : Prop where
  serves : m.watch.1.Serves a.prepare.explorer.hooks
  reset : m.watch.1.reset = a.registry.reset
  tidy : m.progress.Tidy
  apart : m.progress.Apart
  fresh : ∀ tag, m.supply.nextTag ≤ tag → m.watch.2.taints.get tag = ∅

theorem sound_start (entry : String) (space : StateSpace) {supply : Supply}
    {w : Registry × Ledger} (hserves : w.1.Serves a.prepare.explorer.hooks)
    (hreset : w.1.reset = a.registry.reset)
    (hfresh : ∀ tag, supply.nextTag ≤ tag → w.2.taints.get tag = ∅) :
    a.Sound (.start entry space supply w) where
  serves := hserves
  reset := hreset
  tidy := Moment.tidy_start entry space supply w
  apart := List.pairwise_singleton _ _
  fresh := hfresh

/-- What the detectors have heard after a step. -/
theorem Sound.withoutLog_step (h : a.Sound m) {p : Path} {ins : Instruction} {program : Program}
    {limits : Limits} {w : Registry × Ledger} (hfits : fitsStack ins.opcode p.stack = true)
    (hplay : (a.setting code).playAll (m.progress.signals program limits p ins) m.watch =
      .ok () w) :
    withoutLog w = (m.progress.signals program limits p ins).foldl
      ((a.setting code).hear Registry.react) (withoutLog m.watch) :=
  (of_ok ((a.follows_prepare code).playAll _ (m.progress.sound_signals hfits) m.watch
    ⟨h.serves, h.reset⟩) hplay).1

/-- The other paths do not see the step of a path. -/
theorem Sound.get_step (h : a.Sound m) {p : Path} {past : List Frame}
    {rest : List (Path × List Frame)} {ins : Instruction} {program : Program} {limits : Limits}
    (htracks : m.tracks = (p, past) :: rest) {t : Path × List Frame} (ht : t ∈ rest) {v : Value}
    (hv : t.1.Has v) :
    ((m.progress.signals program limits p ins).foldl ((a.setting code).hear Registry.react)
      (withoutLog m.watch)).2.get v.tag = m.watch.2.taints.get v.tag := by
  have hpaths : m.progress.paths = p :: rest.map Prod.fst := congrArg (List.map Prod.fst) htracks
  have hmem : t.1 ∈ rest.map Prod.fst := List.mem_map_of_mem ht
  refine get_hear_signals Registry.local_react h.serves.ignoresJumps _ ?_
  rintro (⟨w, hw, htag⟩ | ⟨hge, -⟩)
  · have hapart := h.apart
    rw [Progress.Apart, hpaths, List.pairwise_cons] at hapart
    exact hapart.1 t.1 hmem hw hv htag
  · have hlt := (h.tidy t.1 (hpaths ▸ List.mem_cons_of_mem _ hmem)).tag_lt hv
    exact absurd hlt (Nat.not_lt.mpr hge)

theorem Sound.next (h : a.Sound m) (hnext : (a.setting code).Next m m') : a.Sound m' := by
  have htidy := Progress.tidy_of_advance hnext.advance h.tidy
  have hapart := Progress.apart_of_advance hnext.advance h.tidy h.apart
  cases hnext with
  | ended | unfit => exact ⟨h.serves, h.reset, htidy, hapart, h.fresh⟩
  | @step p past rest ins w tracks at_ins fits play =>
    obtain ⟨hwatch, hserves, hreset⟩ :=
      of_ok ((a.follows_prepare code).step fits m.progress m.watch ⟨h.serves, h.reset⟩) play
    refine ⟨hserves, hreset, htidy, hapart, fun tag htag => ?_⟩
    have hpaths : m.progress.paths = p :: rest.map Prod.fst := congrArg (List.map Prod.fst) tracks
    have hle := nextTag_le_stepAt (a.setting code).program (a.setting code).limits m.space m.supply
      p ins
    have htaints : w.2.taints = ((m.progress.signals (a.setting code).program
        (a.setting code).limits p ins).foldl ((a.setting code).hear Registry.react)
        (withoutLog m.watch)).2 := congrArg Prod.snd hwatch
    show w.2.taints.get tag = ∅
    rw [htaints, get_hear_signals Registry.local_react h.serves.ignoresJumps]
    · exact h.fresh tag (Nat.le_trans hle htag)
    · rintro (⟨v, hv, rfl⟩ | ⟨-, hlt⟩)
      · have hlt := (h.tidy p (hpaths ▸ List.mem_cons_self)).tag_lt hv
        exact absurd hlt (Nat.not_lt.mpr (Nat.le_trans hle htag))
      · exact absurd hlt (Nat.not_lt.mpr htag)

theorem Visits.sound (h : a.Visits target code m) : a.Sound m := by
  refine Explorer.Visits.rule (I := a.Sound) (fun entry => ?_) (fun code m m' _ hnext hm => ?_)
    (fun m entry space w hw hm => ?_) h
  · refine sound_start _ _ a.serves_prepare a.registry.reset_reset fun tag _ => ?_
    exact Std.TreeMap.getD_emptyc
  · exact hm.next (Setting.next_of_next? hnext).1
  · obtain ⟨hregistry, htaints⟩ := Prod.mk.inj hw
    exact sound_start _ _ (hregistry ▸ hm.serves) (hregistry ▸ hm.reset) (htaints ▸ hm.fresh)

end Analysis

/-- **What is passed on and kept at all events holds of all values of all paths**, at all moments of
all runs. -/
theorem Heritable.good_of_visits {good : List Frame → TaintSet → Prop} (hl : Heritable good)
    {a : Analysis} {target : Target} {code : Bytes}
    (hbefore : ∀ m p past rest ins, a.Visits target code m → m.tracks = (p, past) :: rest →
      (a.setting code).program.at? p.pc = some ins → fitsStack ins.opcode p.stack = true →
      (∀ tag, p.Concerns m.supply tag →
        good (past ++ [⟨ins, p.stack⟩]) (m.watch.2.taints.get tag)) →
      ∀ tag, p.Concerns m.supply tag → good (past ++ [⟨ins, p.stack⟩])
        (((a.setting code).hear Registry.react (withoutLog m.watch)
          (.event ins.opcode ⟨.pre, p.view ins, p.lastFrame⟩)).2.get tag))
    (hafter : ∀ past f (T : Nat → Prop) (c : Registry × Taints) (op : Opcode) (e : Event),
      c.1.reset = a.registry.reset → e.phase = .post → e.sight.Of f →
      (∀ tag, e.sight.Shows tag → T tag) → (∀ tag, T tag → good (past ++ [f]) (c.2.get tag)) →
      ∀ tag, T tag →
        good (past ++ [f]) (((a.setting code).hear Registry.react c (.event op e)).2.get tag))
    {m : Moment Registry} (h : a.Visits target code m) :
    ∀ t ∈ m.tracks, ∀ v, t.1.Has v → good t.2 (m.watch.2.taints.get v.tag) := by
  refine Explorer.Visits.transaction_rule (I := fun m => ∀ t ∈ m.tracks, ∀ v, t.1.Has v →
    good t.2 (m.watch.2.taints.get v.tag))
    (fun entry space supply w _ t ht v hv => absurd hv (Moment.not_has_start ht v)) ?_ h
  intro m m' hvisits hnext hm
  have hsound : a.Sound m := Analysis.Visits.sound hvisits
  cases (Setting.next_of_next? hnext).1 with
  | ended tracks _ | unfit tracks _ _ =>
    exact fun t ht => hm t (tracks ▸ List.mem_cons_of_mem _ ht)
  | @step p past rest ins w tracks at_ins fits play =>
    have htaints : w.2.taints = ((m.progress.signals (a.setting code).program
        (a.setting code).limits p ins).foldl ((a.setting code).hear Registry.react)
        (withoutLog m.watch)).2 := congrArg Prod.snd (hsound.withoutLog_step fits play)
    have hmem : (p, past) ∈ m.tracks := tracks ▸ List.mem_cons_self
    have hstart (tag : Nat) (htag : p.Concerns m.supply tag) :
        good (past ++ [⟨ins, p.stack⟩]) (m.watch.2.taints.get tag) := by
      rcases htag with ⟨v, hv, rfl⟩ | hnew
      · exact hl.later _ (hm _ hmem v hv)
      · rw [hsound.fresh tag hnew]
        exact hl.empty _
    intro t ht v hv
    show good t.2 (w.2.taints.get v.tag)
    rw [htaints]
    rcases List.mem_append.mp ht with ht | ht
    · obtain ⟨q, hq, rfl⟩ := List.mem_map.mp ht
      refine hl.good_stepAt (g := m.progress) hsound.serves.ignoresJumps
        (hsound.tidy p (List.mem_map_of_mem hmem))
        (hbefore m p past rest ins hvisits tracks at_ins fits hstart) ?_ hq hv
      intro c op e hc hphase hsight hshows hgood
      refine hafter past _ _ c op e ?_ hphase hsight hshows hgood
      rw [hc, Registry.reset_hear]
      exact hsound.reset
    · rw [hsound.get_step tracks ht hv]
      exact hm t (tracks ▸ List.mem_cons_of_mem _ ht) v hv

/-- **What has a lineage holds of all values of all paths**, at all moments of all runs. -/
theorem Lineage.good_of_visits {s : Settings} {ps : List Pattern}
    {good : List Frame → TaintSet → Prop} (hl : Lineage s ps good) {a : Analysis}
    (ha : a.registry.reset = ⟨ps.map (.ofPattern s)⟩) {target : Target} {code : Bytes}
    {m : Moment Registry} (h : a.Visits target code m) :
    ∀ t ∈ m.tracks, ∀ v, t.1.Has v → good t.2 (m.watch.2.taints.get v.tag) := by
  refine hl.toHeritable.good_of_visits (fun m p past rest ins hvisits _ _ _ hgood => ?_)
    (fun past f T c op e hreset _ hsight hshows hgood => ?_) h
  · exact hl.good_hear_event _ (hvisits.sound.reset.trans ha) ⟨rfl, rfl⟩
      (fun tag hshows => .inl (shows_before hshows)) hgood _
  · exact hl.good_hear_event _ (hreset.trans ha) hsight hshows hgood _

end GuardFinder

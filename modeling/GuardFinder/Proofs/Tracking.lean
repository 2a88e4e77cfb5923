import GuardFinder.Proofs.Signals

/-!
# Two watchers of one exploration

Two observers that watch one exploration may come to put different taints on values. The nodes whose
paths may have such values are called lost; on all other paths their taints agree, as far as taints
matter to the comparison. As paths have no value in common, a path that is lost spoils no other one:
what lies below a lost node is lost, and no more.

* `Comparison`: what is compared, and which nodes are lost.
* `Tracks`: the comparison outlasts every event.
* `Tracks.step`: **then it outlasts every step**.
* `Tracks.lockstep`: and holds at all times of an exploration.
-/

namespace GuardFinder

/-- How two watchers are compared. -/
structure Comparison (σ₁ σ₂ : Type) where
  /-- The taints that matter. -/
  reads : Taint → Prop
  /-- What always holds of the states of the two. -/
  kept : StateSpace → σ₁ → σ₂ → Prop
  /-- The nodes on whose paths taints may differ. -/
  lost : StateSpace → σ₁ → σ₂ → Nat → Prop

section

variable {σ₁ σ₂ : Type} {c : Comparison σ₁ σ₂}

/-- Two watchers compare as they should, and unless the node is lost their taints agree on the given
tags. -/
structure Comparison.Holds (c : Comparison σ₁ σ₂) (space : StateSpace) (node : Nat)
    (tags : Nat → Prop) (a : σ₁ × Taints) (b : σ₂ × Taints) : Prop where
  kept : c.kept space a.1 b.1
  agree : c.lost space a.1 b.1 node ∨ ∀ tag, tags tag → a.2.AgreeAt c.reads b.2 tag

/-- The comparison outlasts all that two watchers hear. -/
structure Tracks (c : Comparison σ₁ σ₂) (x₁ : Setting σ₁) (x₂ : Setting σ₂)
    (react₁ : Reaction σ₁) (react₂ : Reaction σ₂) : Prop where
  local₁ : react₁.Local
  local₂ : react₂.Local
  ignores₁ : x₁.IgnoresJumps
  ignores₂ : x₂.IgnoresJumps
  event : ∀ ⦃op e⦄, e.About op → e.sight.Fresh → ∀ ⦃space node a b⦄,
    space.nameAt? node = some e.sight.functionName → c.Holds space node e.sight.Shows a b →
    c.Holds space node e.sight.Shows (x₁.hear react₁ a (.event op e))
        (x₂.hear react₂ b (.event op e)) ∧
      ∀ ⦃node⦄, c.lost space a.1 b.1 node →
        c.lost space (x₁.hear react₁ a (.event op e)).1 (x₂.hear react₂ b (.event op e)).1 node
  kept_mono : ∀ ⦃s s' u v⦄, s.GrowsTo s' → c.kept s u v → c.kept s' u v
  lost_mono : ∀ ⦃s s' u v node⦄, s.GrowsTo s' → c.lost s u v node → c.lost s' u v node
  lost_below : ∀ ⦃s u v e⦄, e ∈ s.edges → c.lost s u v e.source → c.lost s u v e.target

/-- An exploration on whose paths two watchers compare as they should. -/
structure Progress.Tracked (c : Comparison σ₁ σ₂) (g : Progress) (a : σ₁ × Taints)
    (b : σ₂ × Taints) : Prop where
  tidy : g.Tidy
  apart : g.Apart
  named : ∀ p ∈ g.paths, g.space.nameAt? p.node = some p.functionName
  kept : c.kept g.space a.1 b.1
  new : ∀ tag, g.supply.nextTag ≤ tag → a.2.AgreeAt c.reads b.2 tag
  agree : ∀ p ∈ g.paths, c.lost g.space a.1 b.1 p.node ∨
    ∀ tag, p.HasTag tag → a.2.AgreeAt c.reads b.2 tag

variable {x₁ : Setting σ₁} {x₂ : Setting σ₂} {react₁ : Reaction σ₁} {react₂ : Reaction σ₂}
  {space : StateSpace} {node : Nat} {tags : Nat → Prop} {a : σ₁ × Taints} {b : σ₂ × Taints}

theorem Tracks.hear_event (h : Tracks c x₁ x₂ react₁ react₂) {op : Opcode} {e : Event}
    (habout : e.About op) (hfresh : e.sight.Fresh)
    (hname : space.nameAt? node = some e.sight.functionName)
    (hshows : ∀ tag, e.sight.Shows tag → tags tag) (hab : c.Holds space node tags a b) :
    c.Holds space node tags (x₁.hear react₁ a (.event op e)) (x₂.hear react₂ b (.event op e)) ∧
      ∀ ⦃node⦄, c.lost space a.1 b.1 node →
        c.lost space (x₁.hear react₁ a (.event op e)).1
          (x₂.hear react₂ b (.event op e)).1 node := by
  obtain ⟨hholds, hlost⟩ := h.event habout hfresh hname
    ⟨hab.kept, hab.agree.imp_right fun hagree tag htag => hagree tag (hshows tag htag)⟩
  refine ⟨⟨hholds.kept, ?_⟩, hlost⟩
  rcases hab.agree with hl | hagree
  · exact .inl (hlost hl)
  · refine hholds.agree.imp_right fun hagree' tag htag => ?_
    by_cases hshown : e.sight.Shows tag
    · exact hagree' tag hshown
    · exact (hagree tag htag).of_get_eq (Setting.get_hear_event h.local₁ a op hshown)
        (Setting.get_hear_event h.local₂ b op hshown)

theorem Comparison.Holds.inheritAll (hab : c.Holds space node tags a b)
    {inheritances : List Inheritance}
    (hsources : ∀ i ∈ inheritances, ∀ tag ∈ i.sources, tags tag) :
    c.Holds space node tags (a.1, a.2.inheritAll inheritances)
      (b.1, b.2.inheritAll inheritances) :=
  ⟨hab.kept, hab.agree.imp_right fun hagree _ htag =>
    Taints.agreeAt_inheritAll hsources hagree htag⟩

/-- The result of an operation on two words has a new tag. -/
theorem stack_execute_binary {program : Program} {ins : Instruction} {p : Path} {s : Supply}
    (hkind : ins.opcode.kind = .binary) (hflow : (execute program ins p s).flow = .next) :
    ∃ word rest, (execute program ins p s).path.stack = ⟨word, s.nextTag⟩ :: rest := by
  unfold execute at hflow ⊢
  simp only [hkind] at hflow ⊢
  rcases hstack : p.stack with - | ⟨a, - | ⟨b, rest⟩⟩
  · rw [hstack] at hflow
    cases hflow
  · rw [hstack] at hflow
    cases hflow
  · exact ⟨_, _, rfl⟩

/-- **A step keeps the comparison**, on all paths that go on. -/
theorem Tracks.hear_signals (h : Tracks c x₁ x₂ react₁ react₂) (program : Program)
    (limits : Limits) {g : Progress} {p : Path} {ins : Instruction} (hp : p.Tidy g.supply)
    (hf : fitsStack ins.opcode p.stack = true)
    (hnamed : space.nameAt? p.node = some p.functionName)
    (hab : c.Holds space p.node (fun tag => p.HasTag tag ∨ g.supply.nextTag ≤ tag) a b) :
    c.Holds space p.node
        (fun tag => ∃ q ∈ (stepAt program limits g.space g.supply p ins).paths, q.HasTag tag)
        ((g.signals program limits p ins).foldl (x₁.hear react₁) a)
        ((g.signals program limits p ins).foldl (x₂.hear react₂) b) ∧
      ∀ ⦃node⦄, c.lost space a.1 b.1 node →
        c.lost space ((g.signals program limits p ins).foldl (x₁.hear react₁) a).1
          ((g.signals program limits p ins).foldl (x₂.hear react₂) b).1 node := by
  have hbefore : Event.About ins.opcode ⟨.pre, p.view ins, p.lastFrame⟩ :=
    .pre rfl (pops_le_of_fitsStack hf)
  have hcalm : (Event.sight ⟨.pre, p.view ins, p.lastFrame⟩).Fresh := by
    intro hphase
    cases hphase
  obtain ⟨hab, hlost⟩ := h.hear_event hbefore hcalm hnamed
    (fun tag hshows => .inl (shows_before hshows)) hab
  rw [Progress.signals, List.foldl_cons, List.foldl_cons]
  generalize x₁.hear react₁ a _ = a' at hab hlost ⊢
  generalize x₂.hear react₂ b _ = b' at hab hlost ⊢
  have hinherits := Path.inheritsFrom_execute program ins p g.supply
  have hleft {tag : Nat} (htag : (execute program ins p g.supply).path.HasTag tag) :
      p.HasTag tag ∨ g.supply.nextTag ≤ tag :=
    (hasTag_execute htag).imp_right And.left
  cases signals_stepAt program limits g.space g.supply p ins with
  | @next q flow paths has name stack supply signals =>
    have hname : space.nameAt? p.node = some q.functionName := by
      rw [hnamed, name, functionName_execute]
    -- the result is new, and the operands are on the path
    have hfresh (op : Instruction) :
        (Event.sight ⟨.post, q.view op, some ⟨ins, p.stack⟩⟩).Fresh := by
      intro _ hkind r hr i hi
      obtain ⟨word, rest, hstack⟩ := stack_execute_binary hkind flow
      obtain ⟨v, hv, rfl⟩ := List.mem_map.mp hi
      have hlt := hp.tag_lt (.inl hv)
      rw [show (Event.sight ⟨.post, q.view op, some ⟨ins, p.stack⟩⟩).stack =
        q.stack.map Value.item from rfl, stack, hstack] at hr
      obtain rfl := Option.some.inj hr
      exact Nat.ne_of_lt hlt
    rw [signals, List.foldl_append, List.foldl_append, Setting.foldl_hear_inheritSignals,
      Setting.foldl_hear_inheritSignals, List.foldl_cons, List.foldl_nil, List.foldl_cons,
      List.foldl_nil]
    have hab' := hab.inheritAll fun i hi tag htag => .inl ((hinherits i hi).2.2 tag htag)
    obtain ⟨hab'', hlost'⟩ := h.hear_event (sound_postEvent hf signals) (hfresh _) hname
      (fun tag hshows => shows_next has hshows) hab'
    refine ⟨⟨hab''.kept, hab''.agree.imp_right fun hagree tag htag => ?_⟩,
      fun _ hl => hlost' (hlost hl)⟩
    obtain ⟨r, hr, v, hv, rfl⟩ := htag
    rw [paths, List.mem_singleton] at hr
    subst hr
    exact hagree _ (hleft ⟨v, has v hv, rfl⟩)
  | on has supply signals unheard =>
    rw [signals, Setting.foldl_hear_jump h.ignores₁ unheard,
      Setting.foldl_hear_jump h.ignores₂ unheard]
    have hab' := hab.inheritAll fun i hi tag htag => .inl ((hinherits i hi).2.2 tag htag)
    refine ⟨⟨hab'.kept, hab'.agree.imp_right fun hagree tag htag => ?_⟩, hlost⟩
    obtain ⟨q, hq, v, hv, rfl⟩ := htag
    exact hagree _ (hleft ⟨v, has q hq v hv, rfl⟩)
  | fork has supply signals unheard =>
    rw [signals, Setting.foldl_hear_jump h.ignores₁ unheard,
      Setting.foldl_hear_jump h.ignores₂ unheard]
    refine ⟨⟨hab.kept, hab.agree.imp_right fun hagree tag htag => ?_⟩, hlost⟩
    have hnew := (hp.of_adds (Path.adds_execute program ins p g.supply)).tag_lt
    obtain ⟨q, hq, v, hv, rfl⟩ := htag
    -- a copy has the taints of its original
    obtain ⟨w, hw, hget⟩ := Path.exists_get_fork (fun _ hw => hnew hw) (has q hq v hv)
    exact (hagree _ (hleft ⟨w, hw, rfl⟩)).of_get_eq (hget _) (hget _)

theorem Tracks.step (h : Tracks c x₁ x₂ react₁ react₂) {program : Program} {limits : Limits}
    {g : Progress} {p : Path} {ps : List Path} {ins : Instruction} (hp : g.paths = p :: ps)
    (hi : program.at? p.pc = some ins) (hf : fitsStack ins.opcode p.stack = true)
    (hg : g.Tracked c a b) :
    (g.stepped program limits p ps ins).Tracked c
      ((g.signals program limits p ins).foldl (x₁.hear react₁) a)
      ((g.signals program limits p ins).foldl (x₂.hear react₂) b) := by
  have hfirst : p ∈ g.paths := hp ▸ List.mem_cons_self
  have hrest {q : Path} (hq : q ∈ ps) : q ∈ g.paths := hp ▸ List.mem_cons_of_mem _ hq
  have hadvance : Progress.Advance program limits g (g.stepped program limits p ps ins) :=
    Progress.advance_stepped hp hi hf
  have hsteps := steps_stepAt program limits g.space g.supply p ins
  obtain ⟨_, _, _, hpath⟩ := path_execute program ins p g.supply
  obtain ⟨hgrows, hnames⟩ := hsteps.names (by
    rw [hpath, StateSpace.nameAt?_addFrame]
    exact hg.named p hfirst)
  rw [hpath] at hnames
  have hgrows := (g.space.growsTo_addFrame p.node ⟨ins, p.stack⟩).trans hgrows
  obtain ⟨hab, hlost⟩ := h.hear_signals program limits (hg.tidy p hfirst) hf (hg.named p hfirst)
    ⟨hg.kept, (hg.agree p hfirst).imp_right fun hagree tag htag =>
      htag.elim (hagree tag) (hg.new tag)⟩
  -- a tag that the step does not touch keeps its taints on both sides
  have hfar {tag : Nat}
      (htag : ¬(stepAt program limits g.space g.supply p ins).Touches p g.supply tag)
      (hagree : a.2.AgreeAt c.reads b.2 tag) :
      ((g.signals program limits p ins).foldl (x₁.hear react₁) a).2.AgreeAt c.reads
        ((g.signals program limits p ins).foldl (x₂.hear react₂) b).2 tag :=
    hagree.of_get_eq (get_hear_signals h.local₁ h.ignores₁ a htag)
      (get_hear_signals h.local₂ h.ignores₂ b htag)
  have hold {q : Path} (hq : q ∈ g.paths) {tag : Nat} (htag : q.HasTag tag) :
      tag < g.supply.nextTag := by
    obtain ⟨v, hv, rfl⟩ := htag
    exact (hg.tidy q hq).tag_lt hv
  have hle := nextTag_le_stepAt program limits g.space g.supply p ins
  refine ⟨Progress.tidy_of_advance hadvance hg.tidy,
    Progress.apart_of_advance hadvance hg.tidy hg.apart, fun q hq => ?_,
    h.kept_mono hgrows hab.kept, fun tag htag => ?_, fun q hq => ?_⟩
  · rcases List.mem_append.mp hq with hq | hq
    · exact (hnames q hq).1
    · exact hgrows.name (hg.named q (hrest hq))
  · have htag : (stepAt program limits g.space g.supply p ins).supply.nextTag ≤ tag := htag
    refine hfar ?_ (hg.new tag (Nat.le_trans hle htag))
    rintro (hhas | ⟨-, hlt⟩)
    · have := hold hfirst hhas
      omega
    · omega
  · rcases List.mem_append.mp hq with hq | hq
    · rcases hab.agree with hl | hagree
      · have hl := h.lost_mono hgrows hl
        refine .inl ?_
        rcases (hnames q hq).2 with hnode | ⟨edge, hedge, hsource, htarget⟩
        · rw [hnode]
          exact hl
        · rw [← htarget]
          exact h.lost_below hedge (hsource ▸ hl)
      · exact .inr fun tag htag => hagree tag ⟨q, hq, htag⟩
    · rcases hg.agree q (hrest hq) with hl | hagree
      · exact .inl (h.lost_mono hgrows (hlost hl))
      · refine .inr fun tag htag => hfar ?_ (hagree tag htag)
        have hpairs : g.paths.Pairwise Path.Apart := hg.apart
        rw [hp] at hpairs
        have hapart := (List.pairwise_cons.mp hpairs).1
        obtain ⟨w, hw, rfl⟩ := htag
        rintro (⟨v, hv, heq⟩ | ⟨hge, -⟩)
        · exact hapart q hq hv hw heq
        · have := hold (hrest hq) ⟨w, hw, rfl⟩
          omega

theorem Tracks.begin (h : Tracks c x₁ x₂ react₁ react₂) (entry : String) {supply : Supply}
    (hkept : c.kept space a.1 b.1)
    (hnew : ∀ tag, supply.nextTag ≤ tag → a.2.AgreeAt c.reads b.2 tag) :
    (Progress.begin entry space supply).Tracked c a b := by
  have hgrows : space.GrowsTo (space.addNode entry 0 []) := by
    refine ⟨fun u name hname => ?_, fun _ he => he⟩
    have hlt := StateSpace.lt_of_nameAt? hname
    rw [← hname]
    simp only [StateSpace.nameAt?, StateSpace.addNode, Array.getElem?_push,
      if_neg (Nat.ne_of_lt hlt)]
  refine ⟨fun p hp => ?_, List.pairwise_singleton _ _, fun p hp => ?_, h.kept_mono hgrows hkept,
    hnew, fun p hp => .inr ?_⟩
  · rw [List.mem_singleton.mp hp]
    exact Path.tidy_start ..
  · rw [List.mem_singleton.mp hp]
    simp [Progress.begin, StateSpace.nameAt?, StateSpace.addNode, Path.start]
  · rw [List.mem_singleton.mp hp]
    rintro tag ⟨v, hv, -⟩
    have hlt := (Path.tidy_start entry space.nodes.size { nextTag := 0 }).tag_lt hv
    exact absurd hlt (Nat.not_lt_zero _)

/-- **Watchers of one exploration compare at all times as they do event by event.** -/
theorem Tracks.lockstep (h : Tracks c x₁ x₂ react₁ react₂) (limits : Limits) :
    Lockstep limits (x₁.hear react₁) (x₂.hear react₂)
      fun g g' a b => g' = g ∧ g.Tracked c a b where
  heads := by
    rintro _ g a b ⟨rfl, -⟩
    exact List.forall₂_same.mpr fun p _ => ⟨rfl, rfl⟩
  returned := by
    rintro _ g a b ⟨rfl, -⟩
    rfl
  drop := by
    rintro _ g a b p q ps qs hp hq ⟨rfl, hg⟩
    obtain ⟨rfl, rfl⟩ := List.cons.inj (hp.symm.trans hq)
    have hrest {r : Path} (hr : r ∈ ps) : r ∈ g.paths := hp ▸ List.mem_cons_of_mem _ hr
    have hpairs : g.paths.Pairwise Path.Apart := hg.apart
    rw [hp] at hpairs
    exact ⟨rfl, fun r hr => hg.tidy r (hrest hr), (List.pairwise_cons.mp hpairs).2,
      fun r hr => hg.named r (hrest hr), hg.kept, hg.new, fun r hr => hg.agree r (hrest hr)⟩
  step := by
    rintro program _ g a b p q ps qs ins hp hq hi hf ⟨rfl, hg⟩
    obtain ⟨rfl, rfl⟩ := List.cons.inj (hp.symm.trans hq)
    exact ⟨rfl, h.step hp hi hf hg⟩
  cut := by
    rintro _ g a b ⟨rfl, hg⟩
    have hgrows : g.space.GrowsTo g.cutShort.space := ⟨fun _ _ hname => hname, fun _ he => he⟩
    exact ⟨rfl, hg.tidy, hg.apart, hg.named, h.kept_mono hgrows hg.kept, hg.new,
      fun p hp => (hg.agree p hp).imp_left (h.lost_mono hgrows)⟩
  begin := by
    rintro _ g a b entry ⟨rfl, hg⟩
    exact ⟨rfl, h.begin entry hg.kept hg.new⟩

end

end GuardFinder

import GuardFinder.Proofs.Bounds
import GuardFinder.Proofs.Observation
import GuardFinder.Proofs.Renaming

/-!
# What the limits cut off

A state space is complete if no path was pruned. So a complete one is the same under all wider
limits; and under limits that are wider by one each path that was pruned goes on, so an incomplete one
has more nodes then.

* `stepAt_eq_of_complete`: a step that prunes nothing is the same under wider limits.
* `Path.Renamed.step_rule`: what holds of a path and its double when both follow the same edges
  holds after a step of both.
* `StateSpace.due`: the nodes, and one more if a path was pruned.
* `Progress.Outgrown`: an exploration under wider limits has the paths of the other one, under other
  names and among others, and as many nodes as the other one is due.
* `runPaths_outgrown`: **what is due comes under wider limits**.
* `Explorer.explore_complete`: a state space is complete exactly if the limits did not matter.
-/

namespace GuardFinder

/-- Other limits allow all that these allow. -/
structure Limits.Below (limits limits' : Limits) : Prop where
  depth : limits.maxDepth ≤ limits'.maxDepth
  loops : limits.loopBound ≤ limits'.loopBound

/-! ### Complete state spaces -/

section

variable {program : Program} {limits limits' : Limits} {s : StateSpace} {p : Path}

theorem complete_of_follow {frame : Frame} {target : Nat} {kind : EdgeKind}
    (h : (follow program limits s p frame target kind).space.complete = true) :
    s.complete = true := by
  have henters := enters_follow program limits s p frame target kind
  generalize (follow program limits s p frame target kind).space = s' at h henters
  generalize (follow program limits s p frame target kind).paths = ps at henters
  cases henters with
  | entered => exact h
  | pruned => cases h

theorem follow_eq_of_complete (hbelow : limits.Below limits') {frame : Frame} {target : Nat}
    {kind : EdgeKind}
    (h : (follow program limits s p frame target kind).space.complete = true) :
    follow program limits' s p frame target kind = follow program limits s p frame target kind := by
  unfold follow Path.enter at h ⊢
  simp only at h ⊢
  by_cases hloop : limits.loopBound <
      (p.trail.push (frame.instruction.address, target)).count (frame.instruction.address, target)
  · simp only [if_pos hloop] at h
    cases h
  · by_cases hdepth : limits.maxDepth <
        (p.trail.push (frame.instruction.address, target)).length
    · simp only [if_neg hloop, if_pos hdepth] at h
      cases h
    · have hloop' : ¬limits'.loopBound < (p.trail.push (frame.instruction.address, target)).count
          (frame.instruction.address, target) :=
        fun hlt => hloop (Nat.lt_of_le_of_lt hbelow.loops hlt)
      have hdepth' : ¬limits'.maxDepth <
          (p.trail.push (frame.instruction.address, target)).length :=
        fun hlt => hdepth (Nat.lt_of_le_of_lt hbelow.depth hlt)
      simp only [if_neg hloop, if_neg hdepth, if_neg hloop', if_neg hdepth']

theorem forkStep_eq_of_complete (hbelow : limits.Below limits') {supply : Supply} {frame : Frame}
    {destination : Value} {condition : Term}
    (h : (forkStep program limits s supply p frame destination condition).space.complete = true) :
    forkStep program limits' s supply p frame destination condition =
      forkStep program limits s supply p frame destination condition := by
  unfold forkStep at h ⊢
  simp only at h ⊢
  cases htarget : jumpTarget? program destination with
  | none =>
    simp only [htarget] at h ⊢
    rw [follow_eq_of_complete hbelow h]
  | some target =>
    simp only [htarget] at h ⊢
    rw [follow_eq_of_complete hbelow (complete_of_follow h), follow_eq_of_complete hbelow h]

/-- **A step that prunes nothing is the same under wider limits.** -/
theorem stepAt_eq_of_complete (hbelow : limits.Below limits') {supply : Supply} {ins : Instruction}
    (h : (stepAt program limits s supply p ins).space.complete = true) :
    stepAt program limits' s supply p ins = stepAt program limits s supply p ins := by
  unfold stepAt at h ⊢
  generalize execute program ins p supply = e at h ⊢
  simp only at h ⊢
  cases hflow : e.flow with
  | next | halt => rfl
  | jump destination =>
    simp only [hflow] at h ⊢
    cases htarget : jumpTarget? program destination with
    | none => rfl
    | some target =>
      simp only [htarget] at h ⊢
      rw [follow_eq_of_complete hbelow h]
  | branch destination condition =>
    simp only [hflow] at h ⊢
    cases hconst : condition.const? with
    | none =>
      simp only [hconst] at h ⊢
      exact forkStep_eq_of_complete hbelow h
    | some v =>
      simp only [hconst] at h ⊢
      generalize (if v = 0 then some ins.nextAddress else jumpTarget? program destination) =
        target? at h ⊢
      cases target? with
      | none => rfl
      | some target =>
        simp only at h ⊢
        rw [follow_eq_of_complete hbelow h]

end

/-! ### Doubles -/

section

variable {program : Program} {limits : Limits} {ins : Instruction} {p q : Path}
  {s s' : StateSpace} {supply : Supply} {ρ : Renaming} {a b : Nat}

theorem havocs_le_execute (program : Program) (ins : Instruction) (p : Path) (s : Supply) :
    s.havocs ≤ (execute program ins p s).supply.havocs := by
  have hcopy (m : Memory) (destination source length : Value) :
      (copyCallData m s destination source length).2.havocs = s.havocs := by
    unfold copyCallData
    split <;> rfl
  have hload (m : Memory) (offset : Nat) : (m.load s offset).supply.havocs = s.havocs := by
    unfold Memory.load
    simp only
    split <;> rfl
  have heffect := executes_execute program ins p s
  generalize execute program ins p s = e at heffect ⊢
  cases heffect with
  | guess => exact Nat.le_succ _
  | load => exact (hload ..).ge
  | copy => exact (hcopy ..).ge
  | stuck | dup | swap | drop | make | fetch | write | store => exact Nat.le_refl _

theorem Steps.havocs_eq {frame : Frame} {e : Effect} {qs : List Path} {returned : Option Bytes}
    (h : Steps program limits frame e s s' qs supply returned) :
    supply.havocs = e.supply.havocs := by
  cases h with
  | fork | forkLost => exact Copies.havocs_foldl ..
  | next | halt | jump | jumpLost | knownFalse | knownTrue | knownLost => rfl

/-- A step gives out names. -/
theorem exists_raise_stepAt (program : Program) (limits : Limits) (s : StateSpace) (supply : Supply)
    (p : Path) (ins : Instruction) :
    ∃ a b, (stepAt program limits s supply p ins).supply = supply.raise a b := by
  refine Supply.exists_raise (nextTag_le_stepAt ..) ?_
  rw [(steps_stepAt program limits s supply p ins).havocs_eq]
  exact havocs_le_execute ..

theorem Renaming.Raises.mono {s s₁ t t₁ : Supply} (h : ρ.Raises a b s t)
    (htags : s.nextTag ≤ s₁.nextTag) (hids : s.havocs ≤ s₁.havocs) (htags' : t₁.nextTag ≤ t.nextTag)
    (hids' : t₁.havocs ≤ t.havocs) : ρ.Raises a b s₁ t₁ :=
  ⟨fun i hle hlt => h.tags i (Nat.le_trans htags hle) (Nat.lt_of_lt_of_le hlt htags'),
    fun i hlt hle => h.ids i (Nat.lt_of_le_of_lt hids hlt) (Nat.le_trans hle hids')⟩

theorem supply_forkStep (program : Program) (limits : Limits) (s : StateSpace) (supply : Supply)
    (p : Path) (frame : Frame) (destination : Value) (condition : Term) :
    (forkStep program limits s supply p frame destination condition).supply =
      (p.fork supply).supply := by
  unfold forkStep
  simp only
  split <;> rfl

/-- **A path and its double follow the same edges.** What holds when no path goes on, when both go
on in their nodes, and after each edge that both follow holds after a step of both. -/
theorem Path.Renamed.step_rule (h : p.Renamed ρ q) (limits' : Limits) (s' : StateSpace)
    (hρ : ρ.Raises a b supply (stepAt program limits s supply p ins).supply)
    {Q : StateSpace → List Path → StateSpace → List Path → Prop}
    (hnone : Q (s.addFrame p.node ⟨ins, p.stack⟩) [] (s'.addFrame q.node ⟨ins, q.stack⟩) [])
    (hnext : ∀ ⦃p' q' : Path⦄, p'.Renamed ρ q' → p'.trail = p.trail →
      Q (s.addFrame p.node ⟨ins, p.stack⟩) [p'] (s'.addFrame q.node ⟨ins, q.stack⟩) [q'])
    (henter : ∀ ⦃p' q' : Path⦄ ⦃target kind s₁ s₂ ps rs s₁' s₂' ps' rs'⦄, p'.Renamed ρ q' →
      p'.trail = p.trail → p'.Enters limits ins.address target kind s₁ s₂ rs →
        q'.Enters limits' ins.address target kind s₁' s₂' rs' → Q s₁ ps s₁' ps' →
          Q s₂ (rs ++ ps) s₂' (rs' ++ ps')) :
    Q (stepAt program limits s supply p ins).space (stepAt program limits s supply p ins).paths
        (stepAt program limits' s' (supply.raise a b) q ins).space
        (stepAt program limits' s' (supply.raise a b) q ins).paths ∧
      (stepAt program limits' s' (supply.raise a b) q ins).supply =
        (stepAt program limits s supply p ins).supply.raise a b := by
  have hsteps := steps_stepAt program limits s supply p ins
  have htags := (Path.adds_execute program ins p supply).1
  have hids := havocs_le_execute program ins p supply
  have he := renamed_execute h program ins supply
    (hρ.mono (Nat.le_refl _) (Nat.le_refl _) hsteps.nextTag_le (Nat.le_of_eq hsteps.havocs_eq.symm))
  replace hρ := hρ.mono htags hids (Nat.le_refl _) (Nat.le_refl _)
  have htrail := (trail_execute program ins p supply).1
  have hfollow {p' q' : Path} (h' : p'.Renamed ρ q') (ht : p'.trail = p.trail) (target : Nat)
      (kind : EdgeKind) {s₁ s₁' : StateSpace} {ps ps' : List Path} (hQ : Q s₁ ps s₁' ps') :
      Q (follow program limits s₁ p' ⟨ins, p.stack⟩ target kind).space
        ((follow program limits s₁ p' ⟨ins, p.stack⟩ target kind).paths ++ ps)
        (follow program limits' s₁' q' ⟨ins, q.stack⟩ target kind).space
        ((follow program limits' s₁' q' ⟨ins, q.stack⟩ target kind).paths ++ ps') :=
    henter h' ht (enters_follow program limits s₁ p' ⟨ins, p.stack⟩ target kind)
      (enters_follow program limits' s₁' q' ⟨ins, q.stack⟩ target kind) hQ
  have hone {p' q' : Path} (h' : p'.Renamed ρ q') (ht : p'.trail = p.trail) (target : Nat)
      (kind : EdgeKind) := hfollow h' ht target kind hnone
  simp only [List.append_nil] at hone
  unfold stepAt at hρ ⊢
  generalize execute program ins q (supply.raise a b) = e' at he ⊢
  generalize execute program ins p supply = e at he hρ htrail ⊢
  simp only [he.flow, he.supply] at hρ ⊢
  cases hflow : e.flow with
  | next => exact ⟨hnext { he.path with pc := rfl } htrail, rfl⟩
  | halt returned => exact ⟨hnone, rfl⟩
  | jump destination =>
    simp only [Flow.rename, jumpTarget?_rename]
    cases jumpTarget? program destination with
    | none => exact ⟨hnone, rfl⟩
    | some target => exact ⟨hone he.path htrail target .jump, rfl⟩
  | branch destination condition =>
    simp only [hflow, Flow.rename, Value.const?_rename] at hρ ⊢
    cases hconst : condition.const? with
    | some v =>
      simp only [jumpTarget?_rename]
      generalize (if v = 0 then some ins.nextAddress else jumpTarget? program destination) = target?
      cases target? with
      | none => exact ⟨hnone, rfl⟩
      | some target => exact ⟨hone he.path htrail target _, rfl⟩
    | none =>
      simp only [hconst] at hρ
      rw [supply_forkStep] at hρ
      obtain ⟨-, hsupply, -⟩ := renamed_fork he.path e.supply hρ
      have hfell := hone (he.path.fallen hρ condition.word) htrail ins.nextAddress
        (.conditional false)
      refine ⟨?_, by rw [supply_forkStep, supply_forkStep, hsupply]⟩
      unfold forkStep
      simp only [jumpTarget?_rename, Value.word_rename]
      cases jumpTarget? program destination with
      | none => exact hfell
      | some target =>
        exact hfollow (he.path.taken condition.word) htrail target (.conditional true) hfell

/-- The path enters a node under wider limits too. -/
theorem Path.Renamed.enters (h : p.Renamed ρ q) {limits' : Limits} (hbelow : limits.Below limits')
    {source target : Nat} {kind : EdgeKind} {s₁ s₁' : StateSpace} {ps qs : List Path}
    (hp : p.Enters limits source target kind s s₁ ps)
    (hq : q.Enters limits' source target kind s' s₁' qs) :
    List.SublistForall₂ (Path.Renamed ρ) ps qs := by
  cases hp with
  | pruned => exact .nil
  | entered loops depth =>
    cases hq with
    | entered =>
      have htrail : q.trail.push (source, target) = p.trail.push (source, target) := by
        rw [h.trail]
      exact .cons { h with pc := rfl, trail := htrail } .nil
    | pruned spent =>
      rw [h.trail] at spent
      have := hbelow.depth
      have := hbelow.loops
      omega

end

theorem sublistForall₂_append {α β : Type} {R : α → β → Prop} {l₁ m₁ : List α} {l₂ m₂ : List β}
    (hl : List.SublistForall₂ R l₁ l₂) (hm : List.SublistForall₂ R m₁ m₂) :
    List.SublistForall₂ R (l₁ ++ m₁) (l₂ ++ m₂) := by
  obtain ⟨l, hl, hsub⟩ := List.sublistForall₂_iff.mp hl
  obtain ⟨m, hm, hsub'⟩ := List.sublistForall₂_iff.mp hm
  exact List.sublistForall₂_iff.mpr ⟨l ++ m, List.rel_append hl hm, hsub.append hsub'⟩

theorem sublistForall₂_imp {α β : Type} {R S : α → β → Prop} {l₁ : List α} {l₂ : List β}
    (h : List.SublistForall₂ R l₁ l₂) (himp : ∀ a ∈ l₁, ∀ b, R a b → S a b) :
    List.SublistForall₂ S l₁ l₂ := by
  obtain ⟨l, hl, hsub⟩ := List.sublistForall₂_iff.mp h
  refine List.sublistForall₂_iff.mpr ⟨l, ?_, hsub⟩
  exact ((List.forall₂_and_left l₁ l).mpr ⟨himp, hl⟩).imp fun _ _ hab => hab.1 _ hab.2

/-- A step leaves paths without names but those that were given out. -/
theorem Path.Named.stepAt {p : Path} {supply : Supply} (h : p.Named supply) (program : Program)
    (limits : Limits) (s : StateSpace) (ins : Instruction) :
    ∀ r ∈ (stepAt program limits s supply p ins).paths,
      r.Named (stepAt program limits s supply p ins).supply := by
  intro r hr ρ hρ
  obtain ⟨a, b, hraise⟩ := exists_raise_stepAt program limits s supply p ins
  have hp : p.Renamed ρ p := h ρ (hraise ▸ hρ).of_raise
  -- the path is its own double
  obtain ⟨hpaths, -⟩ := hp.step_rule limits s (hρ.raises supply)
    (Q := fun _ ps _ qs => List.SublistForall₂ (Path.Renamed ρ) ps qs) .nil
    (fun _ _ h' _ => .cons h' .nil) fun _ _ _ _ _ _ _ _ _ _ _ _ h' _ hp hq hps =>
      sublistForall₂_append (h'.enters ⟨Nat.le_refl _, Nat.le_refl _⟩ hp hq) hps
  obtain ⟨l, hl, hsub⟩ := List.sublistForall₂_iff.mp hpaths
  obtain rfl := hsub.eq_of_length hl.length_eq.symm
  exact List.forall₂_same.mp hl r hr

/-! ### What is due -/

/-- The nodes of a state space, and one more if a path was pruned. -/
def StateSpace.due (s : StateSpace) : Nat := s.nodes.size + if s.complete then 0 else 1

/-- A path has kept the limits so far. -/
def Path.Keeps (limits : Limits) (p : Path) : Prop :=
  p.trail.length ≤ limits.maxDepth ∧ ∀ jump, p.trail.count jump ≤ limits.loopBound

theorem Path.Enters.keeps {limits : Limits} {p : Path} {source target : Nat} {kind : EdgeKind}
    {s s' : StateSpace} {ps : List Path} (h : p.Enters limits source target kind s s' ps)
    (hp : p.Keeps limits) : ∀ r ∈ ps, r.Keeps limits := by
  intro r hr
  cases h with
  | pruned => exact absurd hr List.not_mem_nil
  | entered loops depth =>
    obtain rfl := List.mem_singleton.mp hr
    refine ⟨depth, fun jump => ?_⟩
    by_cases hjump : jump = (source, target)
    · rw [hjump]
      exact loops
    · have hcount := hp.2 jump
      rw [Trail.count_eq] at hcount ⊢
      exact Nat.le_trans (Nat.le_of_eq (List.count_cons_of_ne (Ne.symm hjump))) hcount

/-- **A path that is pruned enters a node under limits that are wider by one**, if it has kept its
limits so far. -/
theorem Path.Enters.due_le {limits limits' : Limits} (hdepth : limits.maxDepth < limits'.maxDepth)
    (hloops : limits.loopBound < limits'.loopBound) {p q : Path} {source target : Nat}
    {kind : EdgeKind} {s s₁ s' s₁' : StateSpace} {ps qs : List Path}
    (hp : p.Enters limits source target kind s s₁ ps)
    (hq : q.Enters limits' source target kind s' s₁' qs) (htrail : q.trail = p.trail)
    (hkeeps : p.Keeps limits) (hdue : s.due ≤ s'.nodes.size) : s₁.due ≤ s₁'.nodes.size := by
  have hcount : (p.trail.push (source, target)).count (source, target) ≤ limits.loopBound + 1 := by
    rw [Trail.count_eq]
    refine Nat.le_trans (Nat.le_of_eq List.count_cons_self) (Nat.succ_le_succ ?_)
    rw [← Trail.count_eq]
    exact hkeeps.2 _
  have hlength : (p.trail.push (source, target)).length ≤ limits.maxDepth + 1 :=
    Nat.succ_le_succ hkeeps.1
  cases hq with
  | pruned spent =>
    rw [htrail] at spent
    omega
  | entered =>
    have hsize : (s'.addChild q target kind).nodes.size = s'.nodes.size + 1 := Array.size_push ..
    rw [hsize]
    unfold StateSpace.due at hdue ⊢
    cases hp with
    | entered =>
      have hsize : (s.addChild p target kind).nodes.size = s.nodes.size + 1 := Array.size_push ..
      have hcomplete : (s.addChild p target kind).complete = s.complete := rfl
      rw [hsize, hcomplete]
      omega
    | pruned =>
      simp only [Bool.false_eq_true, if_false]
      omega

theorem StateSpace.due_addFrame (s : StateSpace) (u : Nat) (f : Frame) :
    (s.addFrame u f).due = s.due := by
  rw [due, size_nodes_addFrame]
  rfl

/-- After a step of a path and of its double there are as many nodes as are due, and the paths that
go on have doubles that do. -/
theorem Path.Renamed.due_stepAt {program : Program} {limits limits' : Limits} {ins : Instruction}
    {p q : Path} {s s' : StateSpace} {supply : Supply} {ρ : Renaming} {a b : Nat}
    (h : p.Renamed ρ q) (hdepth : limits.maxDepth < limits'.maxDepth)
    (hloops : limits.loopBound < limits'.loopBound) (hkeeps : p.Keeps limits)
    (hdue : s.due ≤ s'.nodes.size)
    (hρ : ρ.Raises a b supply (stepAt program limits s supply p ins).supply) :
    ((stepAt program limits s supply p ins).space.due ≤
          (stepAt program limits' s' (supply.raise a b) q ins).space.nodes.size ∧
        (∀ r ∈ (stepAt program limits s supply p ins).paths, r.Keeps limits) ∧
        List.SublistForall₂ (Path.Renamed ρ) (stepAt program limits s supply p ins).paths
          (stepAt program limits' s' (supply.raise a b) q ins).paths) ∧
      (stepAt program limits' s' (supply.raise a b) q ins).supply =
        (stepAt program limits s supply p ins).supply.raise a b := by
  have hbelow : limits.Below limits' := ⟨Nat.le_of_lt hdepth, Nat.le_of_lt hloops⟩
  have hbegin : (s.addFrame p.node ⟨ins, p.stack⟩).due ≤
      (s'.addFrame q.node ⟨ins, q.stack⟩).nodes.size := by
    rwa [StateSpace.due_addFrame, StateSpace.size_nodes_addFrame]
  have hkeeps' {p' : Path} (ht : p'.trail = p.trail) : p'.Keeps limits := by
    rwa [Path.Keeps, ht]
  refine h.step_rule limits' s' hρ
    (Q := fun s ps s' qs => s.due ≤ s'.nodes.size ∧ (∀ r ∈ ps, r.Keeps limits) ∧
      List.SublistForall₂ (Path.Renamed ρ) ps qs)
    ⟨hbegin, fun _ hr => absurd hr List.not_mem_nil, .nil⟩ ?_ ?_
  · intro p' q' h' ht
    exact ⟨hbegin, fun r hr => List.mem_singleton.mp hr ▸ hkeeps' ht, .cons h' .nil⟩
  · rintro p' q' target kind s₁ s₂ ps rs s₁' s₂' ps' rs' h' ht hp hq ⟨hdue, hkept, hpaths⟩
    refine ⟨hp.due_le hdepth hloops hq h'.trail (hkeeps' ht) hdue, fun r hr => ?_,
      sublistForall₂_append (h'.enters hbelow hp hq) hpaths⟩
    rcases List.mem_append.mp hr with hr | hr
    · exact hp.keeps (hkeeps' ht) r hr
    · exact hkept r hr

/-- An exploration has the paths of another one, among others and with other names, and as many
nodes as the other one is due. -/
structure Progress.Outgrown (limits : Limits) (g h : Progress) : Prop where
  due : g.space.due ≤ h.space.nodes.size
  keeps : ∀ p ∈ g.paths, p.Keeps limits
  paths : ∃ a b, h.supply = g.supply.raise a b ∧
    List.SublistForall₂ (Path.Matched g.supply a b) g.paths h.paths

namespace Progress.Outgrown

variable {program : Program} {limits limits' : Limits} {g h : Progress} {p q : Path}
  {ps qs : List Path} {ins : Instruction}

theorem begin (limits : Limits) (entry : String) (space : StateSpace) (supply : Supply)
    (hcomplete : space.complete = true) :
    (Progress.begin entry space supply).Outgrown limits (.begin entry space supply) where
  due := by
    simp only [Progress.begin, StateSpace.due, StateSpace.addNode, hcomplete, if_true]
    exact Nat.le_refl _
  keeps p hp := by
    obtain rfl := List.mem_singleton.mp hp
    exact ⟨Nat.zero_le _, fun _ => Nat.zero_le _⟩
  paths := ⟨0, 0, rfl, .cons (Path.matched_start ..) .nil⟩

/-- The first path of the wider exploration is the double of the first one here, or of none. -/
theorem head (hg : g.Outgrown limits h) (hq : h.paths = q :: qs) :
    (∃ p ps a b, g.paths = p :: ps ∧ h.supply = g.supply.raise a b ∧ p.Matched g.supply a b q ∧
        List.SublistForall₂ (Path.Matched g.supply a b) ps qs) ∨
      ∃ a b, h.supply = g.supply.raise a b ∧
        List.SublistForall₂ (Path.Matched g.supply a b) g.paths qs := by
  obtain ⟨a, b, hsupply, hpaths⟩ := hg.paths
  rw [hq] at hpaths
  generalize hp : g.paths = all at hpaths
  cases hpaths with
  | nil => exact .inr ⟨a, b, hsupply, .nil⟩
  | cons hmatched hrest => exact .inl ⟨_, _, a, b, rfl, hsupply, hmatched, hrest⟩
  | cons_right hrest => exact .inr ⟨a, b, hsupply, hrest⟩

/-- The wider exploration goes on with a path that has no double here. -/
theorem ahead (hg : g.Outgrown limits h) {a b : Nat} (hsupply : h.supply = g.supply.raise a b)
    (hpaths : List.SublistForall₂ (Path.Matched g.supply a b) g.paths qs) (q : Path) :
    g.Outgrown limits (h.stepped program limits' q qs ins) where
  due := by
    refine Nat.le_trans hg.due ?_
    have hsize := (steps_stepAt program limits' h.space h.supply q ins).continues.size_le
    rwa [StateSpace.size_nodes_addFrame] at hsize
  keeps := hg.keeps
  paths := by
    obtain ⟨a', b', hraise⟩ := exists_raise_stepAt program limits' h.space h.supply q ins
    refine ⟨a + a', b + b', ?_, ?_⟩
    · rw [← Supply.raise_raise, ← hsupply]
      exact hraise
    · exact sublistForall₂_append .nil
        (sublistForall₂_imp hpaths fun _ _ _ hmatched => hmatched.raise a' b')

/-- **Both explorations go on with a path and its double.** -/
theorem both (hg : g.Outgrown limits h) (hdepth : limits.maxDepth < limits'.maxDepth)
    (hloops : limits.loopBound < limits'.loopBound) (hp : g.paths = p :: ps) {a b : Nat}
    (hsupply : h.supply = g.supply.raise a b) (hmatched : p.Matched g.supply a b q)
    (hrest : List.SublistForall₂ (Path.Matched g.supply a b) ps qs) :
    (g.stepped program limits p ps ins).Outgrown limits (h.stepped program limits' q qs ins) := by
  obtain ⟨hnamed, ρ, hρ, hrenamed⟩ := hmatched
  have hkeeps := hg.keeps
  rw [hp] at hkeeps
  obtain ⟨⟨hdue, hkept, hpaths⟩, hsupply'⟩ := hrenamed.due_stepAt hdepth hloops
    (hkeeps p List.mem_cons_self) hg.due (hρ (stepAt program limits g.space g.supply p ins).supply)
  obtain ⟨a', b', hraise⟩ := exists_raise_stepAt program limits g.space g.supply p ins
  have hnew := hnamed.stepAt program limits g.space ins
  rw [← hsupply] at hdue hpaths hsupply'
  refine ⟨hdue, fun r hr => ?_, a, b, hsupply', ?_⟩
  · rcases List.mem_append.mp hr with hr | hr
    · exact hkept r hr
    · exact hkeeps r (List.mem_cons_of_mem _ hr)
  · simp only [Progress.stepped]
    rw [hraise] at hnew ⊢
    refine sublistForall₂_append (sublistForall₂_imp hpaths fun r hr r' hr' => ?_)
      (sublistForall₂_imp hrest fun _ _ _ hmatched => hmatched.advance a' b')
    exact ⟨hnew r hr, ρ, fun t => (hρ t).mono (Nat.le_add_right ..) (Nat.le_add_right ..)
      (Nat.le_refl _) (Nat.le_refl _), hr'⟩

end Progress.Outgrown

/-- The instruction that a path takes next, if there is one and the stack allows it. -/
def Path.instruction? (program : Program) (p : Path) : Option Instruction :=
  (program.at? p.pc).filter fun ins => fitsStack ins.opcode p.stack

theorem Path.Matched.instruction?_eq {s : Supply} {a b : Nat} {p q : Path} (h : p.Matched s a b q)
    (program : Program) : q.instruction? program = p.instruction? program := by
  obtain ⟨-, ρ, -, hrenamed⟩ := h
  simp only [Path.instruction?, fitsStack, hrenamed.pc, hrenamed.stack, List.length_map]

section

variable {σ τ : Type} {P : σ → Prop} {Q : τ → Prop}

/-- A path that takes no instruction is dropped. -/
theorem exists_runPaths_dropped {x : Setting σ} {g : Progress} {p : Path} {ps : List Path}
    (hp : g.paths = p :: ps) (htime : x.InTime)
    (hi : p.instruction? x.program = none) {w : σ × Ledger} (hw : P w.1) :
    ∃ w', P w'.1 ∧ runPaths x g w = runPaths x { g with paths := ps } w' := by
  cases hat : x.program.at? p.pc with
  | none => exact ⟨w, hw, runPaths_of_ended hp (htime.not_late g) hat⟩
  | some ins =>
    rw [Path.instruction?, hat, Option.filter_eq_none_iff] at hi
    exact ⟨(w.1, w.2.say (.stackBounds ins)), hw, runPaths_of_unfit hp (htime.not_late g) hat
      (hi ins rfl)⟩

/-- **What is due comes under wider limits.** -/
theorem runPaths_outgrown {x : Setting σ} {y : Setting τ} (hx : x.Reliable P) (hy : y.Reliable Q)
    (hprogram : y.program = x.program) (htime : x.InTime) (htime' : y.InTime)
    (hdepth : x.limits.maxDepth < y.limits.maxDepth)
    (hloops : x.limits.loopBound < y.limits.loopBound) (g h : Progress) (w : σ × Ledger)
    (v : τ × Ledger) (hw : P w.1) (hv : Q v.1) (hg : g.Outgrown x.limits h) :
    (runPaths x g w).progress.space.due ≤ (runPaths y h v).progress.space.nodes.size := by
  induction hweight : weightSum y.program y.limits h.paths using Nat.strongRecOn
    generalizing g h w v with
  | ind weight ih =>
    subst hweight
    cases hq : h.paths with
    | nil =>
      obtain ⟨a, b, -, hpaths⟩ := hg.paths
      rw [hq] at hpaths
      generalize hp : g.paths = all at hpaths
      cases hpaths
      rw [runPaths_of_nil hp, runPaths_of_nil hq]
      exact hg.due
    | cons q qs =>
      cases hi : q.instruction? y.program with
      | none =>
        obtain ⟨v', hv', hrun⟩ := exists_runPaths_dropped hq htime' hi hv
        have hweight : weightSum y.program y.limits qs < weightSum y.program y.limits h.paths :=
          hq ▸ weightSum_pending_lt ..
        rw [hrun]
        rcases hg.head hq with ⟨p, ps, a, b, hp, hsupply, hmatched, hrest⟩ | ⟨a, b, hsupply, hrest⟩
        · rw [hprogram, hmatched.instruction?_eq] at hi
          obtain ⟨w', hw', hrun'⟩ := exists_runPaths_dropped hp htime hi hw
          rw [hrun']
          exact ih _ hweight _ _ w' v' hw' hv'
            ⟨hg.due, fun r hr => hg.keeps r (hp ▸ List.mem_cons_of_mem _ hr), a, b, hsupply, hrest⟩
            rfl
        · exact ih _ hweight g _ w v' hw hv' ⟨hg.due, hg.keeps, a, b, hsupply, hrest⟩ rfl
      | some ins =>
        obtain ⟨hat, hfits⟩ := Option.filter_eq_some_iff.mp hi
        obtain ⟨v', hv', hrun⟩ := runPaths_step_reliable hy hq (htime'.not_late h) hat hfits hv
        have hweight : weightSum y.program y.limits (h.stepped y.program y.limits q qs ins).paths <
            weightSum y.program y.limits h.paths := by
          have hlt := weightSum_stepAt_lt y.program y.limits h.space h.supply q ins hat
          rw [hq, Progress.stepped, weightSum_append]
          simp only [weightSum]
          omega
        rw [hrun]
        rcases hg.head hq with ⟨p, ps, a, b, hp, hsupply, hmatched, hrest⟩ | ⟨a, b, hsupply, hrest⟩
        · rw [hprogram, hmatched.instruction?_eq] at hi
          obtain ⟨hat', hfits'⟩ := Option.filter_eq_some_iff.mp hi
          obtain ⟨w', hw', hrun'⟩ := runPaths_step_reliable hx hp (htime.not_late g) hat' hfits' hw
          rw [hrun']
          refine ih _ hweight _ _ w' v' hw' hv' ?_ rfl
          rw [hprogram]
          exact hg.both hdepth hloops hp hsupply hmatched hrest
        · exact ih _ hweight g _ w v' hw hv' (hg.ahead hsupply hrest q) rfl

/-! ### Explorations -/

/-- Runs that have made the same progress have the same sequel, but for the observer. -/
theorem Explorer.sequel?_of_progress {e : RunEnd σ} {e' : RunEnd τ} (he : e.failure = none)
    (he' : e'.failure = none) (h : e'.progress = e.progress) {target : Target} :
    sequel? target e' = (sequel? target e).map fun o =>
      ⟨o.code, o.entry, o.space, o.supply, e'.watch⟩ := by
  unfold sequel?
  rw [he, he', h]
  cases target with
  | deployed => rfl
  | creation => rcases e.progress.returned with - | - | - <;> rfl

section

variable {x y : Explorer} {observer : Observer σ} {observer' : Observer τ}
  (hx : ∀ code, (x.setting observer code).Reliable P)
  (hy : ∀ code, (y.setting observer' code).Reliable Q) (htime : x.InTime) (htime' : y.InTime)
  (hbelow : x.limits.Below y.limits)
include hx hy htime htime' hbelow

/-- A transaction that prunes nothing is the same under wider limits. -/
theorem transaction_of_complete (code : Bytes) (entry : String) (space : StateSpace)
    (supply : Supply) (w : σ × Ledger) (v : τ × Ledger) (hw : P w.1) (hv : Q v.1)
    (h : (transaction (x.setting observer code) entry space supply w).progress.space.complete =
      true) :
    (transaction (y.setting observer' code) entry space supply v).progress =
      (transaction (x.setting observer code) entry space supply w).progress :=
  have hlate (g : Progress) : y.late g = x.late g := (htime'.late g).trans (htime.late g).symm
  progress_runPaths_of_steps (hx code) (hy code) rfl hlate _ w v hw hv
    fun _ _ _ _ hstep => stepAt_eq_of_complete hbelow (hstep h)

/-- An exploration that prunes nothing is the same under wider limits. -/
theorem Explorer.explore_of_complete (hhavocs : y.havocs = x.havocs) {target : Target}
    {w : σ × Ledger} {v : τ × Ledger} (hw : P w.1) (hv : Q v.1) {space : StateSpace}
    (h : (x.explore observer target w).result = .ok space) (hcomplete : space.complete = true) :
    (y.explore observer' target v).result = .ok space := by
  have hsame := transaction_of_complete hx hy htime htime' hbelow
  have hfirst : (x.run observer (x.opening target w)).Succeeded P :=
    transaction_succeeds (hx target.code) _ StateSpace.supported_empty _ _ hw
  have hfirst' : (y.run observer' (y.opening target v)).Succeeded Q :=
    transaction_succeeds (hy target.code) _ StateSpace.supported_empty _ _ hv
  have hsame_first (hspace : (x.run observer (x.opening target w)).progress.space.complete = true) :
      (y.run observer' (y.opening target v)).progress =
        (x.run observer (x.opening target w)).progress := by
    simp only [run, opening, hhavocs]
    exact hsame _ _ _ _ _ _ hw hv hspace
  have hend := eq_of_explore h
  rw [closing] at hend
  rw [(y.explore_eq_closing observer' target v).1, closing]
  cases hsequel : sequel? target (x.run observer (x.opening target w)) with
  | none =>
    rw [hsequel, Option.getD_none] at hend
    have hprogress := hsame_first (hend ▸ hcomplete)
    rw [sequel?_of_progress hfirst.failure hfirst'.failure hprogress, hsequel, Option.map_none,
      Option.getD_none]
    simp only [finish, hfirst'.failure, hprogress, hend]
  | some o =>
    -- the second transaction starts with what the first one has left
    obtain ⟨hspace, hwatch⟩ := eq_of_sequel? hsequel
    rw [hsequel, Option.getD_some] at hend
    have hbegin : o.space.complete = true := complete_of_runPaths (hend ▸ hcomplete)
    have hprogress := hsame_first (hspace ▸ hbegin)
    rw [sequel?_of_progress hfirst.failure hfirst'.failure hprogress, hsequel, Option.map_some,
      Option.getD_some]
    have hkept := hfirst'.kept
    generalize (y.run observer' (y.opening target v)).watch = v' at hkept ⊢
    have hsecond : (y.run observer' ⟨o.code, o.entry, o.space, o.supply, v'⟩).progress =
        (x.run observer o).progress :=
      hsame _ _ _ _ _ _ (hwatch ▸ hfirst.kept) hkept (hend ▸ hcomplete)
    have hfailure : (y.run observer' ⟨o.code, o.entry, o.space, o.supply, v'⟩).failure = none :=
      (transaction_succeeds (hy o.code) _ (hspace ▸ hfirst.supported) _ _ hkept).failure
    simp only [finish, hfailure, hsecond, hend]

end

/-- **The limits did not matter exactly if the state space is complete.** Explorations under limits
and under wider ones, before observers that do not fail and with time enough, that have numbered as
many results return state spaces. If the first one is complete, then both are the same. If it is
not, and each of the wider limits is wider by one at least, then the exploration of deployed code
under them has more nodes. -/
theorem Explorer.explore_complete {x y : Explorer} {observer : Observer σ} {observer' : Observer τ}
    (hx : ∀ code, (x.setting observer code).Reliable P)
    (hy : ∀ code, (y.setting observer' code).Reliable Q) (htime : x.InTime) (htime' : y.InTime)
    (hdepth : x.limits.maxDepth ≤ y.limits.maxDepth)
    (hloops : x.limits.loopBound ≤ y.limits.loopBound) (hhavocs : y.havocs = x.havocs)
    (target : Target) (w : σ × Ledger) (v : τ × Ledger) (hw : P w.1) (hv : Q v.1) :
    ∃ space space', (x.explore observer target w).result = .ok space ∧
      (y.explore observer' target v).result = .ok space' ∧
      (space.complete = true → space' = space) ∧
      (x.limits.maxDepth < y.limits.maxDepth → x.limits.loopBound < y.limits.loopBound →
        space.complete = false → ∀ address code, target = .deployed address code →
          space.nodes.size < space'.nodes.size) := by
  obtain ⟨space, hspace, -⟩ := (explore_succeeds hx target w hw).space
  obtain ⟨space', hspace', -⟩ := (explore_succeeds hy target v hv).space
  refine ⟨space, space', hspace, hspace', fun hcomplete => ?_, ?_⟩
  · have hsame := explore_of_complete hx hy htime htime' ⟨hdepth, hloops⟩ hhavocs hw hv hspace
      hcomplete
    exact Except.ok.inj (hspace'.symm.trans hsame)
  · rintro hdepth' hloops' hincomplete address code rfl
    have hdue := runPaths_outgrown (hx code) (hy code) rfl htime htime' hdepth' hloops' _ _
      (w.1, { w.2 with taints := ∅ }) (v.1, { v.2 with taints := ∅ }) hw hv
      (.begin x.limits fallbackName {} { havocs := x.havocs } rfl)
    have hend : (runPaths (x.setting observer code) (.begin fallbackName {} { havocs := x.havocs })
        (w.1, { w.2 with taints := ∅ })).progress.space = space := eq_of_explore hspace
    have hend' : (runPaths (y.setting observer' code)
        (.begin fallbackName {} { havocs := y.havocs })
        (v.1, { v.2 with taints := ∅ })).progress.space = space' := eq_of_explore hspace'
    rw [hhavocs] at hend'
    rw [hend, hend', StateSpace.due, hincomplete] at hdue
    exact hdue

end

/-- A third pass of the loop has nodes of its own; code without loops is explored as before. -/
theorem Explorer.explore_complete_looping :
    wipingObserver.NeverFails ∧
      (∃ space space', (shallowExplorer.explore wipingObserver (.deployed ⟨0⟩ loopingCode)
          ((), {})).result = .ok space ∧
        (({ limits := ⟨60, 3, 3⟩ } : Explorer).explore wipingObserver (.deployed ⟨0⟩ loopingCode)
          ((), {})).result = .ok space' ∧
        space.complete = false ∧ space.nodes.size = 5 ∧ 5 < space'.nodes.size) ∧
      ∃ space, (wipingExplorer.explore wipingObserver (.creation createdCheckCode)
          ((), {})).result = .ok space ∧
        ({ wipingExplorer with limits := ⟨60, 10, 7⟩ }.explore wipingObserver
          (.creation createdCheckCode) ((), {})).result = .ok space ∧
        space.complete = true ∧ space.nodes.size = 4 := by
  have hnever : wipingObserver.NeverFails := fun _ _ _ => ⟨_, rfl⟩
  refine ⟨hnever, ?_, ?_⟩
  · obtain ⟨space, space', hspace, hspace', -, hmore⟩ := explore_complete
      (y := { limits := ⟨60, 3, 3⟩ }) (hnever.reliable shallowExplorer) (hnever.reliable _)
      (fun _ => Nat.succ_pos _) (fun _ => Nat.succ_pos _) (by decide) (by decide) rfl
      (.deployed ⟨0⟩ loopingCode) ((), {})
      ((), {}) trivial trivial
    have hcheck : (match (shallowExplorer.explore wipingObserver (.deployed ⟨0⟩ loopingCode)
        ((), {})).result with
      | .ok space => decide (space.complete = false ∧ space.nodes.size = 5)
      | .error _ => false) = true := by decide +kernel
    rw [hspace] at hcheck
    obtain ⟨hincomplete, hsize⟩ := of_decide_eq_true hcheck
    exact ⟨space, space', hspace, hspace', hincomplete, hsize,
      hsize ▸ hmore (by decide) (by decide) hincomplete _ _ rfl⟩
  · obtain ⟨space, space', hspace, hspace', hsame, -⟩ := explore_complete
      (y := { wipingExplorer with limits := ⟨60, 10, 7⟩ }) (hnever.reliable wipingExplorer)
      (hnever.reliable _) (fun _ => Nat.succ_pos _) (fun _ => Nat.succ_pos _) (by decide)
      (by decide) rfl (.creation createdCheckCode) ((), {}) ((), {}) trivial trivial
    have hcheck : (match (wipingExplorer.explore wipingObserver (.creation createdCheckCode)
        ((), {})).result with
      | .ok space => decide (space.complete = true ∧ space.nodes.size = 4)
      | .error _ => false) = true := by decide +kernel
    rw [hspace] at hcheck
    obtain ⟨hcomplete, hsize⟩ := of_decide_eq_true hcheck
    exact ⟨space, hspace, hsame hcomplete ▸ hspace', hcomplete, hsize⟩

end GuardFinder

import GuardFinder.Proofs.Emissions

/-!
# Stories of paths

An exploration goes on with one path now and with another one then, and its detectors are told of
all of them. The story of a path is what they were told of this path alone: a scene for each of its
steps, from the start of the transaction on. A path and its fork have the same story so far.

* `Scene`: a step of a path, as detectors were told of it. `Scene.heeded`: what they made use of.
* `Setting.turn?`: stories go on as the exploration does.
* `Analysis.Recounts`: the stories of all paths, at the moments of a run.
* `Analysis.Recounts.rule`: **what scenes keep, path by path, holds of all stories**.
-/

namespace GuardFinder

/-- Whether a detector makes use of a signal: not of an event of a function that it has reported. -/
def Registry.heeds (r : Registry) : Signal → Bool
  | .event _ e => r.detectors.any fun d => !d.reported.contains e.state.functionName
  | .inherit _ | .message _ => true

/-- What detectors were told of a step of a path. -/
structure Scene where
  /-- The detectors before they were told. -/
  registry : Registry
  signals : List Signal

/-- What they made use of. -/
def Scene.heeded (scene : Scene) : List Signal := scene.signals.filter scene.registry.heeds

/-- A moment of an exploration with the stories of its paths. -/
structure Chronicle where
  moment : Moment Registry
  /-- What was told of the paths, one after the other. -/
  stories : List (List Scene)

namespace Setting

variable {x : Setting Registry} {c c' : Chronicle}

/-- The stories of the paths after the next step. -/
def retold (x : Setting Registry) (c : Chronicle) : List (List Scene) :=
  match c.moment.tracks, c.stories with
  | (p, _) :: _, story :: others =>
    match x.program.at? p.pc with
    | some ins =>
      if fitsStack ins.opcode p.stack then
        let scene := ⟨c.moment.watch.1, c.moment.progress.signals x.program x.limits p ins⟩
        (stepAt x.program x.limits c.moment.space c.moment.supply p ins).paths.map
          (fun _ => story ++ [scene]) ++ others
      else others
    | none => others
  | _, _ => []

/-- The next moment with its stories, if the exploration goes on. -/
def turn? (x : Setting Registry) (c : Chronicle) : Option Chronicle :=
  (x.next? c.moment).map (⟨·, x.retold c⟩)

/-- A moment after a number of steps, with its stories. -/
def recount? (x : Setting Registry) : Nat → Chronicle → Option Chronicle
  | 0, c => some c
  | n + 1, c => (x.turn? c).bind (x.recount? n)

/-- The path that goes next, with its instruction and its story. -/
def lead? (x : Setting Registry) (c : Chronicle) : Option (Path × Instruction × List Scene) :=
  match c.moment.tracks, c.stories with
  | (p, _) :: _, story :: _ => (x.program.at? p.pc).map (p, ·, story)
  | _, _ => none

theorem turn?_eq_some (h : x.turn? c = some c') :
    x.next? c.moment = some c'.moment ∧ c'.stories = x.retold c := by
  obtain ⟨m, hm, rfl⟩ := Option.map_eq_some_iff.mp h
  exact ⟨hm, rfl⟩

theorem lead?_eq_some {p : Path} {ins : Instruction} {story : List Scene}
    (h : x.lead? c = some (p, ins, story)) :
    (∃ past rest, c.moment.tracks = (p, past) :: rest) ∧ x.program.at? p.pc = some ins ∧
      ∃ others, c.stories = story :: others := by
  unfold lead? at h
  split at h
  · next htracks hstories =>
    obtain ⟨ins', hins, heq⟩ := Option.map_eq_some_iff.mp h
    obtain ⟨rfl, rfl, rfl⟩ : _ = p ∧ ins' = ins ∧ _ = story := by simpa using heq
    exact ⟨⟨_, _, htracks⟩, hins, _, hstories⟩
  · cases h

/-- Stories go on with the path that takes a step, and with no other one. -/
theorem forall₂_retold {P Q : Path → List Scene → Prop} {m : Moment Registry}
    (hnext : x.next? c.moment = some m)
    (hwait : ∀ t ∈ c.moment.tracks.tail, ∀ story, P t.1 story → Q t.1 story)
    (hstep : ∀ p past rest ins watch, c.moment.tracks = (p, past) :: rest →
      fitsStack ins.opcode p.stack = true →
      x.playAll (c.moment.progress.signals x.program x.limits p ins) c.moment.watch =
        .ok () watch →
      m = c.moment.stepped x.program x.limits p past rest ins watch →
      ∀ q ∈ (stepAt x.program x.limits c.moment.space c.moment.supply p ins).paths,
      ∀ story, P p story → Q q (story ++
        [⟨c.moment.watch.1, c.moment.progress.signals x.program x.limits p ins⟩]))
    (h : List.Forall₂ (fun t story => P t.1 story) c.moment.tracks c.stories) :
    List.Forall₂ (fun t story => Q t.1 story) m.tracks (x.retold c) := by
  obtain ⟨hnext, -⟩ := next_of_next? hnext
  have hrest {t : Path × List Frame} {rest : List (Path × List Frame)} {others : List (List Scene)}
      (htracks : c.moment.tracks = t :: rest)
      (hothers : List.Forall₂ (fun t story => P t.1 story) rest others) :
      List.Forall₂ (fun t story => Q t.1 story) rest others := by
    rw [htracks, List.tail_cons] at hwait
    have hmem := (List.forall₂_and_left rest others).mpr ⟨fun t ht => ht, hothers⟩
    exact hmem.imp fun t story ⟨ht, hP⟩ => hwait t ht story hP
  cases hnext with
  | ended tracks past_end =>
    rw [tracks] at h
    obtain ⟨story, others, -, hothers, hstories⟩ := List.forall₂_cons_left_iff.mp h
    simp only [retold, tracks, hstories, past_end]
    exact hrest tracks hothers
  | unfit tracks at_ins unfit =>
    rw [tracks] at h
    obtain ⟨story, others, -, hothers, hstories⟩ := List.forall₂_cons_left_iff.mp h
    simp only [retold, tracks, hstories, at_ins, if_neg unfit]
    exact hrest tracks hothers
  | step tracks at_ins fits play =>
    have htracks := tracks
    rw [tracks] at h
    obtain ⟨story, others, hp, hothers, hstories⟩ := List.forall₂_cons_left_iff.mp h
    simp only [retold, tracks, hstories, at_ins, if_pos fits]
    refine List.rel_append ?_ (hrest tracks hothers)
    rw [List.forall₂_map_left_iff, List.forall₂_map_right_iff, List.forall₂_same]
    exact fun q hq => hstep _ _ _ _ _ htracks fits play rfl q hq story hp

end Setting

/-! ### Runs of an analysis -/

namespace Analysis

variable {a : Analysis} {target : Target} {code : Bytes} {c : Chronicle} {m : Moment Registry}

/-- The stories of all paths at the moments of a run, from the start of a transaction on. -/
inductive Recounts (a : Analysis) (target : Target) (code : Bytes) : Chronicle → Prop
  | start {entry : String} {space : StateSpace} {supply : Supply} {watch : Registry × Ledger}
      (visits : a.Visits target code (.start entry space supply watch)) :
      Recounts a target code ⟨.start entry space supply watch, [[]]⟩
  | turn {c c' : Chronicle} (before : Recounts a target code c)
      (turn : (a.setting code).turn? c = some c') : Recounts a target code c'

theorem Recounts.visits (h : a.Recounts target code c) : a.Visits target code c.moment := by
  induction h with
  | start visits => exact visits
  | turn _ turn ih => exact Explorer.Visits.next ih (Setting.turn?_eq_some turn).1

theorem Recounts.of_recount? (h : a.Recounts target code c) {n : Nat} {c' : Chronicle}
    (hn : (a.setting code).recount? n c = some c') : a.Recounts target code c' := by
  induction n generalizing c with
  | zero =>
    obtain rfl := Option.some.inj hn
    exact h
  | succ n ih =>
    obtain ⟨next, hnext, hlater⟩ := Option.bind_eq_some_iff.mp hn
    exact ih (.turn h hnext) hlater

/-- The paths of every moment have their stories. -/
theorem exists_recounts (h : a.Visits target code m) :
    ∃ stories, a.Recounts target code ⟨m, stories⟩ := by
  refine Explorer.Visits.transaction_rule
    (I := fun m => ∃ stories, a.Recounts target code ⟨m, stories⟩) (fun _ _ _ _ hvisits => ?_)
    (fun m m' _ hnext hm => ?_) h
  · exact ⟨_, .start hvisits⟩
  · obtain ⟨stories, hm⟩ := hm
    refine ⟨(a.setting code).retold ⟨m, stories⟩, hm.turn ?_⟩
    rw [Setting.turn?, hnext]
    rfl

/-- **What scenes keep, path by path, holds of all stories.** -/
theorem Recounts.rule {I : Moment Registry → Path → List Scene → Prop}
    (hstart : ∀ entry space supply watch, I (.start entry space supply watch)
      (.start entry space.nodes.size) [])
    (hwait : ∀ m m', a.Visits target code m → (a.setting code).next? m = some m' →
      ∀ t ∈ m.tracks.tail, ∀ story, I m t.1 story → I m' t.1 story)
    (hstep : ∀ m p past rest ins watch, a.Visits target code m → m.tracks = (p, past) :: rest →
      fitsStack ins.opcode p.stack = true →
      (a.setting code).playAll (m.progress.signals (a.setting code).program (a.setting code).limits
        p ins) m.watch = .ok () watch →
      ∀ q ∈ (stepAt (a.setting code).program (a.setting code).limits m.space m.supply p ins).paths,
      ∀ story, I m p story →
        I (m.stepped (a.setting code).program (a.setting code).limits p past rest ins watch) q
          (story ++ [⟨m.watch.1, m.progress.signals (a.setting code).program
            (a.setting code).limits p ins⟩]))
    (h : a.Recounts target code c) :
    List.Forall₂ (fun t story => I c.moment t.1 story) c.moment.tracks c.stories := by
  induction h with
  | start visits => exact .cons (hstart _ _ _ _) .nil
  | turn before turn ih =>
    obtain ⟨hnext, hstories⟩ := Setting.turn?_eq_some turn
    rw [hstories]
    refine Setting.forall₂_retold hnext (hwait _ _ before.visits hnext) ?_ ih
    rintro p past rest ins watch htracks hfits hplay heq q hq story hp
    rw [heq]
    exact hstep _ _ _ _ _ _ before.visits htracks hfits hplay q hq story hp

/-! ### Moments that are computed -/

/-- The moment after a number of steps of deployed code, with its stories. -/
def recount? (a : Analysis) (code : Bytes) (n : Nat) : Option Chronicle :=
  (a.setting code).recount? n ⟨a.prepare.explorer.start (a.prepare.registry,
    { log := .starting a.prepare.registry.detectors.length :: a.prepare.log }) fallbackName, [[]]⟩

/-- Whether a detector emits a finding after a number of steps of deployed code, for the first time,
where the story of the path and the event before its branch are such. -/
def emitsAt (a : Analysis) (code : Bytes) (n i : Nat) (f : Finding)
    (P : List Scene → Signal → Bool) : Bool :=
  (a.recount? code n).any fun c =>
    f ∉ (c.moment.watch.1.findings[i]?).getD [] &&
    ((a.setting code).next? c.moment).any (fun m => f ∈ (m.watch.1.findings[i]?).getD []) &&
    ((a.setting code).lead? c).any fun lead =>
      P lead.2.2 (.event lead.2.1.opcode ⟨.pre, lead.1.view lead.2.1, lead.1.lastFrame⟩)

theorem exists_of_emitsAt {n i : Nat} {f : Finding} {P : List Scene → Signal → Bool}
    (h : a.emitsAt code n i f P = true) (address : Address) :
    ∃ m p past ins story others,
      a.Recounts (.deployed address code) code ⟨m, story :: others⟩ ∧
      m.Emits (a.setting code) p past ins i f ∧
      P story (.event ins.opcode ⟨.pre, p.view ins, p.lastFrame⟩) = true := by
  simp only [emitsAt, Option.any_eq_true, Bool.and_eq_true, decide_eq_true_eq] at h
  obtain ⟨⟨m, stories⟩, hc, ⟨hold, m', hnext, hnew⟩, ⟨p, ins, story⟩, hlead, hP⟩ := h
  have hrecounts : a.Recounts (.deployed address code) code ⟨m, stories⟩ :=
    Recounts.of_recount? (.start (.deployed .refl)) hc
  have hplace {m : Moment Registry} :
      f ∈ (m.watch.1.findings[i]?).getD [] ↔
        ∃ d, m.watch.1.detectors[i]? = some d ∧ f ∈ d.findings := by
    rw [Registry.findings, List.getElem?_map]
    cases m.watch.1.detectors[i]? <;> simp
  rw [hplace] at hold hnew
  obtain ⟨d, hd, hf⟩ := hnew
  obtain ⟨p', past, ins', hemits⟩ :=
    ((Visits.sound hrecounts.visits).emits_of_next? hnext hd hf).resolve_left hold
  obtain ⟨⟨past', rest, htracks⟩, hins, others, hstories⟩ := Setting.lead?_eq_some hlead
  obtain ⟨rest', htracks'⟩ := hemits.first
  obtain ⟨⟨rfl, rfl⟩, rfl⟩ : (p' = p ∧ past = past') ∧ rest' = rest := by
    simpa using htracks'.symm.trans htracks
  obtain rfl : ins' = ins := Option.some.inj (hemits.at_ins.symm.trans hins)
  obtain rfl : stories = story :: others := hstories
  exact ⟨m, p', past, ins', story, others, hrecounts, hemits, hP⟩

end Analysis

end GuardFinder

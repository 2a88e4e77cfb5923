import GuardFinder.Proofs.Lockstep

/-!
# Moments of an exploration

Between two steps an exploration stands still for a moment. A moment tells where the exploration
stands and what the observer has made of it, and for each path that is left all that the path has
executed since the transaction started. A path and its fork have the same past.

* `Setting.next?`: the next moment.
* `Setting.Visits`: the moments that a run comes through. `Setting.runPaths_of_visits`,
  `Setting.exists_last`: it comes through them, and ends at one of them.
  `Setting.progress_ne_of_visits`: it never comes back to where it stood.
* `Explorer.Visits`: the moments of an exploration, those of the code that creation code returned
  included. `Explorer.Visits.rule`: **what all steps keep holds at all moments**.
* `Explorer.Visits.transaction_rule`: it is enough to look at one transaction.
-/

namespace GuardFinder

/-- Where an exploration stands between two steps. -/
structure Moment (σ : Type) where
  /-- The paths to go on with, each with what it has executed so far. -/
  tracks : List (Path × List Frame)
  space : StateSpace
  supply : Supply
  returned : Option Bytes := none
  watch : σ × Ledger

namespace Moment

variable {σ : Type}

/-- The moment without the pasts of the paths and without the observer. -/
def progress (m : Moment σ) : Progress where
  paths := m.tracks.map Prod.fst
  space := m.space
  supply := m.supply
  returned := m.returned

/-- The start of a transaction. -/
def start (entry : String) (space : StateSpace) (supply : Supply) (watch : σ × Ledger) :
    Moment σ where
  tracks := [(Path.start entry space.nodes.size, [])]
  space := space.addNode entry 0 []
  supply
  watch

theorem tidy_start (entry : String) (space : StateSpace) (supply : Supply) (watch : σ × Ledger) :
    (start entry space supply watch).progress.Tidy := by
  intro p hp
  rw [List.mem_singleton.mp hp]
  exact Path.tidy_start ..

/-- A transaction starts without values. -/
theorem not_has_start {entry : String} {space : StateSpace} {supply : Supply} {watch : σ × Ledger}
    {t : Path × List Frame} (ht : t ∈ (start entry space supply watch).tracks) (v : Value) :
    ¬t.1.Has v := by
  intro hv
  rw [List.mem_singleton.mp ht] at hv
  exact Nat.not_lt_zero _ ((Path.tidy_start entry space.nodes.size { nextTag := 0 }).tag_lt hv)

/-- The moment after the step of a path, with the other paths. -/
def stepped (m : Moment σ) (program : Program) (limits : Limits) (p : Path) (past : List Frame)
    (rest : List (Path × List Frame)) (ins : Instruction) (watch : σ × Ledger) : Moment σ where
  tracks := (stepAt program limits m.space m.supply p ins).paths.map
    (·, past ++ [⟨ins, p.stack⟩]) ++ rest
  space := (stepAt program limits m.space m.supply p ins).space
  supply := (stepAt program limits m.space m.supply p ins).supply
  returned := m.returned.or (stepAt program limits m.space m.supply p ins).returned
  watch

/-- The moment after a path has ended. -/
def dropped (m : Moment σ) (rest : List (Path × List Frame)) (ledger : Ledger) : Moment σ :=
  { m with tracks := rest, watch := (m.watch.1, ledger) }

theorem progress_stepped (m : Moment σ) (program : Program) (limits : Limits) (p : Path)
    (past : List Frame) (rest : List (Path × List Frame)) (ins : Instruction)
    (watch : σ × Ledger) :
    (m.stepped program limits p past rest ins watch).progress =
      m.progress.stepped program limits p (rest.map Prod.fst) ins := by
  simp only [progress, stepped, Progress.stepped, List.map_append, List.map_map,
    Function.comp_def, List.map_id']

end Moment

/-! ### One run -/

namespace Setting

variable {σ : Type} {x : Setting σ} {m m' : Moment σ}

/-- The next moment, if the exploration goes on. -/
def next? (x : Setting σ) (m : Moment σ) : Option (Moment σ) :=
  match m.tracks with
  | [] => none
  | (p, past) :: rest =>
    if x.late m.progress then none
    else
      match x.program.at? p.pc with
      | none => some (m.dropped rest m.watch.2)
      | some ins =>
        if fitsStack ins.opcode p.stack then
          match x.playAll (m.progress.signals x.program x.limits p ins) m.watch with
          | .ok _ watch => some (m.stepped x.program x.limits p past rest ins watch)
          | .error _ _ => none
        else some (m.dropped rest (m.watch.2.say (.stackBounds ins)))

/-- How an exploration comes from one moment to the next. -/
inductive Next (x : Setting σ) (m : Moment σ) : Moment σ → Prop
  | ended {p : Path} {past : List Frame} {rest : List (Path × List Frame)}
      (tracks : m.tracks = (p, past) :: rest) (past_end : x.program.at? p.pc = none) :
      Next x m (m.dropped rest m.watch.2)
  | unfit {p : Path} {past : List Frame} {rest : List (Path × List Frame)} {ins : Instruction}
      (tracks : m.tracks = (p, past) :: rest) (at_ins : x.program.at? p.pc = some ins)
      (unfit : ¬fitsStack ins.opcode p.stack = true) :
      Next x m (m.dropped rest (m.watch.2.say (.stackBounds ins)))
  | step {p : Path} {past : List Frame} {rest : List (Path × List Frame)} {ins : Instruction}
      {watch : σ × Ledger} (tracks : m.tracks = (p, past) :: rest)
      (at_ins : x.program.at? p.pc = some ins) (fits : fitsStack ins.opcode p.stack = true)
      (play : x.playAll (m.progress.signals x.program x.limits p ins) m.watch = .ok () watch) :
      Next x m (m.stepped x.program x.limits p past rest ins watch)

theorem next_of_next? (h : x.next? m = some m') : x.Next m m' ∧ ¬x.late m.progress = true := by
  unfold next? at h
  split at h
  · cases h
  · next p past rest htracks =>
    split at h
    · cases h
    · next hlate =>
      refine ⟨?_, hlate⟩
      split at h
      · next hpast =>
        obtain rfl := Option.some.inj h
        exact .ended htracks hpast
      · next ins hins =>
        split at h
        · next hfits =>
          split at h
          · next watch hplay =>
            obtain rfl := Option.some.inj h
            exact .step htracks hins hfits hplay
          · cases h
        · next hunfit =>
          obtain rfl := Option.some.inj h
          exact .unfit htracks hins hunfit

theorem Next.advance (h : x.Next m m') :
    Progress.Advance x.program x.limits m.progress m'.progress := by
  cases h with
  | ended tracks past_end =>
    simp only [Moment.progress, Moment.dropped, tracks, List.map_cons]
    exact .ended past_end
  | unfit tracks at_ins unfit =>
    simp only [Moment.progress, Moment.dropped, tracks, List.map_cons]
    exact .unfit at_ins (Bool.eq_false_iff.mpr unfit)
  | step tracks at_ins fits play =>
    rw [Moment.progress_stepped]
    exact Progress.advance_stepped (congrArg (List.map Prod.fst) tracks) at_ins fits

/-- A run that has come to a moment goes on from the next one. -/
theorem runPaths_of_next? (h : x.next? m = some m') :
    runPaths x m.progress m.watch = runPaths x m'.progress m'.watch := by
  obtain ⟨hnext, hlate⟩ := next_of_next? h
  cases hnext with
  | ended tracks past_end =>
    have hpaths := congrArg (List.map Prod.fst) tracks
    rw [runPaths_of_ended (g := m.progress) hpaths hlate past_end]
    rfl
  | unfit tracks at_ins unfit =>
    have hpaths := congrArg (List.map Prod.fst) tracks
    rw [runPaths_of_unfit (g := m.progress) hpaths hlate at_ins unfit]
    rfl
  | step tracks at_ins fits play =>
    have hpaths := congrArg (List.map Prod.fst) tracks
    rw [runPaths_of_step (g := m.progress) hpaths hlate at_ins fits play,
      Moment.progress_stepped]
    rfl

/-- The moments that a run comes through from a moment on. -/
def Visits (x : Setting σ) : Moment σ → Moment σ → Prop :=
  Relation.ReflTransGen fun m m' => x.next? m = some m'

/-- What the steps of a run keep holds at all its moments. -/
theorem Visits.rule {I : Moment σ → Prop} (h : x.Visits m m') (hfirst : I m)
    (hnext : ∀ m₁ m₂, x.Visits m m₁ → x.next? m₁ = some m₂ → I m₁ → I m₂) : I m' := by
  induction h with
  | refl => exact hfirst
  | tail hbefore hstep ih => exact hnext _ _ hbefore hstep ih

/-- From moment to moment a run only advances. -/
theorem reaches_of_visits (h : x.Visits m m') :
    Progress.Reaches x.program x.limits m.progress m'.progress :=
  h.rule (I := fun m' => Progress.Reaches x.program x.limits m.progress m'.progress) .refl
    fun _ _ _ hnext hm => hm.tail (next_of_next? hnext).1.advance

/-- The moment after a number of steps. -/
def after? (x : Setting σ) : Nat → Moment σ → Option (Moment σ)
  | 0, m => some m
  | n + 1, m => (x.next? m).bind (x.after? n)

theorem visits_of_after? {n : Nat} (h : x.after? n m = some m') : x.Visits m m' := by
  induction n generalizing m with
  | zero =>
    obtain rfl := Option.some.inj h
    exact .refl
  | succ n ih =>
    obtain ⟨next, hnext, hlater⟩ := Option.bind_eq_some_iff.mp h
    exact .head hnext (ih hlater)

/-- Whether a run ends within a number of steps and all its moments pass a test. -/
def passes (x : Setting σ) (test : Moment σ → Bool) : Nat → Moment σ → Bool
  | 0, _ => false
  | n + 1, m => test m && (x.next? m).all (x.passes test n)

theorem of_passes {test : Moment σ → Bool} {n : Nat} (h : x.passes test n m = true)
    (hvisits : x.Visits m m') : test m' = true := by
  induction n generalizing m with
  | zero => cases h
  | succ n ih =>
    rw [passes, Bool.and_eq_true] at h
    rcases hvisits.cases_head with rfl | ⟨next, hnext, hlater⟩
    · exact h.1
    · rw [hnext] at h
      exact ih h.2 hlater

/-- **A run comes through its moments.** -/
theorem runPaths_of_visits (h : x.Visits m m') :
    runPaths x m.progress m.watch = runPaths x m'.progress m'.watch := by
  induction h with
  | refl => rfl
  | tail _ hnext ih => rw [ih, runPaths_of_next? hnext]

theorem weightSum_next?_lt (h : x.next? m = some m') :
    weightSum x.program x.limits m'.progress.paths <
      weightSum x.program x.limits m.progress.paths := by
  obtain ⟨hnext, -⟩ := next_of_next? h
  cases hnext with
  | @ended p past rest tracks _ | @unfit p past rest ins tracks _ _ =>
    simp only [Moment.progress, Moment.dropped, tracks, List.map_cons]
    exact weightSum_pending_lt ..
  | @step p past rest ins watch tracks at_ins _ _ =>
    have hlt := weightSum_stepAt_lt x.program x.limits m.space m.supply p ins at_ins
    rw [Moment.progress_stepped]
    simp only [Progress.stepped, Moment.progress, tracks, List.map_cons, weightSum_append,
      weightSum]
    omega

/-- **A run never stands at one point twice**, so that its clock may show anything before each
step. -/
theorem progress_ne_of_visits {m₁ : Moment σ} (hnext : x.next? m = some m₁)
    (h : x.Visits m₁ m') : m'.progress ≠ m.progress := by
  have hle : weightSum x.program x.limits m'.progress.paths ≤
      weightSum x.program x.limits m₁.progress.paths :=
    h.rule (I := fun m' => weightSum x.program x.limits m'.progress.paths ≤
      weightSum x.program x.limits m₁.progress.paths) (Nat.le_refl _)
      fun _ _ _ hstep ih => Nat.le_trans (Nat.le_of_lt (weightSum_next?_lt hstep)) ih
  intro heq
  have hlt := weightSum_next?_lt hnext
  rw [heq] at hle
  omega

/-- A run comes to a last moment in no more steps than its paths weigh. -/
theorem exists_after?_last (x : Setting σ) (m : Moment σ) :
    ∃ n ≤ weightSum x.program x.limits m.progress.paths, ∃ m', x.after? n m = some m' ∧
      x.next? m' = none := by
  induction hweight : weightSum x.program x.limits m.progress.paths using Nat.strongRecOn
    generalizing m with
  | ind weight ih =>
    cases hnext : x.next? m with
    | none => exact ⟨0, Nat.zero_le _, m, rfl, hnext⟩
    | some next =>
      have hlt := hweight ▸ weightSum_next?_lt hnext
      obtain ⟨n, hn, last, hlast, hnone⟩ := ih _ hlt next rfl
      exact ⟨n + 1, Nat.lt_of_le_of_lt hn hlt, last, by rw [after?, hnext]; exact hlast, hnone⟩

theorem exists_last (x : Setting σ) (m : Moment σ) : ∃ m', x.Visits m m' ∧ x.next? m' = none := by
  obtain ⟨n, -, last, hlast, hnone⟩ := x.exists_after?_last m
  exact ⟨last, visits_of_after? hlast, hnone⟩

/-- A run that does not fail goes on until no path is left, or the time is over. -/
theorem tracks_eq_nil_or (hnone : x.next? m = none)
    (h : (runPaths x m.progress m.watch).failure = none) :
    m.tracks = [] ∨ x.late m.progress = true := by
  unfold next? at hnone
  split at hnone
  · next htracks => exact .inl htracks
  · next p past rest htracks =>
    have hpaths := congrArg (List.map Prod.fst) htracks
    split at hnone
    · next hlate => exact .inr hlate
    · next hlate =>
      split at hnone
      · cases hnone
      · next ins hins =>
        split at hnone
        · next hfits =>
          split at hnone
          · cases hnone
          · next failure watch hplay =>
            rw [failure_runPaths (g := m.progress) hpaths hlate hins hfits hplay] at h
            cases h
        · cases hnone

/-- **A run that does not fail ends at its last moment**, but for a message when the time is
over. -/
theorem exists_end (h : (runPaths x m.progress m.watch).failure = none) :
    ∃ last, x.Visits m last ∧ x.next? last = none ∧
      (runPaths x m.progress m.watch).progress.supply = last.supply ∧
      withoutLog (runPaths x m.progress m.watch).watch = withoutLog last.watch := by
  obtain ⟨last, hlast, hnone⟩ := exists_last x m
  refine ⟨last, hlast, hnone, ?_⟩
  rw [runPaths_of_visits hlast] at h ⊢
  rcases htracks : last.tracks with _ | ⟨⟨p, past⟩, rest⟩
  · rw [runPaths_of_nil (congrArg (List.map Prod.fst) htracks)]
    exact ⟨rfl, rfl⟩
  · have hlate : x.late last.progress = true := by
      rcases tracks_eq_nil_or hnone h with hnil | hlate
      · cases htracks.symm.trans hnil
      · exact hlate
    rw [runPaths_of_late (g := last.progress) (congrArg (List.map Prod.fst) htracks) hlate]
    exact ⟨rfl, rfl⟩

end Setting

/-! ### Explorations -/

namespace Explorer

variable {σ : Type} {x : Explorer} {observer : Observer σ} {watch : σ × Ledger} {target : Target}
  {code : Bytes} {m : Moment σ}

/-- The first moment of an exploration: taints start afresh. -/
def start (x : Explorer) (watch : σ × Ledger) (entry : String) : Moment σ :=
  .start entry {} { havocs := x.havocs } (watch.1, { watch.2 with taints := ∅ })

/-- The moments of an exploration, with the code that runs. -/
inductive Visits (x : Explorer) (observer : Observer σ) (watch : σ × Ledger) :
    Target → Bytes → Moment σ → Prop
  | deployed {address : Address} {code : Bytes} {m : Moment σ}
      (visits : (x.setting observer code).Visits (x.start watch fallbackName) m) :
      Visits x observer watch (.deployed address code) code m
  | creating {code : Bytes} {m : Moment σ}
      (visits : (x.setting observer code).Visits (x.start watch constructorName) m) :
      Visits x observer watch (.creation code) code m
  | created {code : Bytes} {byte : UInt8} {bytes : Bytes} {e : RunEnd σ} {m : Moment σ}
      (run : transaction (x.setting observer code) constructorName {} { havocs := x.havocs }
        (watch.1, { watch.2 with taints := ∅ }) = e)
      (failure : e.failure = none) (returned : e.progress.returned = some (byte :: bytes))
      (visits : (x.setting observer (byte :: bytes)).Visits
        (.start fallbackName e.progress.space e.progress.supply e.watch) m) :
      Visits x observer watch (.creation code) (byte :: bytes) m

/-- A transaction that does not fail ends at a moment. -/
theorem exists_end_transaction {y : Setting σ} {entry : String} {space : StateSpace}
    {supply : Supply} (h : (transaction y entry space supply watch).failure = none) :
    ∃ last, y.Visits (.start entry space supply watch) last ∧
      (transaction y entry space supply watch).progress.supply = last.supply ∧
      withoutLog (transaction y entry space supply watch).watch = withoutLog last.watch := by
  obtain ⟨last, hvisits, -, hend⟩ :=
    Setting.exists_end (x := y) (m := .start entry space supply watch) h
  exact ⟨last, hvisits, hend⟩

/-- **What all steps keep holds at all moments of an exploration.** A second transaction starts with
the supply and the observer that the first one has left. -/
theorem Visits.rule {I : Moment σ → Prop} (hstart : ∀ entry, I (x.start watch entry))
    (hnext : ∀ code m m', x.Visits observer watch target code m →
      (x.setting observer code).next? m = some m' → I m → I m')
    (hagain : ∀ m entry space w, withoutLog w = withoutLog m.watch → I m →
      I (.start entry space m.supply w))
    (h : x.Visits observer watch target code m) : I m := by
  have hrun {code : Bytes} {first m : Moment σ}
      (hvisits : ∀ m, (x.setting observer code).Visits first m →
        x.Visits observer watch target code m)
      (h : (x.setting observer code).Visits first m) (hfirst : I first) : I m :=
    h.rule hfirst fun m m' hm => hnext code m m' (hvisits m hm)
  cases h with
  | deployed visits => exact hrun (fun _ => .deployed) visits (hstart _)
  | creating visits => exact hrun (fun _ => .creating) visits (hstart _)
  | created run failure returned visits =>
    have hvisits := fun m => Visits.created (m := m) run failure returned
    subst run
    obtain ⟨last, hlast, hsupply, hwatch⟩ := exists_end_transaction failure
    rw [hsupply] at visits hvisits
    exact hrun hvisits visits
      (hagain last _ _ _ hwatch (hrun (fun _ => .creating) hlast (hstart _)))

/-- An exploration comes to the next moment. -/
theorem Visits.next {m' : Moment σ} (h : x.Visits observer watch target code m)
    (hnext : (x.setting observer code).next? m = some m') :
    x.Visits observer watch target code m' := by
  cases h with
  | deployed visits => exact .deployed (visits.tail hnext)
  | creating visits => exact .creating (visits.tail hnext)
  | created run failure returned visits => exact .created run failure returned (visits.tail hnext)

/-- **Every moment comes some time after the start of its transaction.** -/
theorem Visits.transaction_rule {I : Moment σ → Prop}
    (hstart : ∀ entry space supply w, x.Visits observer watch target code
      (.start entry space supply w) → I (.start entry space supply w))
    (hnext : ∀ m m', x.Visits observer watch target code m →
      (x.setting observer code).next? m = some m' → I m → I m')
    (h : x.Visits observer watch target code m) : I m := by
  have hrun {first m : Moment σ}
      (hvisits : ∀ m, (x.setting observer code).Visits first m →
        x.Visits observer watch target code m)
      (h : (x.setting observer code).Visits first m) (hfirst : I first) : I m :=
    h.rule hfirst fun m m' hm => hnext m m' (hvisits m hm)
  cases h with
  | deployed visits => exact hrun (fun _ => .deployed) visits (hstart _ _ _ _ (.deployed .refl))
  | creating visits => exact hrun (fun _ => .creating) visits (hstart _ _ _ _ (.creating .refl))
  | created run failure returned visits =>
    exact hrun (fun _ => .created run failure returned) visits
      (hstart _ _ _ _ (.created run failure returned .refl))

/-- An exploration that does not fail ends at a moment. -/
theorem exists_visits_end {space : StateSpace}
    (h : (x.explore observer target watch).result = .ok space) :
    ∃ code m, x.Visits observer watch target code m ∧
      withoutLog (x.explore observer target watch).watch = withoutLog m.watch := by
  have hfinish {e : RunEnd σ} (h : (x.finish e).result = .ok space) : e.failure = none := by
    simp only [finish] at h
    split at h
    · cases h
    · assumption
  cases target with
  | deployed address code =>
    obtain ⟨last, hlast, -, hwatch⟩ := exists_end_transaction (hfinish h)
    exact ⟨code, last, .deployed hlast, hwatch⟩
  | creation code =>
    simp only [explore] at h ⊢
    split at h
    · next hfailure => simp [finish, hfailure] at h
    · next hfailure =>
      obtain ⟨last, hlast, hsupply, hwatch⟩ := exists_end_transaction hfailure
      simp only [hfailure]
      split at h
      · next byte bytes hreturned =>
        obtain ⟨last, hlast, -, hwatch⟩ := exists_end_transaction (hfinish h)
        exact ⟨_, last, .created rfl hfailure hreturned hlast, hwatch⟩
      · exact ⟨code, last, .creating hlast, hwatch⟩

end Explorer

end GuardFinder

import GuardFinder.Proofs.Moments
import GuardFinder.Proofs.Signals

/-!
# Taints follow words

Words are built in one place and taints are passed on in another. They go together: where a subscriber
puts a taint on whatever an opcode reads from the environment, and none takes it away, every word
that is made of such a value carries the taint, through operations, memory, hashes, storage and
forks.

* `Term.Mentions`: a word that is made of what an opcode reads.
* `Effect.Passes`: a word that an instruction makes has its parts among the sources of its taints.
* `Explorer.taint_of_mentions`: **words that are made of a tainted value are tainted**.
-/

namespace GuardFinder

/-! ### Words that are made of a value -/

/-- A term that has the value of an opcode in it, under operations on words, hashes and bytes in a
row only. -/
inductive Term.Mentions (op : Opcode) : Term → Prop
  | env : Mentions op (.env op)
  | unary {o : Opcode} {a : Term} (follows : o = .isZero ∨ o = .not) (inner : Mentions op a) :
      Mentions op (.unary o a)
  | left {o : Opcode} {a b : Term} (inner : Mentions op a) : Mentions op (.binary o a b)
  | right {o : Opcode} {a b : Term} (inner : Mentions op b) : Mentions op (.binary o a b)
  | keccak {words : List Term} {t : Term} (mem : t ∈ words) (inner : Mentions op t) :
      Mentions op (.keccak words)
  | concat {bytes : List Term} {t : Term} (mem : t ∈ bytes) (inner : Mentions op t) :
      Mentions op (.concat bytes)

section

variable {op : Opcode}

theorem Term.mentions_applyUnary {o : Opcode} {a : Term} (h : (applyUnary o a).Mentions op) :
    a.Mentions op := by
  unfold applyUnary at h
  split at h
  · cases h
  · cases h with
    | unary _ inner => exact inner

theorem Term.mentions_applyBinary {o : Opcode} {a b : Term} (h : (applyBinary o a b).Mentions op) :
    a.Mentions op ∨ b.Mentions op := by
  have hbinary (h : (Term.binary o a b).Mentions op) : a.Mentions op ∨ b.Mentions op := by
    cases h with
    | left inner => exact .inl inner
    | right inner => exact .inr inner
  unfold applyBinary at h
  split at h
  · split at h
    · cases h
    · exact hbinary h
  · exact hbinary h

theorem Cell.mentions_term {cell : Option Cell} (h : (term cell).Mentions op) :
    ∃ v i, cell = some (.part v i) ∧ v.word.Mentions op := by
  rcases cell with _ | b | ⟨v, i⟩
  · cases h
  · cases h
  · refine ⟨v, i, rfl, ?_⟩
    rw [term] at h
    rcases Term.mentions_applyBinary h with h | h
    · cases h
    · exact h

namespace Memory

variable {m : Memory} {offset length : Nat}

theorem mentions_wordOf {cells : List (Option Cell)} (h : (wordOf cells).Mentions op) :
    ∃ v i, some (.part v i) ∈ cells ∧ v.word.Mentions op := by
  unfold wordOf at h
  split at h
  · cases h
  · cases h with
    | concat mem inner =>
      obtain ⟨cell, hcell, rfl⟩ := List.mem_map.mp mem
      obtain ⟨v, i, rfl, hv⟩ := Cell.mentions_term inner
      exact ⟨v, i, hcell, hv⟩

/-- A part of a value in a range has the tag of the value among those of the range. -/
theorem holds_of_mem_row {v : Value} {i : Fin 32} (h : some (.part v i) ∈ m.row offset length) :
    m.Holds v ∧ v.tag ∈ tagsOf (m.row offset length) := by
  refine ⟨?_, List.mem_filterMap.mpr ⟨_, h, rfl⟩⟩
  obtain ⟨k, -, hk⟩ := List.mem_map.mp h
  exact ⟨offset + k, i, hk⟩

/-- The rows of the words of a range lie in the range. -/
theorem row_subset {k : Nat} :
    m.row (offset + 32 * k) (min 32 (length - 32 * k)) ⊆ m.row offset length := by
  intro cell hcell
  obtain ⟨i, hi, rfl⟩ := List.mem_map.mp hcell
  rw [List.mem_range] at hi
  exact List.mem_map.mpr ⟨32 * k + i, List.mem_range.mpr (by omega), by rw [Nat.add_assoc]⟩

theorem mentions_hashOf (h : (hashOf m offset length).1.Mentions op) :
    ∃ v, m.Holds v ∧ v.word.Mentions op ∧ v.tag ∈ (hashOf m offset length).2 := by
  unfold hashOf at h ⊢
  split at h
  · cases h
  · next hnone =>
    simp only at h ⊢
    cases h with
    | keccak mem inner =>
      rw [words_eq] at mem
      obtain ⟨k, -, rfl⟩ := List.mem_map.mp mem
      obtain ⟨v, i, hmem, hv⟩ := mentions_wordOf inner
      obtain ⟨hholds, htag⟩ := holds_of_mem_row (row_subset hmem)
      exact ⟨v, hholds, hv, by rwa [tags_eq]⟩

end Memory

/-! ### Words that an instruction makes -/

/-- What an instruction does passes on the taints of values that `op` reads: a word that is made of
such a value is an old one, or what the instruction itself has read, or inherits from an old one. -/
def Effect.Passes (e : Effect) (op : Opcode) (ins : Instruction) (p : Path) : Prop :=
  ∀ v, e.path.Has v → v.word.Mentions op → p.Has v ∨
    (ins.opcode = op ∧ e.flow = .next ∧ e.path.stack.head? = some v) ∨
    ∃ sources, e.inheritances = [⟨v.tag, sources⟩] ∧
      ∃ u, p.Has u ∧ u.word.Mentions op ∧ u.tag ∈ sources

namespace Path

variable {p q : Path} {s : Supply} {ins : Instruction}

/-- Without new tags there are only old values. -/
theorem Adds.passes {e : Effect} (h : p.Adds s e.path e.supply)
    (hsupply : e.supply.nextTag = s.nextTag) : e.Passes op ins p := by
  obtain ⟨-, word, hadds⟩ := h
  intro v hv _
  rcases hadds v hv with hv | ⟨hge, hlt, -⟩
  · exact .inl hv
  · omega

theorem passes_pushNew (hq : ∀ v, q.Has v → p.Has v) {word : Term} {sources : List Nat}
    (hword : word.Mentions op → ∃ u, p.Has u ∧ u.word.Mentions op ∧ u.tag ∈ sources) :
    (q.pushNew s word sources).Passes op ins p := by
  rintro v (hstack | hother) hv
  · rcases List.mem_cons.mp hstack with rfl | hstack
    · obtain ⟨u, hu, hmentions, htag⟩ := hword hv
      refine .inr (.inr ⟨sources, ?_, u, hu, hmentions, htag⟩)
      have hsources : ¬sources.isEmpty = true := by
        simpa using List.ne_nil_of_mem htag
      simp only [pushNew, Supply.value, if_neg hsources]
    · exact .inl (hq v (.inl hstack))
  · exact .inl (hq v (.inr hother))

theorem passes_pushHavoc (hq : ∀ v, q.Has v → p.Has v) (origin : Opcode) (sources : List Nat) :
    (q.pushHavoc s origin sources).Passes op ins p :=
  passes_pushNew hq (s := { s with havocs := s.havocs + 1 }) nofun

theorem passes_load {rest : List Value} (h : rest <:+ p.stack) (offset : Nat) :
    Effect.Passes
      { path := { p with
          stack := (p.memory.load s offset).value :: rest
          memory := (p.memory.load s offset).memory }
        supply := (p.memory.load s offset).supply
        inheritances := (p.memory.load s offset).inheritances } op ins p := by
  have hadds := adds_load (s := s) h offset
  rw [Memory.load_eq] at hadds ⊢
  split at hadds
  · exact Adds.passes hadds rfl
  · simp only [Supply.value]
    rintro v (hv | hv | hv) hmentions
    · rcases List.mem_cons.mp hv with rfl | hv
      · obtain ⟨u, i, hmem, hu⟩ := Memory.mentions_wordOf hmentions
        obtain ⟨hholds, htag⟩ := Memory.holds_of_mem_row hmem
        exact .inr (.inr ⟨_, rfl, u, .inr (.inl hholds), hu, htag⟩)
      · exact .inl (.inl (h.mem hv))
    · exact .inl (.inr (.inl (Memory.holds_touch hv)))
    · exact .inl (.inr (.inr hv))

theorem passes_storeSymbolic {rest : List Value} (h : rest <:+ p.stack) (offset length : Nat)
    {source : Nat → Term} (hsource : ∀ distance, ¬(source distance).Mentions op) :
    Effect.Passes
      { path := { p with
          stack := rest, memory := (p.memory.storeSymbolic s offset length source).1 }
        supply := (p.memory.storeSymbolic s offset length source).2 } op ins p := by
  rintro v (hv | hv | hv) hmentions
  · exact .inl (.inl (h.mem hv))
  · rcases Memory.holds_storeSymbolic hv with hv | ⟨-, -, hword⟩
    · exact .inl (.inr (.inl hv))
    · exact absurd (hword ▸ hmentions) (hsource _)
  · exact .inl (.inr (.inr hv))

theorem passes_copyCallData {rest : List Value} (h : rest <:+ p.stack)
    (destination source length : Value) :
    Effect.Passes
      { path := { p with
          stack := rest, memory := (copyCallData p.memory s destination source length).1 }
        supply := (copyCallData p.memory s destination source length).2 } op ins p := by
  unfold copyCallData
  split
  · exact passes_storeSymbolic h _ _ fun _ => nofun
  · exact Adds.passes (adds_of_has (has_of_suffix h)) rfl

theorem passes_makes {program : Program} {operands rest : List Value} {word : Term}
    {sources : List Nat} (hstack : p.stack = operands ++ rest)
    (h : ins.Makes program p operands word sources) :
    ({ p with stack := rest }.pushNew s word sources).Passes op ins p := by
  have hrest := has_of_suffix ⟨operands, hstack.symm⟩
  cases h with
  | environment =>
    -- the only words that are made of nothing else
    rintro v (hv | hv) hmentions
    · rcases List.mem_cons.mp hv with rfl | hv
      · cases hmentions
        exact .inr (.inl ⟨rfl, rfl, rfl⟩)
      · exact .inl (hrest v (.inl hv))
    · exact .inl (.inr hv)
  | unary _ a =>
    refine passes_pushNew hrest fun h => ?_
    exact ⟨a, .inl (by simp [hstack]), Term.mentions_applyUnary h, List.mem_cons_self⟩
  | binary _ a b =>
    refine passes_pushNew hrest fun h => ?_
    rcases Term.mentions_applyBinary h with h | h
    · exact ⟨a, .inl (by simp [hstack]), h, by simp⟩
    · exact ⟨b, .inl (by simp [hstack]), h, by simp⟩
  | hash =>
    refine passes_pushNew hrest fun h => ?_
    obtain ⟨v, hv, hmentions, htag⟩ := Memory.mentions_hashOf h
    exact ⟨v, .inr (.inl hv), hmentions, htag⟩
  | query kind a =>
    refine passes_pushNew hrest fun h => ?_
    cases h with
    | unary follows _ =>
      rcases follows with hop | hop <;> exact absurd (hop ▸ kind) (by decide)
  | argument | codeSize | counter | memorySize | callData | storage =>
    refine passes_pushNew hrest fun h => ?_
    cases h

/-- **An instruction passes on the taints of what its words are made of.** -/
theorem passes_execute (program : Program) (ins : Instruction) (p : Path) (s : Supply)
    (op : Opcode) : (execute program ins p s).Passes op ins p := by
  have hadds := adds_execute program ins p s
  have heffect := executes_execute program ins p s
  generalize execute program ins p s = e at hadds heffect ⊢
  cases heffect with
  | make stack makes => exact passes_makes stack makes
  | guess stack => exact passes_pushHavoc (has_of_suffix ⟨_, stack.symm⟩) _ _
  | @load offset rest o kind stack => exact passes_load ⟨[offset], stack.symm⟩ _
  | @copy destination source length rest kind stack =>
    exact passes_copyCallData ⟨[destination, source, length], stack.symm⟩ _ _ _
  | stuck | dup | swap | drop | fetch | write | store => exact Adds.passes hadds rfl

/-- An instruction after which a path does not just go on makes no values. -/
theorem has_of_flow_ne_next {program : Program} (h : (execute program ins p s).flow ≠ .next)
    {v : Value} (hv : (execute program ins p s).path.Has v) : p.Has v := by
  have heffect := executes_execute program ins p s
  generalize execute program ins p s = e at h hv heffect
  cases heffect with
  | stuck => exact hv
  | drop stack => exact has_of_suffix ⟨_, stack.symm⟩ v hv
  | dup | swap | make | guess | load | fetch | copy | write | store => exact absurd rfl h

end Path

end

/-! ### Subscribers -/

namespace Observer

variable {σ : Type}

/-- No subscriber ever takes a taint away. -/
def Spares (observer : Observer σ) (hooks : List Hook) (a : Taint) : Prop :=
  ∀ hook ∈ hooks, ∀ e watch watch' tag, observer.notify hook.subscriber e watch = .ok () watch' →
    a ∈ watch.2.taints.get tag → a ∈ watch'.2.taints.get tag

/-- A subscriber puts a taint on the top of the stack whenever an opcode was executed. -/
def Marks (observer : Observer σ) (hooks : List Hook) (op : Opcode) (a : Taint) : Prop :=
  ∃ i, ⟨.post, op, i⟩ ∈ hooks ∧ ∀ e watch watch', e.phase = .post → e.executed? = some op →
    observer.notify i e watch = .ok () watch' →
      ∀ v, e.state.stack.head? = some v → a ∈ watch'.2.taints.get v.tag

end Observer

/-- Passes taints on to heirs. -/
def Ledger.inheritAll (l : Ledger) (inheritances : List Inheritance) : Ledger :=
  { l with taints := l.taints.inheritAll inheritances }

namespace Setting

variable {σ : Type} {x : Setting σ} {a : Taint} {watch watch' : σ × Ledger}

theorem notifyAll_spares (h : x.observer.Spares x.hooks a) {e : Event} {subscribers : List Nat}
    {op : Opcode} (hsub : subscribers ⊆ x.subscribers e.phase op)
    (hplay : x.notifyAll e subscribers watch = .ok () watch') {tag : Nat}
    (ha : a ∈ watch.2.taints.get tag) : a ∈ watch'.2.taints.get tag := by
  induction subscribers generalizing watch with
  | nil =>
    cases hplay
    exact ha
  | cons i rest ih =>
    rw [notifyAll, bind_run] at hplay
    split at hplay
    · next u watch₁ hi =>
      have hhook := Registry.mem_hooks_of_mem_subscribers (hsub List.mem_cons_self)
      exact ih (fun j hj => hsub (List.mem_cons_of_mem _ hj)) hplay (h _ hhook e _ _ tag hi ha)
    · cases hplay

theorem event_spares (h : x.observer.Spares x.hooks a) {op : Opcode} {e : Event}
    (hplay : x.play (.event op e) watch = .ok () watch') {tag : Nat}
    (ha : a ∈ watch.2.taints.get tag) : a ∈ watch'.2.taints.get tag :=
  notifyAll_spares h (List.Subset.refl _) hplay ha

theorem play_spares (h : x.observer.Spares x.hooks a) {signal : Signal}
    (hplay : x.play signal watch = .ok () watch') (hsignal : ∀ i, signal ≠ .inherit i) {tag : Nat}
    (ha : a ∈ watch.2.taints.get tag) : a ∈ watch'.2.taints.get tag := by
  cases signal with
  | event op e => exact event_spares h hplay ha
  | inherit i => exact absurd rfl (hsignal i)
  | message m =>
    cases hplay
    exact ha

theorem playAll_spares (h : x.observer.Spares x.hooks a) {signals : List Signal}
    (hsignals : ∀ signal ∈ signals, ∀ i, signal ≠ .inherit i)
    (hplay : x.playAll signals watch = .ok () watch') {tag : Nat}
    (ha : a ∈ watch.2.taints.get tag) : a ∈ watch'.2.taints.get tag := by
  induction signals generalizing watch with
  | nil =>
    cases hplay
    exact ha
  | cons signal rest ih =>
    rw [playAll, bind_run] at hplay
    split at hplay
    · next u watch₁ hsignal =>
      exact ih (fun s hs => hsignals s (List.mem_cons_of_mem _ hs)) hplay
        (play_spares h hsignal (hsignals signal List.mem_cons_self) ha)
    · cases hplay

/-- Whoever waits for an event after an opcode has put the taint when all have been told. -/
theorem notifyAll_marks (h : x.observer.Spares x.hooks a) {op : Opcode}
    (hmarks : x.observer.Marks x.hooks op a) {e : Event} (hphase : e.phase = .post)
    (hop : e.executed? = some op) {v : Value} (hv : e.state.stack.head? = some v)
    (hplay : x.play (.event op e) watch = .ok () watch') : a ∈ watch'.2.taints.get v.tag := by
  obtain ⟨i, hhook, hputs⟩ := hmarks
  have hmem : i ∈ x.subscribers e.phase op := by
    rw [hphase]
    exact List.mem_map.mpr ⟨_, List.mem_filter.mpr ⟨hhook, by simp⟩, rfl⟩
  have hall : ∀ subscribers : List Nat, subscribers ⊆ x.subscribers e.phase op →
      i ∈ subscribers → ∀ watch, x.notifyAll e subscribers watch = .ok () watch' →
        a ∈ watch'.2.taints.get v.tag := by
    intro subscribers
    induction subscribers with
    | nil => exact fun _ hi => absurd hi List.not_mem_nil
    | cons j rest ih =>
      intro hsub hi watch hplay
      have hrest := fun k hk => hsub (List.mem_cons_of_mem j (a := k) hk)
      rw [notifyAll, bind_run] at hplay
      split at hplay
      · next u watch₁ hj =>
        rcases List.mem_cons.mp hi with rfl | hi
        · exact notifyAll_spares h hrest hplay (hputs e watch watch₁ hphase hop hj v hv)
        · exact ih hrest hi watch₁ hplay
      · cases hplay
  exact hall _ (List.Subset.refl _) hmem watch hplay

theorem playAll_inheritSignals (inheritances : List Inheritance) (rest : List Signal)
    (watch : σ × Ledger) :
    x.playAll (inheritSignals inheritances ++ rest) watch =
      x.playAll rest (watch.1, watch.2.inheritAll inheritances) := by
  induction inheritances generalizing watch with
  | nil => rfl
  | cons i inheritances ih => exact ih (watch.1, watch.2.inheritAll [i])

/-- The signals of a step are passed on in three turns: the event before the instruction, what is
inherited, and the others. -/
theorem exists_turns {g : Progress} {p : Path} {ins : Instruction} {inheritances : List Inheritance}
    {rest : List Signal}
    (hsignals : (stepAt x.program x.limits g.space g.supply p ins).signals =
      inheritSignals inheritances ++ rest)
    (h : x.playAll (g.signals x.program x.limits p ins) watch = .ok () watch') :
    ∃ watch₁, x.play (.event ins.opcode ⟨.pre, p.view ins, p.lastFrame⟩) watch = .ok () watch₁ ∧
      x.playAll rest (watch₁.1, watch₁.2.inheritAll inheritances) = .ok () watch' := by
  rw [Progress.signals, playAll, bind_run, hsignals] at h
  split at h
  · next u watch₁ hplay => exact ⟨watch₁, hplay, playAll_inheritSignals inheritances rest watch₁ ▸ h⟩
  · cases h

end Setting

/-! ### Tainted paths -/

/-- All values of a path that are made of what an opcode reads carry a taint. -/
def Path.Tainted (p : Path) (op : Opcode) (a : Taint) (τ : Taints) : Prop :=
  ∀ v, p.Has v → v.word.Mentions op → a ∈ τ.get v.tag

section

variable {σ : Type} {x : Setting σ} {op : Opcode} {a : Taint} {watch watch' : σ × Ledger}
  {g : Progress} {p q : Path} {ins : Instruction}

theorem stepAt_of_next {program : Program} (limits : Limits) (s : StateSpace) {supply : Supply}
    (h : (execute program ins p supply).flow = .next) :
    ∃ q, (stepAt program limits s supply p ins).paths = [q] ∧
      q.stack = (execute program ins p supply).path.stack ∧
      (∀ v, q.Has v → (execute program ins p supply).path.Has v) ∧
      (stepAt program limits s supply p ins).signals =
        inheritSignals (execute program ins p supply).inheritances ++
          [q.postEvent program ⟨ins, p.stack⟩] := by
  unfold stepAt
  simp only [h]
  exact ⟨_, rfl, rfl, fun _ hv => hv, rfl⟩

/-- What a step tells: what new values inherit, and after that no more of this. -/
theorem exists_inheritances (program : Program) (limits : Limits) (g : Progress) (p : Path)
    (ins : Instruction) :
    ∃ inheritances rest, (stepAt program limits g.space g.supply p ins).signals =
        inheritSignals inheritances ++ rest ∧
      (∀ i ∈ inheritances, g.supply.nextTag ≤ i.heir) ∧
      ∀ signal ∈ rest, ∀ i, signal ≠ .inherit i := by
  have hinherits := Path.inheritsFrom_execute program ins p g.supply
  have hle := (Path.adds_execute program ins p g.supply).1
  have hunheard {rest : List Signal} (h : ∀ signal ∈ rest, signal.Unheard) :
      ∀ signal ∈ rest, ∀ i, signal ≠ .inherit i := by
    rintro _ hsignal i rfl
    exact h _ hsignal
  cases signals_stepAt program limits g.space g.supply p ins with
  | next flow paths has name stack supply signals =>
    refine ⟨_, _, signals, fun i hi => (hinherits i hi).1, ?_⟩
    simp [Path.postEvent]
  | on has supply signals unheard =>
    exact ⟨_, _, signals, fun i hi => (hinherits i hi).1, hunheard unheard⟩
  | fork has supply signals unheard =>
    exact ⟨_, _, signals, fun i hi => Nat.le_trans hle (heir_fork hi).1, hunheard unheard⟩

/-- A step spares the taints of all values that there were before. -/
theorem Setting.spares_step (h : x.observer.Spares x.hooks a)
    (hplay : x.playAll (g.signals x.program x.limits p ins) watch = .ok () watch') {tag : Nat}
    (htag : tag < g.supply.nextTag) (ha : a ∈ watch.2.taints.get tag) :
    a ∈ watch'.2.taints.get tag := by
  obtain ⟨inheritances, rest, hsignals, hheirs, hrest⟩ :=
    exists_inheritances x.program x.limits g p ins
  obtain ⟨watch₁, hbefore, hafter⟩ := exists_turns hsignals hplay
  refine playAll_spares h hrest hafter ?_
  have hkept : (watch₁.2.taints.inheritAll inheritances).get tag = watch₁.2.taints.get tag := by
    refine Taints.get_inheritAll_of_not_heir (fun i hi => ?_) _
    have := hheirs i hi
    omega
  simp only [Ledger.inheritAll, hkept]
  exact event_spares h hbefore ha

/-- **Paths stay tainted** when an instruction of them is executed. -/
theorem tainted_stepAt (hspares : x.observer.Spares x.hooks a)
    (hmarks : x.observer.Marks x.hooks op a)
    (hplay : x.playAll (g.signals x.program x.limits p ins) watch = .ok () watch')
    (htidy : p.Tidy g.supply) (hp : p.Tainted op a watch.2.taints)
    (hq : q ∈ (stepAt x.program x.limits g.space g.supply p ins).paths) :
    q.Tainted op a watch'.2.taints := by
  have hold {v : Value} (hv : p.Has v) (hmentions : v.word.Mentions op) :
      a ∈ watch'.2.taints.get v.tag :=
    Setting.spares_step hspares hplay (htidy.tag_lt hv) (hp v hv hmentions)
  by_cases hflow : (execute x.program ins p g.supply).flow = .next
  · obtain ⟨r, hpaths, hstack, hhas, hsignals⟩ := stepAt_of_next x.limits g.space hflow
    rw [hpaths, List.mem_singleton] at hq
    subst hq
    obtain ⟨watch₁, hbefore, hafter⟩ := Setting.exists_turns hsignals hplay
    have hevent : x.play (q.postEvent x.program ⟨ins, p.stack⟩)
        (watch₁.1, watch₁.2.inheritAll (execute x.program ins p g.supply).inheritances) =
          .ok () watch' := by
      rw [Setting.playAll, bind_run] at hafter
      split at hafter
      · next u watch₂ hevent =>
        cases hafter
        exact hevent
      · cases hafter
    intro v hv hmentions
    rcases Path.passes_execute x.program ins p g.supply op v (hhas v hv) hmentions with
      hv | ⟨hop, -, htop⟩ | ⟨sources, hinherits, u, hu, hmentions', htag⟩
    · exact hold hv hmentions
    · -- the instruction has read the value, and its subscriber is told of it
      subst hop
      rw [← hstack] at htop
      exact Setting.notifyAll_marks hspares hmarks rfl rfl htop hevent
    · refine Setting.event_spares hspares hevent ?_
      have hsource : a ∈ watch₁.2.taints.get u.tag :=
        Setting.event_spares hspares hbefore (hp u hu hmentions')
      simp only [Ledger.inheritAll, hinherits, Taints.inheritAll, List.foldl_cons, List.foldl_nil,
        Taints.get_inherit, if_true]
      exact Taints.mem_union.mpr ⟨u.tag, htag, hsource⟩
  · have hback {v : Value} (hv : (execute x.program ins p g.supply).path.Has v) : p.Has v :=
      Path.has_of_flow_ne_next hflow hv
    intro v hv hmentions
    cases signals_stepAt x.program x.limits g.space g.supply p ins with
    | next flow => exact absurd flow hflow
    | on has supply signals unheard => exact hold (hback (has q hq v hv)) hmentions
    | fork has supply signals unheard =>
      rcases has q hq v hv with hv | hv
      · exact hold (hback hv) hmentions
      · -- a copy starts with the taints of its original
        obtain ⟨u, hu, rfl⟩ := Path.has_fork_iff.mp hv
        obtain ⟨watch₁, hbefore, hafter⟩ := Setting.exists_turns signals hplay
        have hle := (Path.adds_execute x.program ins p g.supply).1
        have hlt := htidy.tag_lt (hback hu)
        refine Setting.playAll_spares hspares (fun signal hsignal i hi => ?_) hafter ?_
        · subst hi
          exact unheard _ hsignal
        · simp only [Ledger.inheritAll]
          rw [Path.get_inheritAll_copyOf hu (by omega)]
          exact Setting.event_spares hspares hbefore (hp u (hback hu) hmentions)

end

/-! ### Explorations -/

/-- **Words that are made of a tainted value are tainted.** Where a subscriber puts a taint on
whatever an opcode has put on the stack, and no subscriber takes it away, every value of a path that
is left, on its stack, in its memory or in its storage, carries the taint if its word is made of what
the opcode reads. -/
theorem Explorer.taint_of_mentions {σ : Type} (x : Explorer) (observer : Observer σ)
    {op : Opcode} {a : Taint} (hspares : observer.Spares x.hooks a)
    (hmarks : observer.Marks x.hooks op a) (watch : σ × Ledger) (target : Target) {code : Bytes}
    {m : Moment σ} (h : x.Visits observer watch target code m) :
    ∀ t ∈ m.tracks, ∀ v, t.1.Has v → v.word.Mentions op → a ∈ m.watch.2.taints.get v.tag := by
  have hstart (entry : String) (space : StateSpace) (supply : Supply) (w : σ × Ledger) :
      (Moment.start entry space supply w).progress.Tidy ∧
        ∀ t ∈ (Moment.start entry space supply w).tracks, t.1.Tainted op a w.2.taints :=
    ⟨Moment.tidy_start entry space supply w, fun _ ht v hv => absurd hv (Moment.not_has_start ht v)⟩
  suffices hinv : m.progress.Tidy ∧ ∀ t ∈ m.tracks, t.1.Tainted op a m.watch.2.taints from hinv.2
  refine h.rule (I := fun m => m.progress.Tidy ∧
    ∀ t ∈ m.tracks, t.1.Tainted op a m.watch.2.taints) (fun entry => hstart ..) ?_
    fun m entry space w _ _ => hstart ..
  rintro code m m' - hnext ⟨htidy, htainted⟩
  obtain ⟨hnext, -⟩ := Setting.next_of_next? hnext
  refine ⟨Progress.tidy_of_advance hnext.advance htidy, ?_⟩
  cases hnext with
  | ended tracks _ | unfit tracks _ _ =>
    exact fun t ht => htainted t (tracks ▸ List.mem_cons_of_mem _ ht)
  | @step p past rest ins w tracks at_ins fits play =>
    have hpath (t : Path × List Frame) (ht : t ∈ m.tracks) : t.1.Tidy m.supply :=
      htidy t.1 (List.mem_map_of_mem ht)
    intro t ht
    rcases List.mem_append.mp ht with ht | ht
    · obtain ⟨q, hq, rfl⟩ := List.mem_map.mp ht
      have hmem : (p, past) ∈ m.tracks := tracks ▸ List.mem_cons_self
      exact tainted_stepAt (x := x.setting observer code) (g := m.progress) hspares hmarks play
        (hpath _ hmem) (htainted _ hmem) hq
    · have hmem : t ∈ m.tracks := tracks ▸ List.mem_cons_of_mem _ ht
      intro v hv hmentions
      exact Setting.spares_step (x := x.setting observer code) (g := m.progress) hspares play
        ((hpath t hmem).tag_lt hv) (htainted t hmem v hv hmentions)

/-- An observer that marks the top of the stack as the caller. -/
def callerMarker : Observer Unit where
  notify _ e := modify fun (u, l) =>
    (u, l.editAll (e.state.stack.head?.toList.map fun v => .put v.tag .caller))

/-- An explorer that tells subscriber zero of every caller that was read. -/
def callerExplorer : Explorer := { limits := ⟨60, 10, 3⟩, hooks := [⟨.post, .caller, 0⟩] }

/-- Code that takes the hash of the caller. -/
def hashedCallerCode : Bytes := [0x33, 0x5f, 0x52, 0x60, 0x20, 0x5f, 0x20, 0x00]

theorem Explorer.taint_of_mentions_hashedCaller :
    callerMarker.Spares callerExplorer.hooks .caller ∧
      callerMarker.Marks callerExplorer.hooks .caller .caller ∧
      ∃ m, callerExplorer.Visits callerMarker ((), {}) (.deployed ⟨0⟩ hashedCallerCode)
          hashedCallerCode m ∧
        ∃ t ∈ m.tracks, ∃ v, t.1.Has v ∧ v.word.Mentions .caller ∧ (∃ words, v.word = .keccak words) ∧
          .caller ∈ m.watch.2.taints.get v.tag := by
  have hspares : callerMarker.Spares callerExplorer.hooks .caller := by
    rintro hook - e watch _ tag ⟨⟩ ha
    cases e.state.stack.head? with
    | none => exact ha
    | some v => exact Taints.mem_get_put.mpr (.inr ha)
  have hmarks : callerMarker.Marks callerExplorer.hooks .caller .caller := by
    refine ⟨0, List.mem_cons_self, ?_⟩
    rintro e watch _ - - ⟨⟩ v hv
    simp only [hv]
    exact Taints.mem_get_put.mpr (.inl ⟨rfl, rfl⟩)
  have hcheck : (match (callerExplorer.setting callerMarker hashedCallerCode).after? 6
      (callerExplorer.start ((), {}) fallbackName) with
    | some m => decide ((m.tracks.head?.bind (·.1.stack.head?)).map Value.word =
        some (.keccak [.concat ((List.range 32).map fun i =>
          .binary .byteOf (.const (BitVec.ofNat 256 i)) (.env .caller))]))
    | none => false) = true := by decide +kernel
  refine ⟨hspares, hmarks, ?_⟩
  split at hcheck
  · next m hm =>
    have hvisits : callerExplorer.Visits callerMarker ((), {}) (.deployed ⟨0⟩ hashedCallerCode)
        hashedCallerCode m := .deployed (Setting.visits_of_after? hm)
    obtain ⟨v, htop, hword⟩ := Option.map_eq_some_iff.mp (of_decide_eq_true hcheck)
    obtain ⟨t, ht, hstack⟩ := Option.bind_eq_some_iff.mp htop
    have hmem : t ∈ m.tracks := List.mem_of_head? ht
    have hv : t.1.Has v := .inl (List.mem_of_head? hstack)
    have hmentions : v.word.Mentions .caller := by
      rw [hword]
      exact .keccak List.mem_cons_self
        (.concat (List.mem_map.mpr ⟨0, by simp, rfl⟩) (.right .env))
    exact ⟨m, hvisits, t, hmem, v, hv, hmentions, ⟨_, hword⟩,
      Explorer.taint_of_mentions callerExplorer callerMarker hspares hmarks ((), {}) _ hvisits t hmem
        v hv hmentions⟩
  · cases hcheck

end GuardFinder

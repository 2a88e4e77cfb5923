import GuardFinder.Proofs.Recognition
import GuardFinder.Proofs.SideBySide
import GuardFinder.Proofs.Stories

/-!
# Roles on single paths

Taints stay on their paths, but the words that the detector of roles remembers are shared by all
paths. We compare it with a strategy that starts afresh and is told the story of one path only.

* `Roles.told`: what such a strategy remembers and has found.
* `Roles.BorrowsIn`: the detector recognises a word that the strategy was not told of.
* `Roles.hear_step`: otherwise the strategy keeps up with the detector **in each step** of the path.
* `Analysis.calm_of_visits`: between two steps the detector waits for no hash, so that none that one
  path waits for is marked on another one.
* `Analysis.judged_of_recounts`: hence the strategy keeps up **in all runs**.
* `Analysis.finds_alone`: and finds something when the detector does.
-/

namespace GuardFinder

/-! ### Steps -/

/-- Hashing goes on with the hash on top of the stack. -/
theorem execute_hash {program : Program} {ins : Instruction} {p : Path} {supply : Supply}
    (hop : ins.opcode = .sha3) (hf : fitsStack ins.opcode p.stack = true) :
    (execute program ins p supply).flow = .next ∧
      (execute program ins p supply).path.stack ≠ [] := by
  have hpops := pops_le_of_fitsStack hf
  rw [hop] at hpops
  obtain ⟨offset, length, rest, hstack⟩ := exists_cons_cons_of_length hpops
  have hkind : ins.opcode.kind = .hash := by rw [hop]; decide
  unfold execute
  simp only [hkind, hstack]
  split
  · exact ⟨rfl, List.cons_ne_nil _ _⟩
  · exact ⟨rfl, List.cons_ne_nil _ _⟩

/-- What goes on with the next instruction is no branch. -/
theorem opcode_ne_jumpi_of_next {program : Program} {ins : Instruction} {p : Path} {supply : Supply}
    (h : (execute program ins p supply).flow = .next) : ins.opcode ≠ .jumpi := by
  intro hop
  have hkind : ins.opcode.kind = .branch := by rw [hop]; decide
  unfold execute at h
  simp only [hkind] at h
  rcases hstack : p.stack with - | ⟨destination, - | ⟨condition, rest⟩⟩ <;>
    · rw [hstack] at h
      cases h

namespace Roles

section

variable {memo memo' : Memo} {τ υ : Taints} {d : Detector} {op : Opcode} {e : Event}
  {settings : Settings} {code : Bytes}

/-- What an exploration with a detector of roles is set to when a strategy is told in its place. -/
abbrev listening (settings : Settings) (code : Bytes) : Setting (Strategy × List Finding) :=
  (Analysis.ofPatterns settings [.roles]).prepare.explorer.setting Strategy.watcher code

theorem not_asks_sight (he : e.About op)
    (h : ¬(Strategy.ofPattern settings .roles).Asks e.phase op) :
    ¬(Strategy.roles memo).Asks e.sight.phase e.sight.opcode := by
  rw [he.sight.1, he.sight.2]
  exact h

theorem hear_detector (hd : d.strategy = .roles memo) (he : e.About op) :
    ((Analysis.ofPatterns settings [.roles]).setting code).hear Registry.react (⟨[d]⟩, τ)
        (.event op e) =
      (⟨[d.after τ e.sight]⟩, τ.editAll (d.edits τ e.sight)) := by
  rcases Analysis.subscribers_alone Registry.observer code e.phase op .roles with
    ⟨hsubscribers, -⟩ | ⟨hsubscribers, hasks⟩
  · rw [Setting.hear, hsubscribers]
    rfl
  · obtain ⟨hedits, hnext, hfinding⟩ := @idle memo e.sight (not_asks_sight he hasks) τ
    have hafter : d.after τ e.sight = d := by
      have hstrategy : d.strategy.next τ e.sight = d.strategy := by
        rw [hd]
        exact congrArg Strategy.roles hnext
      have hnone : d.strategy.finding? τ e.sight = none := by
        rw [hd]
        exact hfinding
      rw [Detector.after, hnone, hstrategy]
      exact ite_self d
    have hidle : d.edits τ e.sight = [] := by
      simp only [Detector.edits, hd, Strategy.edits, hedits, ite_self]
    rw [Setting.hear, hsubscribers, hafter, hidle]
    rfl

theorem hear_strategy (he : e.About op) (memo : Memo) (found : List Finding) (υ : Taints) :
    (listening settings code).hear Strategy.react ((.roles memo, found), υ) (.event op e) =
      ((.roles (next memo υ e.sight),
        found ++ ((Strategy.roles memo).finding? υ e.sight).toList),
        υ.editAll (edits memo υ e.sight)) := by
  rcases Analysis.subscribers_alone Strategy.watcher code e.phase op .roles with
    ⟨hsubscribers, -⟩ | ⟨hsubscribers, hasks⟩
  · rw [Setting.hear, hsubscribers]
    rfl
  · obtain ⟨hedits, hnext, hfinding⟩ := @idle memo e.sight (not_asks_sight he hasks) υ
    rw [Setting.hear, hsubscribers, hedits, hnext, hfinding, Option.toList_none, List.append_nil]
    rfl

/-- **A strategy of roles stays one**, and keeps what it has found. -/
theorem exists_foldl_hear {signals : List Signal} (hsound : ∀ signal ∈ signals, signal.Sound)
    (memo : Memo) (found : List Finding) (υ : Taints) :
    ∃ memo' more υ', signals.foldl ((listening settings code).hear Strategy.react)
      ((.roles memo, found), υ) = ((.roles memo', found ++ more), υ') := by
  induction signals generalizing memo found υ with
  | nil => exact ⟨memo, [], υ, by rw [List.append_nil]; rfl⟩
  | cons signal rest ih =>
    have hrest := fun signal hsignal => hsound signal (List.mem_cons_of_mem _ hsignal)
    rw [List.foldl_cons]
    cases signal with
    | inherit i => exact ih hrest memo found (υ.inherit i)
    | message m => exact ih hrest memo found υ
    | event op e =>
      rw [hear_strategy (hsound _ List.mem_cons_self)]
      obtain ⟨memo', more, υ', heq⟩ := ih hrest (next memo υ e.sight) _ _
      exact ⟨memo', _, υ', by rw [heq, List.append_assoc]⟩

theorem filter_inheritSignals (r : Registry) (inheritances : List Inheritance) :
    (inheritSignals inheritances).filter r.heeds = inheritSignals inheritances := by
  refine List.filter_eq_self.mpr fun signal hsignal => ?_
  obtain ⟨i, -, rfl⟩ := List.mem_map.mp hsignal
  rfl

/-- Whether an event is heeded when there is one detector. -/
theorem heeds_event : Registry.heeds ⟨[d]⟩ (.event op e) =
    !d.reported.contains e.sight.functionName := by
  rw [Event.functionName_sight]
  exact Bool.or_false _

/-- Nothing of a jump is passed over that would be heard. -/
theorem foldl_hear_heeded_jump (r : Registry) {signals : List Signal}
    (h : ∀ signal ∈ signals, signal.Unheard) (inheritances : List Inheritance)
    (st : (Strategy × List Finding) × Taints) :
    ((inheritSignals inheritances ++ signals).filter r.heeds).foldl
        ((listening settings code).hear Strategy.react) st =
      (st.1, st.2.inheritAll inheritances) := by
  rw [List.filter_append, filter_inheritSignals]
  exact Setting.foldl_hear_jump (Analysis.serves_prepare _).ignoresJumps
    (fun signal hsignal => h signal (List.mem_of_mem_filter hsignal)) st inheritances

variable {T : Nat → Prop} {heeding : Detector}

/-- A detector and a strategy that is told of an event only when the detector heeds it. -/
theorem Beside.hear (h : Beside T d memo τ memo' υ) (settings : Settings) (code : Bytes)
    (he : e.About op) (hshows : ∀ t, e.sight.Shows t → T t)
    (hown : d.reported.contains e.sight.functionName = false → memo.Recognises e.sight →
      memo'.Recognises e.sight)
    (hheeding : heeding.reported = d.reported) (found : List Finding) :
    ∃ memo₁' found₁ υ₁,
      ([Signal.event op e].filter (Registry.heeds ⟨[heeding]⟩)).foldl
        ((listening settings code).hear Strategy.react) ((.roles memo', found), υ) =
          ((.roles memo₁', found₁), υ₁) ∧
      Beside T (d.after τ e.sight) (memo.heed d τ e.sight) (τ.editAll (d.edits τ e.sight)) memo₁'
        υ₁ := by
  rw [List.filter_cons, heeds_event, hheeding, List.filter_nil]
  cases hreported : d.reported.contains e.sight.functionName with
  | true => exact ⟨memo', found, υ, rfl, h.pass hreported⟩
  | false =>
    rw [Bool.not_false, if_pos rfl, List.foldl_cons, List.foldl_nil, hear_strategy he]
    exact ⟨_, _, _, rfl, h.heed hshows hreported (hown hreported)⟩

/-- An instruction that is not a jump: taints are inherited, and then there is an event after it. -/
theorem Beside.hear_next (h : Beside T d memo τ memo' υ) (settings : Settings) (code : Bytes)
    {inheritances : List Inheritance} (hsources : ∀ i ∈ inheritances, ∀ t ∈ i.sources, T t)
    (he : e.About op) (hphase : e.phase = .post) (hshows : ∀ t, e.sight.Shows t → T t)
    (hwaits : memo.forward = true →
      d.reported.contains e.sight.functionName = false ∧ op = .sha3 ∧ e.sight.stack ≠ [])
    (hheeding : heeding.reported = d.reported) (found : List Finding) :
    ∃ d₁ memo₁ τ₁, (inheritSignals inheritances ++ [Signal.event op e]).foldl
        (((Analysis.ofPatterns settings [.roles]).setting code).hear Registry.react) (⟨[d]⟩, τ) =
          (⟨[d₁]⟩, τ₁) ∧
      d₁.strategy = .roles memo₁ ∧ memo₁.forward = false ∧
      ∀ tag, T tag → KeepsUp τ₁ (((inheritSignals inheritances ++ [Signal.event op e]).filter
        (Registry.heeds ⟨[heeding]⟩)).foldl ((listening settings code).hear Strategy.react)
          ((.roles memo', found), υ)).2 tag := by
  have hafter : e.sight.phase = .post := (Event.phase_sight e).trans hphase
  have hnot (hrecognises : memo.Recognises e.sight) : memo'.Recognises e.sight := by
    rw [hrecognises.before_hash.1] at hafter
    cases hafter
  obtain ⟨memo₁', found₁, υ₁, hst, h₁⟩ :=
    (h.inheritAll hsources).hear settings code he hshows (fun _ => hnot) hheeding found
  rw [List.filter_append, filter_inheritSignals, List.foldl_append, List.foldl_append,
    Setting.foldl_hear_inheritSignals, Setting.foldl_hear_inheritSignals, List.foldl_cons,
    List.foldl_nil, hear_detector h.strategy he, hst]
  refine ⟨_, _, _, rfl, h₁.strategy, Memo.calm_heed hafter fun hforward => ?_, h₁.keeps⟩
  rw [he.sight.2]
  exact hwaits hforward

/-- **A strategy keeps up with the detector on the path of which it is told.** The detector waits
for no hash when a path has made its step. -/
theorem hear_step (settings : Settings) (code : Bytes) {g : Progress} {p : Path}
    {ins : Instruction} {program : Program} {limits : Limits}
    (hf : fitsStack ins.opcode p.stack = true) (htidy : p.Tidy g.supply)
    (h : Beside (fun tag => p.HasTag tag ∨ g.supply.nextTag ≤ tag) d memo τ memo' υ)
    (hcalm : memo.forward = false)
    (hown : d.reported.contains p.functionName = false →
      memo.Recognises (Event.sight ⟨.pre, p.view ins, p.lastFrame⟩) →
      memo'.Recognises (Event.sight ⟨.pre, p.view ins, p.lastFrame⟩)) (found : List Finding) :
    ∃ d₁ memo₁ τ₁, (g.signals program limits p ins).foldl
        (((Analysis.ofPatterns settings [.roles]).setting code).hear Registry.react) (⟨[d]⟩, τ) =
          (⟨[d₁]⟩, τ₁) ∧
      d₁.strategy = .roles memo₁ ∧ memo₁.forward = false ∧
      ∀ q ∈ (stepAt program limits g.space g.supply p ins).paths, ∀ v, q.Has v →
        KeepsUp τ₁ (((g.signals program limits p ins).filter (Registry.heeds ⟨[d]⟩)).foldl
          ((listening settings code).hear Strategy.react) ((.roles memo', found), υ)).2 v.tag := by
  have hbefore : Event.About ins.opcode ⟨.pre, p.view ins, p.lastFrame⟩ :=
    .pre rfl (pops_le_of_fitsStack hf)
  obtain ⟨memo₁', found₁, υ₁, hst₁, h₁⟩ :=
    h.hear settings code hbefore (fun t ht => .inl (shows_before ht)) hown rfl found
  have hsplit : (g.signals program limits p ins).filter (Registry.heeds ⟨[d]⟩) =
      [Signal.event ins.opcode ⟨.pre, p.view ins, p.lastFrame⟩].filter (Registry.heeds ⟨[d]⟩) ++
        (stepAt program limits g.space g.supply p ins).signals.filter (Registry.heeds ⟨[d]⟩) := by
    rw [← List.filter_append]
    rfl
  rw [hsplit, List.foldl_append, hst₁, Progress.signals, List.foldl_cons,
    hear_detector h.strategy hbefore]
  have hwaits := @Memo.forward_heed memo τ (Event.sight ⟨.pre, p.view ins, p.lastFrame⟩) d hcalm
  have hcalm₁ (hflow : (execute program ins p g.supply).flow ≠ .next) :
      (memo.heed d τ (Event.sight ⟨.pre, p.view ins, p.lastFrame⟩)).forward = false :=
    Bool.eq_false_iff.mpr fun hforward => hflow (execute_hash (hwaits hforward).2 hf).1
  have hjumps : ((Analysis.ofPatterns settings [.roles]).setting code).IgnoresJumps :=
    (Analysis.serves_prepare _).ignoresJumps
  have hsources : ∀ i ∈ (execute program ins p g.supply).inheritances, ∀ tag ∈ i.sources,
      p.HasTag tag ∨ g.supply.nextTag ≤ tag :=
    fun i hi tag htag => .inl ((Path.inheritsFrom_execute program ins p g.supply i hi).2.2 tag htag)
  have hleft {v : Value} (hv : (execute program ins p g.supply).path.Has v) :
      p.HasTag v.tag ∨ g.supply.nextTag ≤ v.tag :=
    (hasTag_execute ⟨v, hv, rfl⟩).imp_right And.left
  cases signals_stepAt program limits g.space g.supply p ins with
  | @next q flow paths has name stack supply signals =>
    have hname : q.functionName = p.functionName := name.trans (functionName_execute ..)
    have hsame : (d.after τ (Event.sight ⟨.pre, p.view ins, p.lastFrame⟩)).reported = d.reported :=
      Detector.reported_after (opcode_ne_jumpi_of_next flow)
    obtain ⟨d₂, memo₂, τ₂, hd₂, hstrategy₂, hcalm₂, hkeeps⟩ :=
      h₁.hear_next settings code hsources (sound_postEvent hf signals) rfl
        (fun tag hshows => shows_next has hshows)
        (fun hforward => by
          obtain ⟨hheeds, hop⟩ := hwaits hforward
          have hstack : (execute program ins p g.supply).path.stack ≠ [] := (execute_hash hop hf).2
          rw [← stack] at hstack
          refine ⟨?_, hop, fun hempty => hstack (List.map_eq_nil_iff.mp hempty)⟩
          rw [hsame]
          exact (congrArg d.reported.contains hname).trans hheeds)
        hsame.symm found₁
    rw [signals]
    refine ⟨d₂, memo₂, τ₂, hd₂, hstrategy₂, hcalm₂, fun r hr v hv => ?_⟩
    rw [paths, List.mem_singleton] at hr
    subst hr
    exact hkeeps v.tag (hleft (has v hv))
  | on has supply signals unheard flow =>
    rw [signals, Setting.foldl_hear_jump hjumps unheard, foldl_hear_heeded_jump _ unheard]
    refine ⟨_, _, _, rfl, h₁.strategy, hcalm₁ flow, fun q hq v hv => ?_⟩
    exact (h₁.inheritAll hsources).keeps _ (hleft (has q hq v hv))
  | fork has supply signals unheard flow =>
    rw [signals, Setting.foldl_hear_jump hjumps unheard, foldl_hear_heeded_jump _ unheard]
    refine ⟨_, _, _, rfl, h₁.strategy, hcalm₁ flow, fun q hq v hv => ?_⟩
    -- a copy has the taints of its original, on both sides
    have hnew := (htidy.of_adds (Path.adds_execute program ins p g.supply)).tag_lt
    obtain ⟨w, hw, hget⟩ := Path.exists_get_fork (fun _ hw => hnew hw) (has q hq v hv)
    exact (h₁.keeps _ (hleft hw)).of_get_eq (hget _) (hget _)

/-! ### Stories -/

/-- What becomes of a strategy that starts afresh and is told a story, as far as it was heeded. -/
def alone (settings : Settings) (code : Bytes) (story : List Scene) :
    (Strategy × List Finding) × Taints :=
  (story.flatMap Scene.heeded).foldl ((listening settings code).hear Strategy.react)
    ((.roles {}, []), ∅)

/-- The detector recognises a word in the memory that a path hashes, and a strategy with a memo of
its own does not. -/
def Borrows (scene : Scene) (memo : Memo) : Prop :=
  ∃ d shared op e, scene.registry = ⟨[d]⟩ ∧ d.strategy = .roles shared ∧
    .event op e ∈ scene.heeded ∧ shared.Recognises e.sight ∧ ¬memo.Recognises e.sight

/-- What a strategy of roles that starts afresh, with no taints, remembers and has found when it was
told of some signals. -/
def told (settings : Settings) (code : Bytes) (signals : List Signal) :
    Option (Memo × List Finding) :=
  match (listening settings code).playAll signals ((.roles {}, []), {}) with
  | .ok _ ((.roles memo, found), _) => some (memo, found)
  | _ => none

/-- At some scene of a story the detector recognises what a strategy alone does not. -/
def BorrowsIn (settings : Settings) (code : Bytes) (story : List Scene) : Prop :=
  ∃ before scene after memo found, story = before ++ scene :: after ∧
    told settings code (before.flatMap Scene.heeded) = some (memo, found) ∧ Borrows scene memo

/-- No word is remembered at a scene. -/
def wordless (scene : Scene) : Bool :=
  scene.registry.detectors.all fun d =>
    match d.strategy with
    | .roles memo => memo.words.isEmpty
    | _ => true

/-- Where no word is remembered, none is borrowed. -/
theorem not_borrowsIn {story : List Scene} (h : story.all wordless = true) :
    ¬BorrowsIn settings code story := by
  rintro ⟨before, scene, after, memo, found, rfl, -, d, shared, op, e, hregistry, hstrategy, -,
    ⟨w, -, hw⟩, -⟩
  have hempty : wordless scene = true := List.all_eq_true.mp h scene (by simp)
  rw [wordless, hregistry, List.all_cons, hstrategy, List.all_nil, Bool.and_true] at hempty
  exact Std.TreeSet.not_mem_of_isEmpty hempty hw

/-- What is so of the story of a path: a strategy alone has come up with the detector on this path,
unless the detector has borrowed from others. -/
structure Judged (settings : Settings) (code : Bytes) (m : Moment Registry) (p : Path)
    (story : List Scene) : Prop where
  sound : ∀ scene ∈ story, ∀ signal ∈ scene.signals, signal.Sound
  fresh : ∀ tag, m.supply.nextTag ≤ tag → (alone settings code story).2.get tag = ∅
  keeps : BorrowsIn settings code story ∨
    ∀ v, p.Has v → KeepsUp m.watch.2.taints (alone settings code story).2 v.tag

variable {story : List Scene} {scene : Scene}

theorem alone_append (settings : Settings) (code : Bytes) (story : List Scene) (scene : Scene) :
    alone settings code (story ++ [scene]) =
      scene.heeded.foldl ((listening settings code).hear Strategy.react)
        (alone settings code story) := by
  rw [alone, List.flatMap_append, List.foldl_append, List.flatMap_singleton]
  rfl

theorem BorrowsIn.append (h : BorrowsIn settings code story) (scene : Scene) :
    BorrowsIn settings code (story ++ [scene]) := by
  obtain ⟨before, borrowing, after, memo, found, rfl, htold, hborrows⟩ := h
  exact ⟨before, borrowing, after ++ [scene], memo, found, by simp, htold, hborrows⟩

/-- To be told of signals is to hear them, one after the other. -/
theorem told_of_foldl {signals : List Signal} (hsound : ∀ signal ∈ signals, signal.Sound)
    {found : List Finding}
    (h : signals.foldl ((listening settings code).hear Strategy.react) ((.roles {}, []), ∅) =
      ((.roles memo, found), υ)) : told settings code signals = some (memo, found) := by
  have hregistry : (Analysis.ofPatterns settings [.roles]).prepare.registry =
      ⟨[.ofPattern settings .roles]⟩ := rfl
  have hfollows := Strategy.follows_opcodes
    (hregistry ▸ (Analysis.ofPatterns settings [.roles]).serves_prepare) code
  obtain ⟨⟨⟨st, found'⟩, ledger⟩, hplay, hheard, -⟩ :=
    hfollows.playAll signals hsound ((.roles {}, []), {}) rfl
  have heq : ((st, found'), ledger.taints) = ((.roles memo, found), υ) := hheard.trans h
  obtain ⟨⟨rfl, rfl⟩, -⟩ := by simpa only [Prod.mk.injEq] using heq
  rw [told, hplay]

theorem sound_heeded (hsound : ∀ scene ∈ story, ∀ signal ∈ scene.signals, signal.Sound) :
    ∀ signal ∈ story.flatMap Scene.heeded, signal.Sound := by
  intro signal hsignal
  obtain ⟨scene, hscene, hsignal⟩ := List.mem_flatMap.mp hsignal
  exact hsound scene hscene signal (List.mem_of_mem_filter hsignal)

theorem exists_alone (settings : Settings) (code : Bytes)
    (hsound : ∀ scene ∈ story, ∀ signal ∈ scene.signals, signal.Sound) :
    ∃ memo found υ, alone settings code story = ((.roles memo, found), υ) ∧
      told settings code (story.flatMap Scene.heeded) = some (memo, found) := by
  obtain ⟨memo, more, υ, heq⟩ := exists_foldl_hear (sound_heeded hsound) {} [] ∅
  exact ⟨memo, _, υ, heq, told_of_foldl (sound_heeded hsound) heq⟩

/-- A strategy that was told a story and is told of one more event. -/
theorem told_event (hsound : ∀ scene ∈ story, ∀ signal ∈ scene.signals, signal.Sound)
    (he : e.About op) {found : List Finding}
    (halone : alone settings code story = ((.roles memo, found), υ)) :
    told settings code (story.flatMap Scene.heeded ++ [.event op e]) =
      some (next memo υ e.sight, found ++ ((Strategy.roles memo).finding? υ e.sight).toList) := by
  refine @told_of_foldl _ (υ.editAll (edits memo υ e.sight)) _ _ _ (fun signal hsignal => ?_) _ ?_
  · rcases List.mem_append.mp hsignal with hsignal | hsignal
    · exact sound_heeded hsound signal hsignal
    · rw [List.mem_singleton.mp hsignal]
      exact he
  · rw [alone] at halone
    rw [List.foldl_append, halone, List.foldl_cons, List.foldl_nil, hear_strategy he]

section

variable {g : Progress} {p q : Path} {ins : Instruction} {program : Program} {limits : Limits}
  (hfits : fitsStack ins.opcode p.stack = true) (htidy : p.Tidy g.supply)
include htidy

/-- A strategy alone puts no taints on what there is not yet. -/
theorem get_alone_append (settings : Settings) (code : Bytes) (story : List Scene) (r : Registry)
    {tag : Nat} (htag : (stepAt program limits g.space g.supply p ins).supply.nextTag ≤ tag) :
    (alone settings code (story ++ [⟨r, g.signals program limits p ins⟩])).2.get tag =
      (alone settings code story).2.get tag := by
  have hle := nextTag_le_stepAt program limits g.space g.supply p ins
  rw [alone_append, Scene.heeded]
  refine get_hear_of_subset Strategy.local_react (Analysis.serves_prepare _).ignoresJumps _ ?_
    fun _ => List.mem_of_mem_filter
  rintro (⟨v, hv, rfl⟩ | ⟨-, hlt⟩)
  · have hlt := htidy.tag_lt hv
    omega
  · omega

include hfits

/-- A strategy alone comes up with the detector in one more step of the path, unless the detector
borrows. -/
theorem keepsUp_alone_append (hsound : ∀ scene ∈ story, ∀ signal ∈ scene.signals, signal.Sound)
    (hstrategy : d.strategy = .roles memo) (hcalm : memo.forward = false)
    (hnew : ∀ tag, g.supply.nextTag ≤ tag → KeepsUp τ (alone settings code story).2 tag)
    (hkeeps : ∀ v, p.Has v → KeepsUp τ (alone settings code story).2 v.tag)
    (hborrows : ¬BorrowsIn settings code (story ++ [⟨⟨[d]⟩, g.signals program limits p ins⟩]))
    (hq : q ∈ (stepAt program limits g.space g.supply p ins).paths) {v : Value} (hv : q.Has v) :
    KeepsUp ((g.signals program limits p ins).foldl
        (((Analysis.ofPatterns settings [.roles]).setting code).hear Registry.react) (⟨[d]⟩, τ)).2
      (alone settings code (story ++ [⟨⟨[d]⟩, g.signals program limits p ins⟩])).2 v.tag := by
  obtain ⟨memo', found, υ, halone, htold⟩ := exists_alone settings code hsound
  rw [halone] at hnew hkeeps
  have hbeside : Beside (fun tag => p.HasTag tag ∨ g.supply.nextTag ≤ tag) d memo τ memo' υ := by
    refine ⟨hstrategy, fun hforward => ?_, ?_⟩
    · rw [hcalm] at hforward
      cases hforward
    · rintro tag (⟨w, hw, rfl⟩ | htag)
      · exact hkeeps w hw
      · exact hnew tag htag
  have hown (hheeds : d.reported.contains p.functionName = false)
      (hrecognises : memo.Recognises (Event.sight ⟨.pre, p.view ins, p.lastFrame⟩)) :
      memo'.Recognises (Event.sight ⟨.pre, p.view ins, p.lastFrame⟩) := by
    by_contra hnot
    refine hborrows ⟨story, _, [], memo', found, rfl, htold, d, memo, ins.opcode, _, rfl,
      hstrategy, List.mem_filter.mpr ⟨List.mem_cons_self, ?_⟩, hrecognises, hnot⟩
    rw [heeds_event]
    exact congrArg Bool.not hheeds
  obtain ⟨d₁, memo₁, τ₁, heq, -, -, hkeeps₁⟩ :=
    hear_step settings code hfits htidy hbeside hcalm hown found
  rw [heq, alone_append, halone]
  exact hkeeps₁ q hq v hv

end

end

end Roles

/-! ### Runs -/

namespace Analysis

variable {settings : Settings} {target : Target} {code : Bytes} {m m' : Moment Registry}
  {p q : Path} {past : List Frame} {rest : List (Path × List Frame)} {ins : Instruction}
  {program : Program} {limits : Limits} {watch : Registry × Ledger} {story : List Scene}

/-- **Between two steps the detector of roles waits for no hash.** -/
theorem calm_of_visits (h : (ofPatterns settings [.roles]).Visits target code m) :
    ∃ d memo, m.watch.1 = ⟨[d]⟩ ∧ d.strategy = .roles memo ∧ memo.forward = false := by
  refine Explorer.Visits.rule (I := fun m => ∃ d memo, m.watch.1 = ⟨[d]⟩ ∧
    d.strategy = .roles memo ∧ memo.forward = false) (fun entry => ?_)
    (fun code m m' hvisits hnext hm => ?_) (fun m entry space w hw hm => ?_) h
  · exact ⟨.ofPattern settings .roles, {}, rfl, rfl, rfl⟩
  · have hsound : (ofPatterns settings [.roles]).Sound m := Visits.sound hvisits
    obtain ⟨d, memo, hregistry, hstrategy, hcalm⟩ := hm
    cases (Setting.next_of_next? hnext).1 with
    | ended | unfit => exact ⟨d, memo, hregistry, hstrategy, hcalm⟩
    | @step p past rest ins w tracks at_ins fits play =>
      have hmem : p ∈ m.progress.paths := List.mem_map_of_mem (tracks ▸ List.mem_cons_self)
      have hwatch := hsound.withoutLog_step fits play
      have hbefore : withoutLog m.watch = (⟨[d]⟩, m.watch.2.taints) :=
        Prod.ext hregistry rfl
      obtain ⟨d₁, memo₁, τ₁, heq, hstrategy₁, hcalm₁, -⟩ :=
        Roles.hear_step settings code fits (hsound.tidy p hmem)
          ⟨hstrategy, id, fun _ _ => Roles.KeepsUp.refl m.watch.2.taints _⟩ hcalm (fun _ => id) []
      rw [hbefore] at hwatch
      exact ⟨d₁, memo₁, congrArg Prod.fst (hwatch.trans heq), hstrategy₁, hcalm₁⟩
  · obtain ⟨d, memo, hregistry, hmemo⟩ := hm
    exact ⟨d, memo, (Prod.mk.inj hw).1.trans hregistry, hmemo⟩

/-- The supply of tags only grows. -/
theorem nextTag_le_of_next {a : Analysis} (h : (a.setting code).Next m m') :
    m.supply.nextTag ≤ m'.supply.nextTag := by
  cases h with
  | ended | unfit => exact Nat.le_refl _
  | @step p past rest ins w tracks at_ins fits play =>
    exact nextTag_le_stepAt ..

/-- A story does not change while its path waits. -/
theorem judged_wait (hvisits : (ofPatterns settings [.roles]).Visits target code m)
    (hnext : ((ofPatterns settings [.roles]).setting code).next? m = some m')
    {t : Path × List Frame} (ht : t ∈ m.tracks.tail) (h : Roles.Judged settings code m t.1 story) :
    Roles.Judged settings code m' t.1 story := by
  have hsound : (ofPatterns settings [.roles]).Sound m := Visits.sound hvisits
  obtain ⟨hnext, -⟩ := Setting.next_of_next? hnext
  refine ⟨h.sound, fun tag htag => h.fresh tag (Nat.le_trans (nextTag_le_of_next hnext) htag), ?_⟩
  refine h.keeps.imp_right fun hkeeps v hv => ?_
  cases hnext with
  | ended | unfit => exact hkeeps v hv
  | step tracks at_ins fits play =>
    rw [tracks, List.tail_cons] at ht
    refine (hkeeps v hv).of_get_eq ?_ rfl
    have htaints := congrArg Prod.snd (hsound.withoutLog_step fits play)
    exact (congrArg (·.get v.tag) htaints).trans (hsound.get_step tracks ht hv)

/-- **A step of a path is judged in its story.** -/
theorem judged_step (hvisits : (ofPatterns settings [.roles]).Visits target code m)
    (htracks : m.tracks = (p, past) :: rest) (hfits : fitsStack ins.opcode p.stack = true)
    (hplay : ((ofPatterns settings [.roles]).setting code).playAll
      (m.progress.signals program limits p ins) m.watch = .ok () watch)
    (hq : q ∈ (stepAt program limits m.space m.supply p ins).paths)
    (h : Roles.Judged settings code m p story) :
    Roles.Judged settings code (m.stepped program limits p past rest ins watch) q
      (story ++ [⟨m.watch.1, m.progress.signals program limits p ins⟩]) := by
  have hsound : (ofPatterns settings [.roles]).Sound m := Visits.sound hvisits
  have htidy : p.Tidy m.supply :=
    hsound.tidy p (List.mem_map_of_mem (htracks ▸ List.mem_cons_self))
  obtain ⟨d, memo, hregistry, hstrategy, hcalm⟩ := calm_of_visits hvisits
  refine ⟨?_, ?_, ?_⟩
  · intro scene hscene signal hsignal
    rcases List.mem_append.mp hscene with hscene | hscene
    · exact h.sound scene hscene signal hsignal
    · rw [List.mem_singleton.mp hscene] at hsignal
      exact m.progress.sound_signals hfits signal hsignal
  · intro tag htag
    have hle := nextTag_le_stepAt program limits m.space m.supply p ins
    exact (Roles.get_alone_append (g := m.progress) htidy settings code story _ htag).trans
      (h.fresh tag (Nat.le_trans hle htag))
  · rcases h.keeps with hborrowed | hkeeps
    · exact .inl (hborrowed.append _)
    refine Classical.or_iff_not_imp_left.mpr fun hborrows v hv => ?_
    have hwatch := hsound.withoutLog_step hfits hplay
    rw [show withoutLog m.watch = (m.watch.1, m.watch.2.taints) from rfl, hregistry] at hwatch
    rw [hregistry] at hborrows ⊢
    have hkept := Roles.keepsUp_alone_append (g := m.progress) hfits htidy h.sound hstrategy hcalm
      (fun tag htag => Roles.keepsUp_of_empty (hsound.fresh tag htag) (h.fresh tag htag)) hkeeps
      hborrows hq hv
    rw [← hwatch] at hkept
    exact hkept

/-- All stories of a run are judged so. -/
theorem judged_of_recounts {stories : List (List Scene)}
    (h : (ofPatterns settings [.roles]).Recounts target code ⟨m, stories⟩) :
    List.Forall₂ (fun t story => Roles.Judged settings code m t.1 story) m.tracks stories := by
  refine Recounts.rule (I := Roles.Judged settings code) ?_ ?_ ?_ h
  · intro entry space supply watch
    have ht : (Path.start entry space.nodes.size, []) ∈
        (Moment.start entry space supply watch).tracks := List.mem_singleton_self _
    refine ⟨fun _ hscene => absurd hscene List.not_mem_nil, fun tag _ => ?_, .inr fun v hv => ?_⟩
    · exact Std.TreeMap.getD_emptyc
    · exact absurd hv (Moment.not_has_start ht v)
  · intro m m' hvisits hnext t ht story hstory
    exact judged_wait hvisits hnext ht hstory
  · intro m p past rest ins watch hvisits htracks hfits hplay q hq story hstory
    exact judged_step hvisits htracks hfits hplay hq hstory

/-- A finding of the detector is one of every strategy that keeps up with it on the path. -/
theorem Sound.exists_finding? (h : (ofPatterns settings [.roles]).Sound m) {f : Finding}
    (hemits : m.Emits ((ofPatterns settings [.roles]).setting code) p past ins 0 f) {υ : Taints}
    (hkeeps : ∀ v, p.Has v → Roles.KeepsUp m.watch.2.taints υ v.tag) (memo : Roles.Memo) :
    ∃ f', (Strategy.roles memo).finding? υ (Event.sight ⟨.pre, p.view ins, p.lastFrame⟩) =
      some f' := by
  obtain ⟨r, hreset, d, hd, hfinding⟩ := h.finding? hemits
  have hroles : ∃ shared, d.strategy = .roles shared := by
    have hreset : r.reset = ⟨[Pattern.roles].map (.ofPattern settings)⟩ := hreset
    obtain ⟨pattern, hpattern, hcleared⟩ := Registry.exists_pattern hreset hd
    obtain rfl := Option.some.inj hpattern
    cases hstrategy : d.strategy <;> rw [hstrategy] at hcleared <;> cases hcleared
    exact ⟨_, rfl⟩
  obtain ⟨shared, hstrategy⟩ := hroles
  rw [hstrategy] at hfinding
  obtain ⟨hphase, hop, destination, condition, rest, hargs, hguard, -⟩ :=
    Strategy.branch_of_finding? hfinding
  have hshows : (Event.sight ⟨.pre, p.view ins, p.lastFrame⟩).Shows condition.tag :=
    ⟨condition, by rw [hargs]; simp, rfl⟩
  obtain ⟨v, hv, htag⟩ := shows_before hshows
  have hguard' : (Strategy.roles memo).isGuard (υ.get condition.tag) = true := by
    rw [← htag] at hguard ⊢
    exact (hkeeps v hv).hasAll hguard
  unfold Strategy.finding?
  rw [hphase, hop, hargs]
  exact ⟨_, if_pos hguard'⟩

/-- **Roles are judged path by path, but for words that are remembered.** When the detector of roles
emits a finding before a branch, so does a strategy that starts afresh and is told of this path
only, as far as the detector heeded it: then or earlier. Otherwise the detector has recognised, when
this path was about to hash its memory, a word of which the strategy was not told. -/
theorem finds_alone (settings : Settings) (target : Target) {code : Bytes} {m : Moment Registry}
    {p : Path} {past : List Frame} {ins : Instruction} {f : Finding}
    (hvisits : (ofPatterns settings [.roles]).Visits target code m)
    (hemits : m.Emits ((ofPatterns settings [.roles]).setting code) p past ins 0 f) :
    (∃ story others, (ofPatterns settings [.roles]).Recounts target code ⟨m, story :: others⟩) ∧
      ∀ story others, (ofPatterns settings [.roles]).Recounts target code ⟨m, story :: others⟩ →
        ∃ memo found, Roles.told settings code (story.flatMap Scene.heeded ++
            [.event ins.opcode ⟨.pre, p.view ins, p.lastFrame⟩]) = some (memo, found) ∧
          (found ≠ [] ∨ Roles.BorrowsIn settings code story) := by
  have hsound : (ofPatterns settings [.roles]).Sound m := Visits.sound hvisits
  obtain ⟨rest, htracks⟩ := hemits.first
  refine ⟨?_, fun story others hrecounts => ?_⟩
  · obtain ⟨stories, hrecounts⟩ := exists_recounts hvisits
    have hjudged := judged_of_recounts hrecounts
    rw [htracks] at hjudged
    obtain ⟨story, others, -, -, rfl⟩ := List.forall₂_cons_left_iff.mp hjudged
    exact ⟨story, others, hrecounts⟩
  · have hjudged := judged_of_recounts hrecounts
    rw [htracks, List.forall₂_cons] at hjudged
    obtain ⟨hjudged, -⟩ := hjudged
    have hevent : Event.About ins.opcode ⟨.pre, p.view ins, p.lastFrame⟩ :=
      .pre rfl (pops_le_of_fitsStack hemits.fits)
    obtain ⟨memo, found, υ, halone, -⟩ := Roles.exists_alone settings code hjudged.sound
    refine ⟨_, _, Roles.told_event hjudged.sound hevent halone, hjudged.keeps.symm.imp_left ?_⟩
    intro hkeeps
    rw [halone] at hkeeps
    obtain ⟨f', hf'⟩ := hsound.exists_finding? hemits hkeeps memo
    rw [hf']
    exact List.append_ne_nil_of_right_ne_nil _ (List.cons_ne_nil f' [])

/-- Code that branches, and hashes the caller and 5 in one of the branches only. -/
def borrowedWordCode : Bytes :=
  [0x60, 0x05, 0x33, 0x5f, 0x35, 0x60, 0x15, 0x57, 0x5f, 0x52, 0x60, 0x20, 0x52, 0x60,
   0x40, 0x5f, 0x20, 0x60, 0x15, 0x57, 0x00, 0x5b, 0x00]

/-- Code with two branches. One of them checks a role; the other one enters a function that checks
another one. -/
def passedOverCode : Bytes :=
  [0x5f, 0x35, 0x60, 0x0f, 0x57, 0x33, 0x5f, 0x35, 0x60, 0x07, 0x14, 0x60, 0x26, 0x57,
   0x00, 0x5b, 0x33, 0x5f, 0x35, 0x60, 0x16, 0x56, 0x5b, 0x5f, 0x52, 0x60, 0x20, 0x52,
   0x60, 0x40, 0x5f, 0x20, 0x60, 0x24, 0x57, 0x00, 0x5b, 0x00, 0x5b, 0x33, 0x90, 0x60,
   0x2c, 0x56, 0x5b, 0x5f, 0x52, 0x33, 0x60, 0x20, 0x52, 0x60, 0x40, 0x5f, 0x20, 0x60,
   0x24, 0x57, 0x00]

theorem finds_alone_passedOver :
    ∃ m p past ins story others,
      (ofPatterns {} [.roles]).Recounts (.deployed ⟨0⟩ passedOverCode) passedOverCode
        ⟨m, story :: others⟩ ∧
      m.Emits ((ofPatterns {} [.roles]).setting passedOverCode) p past ins 0
        ⟨"_function_0x00000007", none, none⟩ ∧
      ∃ memo found, Roles.told {} passedOverCode (story.flatMap Scene.heeded ++
        [.event ins.opcode ⟨.pre, p.view ins, p.lastFrame⟩]) = some (memo, found) ∧ found ≠ [] := by
  have hcheck : (ofPatterns {} [.roles]).emitsAt passedOverCode 45 0
      ⟨"_function_0x00000007", none, none⟩ (fun story _ => story.all Roles.wordless) = true := by
    decide +kernel
  obtain ⟨m, p, past, ins, story, others, hrecounts, hemits, hwordless⟩ :=
    exists_of_emitsAt hcheck ⟨0⟩
  obtain ⟨memo, found, htold, hfound⟩ :=
    (finds_alone {} (.deployed ⟨0⟩ passedOverCode) hrecounts.visits hemits).2 story others hrecounts
  exact ⟨m, p, past, ins, story, others, hrecounts, hemits, memo, found, htold,
    hfound.resolve_right (Roles.not_borrowsIn hwordless)⟩

/-- A word that one path compares makes a finding of another path. And what a path does while its
function is passed over, because it is reported, can keep a strategy alone from finding what the
detector finds in the next function. -/
theorem finds_alone_ne :
    (∃ m p past ins f story others,
      (ofPatterns {} [.roles]).Recounts (.deployed ⟨0⟩ borrowedWordCode) borrowedWordCode
        ⟨m, story :: others⟩ ∧
      m.Emits ((ofPatterns {} [.roles]).setting borrowedWordCode) p past ins 0 f ∧
      ∀ part ∈ [Scene.signals, Scene.heeded],
        (Roles.told {} borrowedWordCode (story.flatMap part ++
          [.event ins.opcode ⟨.pre, p.view ins, p.lastFrame⟩])).map Prod.snd = some []) ∧
    ∃ m p past ins f story others,
      (ofPatterns {} [.roles]).Recounts (.deployed ⟨0⟩ passedOverCode) passedOverCode
        ⟨m, story :: others⟩ ∧
      m.Emits ((ofPatterns {} [.roles]).setting passedOverCode) p past ins 0 f ∧
      ¬Roles.BorrowsIn {} passedOverCode story ∧
      (Roles.told {} passedOverCode (story.flatMap Scene.signals ++
        [.event ins.opcode ⟨.pre, p.view ins, p.lastFrame⟩])).map Prod.snd = some [] := by
  have hborrowed : (ofPatterns {} [.roles]).emitsAt borrowedWordCode 16 0 ⟨"fallback", none, none⟩
      (fun story event => [Scene.signals, Scene.heeded].all fun part =>
        (Roles.told {} borrowedWordCode (story.flatMap part ++ [event])).map Prod.snd =
          some []) = true := by
    decide +kernel
  have hpassedOver : (ofPatterns {} [.roles]).emitsAt passedOverCode 45 0
      ⟨"_function_0x00000007", none, none⟩ (fun story event => story.all Roles.wordless &&
        (Roles.told {} passedOverCode (story.flatMap Scene.signals ++ [event])).map Prod.snd =
          some []) = true := by
    decide +kernel
  obtain ⟨m, p, past, ins, story, others, hrecounts, hemits, htold⟩ :=
    exists_of_emitsAt hborrowed ⟨0⟩
  refine ⟨⟨m, p, past, ins, _, story, others, hrecounts, hemits, ?_⟩, ?_⟩
  · simpa using htold
  · obtain ⟨m, p, past, ins, story, others, hrecounts, hemits, htold⟩ :=
      exists_of_emitsAt hpassedOver ⟨0⟩
    rw [Bool.and_eq_true, decide_eq_true_eq] at htold
    exact ⟨m, p, past, ins, _, story, others, hrecounts, hemits, Roles.not_borrowsIn htold.1,
      htold.2⟩

end Analysis

end GuardFinder

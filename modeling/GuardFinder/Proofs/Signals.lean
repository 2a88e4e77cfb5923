import GuardFinder.Proofs.Lockstep

/-!
# What watchers of a step hear

A step of a path tells of the path and of what it makes, and of nothing else: what is inherited
comes from values of the path, and events show the stack before an instruction and the one after it.
So whoever watches and changes only taints of what is shown changes no taint of another path.

* `Steps.names`: a path is in a node of its name, and moves along edges.
* `Path.inheritsFrom_execute`: what an instruction makes inherits from values of its path.
* `signals_stepAt`: the signals of a step, of which the events after jumps are heard by none.
* `get_hear_signals`: **a step changes the taints of no tag that it does not touch**.
-/

namespace GuardFinder

/-! ### Names of nodes -/

namespace StateSpace

/-- The name of the function of a node. -/
def nameAt? (s : StateSpace) (u : Nat) : Option String := s.nodes[u]?.map (·.functionName)

/-- A state space that has come of another: nodes keep their names, edges stay. -/
structure GrowsTo (s s' : StateSpace) : Prop where
  name : ∀ ⦃u name⦄, s.nameAt? u = some name → s'.nameAt? u = some name
  edge : ∀ ⦃e⦄, e ∈ s.edges → e ∈ s'.edges

variable {s s' s'' : StateSpace}

theorem GrowsTo.refl (s : StateSpace) : s.GrowsTo s := ⟨fun _ _ h => h, fun _ h => h⟩

theorem GrowsTo.trans (h : s.GrowsTo s') (h' : s'.GrowsTo s'') : s.GrowsTo s'' :=
  ⟨fun _ _ hname => h'.name (h.name hname), fun _ he => h'.edge (h.edge he)⟩

theorem nameAt?_addFrame (s : StateSpace) (u : Nat) (f : Frame) (v : Nat) :
    (s.addFrame u f).nameAt? v = s.nameAt? v := by
  rw [nameAt?, getElem?_nodes_addFrame, Option.map_map, nameAt?]
  refine congrArg (Option.map · s.nodes[v]?) (funext fun n => ?_)
  simp only [Function.comp_apply]
  split <;> rfl

theorem growsTo_addFrame (s : StateSpace) (u : Nat) (f : Frame) : s.GrowsTo (s.addFrame u f) :=
  ⟨fun v _ h => (s.nameAt?_addFrame u f v).trans h, fun _ h => h⟩

theorem lt_of_nameAt? {u : Nat} {name : String} (h : s.nameAt? u = some name) :
    u < s.nodes.size := by
  obtain ⟨n, hn, -⟩ := Option.map_eq_some_iff.mp h
  exact (Array.getElem?_eq_some_iff.mp hn).1

theorem nameAt?_addChild (s : StateSpace) (p : Path) (target : Nat) (kind : EdgeKind) (v : Nat) :
    (s.addChild p target kind).nameAt? v =
      if v = s.nodes.size then some p.functionName else s.nameAt? v := by
  rw [nameAt?, getElem?_nodes_addChild]
  split <;> rfl

theorem growsTo_addChild (s : StateSpace) (p : Path) (target : Nat) (kind : EdgeKind) :
    s.GrowsTo (s.addChild p target kind) where
  name := fun u name h => by
    rw [nameAt?_addChild, if_neg (Nat.ne_of_lt (lt_of_nameAt? h)), h]
  edge := fun e he => Array.mem_push_of_mem _ he

end StateSpace

section

variable {program : Program} {limits : Limits} {frame : Frame} {s s' : StateSpace}

/-- A path that follows an edge enters a node of its own name. -/
theorem Path.Enters.names {p : Path} {source target : Nat} {kind : EdgeKind} {qs : List Path}
    (h : p.Enters limits source target kind s s' qs) :
    s.GrowsTo s' ∧ ∀ q ∈ qs, s'.nameAt? q.node = some q.functionName ∧
      ∃ edge ∈ s'.edges, edge.source = p.node ∧ edge.target = q.node := by
  cases h with
  | pruned => exact ⟨⟨fun _ _ h => h, fun _ h => h⟩, nofun⟩
  | entered =>
    refine ⟨s.growsTo_addChild p target kind, fun q hq => ?_⟩
    rw [List.mem_singleton.mp hq]
    have htarget : (s.addChild p target kind).nameAt? s.nodes.size = some p.functionName := by
      rw [StateSpace.nameAt?_addChild, if_pos rfl]
    exact ⟨htarget, ⟨p.node, s.nodes.size, kind⟩, Array.mem_push_self, rfl, rfl⟩

/-- **The paths that go on are in nodes of their names**, and a path that leaves a node goes along
an edge. -/
theorem Steps.names {e : Effect} {qs : List Path} {supply : Supply} {returned : Option Bytes}
    (h : Steps program limits frame e s s' qs supply returned)
    (hname : s.nameAt? e.path.node = some e.path.functionName) :
    s.GrowsTo s' ∧ ∀ q ∈ qs, s'.nameAt? q.node = some q.functionName ∧
      (q.node = e.path.node ∨
        ∃ edge ∈ s'.edges, edge.source = e.path.node ∧ edge.target = q.node) := by
  have henters {p : Path} {target : Nat} {kind : EdgeKind} {s s' : StateSpace} {qs : List Path}
      (henters : p.Enters limits frame.instruction.address target kind s s' qs)
      (hnode : p.node = e.path.node) :
      s.GrowsTo s' ∧ ∀ q ∈ qs, s'.nameAt? q.node = some q.functionName ∧
        (q.node = e.path.node ∨
          ∃ edge ∈ s'.edges, edge.source = e.path.node ∧ edge.target = q.node) := by
    obtain ⟨hgrows, hqs⟩ := henters.names
    exact ⟨hgrows, fun q hq => ⟨(hqs q hq).1, .inr (hnode ▸ (hqs q hq).2)⟩⟩
  cases h with
  | next =>
    refine ⟨.refl s, fun q hq => ?_⟩
    rw [List.mem_singleton.mp hq]
    exact ⟨hname, .inl rfl⟩
  | halt | jumpLost | knownLost => exact ⟨.refl s, nofun⟩
  | jump _ _ enters | knownFalse _ _ enters | knownTrue _ _ _ _ enters => exact henters enters rfl
  | forkLost _ _ _ falls => exact henters falls rfl
  | fork _ _ _ falls jumps =>
    obtain ⟨hgrows₁, hps⟩ := henters falls rfl
    obtain ⟨hgrows₂, hqs⟩ := henters jumps rfl
    refine ⟨hgrows₁.trans hgrows₂, fun q hq => ?_⟩
    rcases List.mem_append.mp hq with hq | hq
    · exact hqs q hq
    · obtain ⟨hnode, hmoves⟩ := hps q hq
      refine ⟨hgrows₂.name hnode, hmoves.imp_right ?_⟩
      rintro ⟨edge, hedge, hends⟩
      exact ⟨edge, hgrows₂.edge hedge, hends⟩

end

/-! ### What is inherited -/

/-- A tag of a value of the path. -/
def Path.HasTag (p : Path) (tag : Nat) : Prop := ∃ v, p.Has v ∧ v.tag = tag

/-- New tags inherit from tags of the path. -/
def Effect.InheritsFrom (e : Effect) (p : Path) (s : Supply) : Prop :=
  ∀ i ∈ e.inheritances, s.nextTag ≤ i.heir ∧ i.heir < e.supply.nextTag ∧
    ∀ tag ∈ i.sources, p.HasTag tag

namespace Path

variable {p q : Path} {s : Supply}

theorem inheritsFrom_pushNew {sources : List Nat} (h : ∀ tag ∈ sources, p.HasTag tag) (q : Path)
    (s : Supply) (word : Term) : (q.pushNew s word sources).InheritsFrom p s := by
  intro i hi
  simp only [pushNew] at hi
  split at hi
  · exact absurd hi List.not_mem_nil
  · rw [List.mem_singleton.mp hi]
    exact ⟨Nat.le_refl _, Nat.lt_succ_self _, h⟩

theorem inheritsFrom_pushHavoc {sources : List Nat} (h : ∀ tag ∈ sources, p.HasTag tag) (q : Path)
    (s : Supply) (origin : Opcode) : (q.pushHavoc s origin sources).InheritsFrom p s :=
  inheritsFrom_pushNew h q { s with havocs := s.havocs + 1 } _

theorem hasTag_of_mem_tags {offset length tag : Nat} (h : tag ∈ p.memory.tags offset length) :
    p.HasTag tag := by
  rw [Memory.tags_eq] at h
  obtain ⟨cell, hcell, htag⟩ := List.mem_filterMap.mp h
  obtain ⟨i, -, rfl⟩ := List.mem_map.mp hcell
  obtain ⟨cell, hcell, htag⟩ := Option.bind_eq_some_iff.mp htag
  cases cell with
  | byte b => cases htag
  | part v j => exact ⟨v, .inr (.inl ⟨_, j, hcell⟩), Option.some.inj htag⟩

theorem inheritsFrom_load (p : Path) (s : Supply) (offset : Nat) {q : Path} :
    Effect.InheritsFrom
      { path := q
        supply := (p.memory.load s offset).supply
        inheritances := (p.memory.load s offset).inheritances } p s := by
  intro i hi
  simp only [Memory.load_eq] at hi ⊢
  split at hi
  · exact absurd hi List.not_mem_nil
  · next hwhole =>
    rw [List.mem_singleton.mp hi]
    exact ⟨Nat.le_refl _, Nat.lt_succ_self _,
      fun tag htag => hasTag_of_mem_tags (by rwa [Memory.tags_eq])⟩

theorem hasTag_of_mem_operands {operands rest : List Value} (h : p.stack = operands ++ rest)
    {tag : Nat} (htag : tag ∈ operands.map Value.tag) : p.HasTag tag := by
  obtain ⟨v, hv, rfl⟩ := List.mem_map.mp htag
  exact ⟨v, .inl (h ▸ List.mem_append_left rest hv), rfl⟩

theorem hasTag_of_makes {program : Program} {ins : Instruction} {operands rest : List Value}
    {word : Term} {sources : List Nat} (hstack : p.stack = operands ++ rest)
    (h : ins.Makes program p operands word sources) : ∀ tag ∈ sources, p.HasTag tag := by
  intro tag htag
  cases h with
  | unary | binary => exact hasTag_of_mem_operands hstack htag
  | hash =>
    unfold hashOf at htag
    split at htag
    · exact absurd htag List.not_mem_nil
    · exact hasTag_of_mem_tags htag
  | argument | codeSize | counter | memorySize | environment | callData | storage | query =>
    exact absurd htag List.not_mem_nil

theorem hasTag_of_guesses {ins : Instruction} {operands rest : List Value} {sources : List Nat}
    (hstack : p.stack = operands ++ rest) (h : ins.Guesses p operands sources) :
    ∀ tag ∈ sources, p.HasTag tag := by
  intro tag htag
  cases h with
  | modular => exact hasTag_of_mem_operands hstack htag
  | hash | memory | unmodelled => exact absurd htag List.not_mem_nil

/-- **What an instruction makes inherits from values of its path.** -/
theorem inheritsFrom_execute (program : Program) (ins : Instruction) (p : Path) (s : Supply) :
    (execute program ins p s).InheritsFrom p s := by
  have heffect := executes_execute program ins p s
  generalize execute program ins p s = e at heffect ⊢
  cases heffect with
  | make stack makes => exact inheritsFrom_pushNew (hasTag_of_makes stack makes) _ s _
  | guess stack guesses => exact inheritsFrom_pushHavoc (hasTag_of_guesses stack guesses) _ s _
  | load => exact inheritsFrom_load p s _
  | stuck | dup | swap | drop | fetch | copy | write | store =>
    intro i hi
    exact absurd hi List.not_mem_nil

end Path

/-! ### Signals of a step -/

/-- A signal that no strategy listens to: a message, or the event after a jump. -/
def Signal.Unheard : Signal → Prop
  | .event op e => e.phase = .post ∧ (op = .jump ∨ op = .jumpi)
  | .inherit _ => False
  | .message _ => True

section

variable {program : Program} {limits : Limits} {s : StateSpace} {p : Path} {ins : Instruction}

theorem unheard_follow {frame : Frame} (target : Nat) (kind : EdgeKind)
    (hop : frame.instruction.opcode = .jump ∨ frame.instruction.opcode = .jumpi) :
    ∀ signal ∈ (follow program limits s p frame target kind).signals, signal.Unheard := by
  intro signal h
  unfold follow at h
  split at h
  · rw [List.mem_singleton.mp h]
    exact ⟨rfl, hop⟩
  · rw [List.mem_singleton.mp h]
    trivial

/-- What a step tells: what is inherited first, and then the event after an instruction that is no
jump. A fork tells what the copies inherit. -/
inductive Step.Signals (program : Program) (frame : Frame) (e : Effect) (t : Step) : Prop
  | next {q : Path} (flow : e.flow = .next) (paths : t.paths = [q])
      (has : ∀ v, q.Has v → e.path.Has v) (name : q.functionName = e.path.functionName)
      (stack : q.stack = e.path.stack) (supply : t.supply = e.supply)
      (signals : t.signals = inheritSignals e.inheritances ++ [q.postEvent program frame])
  | on {rest : List Signal} (has : ∀ q ∈ t.paths, ∀ v, q.Has v → e.path.Has v)
      (supply : t.supply = e.supply)
      (signals : t.signals = inheritSignals e.inheritances ++ rest)
      (unheard : ∀ signal ∈ rest, signal.Unheard) (flow : e.flow ≠ .next)
  | fork {rest : List Signal}
      (has : ∀ q ∈ t.paths, ∀ v, q.Has v → e.path.Has v ∨ (e.path.fork e.supply).path.Has v)
      (supply : t.supply = (e.path.fork e.supply).supply)
      (signals : t.signals = inheritSignals (e.path.fork e.supply).inheritances ++ rest)
      (unheard : ∀ signal ∈ rest, signal.Unheard) (flow : e.flow ≠ .next)

theorem signals_stepAt (program : Program) (limits : Limits) (s : StateSpace) (supply : Supply)
    (p : Path) (ins : Instruction) :
    (stepAt program limits s supply p ins).Signals program ⟨ins, p.stack⟩
      (execute program ins p supply) := by
  have hjump := @flow_eq_jump program ins p supply
  have hbranch := @flow_eq_branch program ins p supply
  unfold stepAt
  generalize execute program ins p supply = e at hjump hbranch ⊢
  have hfollow (s : StateSpace) (r : Path) (target : Nat) (kind : EdgeKind) :
      ∀ q ∈ (follow program limits s r ⟨ins, p.stack⟩ target kind).paths, ∀ v, q.Has v →
        r.Has v := by
    intro q hq v hv
    rw [(enters_follow program limits s r ⟨ins, p.stack⟩ target kind).mem hq] at hv
    exact hv
  simp only
  cases hflow : e.flow with
  | next => exact .next hflow rfl (fun _ h => h) rfl rfl rfl rfl
  | halt returned => exact .on nofun rfl (List.append_nil _).symm nofun (by simp [hflow])
  | jump destination =>
    simp only
    have hop := (hjump hflow).1
    have hnot : e.flow ≠ .next := by simp [hflow]
    cases jumpTarget? program destination with
    | none =>
      refine .on nofun rfl rfl (fun signal h => ?_) hnot
      rw [List.mem_singleton.mp h]
      trivial
    | some target => exact .on (hfollow _ _ _ _) rfl rfl (unheard_follow _ _ (.inl hop)) hnot
  | branch destination condition =>
    have hop := (hbranch hflow).1
    have hnot : e.flow ≠ .next := by simp [hflow]
    have hunheard (s : StateSpace) (q : Path) (target : Nat) (kind : EdgeKind) :
        ∀ signal ∈ (follow program limits s q ⟨ins, p.stack⟩ target kind).signals,
          signal.Unheard := unheard_follow _ _ (.inr hop)
    simp only
    cases condition.const? with
    | some v =>
      simp only
      generalize (if v = 0 then some ins.nextAddress else jumpTarget? program destination) = target?
      cases target? with
      | none => exact .on nofun rfl (List.append_nil _).symm nofun hnot
      | some target => exact .on (hfollow _ _ _ _) rfl rfl (hunheard _ _ _ _) hnot
    | none =>
      unfold forkStep
      simp only
      cases jumpTarget? program destination with
      | none =>
        exact .fork (fun q hq v hv => .inr (hfollow _ _ _ _ q hq v hv)) rfl rfl
          (hunheard _ _ _ _) hnot
      | some target =>
        refine .fork (fun q hq v hv => ?_) rfl (by simp only [List.append_assoc]; rfl)
          (fun signal h => ?_) hnot
        · rcases List.mem_append.mp hq with hq | hq
          · exact .inl (hfollow _ _ _ _ q hq v hv)
          · exact .inr (hfollow _ _ _ _ q hq v hv)
        · rcases List.mem_append.mp h with h | h
          · exact hunheard _ _ _ _ signal h
          · rcases List.mem_append.mp h with h | h
            · obtain ⟨name, -, rfl⟩ := Option.map_eq_some_iff.mp (Option.mem_toList.mp h)
              trivial
            · exact hunheard _ _ _ _ signal h

end

/-! ### Taints that matter -/

namespace Taints

/-- Taints agree on a tag, as far as it matters. -/
def AgreeAt (reads : Taint → Prop) (τ τ' : Taints) (tag : Nat) : Prop :=
  ∀ a, reads a → (a ∈ τ.get tag ↔ a ∈ τ'.get tag)

variable {reads : Taint → Prop} {τ τ' : Taints} {tag : Nat}

theorem AgreeAt.of_get_eq (h : τ.AgreeAt reads τ' tag) {υ υ' : Taints} {other : Nat}
    (hυ : υ.get other = τ.get tag) (hυ' : υ'.get other = τ'.get tag) :
    υ.AgreeAt reads υ' other := by
  intro a ha
  rw [hυ, hυ']
  exact h a ha

theorem mem_union {a : Taint} {tags : List Nat} :
    a ∈ τ.union tags ↔ ∃ tag ∈ tags, a ∈ τ.get tag := by
  have hfold : ∀ (tags : List Nat) (acc : TaintSet),
      a ∈ tags.foldl (fun acc tag => acc.union (τ.get tag)) acc ↔
        a ∈ acc ∨ ∃ tag ∈ tags, a ∈ τ.get tag := by
    intro tags
    induction tags with
    | nil => simp
    | cons tag rest ih =>
      intro acc
      rw [List.foldl_cons, ih, TaintSet.mem_union, or_assoc]
      simp
  rw [union, hfold]
  simp

theorem AgreeAt.inherit {i : Inheritance} (hsources : ∀ t ∈ i.sources, τ.AgreeAt reads τ' t)
    (h : τ.AgreeAt reads τ' tag) : (τ.inherit i).AgreeAt reads (τ'.inherit i) tag := by
  intro a ha
  rw [get_inherit, get_inherit]
  split
  · rw [mem_union, mem_union]
    exact exists_congr fun t => and_congr_right fun ht => hsources t ht a ha
  · exact h a ha

theorem agreeAt_inheritAll {T : Nat → Prop} {inheritances : List Inheritance}
    (hsources : ∀ i ∈ inheritances, ∀ t ∈ i.sources, T t)
    (h : ∀ t, T t → τ.AgreeAt reads τ' t) (ht : T tag) :
    (τ.inheritAll inheritances).AgreeAt reads (τ'.inheritAll inheritances) tag := by
  induction inheritances generalizing τ τ' with
  | nil => exact h tag ht
  | cons i rest ih =>
    refine ih (fun j hj => hsources j (List.mem_cons_of_mem _ hj)) fun t ht => ?_
    exact .inherit (fun u hu => h u (hsources i List.mem_cons_self u hu)) (h t ht)

end Taints

/-! ### Sights of a step -/

/-- A tag that a sight shows. -/
def Sight.Shows (s : Sight) (tag : Nat) : Prop := ∃ i ∈ s.args ++ s.stack, i.tag = tag

/-- The result of an operation on two words is none of the operands. -/
def Sight.Fresh (s : Sight) : Prop :=
  s.phase = .post → s.opcode.kind = .binary → ∀ r ∈ s.stack.head?, ∀ i ∈ s.args, i.tag ≠ r.tag

/-- Subscribers change taints only of tags that they see. -/
def Reaction.Local {σ : Type} (react : Reaction σ) : Prop :=
  ∀ i s a tag, ¬s.Shows tag → (react i s a).2.get tag = a.2.get tag

namespace Setting

variable {σ : Type} {x : Setting σ} {react : Reaction σ}

/-- No subscriber waits for the event after a jump. -/
def IgnoresJumps (x : Setting σ) : Prop :=
  ∀ op, op = .jump ∨ op = .jumpi → x.subscribers .post op = []

theorem get_hear_event (hlocal : react.Local) (a : σ × Taints) (op : Opcode) {e : Event}
    {tag : Nat} (h : ¬e.sight.Shows tag) :
    (x.hear react a (.event op e)).2.get tag = a.2.get tag := by
  have hall (subscribers : List Nat) (a : σ × Taints) :
      (subscribers.foldl (fun a i => react i e.sight a) a).2.get tag = a.2.get tag := by
    induction subscribers generalizing a with
    | nil => rfl
    | cons i rest ih => rw [List.foldl_cons, ih, hlocal i e.sight a tag h]
  exact hall _ a

theorem foldl_hear_inheritSignals (a : σ × Taints) (inheritances : List Inheritance) :
    (inheritSignals inheritances).foldl (x.hear react) a =
      (a.1, a.2.inheritAll inheritances) := by
  induction inheritances generalizing a with
  | nil => rfl
  | cons i rest ih => exact ih (a.1, a.2.inherit i)

theorem foldl_hear_unheard (hx : x.IgnoresJumps) {signals : List Signal}
    (h : ∀ signal ∈ signals, signal.Unheard) (a : σ × Taints) :
    signals.foldl (x.hear react) a = a := by
  induction signals with
  | nil => rfl
  | cons signal rest ih =>
    have hsignal : x.hear react a signal = a := by
      cases signal with
      | inherit i => exact absurd (h _ List.mem_cons_self) id
      | message m => rfl
      | event op e =>
        obtain ⟨hphase, hop⟩ := h _ List.mem_cons_self
        rw [hear, hphase, hx op hop]
        rfl
    rw [List.foldl_cons, hsignal, ih fun s hs => h s (List.mem_cons_of_mem _ hs)]

/-- Of a jump nothing is heard but what inherits. -/
theorem foldl_hear_jump (hx : x.IgnoresJumps) {signals : List Signal}
    (h : ∀ signal ∈ signals, signal.Unheard) (a : σ × Taints) (inheritances : List Inheritance) :
    (inheritSignals inheritances ++ signals).foldl (x.hear react) a =
      (a.1, a.2.inheritAll inheritances) := by
  rw [List.foldl_append, foldl_hear_inheritSignals, foldl_hear_unheard hx h]

end Setting

section

variable {program : Program} {limits : Limits} {g : Progress} {p q : Path} {ins : Instruction}
  {tag : Nat}

theorem shows_before (h : (Event.sight ⟨.pre, p.view ins, p.lastFrame⟩).Shows tag) :
    p.HasTag tag := by
  obtain ⟨i, hi, rfl⟩ := h
  have hi' : i ∈ p.stack.map Value.item := by
    rcases List.mem_append.mp hi with hi | hi <;> exact hi
  obtain ⟨v, hv, rfl⟩ := List.mem_map.mp hi'
  exact ⟨v, .inl hv, rfl⟩

theorem shows_after {op : Instruction}
    (h : (Event.sight ⟨.post, q.view op, some ⟨ins, p.stack⟩⟩).Shows tag) :
    p.HasTag tag ∨ q.HasTag tag := by
  obtain ⟨i, hi, rfl⟩ := h
  rcases List.mem_append.mp hi with hi | hi
  · obtain ⟨v, hv, rfl⟩ := List.mem_map.mp hi
    exact .inl ⟨v, .inl hv, rfl⟩
  · obtain ⟨v, hv, rfl⟩ := List.mem_map.mp hi
    exact .inr ⟨v, .inl hv, rfl⟩

/-- The tags that a step of a path has to do with: those of the path and the new ones. -/
def Step.Touches (t : Step) (p : Path) (s : Supply) (tag : Nat) : Prop :=
  p.HasTag tag ∨ s.nextTag ≤ tag ∧ tag < t.supply.nextTag

theorem heir_fork {s : Supply} {i : Inheritance} (h : i ∈ (p.fork s).inheritances) :
    s.nextTag ≤ i.heir ∧ i.heir < (p.fork s).supply.nextTag := by
  obtain ⟨tag, -, hname⟩ := (Copies.recorded_ofValues s p.values).named i h
  exact (Copies.fresh_ofValues s p.values).range hname

/-- What an instruction leaves a path with, it touches. -/
theorem hasTag_execute {s : Supply} (h : (execute program ins p s).path.HasTag tag) :
    p.HasTag tag ∨ s.nextTag ≤ tag ∧ tag < (execute program ins p s).supply.nextTag := by
  obtain ⟨v, hv, rfl⟩ := h
  obtain ⟨-, word, hadds⟩ := Path.adds_execute program ins p s
  rcases hadds v hv with hv | ⟨hle, hlt, -⟩
  · exact .inl ⟨v, hv, rfl⟩
  · exact .inr ⟨hle, hlt⟩

/-- What is seen after an instruction was on the path or is new. -/
theorem shows_next {s : Supply} {op : Instruction}
    (has : ∀ v, q.Has v → (execute program ins p s).path.Has v)
    (h : (Event.sight ⟨.post, q.view op, some ⟨ins, p.stack⟩⟩).Shows tag) :
    p.HasTag tag ∨ s.nextTag ≤ tag := by
  rcases shows_after h with h | ⟨v, hv, rfl⟩
  · exact .inl h
  · exact (hasTag_execute ⟨v, has v hv, rfl⟩).imp_right And.left

theorem sound_postEvent {limits : Limits} {space : StateSpace} {s : Supply}
    {inheritances : List Inheritance} (hf : fitsStack ins.opcode p.stack = true)
    (h : (stepAt program limits space s p ins).signals =
      inheritSignals inheritances ++ [q.postEvent program ⟨ins, p.stack⟩]) :
    (q.postEvent program ⟨ins, p.stack⟩).Sound := by
  refine sound_stepAt program limits space s hf _ ?_
  rw [h]
  exact List.mem_append_right _ (List.mem_singleton_self _)

section

variable {σ : Type} {x : Setting σ} {react : Reaction σ}

/-- No signal of a step changes the taints of a tag that the step does not touch. -/
theorem get_hear_signal (hlocal : react.Local) (hx : x.IgnoresJumps)
    (htag : ¬(stepAt program limits g.space g.supply p ins).Touches p g.supply tag)
    {signal : Signal} (hsignal : signal ∈ g.signals program limits p ins) (a : σ × Taints) :
    (x.hear react a signal).2.get tag = a.2.get tag := by
  have hold : ¬p.HasTag tag := fun h => htag (.inl h)
  have hle := (Path.adds_execute program ins p g.supply).1
  have hinherits := Path.inheritsFrom_execute program ins p g.supply
  have hmade {n : Nat} (hn : n = tag) (hge : g.supply.nextTag ≤ n)
      (hlt : n < (stepAt program limits g.space g.supply p ins).supply.nextTag) : False :=
    htag (.inr (hn ▸ ⟨hge, hlt⟩))
  have hinherit {inheritances : List Inheritance} (h : signal ∈ inheritSignals inheritances)
      (hheir : ∀ i ∈ inheritances, i.heir ≠ tag) :
      (x.hear react a signal).2.get tag = a.2.get tag := by
    obtain ⟨i, hi, rfl⟩ := List.mem_map.mp h
    exact (Taints.get_inherit ..).trans (if_neg (hheir i hi).symm)
  have hunheard (h : signal.Unheard) : (x.hear react a signal).2.get tag = a.2.get tag := by
    have hall : ∀ s ∈ [signal], s.Unheard := fun s hs => List.mem_singleton.mp hs ▸ h
    exact congrArg (·.2.get tag) (Setting.foldl_hear_unheard hx hall a)
  rcases List.mem_cons.mp hsignal with rfl | hsignal
  · exact Setting.get_hear_event hlocal a ins.opcode fun h => hold (shows_before h)
  cases signals_stepAt program limits g.space g.supply p ins with
  | @next q flow paths has name stack supply signals =>
    rw [signals] at hsignal
    rcases List.mem_append.mp hsignal with hsignal | hsignal
    · refine hinherit hsignal fun i hi heq => ?_
      obtain ⟨hge, hlt, -⟩ := hinherits i hi
      exact hmade heq hge (supply ▸ hlt)
    · obtain rfl := List.mem_singleton.mp hsignal
      refine Setting.get_hear_event hlocal _ _ fun hshows => ?_
      rcases shows_after hshows with h | ⟨v, hv, rfl⟩
      · exact hold h
      · rcases hasTag_execute ⟨v, has v hv, rfl⟩ with h | ⟨hge, hlt⟩
        · exact hold h
        · exact hmade rfl hge (supply ▸ hlt)
  | on has supply signals unheard =>
    rw [signals] at hsignal
    rcases List.mem_append.mp hsignal with hsignal | hsignal
    · refine hinherit hsignal fun i hi heq => ?_
      obtain ⟨hge, hlt, -⟩ := hinherits i hi
      exact hmade heq hge (supply ▸ hlt)
    · exact hunheard (unheard signal hsignal)
  | fork has supply signals unheard =>
    rw [signals] at hsignal
    rcases List.mem_append.mp hsignal with hsignal | hsignal
    · refine hinherit hsignal fun i hi heq => ?_
      obtain ⟨hge, hlt⟩ := heir_fork hi
      exact hmade heq (Nat.le_trans hle hge) (supply ▸ hlt)
    · exact hunheard (unheard signal hsignal)

/-- Nor does any part of them. -/
theorem get_hear_of_subset (hlocal : react.Local) (hx : x.IgnoresJumps) (a : σ × Taints)
    (htag : ¬(stepAt program limits g.space g.supply p ins).Touches p g.supply tag)
    {signals : List Signal} (hsub : ∀ signal ∈ signals, signal ∈ g.signals program limits p ins) :
    (signals.foldl (x.hear react) a).2.get tag = a.2.get tag :=
  List.foldlRecOn (motive := fun b : σ × Taints => b.2.get tag = a.2.get tag) _ _ rfl
    fun b hb signal hsignal => (get_hear_signal hlocal hx htag (hsub signal hsignal) b).trans hb

/-- **A step changes the taints of no tag that it does not touch.** -/
theorem get_hear_signals (hlocal : react.Local) (hx : x.IgnoresJumps) (a : σ × Taints)
    (htag : ¬(stepAt program limits g.space g.supply p ins).Touches p g.supply tag) :
    ((g.signals program limits p ins).foldl (x.hear react) a).2.get tag = a.2.get tag :=
  get_hear_of_subset hlocal hx a htag fun _ => id

end

end

end GuardFinder

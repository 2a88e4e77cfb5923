import GuardFinder.Proofs.Turns
import GuardFinder.Proofs.Valuation
import Mathlib.Algebra.Group.Nat.Defs

/-!
# What names a function

A path gets a name at the start of a transaction, and another one when it learns that the selector of
the call is a constant. It is in a node that knows what it knows, so the name of a node can be read
off what the node knows: the last selector that is known there names it.

* `Constraint.Selects`: what is known says that the selector is a constant.
* `NamedBy`: the name that belongs to what is known. `Effect.SetsOut.namedBy`: paths take such a name
  along.
* `Setting.turnAt?`: the turn at a moment of a run.
* `Explorer.explore_names`: **a node is named by what it knows**, and so are the events of the paths
  in it.
-/

namespace GuardFinder

/-! ### Digits -/

/-- The digits of a number in base 16, as many as there are places. -/
def hexPlaces (places n : Nat) : List Char :=
  (List.range places).map fun i => Nat.digitChar (n / 16 ^ (places - 1 - i) % 16)

theorem hexPlaces_succ (places n : Nat) :
    hexPlaces (places + 1) n = hexPlaces places (n / 16) ++ [Nat.digitChar (n % 16)] := by
  have hrest : ∀ i ∈ List.range places,
      Nat.digitChar (n / 16 ^ (places + 1 - 1 - i) % 16) =
        Nat.digitChar (n / 16 / 16 ^ (places - 1 - i) % 16) := by
    intro i hi
    have hexp : places + 1 - 1 - i = places - 1 - i + 1 := by
      have := List.mem_range.mp hi
      omega
    rw [hexp, Nat.pow_succ', Nat.div_div_eq_div_mul]
  rw [hexPlaces, List.range_succ, List.map_append, List.map_congr_left hrest]
  simp [hexPlaces]

/-- Numbers that fit are padded to all places. -/
theorem toList_hexDigitsPadded {places n : Nat} (hpos : 0 < places) (hn : n < 16 ^ places) :
    (Word.hexDigitsPadded places n).toList = hexPlaces places n := by
  have hlist (w m : Nat) : (Word.hexDigitsPadded w m).toList =
      List.replicate (w - (Nat.toDigits 16 m).length) '0' ++ Nat.toDigits 16 m := by
    rw [Word.hexDigitsPadded, String.toList_ofList]
  induction places generalizing n with
  | zero => cases hpos
  | succ places ih =>
    rw [hexPlaces_succ]
    cases places with
    | zero =>
      have hlt : n < 16 := hn
      rw [hlist, Nat.toDigits_of_lt_base hlt, Nat.mod_eq_of_lt hlt]
      rfl
    | succ w =>
      have hdiv : n / 16 < 16 ^ (w + 1) := by
        rw [Nat.pow_succ] at hn
        exact Nat.div_lt_of_lt_mul (Nat.mul_comm _ _ ▸ hn)
      rw [← ih (Nat.succ_pos w) hdiv, hlist, hlist]
      by_cases hlt : n < 16
      · rw [Nat.toDigits_of_lt_base hlt, Nat.div_eq_of_lt hlt, Nat.mod_eq_of_lt hlt]
        have hzeros : List.replicate (w + 1) '0' = List.replicate w '0' ++ ['0'] :=
          List.replicate_succ'
        exact congrArg (· ++ [Nat.digitChar n]) hzeros
      · rw [Nat.toDigits_of_base_le (by decide) (Nat.le_of_not_lt hlt), List.length_append,
          List.length_singleton, Nat.add_sub_add_right, List.append_assoc]

/-! ### Names -/

/-- What is known says that the selector is `c`: an equation holds one side of which is built on the
first word of the call data, and the other is the constant. -/
structure Constraint.Selects (k : Constraint) (c : Word) : Prop where
  holds : k.holds = true
  compares : ∃ other : Term, other.const? = none ∧ other.readsSelector = true ∧
    (k.condition = .binary .eq (.const c) other ∨ k.condition = .binary .eq other (.const c))
  bound : c.toNat ≤ 2 ^ 32 - 1

/-- The name of the function with a selector. -/
def functionLabel (c : Word) : String := "_function_0x" ++ String.ofList (hexPlaces 8 c.toNat)

/-- The name that what is known gives: the last selector that is known, or that of the entry if none
is known. -/
inductive NamedBy (entry : String) (known : List Constraint) : String → Prop
  | selected {before after : List Constraint} {k : Constraint} {c : Word}
      (split : known = before ++ k :: after) (selects : k.Selects c)
      (last : ∀ k' ∈ after, ∀ c', ¬k'.Selects c') : NamedBy entry known (functionLabel c)
  | unselected (none : ∀ k ∈ known, ∀ c, ¬k.Selects c) : NamedBy entry known entry

theorem selectorName?_eq_some_iff {c : Word} {other : Term} {name : String} :
    selectorName? c other = some name ↔
      other.readsSelector = true ∧ c.toNat ≤ 2 ^ 32 - 1 ∧ name = functionLabel c := by
  have hsize : UInt32.size = 2 ^ 32 := rfl
  unfold selectorName?
  split
  · next h =>
    have hdigits : Word.hexDigitsPadded 8 c.toNat = String.ofList (hexPlaces 8 c.toNat) := by
      rw [← toList_hexDigitsPadded (by decide) h.2, String.ofList_toList]
    rw [functionLabel, hdigits, Option.some.injEq]
    constructor
    · intro hname
      exact ⟨h.1, by omega, hname.symm⟩
    · intro hname
      exact hname.2.2.symm
  · next h =>
    constructor
    · intro hname
      cases hname
    · intro hname
      exact absurd ⟨hname.1, by omega⟩ h

theorem selectedFunction?_eq_some_iff {condition : Term} {name : String} :
    selectedFunction? condition = some name ↔
      ∃ c, (Constraint.mk condition true).Selects c ∧ name = functionLabel c := by
  constructor
  · intro h
    unfold selectedFunction? at h
    split at h
    · next op a b =>
      split at h
      · next hop =>
        subst hop
        split at h
        · next c hc hother =>
          obtain ⟨hreads, hbound, hname⟩ := selectorName?_eq_some_iff.mp h
          refine ⟨c, ⟨rfl, ⟨b, hother, hreads, .inl ?_⟩, hbound⟩, hname⟩
          rw [Term.eq_const_of_const? hc]
        · next c hother hc =>
          obtain ⟨hreads, hbound, hname⟩ := selectorName?_eq_some_iff.mp h
          refine ⟨c, ⟨rfl, ⟨a, hother, hreads, .inr ?_⟩, hbound⟩, hname⟩
          rw [Term.eq_const_of_const? hc]
        · cases h
      · cases h
    · cases h
  · rintro ⟨c, ⟨-, ⟨other, hother, hreads, hcondition⟩, hbound⟩, hname⟩
    have hselector := selectorName?_eq_some_iff.mpr ⟨hreads, hbound, hname⟩
    have hconst : (Term.const c).const? = some c := rfl
    rcases hcondition with rfl | rfl <;>
      simp only [selectedFunction?, if_true, hconst, hother, hselector]

namespace NamedBy

variable {entry name : String} {known : List Constraint}

/-- What selects no function does not change the name. -/
theorem append_other (h : NamedBy entry known name) {k : Constraint} (hk : ∀ c, ¬k.Selects c) :
    NamedBy entry (known ++ [k]) name := by
  cases h with
  | @selected before after k' c split selects last =>
    have hsplit : known ++ [k] = before ++ k' :: (after ++ [k]) := by
      rw [split, List.append_assoc, List.cons_append]
    refine .selected hsplit selects ?_
    intro k'' hk'' c'
    rcases List.mem_append.mp hk'' with hmem | hmem
    · exact last k'' hmem c'
    · rw [List.mem_singleton.mp hmem]
      exact hk c'
  | unselected none =>
    refine .unselected ?_
    intro k' hk' c
    rcases List.mem_append.mp hk' with hmem | hmem
    · exact none k' hmem c
    · rw [List.mem_singleton.mp hmem]
      exact hk c

theorem append_refused (h : NamedBy entry known name) (condition : Term) :
    NamedBy entry (known ++ [⟨condition, false⟩]) name :=
  h.append_other fun _ hselects => Bool.noConfusion hselects.holds

theorem append_taken (h : NamedBy entry known name) (condition : Term) :
    NamedBy entry (known ++ [⟨condition, true⟩]) ((selectedFunction? condition).getD name) := by
  cases hname : selectedFunction? condition with
  | none =>
    refine h.append_other ?_
    intro c hselects
    have hsome := selectedFunction?_eq_some_iff.mpr ⟨c, hselects, rfl⟩
    cases hname.symm.trans hsome
  | some name' =>
    obtain ⟨c, hselects, hlabel⟩ := selectedFunction?_eq_some_iff.mp hname
    rw [Option.getD_some, hlabel]
    have hsplit : known ++ [⟨condition, true⟩] = known ++ ⟨condition, true⟩ :: [] := rfl
    exact .selected hsplit hselects fun _ hmem => absurd hmem List.not_mem_nil

end NamedBy

/-! ### Steps -/

/-- **A path that sets out has the name that belongs to what it knows.** -/
theorem Effect.SetsOut.namedBy {program : Program} {frame : Frame} {e : Effect} {p : Path}
    {target : Nat} {kind : EdgeKind} (h : e.SetsOut program frame p target kind) {entry : String}
    (hpath : NamedBy entry e.path.constraints e.path.functionName) :
    NamedBy entry p.constraints p.functionName := by
  cases h with
  | jump | knownFalse | knownTrue => exact hpath
  | fallen => exact hpath.append_refused _
  | taken => exact hpath.append_taken _

namespace StateSpace

/-- The nodes of a transaction are named by what they know. -/
def NamedFrom (s : StateSpace) (root : Nat) (entry : String) : Prop :=
  ∀ ⦃u n⦄, root ≤ u → s.nodes[u]? = some n → NamedBy entry n.constraints n.functionName

/-- The node that a path is in has the name of the path and knows what the path knows. -/
def Shows (s : StateSpace) (p : Path) : Prop :=
  ∃ n, s.nodes[p.node]? = some n ∧ n.functionName = p.functionName ∧ n.constraints = p.constraints

variable {s s' : StateSpace} {root : Nat} {entry : String} {p : Path}

theorem NamedFrom.addFrame (h : s.NamedFrom root entry) (u : Nat) (f : Frame) :
    (s.addFrame u f).NamedFrom root entry := by
  intro v n hv hn
  rw [getElem?_nodes_addFrame] at hn
  obtain ⟨old, hold, rfl⟩ := Option.map_eq_some_iff.mp hn
  have hnamed := h hv hold
  split <;> exact hnamed

theorem NamedFrom.addChild (h : s.NamedFrom root entry)
    (hp : NamedBy entry p.constraints p.functionName) (target : Nat) (kind : EdgeKind) :
    (s.addChild p target kind).NamedFrom root entry := by
  intro v n hv hn
  rw [getElem?_nodes_addChild] at hn
  split at hn
  · rw [← Option.some.inj hn]
    exact hp
  · exact h hv hn

theorem Shows.addFrame (h : s.Shows p) (u : Nat) (f : Frame) : (s.addFrame u f).Shows p := by
  obtain ⟨n, hn, hname, hknown⟩ := h
  refine ⟨if p.node = u then { n with frames := n.frames.push f } else n, ?_, ?_, ?_⟩
  · rw [getElem?_nodes_addFrame, hn, Option.map_some]
  · split <;> exact hname
  · split <;> exact hknown

theorem Shows.of_continues (h : s.Shows p) (hcontinues : s.Continues s') : s'.Shows p := by
  obtain ⟨n, hn, hlabel⟩ := h
  have hlt := (Array.getElem?_eq_some_iff.mp hn).1
  exact ⟨n, (hcontinues.node _ hlt).trans hn, hlabel⟩

end StateSpace

/-- A step of a path adds nodes that are named by what they know. -/
theorem Steps.namedFrom {program : Program} {limits : Limits} {frame : Frame} {e : Effect}
    {s s' : StateSpace} {qs : List Path} {supply : Supply} {returned : Option Bytes}
    (h : Steps program limits frame e s s' qs supply returned) {root : Nat} {entry : String}
    (hs : s.NamedFrom root entry) (hpath : NamedBy entry e.path.constraints e.path.functionName) :
    s'.NamedFrom root entry := by
  refine h.rule (Q := fun s' _ => s'.NamedFrom root entry) hs (fun _ => hs) ?_
  intro p target kind s₁ s₂ ps rs hout henters hs₁
  cases henters with
  | entered => exact hs₁.addChild (hout.namedBy hpath) target kind
  | pruned => exact hs₁

namespace Progress

variable {program : Program} {limits : Limits} {g g' : Progress} {space : StateSpace}
  {entry : String} {supply : Supply} {roots : List Nat} {entries : List String}

/-- **A transaction adds nodes that are named by what they know.** -/
theorem namedFrom_of_reaches (h : Reaches program limits (begin entry space supply) g)
    (hplanted : space.Planted roots entries) : g.space.NamedFrom space.nodes.size entry := by
  induction h with
  | refl =>
    intro u n hu hn
    have hpush : (begin entry space supply).space.nodes[u]? =
        if u = space.nodes.size then some ⟨space.nodes.size, entry, 0, #[], []⟩
        else space.nodes[u]? := Array.getElem?_push
    rw [hpush] at hn
    split at hn
    · rw [← Option.some.inj hn]
      exact .unselected fun k hk => absurd hk List.not_mem_nil
    · rw [Array.getElem?_eq_none hu] at hn
      cases hn
  | tail hbefore hadvance ih =>
    obtain ⟨-, way, hsurvey⟩ := continues_of_reaches hbefore hplanted
    cases hadvance with
    | ended | unfit => exact ih
    | @step p ps qs space' space'' supply' supply'' returned now ins at_ins fits steps =>
      obtain ⟨hroot, n, hn, hname, hknown⟩ := hsurvey.node p List.mem_cons_self
      have hnamed := ih hroot hn
      rw [hname, hknown] at hnamed
      obtain ⟨stack, memory, storage, hpath⟩ := path_execute program ins p supply'
      refine steps.namedFrom (ih.addFrame p.node _) ?_
      rw [hpath]
      exact hnamed

/-- Nodes keep their names and what they know. -/
theorem shows_of_reaches (h : Reaches program limits g g') {p : Path} (hp : g.space.Shows p) :
    g'.space.Shows p := by
  induction h with
  | refl => exact hp
  | tail _ hadvance ih =>
    cases hadvance with
    | ended | unfit => exact ih
    | step _ _ steps => exact (ih.addFrame _ _).of_continues steps.continues

end Progress

/-! ### Turns -/

/-- A turn tells of a path in an event: of the one that it has the floor before the instruction, and
of those that go on after it. -/
def Turn.TellsOf (t : Turn) (q : Path) (e : Event) : Prop :=
  q = t.path ∧ e = t.before ∨ q ∈ t.step.paths ∧ e = t.after q

theorem Turn.exists_tellsOf {t : Turn} {e : Event} (h : e ∈ t.events) : ∃ q, t.TellsOf q e := by
  rcases List.mem_cons.mp h with he | he
  · exact ⟨t.path, .inl ⟨rfl, he⟩⟩
  · obtain ⟨q, hq, rfl⟩ := List.mem_map.mp he
    exact ⟨q, .inr ⟨List.mem_reverse.mp hq, rfl⟩⟩

theorem Turn.TellsOf.view {t : Turn} {q : Path} {e : Event} (h : t.TellsOf q e) :
    e.state.functionName = q.functionName ∧ e.state.constraints = q.constraints := by
  rcases h with ⟨rfl, rfl⟩ | ⟨-, rfl⟩ <;> exact ⟨rfl, rfl⟩

namespace Setting

variable {σ : Type} {x : Setting σ} {m : Moment σ} {t : Turn}

/-- The turn at a moment of a run: the first path has the floor, unless it has to end there. -/
def turnAt? (x : Setting σ) (m : Moment σ) : Option Turn :=
  match m.tracks with
  | [] => none
  | (p, _) :: _ =>
    if x.late m.progress then none
    else
      ((x.program.at? p.pc).filter fun ins => fitsStack ins.opcode p.stack).map fun ins =>
        ⟨x.program, x.limits, m.space, m.supply, p, ins⟩

theorem eq_of_turnAt? (h : x.turnAt? m = some t) :
    ∃ past rest, m.tracks = (t.path, past) :: rest ∧ ¬x.late m.progress = true ∧
      x.program.at? t.path.pc = some t.instruction ∧
      fitsStack t.instruction.opcode t.path.stack = true ∧
      t = ⟨x.program, x.limits, m.space, m.supply, t.path, t.instruction⟩ := by
  unfold turnAt? at h
  split at h
  · cases h
  · next p past rest htracks =>
    split at h
    · cases h
    · next htime =>
      obtain ⟨ins, hins, rfl⟩ := Option.map_eq_some_iff.mp h
      obtain ⟨hat, hfits⟩ := Option.filter_eq_some_iff.mp hins
      exact ⟨past, rest, htracks, htime, hat, hfits, rfl⟩

/-- The paths of a turn are those of a moment of the run: the turn does not fail unless the run
does. -/
theorem exists_moment_of_tellsOf (h : x.turnAt? m = some t)
    (hfailure : (runPaths x m.progress m.watch).failure = none) {q : Path} {e : Event}
    (hq : t.TellsOf q e) : ∃ m', x.Visits m m' ∧ q ∈ m'.progress.paths := by
  obtain ⟨past, rest, htracks, htime, hat, hfits, ht⟩ := eq_of_turnAt? h
  rcases hq with ⟨rfl, -⟩ | ⟨hq, -⟩
  · refine ⟨m, .refl, ?_⟩
    rw [Moment.progress, htracks]
    exact List.mem_cons_self
  · cases hnext : x.next? m with
    | none =>
      rcases tracks_eq_nil_or hnext hfailure with hnil | hlate
      · cases htracks.symm.trans hnil
      · exact absurd hlate htime
    | some m' =>
      refine ⟨m', .single hnext, ?_⟩
      rw [ht] at hq
      obtain ⟨hstep, -⟩ := next_of_next? hnext
      cases hstep with
      | ended tracks past_end =>
        cases htracks.symm.trans tracks
        cases hat.symm.trans past_end
      | unfit tracks at_ins unfit =>
        cases htracks.symm.trans tracks
        cases hat.symm.trans at_ins
        exact absurd hfits unfit
      | step tracks at_ins fits play =>
        cases htracks.symm.trans tracks
        cases hat.symm.trans at_ins
        rw [Moment.progress_stepped]
        exact List.mem_append_left _ hq

end Setting

/-! ### Explorations -/

/-- The name that the transaction with a root starts with: the first transaction of creation code is
that of the constructor. -/
def Target.entryFrom (target : Target) (root : Nat) : String :=
  match target with
  | .deployed .. => fallbackName
  | .creation _ => if root = 0 then constructorName else fallbackName

namespace Explorer

variable {σ : Type} {x : Explorer} {observer : Observer σ} {target : Target} {watch : σ × Ledger}
  {o : Opening σ} {space : StateSpace} {roots : List Nat} {entries : List String}

/-- A transaction leaves the nodes before it as they are and adds nodes that are named by what they
know. -/
theorem run_names (x : Explorer) (observer : Observer σ) (hplanted : o.space.Planted roots entries) :
    o.space.Continues (x.run observer o).progress.space ∧
      (x.run observer o).progress.space.NamedFrom o.root o.entry := by
  refine x.run_rule observer o
    (J := fun s => o.space.Continues s ∧ s.NamedFrom o.root o.entry) ?_ ?_
  · intro g hreach
    exact ⟨(Progress.continues_of_reaches hreach hplanted).1,
      Progress.namedFrom_of_reaches hreach hplanted⟩
  · rintro s ⟨hcontinues, hnamed⟩
    exact ⟨⟨hcontinues.node, hcontinues.edge⟩, hnamed⟩

/-- The paths of a moment are in nodes of their names when the transaction is over. -/
theorem shows_run (hplanted : o.space.Planted roots entries) {m : Moment σ}
    (hm : (x.setting observer o.code).Visits o.start m) {q : Path} (hq : q ∈ m.progress.paths) :
    (x.run observer o).progress.space.Shows q := by
  have hreach : Progress.Reaches (.ofCode o.code) x.limits (.begin o.entry o.space o.supply)
      m.progress := Setting.reaches_of_visits hm
  obtain ⟨-, way, hsurvey⟩ := Progress.continues_of_reaches hreach hplanted
  have hshows : m.progress.space.Shows q := (hsurvey.node q hq).2
  have hrun : x.run observer o = runPaths (x.setting observer o.code) m.progress m.watch :=
    Setting.runPaths_of_visits hm
  rw [hrun]
  obtain ⟨g, hg, ⟨hend, -⟩ | hend⟩ :=
    runPaths_reaches (x.setting observer o.code) m.progress m.watch
  · rw [hend]
    exact Progress.shows_of_reaches hg hshows
  · rw [hend]
    exact Progress.shows_of_reaches hg hshows

theorem failure_of_sequel? {e : RunEnd σ} (h : sequel? target e = some o) : e.failure = none := by
  unfold sequel? at h
  split at h
  · next hfailure _ => exact hfailure
  · cases h

/-- A transaction of an exploration is the last one, or it is followed by the last one. -/
theorem eq_closing_or (ho : o ∈ x.openings observer target watch) :
    o = x.closing observer target watch ∨
      sequel? target (x.run observer o) = some (x.closing observer target watch) := by
  simp only [openings, closing] at ho ⊢
  cases hsequel : sequel? target (x.run observer (x.opening target watch)) with
  | none =>
    rw [hsequel] at ho
    exact .inl (List.mem_singleton.mp ho)
  | some o' =>
    rw [hsequel] at ho
    rcases List.mem_cons.mp ho with rfl | ho
    · exact .inr hsequel
    · exact .inl (List.mem_singleton.mp ho)

theorem closing_mem_openings (x : Explorer) (observer : Observer σ) (target : Target)
    (watch : σ × Ledger) :
    x.closing observer target watch ∈ x.openings observer target watch := by
  simp only [openings, closing]
  cases sequel? target (x.run observer (x.opening target watch)) with
  | none => exact List.mem_singleton_self _
  | some o => exact List.mem_cons_of_mem _ (List.mem_singleton_self o)

theorem planted_of_mem_openings (ho : o ∈ x.openings observer target watch) :
    ∃ roots entries, o.space.Planted roots entries ∧ o.entry = target.entryFrom o.root := by
  have hfirst := x.run_planted observer (o := x.opening target watch) .empty
  rcases List.mem_cons.mp ho with rfl | ho
  · refine ⟨[], [], .empty, ?_⟩
    cases target <;> rfl
  · have hsequel := Option.mem_toList.mp ho
    have hspace := (eq_of_sequel? hsequel).1
    refine ⟨_, _, hspace ▸ hfirst, ?_⟩
    have hroot : 0 < o.root := by
      rw [Opening.root, hspace]
      exact hfirst.root_lt (List.mem_singleton_self _)
    unfold sequel? at hsequel
    split at hsequel
    · obtain rfl := Option.some.inj hsequel
      exact (if_neg (Nat.ne_of_gt hroot)).symm
    · cases hsequel

/-- No transaction of an exploration that returns a state space fails, and the nodes that it leaves
stay as they are. -/
theorem continues_of_mem_openings (h : (x.explore observer target watch).result = .ok space)
    (ho : o ∈ x.openings observer target watch) :
    (x.run observer o).failure = none ∧ (x.run observer o).progress.space.Continues space := by
  have hclosing : (x.run observer (x.closing observer target watch)).failure = none := by
    rw [(x.explore_eq_closing observer target watch).1, finish] at h
    simp only at h
    split at h
    · cases h
    · next hfailure => exact hfailure
  have hend := eq_of_explore h
  rcases eq_closing_or ho with rfl | hsequel
  · rw [hend]
    exact ⟨hclosing, .refl space⟩
  · refine ⟨failure_of_sequel? hsequel, ?_⟩
    obtain ⟨roots, entries, hplanted, -⟩ :=
      planted_of_mem_openings (closing_mem_openings x observer target watch)
    have hcontinues := (x.run_names observer hplanted).1
    rw [(eq_of_sequel? hsequel).1, hend] at hcontinues
    exact hcontinues

/-- The nodes of an exploration are those of its transactions, which are named by what they know. -/
theorem exists_opening_of_node (h : (x.explore observer target watch).result = .ok space) {u : Nat}
    {n : Node} (hn : space.nodes[u]? = some n) :
    ∃ o ∈ x.openings observer target watch, o.root ≤ u ∧
      u < (x.run observer o).progress.space.nodes.size ∧
      NamedBy o.entry n.constraints n.functionName := by
  rw [← eq_of_explore h] at hn
  have hnodes := x.openings_rule observer target watch
    (I := fun os space _ => ∀ u n, space.nodes[u]? = some n → ∃ o ∈ os, o.root ≤ u ∧
      u < (x.run observer o).progress.space.nodes.size ∧
      NamedBy o.entry n.constraints n.functionName) ?_ ?_
  · exact hnodes u n hn
  · intro u n hn
    cases hn
  · intro os o roots entries hplanted hos u n hn
    obtain ⟨hcontinues, hnamed⟩ := x.run_names observer hplanted
    by_cases hroot : o.root ≤ u
    · have hlt := (Array.getElem?_eq_some_iff.mp hn).1
      exact ⟨o, List.mem_append_right _ (List.mem_singleton_self o), hroot, hlt, hnamed hroot hn⟩
    · rw [hcontinues.node u (Nat.lt_of_not_le hroot)] at hn
      obtain ⟨o', ho', hplace⟩ := hos u n hn
      exact ⟨o', List.mem_append_left _ ho', hplace⟩

/-- **A node is named by what it knows.** In a state space that an exploration returns, each node
belongs to a transaction, and its name is that of the last selector that it knows, or that of the
entry of the transaction if it knows none. Each event that is told at a turn of a transaction shows the
name of the node that the path is in, and what that node knows. -/
theorem explore_names (h : (x.explore observer target watch).result = .ok space) :
    (∀ u n, space.nodes[u]? = some n →
      ∃ o ∈ x.openings observer target watch, o.root ≤ u ∧
        u < (x.run observer o).progress.space.nodes.size ∧
        NamedBy (target.entryFrom o.root) n.constraints n.functionName) ∧
      ∀ o ∈ x.openings observer target watch, ∀ m t,
        (x.setting observer o.code).Visits o.start m →
        (x.setting observer o.code).turnAt? m = some t →
        ∀ e ∈ t.events, ∃ q, t.TellsOf q e ∧ ∃ n, space.nodes[q.node]? = some n ∧
          n.functionName = e.state.functionName ∧ n.constraints = e.state.constraints := by
  constructor
  · intro u n hn
    obtain ⟨o, ho, hroot, hlt, hnamed⟩ := exists_opening_of_node h hn
    obtain ⟨-, -, -, hentry⟩ := planted_of_mem_openings ho
    exact ⟨o, ho, hroot, hlt, hentry ▸ hnamed⟩
  · intro o ho m t hm ht e he
    obtain ⟨roots, entries, hplanted, -⟩ := planted_of_mem_openings ho
    obtain ⟨hfailure, hcontinues⟩ := continues_of_mem_openings h ho
    have hrun : x.run observer o = runPaths (x.setting observer o.code) m.progress m.watch :=
      Setting.runPaths_of_visits hm
    obtain ⟨q, hq⟩ := Turn.exists_tellsOf he
    obtain ⟨m', hm', hpath⟩ := Setting.exists_moment_of_tellsOf ht (hrun ▸ hfailure) hq
    have hshows := (shows_run hplanted (hm.trans hm') hpath).of_continues hcontinues
    obtain ⟨hname, hknown⟩ := hq.view
    rw [StateSpace.Shows, ← hname, ← hknown] at hshows
    exact ⟨q, hq, hshows⟩

/-- Code that looks for one selector and stops. -/
def selectorCode : Bytes :=
  [0x5f, 0x35, 0x60, 0xe0, 0x1c, 0x63, 0xa9, 0x05, 0x9c, 0xbb, 0x14, 0x60, 0x0f, 0x57, 0x00, 0x5b,
    0x00]

/-- The block behind the selector is named by it, and the first event shows the name of the first
block. -/
theorem explore_names_selector :
    let target : Target := .deployed ⟨0⟩ selectorCode
    let first := wipingExplorer.opening target ((), {})
    ∃ space n t, (wipingExplorer.explore wipingObserver target ((), {})).result = .ok space ∧
      space.nodes[2]? = some n ∧ n.functionName = "_function_0xa9059cbb" ∧
      NamedBy fallbackName n.constraints n.functionName ∧
      (wipingExplorer.setting wipingObserver selectorCode).turnAt? first.start = some t ∧
      ∃ q, t.TellsOf q t.before ∧ ∃ n, space.nodes[q.node]? = some n ∧
        n.functionName = t.before.state.functionName := by
  intro target first
  have hcheck : (match (wipingExplorer.explore wipingObserver target ((), {})).result with
    | .ok space => space.nodes[2]?.any (·.functionName = "_function_0xa9059cbb")
    | .error _ => false) = true := by decide +kernel
  have hturn : ((wipingExplorer.setting wipingObserver selectorCode).turnAt? first.start).isSome =
      true := by decide +kernel
  obtain ⟨t, ht⟩ := Option.isSome_iff_exists.mp hturn
  cases hresult : (wipingExplorer.explore wipingObserver target ((), {})).result with
  | error failure =>
    rw [hresult] at hcheck
    cases hcheck
  | ok space =>
    simp only [hresult] at hcheck
    cases hn : space.nodes[2]? with
    | none =>
      rw [hn] at hcheck
      cases hcheck
    | some n =>
      rw [hn] at hcheck
      obtain ⟨hnodes, hevents⟩ := explore_names hresult
      obtain ⟨o, -, -, -, hnamed⟩ := hnodes 2 n hn
      obtain ⟨q, hq, n', hn', hname, -⟩ :=
        hevents first List.mem_cons_self first.start t .refl ht t.before List.mem_cons_self
      exact ⟨space, n, t, rfl, hn, of_decide_eq_true hcheck, hnamed, ht, q, hq, n', hn', hname⟩

end Explorer

end GuardFinder

import GuardFinder.Proofs.FunctionNames

/-!
# The code that creation code returns

Creation code may end in many ways. The first path that ends by returning bytes that are known decides
what happens next: if there are any, they are run as the code of message calls. If there are none, no
message call is explored, whatever other paths return later.

* `Turn.Returns`: a path ends by returning known bytes. `Turn.returned_step`: that is what a step
  reports.
* `Setting.ReturnsFirst`, `Setting.NeverReturns`: which turn of a run comes first to return known
  bytes, if any does.
* `Explorer.explore_returned`: **message calls run the bytes that were returned first**.
-/

namespace GuardFinder

/-! ### Bytes of memory -/

namespace Memory

theorem knownBytes?_eq_some_iff {cells : List (Option Cell)} {bytes : Bytes} :
    knownBytes? cells = some bytes ↔ cells.map Cell.known? = bytes.map some := by
  induction cells generalizing bytes with
  | nil =>
    rw [knownBytes?, Option.some.injEq, List.map_nil, eq_comm, eq_comm (a := []),
      List.map_eq_nil_iff]
  | cons cell rest ih =>
    rw [knownBytes?, List.map_cons]
    cases hcell : Cell.known? cell with
    | none => cases bytes <;> simp
    | some b =>
      simp only [Option.map_eq_some_iff, ih]
      cases bytes with
      | nil => simp
      | cons c bytes => simp [and_comm]

/-- The bytes of a range are known if those of its cells are. -/
theorem bytes?_eq_some_iff {m : Memory} {offset length : Nat} {bytes : Bytes} :
    m.bytes? offset length = some bytes ↔
      bytes.length = length ∧
        ∀ i < length, Cell.known? m.cells[offset + i]? = bytes[i]? := by
  rw [bytes?_eq, knownBytes?_eq_some_iff, row, List.map_map]
  constructor
  · intro h
    have hlength : bytes.length = length := by
      have := congrArg List.length h
      simpa using this.symm
    refine ⟨hlength, ?_⟩
    intro i hi
    have hi' : i < bytes.length := hlength ▸ hi
    have := congrArg (·[i]?) h
    simpa [hi, hi'] using this
  · rintro ⟨rfl, h⟩
    refine List.ext_getElem? fun i => ?_
    by_cases hi : i < bytes.length
    · have := h i hi
      simpa [hi] using this
    · simp [hi]

end Memory

/-! ### Paths that return -/

/-- The turn ends its path by returning bytes: the range of memory is known and within the limit, and
so is all that it holds. -/
structure Turn.Returns (t : Turn) (bytes : Bytes) : Prop where
  op : t.instruction.opcode = ⟨0xf3⟩
  range : ∃ (offset length : Value) (rest : List Value) (o n : Word),
    t.path.stack = offset :: length :: rest ∧ offset.const? = some o ∧ length.const? = some n ∧
      o.toNat + n.toNat ≤ Memory.limit ∧ bytes.length = n.toNat ∧
      ∀ i < bytes.length, Cell.known? t.path.memory.cells[o.toNat + i]? = bytes[i]?

theorem memoryRange?_eq_some_iff {offset length : Value} {o n : Nat} :
    memoryRange? offset length = some (o, n) ↔
      ∃ v w : Word, offset.const? = some v ∧ length.const? = some w ∧ v.toNat = o ∧ w.toNat = n ∧
        o + n ≤ Memory.limit := by
  have hsize : Memory.limit < UInt64.size := by decide
  have hvalue (a : Value) (k : Nat) :
      a.size? = some k ↔ ∃ v : Word, a.const? = some v ∧ v.toNat = k ∧ k < UInt64.size := by
    simp only [Value.size?, Option.bind_eq_some_iff, Word.size?_eq_some]
  constructor
  · intro h
    obtain ⟨n', hn, h⟩ := Option.bind_eq_some_iff.mp h
    obtain ⟨o', ho, h⟩ := Option.bind_eq_some_iff.mp h
    cases h
    obtain ⟨w, hw, hw', -⟩ := (hvalue _ _).mp hn
    obtain ⟨hoffset, hlimit⟩ := Option.filter_eq_some_iff.mp ho
    obtain ⟨v, hv, hv', -⟩ := (hvalue _ _).mp hoffset
    exact ⟨v, w, hv, hw, hv', hw', of_decide_eq_true hlimit⟩
  · rintro ⟨v, w, hv, hw, rfl, rfl, hlimit⟩
    refine Option.bind_eq_some_iff.mpr ⟨w.toNat, (hvalue _ _).mpr ⟨w, hw, rfl, by omega⟩, ?_⟩
    refine Option.bind_eq_some_iff.mpr ⟨v.toNat, ?_, rfl⟩
    refine Option.filter_eq_some_iff.mpr ⟨(hvalue _ _).mpr ⟨v, hv, rfl, by omega⟩, ?_⟩
    exact decide_eq_true hlimit

theorem returnedBytes?_eq_some_iff {m : Memory} {offset length : Value} {bytes : Bytes} :
    returnedBytes? m offset length = some bytes ↔
      ∃ o n : Word, offset.const? = some o ∧ length.const? = some n ∧
        o.toNat + n.toNat ≤ Memory.limit ∧ bytes.length = n.toNat ∧
        ∀ i < bytes.length, Cell.known? m.cells[o.toNat + i]? = bytes[i]? := by
  constructor
  · intro h
    obtain ⟨⟨k, l⟩, hrange, hbytes⟩ := Option.bind_eq_some_iff.mp h
    obtain ⟨o, n, ho, hn, rfl, rfl, hlimit⟩ := memoryRange?_eq_some_iff.mp hrange
    obtain ⟨hlength, hcells⟩ := Memory.bytes?_eq_some_iff.mp hbytes
    exact ⟨o, n, ho, hn, hlimit, hlength, hlength ▸ hcells⟩
  · rintro ⟨o, n, ho, hn, hlimit, hlength, hcells⟩
    have hrange := memoryRange?_eq_some_iff.mpr ⟨o, n, ho, hn, rfl, rfl, hlimit⟩
    exact Option.bind_eq_some_iff.mpr
      ⟨_, hrange, Memory.bytes?_eq_some_iff.mpr ⟨hlength, hlength ▸ hcells⟩⟩

theorem flow_eq_halt_some {program : Program} {ins : Instruction} {p : Path} {s : Supply}
    {bytes : Bytes} (h : (execute program ins p s).flow = .halt (some bytes)) :
    ins.opcode = ⟨0xf3⟩ ∧ ∃ offset length rest, p.stack = offset :: length :: rest ∧
      returnedBytes? p.memory offset length = some bytes := by
  have hop : ins.opcode.kind = .giveBack → ins.opcode = ⟨0xf3⟩ := Opcode.forall_of_bytes
    (P := fun op => op.kind = .giveBack → op = ⟨0xf3⟩) (by decide +kernel) ins.opcode
  obtain ⟨operands, rest, hstack, hdrops⟩ := drops_of_flow h (by simp) (by simp)
  generalize hflow : Flow.halt (some bytes) = flow at hdrops
  cases hdrops with
  | giveBack hkind offset length =>
    exact ⟨hop hkind, offset, length, rest, hstack, (Flow.halt.inj hflow).symm⟩
  | discard | halt | jump | branch => cases hflow

/-- **A step reports the bytes that its path returns.** -/
theorem Turn.returned_step {t : Turn} {bytes : Bytes} :
    t.step.returned = some bytes ↔ t.Returns bytes := by
  constructor
  · intro h
    have hsteps := steps_stepAt t.program t.limits t.space t.supply t.path t.instruction
    have hreturned : (stepAt t.program t.limits t.space t.supply t.path t.instruction).returned =
        some bytes := h
    rw [hreturned] at hsteps
    generalize (stepAt t.program t.limits t.space t.supply t.path t.instruction).space = s' at hsteps
    generalize (stepAt t.program t.limits t.space t.supply t.path t.instruction).paths = qs at hsteps
    generalize (stepAt t.program t.limits t.space t.supply t.path t.instruction).supply = supply'
      at hsteps
    cases hsteps with
    | halt flow =>
      obtain ⟨hop, offset, length, rest, hstack, hbytes⟩ := flow_eq_halt_some flow
      obtain ⟨o, n, hrange⟩ := returnedBytes?_eq_some_iff.mp hbytes
      exact ⟨hop, offset, length, rest, o, n, hstack, hrange⟩
  · rintro ⟨hop, offset, length, rest, o, n, hstack, hrange⟩
    have hbytes := returnedBytes?_eq_some_iff.mpr ⟨o, n, hrange⟩
    have hkind : t.instruction.opcode.kind = .giveBack := by
      rw [hop]
      decide
    have hflow : (execute t.program t.instruction t.path t.supply).flow = .halt (some bytes) := by
      simp only [execute, hkind, hstack, hbytes]
    simp only [Turn.step, stepAt, hflow]

/-! ### Runs -/

namespace Setting

variable {σ : Type} {x : Setting σ} {m m' : Moment σ} {bytes : Bytes}

/-- From a moment on, the bytes that are the first to be returned. -/
inductive ReturnsFirst (x : Setting σ) : Moment σ → Bytes → Prop
  | now {m : Moment σ} {t : Turn} {bytes : Bytes} (turn : x.turnAt? m = some t)
      (returns : t.Returns bytes) : ReturnsFirst x m bytes
  | later {m m' : Moment σ} {bytes : Bytes} (next : x.next? m = some m')
      (silent : ∀ t, x.turnAt? m = some t → ∀ bs, ¬t.Returns bs)
      (rest : ReturnsFirst x m' bytes) : ReturnsFirst x m bytes

/-- From a moment on, no path returns known bytes. -/
def NeverReturns (x : Setting σ) (m : Moment σ) : Prop :=
  ∀ m' t, x.Visits m m' → x.turnAt? m' = some t → ∀ bs, ¬t.Returns bs

theorem NeverReturns.of_next (hsilent : ∀ t, x.turnAt? m = some t → ∀ bs, ¬t.Returns bs)
    (hnext : ∀ m', x.next? m = some m' → x.NeverReturns m') : x.NeverReturns m := by
  intro m' t hvisits ht
  rcases Relation.ReflTransGen.cases_head hvisits with rfl | ⟨m₁, hm₁, hlater⟩
  · exact hsilent t ht
  · exact hnext m₁ hm₁ m' t hlater ht

theorem exists_returnsFirst_or (x : Setting σ) (m : Moment σ) :
    (∃ bytes, x.ReturnsFirst m bytes) ∨ x.NeverReturns m := by
  induction hweight : weightSum x.program x.limits m.progress.paths using Nat.strongRecOn
    generalizing m with
  | ind weight ih =>
    by_cases hnow : ∃ t bs, x.turnAt? m = some t ∧ t.Returns bs
    · obtain ⟨t, bs, ht, hreturns⟩ := hnow
      exact .inl ⟨bs, .now ht hreturns⟩
    · have hsilent : ∀ t, x.turnAt? m = some t → ∀ bs, ¬t.Returns bs := by
        intro t ht bs hreturns
        exact hnow ⟨t, bs, ht, hreturns⟩
      cases hnext : x.next? m with
      | none =>
        refine .inr (NeverReturns.of_next hsilent ?_)
        intro m' hm'
        cases hnext.symm.trans hm'
      | some m₁ =>
        rcases ih _ (hweight ▸ weightSum_next?_lt hnext) m₁ rfl with ⟨bytes, hfirst⟩ | hnever
        · exact .inl ⟨bytes, .later hnext hsilent hfirst⟩
        · refine .inr (NeverReturns.of_next hsilent ?_)
          intro m' hm'
          rw [← Option.some.inj (hnext.symm.trans hm')]
          exact hnever

/-- What the next moment has been returned: what was returned before, or what the turn returns. -/
theorem returned_of_next? (hnext : x.next? m = some m') :
    m'.returned = m.returned.or ((x.turnAt? m).bind (·.step.returned)) := by
  obtain ⟨hstep, htime⟩ := next_of_next? hnext
  cases hstep with
  | ended tracks past_end => simp [turnAt?, tracks, past_end, Moment.dropped]
  | unfit tracks at_ins unfit =>
    simp [turnAt?, tracks, at_ins, Option.filter_some, unfit, Moment.dropped]
  | step tracks at_ins fits play =>
    simp only [turnAt?, tracks, at_ins, Option.filter_some, fits, if_neg htime, if_true,
      Option.map_some, Option.bind_some]
    rfl

theorem returned_of_silent (hnext : x.next? m = some m')
    (hsilent : ∀ t, x.turnAt? m = some t → ∀ bs, ¬t.Returns bs) : m'.returned = m.returned := by
  rw [returned_of_next? hnext]
  cases ht : x.turnAt? m with
  | none => exact Option.or_none
  | some t =>
    cases hstep : t.step.returned with
    | none => simp [hstep]
    | some bs => exact absurd (Turn.returned_step.mp hstep) (hsilent t ht bs)

theorem returned_reaches {program : Program} {limits : Limits} {g g' : Progress}
    (h : Progress.Reaches program limits g g') (hg : g.returned = some bytes) :
    g'.returned = some bytes := by
  induction h with
  | refl => exact hg
  | tail _ hadvance ih =>
    cases hadvance with
    | ended | unfit => exact ih
    | step => simpa using congrArg (Option.or · _) ih

theorem returned_runPaths_of_some (hm : m.returned = some bytes) :
    (runPaths x m.progress m.watch).progress.returned = some bytes := by
  obtain ⟨g, hg, ⟨hend, -⟩ | hend⟩ := runPaths_reaches x m.progress m.watch
  · rw [hend]
    exact returned_reaches hg hm
  · rw [hend]
    show g.returned = some bytes
    exact returned_reaches hg hm

theorem ReturnsFirst.returned (h : x.ReturnsFirst m bytes) (hm : m.returned = none)
    (hfailure : (runPaths x m.progress m.watch).failure = none) :
    (runPaths x m.progress m.watch).progress.returned = some bytes := by
  induction h with
  | @now m t bytes turn returns =>
    obtain ⟨past, rest, htracks, htime, -⟩ := eq_of_turnAt? turn
    cases hnext : x.next? m with
    | none =>
      rcases tracks_eq_nil_or hnext hfailure with hnil | hlate
      · cases htracks.symm.trans hnil
      · exact absurd hlate htime
    | some m' =>
      rw [runPaths_of_next? hnext]
      refine returned_runPaths_of_some ?_
      rw [returned_of_next? hnext, hm, turn, Option.bind_some, Turn.returned_step.mpr returns]
      rfl
  | later next silent rest ih =>
    rw [runPaths_of_next? next] at hfailure ⊢
    exact ih ((returned_of_silent next silent).trans hm) hfailure

theorem NeverReturns.returned (h : x.NeverReturns m) (hm : m.returned = none)
    (hfailure : (runPaths x m.progress m.watch).failure = none) :
    (runPaths x m.progress m.watch).progress.returned = none := by
  obtain ⟨last, hlast, hnone⟩ := exists_last x m
  have hreturned : last.returned = none := by
    refine hlast.rule (I := fun m' => m'.returned = none) hm ?_
    intro m₁ m₂ hm₁ hnext hreturned
    rw [returned_of_silent hnext (h m₁ · hm₁), hreturned]
  rw [runPaths_of_visits hlast] at hfailure ⊢
  rcases htracks : last.tracks with _ | ⟨⟨p, past⟩, rest⟩
  · rw [runPaths_of_nil (congrArg (List.map Prod.fst) htracks)]
    exact hreturned
  · rcases tracks_eq_nil_or hnone hfailure with hnil | htime
    · cases htracks.symm.trans hnil
    · rw [runPaths_of_late (g := last.progress) (congrArg (List.map Prod.fst) htracks) htime]
      exact hreturned

end Setting

/-! ### Explorations -/

namespace Explorer

variable {σ : Type} {x : Explorer} {observer : Observer σ} {P : σ → Prop} {code : Bytes}
  {watch : σ × Ledger}

/-- The transaction of message calls on bytes that creation code has returned. -/
def callsOn (e : RunEnd σ) (bytes : Bytes) : Opening σ :=
  ⟨bytes, fallbackName, e.progress.space, e.progress.supply, e.watch⟩

theorem sequel?_of_returned {e : RunEnd σ} (hfailure : e.failure = none) {bytes : Bytes}
    (hreturned : e.progress.returned = some bytes) (hbytes : bytes ≠ []) :
    sequel? (.creation code) e = some (callsOn e bytes) := by
  cases bytes with
  | nil => exact absurd rfl hbytes
  | cons byte rest => simp only [sequel?, hfailure, hreturned, callsOn]

theorem sequel?_of_nothing {target : Target} {e : RunEnd σ}
    (hreturned : e.progress.returned = some [] ∨ e.progress.returned = none) :
    sequel? target e = none := by
  unfold sequel?
  split
  · next hbytes => rcases hreturned with h | h <;> cases hbytes.symm.trans h
  · rfl

/-- **Message calls run the bytes that were returned first.** An exploration of creation code before
an observer that does not fail returns a state space. If the first path that returns known bytes
returns some, then these are run next, in a transaction of their own; if it returns none, or if no path
returns known bytes, then the state space is that of the creation code. -/
theorem explore_returned (hx : ∀ code, (x.setting observer code).Reliable P) (code : Bytes)
    (watch : σ × Ledger) (hP : P watch.1) :
    let y := x.setting observer code
    let first := x.opening (.creation code) watch
    let created := x.run observer first
    ∃ space, (x.explore observer (.creation code) watch).result = .ok space ∧
      ((∃ bytes, y.ReturnsFirst first.start bytes) ∨ y.NeverReturns first.start) ∧
      (∀ bytes, y.ReturnsFirst first.start bytes → bytes ≠ [] →
        space = (x.run observer (callsOn created bytes)).progress.space ∧
          space.nameAt? created.progress.space.nodes.size = some fallbackName) ∧
      (y.ReturnsFirst first.start [] ∨ y.NeverReturns first.start →
        space = created.progress.space) := by
  intro y first created
  obtain ⟨space, hresult, -⟩ := (explore_succeeds hx (.creation code) watch hP).space
  have hfailure : created.failure = none :=
    (continues_of_mem_openings hresult List.mem_cons_self).1
  have hend := eq_of_explore hresult
  refine ⟨space, hresult, y.exists_returnsFirst_or first.start, ?_, ?_⟩
  · intro bytes hfirst hbytes
    have hreturned : created.progress.returned = some bytes := hfirst.returned rfl hfailure
    have hclosing : x.closing observer (.creation code) watch = callsOn created bytes := by
      rw [closing, sequel?_of_returned hfailure hreturned hbytes, Option.getD_some]
    rw [hclosing] at hend
    have hplanted : (callsOn created bytes).space.Planted ([] ++ [first.root]) ([] ++ [first.entry]) :=
      x.run_planted observer (o := first) .empty
    have hcalls := (x.run_planted observer hplanted).entry
    rw [hend] at hcalls
    simp only [List.map_append, List.map_cons, List.map_nil] at hcalls
    exact ⟨hend.symm, List.cons.inj (List.append_inj_right hcalls rfl) |>.1⟩
  · intro hnothing
    have hreturned : created.progress.returned = some [] ∨ created.progress.returned = none := by
      rcases hnothing with hfirst | hnever
      · exact .inl (hfirst.returned rfl hfailure)
      · exact .inr (hnever.returned rfl hfailure)
    rw [closing, sequel?_of_nothing hreturned, Option.getD_none] at hend
    exact hend.symm

/-- Code that compares the caller with an owner. -/
def ownedCode : Bytes := [0x33, 0x5f, 0x54, 0x14, 0x60, 0x08, 0x57, 0x00, 0x5b, 0x00]

/-- Creation code that returns `ownedCode`, unless it is sent value: then it ends with the given
opcode, on an empty range. The path that is sent value runs first. -/
def payableCode (final : UInt8) : Bytes :=
  [0x34, 0x60, 0x0d, 0x57, 0x60, 0x0a, 0x80, 0x60, 0x11, 0x5f, 0x39, 0x5f, 0xf3, 0x5b, 0x5f, 0x5f,
    final] ++ ownedCode

/-- If the path that is sent value reverts, the code that the other one returns is run. -/
theorem explore_returned_reverting :
    wipingObserver.NeverFails ∧
      let y := wipingExplorer.setting wipingObserver (payableCode 0xfd)
      let first := wipingExplorer.opening (.creation (payableCode 0xfd)) ((), {})
      let created := wipingExplorer.run wipingObserver first
      ∃ space, (wipingExplorer.explore wipingObserver (.creation (payableCode 0xfd))
          ((), {})).result = .ok space ∧ y.ReturnsFirst first.start ownedCode ∧
        space = (wipingExplorer.run wipingObserver (callsOn created ownedCode)).progress.space ∧
        space.nameAt? 3 = some fallbackName := by
  have hnever : wipingObserver.NeverFails := fun _ _ _ => ⟨_, rfl⟩
  refine ⟨hnever, ?_⟩
  intro y first created
  obtain ⟨space, hspace, hexists, hcalls, -⟩ :=
    explore_returned (hnever.reliable wipingExplorer) (payableCode 0xfd) ((), {}) trivial
  have hcheck : (created.failure.isNone && created.progress.returned = some ownedCode &&
      created.progress.space.nodes.size = 3) = true := by decide +kernel
  simp only [Bool.and_eq_true, decide_eq_true_eq, Option.isNone_iff_eq_none] at hcheck
  obtain ⟨⟨hfailure, hreturned⟩, hsize⟩ := hcheck
  have hfirst : y.ReturnsFirst first.start ownedCode := by
    rcases hexists with ⟨bytes, hbytes⟩ | hnone
    · obtain rfl := Option.some.inj (hreturned.symm.trans (hbytes.returned rfl hfailure))
      exact hbytes
    · cases hreturned.symm.trans (hnone.returned rfl hfailure)
  obtain ⟨hrun, hname⟩ := hcalls ownedCode hfirst (List.cons_ne_nil _ _)
  exact ⟨space, hspace, hfirst, hrun, hsize ▸ hname⟩

/-- **An empty range hides the code.** If the path that is sent value returns an empty range, the code
that the other path returns is not run: all nodes are those of the constructor. -/
theorem explore_empty_hides :
    let y := wipingExplorer.setting wipingObserver (payableCode 0xf3)
    let first := wipingExplorer.opening (.creation (payableCode 0xf3)) ((), {})
    ∃ space m t, (wipingExplorer.explore wipingObserver (.creation (payableCode 0xf3))
        ((), {})).result = .ok space ∧
      y.Visits first.start m ∧ y.turnAt? m = some t ∧ t.Returns ownedCode ∧
      space.nodes.size = 3 ∧ ∀ n ∈ space.nodes, n.functionName = constructorName := by
  intro y first
  have hturn : ((y.after? 13 first.start).bind y.turnAt?).any
      (fun t => t.step.returned = some ownedCode) = true := by decide +kernel
  have hnodes : (match (wipingExplorer.explore wipingObserver (.creation (payableCode 0xf3))
      ((), {})).result with
    | .ok space => space.nodes.size = 3 && space.nodes.all (·.functionName = constructorName)
    | .error _ => false) = true := by decide +kernel
  cases hm : y.after? 13 first.start with
  | none =>
    rw [hm] at hturn
    cases hturn
  | some m =>
    rw [hm, Option.bind_some] at hturn
    cases ht : y.turnAt? m with
    | none =>
      rw [ht] at hturn
      cases hturn
    | some t =>
      rw [ht] at hturn
      have hreturns := Turn.returned_step.mp (of_decide_eq_true hturn)
      cases hresult : (wipingExplorer.explore wipingObserver (.creation (payableCode 0xf3))
          ((), {})).result with
      | error failure =>
        rw [hresult] at hnodes
        cases hnodes
      | ok space =>
        simp only [hresult, Bool.and_eq_true, decide_eq_true_eq, Array.all_eq_true_iff_forall_mem]
          at hnodes
        exact ⟨space, m, t, rfl, Setting.visits_of_after? hm, ht, hreturns, hnodes⟩

end Explorer

end GuardFinder

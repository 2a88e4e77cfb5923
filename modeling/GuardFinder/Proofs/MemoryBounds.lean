import GuardFinder.Proofs.MemoryAddresses
import GuardFinder.Proofs.Moments

/-!
# Memory stays within its limit

Memory grows in whole words when ranges are taken into use that end within `Memory.limit`. The limit
is a whole number of words, so memory never grows beyond it, and it does not shrink.

* `Memory.Bounded`: memory in whole words within the limit. `Memory.Bounded.apply`: changes within
  the limit keep it so.
* `memory_of_mem_stepAt`: the memory of paths **after a step**.
* `Setting.Continues`: how a path goes on. `Setting.Continues.size_le`: its memory does not shrink.
* `Explorer.Visits.memory_bounded`: memory and its addresses **at all moments**.
-/

namespace GuardFinder

/-! ### Bounds -/

namespace Memory

/-- Memory in whole words within the limit, in which all that was written is in use. -/
structure Bounded (m : Memory) : Prop where
  dvd_size : 32 ∣ m.size
  size_le : m.size ≤ 2 ^ 20
  lt_size : ∀ a cell, m.cells[a]? = some cell → a < m.size

variable {m : Memory} {c : Change}

theorem Bounded.touch (h : m.Bounded) {offset length : Nat} (hend : offset + length ≤ limit) :
    (m.touch offset length).Bounded := by
  have hlimit : limit = 2 ^ 20 := rfl
  have hdvd := h.dvd_size
  have hle := h.size_le
  refine ⟨?_, ?_, fun a cell hcell => ?_⟩
  · rw [size_touch, wordAligned]
    split <;> omega
  · rw [size_touch, wordAligned]
    split <;> omega
  · rw [cells_touch] at hcell
    have := h.lt_size a cell hcell
    rw [size_touch]
    split <;> omega

theorem Bounded.write (h : m.Bounded) {offset : Nat} {row : List Cell}
    (hend : offset + row.length ≤ limit) : (m.write offset row).Bounded := by
  have htouch := h.touch hend
  refine ⟨htouch.dvd_size, htouch.size_le, fun a cell hcell => ?_⟩
  rw [size_write]
  rw [getElem?_write] at hcell
  split at hcell
  · rw [size_touch, wordAligned]
    split <;> omega
  · exact htouch.lt_size a cell (by rwa [cells_touch])

theorem Change.size_le_apply (c : Change) (m : Memory) : m.size ≤ (c.apply m).size := by
  have htouch (offset length : Nat) : m.size ≤ (m.touch offset length).size := by
    rw [size_touch]
    split <;> omega
  cases c with
  | keep => exact Nat.le_refl _
  | touch offset length => exact htouch offset length
  | write offset row => exact htouch offset row.length

theorem Bounded.apply (h : m.Bounded)
    (hend : ∀ x, c.access? = some x → x.offset + x.length ≤ limit) : (c.apply m).Bounded := by
  cases c with
  | keep => exact h
  | touch offset length => exact h.touch (hend _ rfl)
  | write offset row => exact h.write (hend _ rfl)

theorem Bounded.mapValues (h : m.Bounded) (f : Value → Value) : (m.mapValues f).Bounded := by
  refine ⟨h.dvd_size, h.size_le, fun a cell hcell => ?_⟩
  rw [getElem?_mapValues] at hcell
  obtain ⟨old, hold, -⟩ := Option.map_eq_some_iff.mp hcell
  exact h.lt_size a old hold

theorem bounded_empty : Bounded {} := ⟨⟨0, rfl⟩, by decide, by simp⟩

end Memory

/-- An instruction makes a change that ends within the limit. -/
theorem memory_execute (program : Program) (ins : Instruction) (p : Path) (s : Supply) :
    ∃ c : Memory.Change, (execute program ins p s).path.memory = c.apply p.memory ∧
      ∀ x, c.access? = some x → x.offset + x.length ≤ Memory.limit := by
  obtain ⟨c, haccess, heffect⟩ := ins.exists_change program p s
  refine ⟨c, congrArg (·.path.memory) (heffect p.memory ⟨rfl, fun _ _ => rfl⟩), fun x hx => ?_⟩
  rcases haccess with hnone | hsome
  · cases hnone.symm.trans hx
  · exact Instruction.access?_le (hsome.symm.trans hx)

/-- **The paths after a step have the memory after its instruction**, or a copy of it if they were
forked. -/
theorem memory_of_mem_stepAt {program : Program} {limits : Limits} {space : StateSpace}
    {supply : Supply} {p q : Path} {ins : Instruction} {P : Memory → Prop}
    (hkept : P (execute program ins p supply).path.memory)
    (hcopied : ∀ f, P ((execute program ins p supply).path.memory.mapValues f))
    (hq : q ∈ (stepAt program limits space supply p ins).paths) : P q.memory := by
  have hsteps := steps_stepAt program limits space supply p ins
  refine hsteps.rule (Q := fun _ qs => ∀ q ∈ qs, P q.memory) ?_ ?_ ?_ q hq
  · exact fun q hq => absurd hq List.not_mem_nil
  · intro _ q hq
    rw [List.mem_singleton.mp hq]
    exact hkept
  · intro r target kind s₁ s₂ ps rs hout henters hps q hq
    rcases List.mem_append.mp hq with hq | hq
    · rw [henters.mem hq]
      cases hout with
      | jump | knownFalse | knownTrue | taken => exact hkept
      | fallen => exact hcopied _
    · exact hps q hq

section

variable {program : Program} {limits : Limits} {space : StateSpace} {supply : Supply} {p q : Path}
  {ins : Instruction}

theorem size_le_of_mem_stepAt (hq : q ∈ (stepAt program limits space supply p ins).paths) :
    p.memory.size ≤ q.memory.size := by
  obtain ⟨c, hmemory, -⟩ := memory_execute program ins p supply
  have hle : p.memory.size ≤ (execute program ins p supply).path.memory.size := by
    rw [hmemory]
    exact c.size_le_apply p.memory
  exact memory_of_mem_stepAt (P := fun m => p.memory.size ≤ m.size) hle (fun _ => hle) hq

theorem bounded_of_mem_stepAt (hp : p.memory.Bounded)
    (hq : q ∈ (stepAt program limits space supply p ins).paths) : q.memory.Bounded := by
  obtain ⟨c, hmemory, hend⟩ := memory_execute program ins p supply
  have hbounded : (execute program ins p supply).path.memory.Bounded := by
    rw [hmemory]
    exact hp.apply hend
  exact memory_of_mem_stepAt hbounded hbounded.mapValues hq

end

/-! ### All moments -/

namespace Setting

variable {σ : Type}

/-- How a path goes on from one moment to a later one: it waits while another path takes its turn,
or it takes a step and goes on as one of the paths that this leads to. -/
inductive Continues (x : Setting σ) (m : Moment σ) (p : Path) : Moment σ → Path → Prop
  | here (live : p ∈ m.progress.paths) : Continues x m p m p
  | waits {m' m'' : Moment σ} {q : Path} {t : Path × List Frame} {rest : List (Path × List Frame)}
      (before : Continues x m p m' q) (tracks : m'.tracks = t :: rest)
      (waiting : q ∈ rest.map Prod.fst) (next : x.next? m' = some m'') : Continues x m p m'' q
  | steps {m' m'' : Moment σ} {q r : Path} {past : List Frame} {rest : List (Path × List Frame)}
      {ins : Instruction} (before : Continues x m p m' q) (tracks : m'.tracks = (q, past) :: rest)
      (at_ins : x.program.at? q.pc = some ins) (fits : fitsStack ins.opcode q.stack = true)
      (next : x.next? m' = some m'')
      (goes : r ∈ (stepAt x.program x.limits m'.space m'.supply q ins).paths) :
      Continues x m p m'' r

/-- **The memory of a path never shrinks.** -/
theorem Continues.size_le {x : Setting σ} {m m' : Moment σ} {p q : Path}
    (h : x.Continues m p m' q) : p.memory.size ≤ q.memory.size := by
  induction h with
  | here => exact Nat.le_refl _
  | waits _ _ _ _ ih => exact ih
  | steps _ _ _ _ _ goes ih => exact Nat.le_trans ih (size_le_of_mem_stepAt goes)

end Setting

namespace Explorer

variable {σ : Type} {x : Explorer} {observer : Observer σ} {watch : σ × Ledger} {target : Target}
  {code : Bytes} {m : Moment σ}

/-- **Memory is bounded at all moments.** -/
theorem Visits.bounded (h : x.Visits observer watch target code m) :
    ∀ p ∈ m.progress.paths, p.memory.Bounded := by
  refine h.transaction_rule (I := fun m => ∀ p ∈ m.progress.paths, p.memory.Bounded) ?_ ?_
  · intro entry space supply w _ p hp
    rw [List.mem_singleton.mp hp]
    exact Memory.bounded_empty
  · intro m m' _ hnext hm q hq
    obtain ⟨hstep, -⟩ := Setting.next_of_next? hnext
    -- a path waits, or comes from the step of the first one
    have hwaiting {t : Path × List Frame} {rest : List (Path × List Frame)}
        (htracks : m.tracks = t :: rest) (hq : q ∈ rest.map Prod.fst) : q.memory.Bounded := by
      refine hm q ?_
      rw [Moment.progress, htracks]
      exact List.mem_cons_of_mem _ hq
    cases hstep with
    | ended tracks _ => exact hwaiting tracks hq
    | unfit tracks _ _ => exact hwaiting tracks hq
    | @step p past rest ins w tracks at_ins fits play =>
      rw [Moment.progress_stepped] at hq
      rcases List.mem_append.mp hq with hq | hq
      · refine bounded_of_mem_stepAt (hm p ?_) hq
        rw [Moment.progress, tracks]
        exact List.mem_cons_self
      · exact hwaiting tracks hq

/-- **Memory stays within its limit, and so do the addresses in it.** At every moment the memory of
each path is in whole words, it has at most `2 ^ 20` bytes, and all that was written is within it.
Its size never decreases while the path goes on. Whatever is on the stack, all addresses that an
instruction computes are below `2 ^ 20 + 64`, and it works at these addresses only. The same holds
of a search for roles. -/
theorem Visits.memory_bounded (h : x.Visits observer watch target code m) {p : Path}
    (hp : p ∈ m.progress.paths) :
    p.memory.Bounded ∧
    (∀ m' q, (x.setting observer code).Continues m p m' q → p.memory.size ≤ q.memory.size) ∧
    (∀ ins : Instruction, (∀ a ∈ ins.memoryAddresses p, a < 2 ^ 20 + 64) ∧
      ∀ s, ins.WorksAt (.ofCode code) p s (ins.memoryAddresses p)) ∧
    ∀ e, (∀ a ∈ Roles.searchAddresses e, a < 2 ^ 20 + 64) ∧
      ∀ m' memo l, e.state.memory.AgreeAt (Roles.searchAddresses e) m' →
        Roles.matchMemory (e.withMemory m') (memo, l) = Roles.matchMemory e (memo, l) :=
  ⟨h.bounded p hp, fun _ _ hcontinues => hcontinues.size_le,
    fun ins => ⟨fun _ => Instruction.lt_of_mem_memoryAddresses,
      fun s => ins.worksAt_memoryAddresses _ p s⟩,
    fun _ => ⟨fun _ => Roles.lt_of_mem_searchAddresses,
      fun _ memo l hm => Roles.matchMemory_agreeAt hm memo l⟩⟩

/-- Code that writes the last word within the limit. -/
def fillingCode : Bytes := [0x5f, 0x62, 0x0f, 0xff, 0xe0, 0x52, 0x5f]

/-- An observer that does nothing. -/
def idleObserver : Observer Unit := ⟨fun _ _ => pure ()⟩

/-- An explorer that nobody subscribed to. -/
def idleExplorer : Explorer where
  limits := ⟨60, 10, 3⟩

/-- All of memory is in use after the last word was written. -/
theorem Visits.memory_bounded_full : ∃ m p,
    idleExplorer.Visits idleObserver ((), {}) (.deployed ⟨0⟩ fillingCode) fillingCode m ∧
    p ∈ m.progress.paths ∧ p.memory.size = 2 ^ 20 ∧ p.memory.Bounded := by
  have hrun : ((idleExplorer.setting idleObserver fillingCode).after? 3
      (idleExplorer.start ((), {}) fallbackName)).any (fun m =>
        m.progress.paths.any fun p => p.memory.size = 2 ^ 20) = true := by decide +kernel
  obtain ⟨m, hm, hpaths⟩ := (Option.any_eq_true _ _).mp hrun
  obtain ⟨p, hp, hsize⟩ := List.any_eq_true.mp hpaths
  have hvisits : idleExplorer.Visits idleObserver ((), {}) (.deployed ⟨0⟩ fillingCode) fillingCode
      m := .deployed (Setting.visits_of_after? hm)
  exact ⟨m, p, hvisits, hp, of_decide_eq_true hsize, (hvisits.memory_bounded hp).1⟩

end Explorer

end GuardFinder

import GuardFinder.Proofs.Openings
import GuardFinder.Proofs.Simulation

/-!
# Code and data

Whether a byte of the code is an opcode or data of a push instruction is decided by a scan from left
to right. The look-up by address and the jump destinations agree with that scan, and explorations
never run data as code: a path stands at an opcode, or past the end of the code.

* `Scans`: the addresses that the scan comes to. `InPushData`: the bytes that it skips.
* `Scans.next_le`: the scan comes to no byte that it skips.
* `Program.isSome_at?_iff`, `Program.isJumpDest_iff`: where instructions start and where jumps may
  go, said of the scan.
* `Progress.isBoundary_of_reaches`: **paths stay on boundaries**.
* `Explorer.explore_on_boundaries`: so do all paths of all explorations.
-/

namespace GuardFinder

/-! ### The scan -/

/-- The addresses that a scan of the code comes to: the first byte, and from each opcode the byte
behind its data. -/
inductive Scans (code : Bytes) : Nat → Prop
  | start : Scans code 0
  | next {address : Nat} {byte : UInt8} (before : Scans code address)
      (opcode : code[address]? = some byte) :
      Scans code (address + 1 + Opcode.pushSize ⟨byte⟩)

/-- The address is one of those of the data of an instruction. -/
def InPushData (code : Bytes) (address : Nat) : Prop :=
  ∃ start byte, Scans code start ∧ code[start]? = some byte ∧
    start < address ∧ address < start + 1 + Opcode.pushSize ⟨byte⟩

variable {code : Bytes}

/-- The scan goes from an opcode to the byte behind its data at once. -/
theorem Scans.next_le {start later : Nat} {byte : UInt8} (hlater : Scans code later)
    (hstart : Scans code start) (hbyte : code[start]? = some byte) (hlt : start < later) :
    start + 1 + Opcode.pushSize ⟨byte⟩ ≤ later := by
  induction later using Nat.strongRecOn generalizing start byte with
  | ind later ih =>
    cases hlater with
    | start => exact absurd hlt (Nat.not_lt_zero start)
    | @next before byte' hbefore hbyte' =>
      rcases Nat.lt_trichotomy start before with hless | rfl | hmore
      · have := ih before (by omega) hbefore hstart hbyte hless
        omega
      · obtain rfl := Option.some.inj (hbyte.symm.trans hbyte')
        exact Nat.le_refl _
      · -- The scan would have skipped `start`.
        have := ih start hlt hstart hbefore hbyte' hmore
        omega

/-- **The scan comes to no data.** -/
theorem Scans.not_inPushData {address : Nat} (h : Scans code address) :
    ¬InPushData code address := by
  rintro ⟨start, byte, hstart, hbyte, hlt, hend⟩
  have := h.next_le hstart hbyte hlt
  omega

/-- What the layout of the rest of a code says about its bytes, if the scan comes to the byte behind
the next `skip` ones and these are data. -/
theorem scans_or_inPushData (address skip i : Nat) {rest : Bytes} {cell : Option Instruction}
    (hrest : code.drop address = rest) (hscan : Scans code (address + skip))
    (hdata : ∀ j < skip, InPushData code (address + j))
    (hcell : (layoutFrom address skip rest)[i]? = some cell) :
    (cell.isSome = true → Scans code (address + i)) ∧
      (cell.isNone = true → InPushData code (address + i)) := by
  induction rest generalizing address skip i with
  | nil => simp [layoutFrom] at hcell
  | cons byte rest ih =>
    have hbyte : code[address]? = some byte := by
      rw [← Nat.add_zero address, ← List.getElem?_drop, hrest, List.getElem?_cons_zero]
    have hrest' : code.drop (address + 1) = rest := by
      rw [← List.drop_drop, hrest, List.drop_succ_cons, List.drop_zero]
    cases skip with
    | succ skip =>
      cases i with
      | zero =>
        obtain rfl : none = cell := by simpa [layoutFrom] using hcell
        exact ⟨by simp, fun _ => hdata 0 (Nat.succ_pos skip)⟩
      | succ i =>
        have hlater := ih (address + 1) skip i hrest' (by rwa [Nat.add_assoc, Nat.add_comm 1])
          (fun j hj => by
            have := hdata (j + 1) (Nat.succ_lt_succ hj)
            rwa [Nat.add_assoc, Nat.add_comm 1])
          (by simpa [layoutFrom] using hcell)
        rwa [Nat.add_assoc, Nat.add_comm 1] at hlater
    | zero =>
      cases i with
      | zero =>
        obtain rfl : some (Instruction.decode address ⟨byte⟩ rest) = cell := by
          simpa [layoutFrom] using hcell
        exact ⟨fun _ => hscan, by simp⟩
      | succ i =>
        have hlater := ih (address + 1) (Opcode.pushSize ⟨byte⟩) i hrest' (.next hscan hbyte)
          (fun j hj => ⟨address, byte, hscan, hbyte, by omega, by omega⟩) hcell
        rwa [Nat.add_assoc, Nat.add_comm 1] at hlater

namespace Program

/-- A byte of the code is an opcode that the scan comes to, or data. -/
theorem scans_or_inPushData_of_layout {address : Nat} {cell : Option Instruction}
    (h : (layoutFrom 0 0 code)[address]? = some cell) :
    (cell.isSome = true → Scans code address) ∧
      (cell.isNone = true → InPushData code address) := by
  have hall := scans_or_inPushData 0 0 address List.drop_zero .start
    (fun j hj => absurd hj (Nat.not_lt_zero j)) h
  rwa [Nat.zero_add] at hall

/-- **Instructions start at the bytes of the code that are not data.** -/
theorem isSome_at?_iff {address : Nat} :
    ((ofCode code).at? address).isSome = true ↔
      address < code.length ∧ ¬InPushData code address := by
  constructor
  · intro h
    obtain ⟨ins, hins⟩ := Option.isSome_iff_exists.mp h
    exact ⟨lt_length_of_at? hins,
      ((scans_or_inPushData_of_layout (at?_eq_some_iff.mp hins)).1 rfl).not_inPushData⟩
  · rintro ⟨hlt, hdata⟩
    rw [← length_layoutFrom 0 0] at hlt
    have hcell := List.getElem?_eq_getElem hlt
    cases hget : (layoutFrom 0 0 code)[address] with
    | none =>
      rw [hget] at hcell
      exact absurd ((scans_or_inPushData_of_layout hcell).2 rfl) hdata
    | some ins =>
      rw [hget] at hcell
      exact Option.isSome_iff_exists.mpr ⟨ins, at?_eq_some_iff.mpr hcell⟩

/-- The opcode of the instruction at an address is the byte there. -/
theorem byte_of_at? {address : Nat} {ins : Instruction}
    (h : (ofCode code).at? address = some ins) : code[address]? = some ins.opcode.byte := by
  obtain ⟨byte, hbyte, rfl⟩ := decode_of_getElem?_layoutFrom (at?_eq_some_iff.mp h)
  exact hbyte

/-- **Jumps may go to the `JUMPDEST` bytes that are not data.** -/
theorem isJumpDest_iff {address : Nat} :
    (ofCode code).isJumpDest address = true ↔
      address < code.length ∧ code[address]? = some 0x5b ∧ ¬InPushData code address := by
  constructor
  · intro h
    unfold isJumpDest at h
    split at h
    · next ins hins =>
      obtain ⟨hlt, hdata⟩ := isSome_at?_iff.mp (Option.isSome_iff_exists.mpr ⟨ins, hins⟩)
      rw [byte_of_at? hins, of_decide_eq_true h]
      exact ⟨hlt, rfl, hdata⟩
    · cases h
  · rintro ⟨hlt, hbyte, hdata⟩
    obtain ⟨ins, hins⟩ := Option.isSome_iff_exists.mp (isSome_at?_iff.mpr ⟨hlt, hdata⟩)
    have hop : ins.opcode = .jumpDest :=
      congrArg Opcode.mk (Option.some.inj ((byte_of_at? hins).symm.trans hbyte))
    rw [isJumpDest, hins]
    exact decide_eq_true hop

/-- On a boundary an instruction is missing just if the code has ended. -/
theorem IsBoundary.at?_eq_none_iff {p : Program} {address : Nat} (h : p.IsBoundary address) :
    p.at? address = none ↔ p.code.length ≤ address := by
  constructor
  · intro hnone
    rcases h with hend | ⟨ins, hins⟩
    · exact hend
    · cases hnone.symm.trans hins
  · intro hend
    cases hat : p.at? address with
    | none => rfl
    | some ins => exact absurd (lt_length_of_at? hat) (Nat.not_lt_of_le hend)

end Program

/-! ### Explorations -/

namespace Progress

variable {program : Program} {limits : Limits} {g g' : Progress}

theorem isBoundary_of_advance (h : Advance program limits g g')
    (hg : ∀ p ∈ g.paths, program.IsBoundary p.pc) : ∀ p ∈ g'.paths, program.IsBoundary p.pc := by
  intro q hq
  cases h with
  | ended | unfit => exact hg q (List.mem_cons_of_mem _ hq)
  | step at_ins fits steps =>
    rcases List.mem_append.mp hq with hq | hq
    · exact steps.boundary at_ins q hq
    · exact hg q (List.mem_cons_of_mem _ hq)

/-- **Paths stay on boundaries.** -/
theorem isBoundary_of_reaches {entry : String} {space : StateSpace} {supply : Supply}
    (h : Reaches program limits (begin entry space supply) g) :
    ∀ p ∈ g.paths, program.IsBoundary p.pc := by
  induction h with
  | refl =>
    intro p hp
    obtain rfl := List.mem_singleton.mp hp
    exact program.isBoundary_zero
  | tail _ hadvance ih => exact isBoundary_of_advance hadvance ih

end Progress

namespace Explorer

variable {σ : Type}

/-- The paths of a transaction: those that it has at one of its moments, and those that are left if
it is stopped. -/
def HasPath (x : Explorer) (observer : Observer σ) (o : Opening σ) (p : Path) : Prop :=
  (∃ m, (x.setting observer o.code).Visits o.start m ∧ p ∈ m.progress.paths) ∨
    p ∈ (x.run observer o).progress.paths

theorem HasPath.reaches {x : Explorer} {observer : Observer σ} {o : Opening σ} {p : Path}
    (h : x.HasPath observer o p) :
    ∃ g, Progress.Reaches (.ofCode o.code) x.limits (.begin o.entry o.space o.supply) g ∧
      p ∈ g.paths := by
  rcases h with ⟨m, hvisits, hp⟩ | hp
  · exact ⟨m.progress, Setting.reaches_of_visits hvisits, hp⟩
  · obtain ⟨g, hreaches, ⟨hend, -⟩ | hend⟩ := runPaths_reaches (x.setting observer o.code)
      (.begin o.entry o.space o.supply) o.watch
    · rw [show (x.run observer o).progress = g from hend] at hp
      exact ⟨g, hreaches, hp⟩
    · rw [show (x.run observer o).progress = g.cutShort from hend] at hp
      exact ⟨g, hreaches, hp⟩

/-- **Explorations never run data as code.** For all code, jumps may go to just those `JUMPDEST`
bytes that are not data, and instructions start at just those bytes that are not data. So every path
of every exploration stands where an instruction starts or past the end of the code, and where it
finds no instruction the code has ended. -/
theorem explore_on_boundaries (x : Explorer) (observer : Observer σ) (target : Target)
    (watch : σ × Ledger) :
    (∀ (code : Bytes) (address : Nat),
      ((Program.ofCode code).isJumpDest address = true ↔
        address < code.length ∧ code[address]? = some 0x5b ∧ ¬InPushData code address) ∧
      (((Program.ofCode code).at? address).isSome = true ↔
        address < code.length ∧ ¬InPushData code address)) ∧
    ∀ o ∈ x.openings observer target watch, ∀ p, x.HasPath observer o p →
      (Program.ofCode o.code).IsBoundary p.pc ∧
      ((Program.ofCode o.code).at? p.pc = none ↔ o.code.length ≤ p.pc) := by
  refine ⟨fun code address => ⟨Program.isJumpDest_iff, Program.isSome_at?_iff⟩,
    fun o _ p hp => ?_⟩
  obtain ⟨g, hreaches, hmem⟩ := hp.reaches
  have hboundary := Progress.isBoundary_of_reaches hreaches p hmem
  exact ⟨hboundary, hboundary.at?_eq_none_iff⟩

/-- Code that jumps over a `JUMPDEST` byte, which is data, and ends within the data of an
instruction. -/
def skippingCode : Bytes := [0x60, 0x05, 0x56, 0x60, 0x5b, 0x5b, 0x61, 0x12]

/-- An explorer that tells of the last instruction of that code after it. -/
def stoppedExplorer : Explorer where
  limits := ⟨60, 10, 3⟩
  hooks := [⟨.post, ⟨0x61⟩, 0⟩]

/-- The observer fails when it is told of the last instruction. The path is past the end of the code
then, by more than one byte. -/
theorem explore_on_boundaries_stopped :
    ∃ o ∈ stoppedExplorer.openings stoppingObserver (.deployed ⟨0⟩ skippingCode) ((), {}),
      ∃ p, stoppedExplorer.HasPath stoppingObserver o p ∧ p.pc = 9 ∧ o.code.length = 8 ∧
        (Program.ofCode o.code).IsBoundary p.pc ∧ (Program.ofCode o.code).at? p.pc = none ∧
        o.code[4]? = some 0x5b ∧ InPushData o.code 4 := by
  have hleft : (stoppedExplorer.run stoppingObserver (stoppedExplorer.opening
      (.deployed ⟨0⟩ skippingCode) ((), {}))).progress.paths.map Path.pc = [9] := by
    decide +kernel
  obtain ⟨p, hp, hpc⟩ := List.mem_map.mp (hleft ▸ List.mem_singleton_self 9)
  obtain ⟨hiff, hpaths⟩ := explore_on_boundaries stoppedExplorer stoppingObserver
    (.deployed ⟨0⟩ skippingCode) ((), {})
  obtain ⟨hboundary, hnone⟩ := hpaths _ List.mem_cons_self p (.inr hp)
  refine ⟨_, List.mem_cons_self, p, .inr hp, hpc, rfl, hboundary, hnone.mpr ?_, rfl, ?_⟩
  · rw [hpc]
    decide
  · -- No instruction starts at the byte, although the code has it.
    have hlookup : ((Program.ofCode skippingCode).at? 4).isSome = false := by decide +kernel
    exact Classical.byContradiction fun hdata =>
      Bool.false_ne_true (hlookup.symm.trans ((hiff skippingCode 4).2.mpr ⟨by decide, hdata⟩))

end Explorer

end GuardFinder

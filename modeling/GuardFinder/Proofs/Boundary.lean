import GuardFinder.Proofs.Evm

/-!
# Instruction boundaries

The layout of a program tells where instructions start. A run that starts at the first byte and goes
from instruction to instruction, or to a jump destination, always stands at such a place or past the
end of the code, so what it executes can be read from the bytes alone.

* `Program.IsBoundary`: the addresses where an instruction starts, and those past the end.
* `Program.isBoundary_nextAddress`, `Program.isBoundary_of_isJumpDest`: runs stay on boundaries.
* `Program.fetch_eq_at?`: **on a boundary the layout has the instruction that the bytes spell**.
-/

namespace GuardFinder

/-! ### Layouts -/

theorem decode_of_getElem?_layoutFrom {address skip i : Nat} {code : Bytes} {ins : Instruction}
    (h : (layoutFrom address skip code)[i]? = some (some ins)) :
    ∃ byte, code[i]? = some byte ∧ ins = .decode (address + i) ⟨byte⟩ (code.drop (i + 1)) := by
  induction code generalizing address skip i with
  | nil => simp [layoutFrom] at h
  | cons byte rest ih =>
    cases skip with
    | succ skip =>
      cases i with
      | zero => simp [layoutFrom] at h
      | succ i =>
        obtain ⟨b, hb, rfl⟩ := ih (by simpa [layoutFrom] using h)
        exact ⟨b, hb, by rw [show address + 1 + i = address + (i + 1) by omega]; rfl⟩
    | zero =>
      cases i with
      | zero =>
        simp only [layoutFrom, List.getElem?_cons_zero, Option.some.injEq] at h
        exact ⟨byte, rfl, h.symm⟩
      | succ i =>
        obtain ⟨b, hb, rfl⟩ := ih (by simpa [layoutFrom] using h)
        exact ⟨b, hb, by rw [show address + 1 + i = address + (i + 1) by omega]; rfl⟩

/-- After the bytes to be skipped an instruction starts, unless the code ends there. -/
theorem getElem?_layoutFrom_skip (address skip : Nat) (code : Bytes) :
    (layoutFrom address skip code)[skip]? ≠ some none := by
  induction code generalizing address skip with
  | nil => simp [layoutFrom]
  | cons byte rest ih =>
    cases skip with
    | zero => simp [layoutFrom]
    | succ skip => simpa [layoutFrom] using ih (address + 1) skip

/-- After an instruction and its data an instruction starts, unless the code ends there. -/
theorem getElem?_layoutFrom_next {address skip i : Nat} {code : Bytes} {ins : Instruction}
    (h : (layoutFrom address skip code)[i]? = some (some ins)) :
    (layoutFrom address skip code)[i + 1 + ins.opcode.pushSize]? ≠ some none := by
  induction code generalizing address skip i with
  | nil => simp [layoutFrom] at h
  | cons byte rest ih =>
    cases skip with
    | succ skip =>
      cases i with
      | zero => simp [layoutFrom] at h
      | succ i =>
        have hrest : (layoutFrom (address + 1) skip rest)[i]? = some (some ins) := by
          simpa [layoutFrom] using h
        have := ih hrest
        rw [show i + 1 + 1 + ins.opcode.pushSize = (i + 1 + ins.opcode.pushSize) + 1 by omega]
        simpa [layoutFrom] using this
    | zero =>
      cases i with
      | zero =>
        simp only [layoutFrom, List.getElem?_cons_zero, Option.some.injEq] at h
        rw [layoutFrom, h, show 0 + 1 + ins.opcode.pushSize = ins.opcode.pushSize + 1 by omega,
          List.getElem?_cons_succ]
        exact getElem?_layoutFrom_skip _ _ _
      | succ i =>
        have hrest : (layoutFrom (address + 1)
            (Instruction.decode address ⟨byte⟩ rest).opcode.pushSize rest)[i]? =
              some (some ins) := by
          simpa [layoutFrom] using h
        have := ih hrest
        rw [show i + 1 + 1 + ins.opcode.pushSize = (i + 1 + ins.opcode.pushSize) + 1 by omega]
        simpa [layoutFrom] using this

/-! ### Boundaries -/

namespace Program

/-- An instruction starts at the address, or the code ends before it. -/
def IsBoundary (p : Program) (address : Nat) : Prop :=
  p.code.length ≤ address ∨ ∃ ins, p.at? address = some ins

theorem at?_eq_some_iff {p : Program} {address : Nat} {ins : Instruction} :
    p.at? address = some ins ↔ (layoutFrom 0 0 p.code)[address]? = some (some ins) := by
  rw [at?, Option.join_eq_some_iff, p.layout_eq, List.getElem?_toArray]

theorem isBoundary_of_getElem? {p : Program} {address : Nat}
    (h : (layoutFrom 0 0 p.code)[address]? ≠ some none) : p.IsBoundary address := by
  rcases hcell : (layoutFrom 0 0 p.code)[address]? with _ | _ | ins
  · left
    rw [List.getElem?_eq_none_iff, length_layoutFrom] at hcell
    exact hcell
  · exact absurd hcell h
  · exact .inr ⟨ins, at?_eq_some_iff.mpr hcell⟩

theorem isBoundary_zero (p : Program) : p.IsBoundary 0 :=
  isBoundary_of_getElem? (getElem?_layoutFrom_skip 0 0 p.code)

/-- A run stays on boundaries when it goes on to the next instruction. -/
theorem isBoundary_nextAddress {p : Program} {address : Nat} {ins : Instruction}
    (h : p.at? address = some ins) : p.IsBoundary ins.nextAddress := by
  have hnext := getElem?_layoutFrom_next (at?_eq_some_iff.mp h)
  rw [Instruction.nextAddress, address_of_at? h]
  exact isBoundary_of_getElem? hnext

/-- A run stays on boundaries when it jumps. -/
theorem isBoundary_of_isJumpDest {p : Program} {address : Nat} (h : p.isJumpDest address = true) :
    p.IsBoundary address := by
  unfold isJumpDest at h
  split at h
  · next ins hins => exact .inr ⟨ins, hins⟩
  · exact absurd h (by decide)

/-- **On a boundary the layout has the instruction that the bytes spell**, and it has none only past
the end of the code. -/
theorem fetch_eq_at? {p : Program} {address : Nat} (h : p.IsBoundary address) :
    Evm.fetch p.code address = p.at? address := by
  rcases h with hend | ⟨ins, hins⟩
  · have hnone : p.at? address = none := by
      cases hat : p.at? address with
      | none => rfl
      | some ins =>
        have := lt_length_of_at? hat
        omega
    rw [hnone, Evm.fetch, List.getElem?_eq_none hend, Option.map_none]
  · obtain ⟨byte, hbyte, rfl⟩ := decode_of_getElem?_layoutFrom (at?_eq_some_iff.mp hins)
    rw [hins, Evm.fetch, hbyte, Option.map_some, Nat.zero_add]

end Program

end GuardFinder

import GuardFinder.Program
import GuardFinder.Proofs.Bytes
import Mathlib.Data.List.Chain

/-!
# Writing instructions back

The instructions of a code follow each other without a gap, and together they have all its bytes. So
code can be written back from them. Only the data of the last instruction may reach beyond the end of
the code, and what is missing there is written as zeros.

* `Instruction.bytes`, `assemble`: instructions as bytes.
* `Instruction.data_decode`, `Instruction.decode_data`: the data of a decoded instruction, and that
  it is all that decoding looks at.
* `instructionsFrom`: the instructions of a stretch of code. `instructionsFrom_cons`: they are the
  first one and those behind its data. `codeRec` is the induction that follows from it.
* `Program.assemble_instructions`: **nothing is lost when code is taken apart**.
-/

namespace GuardFinder

/-! ### One instruction -/

theorem Opcode.pushSize_le (op : Opcode) : op.pushSize ≤ 32 := by
  unfold pushSize
  dsimp only
  split <;> omega

namespace Instruction

/-- The immediate data of an instruction: its argument, in as many bytes as belong to the opcode. -/
def data (ins : Instruction) : Bytes :=
  (Word.toBytes (ins.argument.getD 0)).drop (32 - ins.opcode.pushSize)

/-- The opcode of an instruction and its immediate data. -/
def bytes (ins : Instruction) : Bytes := ins.opcode.byte :: ins.data

@[simp] theorem length_data (ins : Instruction) : ins.data.length = ins.opcode.pushSize := by
  have := ins.opcode.pushSize_le
  rw [data, List.length_drop, Word.length_toBytes]
  omega

variable (address : Nat) (op : Opcode) (rest : Bytes)

@[simp] theorem opcode_decode : (decode address op rest).opcode = op := rfl

@[simp] theorem nextAddress_decode :
    (decode address op rest).nextAddress = address + 1 + op.pushSize := rfl

/-- The argument of an instruction with data is made of the bytes behind the opcode, filled up with
zeros. -/
theorem argument_decode (h : op.pushSize ≠ 0) :
    (decode address op rest).argument =
      some (Word.ofBytes (rest.take op.pushSize ++
        List.replicate (op.pushSize - rest.length) 0)) := by
  have hpush0 : op ≠ .push0 := by
    rintro rfl
    exact h rfl
  have hmissing : op.pushSize - (rest.take op.pushSize).length = op.pushSize - rest.length := by
    rw [List.length_take]
    omega
  simp only [decode, if_neg hpush0, if_neg h, immediate, hmissing]

/-- **The data of an instruction are the bytes behind the opcode**, and zeros where the code ends
before. -/
theorem data_decode :
    (decode address op rest).data =
      rest.take op.pushSize ++ List.replicate (op.pushSize - rest.length) 0 := by
  have hlength : (rest.take op.pushSize ++
      List.replicate (op.pushSize - rest.length) (0 : UInt8)).length = op.pushSize := by
    rw [List.length_append, List.length_take, List.length_replicate]
    omega
  have hle := op.pushSize_le
  by_cases h : op.pushSize = 0
  · refine (List.length_eq_zero_iff.mp ?_).trans (List.length_eq_zero_iff.mp ?_).symm
    · rw [length_data, opcode_decode, h]
    · rw [hlength, h]
  · have hbytes := Word.toBytes_ofBytes (hlength.trans_le hle)
    rw [hlength] at hbytes
    rw [data, opcode_decode, argument_decode address op rest h, Option.getD_some, hbytes]
    exact List.drop_left' List.length_replicate

/-- Decoding looks at nothing behind the data. -/
theorem decode_data (more : Bytes) :
    decode address op ((decode address op rest).data ++ more) = decode address op rest := by
  have hsize := length_data (decode address op rest)
  rw [opcode_decode] at hsize
  by_cases h : op.pushSize = 0
  · simp only [decode, if_pos h]
  · -- The data are complete, so that nothing is filled up when they are decoded again.
    have hargument : (decode address op ((decode address op rest).data ++ more)).argument =
        (decode address op rest).argument := by
      rw [argument_decode address op _ h, List.take_left' hsize, List.length_append, hsize,
        Nat.sub_eq_zero_of_le (Nat.le_add_right _ _), List.replicate_zero, List.append_nil,
        data_decode, argument_decode address op _ h]
    exact congrArg (mk address op) hargument

end Instruction

/-! ### Stretches of code -/

/-- The instructions of a stretch of code that starts at `address`, with an instruction. -/
def instructionsFrom (address : Nat) (code : Bytes) : List Instruction :=
  (layoutFrom address 0 code).filterMap id

theorem instructions_ofCode (code : Bytes) :
    (Program.ofCode code).instructions = instructionsFrom 0 code := rfl

@[simp] theorem instructionsFrom_nil (address : Nat) : instructionsFrom address [] = [] := rfl

/-- No instruction starts in data. -/
theorem filterMap_layoutFrom (address skip : Nat) (code : Bytes) :
    (layoutFrom address skip code).filterMap id =
      instructionsFrom (address + skip) (code.drop skip) := by
  induction skip generalizing address code with
  | zero => rfl
  | succ skip ih =>
    cases code with
    | nil => rfl
    | cons byte rest =>
      rw [layoutFrom, List.filterMap_cons_none rfl, ih, List.drop_succ_cons,
        show address + 1 + skip = address + (skip + 1) by omega]

/-- **The instructions of a code are the first one and those behind its data.** -/
theorem instructionsFrom_cons (address : Nat) (byte : UInt8) (rest : Bytes) :
    instructionsFrom address (byte :: rest) =
      .decode address ⟨byte⟩ rest ::
        instructionsFrom (address + 1 + Opcode.pushSize ⟨byte⟩)
          (rest.drop (Opcode.pushSize ⟨byte⟩)) := by
  rw [instructionsFrom, layoutFrom]
  exact congrArg (_ :: ·) (filterMap_layoutFrom _ _ _)

/-- What holds of no code, and of code if it holds of what is behind its first instruction, holds of
all code. -/
@[elab_as_elim]
theorem codeRec {motive : Nat → Bytes → Prop} (nil : ∀ address, motive address [])
    (cons : ∀ address byte rest, motive (address + 1 + Opcode.pushSize ⟨byte⟩)
      (rest.drop (Opcode.pushSize ⟨byte⟩)) → motive address (byte :: rest))
    (address : Nat) (code : Bytes) : motive address code := by
  induction hlength : code.length using Nat.strongRecOn generalizing address code with
  | ind length ih =>
    cases code with
    | nil => exact nil address
    | cons byte rest =>
      rw [List.length_cons] at hlength
      refine cons address byte rest (ih _ ?_ _ _ rfl)
      rw [List.length_drop]
      omega

theorem instructionsFrom_eq_nil_iff {address : Nat} {code : Bytes} :
    instructionsFrom address code = [] ↔ code = [] := by
  cases code with
  | nil => simp
  | cons byte rest => simp [instructionsFrom_cons]

/-- The first instruction starts where the code starts. -/
theorem address_head?_instructionsFrom (address : Nat) (code : Bytes) :
    ∀ ins ∈ (instructionsFrom address code).head?, ins.address = address := by
  cases code with
  | nil => simp
  | cons byte rest =>
    rintro ins hins
    rw [instructionsFrom_cons] at hins
    obtain rfl := Option.some.inj hins
    rfl

/-- An instruction starts behind the data of the one before it. -/
theorem isChain_instructionsFrom (address : Nat) (code : Bytes) :
    (instructionsFrom address code).IsChain fun ins next => next.address = ins.nextAddress := by
  induction address, code using codeRec with
  | nil address => exact .nil
  | cons address byte rest ih =>
    rw [instructionsFrom_cons, List.isChain_cons]
    exact ⟨address_head?_instructionsFrom _ _, ih⟩

/-- The last instruction starts in the code, and nothing of the code is behind it. -/
theorem address_getLast?_instructionsFrom (address : Nat) (code : Bytes) :
    ∀ ins ∈ (instructionsFrom address code).getLast?,
      ins.address < address + code.length ∧ address + code.length ≤ ins.nextAddress := by
  induction address, code using codeRec with
  | nil address => simp
  | cons address byte rest ih =>
    intro ins hins
    rw [instructionsFrom_cons, List.getLast?_cons] at hins
    rw [List.length_drop] at ih
    rw [List.length_cons]
    cases hlast : (instructionsFrom (address + 1 + Opcode.pushSize ⟨byte⟩)
        (rest.drop (Opcode.pushSize ⟨byte⟩))).getLast? with
    | none =>
      -- The first instruction is the last one, so its data reach to the end of the code.
      have hend : rest.length ≤ Opcode.pushSize ⟨byte⟩ :=
        List.drop_eq_nil_iff.mp (instructionsFrom_eq_nil_iff.mp (List.getLast?_eq_none_iff.mp hlast))
      rw [hlast, Option.getD_none] at hins
      obtain rfl := Option.some.inj hins
      rw [Instruction.nextAddress_decode]
      exact ⟨by simp only [Instruction.decode]; omega, by omega⟩
    | some last =>
      have hbefore : Opcode.pushSize ⟨byte⟩ < rest.length := by
        refine Nat.lt_of_not_le fun hend => ?_
        rw [List.drop_eq_nil_iff.mpr hend] at hlast
        cases hlast
      rw [hlast, Option.getD_some] at hins
      obtain rfl := Option.some.inj hins
      have := ih last hlast
      omega

/-! ### Writing back -/

/-- Instructions as bytes. -/
def assemble (instructions : List Instruction) : Bytes := instructions.flatMap Instruction.bytes

theorem assemble_instructionsFrom_cons (address : Nat) (byte : UInt8) (rest : Bytes) :
    assemble (instructionsFrom address (byte :: rest)) =
      byte :: ((Instruction.decode address ⟨byte⟩ rest).data ++
        assemble (instructionsFrom (address + 1 + Opcode.pushSize ⟨byte⟩)
          (rest.drop (Opcode.pushSize ⟨byte⟩)))) := by
  rw [instructionsFrom_cons, assemble, List.flatMap_cons]
  rfl

/-- **The instructions of a code are its bytes**, followed by the zeros that its last instruction was
filled up with. -/
theorem assemble_instructionsFrom (address : Nat) (code : Bytes) :
    ∃ missing ≤ 32, assemble (instructionsFrom address code) =
      code ++ List.replicate missing 0 := by
  induction address, code using codeRec with
  | nil address => exact ⟨0, Nat.zero_le _, rfl⟩
  | cons address byte rest ih =>
    rw [assemble_instructionsFrom_cons, Instruction.data_decode]
    by_cases hend : rest.length ≤ Opcode.pushSize ⟨byte⟩
    · -- Nothing is behind the data.
      refine ⟨Opcode.pushSize ⟨byte⟩ - rest.length,
        Nat.le_trans (Nat.sub_le _ _) (Opcode.pushSize_le _), ?_⟩
      rw [List.drop_eq_nil_iff.mpr hend, List.take_of_length_le hend, instructionsFrom_nil]
      simp [assemble]
    · obtain ⟨missing, hmissing, hrest⟩ := ih
      refine ⟨missing, hmissing, ?_⟩
      rw [hrest, Nat.sub_eq_zero_of_le (Nat.le_of_not_le hend), List.replicate_zero,
        List.append_nil, ← List.append_assoc, List.take_append_drop, List.cons_append]

/-- **What was written back has the same instructions.** -/
theorem instructionsFrom_assemble (address : Nat) (code : Bytes) :
    instructionsFrom address (assemble (instructionsFrom address code)) =
      instructionsFrom address code := by
  induction address, code using codeRec with
  | nil address => rfl
  | cons address byte rest ih =>
    have hsize : (Instruction.decode address ⟨byte⟩ rest).data.length = Opcode.pushSize ⟨byte⟩ :=
      Instruction.length_data _
    rw [assemble_instructionsFrom_cons, instructionsFrom_cons, Instruction.decode_data,
      List.drop_left' hsize, ih, ← instructionsFrom_cons]

namespace Program

/-- **Nothing is lost when code is taken apart.** Code that is not empty has a first instruction, at
its first byte, and a last one, whose data may reach beyond the end of the code; in between each one
starts where the one before it ends. Written back, the instructions are the code and at most 32
zeros, and have the same instructions again. -/
theorem assemble_instructions (code : Bytes) :
    (code ≠ [] → ∃ first last,
      (ofCode code).instructions.head? = some first ∧ first.address = 0 ∧
      (ofCode code).instructions.getLast? = some last ∧
      last.address < code.length ∧ code.length ≤ last.nextAddress) ∧
    (ofCode code).instructions.IsChain (fun ins next => next.address = ins.nextAddress) ∧
    (∃ missing ≤ 32,
      assemble (ofCode code).instructions = code ++ List.replicate missing 0) ∧
    (ofCode (assemble (ofCode code).instructions)).instructions = (ofCode code).instructions := by
  simp only [instructions_ofCode]
  refine ⟨?_, isChain_instructionsFrom 0 code, assemble_instructionsFrom 0 code,
    instructionsFrom_assemble 0 code⟩
  intro hcode
  have hsome : instructionsFrom 0 code ≠ [] := fun h => hcode (instructionsFrom_eq_nil_iff.mp h)
  have hlast := address_getLast?_instructionsFrom 0 code _ (List.getLast?_eq_some_getLast hsome)
  rw [Nat.zero_add] at hlast
  exact ⟨_, _, List.head?_eq_some_head hsome,
    address_head?_instructionsFrom 0 code _ (List.head?_eq_some_head hsome),
    List.getLast?_eq_some_getLast hsome, hlast⟩

/-- The last of three instructions lacks one of its two bytes of data. -/
theorem assemble_instructions_truncated :
    ([0x60, 0x5b, 0x5b, 0x61, 0x12] : Bytes) ≠ [] ∧
      (∃ first last, (ofCode [0x60, 0x5b, 0x5b, 0x61, 0x12]).instructions.head? = some first ∧
        first.address = 0 ∧
        (ofCode [0x60, 0x5b, 0x5b, 0x61, 0x12]).instructions.getLast? = some last ∧
        last.address < 5 ∧ 5 ≤ last.nextAddress) ∧
      assemble (ofCode [0x60, 0x5b, 0x5b, 0x61, 0x12]).instructions =
        [0x60, 0x5b, 0x5b, 0x61, 0x12, 0x00] := by
  have hcode : ([0x60, 0x5b, 0x5b, 0x61, 0x12] : Bytes) ≠ [] := by decide
  exact ⟨hcode, (assemble_instructions _).1 hcode, by decide +kernel⟩

end Program

end GuardFinder

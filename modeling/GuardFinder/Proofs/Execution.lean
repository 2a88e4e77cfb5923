import GuardFinder.Proofs.Evm
import GuardFinder.Proofs.Tags

/-!
# Instructions on terms and on words

Under a valuation a path is a state of the machine on words. An instruction takes the path to what
the machine takes that state to, as long as the machine knows the instruction and the places that it
reads and writes are known: the offset in memory, and the number of the storage slot.

* `Path.under`: the state of the machine that a path is under a valuation.
* `Frame.inFragment`: the instructions for which the two can be compared.
* `execute_under`: **an instruction on terms is the instruction on words**.
-/

namespace GuardFinder

/-! ### Paths as states of the machine -/

/-- The state of the machine that a path is under a valuation. -/
def Path.under (ρ : Valuation) (p : Path) : Evm.State where
  pc := p.pc
  stack := p.stack.map (·.word.eval ρ)
  memory := p.memory.bytesUnder ρ
  storage := fun k => ((p.stored? (.const k)).map (·.word.eval ρ)).getD (ρ.storage k)

/-- What the machine executed where a path executed the instruction of a frame. -/
def Frame.under (ρ : Valuation) (f : Frame) : Evm.Executed where
  instruction := f.instruction
  stack := f.stack.map (·.word.eval ρ)

/-- Where the machine goes after an instruction of a code, if it goes on. -/
def Flow.under (ρ : Valuation) (code : Bytes) (ins : Instruction) : Flow → Option Nat
  | .next => some ins.nextAddress
  | .jump destination => Evm.jumpTarget? code (destination.word.eval ρ)
  | .branch destination condition =>
    if condition.word.eval ρ = 0 then some ins.nextAddress
    else Evm.jumpTarget? code (destination.word.eval ρ)
  | .halt _ => none

theorem under_start (ρ : Valuation) (name : String) (node : Nat) :
    (Path.start name node).under ρ = Evm.State.start ρ := by
  have hmemory : ({} : Memory).bytesUnder ρ = fun _ => 0 := by
    funext a
    simp [Memory.bytesUnder, Cell.byteUnder]
  simp [Path.under, Path.start, Evm.State.start, Path.stored?, Slots.get?, hmemory]

/-! ### The fragment -/

/-- The item on top of a frame's stack, when it is a constant. -/
def Frame.top? (f : Frame) : Option Word := f.stack.head?.bind Value.const?

/-- The machine knows the instruction, a memory range is known and ends within the first 2 ^ 20
bytes, and a storage slot is known. -/
def Frame.inFragment (f : Frame) : Bool :=
  match Evm.operation? f.instruction.opcode with
  | none => false
  | some .memoryLoad | some .memoryStore => f.top?.any (·.toNat + 32 ≤ 2 ^ 20)
  | some .memoryStoreByte => f.top?.any (·.toNat + 1 ≤ 2 ^ 20)
  | some .storageLoad | some .storageStore => f.top?.isSome
  | some _ => true

namespace Evm

/-- The kind of an operation. -/
def Operation.kind : Operation → Opcode.Kind
  | .push => .push
  | .dup n => .dup n
  | .swap n => .swap n
  | .pop | .jumpDest => .discard
  | .unary => .unary
  | .binary => .binary
  | .counter => .counter
  | .codeSize => .codeSize
  | .environment => .environment
  | .callDataLoad => .callDataLoad
  | .memoryLoad => .memoryLoad
  | .memoryStore => .memoryStore
  | .memoryStoreByte => .memoryStoreByte
  | .storageLoad => .storageLoad
  | .storageStore => .storageStore
  | .jump => .jump
  | .branch => .branch
  | .halt => .halt

/-- How many items an operation that goes on takes from the stack. -/
def Operation.pops : Operation → Nat
  | .push | .counter | .codeSize | .environment | .jumpDest | .halt => 0
  | .dup n => n
  | .swap n => n + 1
  | .pop | .unary | .callDataLoad | .memoryLoad | .storageLoad | .jump => 1
  | .binary | .memoryStore | .memoryStoreByte | .storageStore | .branch => 2

/-- The table of operations agrees with the tables of kinds and of stack items, byte by byte. -/
theorem kind_of_operation? {op : Opcode} {o : Operation} (h : operation? op = some o) :
    o = .halt ∧ op.isHalting = true ∨
      op.kind = o.kind ∧ op.pops = o.pops ∧ o ≠ .halt ∧ o ≠ .swap 0 :=
  Opcode.forall_of_bytes (P := fun op => ∀ o ∈ operation? op,
    o = .halt ∧ op.isHalting = true ∨
      op.kind = o.kind ∧ op.pops = o.pops ∧ o ≠ .halt ∧ o ≠ .swap 0)
    (by decide +kernel) op o h

theorem unary?_of_operation? {op : Opcode} (h : operation? op = some .unary) (x : Word) :
    ∃ v, unary? op x = some v := by
  have hop : op = .isZero ∨ op = .not := Opcode.forall_of_bytes
    (P := fun op => operation? op = some .unary → op = .isZero ∨ op = .not) (by decide +kernel) op h
  rcases hop with rfl | rfl <;> exact ⟨_, rfl⟩

end Evm

/-! ### Effects -/

/-- The state of the machine that the effect of an instruction leads to, if the machine goes on. -/
def Effect.under (ρ : Valuation) (code : Bytes) (ins : Instruction) (e : Effect) :
    Option Evm.State :=
  (e.flow.under ρ code ins).map fun pc => { e.path.under ρ with pc }

section

variable {ρ : Valuation} {code : Bytes} {ins : Instruction} {p : Path} {s : Supply}

theorem under_pushNew (word : Term) (sources : List Nat) :
    (p.pushNew s word sources).under ρ code ins =
      some { p.under ρ with
        pc := ins.nextAddress, stack := word.eval ρ :: (p.under ρ).stack } := rfl

/-- A memory range of the fragment is one that the explorer follows. -/
theorem memoryOffset?_of_top? {v : Value} {rest : List Value} {n : Nat}
    (h : (Frame.mk ins (v :: rest)).top?.any (·.toNat + n ≤ 2 ^ 20) = true) (ρ : Valuation) :
    memoryOffset? v n = some (v.word.eval ρ).toNat := by
  have htop : (Frame.mk ins (v :: rest)).top? = v.const? := rfl
  rw [htop, Option.any_eq_true] at h
  obtain ⟨w, hw, hle⟩ := h
  have hle : w.toNat + n ≤ 2 ^ 20 := of_decide_eq_true hle
  have hlt : w.toNat < UInt64.size :=
    Nat.lt_of_le_of_lt (Nat.le_of_add_right_le hle) (by decide)
  have hsize : Word.size? w = some w.toNat := Word.size?_eq_some.mpr ⟨rfl, hlt⟩
  rw [Term.eval_of_const? hw ρ, memoryOffset?, Value.size?, hw, Option.bind_some, hsize]
  exact if_pos (decide_eq_true hle)

theorem const_of_top? {v : Value} {rest : List Value}
    (h : (Frame.mk ins (v :: rest)).top?.isSome = true) (ρ : Valuation) :
    v.word = .const (v.word.eval ρ) := by
  obtain ⟨w, hw⟩ := Option.isSome_iff_exists.mp h
  rw [Term.eval_of_const? hw]
  exact Term.eq_const_of_const? hw

theorem under_store (w : Word) (v : Value) :
    (p.store (.const w) v).under ρ = { p.under ρ with
      storage := fun k => if k = w then v.word.eval ρ else (p.under ρ).storage k } := by
  simp only [Path.under, Path.store, Path.stored?, Slots.get?_put, Term.const.injEq,
    Evm.State.mk.injEq, true_and]
  funext k
  split <;> rfl

theorem flow_execute_of_isHalting (program : Program) (p : Path) (s : Supply)
    (h : ins.opcode.isHalting = true) :
    ∃ returned, (execute program ins p s).flow = .halt returned := by
  unfold Opcode.isHalting at h
  unfold execute
  split at h
  next hkind =>
    simp only [hkind]
    split <;> simp_all [Path.stuck]
  next hkind =>
    simp only [hkind]
    exact ⟨_, rfl⟩
  next => cases h

/-- **An instruction on terms is the instruction on words**, and goes where that goes. -/
theorem execute_under (hin : (Frame.mk ins p.stack).inFragment = true)
    (hfits : ins.opcode.pops ≤ p.stack.length) (haddress : ins.address = p.pc)
    (hmemory : p.memory.Coherent) :
    Evm.execute code ρ ins (p.under ρ) =
      (execute (.ofCode code) ins p s).under ρ code ins := by
  unfold Frame.inFragment at hin
  cases hop : Evm.operation? ins.opcode with
  | none => simp [hop] at hin
  | some o =>
    rcases Evm.kind_of_operation? hop with ⟨rfl, hhalt⟩ | ⟨hkind, hpops, hhalt, hswap⟩
    · obtain ⟨returned, hflow⟩ := flow_execute_of_isHalting (.ofCode code) p s hhalt
      simp only [Evm.execute, hop, Effect.under, hflow, Flow.under, Option.map_none]
    · rw [hpops] at hfits
      rw [hop] at hin
      cases o with
      | halt => exact absurd rfl hhalt
      | push =>
        simp only [Evm.execute, execute, hop, hkind, Evm.Operation.kind]
        rw [under_pushNew, Term.eval_const]
      | dup n =>
        simp only [Evm.execute, execute, hop, hkind, Evm.Operation.kind, Path.under,
          List.getElem?_map]
        cases p.stack[n - 1]? <;> rfl
      | swap n =>
        obtain ⟨top, rest, hstack⟩ := exists_cons (Nat.le_trans (Nat.succ_le_succ n.zero_le) hfits)
        obtain ⟨m, rfl⟩ : ∃ m, n = m + 1 :=
          Nat.exists_eq_succ_of_ne_zero fun hn => hswap (by rw [hn])
        simp only [Evm.execute, execute, hop, hkind, Evm.Operation.kind, Path.under, hstack,
          List.map_cons, List.getElem?_cons_succ, Nat.add_sub_cancel, List.getElem?_map]
        cases rest[m]? with
        | none => rfl
        | some v =>
          simp only [Option.map_some, Option.bind_some, Effect.under, Flow.under, Path.under,
            List.set_cons_zero, List.set_cons_succ, List.map_cons, List.map_set]
          rfl
      | pop =>
        obtain ⟨a, rest, hstack⟩ := exists_cons hfits
        simp only [Evm.execute, execute, hop, hkind, hpops, Evm.Operation.kind, Evm.Operation.pops,
          Path.under, hstack, List.map_cons]
        rfl
      | jumpDest =>
        simp only [Evm.execute, execute, hop, hkind, hpops, Evm.Operation.kind, Evm.Operation.pops]
        rfl
      | unary =>
        obtain ⟨a, rest, hstack⟩ := exists_cons hfits
        obtain ⟨v, hv⟩ := Evm.unary?_of_operation? hop (a.word.eval ρ)
        simp only [Evm.execute, execute, hop, hkind, Evm.Operation.kind, Path.under, hstack,
          List.map_cons, hv, Option.bind_some]
        rw [under_pushNew, Term.eval_applyUnary, hv]
        rfl
      | binary =>
        obtain ⟨a, b, rest, hstack⟩ := exists_cons_cons hfits
        simp only [Evm.execute, execute, hop, hkind, Evm.Operation.kind, Path.under, hstack,
          List.map_cons]
        rw [under_pushNew, Term.eval_applyBinary]
        rfl
      | counter =>
        simp only [Evm.execute, execute, hop, hkind, Evm.Operation.kind]
        rw [under_pushNew, Term.eval_const, haddress]
        rfl
      | codeSize =>
        simp only [Evm.execute, execute, hop, hkind, Evm.Operation.kind]
        rw [under_pushNew, Term.eval_const]
        rfl
      | environment =>
        simp only [Evm.execute, execute, hop, hkind, Evm.Operation.kind]
        rw [under_pushNew, Term.eval]
      | callDataLoad =>
        obtain ⟨a, rest, hstack⟩ := exists_cons hfits
        simp only [Evm.execute, execute, hop, hkind, Evm.Operation.kind, Path.under, hstack,
          List.map_cons]
        rw [under_pushNew, Term.eval]
        rfl
      | memoryLoad =>
        obtain ⟨a, rest, hstack⟩ := exists_cons hfits
        rw [hstack] at hin
        simp only [Evm.execute, execute, hop, hkind, Evm.Operation.kind, Path.under, hstack,
          List.map_cons, memoryOffset?_of_top? hin ρ]
        simp only [Effect.under, Flow.under, Path.under, Option.map_some, List.map_cons,
          Memory.eval_load hmemory, Memory.memory_load, Memory.bytesUnder_touch]
        rfl
      | memoryStore =>
        obtain ⟨a, v, rest, hstack⟩ := exists_cons_cons hfits
        rw [hstack] at hin
        simp only [Evm.execute, execute, hop, hkind, Evm.Operation.kind, Path.under, hstack,
          List.map_cons, memoryOffset?_of_top? hin ρ]
        simp only [Effect.under, Flow.under, Path.under, Option.map_some,
          Memory.bytesUnder_storeWord]
        rfl
      | memoryStoreByte =>
        obtain ⟨a, v, rest, hstack⟩ := exists_cons_cons hfits
        rw [hstack] at hin
        simp only [Evm.execute, execute, hop, hkind, Evm.Operation.kind, Path.under, hstack,
          List.map_cons, memoryOffset?_of_top? hin ρ]
        simp only [Effect.under, Flow.under, Path.under, Option.map_some,
          Memory.bytesUnder_storeByte]
        rfl
      | storageLoad =>
        obtain ⟨a, rest, hstack⟩ := exists_cons hfits
        rw [hstack] at hin
        have hslot := const_of_top? hin ρ
        generalize a.word.eval ρ = w at hslot
        simp only [Evm.execute, execute, hop, hkind, Evm.Operation.kind, Path.under, hstack,
          List.map_cons, hslot, Term.eval_const]
        cases p.stored? (.const w) with
        | none =>
          rw [under_pushNew, Term.eval, Term.eval_const]
          rfl
        | some v => rfl
      | storageStore =>
        obtain ⟨a, v, rest, hstack⟩ := exists_cons_cons hfits
        rw [hstack] at hin
        have hslot := const_of_top? hin ρ
        generalize a.word.eval ρ = w at hslot
        simp only [Evm.execute, execute, hop, hkind, Evm.Operation.kind, Path.under, hstack,
          List.map_cons, hslot, Term.eval_const]
        rw [Effect.under, under_store]
        rfl
      | jump =>
        obtain ⟨a, rest, hstack⟩ := exists_cons hfits
        simp only [Evm.execute, execute, hop, hkind, Evm.Operation.kind, Path.under, hstack,
          List.map_cons]
        rfl
      | branch =>
        obtain ⟨a, b, rest, hstack⟩ := exists_cons_cons hfits
        simp only [Evm.execute, execute, hop, hkind, Evm.Operation.kind, Path.under, hstack,
          List.map_cons, Effect.under, Flow.under]
        split <;> rfl

end

end GuardFinder

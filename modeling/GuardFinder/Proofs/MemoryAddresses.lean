import GuardFinder.Proofs.CopiedBytes
import GuardFinder.Proofs.HashedRange
import Mathlib.Algebra.Group.Nat.Defs

/-!
# Addresses of memory

Offsets and lengths on the stack are any words. An instruction that works on memory first looks
whether its range is known and ends within `Memory.limit`. All sums of offsets and lengths come
after that, so they are small. A search for roles in the memory that is about to be hashed looks at
the range on its own, and its last word may reach over the end.

* `Memory.Access`: a range of memory that is worked on, with the addresses computed for that.
  `Instruction.access?`: the range that an instruction works on.
* `Memory.Change`: what an instruction can do to memory. `Instruction.exists_change`: it makes one
  change, which depends on no cell at another address.
* `Instruction.worksAt_memoryAddresses`: **an instruction works at its addresses only**.
  `Roles.matchMemory_agreeAt`: so does a search.
* `Instruction.lt_of_mem_memoryAddresses`, `Roles.lt_of_mem_searchAddresses`: **all these addresses
  are small**.
-/

namespace GuardFinder

/-! ### Addresses -/

namespace Memory

/-- The addresses of the bytes of a range. -/
def byteAddresses (offset length : Nat) : List Nat := (List.range length).map (offset + ·)

/-- The addresses that are computed when a range is taken into use. -/
def touchAddresses (offset length : Nat) : List Nat :=
  if length = 0 then []
  else [offset + length, offset + length + 31, wordAligned (offset + length)]

/-- The addresses of the bytes of a range that is read in words, the last of which may be
shorter. -/
def wordAddresses (offset length : Nat) : List Nat :=
  (List.range ((length + 31) / 32)).flatMap fun k =>
    byteAddresses (offset + 32 * k) (min 32 (length - 32 * k))

/-- A range of memory that is worked on. -/
structure Access where
  offset : Nat
  length : Nat
  /-- Whether the range is taken into use, and not just read in bytes and words. -/
  uses : Bool

/-- The addresses that are computed for an access. -/
def Access.addresses (x : Access) : List Nat :=
  byteAddresses x.offset x.length ++
    if x.uses then touchAddresses x.offset x.length else wordAddresses x.offset x.length

theorem mem_byteAddresses {a offset length : Nat} :
    a ∈ byteAddresses offset length ↔ offset ≤ a ∧ a < offset + length := by
  simp only [byteAddresses, List.mem_map, List.mem_range]
  constructor
  · rintro ⟨i, hi, rfl⟩
    omega
  · rintro ⟨hle, hlt⟩
    exact ⟨a - offset, by omega, by omega⟩

theorem le_of_mem_touchAddresses {a offset length : Nat} (ha : a ∈ touchAddresses offset length) :
    a ≤ offset + length + 31 := by
  unfold touchAddresses wordAligned at ha
  split at ha
  · cases ha
  · simp only [List.mem_cons, List.not_mem_nil, or_false] at ha
    omega

theorem lt_of_mem_wordAddresses {a offset length : Nat} (ha : a ∈ wordAddresses offset length) :
    a < offset + length := by
  obtain ⟨k, -, ha⟩ := List.mem_flatMap.mp ha
  have := mem_byteAddresses.mp ha
  omega

/-- An access within the limit computes small addresses. -/
theorem Access.lt_of_mem {x : Access} (hend : x.offset + x.length ≤ limit) {a : Nat}
    (ha : a ∈ x.addresses) : a < 2 ^ 20 + 64 := by
  have hlimit : limit = 2 ^ 20 := rfl
  rcases List.mem_append.mp ha with ha | ha
  · have := mem_byteAddresses.mp ha
    omega
  · split at ha
    · have := le_of_mem_touchAddresses ha
      omega
    · have := lt_of_mem_wordAddresses ha
      omega

/-- An access to a range of known length that is taken into use, if it is within the limit. -/
def Access.ofOffset? (offset : Value) (length : Nat) : Option Access :=
  (memoryOffset? offset length).map (⟨·, length, true⟩)

/-- An access to a range, if it is within the limit. -/
def Access.ofRange? (offset length : Value) (uses : Bool) : Option Access :=
  (memoryRange? offset length).map fun range => ⟨range.1, range.2, uses⟩

end Memory

open Memory in
/-- The range that an instruction works on when a path executes it. -/
def Instruction.access? (ins : Instruction) (p : Path) : Option Memory.Access :=
  match ins.opcode.kind, p.stack with
  | .memoryLoad, offset :: _ => Access.ofOffset? offset 32
  | .memoryStore, offset :: _ :: _ => Access.ofOffset? offset 32
  | .memoryStoreByte, offset :: _ :: _ => Access.ofOffset? offset 1
  | .hash, offset :: length :: _ => Access.ofRange? offset length false
  | .giveBack, offset :: length :: _ => Access.ofRange? offset length false
  | .callDataCopy, destination :: _ :: length :: _ => Access.ofRange? destination length true
  | .codeCopy, destination :: source :: length :: _ =>
    source.size?.bind fun _ => Access.ofRange? destination length true
  | _, _ => none

/-- The addresses that an instruction computes when a path executes it. -/
def Instruction.memoryAddresses (ins : Instruction) (p : Path) : List Nat :=
  (ins.access? p).elim [] (·.addresses)

theorem memoryOffset?_le {offset : Value} {length o : Nat}
    (h : memoryOffset? offset length = some o) : o + length ≤ Memory.limit :=
  of_decide_eq_true (Option.filter_eq_some_iff.mp h).2

theorem memoryRange?_le {offset length : Value} {range : Nat × Nat}
    (h : memoryRange? offset length = some range) : range.1 + range.2 ≤ Memory.limit := by
  obtain ⟨_, _, _, _, _, _, hend⟩ := memoryRange?_eq_some_iff.mp h
  exact hend

theorem Memory.Access.le_of_ofOffset? {offset : Value} {length : Nat} {x : Access}
    (h : Access.ofOffset? offset length = some x) : x.offset + x.length ≤ limit := by
  obtain ⟨o, ho, rfl⟩ := Option.map_eq_some_iff.mp h
  exact memoryOffset?_le ho

theorem Memory.Access.le_of_ofRange? {offset length : Value} {uses : Bool} {x : Access}
    (h : Access.ofRange? offset length uses = some x) : x.offset + x.length ≤ limit := by
  obtain ⟨range, hrange, rfl⟩ := Option.map_eq_some_iff.mp h
  exact memoryRange?_le hrange

/-- An instruction works on a range only if it ends within the limit. -/
theorem Instruction.access?_le {ins : Instruction} {p : Path} {x : Memory.Access}
    (h : ins.access? p = some x) : x.offset + x.length ≤ Memory.limit := by
  unfold access? at h
  split at h
  · exact Memory.Access.le_of_ofOffset? h
  · exact Memory.Access.le_of_ofOffset? h
  · exact Memory.Access.le_of_ofOffset? h
  · exact Memory.Access.le_of_ofRange? h
  · exact Memory.Access.le_of_ofRange? h
  · exact Memory.Access.le_of_ofRange? h
  · obtain ⟨_, -, h⟩ := Option.bind_eq_some_iff.mp h
    exact Memory.Access.le_of_ofRange? h
  · cases h

/-- **All addresses of an instruction are small**, whatever is on the stack. -/
theorem Instruction.lt_of_mem_memoryAddresses {ins : Instruction} {p : Path} {a : Nat}
    (ha : a ∈ ins.memoryAddresses p) : a < 2 ^ 20 + 64 := by
  unfold memoryAddresses at ha
  cases haccess : ins.access? p with
  | none =>
    rw [haccess] at ha
    cases ha
  | some x =>
    rw [haccess] at ha
    exact x.lt_of_mem (access?_le haccess) ha

/-! ### Changes -/

namespace Memory

/-- What an instruction can do to memory. -/
inductive Change
  | keep
  /-- Takes a range into use. -/
  | touch (offset length : Nat)
  /-- Writes cells in a row. -/
  | write (offset : Nat) (row : List Cell)

namespace Change

/-- Memory after a change. -/
def apply : Change → Memory → Memory
  | keep, m => m
  | touch offset length, m => m.touch offset length
  | write offset row, m => m.write offset row

/-- The access that a change makes. -/
def access? : Change → Option Access
  | keep => none
  | touch offset length => some ⟨offset, length, true⟩
  | write offset row => some ⟨offset, row.length, true⟩

/-- The addresses that are computed for a change. -/
def addresses (c : Change) : List Nat := c.access?.elim [] (·.addresses)

end Change

/-- Memories with one size that have the same cells at some addresses. -/
def AgreeAt (addresses : List Nat) (m m' : Memory) : Prop :=
  m'.size = m.size ∧ ∀ a ∈ addresses, m'.cells[a]? = m.cells[a]?

variable {m m' : Memory} {addresses : List Nat} {a offset length : Nat} {c : Change}

theorem cells_touch (m : Memory) (offset length : Nat) :
    (m.touch offset length).cells = m.cells := by
  unfold touch
  split <;> rfl

theorem size_write (m : Memory) (offset : Nat) (row : List Cell) :
    (m.write offset row).size = (m.touch offset row.length).size := rfl

/-- The size after a range was taken into use. -/
theorem size_touch (m : Memory) (offset length : Nat) :
    (m.touch offset length).size =
      if length = 0 then m.size else max m.size (wordAligned (offset + length)) := by
  unfold touch
  split <;> rfl

/-- **A change writes at its addresses only.** -/
theorem Change.getElem?_apply_of_not_mem (ha : a ∉ c.addresses) :
    (c.apply m).cells[a]? = m.cells[a]? := by
  cases c with
  | keep => rfl
  | touch offset length => rw [apply, cells_touch]
  | write offset row =>
    refine (getElem?_write ..).trans (if_neg fun hin => ha ?_)
    exact List.mem_append_left _ (mem_byteAddresses.mpr hin)

/-- A change writes the same to all memories. -/
theorem Change.getElem?_apply_congr (h : m'.cells[a]? = m.cells[a]?) :
    (c.apply m').cells[a]? = (c.apply m).cells[a]? := by
  cases c with
  | keep => exact h
  | touch offset length => rw [apply, apply, cells_touch, cells_touch, h]
  | write offset row => rw [apply, apply, getElem?_write, getElem?_write, h]

theorem Change.size_apply_congr (h : m'.size = m.size) : (c.apply m').size = (c.apply m).size := by
  cases c with
  | keep => exact h
  | touch offset length => rw [apply, apply, size_touch, size_touch, h]
  | write offset row => rw [apply, apply, size_write, size_write, size_touch, size_touch, h]

theorem Change.size_apply_eq_or_mem :
    (c.apply m).size = m.size ∨ (c.apply m).size ∈ c.addresses := by
  have htouch (offset length : Nat) : (m.touch offset length).size = m.size ∨
      (m.touch offset length).size ∈ Access.addresses ⟨offset, length, true⟩ := by
    rw [size_touch]
    split
    · exact .inl rfl
    · next hlength =>
      rcases Nat.le_total (wordAligned (offset + length)) m.size with hle | hle
      · exact .inl (Nat.max_eq_left hle)
      · right
        simp [Nat.max_eq_right hle, Access.addresses, touchAddresses, hlength]
  cases c with
  | keep => exact .inl rfl
  | touch offset length => exact htouch offset length
  | write offset row => exact htouch offset row.length

theorem Change.agreeAt_apply (h : m.AgreeAt addresses m') :
    (c.apply m).AgreeAt addresses (c.apply m') :=
  ⟨size_apply_congr h.1, fun a ha => getElem?_apply_congr (h.2 a ha)⟩

/-! ### Stores and reads -/

theorem exists_storeWord_eq (offset : Nat) (v : Value) :
    ∃ row : List Cell, row.length = 32 ∧
      ∀ m : Memory, m.storeWord offset v = m.write offset row := by
  unfold storeWord
  cases v.const? with
  | some w => exact ⟨_, by rw [List.length_map, Word.length_toBytes], fun _ => rfl⟩
  | none => exact ⟨_, length_ofValue v, fun _ => rfl⟩

theorem exists_storeByte_eq (offset : Nat) (v : Value) :
    ∃ cell : Cell, ∀ m : Memory, m.storeByte offset v = m.write offset [cell] := by
  unfold storeByte
  cases v.const? with
  | some w => exact ⟨_, fun _ => rfl⟩
  | none => exact ⟨_, fun _ => rfl⟩

theorem exists_storeSymbolic_eq (s : Supply) (offset length : Nat) (source : Nat → Term) :
    ∃ (row : List Cell) (t : Supply), row.length = length ∧
      ∀ m : Memory, m.storeSymbolic s offset length source = (m.write offset row, t) := by
  refine ⟨_, _, ?_, fun _ => rfl⟩
  rw [flatMap_ofValue, List.length_map, List.length_range]

theorem AgreeAt.row_eq (h : m.AgreeAt addresses m')
    (hsub : byteAddresses offset length ⊆ addresses) :
    m'.row offset length = m.row offset length := by
  refine List.map_congr_left fun i hi => h.2 _ (hsub (mem_byteAddresses.mpr ?_))
  have := List.mem_range.mp hi
  omega

theorem AgreeAt.bytes?_eq {uses : Bool}
    (h : m.AgreeAt (Access.addresses ⟨offset, length, uses⟩) m') :
    m'.bytes? offset length = m.bytes? offset length := by
  rw [Memory.bytes?_eq, Memory.bytes?_eq, h.row_eq (List.subset_append_left _ _)]

theorem AgreeAt.hashOf_eq (h : m.AgreeAt (Access.addresses ⟨offset, length, false⟩) m') :
    hashOf m' offset length = hashOf m offset length := by
  have htags : m'.tags offset length = m.tags offset length := by
    rw [tags_eq, tags_eq, h.row_eq (List.subset_append_left _ _)]
  have hwords : m'.words offset length = m.words offset length := by
    rw [words_eq, words_eq]
    refine List.map_congr_left fun k hk => congrArg wordOf (h.row_eq fun a ha => ?_)
    exact List.mem_append_right _ (List.mem_flatMap.mpr ⟨k, hk, ha⟩)
  rw [hashOf, hashOf, h.bytes?_eq, htags, hwords]

theorem AgreeAt.wholeValue?_eq (h : m.AgreeAt (Access.addresses ⟨offset, 32, true⟩) m') :
    m'.wholeValue? offset = m.wholeValue? offset := by
  have hcell (i : Fin 32) : m'.cells[offset + i.val]? = m.cells[offset + i.val]? := by
    have hi : offset + i.val ∈ byteAddresses offset 32 := mem_byteAddresses.mpr (by omega)
    exact h.2 _ (List.mem_append_left _ hi)
  have hfirst : m'.cells[offset]? = m.cells[offset]? := hcell 0
  unfold wholeValue?
  simp only [hcell, hfirst]

theorem AgreeAt.load_eq (h : m.AgreeAt (Access.addresses ⟨offset, 32, true⟩) m') (s : Supply) :
    m'.load s offset = { m.load s offset with memory := m'.touch offset 32 } := by
  have hrow : m'.row offset 32 = m.row offset 32 := h.row_eq (List.subset_append_left _ _)
  rw [Memory.load_eq, Memory.load_eq, h.wholeValue?_eq, hrow]
  split <;> rfl

end Memory

/-- An instruction that works on no range looks at nothing but the size of memory. -/
theorem Instruction.execute_of_no_access {ins : Instruction} {p : Path} {m' : Memory}
    (h : ins.access? p = none) (hsize : m'.size = p.memory.size) (program : Program) (s : Supply) :
    execute program ins { p with memory := m' } s =
      { execute program ins p s with
        path := { (execute program ins p s).path with memory := m' } } := by
  obtain ⟨pc, stack, memory, storage, constraints, name, trail, node, last⟩ := p
  unfold access? at h
  unfold execute
  simp only [hsize]
  generalize ins.opcode.kind = kind at h
  cases kind with
  | push | halt | codeSize | counter | memorySize | environment | unmodelled | discard => rfl
  | dup n =>
    simp only
    cases stack[n - 1]? <;> rfl
  | swap n =>
    rcases stack with - | ⟨top, rest⟩
    · rfl
    · simp only
      cases (top :: rest)[n]? <;> rfl
  | jump | unary | callDataLoad | query => cases stack <;> rfl
  | branch | binary | storageStore => rcases stack with - | ⟨a, - | ⟨b, rest⟩⟩ <;> rfl
  | modular => rcases stack with - | ⟨a, - | ⟨b, - | ⟨c, rest⟩⟩⟩ <;> rfl
  | storageLoad =>
    rcases stack with - | ⟨slot, rest⟩
    · rfl
    · simp only [Path.stored?]
      cases storage.get? slot.word <;> rfl
  | giveBack =>
    rcases stack with - | ⟨offset, - | ⟨length, rest⟩⟩
    · rfl
    · rfl
    · have hrange : memoryRange? offset length = none := Option.map_eq_none_iff.mp h
      simp only [returnedBytes?, hrange]
      rfl
  | hash =>
    rcases stack with - | ⟨offset, - | ⟨length, rest⟩⟩
    · rfl
    · rfl
    · have hrange : memoryRange? offset length = none := Option.map_eq_none_iff.mp h
      simp only [hrange]
      rfl
  | callDataCopy =>
    rcases stack with - | ⟨destination, - | ⟨source, - | ⟨length, rest⟩⟩⟩
    · rfl
    · rfl
    · rfl
    · have hrange : memoryRange? destination length = none := Option.map_eq_none_iff.mp h
      simp only [copyCallData, hrange]
  | codeCopy =>
    rcases stack with - | ⟨destination, - | ⟨source, - | ⟨length, rest⟩⟩⟩
    · rfl
    · rfl
    · rfl
    · have hkept (m : Memory) : copyCode m program.code destination source length = m := by
        unfold copyCode
        split
        · next hsource hrange => simp [hsource, Memory.Access.ofRange?, hrange] at h
        · rfl
      simp only [hkept]
  | memoryLoad =>
    rcases stack with - | ⟨offset, rest⟩
    · rfl
    · have hoffset : memoryOffset? offset 32 = none := Option.map_eq_none_iff.mp h
      simp only [hoffset]
      rfl
  | memoryStore =>
    rcases stack with - | ⟨offset, - | ⟨v, rest⟩⟩
    · rfl
    · rfl
    · have hoffset : memoryOffset? offset 32 = none := Option.map_eq_none_iff.mp h
      simp only [hoffset]
  | memoryStoreByte =>
    rcases stack with - | ⟨offset, - | ⟨v, rest⟩⟩
    · rfl
    · rfl
    · have hoffset : memoryOffset? offset 1 = none := Option.map_eq_none_iff.mp h
      simp only [hoffset]

open Memory in
/-- **An instruction makes one change** to all memories that have the same cells at its addresses,
and all else that it does is the same with them. -/
theorem Instruction.exists_change (program : Program) (ins : Instruction) (p : Path) (s : Supply) :
    ∃ c : Change, (c.access? = none ∨ c.access? = ins.access? p) ∧
      ∀ m', p.memory.AgreeAt (ins.memoryAddresses p) m' →
        execute program ins { p with memory := m' } s =
          { execute program ins p s with
            path := { (execute program ins p s).path with memory := c.apply m' } } := by
  unfold memoryAddresses
  cases haccess : ins.access? p with
  | none => exact ⟨.keep, .inl rfl, fun m' hm => execute_of_no_access haccess hm.1 program s⟩
  | some x =>
    have h := haccess
    unfold access? at h
    split at h
    · next offset rest hkind hstack =>
      obtain ⟨o, ho, rfl⟩ := Option.map_eq_some_iff.mp h
      refine ⟨.touch o 32, .inr rfl, fun m' hm => ?_⟩
      simp only [execute, hkind, hstack, ho, AgreeAt.load_eq hm]
      rfl
    · next offset v rest hkind hstack =>
      obtain ⟨o, ho, rfl⟩ := Option.map_eq_some_iff.mp h
      obtain ⟨row, hlength, hrow⟩ := exists_storeWord_eq o v
      refine ⟨.write o row, .inr (by rw [Change.access?, hlength]), fun m' hm => ?_⟩
      simp only [execute, hkind, hstack, ho, hrow]
      rfl
    · next offset v rest hkind hstack =>
      obtain ⟨o, ho, rfl⟩ := Option.map_eq_some_iff.mp h
      obtain ⟨cell, hcell⟩ := exists_storeByte_eq o v
      refine ⟨.write o [cell], .inr rfl, fun m' hm => ?_⟩
      simp only [execute, hkind, hstack, ho, hcell]
      rfl
    · next offset length rest hkind hstack =>
      obtain ⟨⟨o, n⟩, hrange, rfl⟩ := Option.map_eq_some_iff.mp h
      refine ⟨.keep, .inl rfl, fun m' hm => ?_⟩
      simp only [execute, hkind, hstack, hrange, AgreeAt.hashOf_eq hm]
      rfl
    · next offset length rest hkind hstack =>
      obtain ⟨⟨o, n⟩, hrange, rfl⟩ := Option.map_eq_some_iff.mp h
      refine ⟨.keep, .inl rfl, fun m' hm => ?_⟩
      have hbytes : returnedBytes? m' offset length = returnedBytes? p.memory offset length := by
        rw [returnedBytes?, returnedBytes?, hrange]
        exact AgreeAt.bytes?_eq hm
      simp only [execute, hkind, hstack, hbytes]
      rfl
    · next destination source length rest hkind hstack =>
      obtain ⟨⟨o, n⟩, hrange, rfl⟩ := Option.map_eq_some_iff.mp h
      obtain ⟨row, t, hlength, hrow⟩ := exists_storeSymbolic_eq s o n fun distance =>
        .callData (.applyBinary .add source.word (.const (BitVec.ofNat 256 distance)))
      refine ⟨.write o row, .inr (by rw [Change.access?, hlength]), fun m' hm => ?_⟩
      simp only [execute, hkind, hstack, copyCallData, hrange, hrow]
      rfl
    · next destination source length rest hkind hstack =>
      obtain ⟨start, hsource, h⟩ := Option.bind_eq_some_iff.mp h
      obtain ⟨⟨o, n⟩, hrange, rfl⟩ := Option.map_eq_some_iff.mp h
      refine ⟨.write o ((codeBytes program.code start n).map .byte), .inr ?_, fun m' hm => ?_⟩
      · rw [Change.access?, List.length_map, length_codeBytes]
      · simp only [execute, hkind, hstack, copyCode, hsource, hrange]
        rfl
    · cases h

/-- An instruction works at some addresses only: it makes the same of all memories that have the
same size and the same cells there, writes no cell at another address, and gets the new size of
memory from there. -/
structure Instruction.WorksAt (program : Program) (ins : Instruction) (p : Path) (s : Supply)
    (addresses : List Nat) : Prop where
  size : (execute program ins p s).path.memory.size = p.memory.size ∨
    (execute program ins p s).path.memory.size ∈ addresses
  alike : ∀ m', p.memory.AgreeAt addresses m' → ∃ m'',
    execute program ins { p with memory := m' } s =
      { execute program ins p s with
        path := { (execute program ins p s).path with memory := m'' } } ∧
    (execute program ins p s).path.memory.AgreeAt addresses m'' ∧
    ∀ a, a ∉ addresses → m''.cells[a]? = m'.cells[a]?

theorem Instruction.worksAt_memoryAddresses (program : Program) (ins : Instruction) (p : Path)
    (s : Supply) : ins.WorksAt program p s (ins.memoryAddresses p) := by
  obtain ⟨c, haccess, heffect⟩ := ins.exists_change program p s
  have hmemory : (execute program ins p s).path.memory = c.apply p.memory :=
    congrArg (·.path.memory) (heffect p.memory ⟨rfl, fun _ _ => rfl⟩)
  have hsub : c.addresses ⊆ ins.memoryAddresses p := by
    unfold Memory.Change.addresses memoryAddresses
    rcases haccess with hnone | hsome
    · rw [hnone]
      exact List.nil_subset _
    · rw [hsome]
      exact List.Subset.refl _
  refine ⟨?_, fun m' hm => ⟨c.apply m', heffect m' hm, ?_, fun a ha => ?_⟩⟩
  · rw [hmemory]
    exact c.size_apply_eq_or_mem.imp_right (hsub ·)
  · rw [hmemory]
    exact c.agreeAt_apply hm
  · exact c.getElem?_apply_of_not_mem fun hc => ha (hsub hc)

/-! ### Searches for roles -/

theorem Watch.item_error {σ : Type} {e : Event} {depth : Nat} (h : e.state.stack.length ≤ depth)
    (state : σ) (l : Ledger) : ∃ u,
      (liftM (item e depth) : EStateM Underflow (σ × Ledger) Value) (state, l) =
        .error u (state, l) := by
  obtain ⟨u, hitem⟩ : ∃ u, item e depth l = .error u l := by
    simp only [item, StateView.peek, peekAt, List.getElem?_eq_none h]
    exact ⟨_, rfl⟩
  refine ⟨u, ?_⟩
  show (item e depth).besides (state, l) = _
  simp only [besides, hitem]

namespace Roles

open Watch

/-- The range that is searched before a hash. -/
def searchRange? (e : Event) : Option (Nat × Nat) :=
  match e.state.stack with
  | offset :: length :: _ => do
    let o ← offset.size?
    let n ← length.size?
    if 32 ≤ n ∧ o + n ≤ Memory.limit then some (o, n) else none
  | _ => none

/-- The addresses that are computed for a search. -/
def searchAddresses (e : Event) : List Nat :=
  (searchRange? e).elim [] fun range =>
    (List.range ((range.2 + 31) / 32)).flatMap fun k => Memory.byteAddresses (range.1 + 32 * k) 32

theorem searchRange?_le {e : Event} {range : Nat × Nat} (h : searchRange? e = some range) :
    range.1 + range.2 ≤ Memory.limit := by
  unfold searchRange? at h
  split at h
  · obtain ⟨o, -, h⟩ := Option.bind_eq_some_iff.mp h
    obtain ⟨n, -, h⟩ := Option.bind_eq_some_iff.mp h
    split at h
    · next hrange =>
      obtain rfl := Option.some.inj h
      exact hrange.2
    · cases h
  · cases h

/-- **All addresses of a search are small.** The last word may reach over the end of the range. -/
theorem lt_of_mem_searchAddresses {e : Event} {a : Nat} (ha : a ∈ searchAddresses e) :
    a < 2 ^ 20 + 64 := by
  have hlimit : Memory.limit = 2 ^ 20 := rfl
  unfold searchAddresses at ha
  cases hrange : searchRange? e with
  | none =>
    rw [hrange] at ha
    cases ha
  | some range =>
    rw [hrange] at ha
    obtain ⟨k, hk, ha⟩ := List.mem_flatMap.mp ha
    have hk := List.mem_range.mp hk
    have ha := Memory.mem_byteAddresses.mp ha
    have hend := searchRange?_le hrange
    omega

theorem matchMemory_run_of_range {e : Event} {offset length : Value} {rest : List Value}
    (hstack : e.state.stack = offset :: length :: rest) (memo : Memo) (l : Ledger) :
    matchMemory e (memo, l) = .ok () ((searchRange? e).elim memo fun range =>
      (knownWords e.state.memory range.1 range.2).foldl Memo.take memo, l) := by
  have hitem₀ : item e 0 l = .ok offset l := item_run (by rw [hstack]; rfl) l
  have hitem₁ : item e 1 l = .ok length l := item_run (by rw [hstack]; rfl) l
  unfold searchRange?
  simp only [matchMemory, bind_run, besides_run hitem₀, besides_run hitem₁, hstack]
  cases offset.size? with
  | none => rfl
  | some o =>
    cases length.size? with
    | none => rfl
    | some n =>
      simp only [ite_run, Option.bind_eq_bind, Option.bind_some]
      split <;> rfl

/-- **A search looks at the cells at its addresses only.** -/
theorem matchMemory_agreeAt {e : Event} {m : Memory}
    (h : e.state.memory.AgreeAt (searchAddresses e) m) (memo : Memo) (l : Ledger) :
    matchMemory (e.withMemory m) (memo, l) = matchMemory e (memo, l) := by
  have hitem (depth : Nat) : item (e.withMemory m) depth = item e depth := rfl
  have hrange : searchRange? (e.withMemory m) = searchRange? e := rfl
  rcases hstack : e.state.stack with - | ⟨offset, - | ⟨length, rest⟩⟩
  · obtain ⟨u, hu⟩ := item_error (e := e) (Nat.le_of_eq (congrArg List.length hstack)) memo l
    rw [List.length_nil] at hu
    simp only [matchMemory, hitem, bind_run, hu]
  · have hitem₀ : item e 0 l = .ok offset l := item_run (by rw [hstack]; rfl) l
    obtain ⟨u, hu⟩ := item_error (e := e) (Nat.le_of_eq (congrArg List.length hstack)) memo l
    rw [List.length_singleton] at hu
    simp only [matchMemory, hitem, bind_run, besides_run hitem₀, hu]
  · rw [matchMemory_run_of_range hstack, matchMemory_run_of_range (e := e.withMemory m) hstack,
      hrange]
    unfold searchAddresses at h
    cases hsearched : searchRange? e with
    | none => rw [Option.elim_none, Option.elim_none]
    | some range =>
      rw [hsearched] at h
      have hwords : knownWords m range.1 range.2 = knownWords e.state.memory range.1 range.2 := by
        refine List.filterMap_congr fun k hk => ?_
        have hrow : m.row (range.1 + 32 * k) 32 = e.state.memory.row (range.1 + 32 * k) 32 :=
          h.row_eq fun a ha => List.mem_flatMap.mpr ⟨k, hk, ha⟩
        rw [Memory.knownWord?, Memory.knownWord?, hrow]
      simp only [Option.elim_some, Event.withMemory, hwords]

end Roles

end GuardFinder

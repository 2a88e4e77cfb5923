import GuardFinder.Proofs.Deduplication
import GuardFinder.Proofs.ReturnedCode

/-!
# The memory that is searched for roles

When memory is about to be hashed, the known words of the hashed range are looked up among the roles
that are remembered. The range is searched in whole words. If its length is no multiple of a word's,
the last word reaches over the end of the range, and what it holds there decides whether it is found.

* `Memory.AgreeOn`: memories that look alike on a range.
* `Roles.knownWords_eq`: the words that are searched, and the one of them that reaches over the end.
* `Roles.matchMemory_agreeOn`: **memories that agree on the hashed range are told apart by the word
  over its end only**.
-/

namespace GuardFinder

/-! ### Memories that agree on a range -/

namespace Memory

/-- The bytes of a range are the same in both memories, or unknown in both. -/
def AgreeOn (m m' : Memory) (offset length : Nat) : Prop :=
  ∀ i < length, Cell.known? m.cells[offset + i]? = Cell.known? m'.cells[offset + i]?

instance (m m' : Memory) (offset length : Nat) : Decidable (m.AgreeOn m' offset length) :=
  inferInstanceAs (Decidable (∀ i < length, _))

variable {m m' : Memory}

theorem AgreeOn.sub {offset length start count : Nat} (h : m.AgreeOn m' offset length)
    (hle : start + count ≤ length) : m.AgreeOn m' (offset + start) count := by
  intro i hi
  rw [Nat.add_assoc]
  exact h (start + i) (by omega)

theorem AgreeOn.knownBytes?_eq {offset length : Nat} (h : m.AgreeOn m' offset length) :
    knownBytes? (m.row offset length) = knownBytes? (m'.row offset length) := by
  have hrows : (m.row offset length).map Cell.known? = (m'.row offset length).map Cell.known? := by
    rw [row, row, List.map_map, List.map_map]
    refine List.map_congr_left ?_
    intro i hi
    exact h i (List.mem_range.mp hi)
  apply Option.ext
  intro bytes
  rw [knownBytes?_eq_some_iff, knownBytes?_eq_some_iff, hrows]

theorem AgreeOn.knownWord?_eq {offset : Nat} (h : m.AgreeOn m' offset 32) :
    m.knownWord? offset = m'.knownWord? offset := by
  rw [knownWord?, knownWord?, h.knownBytes?_eq]

end Memory

/-! ### The words of a range -/

namespace Roles

open Watch

/-- The known words that lie within a range. -/
def wordsWithin (m : Memory) (offset length : Nat) : List Word :=
  (List.range (length / 32)).filterMap fun k => m.knownWord? (offset + 32 * k)

/-- The known word that starts within a range and reaches over its end, if the range is searched. -/
def wordOverEnd? (m : Memory) (offset length : Nat) : Option Word :=
  if (32 ≤ length ∧ offset + length ≤ Memory.limit) ∧ length % 32 ≠ 0 then
    m.knownWord? (offset + 32 * (length / 32))
  else none

/-- **The words of a range are those within it and the one over its end.** -/
theorem knownWords_eq {offset length : Nat} (h : 32 ≤ length ∧ offset + length ≤ Memory.limit)
    (m : Memory) :
    knownWords m offset length =
      wordsWithin m offset length ++ (wordOverEnd? m offset length).toList := by
  unfold knownWords wordsWithin wordOverEnd?
  by_cases hwhole : length % 32 = 0
  · have hcount : (length + 31) / 32 = length / 32 := by omega
    rw [if_neg (fun hover => hover.2 hwhole), hcount, Option.toList_none, List.append_nil]
  · have hcount : (length + 31) / 32 = length / 32 + 1 := by omega
    rw [if_pos ⟨h, hwhole⟩, hcount, List.range_succ, List.filterMap_append]
    refine congrArg _ ?_
    cases hword : m.knownWord? (offset + 32 * (length / 32)) <;> simp [hword]

theorem wordsWithin_eq {m m' : Memory} {offset length : Nat} (h : m.AgreeOn m' offset length) :
    wordsWithin m offset length = wordsWithin m' offset length := by
  refine List.filterMap_congr ?_
  intro k hk
  have hk := List.mem_range.mp hk
  exact (h.sub (by omega)).knownWord?_eq

theorem wordOverEnd?_eq {m m' : Memory} {offset length : Nat}
    (h : length % 32 = 0 ∨ m.AgreeOn m' (offset + 32 * (length / 32)) 32) :
    wordOverEnd? m offset length = wordOverEnd? m' offset length := by
  unfold wordOverEnd?
  split
  · next hover => exact (h.resolve_left hover.2).knownWord?_eq
  · rfl

/-- What is remembered after a search for the words within a range. -/
def takeWithin (memo : Memo) (m : Memory) (offset length : Nat) : Memo :=
  if 32 ≤ length ∧ offset + length ≤ Memory.limit then
    (wordsWithin m offset length).foldl Memo.take memo
  else memo

theorem takeWithin_eq {m m' : Memory} {offset length : Nat} (h : m.AgreeOn m' offset length)
    (memo : Memo) : takeWithin memo m offset length = takeWithin memo m' offset length := by
  rw [takeWithin, takeWithin, wordsWithin_eq h]

end Roles

/-! ### Searches -/

/-- An event with another memory. -/
def Event.withMemory (e : Event) (m : Memory) : Event :=
  { e with state := { e.state with memory := m } }

theorem Watch.item_run {e : Event} {depth : Nat} {v : Value} (h : e.state.stack[depth]? = some v)
    (l : Ledger) : item e depth l = .ok v l := by
  simp only [item, StateView.peek, peekAt, h]
  rfl

namespace Roles

open Watch

section

variable {e : Event} {offset length : Value} {rest : List Value} {o n : Word}

theorem matchMemory_run (hstack : e.state.stack = offset :: length :: rest)
    (hoffset : offset.const? = some o) (hlength : length.const? = some n) (memo : Memo)
    (l : Ledger) :
    matchMemory e (memo, l) = .ok ()
      (if 32 ≤ n.toNat ∧ o.toNat + n.toNat ≤ Memory.limit then
        (knownWords e.state.memory o.toNat n.toNat).foldl Memo.take memo else memo, l) := by
  have hitem₀ : item e 0 l = .ok offset l := item_run (by rw [hstack]; rfl) l
  have hitem₁ : item e 1 l = .ok length l := item_run (by rw [hstack]; rfl) l
  simp only [matchMemory, bind_run, besides_run hitem₀, besides_run hitem₁, Value.size?, hoffset,
    hlength, Option.bind_some, Word.size?_eq_ite]
  have hlimit : Memory.limit < UInt64.size := by decide
  by_cases ho : o.toNat < UInt64.size
  · by_cases hn : n.toNat < UInt64.size
    · rw [if_pos ho, if_pos hn]
      simp only [ite_run]
      split
      · rfl
      · rfl
    · have hout : ¬(32 ≤ n.toNat ∧ o.toNat + n.toNat ≤ Memory.limit) := by omega
      rw [if_pos ho, if_neg hn, if_neg hout]
      rfl
  · have hout : ¬(32 ≤ n.toNat ∧ o.toNat + n.toNat ≤ Memory.limit) := by omega
    rw [if_neg ho, if_neg hout]
    rfl

/-- **A search takes the words within the range, and then the one over its end.** -/
theorem matchMemory_eq_take (hstack : e.state.stack = offset :: length :: rest)
    (hoffset : offset.const? = some o) (hlength : length.const? = some n) (memo : Memo)
    (l : Ledger) :
    matchMemory e (memo, l) =
      .ok () ((wordOverEnd? e.state.memory o.toNat n.toNat).elim
        (takeWithin memo e.state.memory o.toNat n.toNat)
        (takeWithin memo e.state.memory o.toNat n.toNat).take, l) := by
  rw [matchMemory_run hstack hoffset hlength, takeWithin]
  by_cases hsearched : 32 ≤ n.toNat ∧ o.toNat + n.toNat ≤ Memory.limit
  · rw [if_pos hsearched, if_pos hsearched, knownWords_eq hsearched, List.foldl_append]
    cases wordOverEnd? e.state.memory o.toNat n.toNat with
    | none => rfl
    | some w => rfl
  · have hnone : wordOverEnd? e.state.memory o.toNat n.toNat = none :=
      if_neg fun hover => hsearched hover.1
    rw [if_neg hsearched, if_neg hsearched, hnone, Option.elim_none]

end

/-- **Memories that agree on the hashed range are told apart by the word over its end only.** A
search takes the same words of both memories that lie within the range, and then the word that
reaches over its end. So both searches have the same outcome if there is no such word, or if the
memories agree on it as well. -/
theorem matchMemory_agreeOn {e : Event} {offset length : Value} {rest : List Value} {o n : Word}
    (hstack : e.state.stack = offset :: length :: rest) (hoffset : offset.const? = some o)
    (hlength : length.const? = some n) {m m' : Memory} (h : m.AgreeOn m' o.toNat n.toNat)
    (memo : Memo) (l : Ledger) :
    (∃ memo₀, memo₀ = takeWithin memo m o.toNat n.toNat ∧
      matchMemory (e.withMemory m) (memo, l) =
        .ok () ((wordOverEnd? m o.toNat n.toNat).elim memo₀ memo₀.take, l) ∧
      matchMemory (e.withMemory m') (memo, l) =
        .ok () ((wordOverEnd? m' o.toNat n.toNat).elim memo₀ memo₀.take, l)) ∧
    (n.toNat % 32 = 0 ∨ m.AgreeOn m' (o.toNat + 32 * (n.toNat / 32)) 32 →
      matchMemory (e.withMemory m) (memo, l) = matchMemory (e.withMemory m') (memo, l)) := by
  have hrun (m : Memory) : matchMemory (e.withMemory m) (memo, l) =
      .ok () ((wordOverEnd? m o.toNat n.toNat).elim (takeWithin memo m o.toNat n.toNat)
        (takeWithin memo m o.toNat n.toNat).take, l) :=
    matchMemory_eq_take (e := e.withMemory m) hstack hoffset hlength memo l
  have hwithin := takeWithin_eq h memo
  refine ⟨⟨_, rfl, hrun m, ?_⟩, ?_⟩
  · rw [hrun m', hwithin]
  · intro hend
    rw [hrun m, hrun m', hwithin, wordOverEnd?_eq hend]

/-- A range is about to be hashed. -/
def hashingEvent (offset length : Word) : Event :=
  ⟨.pre, ⟨⟨0, .sha3, none⟩, [⟨.const offset, 0⟩, ⟨.const length, 1⟩], {}, "fallback", []⟩, none⟩

/-- Memory with the word 5 at the offset 31 and another byte at 95. -/
def unalignedMemory (b : UInt8) : Memory := (Memory.storeBytes {} 62 [5]).storeBytes 95 [b]

/-- Two words at an offset that is no multiple of 32, the first of which is remembered, in memories
that differ right after them. -/
theorem matchMemory_agreeOn_unaligned :
    (unalignedMemory 1).AgreeOn (unalignedMemory 2) 31 64 ∧
    matchMemory ((hashingEvent 31 64).withMemory (unalignedMemory 1)) (Memo.addWord {} 5, {}) =
      matchMemory ((hashingEvent 31 64).withMemory (unalignedMemory 2)) (Memo.addWord {} 5, {}) := by
  have hagree : (unalignedMemory 1).AgreeOn (unalignedMemory 2) 31 64 := by decide +kernel
  exact ⟨hagree, (matchMemory_agreeOn rfl rfl rfl hagree _ _).2 (.inl rfl)⟩

/-- Code that hashes the caller and one byte of a role, and branches on the hash. -/
def cutRoleCode : Bytes :=
  [0x60, 0x05, 0x33, 0x60, 0x06, 0x56, 0x5b, 0x5f, 0x52, 0x60, 0x20, 0x52, 0x60, 0x21, 0x5f, 0x20,
   0x60, 0x14, 0x57, 0x00, 0x5b, 0x00]

/-- A role is found in memory of which only the first byte is hashed, and then a guard is reported;
memory that is the same where it is hashed has no role. -/
theorem matchMemory_over_end :
    ({} : Memory).AgreeOn (Memory.storeBytes {} 63 [5]) 0 33 ∧
    (∃ memo, matchMemory ((hashingEvent 0 33).withMemory {}) (Memo.addWord {} 5, {}) =
      .ok () (memo, {}) ∧ memo.forward = false) ∧
    (∃ memo, matchMemory ((hashingEvent 0 33).withMemory (Memory.storeBytes {} 63 [5]))
      (Memo.addWord {} 5, {}) = .ok () (memo, {}) ∧ memo.forward = true) ∧
    (Analysis.ofPatterns {} [.roles]).listed (.deployed ⟨0⟩ cutRoleCode) none =
      .ok [[{ functionName := "fallback" }]] := by
  refine ⟨by decide +kernel, ⟨_, matchMemory_run rfl rfl rfl _ _, by decide +kernel⟩,
    ⟨_, matchMemory_run rfl rfl rfl _ _, by decide +kernel⟩, by decide +kernel⟩

end Roles

end GuardFinder

import GuardFinder.Explore.Machine
import GuardFinder.Proofs.ByteView
import GuardFinder.Proofs.Effects

/-!
# Tags

A path knows its values by their tags: memory returns a value as a whole when its parts have one
tag. That is right as long as values with one tag have one word. New values get tags that were never
given out, so instructions keep it right.

* `Supply.Tidy`: tags of some values have been given out, and values with one tag have one word.
* `Path.Has`: the values that a path has on its stack, in memory and in storage.
* `Path.Tidy`: a path is tidy if its values are.
* `Path.adds_execute`: an instruction keeps values or adds values with new tags.
-/

namespace GuardFinder

/-! ### Values and their tags -/

/-- The tags of some values have been given out, and values with one tag have one word. -/
structure Supply.Tidy (s : Supply) (has : Value → Prop) : Prop where
  tag_lt : ∀ ⦃v⦄, has v → v.tag < s.nextTag
  word_eq : ∀ ⦃v w⦄, has v → has w → v.tag = w.tag → v.word = w.word

/-- Values stay tidy next to values with new tags, one tag for one word. -/
theorem Supply.Tidy.of_new {s t : Supply} {has has' : Value → Prop} (h : s.Tidy has)
    (hle : s.nextTag ≤ t.nextTag)
    (hold : ∀ v, has' v → has v ∨ s.nextTag ≤ v.tag ∧ v.tag < t.nextTag)
    (hnew : ∀ v w, has' v → has' w → s.nextTag ≤ v.tag → v.tag = w.tag → v.word = w.word) :
    t.Tidy has' := by
  refine ⟨fun v hv => ?_, fun v w hv hw htag => ?_⟩
  · rcases hold v hv with hold | ⟨-, hlt⟩
    · exact Nat.lt_of_lt_of_le (h.tag_lt hold) hle
    · exact hlt
  · by_cases hge : s.nextTag ≤ v.tag
    · exact hnew v w hv hw hge htag
    · -- both tags are old, and so are the values
      have hv' := (hold v hv).resolve_right fun hnew => hge hnew.1
      have hw' := (hold w hw).resolve_right fun hnew => hge (htag ▸ hnew.1)
      exact h.word_eq hv' hw' htag

/-- Values stay tidy next to values whose new tags tell their words. -/
theorem Supply.Tidy.of_words {s t : Supply} {has has' : Value → Prop} (h : s.Tidy has)
    (hle : s.nextTag ≤ t.nextTag) (word : Nat → Term)
    (hword : ∀ v, has' v → has v ∨ s.nextTag ≤ v.tag ∧ v.tag < t.nextTag ∧ v.word = word v.tag) :
    t.Tidy has' := by
  have hnew {v : Value} (hv : has' v) (hge : s.nextTag ≤ v.tag) : v.word = word v.tag := by
    rcases hword v hv with hold | ⟨-, -, hv⟩
    · exact absurd (h.tag_lt hold) (Nat.not_lt_of_le hge)
    · exact hv
  refine h.of_new hle (fun v hv => ?_) fun v w hv hw hge htag => ?_
  · rcases hword v hv with hold | ⟨hge, hlt, -⟩
    · exact .inl hold
    · exact .inr ⟨hge, hlt⟩
  · rw [hnew hv hge, hnew hw (htag ▸ hge), htag]

/-! ### Values in their places -/

/-- A value that memory has a part of. -/
def Memory.Holds (m : Memory) (v : Value) : Prop :=
  ∃ (a : Nat) (i : Fin 32), m.cells[a]? = some (.part v i)

/-- A value in a slot. -/
def Slots.Holds (s : Slots) (v : Value) : Prop := ∃ slot, s.get? slot = some v

/-- A value on the stack, in memory or in storage. -/
def Path.Has (p : Path) (v : Value) : Prop := v ∈ p.stack ∨ p.memory.Holds v ∨ p.storage.Holds v

/-- All tags of a path have been given out, and values with one tag have one word. -/
structure Path.Tidy (p : Path) (s : Supply) : Prop where
  tag_lt : ∀ ⦃v⦄, p.Has v → v.tag < s.nextTag
  word_eq : ∀ ⦃v w⦄, p.Has v → p.Has w → v.tag = w.tag → v.word = w.word

/-- A path that has the values of `p` and new ones, whose tags have been given out between `s` and
`t`, one tag for one word. -/
def Path.Adds (p : Path) (s : Supply) (q : Path) (t : Supply) : Prop :=
  s.nextTag ≤ t.nextTag ∧ ∃ word : Nat → Term, ∀ v, q.Has v →
    p.Has v ∨ s.nextTag ≤ v.tag ∧ v.tag < t.nextTag ∧ v.word = word v.tag

namespace Path

variable {p q : Path} {s t : Supply}

theorem Tidy.mono (h : p.Tidy s) (hst : s.nextTag ≤ t.nextTag) : p.Tidy t :=
  ⟨fun _ hv => Nat.lt_of_lt_of_le (h.tag_lt hv) hst, h.word_eq⟩

theorem Tidy.of_has (h : p.Tidy s) (hq : ∀ v, q.Has v → p.Has v) : q.Tidy s :=
  ⟨fun _ hv => h.tag_lt (hq _ hv), fun _ _ hv hw => h.word_eq (hq _ hv) (hq _ hw)⟩

theorem Tidy.coherent (h : p.Tidy s) : p.memory.Coherent := fun a b _ _ i j hv hw =>
  h.word_eq (.inr (.inl ⟨a, i, hv⟩)) (.inr (.inl ⟨b, j, hw⟩))

theorem tidy_iff : p.Tidy s ↔ s.Tidy p.Has :=
  ⟨fun h => ⟨h.tag_lt, h.word_eq⟩, fun h => ⟨h.tag_lt, h.word_eq⟩⟩

/-- New tags differ from all tags of a tidy path. -/
theorem Tidy.of_adds (h : p.Tidy s) (hadds : p.Adds s q t) : q.Tidy t := by
  obtain ⟨hle, word, hword⟩ := hadds
  exact tidy_iff.mpr ((tidy_iff.mp h).of_words hle word hword)

theorem tidy_start (name : String) (node : Nat) (s : Supply) : (Path.start name node).Tidy s := by
  have hnone : ∀ v, ¬(Path.start name node).Has v := by
    rintro v (hstack | ⟨a, i, hcell⟩ | ⟨slot, hslot⟩)
    · exact absurd hstack List.not_mem_nil
    · simp [Path.start] at hcell
    · unfold Slots.get? at hslot
      split at hslot <;> simp [Path.start] at hslot
  exact ⟨fun v hv => absurd hv (hnone v), fun v _ hv => absurd hv (hnone v)⟩

/-! ### Instructions -/

theorem adds_of_has (h : ∀ v, q.Has v → p.Has v) : p.Adds s q s :=
  ⟨Nat.le_refl _, fun _ => default, fun v hv => .inl (h v hv)⟩

theorem has_of_stack {stack : List Value} (h : ∀ v ∈ stack, p.Has v) :
    ∀ v, { p with stack }.Has v → p.Has v := by
  rintro v (hstack | hother)
  · exact h v hstack
  · exact .inr hother

theorem adds_pushNew (h : ∀ v, q.Has v → p.Has v) (word : Term) (sources : List Nat) :
    p.Adds s (q.pushNew s word sources).path (q.pushNew s word sources).supply := by
  refine ⟨Nat.le_succ _, fun _ => word, ?_⟩
  rintro v (hstack | hother)
  · rcases List.mem_cons.mp hstack with rfl | hstack
    · exact .inr ⟨Nat.le_refl _, Nat.lt_succ_self _, rfl⟩
    · exact .inl (h v (.inl hstack))
  · exact .inl (h v (.inr hother))

theorem adds_pushHavoc (h : ∀ v, q.Has v → p.Has v) (origin : Opcode) (sources : List Nat) :
    p.Adds s (q.pushHavoc s origin sources).path (q.pushHavoc s origin sources).supply :=
  adds_pushNew h (Supply.havoc s origin).1 sources

end Path

/-! ### Memory -/

namespace Memory

variable {m : Memory} {v w : Value}

theorem holds_touch {offset length : Nat} (h : (m.touch offset length).Holds v) : m.Holds v := by
  unfold touch at h
  split at h
  · exact h
  · exact h

theorem holds_write {offset : Nat} {row : List Cell} (h : (m.write offset row).Holds v) :
    m.Holds v ∨ ∃ i, Cell.part v i ∈ row := by
  obtain ⟨a, i, hcell⟩ := h
  rw [getElem?_write] at hcell
  split at hcell
  · exact .inr ⟨i, List.mem_of_getElem? hcell⟩
  · exact .inl ⟨a, i, hcell⟩

theorem holds_storeWord {offset : Nat} (h : (m.storeWord offset w).Holds v) :
    m.Holds v ∨ v = w := by
  unfold storeWord at h
  split at h
  · rcases holds_write h with hold | ⟨i, hrow⟩
    · exact .inl hold
    · simp at hrow
  · rcases holds_write h with hold | ⟨i, hrow⟩
    · exact .inl hold
    · simp only [Cell.ofValue, List.mem_map, Cell.part.injEq] at hrow
      obtain ⟨-, -, rfl, -⟩ := hrow
      exact .inr rfl

theorem holds_storeByte {offset : Nat} (h : (m.storeByte offset w).Holds v) :
    m.Holds v ∨ v = w := by
  unfold storeByte at h
  split at h
  · rcases holds_write h with hold | ⟨i, hrow⟩
    · exact .inl hold
    · simp at hrow
  · rcases holds_write h with hold | ⟨i, hrow⟩
    · exact .inl hold
    · simp only [List.mem_singleton, Cell.part.injEq] at hrow
      exact .inr hrow.1

theorem holds_storeBytes {offset : Nat} {bytes : Bytes} (h : (m.storeBytes offset bytes).Holds v) :
    m.Holds v := by
  rcases holds_write h with hold | ⟨i, hrow⟩
  · exact hold
  · simp at hrow

/-- The new values have tags in a row, and the tag of each tells its word. -/
theorem holds_storeSymbolic {s : Supply} {offset length : Nat} {source : Nat → Term}
    (h : (m.storeSymbolic s offset length source).1.Holds v) :
    m.Holds v ∨ s.nextTag ≤ v.tag ∧
      v.tag < (m.storeSymbolic s offset length source).2.nextTag ∧
      v.word = source (32 * (v.tag - s.nextTag)) := by
  rcases holds_write h with hold | ⟨i, hrow⟩
  · exact .inl hold
  · simp only [Cell.ofValue, List.mem_flatMap, List.mem_range, List.mem_map,
      Cell.part.injEq] at hrow
    obtain ⟨k, hk, -, -, rfl, -⟩ := hrow
    refine .inr ⟨Nat.le_add_right _ _, Nat.add_lt_add_left hk _, ?_⟩
    simp only [Nat.add_sub_cancel_left]

theorem holds_mapValues {f : Value → Value} (h : (m.mapValues f).Holds v) :
    ∃ w, m.Holds w ∧ v = f w := by
  obtain ⟨a, i, hcell⟩ := h
  rw [getElem?_mapValues, Option.map_eq_some_iff] at hcell
  obtain ⟨cell, hcell, heq⟩ := hcell
  cases cell with
  | byte b => simp [Cell.mapValue] at heq
  | part w j =>
    simp only [Cell.mapValue, Cell.part.injEq] at heq
    exact ⟨w, ⟨a, j, hcell⟩, heq.1.symm⟩

/-- A load gives a value of memory or a new one. -/
theorem value_load (m : Memory) (s : Supply) (offset : Nat) :
    m.Holds (m.load s offset).value ∧ (m.load s offset).supply = s ∨
      (m.load s offset).value.tag = s.nextTag ∧
        (m.load s offset).supply.nextTag = s.nextTag + 1 := by
  unfold load
  split
  · next value h =>
    obtain ⟨index, hfirst, -⟩ := getElem?_of_wholeValue? h
    exact .inl ⟨⟨offset, index, hfirst⟩, rfl⟩
  · exact .inr ⟨rfl, rfl⟩

end Memory

namespace Slots

theorem holds_put {slots : Slots} {slot : Term} {v w : Value} (h : (slots.put slot w).Holds v) :
    slots.Holds v ∨ v = w := by
  obtain ⟨other, hother⟩ := h
  rw [get?_put] at hother
  split at hother
  · exact .inr (Option.some.inj hother).symm
  · exact .inl ⟨other, hother⟩

end Slots

namespace Path

variable {p q : Path} {s t : Supply}

theorem has_of_suffix {rest : List Value} (h : rest <:+ p.stack) :
    ∀ v, { p with stack := rest }.Has v → p.Has v :=
  has_of_stack fun _ hv => .inl (h.mem hv)

/-- A path with another memory has no other values if the memory holds no other ones. -/
theorem has_of_memory {rest : List Value} {memory : Memory} (h : rest <:+ p.stack)
    (hmemory : ∀ v, memory.Holds v → p.Has v) :
    ∀ v, { p with stack := rest, memory }.Has v → p.Has v := by
  rintro v (hv | hv | hv)
  · exact .inl (h.mem hv)
  · exact hmemory v hv
  · exact .inr (.inr hv)

theorem has_copyCode {code : Bytes} {destination source length v : Value}
    (h : (copyCode p.memory code destination source length).Holds v) : p.Has v := by
  unfold copyCode at h
  split at h
  · exact .inr (.inl (Memory.holds_storeBytes h))
  · exact .inr (.inl h)

/-- The values that an instruction writes to memory are operands. -/
theorem has_of_writes {program : Program} {ins : Instruction} {operands rest : List Value}
    {memory : Memory} (hstack : p.stack = operands ++ rest)
    (h : ins.Writes program p operands memory) {v : Value} (hv : memory.Holds v) : p.Has v := by
  cases h with
  | code => exact has_copyCode hv
  | word _ range w =>
    rcases Memory.holds_storeWord hv with hv | rfl
    · exact .inr (.inl hv)
    · exact .inl (by simp [hstack])
  | byte _ range w =>
    rcases Memory.holds_storeByte hv with hv | rfl
    · exact .inr (.inl hv)
    · exact .inl (by simp [hstack])
  | wordLost | byteLost => exact .inr (.inl hv)

theorem adds_storeSymbolic {rest : List Value} (h : rest <:+ p.stack) (offset length : Nat)
    (source : Nat → Term) :
    p.Adds s { p with stack := rest, memory := (p.memory.storeSymbolic s offset length source).1 }
      (p.memory.storeSymbolic s offset length source).2 := by
  refine ⟨Nat.le_add_right _ _, fun tag => source (32 * (tag - s.nextTag)), fun v hv => ?_⟩
  rcases hv with hv | hv | hv
  · exact .inl (.inl (h.mem hv))
  · rcases Memory.holds_storeSymbolic hv with hv | hnew
    · exact .inl (.inr (.inl hv))
    · exact .inr hnew
  · exact .inl (.inr (.inr hv))

theorem adds_copyCallData {rest : List Value} (h : rest <:+ p.stack)
    (destination source length : Value) :
    p.Adds s
      { p with stack := rest, memory := (copyCallData p.memory s destination source length).1 }
      (copyCallData p.memory s destination source length).2 := by
  unfold copyCallData
  split
  · exact adds_storeSymbolic h _ _ _
  · exact adds_of_has (has_of_suffix h)

theorem adds_load {rest : List Value} (h : rest <:+ p.stack) (offset : Nat) :
    p.Adds s
      { p with
        stack := (p.memory.load s offset).value :: rest, memory := (p.memory.load s offset).memory }
      (p.memory.load s offset).supply := by
  have hkept : ∀ v, { p with stack := rest, memory := (p.memory.load s offset).memory }.Has v →
      p.Has v := by
    refine has_of_memory h fun v hv => ?_
    rw [Memory.memory_load] at hv
    exact .inr (.inl (Memory.holds_touch hv))
  rcases Memory.value_load p.memory s offset with ⟨hvalue, hsupply⟩ | ⟨htag, hsupply⟩
  · rw [hsupply]
    refine adds_of_has ?_
    rintro v (hv | hv)
    · rcases List.mem_cons.mp hv with rfl | hv
      · exact .inr (.inl hvalue)
      · exact hkept v (.inl hv)
    · exact hkept v (.inr hv)
  · refine ⟨by omega, fun _ => (p.memory.load s offset).value.word, ?_⟩
    rintro v (hv | hv)
    · rcases List.mem_cons.mp hv with rfl | hv
      · exact .inr ⟨by omega, by omega, rfl⟩
      · exact .inl (hkept v (.inl hv))
    · exact .inl (hkept v (.inr hv))

theorem mem_of_mem_swap {stack : List Value} {n : Nat} {v w top : Value} (hv : stack[n]? = some v)
    (htop : top ∈ stack) (hw : w ∈ (stack.set 0 v).set n top) : w ∈ stack := by
  rcases List.mem_or_eq_of_mem_set hw with hw | rfl
  · rcases List.mem_or_eq_of_mem_set hw with hw | rfl
    · exact hw
    · exact List.mem_of_getElem? hv
  · exact htop

/-- **An instruction keeps values or adds values with new tags.** -/
theorem adds_execute (program : Program) (ins : Instruction) (p : Path) (s : Supply) :
    p.Adds s (execute program ins p s).path (execute program ins p s).supply := by
  have heffect := executes_execute program ins p s
  generalize execute program ins p s = e at heffect ⊢
  cases heffect with
  | stuck => exact adds_of_has fun _ hv => hv
  | dup kind item =>
    refine adds_of_has (has_of_stack fun w hw => ?_)
    rcases List.mem_cons.mp hw with rfl | hw
    · exact .inl (List.mem_of_getElem? item)
    · exact .inl hw
  | @swap n top v rest kind stack item =>
    have htop : top ∈ p.stack := by
      rw [stack]
      exact List.mem_cons_self
    exact adds_of_has (has_of_stack fun w hw => .inl (mem_of_mem_swap item htop hw))
  | drop stack => exact adds_of_has (has_of_suffix ⟨_, stack.symm⟩)
  | make stack => exact adds_pushNew (has_of_suffix ⟨_, stack.symm⟩) _ _
  | guess stack => exact adds_pushHavoc (has_of_suffix ⟨_, stack.symm⟩) _ _
  | @load offset rest o kind stack => exact adds_load ⟨[offset], stack.symm⟩ _
  | @fetch slot v rest kind stack stored =>
    refine adds_of_has (has_of_stack fun w hw => ?_)
    rcases List.mem_cons.mp hw with rfl | hw
    · exact .inr (.inr ⟨_, stored⟩)
    · exact .inl (stack ▸ List.mem_cons_of_mem slot hw)
  | @copy destination source length rest kind stack =>
    exact adds_copyCallData ⟨[destination, source, length], stack.symm⟩ _ _ _
  | write stack writes =>
    exact adds_of_has (has_of_memory ⟨_, stack.symm⟩ fun _ => has_of_writes stack writes)
  | @store slot w rest kind stack =>
    refine adds_of_has ?_
    rintro v (hv | hv | hv)
    · exact .inl (stack ▸ List.mem_cons_of_mem slot (List.mem_cons_of_mem w hv))
    · exact .inr (.inl hv)
    · rcases Slots.holds_put hv with hv | rfl
      · exact .inr (.inr hv)
      · exact .inl (by simp [stack])

end Path

end GuardFinder

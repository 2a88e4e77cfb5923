import GuardFinder.Proofs.ByteArrays
import GuardFinder.Proofs.ReturnedCode
import GuardFinder.Proofs.Signals

/-!
# Three ways to read a word

A word of memory can be loaded, it can be asked for as a number, and its bytes can be read as a
range. Each of the three goes over the cells in a loop of its own, and loads know a value that
stands in memory as a whole. The loops end with what the cells spell. They agree because memory has
no parts of values that are constants: these are stored as bytes.

* `Memory.Built`: what can be done to memory, if only unknown words are stored as new values.
* `Memory.Symbolic`: parts in memory are of values that are no constants. `Memory.Built.symbolic`:
  that is kept by all stores, copies and loads.
* `Memory.wholeValue?_eq_some_iff`: which value is read as a whole.
* `Memory.readers_agree`: **the three readers agree**, also about taints.
-/

namespace GuardFinder.Memory

/-! ### Histories -/

/-- What can be done to memory, one thing after the other: `values` are the values at hand, and `s`
has the tags that are not given out yet. -/
inductive Built : Memory → Supply → List Value → Prop
  /-- Nothing was written yet. -/
  | start (s : Supply) : Built {} s []
  /-- A new value with any word. -/
  | make {m s values} (h : Built m s values) (word : Term) :
    Built m (s.value word).2 ((s.value word).1 :: values)
  | storeWord {m s values} (h : Built m s values) (offset : Nat) {v : Value} (hv : v ∈ values) :
    Built (m.storeWord offset v) s values
  | storeByte {m s values} (h : Built m s values) (offset : Nat) {v : Value} (hv : v ∈ values) :
    Built (m.storeByte offset v) s values
  | storeBytes {m s values} (h : Built m s values) (offset : Nat) (bytes : Bytes) :
    Built (m.storeBytes offset bytes) s values
  /-- New values whose words are no constants. -/
  | storeSymbolic {m s values} (h : Built m s values) (offset length : Nat) (source : Nat → Term)
    (hsource : ∀ d < length, (source d).const? = none) :
    Built (m.storeSymbolic s offset length source).1 (m.storeSymbolic s offset length source).2
      values
  /-- Copies for some values in memory or for all of them, perhaps several for one value. -/
  | copy {m m' s t values} (h : Built m s values) (hnew : m.Retagged m' s.nextTag t.nextTag) :
    Built m' t values
  /-- What was read is at hand from then on. -/
  | load {m s values} (h : Built m s values) (offset : Nat) :
    Built (m.load s offset).memory (m.load s offset).supply ((m.load s offset).value :: values)

variable {m m' : Memory} {s : Supply} {values : List Value} {offset length : Nat}

/-- Such a memory can be kept beside an array of bytes. -/
theorem Built.tracks (h : Built m s values) (r : Spelling) : ∃ M, Tracks r m s values M := by
  induction h with
  | start s => exact ⟨_, tracks_start s⟩
  | make h word ih =>
    obtain ⟨M, ih⟩ := ih
    exact ⟨M, ih.make word⟩
  | storeWord h offset hv ih =>
    obtain ⟨M, ih⟩ := ih
    refine ⟨_, ih.of_holds rfl fun w hw => ?_⟩
    rcases holds_storeWord hw with hold | rfl
    · exact .inl hold
    · exact .inr hv
  | storeByte h offset hv ih =>
    obtain ⟨M, ih⟩ := ih
    refine ⟨_, ih.of_holds rfl fun w hw => ?_⟩
    rcases holds_storeByte hw with hold | rfl
    · exact .inl hold
    · exact .inr hv
  | storeBytes h offset bytes ih =>
    obtain ⟨M, ih⟩ := ih
    exact ⟨_, ih.of_holds rfl fun w hw => .inl (holds_storeBytes hw)⟩
  | storeSymbolic h offset length source hsource ih =>
    obtain ⟨M, ih⟩ := ih
    exact ⟨_, ih.storeSymbolic offset length source⟩
  | copy h hnew ih =>
    obtain ⟨M, ih⟩ := ih
    exact ⟨M, ih.of_retagged hnew⟩
  | load h offset ih =>
    obtain ⟨M, ih⟩ := ih
    exact ⟨M, ih.load offset⟩

theorem Built.tidy (h : Built m s values) : s.Tidy fun v => v ∈ values ∨ m.Holds v :=
  (h.tracks callerSpelling).elim fun _ htracks => htracks.tidy

theorem Built.tidy_holds (h : Built m s values) : s.Tidy m.Holds :=
  (h.tracks callerSpelling).elim fun _ htracks => htracks.holds

/-! ### Parts of constants -/

/-- Memory has parts only of values that are no constants. -/
def Symbolic (m : Memory) : Prop := ∀ v, m.Holds v → v.const? = none

theorem Symbolic.write (h : m.Symbolic) {row : List Cell}
    (hrow : ∀ v i, Cell.part v i ∈ row → v.const? = none) (offset : Nat) :
    (m.write offset row).Symbolic := by
  intro v hv
  rcases holds_write hv with hold | ⟨i, hi⟩
  · exact h v hold
  · exact hrow v i hi

theorem Symbolic.storeWord (h : m.Symbolic) (offset : Nat) (w : Value) :
    (m.storeWord offset w).Symbolic := by
  unfold Memory.storeWord
  split
  · exact h.write (by simp) offset
  · next hw =>
    refine h.write (fun v i hi => ?_) offset
    simp only [Cell.ofValue, List.mem_map, Cell.part.injEq] at hi
    obtain ⟨-, -, rfl, -⟩ := hi
    exact hw

theorem Symbolic.storeByte (h : m.Symbolic) (offset : Nat) (w : Value) :
    (m.storeByte offset w).Symbolic := by
  unfold Memory.storeByte
  split
  · exact h.write (by simp) offset
  · next hw =>
    refine h.write (fun v i hi => ?_) offset
    obtain ⟨rfl, -⟩ := Cell.part.inj (List.mem_singleton.mp hi)
    exact hw

theorem Symbolic.storeSymbolic (h : m.Symbolic) {source : Nat → Term}
    (hsource : ∀ d < length, (source d).const? = none) :
    (m.storeSymbolic s offset length source).1.Symbolic := by
  rintro v ⟨a, i, hcell⟩
  rw [getElem?_storeSymbolic] at hcell
  split at hcell
  · obtain ⟨rfl, -⟩ := Cell.part.inj (Option.some.inj hcell)
    exact hsource _ (by omega)
  · exact h v ⟨a, i, hcell⟩

/-- A copy has the word of its original. -/
theorem Symbolic.of_retagged {base next : Nat} (h : m.Symbolic) (hnew : m.Retagged m' base next) :
    m'.Symbolic := by
  rintro v ⟨a, i, hcell⟩
  rcases hnew.cell a with hsame | ⟨w, j, tag, hold, hcopy, -⟩
  · exact h v ⟨a, i, hsame ▸ hcell⟩
  · obtain ⟨rfl, -⟩ := Cell.part.inj (Option.some.inj (hcopy.symm.trans hcell))
    exact h w ⟨a, j, hold⟩

/-- **No history puts parts of constants into memory.** -/
theorem Built.symbolic (h : Built m s values) : m.Symbolic := by
  induction h with
  | start s =>
    rintro v ⟨a, i, hcell⟩
    simp at hcell
  | make h word ih => exact ih
  | storeWord h offset hv ih => exact ih.storeWord offset _
  | storeByte h offset hv ih => exact ih.storeByte offset _
  | storeBytes h offset bytes ih => exact ih.write (by simp) offset
  | storeSymbolic h offset length source hsource ih => exact ih.storeSymbolic hsource
  | copy h hnew ih => exact ih.of_retagged hnew
  | load h offset ih =>
    intro v hv
    rw [memory_load] at hv
    exact ih v (holds_touch hv)

/-! ### Known words -/

/-- Bytes of a whole word and the word tell each other. -/
theorem ofBytes_eq_iff {bytes : Bytes} (h : bytes.length = 32) {w : Word} :
    Word.ofBytes bytes = w ↔ bytes = Word.toBytes w := by
  constructor
  · rintro rfl
    rw [Word.toBytes_ofBytes (Nat.le_of_eq h), h]
    rfl
  · rintro rfl
    exact Word.ofBytes_toBytes w

theorem knownWord?_eq_some_iff {w : Word} :
    m.knownWord? offset = some w ↔ m.bytes? offset 32 = some (Word.toBytes w) := by
  rw [knownWord?, ← bytes?_eq, Option.map_eq_some_iff]
  constructor
  · rintro ⟨bytes, hbytes, hw⟩
    have hlength := (bytes?_eq_some_iff.mp hbytes).1
    rw [hbytes, (ofBytes_eq_iff hlength).mp hw]
  · intro h
    exact ⟨_, h, Word.ofBytes_toBytes w⟩

/-- A row of 32 cells stands for a number if all its bytes are known. -/
theorem wordOf_row_eq_const_iff {w : Word} :
    wordOf (m.row offset 32) = .const w ↔ m.bytes? offset 32 = some (Word.toBytes w) := by
  rw [wordOf, ← bytes?_eq]
  split
  · next bytes hbytes =>
    have hlength : bytes.length = 32 := (bytes?_eq_some_iff.mp hbytes).1
    rw [hbytes, Term.const.injEq, ofBytes_eq_iff hlength, Option.some.injEq]
  · next hnone => simp [hnone]

theorem bytes?_eq_none_of_part {v : Value} {i : Fin 32}
    (hpart : m.cells[offset]? = some (.part v i)) (hlength : 0 < length) :
    m.bytes? offset length = none := by
  refine Option.eq_none_iff_forall_ne_some.mpr fun bytes hbytes => ?_
  obtain ⟨hlen, hcells⟩ := bytes?_eq_some_iff.mp hbytes
  have hfirst := hcells 0 hlength
  rw [Nat.add_zero, hpart, List.getElem?_eq_getElem (by omega)] at hfirst
  cases hfirst

/-! ### Values read as a whole -/

/-- **A value is read as a whole if its 32 bytes stand in a row.** -/
theorem wholeValue?_eq_some_iff (hm : s.Tidy m.Holds) {v : Value} :
    m.wholeValue? offset = some v ↔ ∀ i : Fin 32, m.cells[offset + i.val]? = some (.part v i) := by
  constructor
  · intro h i
    obtain ⟨index, hfirst, hparts⟩ := getElem?_of_wholeValue? h
    obtain ⟨other, htag, hcell⟩ := hparts i
    have hword : other.word = v.word := hm.word_eq ⟨_, i, hcell⟩ ⟨_, index, hfirst⟩ htag
    obtain ⟨word, tag⟩ := other
    obtain ⟨rfl, rfl⟩ : word = v.word ∧ tag = v.tag := ⟨hword, htag⟩
    exact hcell
  · intro h
    have hfirst : m.cells[offset]? = some (.part v 0) := h 0
    unfold wholeValue?
    simp only [hfirst]
    refine if_pos (List.all_eq_true.mpr fun i _ => ?_)
    simp [h i]

theorem load_of_whole {v : Value} (h : m.wholeValue? offset = some v) :
    m.load s offset = ⟨m.touch offset 32, v, s, []⟩ := by
  simp only [load, h]

theorem load_of_none (h : m.wholeValue? offset = none) :
    m.load s offset = ⟨m.touch offset 32, ⟨wordOf (m.row offset 32), s.nextTag⟩,
      { s with nextTag := s.nextTag + 1 }, [⟨s.nextTag, m.tags offset 32⟩]⟩ := by
  simp only [load_eq, h, tags_eq]
  rfl

/-! ### Taints of a range -/

/-- A part of the value is among `length` bytes from `offset` on. -/
def Occupied (m : Memory) (offset length : Nat) (v : Value) : Prop :=
  ∃ i < length, ∃ index, m.cells[offset + i]? = some (.part v index)

theorem mem_tags {tag : Nat} :
    tag ∈ m.tags offset length ↔ ∃ v, m.Occupied offset length v ∧ v.tag = tag := by
  rw [tags_eq]
  unfold tagsOf row Occupied
  simp only [List.mem_filterMap, List.mem_map, List.mem_range]
  constructor
  · rintro ⟨cell, ⟨i, hi, rfl⟩, htag⟩
    obtain ⟨cell, hcell, htag⟩ := Option.bind_eq_some_iff.mp htag
    cases cell with
    | byte b => cases htag
    | part v index => exact ⟨v, ⟨i, hi, index, hcell⟩, Option.some.inj htag⟩
  · rintro ⟨v, ⟨i, hi, index, hcell⟩, rfl⟩
    exact ⟨_, ⟨i, hi, rfl⟩, by rw [hcell]; rfl⟩

theorem mem_union_tags (τ : Taints) (a : Taint) :
    a ∈ τ.union (m.tags offset length) ↔ ∃ v, m.Occupied offset length v ∧ a ∈ τ.get v.tag := by
  rw [Taints.mem_union]
  constructor
  · rintro ⟨tag, htag, ha⟩
    obtain ⟨v, hv, rfl⟩ := mem_tags.mp htag
    exact ⟨v, hv, ha⟩
  · rintro ⟨v, hv, ha⟩
    exact ⟨v.tag, mem_tags.mpr ⟨v, hv, rfl⟩, ha⟩

/-- No other value has a part in a row of 32 bytes of one value. -/
theorem occupied_iff_eq {v w : Value}
    (h : ∀ i : Fin 32, m.cells[offset + i.val]? = some (.part v i)) :
    m.Occupied offset 32 w ↔ w = v := by
  constructor
  · rintro ⟨i, hi, index, hcell⟩
    exact (Cell.part.inj (Option.some.inj (hcell.symm.trans (h ⟨i, hi⟩)))).1
  · rintro rfl
    exact ⟨0, by omega, 0, h 0⟩

/-! ### The three readers -/

theorem word_load_eq_const_iff (h : Built m s values) {w : Word} :
    (m.load s offset).value.word = .const w ↔ m.bytes? offset 32 = some (Word.toBytes w) := by
  cases hwhole : m.wholeValue? offset with
  | none =>
    rw [load_of_none hwhole]
    exact wordOf_row_eq_const_iff
  | some v =>
    -- a value in memory is no constant, and its bytes are not known
    obtain ⟨index, hfirst, -⟩ := getElem?_of_wholeValue? hwhole
    have hconst : v.word.const? = none := h.symbolic v ⟨_, _, hfirst⟩
    rw [load_of_whole hwhole, bytes?_eq_none_of_part hfirst (by omega)]
    refine iff_of_false (fun hw => ?_) (by simp)
    rw [hw] at hconst
    cases hconst

theorem mem_taints_load (h : Built m s values) (τ : Taints) (a : Taint) :
    a ∈ (τ.inheritAll (m.load s offset).inheritances).get (m.load s offset).value.tag ↔
      ∃ v, m.Occupied offset 32 v ∧ a ∈ τ.get v.tag := by
  cases hwhole : m.wholeValue? offset with
  | none =>
    rw [load_of_none hwhole, ← mem_union_tags]
    show a ∈ (τ.inherit _).get _ ↔ _
    rw [Taints.get_inherit, if_pos rfl]
  | some v =>
    rw [load_of_whole hwhole]
    simp only [occupied_iff_eq ((wholeValue?_eq_some_iff h.tidy_holds).mp hwhole), exists_eq_left]
    rfl

theorem value_load_eq_iff (h : Built m s values) {v : Value} :
    (m.load s offset).value = v ∧ m.Holds v ↔
      ∀ i : Fin 32, m.cells[offset + i.val]? = some (.part v i) := by
  rw [← wholeValue?_eq_some_iff h.tidy_holds]
  cases hwhole : m.wholeValue? offset with
  | none =>
    -- a new value has a tag that no value in memory has
    rw [load_of_none hwhole]
    refine iff_of_false ?_ (by simp)
    rintro ⟨rfl, hv⟩
    exact absurd (h.tidy_holds.tag_lt hv) (Nat.lt_irrefl _)
  | some w =>
    obtain ⟨index, hfirst, -⟩ := getElem?_of_wholeValue? hwhole
    rw [load_of_whole hwhole, Option.some.injEq]
    refine and_iff_left_of_imp ?_
    rintro rfl
    exact ⟨_, _, hfirst⟩

/-- **The three readers agree.** A word is known just if a load gives this number, and just if the
bytes of the range are its bytes. A load gives a value with the taints of all values that have a
part in the range, which are those of the range. It gives a value that is in memory just if the 32
bytes of this value stand in a row, and otherwise a new one. -/
theorem readers_agree (h : Built m s values) (offset : Nat) :
    (∀ w, (m.knownWord? offset = some w ↔ (m.load s offset).value.word = .const w) ∧
      ((m.load s offset).value.word = .const w ↔
        m.bytes? offset 32 = some (Word.toBytes w))) ∧
    (∀ (τ : Taints) (a : Taint),
      (a ∈ (τ.inheritAll (m.load s offset).inheritances).get (m.load s offset).value.tag ↔
        ∃ v, m.Occupied offset 32 v ∧ a ∈ τ.get v.tag) ∧
      (a ∈ τ.union (m.tags offset 32) ↔ ∃ v, m.Occupied offset 32 v ∧ a ∈ τ.get v.tag)) ∧
    (∀ v, (m.load s offset).value = v ∧ m.Holds v ↔
      ∀ i : Fin 32, m.cells[offset + i.val]? = some (.part v i)) ∧
    (m.Holds (m.load s offset).value ∨
      ∀ v, v ∈ values ∨ m.Holds v → v.tag ≠ (m.load s offset).value.tag) := by
  refine ⟨fun w => ⟨?_, word_load_eq_const_iff h⟩,
    fun τ a => ⟨mem_taints_load h τ a, mem_union_tags τ a⟩, fun v => value_load_eq_iff h, ?_⟩
  · rw [knownWord?_eq_some_iff, word_load_eq_const_iff h]
  · rcases m.value_load s offset with ⟨hheld, -⟩ | ⟨htag, -⟩
    · exact .inl hheld
    · exact .inr fun v hv => htag ▸ Nat.ne_of_lt (h.tidy.tag_lt hv)

/-- The caller is stored and a number behind it, and the values in memory are copied. The number is
known, and the copy of the caller is read as a whole. -/
theorem readers_agree_copied :
    ∃ m s values, Built m s values ∧ m.bytes? 32 32 = some (Word.toBytes 5) ∧
      (m.load s 32).value.word = .const 5 ∧
      (∀ i : Fin 32, m.cells[0 + i.val]? = some (.part ⟨.env .caller, 2⟩ i)) ∧
      (m.load s 0).value = ⟨.env .caller, 2⟩ := by
  have hstored : Built _ _ _ := (((Built.start {}).make (.const 5)).storeWord 32
    List.mem_cons_self).make (.env .caller) |>.storeWord 0 List.mem_cons_self
  have hcopied := hstored.copy (retagged_detach hstored.tidy_holds)
  exact ⟨_, _, _, hcopied, by decide +kernel,
    ((readers_agree hcopied 32).1 5).2.mpr (by decide +kernel), by decide +kernel,
    (((readers_agree hcopied 0).2.2.1 _).mpr (by decide +kernel)).1⟩

end GuardFinder.Memory

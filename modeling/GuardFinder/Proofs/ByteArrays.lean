import GuardFinder.Proofs.Forks

/-!
# Memory as an array of bytes

What is done to a path's memory can be done to an array of bytes, and reads then find the same. The
array starts with zeros, and gets the bytes of the words that are stored. Which bytes are known,
which words are kept as values and which tags they have does not show.

* `Memory.bytesIn_storeBytes`, `Memory.bytesIn_storeSymbolic`: what rows of bytes and of symbolic
  words change.
* `Memory.Retagged`: memory in which some tags are new. `Memory.retagged_detach`,
  `Memory.retagged_detachBytes`: copies of values are that.
* `Memory.Handled`: a history of memory, beside the array. `Memory.Handled.tracks`: what all
  histories keep.
* `Memory.reads_of_handled`: **memory refines an array of bytes**.
-/

namespace GuardFinder

/-! ### Arrays of bytes -/

namespace Evm.Store

/-- Memory after bytes were written. -/
def putBytes (m : Store) (offset : Nat) (bytes : Bytes) : Store :=
  fun a => if offset ≤ a ∧ a < offset + bytes.length then bytes.getD (a - offset) 0 else m a

/-- Memory after `length` bytes were written, which are the bytes of words in a row. The word at
distance `d` from `offset` is `source d`. -/
def putWords (m : Store) (offset length : Nat) (source : Nat → Word) : Store :=
  fun a => if offset ≤ a ∧ a < offset + length then
    Word.byteAt (source (32 * ((a - offset) / 32))) ((a - offset) % 32) else m a

/-- The bytes of a range. -/
def bytes (m : Store) (offset length : Nat) : Bytes :=
  (List.range length).map fun i => m (offset + i)

end Evm.Store

/-- Numbers in a row, in groups of 32. -/
theorem flatMap_range_groups {α : Type} (f : Nat → α) (n count : Nat) :
    (List.range count).flatMap (fun k =>
      (List.range (min 32 (n - 32 * k))).map fun i => f (32 * k + i)) =
    (List.range (min n (32 * count))).map f := by
  induction count with
  | zero => rw [Nat.mul_zero, Nat.min_zero]; rfl
  | succ count ih =>
    have hsplit : min n (32 * (count + 1)) = min n (32 * count) + min 32 (n - 32 * count) := by
      omega
    rw [List.range_succ, List.flatMap_append, ih, List.flatMap_singleton, hsplit, List.range_add,
      List.map_append, List.map_map]
    refine congrArg _ (List.map_congr_left fun i hi => ?_)
    have hi := List.mem_range.mp hi
    rw [Function.comp_apply, show min n (32 * count) = 32 * count by omega]

namespace Memory

variable (r : Spelling)

/-! ### Rows of bytes and of symbolic words -/

/-- **Storing bytes writes them.** -/
theorem bytesIn_storeBytes (m : Memory) (offset : Nat) (bytes : Bytes) :
    (m.storeBytes offset bytes).bytesIn r = (m.bytesIn r).putBytes offset bytes := by
  funext a
  unfold storeBytes bytesIn Evm.Store.putBytes
  rw [getElem?_write, List.length_map]
  split
  · next ha =>
    have hlt : a - offset < bytes.length := by omega
    rw [List.getElem?_map, List.getElem?_eq_getElem hlt, List.getD_eq_getElem?_getD,
      List.getElem?_eq_getElem hlt]
    rfl
  · rfl

theorem ofValue_eq (v : Value) (count : Nat) :
    Cell.ofValue v count = (List.range (min 32 count)).map fun i => .part v (Fin.ofNat 32 i) := by
  have hrange : (List.range 32).map (Fin.ofNat 32) = List.finRange 32 := by decide
  rw [Cell.ofValue, ← hrange, ← List.map_take, List.take_range, List.map_map, Nat.min_comm]
  rfl

/-- The cells of symbolic words in a row, of which the last may be cut short. -/
theorem flatMap_ofValue (tag length : Nat) (source : Nat → Term) :
    ((List.range ((length + 31) / 32)).flatMap fun k =>
      Cell.ofValue ⟨source (32 * k), tag + k⟩ (length - 32 * k)) =
    (List.range length).map fun j =>
      .part ⟨source (32 * (j / 32)), tag + j / 32⟩ (Fin.ofNat 32 j) := by
  have hall : min length (32 * ((length + 31) / 32)) = length := by omega
  rw [← hall, ← flatMap_range_groups, hall]
  congr 1
  funext k
  rw [ofValue_eq]
  refine List.map_congr_left fun i hi => ?_
  have hi : i < 32 := Nat.lt_of_lt_of_le (List.mem_range.mp hi) (Nat.min_le_left ..)
  have hindex : Fin.ofNat 32 (32 * k + i) = Fin.ofNat 32 i := Fin.ext (Nat.mul_add_mod ..)
  simp only [show (32 * k + i) / 32 = k by omega, hindex]

theorem getElem?_storeSymbolic (m : Memory) (s : Supply) (offset length : Nat)
    (source : Nat → Term) (a : Nat) :
    (m.storeSymbolic s offset length source).1.cells[a]? =
      if offset ≤ a ∧ a < offset + length then
        some (.part ⟨source (32 * ((a - offset) / 32)), s.nextTag + (a - offset) / 32⟩
          (Fin.ofNat 32 (a - offset)))
      else m.cells[a]? := by
  simp only [storeSymbolic, flatMap_ofValue]
  rw [getElem?_write, List.length_map, List.length_range]
  split
  · next ha =>
    have hlt : a - offset < length := by omega
    rw [List.getElem?_map, List.getElem?_range hlt, Option.map_some]
  · rfl

/-- **Storing symbolic words writes their bytes.** -/
theorem bytesIn_storeSymbolic (m : Memory) (s : Supply) (offset length : Nat)
    (source : Nat → Term) :
    (m.storeSymbolic s offset length source).1.bytesIn r =
      (m.bytesIn r).putWords offset length fun d => r.word (source d) := by
  funext a
  unfold bytesIn Evm.Store.putWords
  rw [getElem?_storeSymbolic]
  split
  · rfl
  · rfl

/-! ### New tags -/

/-- Memory in which some values have new tags, given out between `base` and `next`. Values with one
new tag have one word. -/
structure Retagged (m m' : Memory) (base next : Nat) : Prop where
  le : base ≤ next
  cell (a : Nat) : m'.cells[a]? = m.cells[a]? ∨ ∃ v i tag, m.cells[a]? = some (.part v i) ∧
    m'.cells[a]? = some (.part ⟨v.word, tag⟩ i) ∧ base ≤ tag ∧ tag < next
  word_eq (v w : Value) : m'.Holds v → m'.Holds w → base ≤ v.tag → v.tag = w.tag → v.word = w.word

section

variable {m m' : Memory} {base next : Nat} {s : Supply}

/-- New tags change no byte. -/
theorem Retagged.bytesIn_eq (h : m.Retagged m' base next) : m'.bytesIn r = m.bytesIn r := by
  funext a
  unfold bytesIn
  rcases h.cell a with heq | ⟨v, i, tag, hold, hnew, -⟩
  · rw [heq]
  · rw [hold, hnew]
    rfl

theorem Retagged.holds (h : m.Retagged m' base next) {v : Value} (hv : m'.Holds v) :
    m.Holds v ∨ base ≤ v.tag ∧ v.tag < next := by
  obtain ⟨a, i, hcell⟩ := hv
  rcases h.cell a with heq | ⟨w, j, tag, -, hnew, hrange⟩
  · exact .inl ⟨a, i, heq ▸ hcell⟩
  · rw [hnew] at hcell
    cases hcell
    exact .inr hrange

/-- **Copies of the values in memory have new tags.** Different tags have different copies. -/
theorem retagged_detach (h : s.Tidy m.Holds) :
    m.Retagged (m.detach s).memory s.nextTag (m.detach s).supply.nextTag := by
  have hfresh := Copies.fresh_ofValues s m.values
  have hcells (a : Nat) : (m.detach s).memory.cells[a]? =
      m.cells[a]?.map (Cell.mapValue (Copies.ofValues s m.values).rename) := getElem?_mapValues ..
  refine ⟨hfresh.base_le, fun a => ?_, fun v w hv hw hge htag => ?_⟩
  · rw [hcells]
    rcases hcell : m.cells[a]? with _ | b | ⟨v, i⟩
    · exact .inl rfl
    · exact .inl rfl
    · rcases (Copies.ofValues s m.values).tag_rename v with hname | hkept
      · exact .inr ⟨v, i, _, rfl, rfl, hfresh.range hname⟩
      · have hsame : (Copies.ofValues s m.values).rename v = v := congrArg (Value.mk v.word) hkept
        exact .inl (by rw [Option.map_some, Cell.mapValue, hsame])
  · obtain ⟨v', hv', rfl⟩ := holds_mapValues hv
    obtain ⟨w', hw', rfl⟩ := holds_mapValues hw
    have hword : v'.word = w'.word :=
      h.word_eq hv' hw' (hfresh.tag_eq (h.tag_lt hv') (h.tag_lt hw') htag)
    exact hword

/-- One more symbolic byte gets a value of its own. -/
theorem Retagged.insert {offset : Nat} {v : Value} {i : Fin 32} (h : m.Retagged m' base next)
    (hbase : ∀ w, m.Holds w → w.tag < base) (hcell : m.cells[offset]? = some (.part v i)) :
    m.Retagged { m' with cells := m'.cells.insert offset (.part { v with tag := next } i) } base
      (next + 1) := by
  have hcells (a : Nat) : (m'.cells.insert offset (.part { v with tag := next } i))[a]? =
      if offset = a then some (.part { v with tag := next } i) else m'.cells[a]? := by
    rw [Std.TreeMap.getElem?_insert]
    simp only [Std.LawfulEqCmp.compare_eq_iff_eq]
  refine ⟨Nat.le_succ_of_le h.le, fun a => ?_, ?_⟩
  · show (m'.cells.insert offset _)[a]? = _ ∨ ∃ v i tag, _ ∧ (m'.cells.insert offset _)[a]? = _ ∧ _
    rw [hcells]
    split
    · next ha => exact .inr ⟨v, i, next, ha ▸ hcell, rfl, h.le, Nat.lt_succ_self _⟩
    · rcases h.cell a with heq | ⟨w, j, tag, hold, hnew, hge, hlt⟩
      · exact .inl heq
      · exact .inr ⟨w, j, tag, hold, hnew, hge, Nat.lt_succ_of_lt hlt⟩
  · -- a value other than the new one has another tag
    have hcases {w : Value} {a : Nat} {j : Fin 32}
        (hw : (m'.cells.insert offset (.part { v with tag := next } i))[a]? = some (.part w j)) :
        w = { v with tag := next } ∨ m'.Holds w ∧ w.tag < next := by
      rw [hcells] at hw
      split at hw
      · cases hw
        exact .inl rfl
      · refine .inr ⟨⟨a, j, hw⟩, ?_⟩
        rcases h.holds ⟨a, j, hw⟩ with hold | ⟨-, hlt⟩
        · exact Nat.lt_of_lt_of_le (hbase w hold) h.le
        · exact hlt
    rintro w w' ⟨a, j, hw⟩ ⟨b, k, hw'⟩ hge htag
    rcases hcases hw with rfl | ⟨hw, hlt⟩ <;> rcases hcases hw' with rfl | ⟨hw', hlt'⟩
    · rfl
    · exact absurd htag (Nat.ne_of_gt hlt')
    · exact absurd htag (Nat.ne_of_lt hlt)
    · exact h.word_eq w w' hw hw' hge htag

theorem retagged_refl (h : ∀ v, m.Holds v → v.tag < base) : m.Retagged m base base :=
  ⟨Nat.le_refl _, fun _ => .inl rfl, fun v _ hv _ hge _ => absurd (h v hv) (Nat.not_lt_of_le hge)⟩

/-- **Copies for each byte have new tags.** -/
theorem retagged_detachBytes (h : ∀ v, m.Holds v → v.tag < s.nextTag) :
    m.Retagged (m.detachBytes s).memory s.nextTag (m.detachBytes s).supply.nextTag := by
  unfold detachBytes
  rw [Std.TreeMap.foldl_eq_foldl_toList]
  refine List.foldlRecOn (motive := fun d : Detached =>
    m.Retagged d.memory s.nextTag d.supply.nextTag) _ _ (retagged_refl h) fun d hd e he => ?_
  obtain ⟨offset, cell⟩ := e
  have hcell : m.cells[offset]? = some cell :=
    Std.TreeMap.mem_toList_iff_getElem?_eq_some.mp he
  cases cell with
  | byte b => exact hd
  | part v i => exact hd.insert h hcell

end

/-! ### Histories -/

/-- What can be done to memory, one thing after the other: `values` are the values at hand, `s` has
the tags that are not given out yet, and beside memory is the array of bytes to which the same is
done. -/
inductive Handled : Memory → Supply → List Value → Evm.Store → Prop
  /-- Nothing was written yet. -/
  | start (s : Supply) : Handled {} s [] fun _ => 0
  /-- A new value with any word. -/
  | make {m s values M} (h : Handled m s values M) (word : Term) :
    Handled m (s.value word).2 ((s.value word).1 :: values) M
  | storeWord {m s values M} (h : Handled m s values M) (offset : Nat) {v : Value}
    (hv : v ∈ values) :
    Handled (m.storeWord offset v) s values (M.putWord offset (r.word v.word))
  | storeByte {m s values M} (h : Handled m s values M) (offset : Nat) {v : Value}
    (hv : v ∈ values) :
    Handled (m.storeByte offset v) s values (M.putByte offset (r.word v.word))
  | storeBytes {m s values M} (h : Handled m s values M) (offset : Nat) (bytes : Bytes) :
    Handled (m.storeBytes offset bytes) s values (M.putBytes offset bytes)
  | storeSymbolic {m s values M} (h : Handled m s values M) (offset length : Nat)
    (source : Nat → Term) :
    Handled (m.storeSymbolic s offset length source).1 (m.storeSymbolic s offset length source).2
      values (M.putWords offset length fun d => r.word (source d))
  /-- Copies of all values in memory, one for each. -/
  | detach {m s values M} (h : Handled m s values M) :
    Handled (m.detach s).memory (m.detach s).supply values M
  /-- Copies of all values in memory, one for each byte. -/
  | detachBytes {m s values M} (h : Handled m s values M) :
    Handled (m.detachBytes s).memory (m.detachBytes s).supply values M
  /-- What was read is at hand from then on. -/
  | load {m s values M} (h : Handled m s values M) (offset : Nat) :
    Handled (m.load s offset).memory (m.load s offset).supply
      ((m.load s offset).value :: values) M

/-- What all histories keep: memory has the bytes of the array, and the values in memory and at hand
are tidy. -/
structure Tracks (m : Memory) (s : Supply) (values : List Value) (M : Evm.Store) : Prop where
  bytes : m.bytesIn r = M
  tidy : s.Tidy fun v => v ∈ values ∨ m.Holds v

variable {r : Spelling} {m m' : Memory} {s t : Supply} {values : List Value} {M : Evm.Store}

theorem Tracks.holds (h : Tracks r m s values M) : s.Tidy m.Holds :=
  ⟨fun _ hv => h.tidy.tag_lt (.inr hv), fun _ _ hv hw => h.tidy.word_eq (.inr hv) (.inr hw)⟩

theorem Tracks.coherent (h : Tracks r m s values M) : m.Coherent :=
  fun a b _ _ i j hv hw => h.holds.word_eq ⟨a, i, hv⟩ ⟨b, j, hw⟩

/-- Memory that holds no other values than before. -/
theorem Tracks.of_holds (h : Tracks r m s values M) {M' : Evm.Store} (hbytes : m'.bytesIn r = M')
    (hholds : ∀ v, m'.Holds v → m.Holds v ∨ v ∈ values) : Tracks r m' s values M' := by
  have hhas (v : Value) (hv : v ∈ values ∨ m'.Holds v) : v ∈ values ∨ m.Holds v := by
    rcases hv with hv | hv
    · exact .inl hv
    · exact (hholds v hv).symm
  exact ⟨hbytes, fun v hv => h.tidy.tag_lt (hhas v hv),
    fun v w hv hw => h.tidy.word_eq (hhas v hv) (hhas w hw)⟩

/-- Copies keep the bytes, and their tags differ from those of the values at hand. -/
theorem Tracks.of_retagged (h : Tracks r m s values M)
    (hnew : m.Retagged m' s.nextTag t.nextTag) : Tracks r m' t values M := by
  refine ⟨(hnew.bytesIn_eq r).trans h.bytes, h.tidy.of_new hnew.le (fun v hv => ?_) ?_⟩
  · rcases hv with hv | hv
    · exact .inl (.inl hv)
    · exact (hnew.holds hv).imp_left .inr
  · have hheld {v : Value} (hv : v ∈ values ∨ m'.Holds v) (hge : s.nextTag ≤ v.tag) :
        m'.Holds v := hv.resolve_left fun hv =>
      absurd (h.tidy.tag_lt (.inl hv)) (Nat.not_lt_of_le hge)
    intro v w hv hw hge htag
    exact hnew.word_eq v w (hheld hv hge) (hheld hw (htag ▸ hge)) hge htag

theorem Tracks.make (h : Tracks r m s values M) (word : Term) :
    Tracks r m (s.value word).2 ((s.value word).1 :: values) M := by
  refine ⟨h.bytes, h.tidy.of_words (Nat.le_succ _) (fun _ => word) fun v hv => ?_⟩
  rcases hv with hv | hv
  · rcases List.mem_cons.mp hv with rfl | hv
    · exact .inr ⟨Nat.le_refl _, Nat.lt_succ_self _, rfl⟩
    · exact .inl (.inl hv)
  · exact .inl (.inr hv)

theorem Tracks.storeSymbolic (h : Tracks r m s values M) (offset length : Nat)
    (source : Nat → Term) :
    Tracks r (m.storeSymbolic s offset length source).1 (m.storeSymbolic s offset length source).2
      values (M.putWords offset length fun d => r.word (source d)) := by
  refine ⟨by rw [bytesIn_storeSymbolic, h.bytes], h.tidy.of_words (Nat.le_add_right _ _)
    (fun tag => source (32 * (tag - s.nextTag))) fun v hv => ?_⟩
  rcases hv with hv | hv
  · exact .inl (.inl hv)
  · rcases holds_storeSymbolic hv with hold | hnew
    · exact .inl (.inr hold)
    · exact .inr hnew

theorem Tracks.load (h : Tracks r m s values M) (offset : Nat) :
    Tracks r (m.load s offset).memory (m.load s offset).supply ((m.load s offset).value :: values)
      M := by
  have hbytes : (m.load s offset).memory.bytesIn r = M := by
    rw [memory_load, bytesIn_touch, h.bytes]
  have hle : s.nextTag ≤ (m.load s offset).supply.nextTag := by
    rcases m.value_load s offset with ⟨-, hsupply⟩ | ⟨-, hsupply⟩
    · exact Nat.le_of_eq (by rw [hsupply])
    · rw [hsupply]
      exact Nat.le_succ _
  refine ⟨hbytes, h.tidy.of_words hle (fun _ => (m.load s offset).value.word) fun v hv => ?_⟩
  rcases hv with hv | hv
  · rcases List.mem_cons.mp hv with rfl | hv
    · rcases m.value_load s offset with ⟨hheld, -⟩ | ⟨htag, hsupply⟩
      · exact .inl (.inr hheld)
      · exact .inr ⟨Nat.le_of_eq htag.symm, by omega, rfl⟩
    · exact .inl (.inl hv)
  · rw [memory_load] at hv
    exact .inl (.inr (holds_touch hv))

theorem tracks_start (s : Supply) : Tracks r {} s [] fun _ => 0 := by
  have hnone (v : Value) : ¬(v ∈ [] ∨ ({} : Memory).Holds v) := by
    rintro (hv | ⟨a, i, hcell⟩)
    · exact absurd hv List.not_mem_nil
    · simp at hcell
  refine ⟨?_, fun v hv => absurd hv (hnone v), fun v _ hv => absurd hv (hnone v)⟩
  funext a
  simp [bytesIn, Cell.byteIn]

/-- **All histories keep memory and array together.** -/
theorem Handled.tracks (h : Handled r m s values M) : Tracks r m s values M := by
  induction h with
  | start s => exact tracks_start s
  | make h word ih => exact ih.make word
  | storeWord h offset hv ih =>
    refine ih.of_holds (by rw [bytesIn_storeWord, ih.bytes]) fun w hw => ?_
    rcases holds_storeWord hw with hold | rfl
    · exact .inl hold
    · exact .inr hv
  | storeByte h offset hv ih =>
    refine ih.of_holds (by rw [bytesIn_storeByte, ih.bytes]) fun w hw => ?_
    rcases holds_storeByte hw with hold | rfl
    · exact .inl hold
    · exact .inr hv
  | storeBytes h offset bytes ih =>
    exact ih.of_holds (by rw [bytesIn_storeBytes, ih.bytes]) fun w hw => .inl (holds_storeBytes hw)
  | storeSymbolic h offset length source ih => exact ih.storeSymbolic offset length source
  | detach h ih => exact ih.of_retagged (retagged_detach ih.holds)
  | detachBytes h ih => exact ih.of_retagged (retagged_detachBytes ih.holds.tag_lt)
  | load h offset ih => exact ih.load offset

/-! ### Reads -/

theorem Tracks.map_byteIn_row (h : Tracks r m s values M) (offset length : Nat) :
    (m.row offset length).map (Cell.byteIn r) = M.bytes offset length := by
  rw [Memory.map_byteIn_row, h.bytes]
  rfl

/-- **Memory refines an array of bytes.** After any history a load finds the word of the array.
Bytes of a range that are known are those of the array, and so are the bytes of a known word. The
words of a range, one for every 32 bytes and one for the rest, are the numbers that the bytes of the
array spell. -/
theorem reads_of_handled (h : Handled r m s values M) (offset length : Nat) :
    r.word (m.load s offset).value.word = M.word offset ∧
    (∀ bytes, m.bytes? offset length = some bytes → bytes = M.bytes offset length) ∧
    (∀ w, m.knownWord? offset = some w → w = M.word offset) ∧
    (m.words offset length).length = (length + 31) / 32 ∧
    ∀ k t, (m.words offset length)[k]? = some t → (r.word t).toNat =
      Word.natOfBytes (M.bytes (offset + 32 * k) (min 32 (length - 32 * k))) := by
  have htracks := h.tracks
  have hknown {offset length : Nat} {bytes : Bytes}
      (hbytes : knownBytes? (m.row offset length) = some bytes) : bytes = M.bytes offset length := by
    rw [← map_byteIn_of_knownBytes? r hbytes, htracks.map_byteIn_row]
  refine ⟨?_, fun bytes hbytes => hknown (m.bytes?_eq offset length ▸ hbytes), fun w hw => ?_, ?_,
    fun k t ht => ?_⟩
  · rw [word_load r htracks.coherent, htracks.bytes]
  · obtain ⟨bytes, hbytes, rfl⟩ := Option.map_eq_some_iff.mp hw
    rw [hknown hbytes]
    rfl
  · rw [words, List.length_map, List.length_range]
  · have hshort : (m.row (offset + 32 * k) (min 32 (length - 32 * k))).length ≤ 32 := by
      rw [length_row]
      exact Nat.min_le_left ..
    obtain ⟨hk, ht⟩ := List.getElem?_eq_some_iff.mp ht
    simp only [words_eq, List.getElem_map, List.getElem_range] at ht
    rw [← ht, toNat_wordOf r hshort, htracks.map_byteIn_row]

/-- The words of terms where the caller is `0x…0102`. -/
def callerSpelling : Spelling :=
  Valuation.spelling ⟨fun _ => 0x0102, id, id, fun _ => id, fun _ => 0, fun _ _ => 0⟩

/-- The caller is stored, one of its bytes is overwritten, every other byte gets a tag of its own,
and a word is read that begins one byte later. -/
theorem reads_of_handled_overlapping :
    ∃ m s values M, Handled callerSpelling m s values M ∧ m.bytes? 0 32 = none ∧
      callerSpelling.word (m.load s 1).value.word = M.word 1 ∧
      M.word 1 = 0xff00000000000000000000000000000000010200 := by
  have hstored : Handled callerSpelling _ _ _ _ :=
    ((Handled.start {}).make (.env .caller)).storeWord 0 List.mem_cons_self
  have hsplit := (hstored.storeBytes 13 [0xff]).detachBytes
  exact ⟨_, _, _, _, hsplit, by decide +kernel, (reads_of_handled hsplit 1 32).1,
    by decide +kernel⟩

end Memory

end GuardFinder

import GuardFinder.Proofs.Forks
import Mathlib.Data.List.Basic

/-!
# Names do not matter

The tags of values and the numbers of results are names: nothing but the equality of two of them is
ever looked at. So a path that has other names does the same, with other names.

* `Renaming`: other names, different ones for different ones. `Term.rename`: a term with other
  names. Everything that is made of terms and tags is renamed with it; memory and storage are compared
  place by place.
* `Renaming.Raises`: the names that a stretch of a supply gives out are all raised by the same.
* `Path.renamed_execute`: **instructions commute with renaming**, if the names that they give out
  are raised as the supply is. `Path.renamed_fork`: so do forks.
* `Path.Named`: a path has no names but those that a supply has given out, so renaming the others
  does not change it.
-/

namespace GuardFinder

/-- Other names for the tags of values and for the numbers of results. -/
structure Renaming where
  tags : Nat → Nat
  ids : Nat → Nat
  tags_injective : Function.Injective tags
  ids_injective : Function.Injective ids

namespace Renaming

/-- One renaming after the other. -/
def comp (ρ π : Renaming) : Renaming where
  tags := ρ.tags ∘ π.tags
  ids := ρ.ids ∘ π.ids
  tags_injective := ρ.tags_injective.comp π.tags_injective
  ids_injective := ρ.ids_injective.comp π.ids_injective

/-- Tags from that of a supply on are raised by `a`, numbers of results by `b`. -/
def gap (s : Supply) (a b : Nat) : Renaming where
  tags i := if i < s.nextTag then i else i + a
  ids i := if i ≤ s.havocs then i else i + b
  tags_injective i j h := by
    simp only at h
    split at h <;> split at h <;> omega
  ids_injective i j h := by
    simp only at h
    split at h <;> split at h <;> omega

/-- What a stretch of a supply gives out is raised, tags by `a` and numbers of results by `b`. -/
structure Raises (ρ : Renaming) (a b : Nat) (s t : Supply) : Prop where
  tags : ∀ i, s.nextTag ≤ i → i < t.nextTag → ρ.tags i = i + a
  ids : ∀ i, s.havocs < i → i ≤ t.havocs → ρ.ids i = i + b

/-- The names that a supply has given out stay. -/
structure Fixes (ρ : Renaming) (s : Supply) : Prop where
  tags : ∀ i < s.nextTag, ρ.tags i = i
  ids : ∀ i ≤ s.havocs, ρ.ids i = i

end Renaming

/-- The supply that has given out more, `a` tags and `b` numbers of results. -/
def Supply.raise (s : Supply) (a b : Nat) : Supply := ⟨s.nextTag + a, s.havocs + b⟩

/-- An inheritance with other tags. -/
def Inheritance.rename (ρ : Renaming) (i : Inheritance) : Inheritance :=
  ⟨ρ.tags i.heir, i.sources.map ρ.tags⟩

/-! ### Terms -/

namespace Term

mutual

/-- The term with other numbers of results. -/
def rename (ρ : Renaming) : Term → Term
  | .const v => .const v
  | .env op => .env op
  | .callData offset => .callData (rename ρ offset)
  | .storage slot => .storage (rename ρ slot)
  | .unary op a => .unary op (rename ρ a)
  | .binary op a b => .binary op (rename ρ a) (rename ρ b)
  | .keccak words => .keccak (renameAll ρ words)
  | .concat bytes => .concat (renameAll ρ bytes)
  | .havoc origin id => .havoc origin (ρ.ids id)

/-- Several terms with other numbers of results. -/
def renameAll (ρ : Renaming) : List Term → List Term
  | [] => []
  | t :: ts => rename ρ t :: renameAll ρ ts

end

theorem renameAll_eq_map (ρ : Renaming) (ts : List Term) :
    renameAll ρ ts = ts.map (rename ρ) := by
  induction ts with
  | nil => rw [renameAll, List.map_nil]
  | cons t ts ih => rw [renameAll, ih, List.map_cons]

mutual

theorem eq_of_rename_eq {ρ : Renaming} : ∀ {a b : Term}, a.rename ρ = b.rename ρ → a = b
  | .const v, b, h => by cases b <;> simp_all [rename]
  | .env v, b, h => by cases b <;> simp_all [rename]
  | .callData x, b, h => by
    cases b <;> simp_all [rename]
    exact eq_of_rename_eq h
  | .storage x, b, h => by
    cases b <;> simp_all [rename]
    exact eq_of_rename_eq h
  | .unary op x, b, h => by
    cases b <;> simp_all [rename]
    exact eq_of_rename_eq h.2
  | .binary op x y, b, h => by
    cases b <;> simp_all [rename]
    exact ⟨eq_of_rename_eq h.2.1, eq_of_rename_eq h.2.2⟩
  | .keccak xs, b, h => by
    cases b <;> simp_all [rename]
    exact eq_of_renameAll_eq h
  | .concat xs, b, h => by
    cases b <;> simp_all [rename]
    exact eq_of_renameAll_eq h
  | .havoc op x, b, h => by cases b <;> simp_all [rename, ρ.ids_injective.eq_iff]

theorem eq_of_renameAll_eq {ρ : Renaming} :
    ∀ {as bs : List Term}, renameAll ρ as = renameAll ρ bs → as = bs
  | [], bs, h => by cases bs <;> simp_all [renameAll]
  | a :: as, bs, h => by
    cases bs <;> simp_all [renameAll]
    exact ⟨eq_of_rename_eq h.1, eq_of_renameAll_eq h.2⟩

end

mutual

theorem rename_rename (ρ π : Renaming) : ∀ t : Term, (t.rename π).rename ρ = t.rename (ρ.comp π)
  | .const _ | .env _ | .havoc _ _ => by simp only [rename, Renaming.comp, Function.comp_apply]
  | .callData a | .storage a | .unary _ a => by simp only [rename, rename_rename ρ π a]
  | .binary _ a b => by simp only [rename, rename_rename ρ π a, rename_rename ρ π b]
  | .keccak ts | .concat ts => by simp only [rename, renameAll_renameAll ρ π ts]

theorem renameAll_renameAll (ρ π : Renaming) :
    ∀ ts : List Term, renameAll ρ (renameAll π ts) = renameAll (ρ.comp π) ts
  | [] => rfl
  | t :: ts => by simp only [renameAll, rename_rename ρ π t, renameAll_renameAll ρ π ts]

end

mutual

/-- Terms have no tags. -/
theorem rename_congr {ρ π : Renaming} (h : ρ.ids = π.ids) : ∀ t : Term, t.rename ρ = t.rename π
  | .const _ | .env _ | .havoc _ _ => by simp only [rename, h]
  | .callData a | .storage a | .unary _ a => by simp only [rename, rename_congr h a]
  | .binary _ a b => by simp only [rename, rename_congr h a, rename_congr h b]
  | .keccak ts | .concat ts => by simp only [rename, renameAll_congr h ts]

theorem renameAll_congr {ρ π : Renaming} (h : ρ.ids = π.ids) :
    ∀ ts : List Term, renameAll ρ ts = renameAll π ts
  | [] => rfl
  | t :: ts => by simp only [renameAll, rename_congr h t, renameAll_congr h ts]

end

variable {ρ : Renaming}

@[simp] theorem rename_inj {a b : Term} : a.rename ρ = b.rename ρ ↔ a = b :=
  ⟨eq_of_rename_eq, congrArg _⟩

@[simp] theorem rename_const (v : Word) : (Term.const v).rename ρ = .const v := by
  rw [rename]

@[simp] theorem const?_rename (t : Term) : (t.rename ρ).const? = t.const? := by
  cases t <;> simp [rename, const?]

theorem readsSelector_rename (t : Term) : (t.rename ρ).readsSelector = t.readsSelector := by
  fun_induction readsSelector t with
  | case1 offset => simp [rename, readsSelector]
  | case2 op a ih => simp [rename, readsSelector, ih]
  | case3 op a b iha ihb => simp [rename, readsSelector, iha, ihb]
  | case4 t h₁ h₂ h₃ => cases t <;> simp_all [rename, readsSelector]

theorem rename_applyUnary (op : Opcode) (a : Term) :
    (applyUnary op a).rename ρ = applyUnary op (a.rename ρ) := by
  unfold applyUnary
  rw [const?_rename]
  cases a.const?.bind (foldUnary? op) with
  | none => rw [rename]
  | some v => rw [rename]

theorem rename_applyBinary (op : Opcode) (a b : Term) :
    (applyBinary op a b).rename ρ = applyBinary op (a.rename ρ) (b.rename ρ) := by
  unfold applyBinary
  simp only [const?_rename]
  split
  · split <;> rw [rename]
  · rw [rename]

end Term

theorem selectedFunction?_rename {ρ : Renaming} (condition : Term) :
    selectedFunction? (condition.rename ρ) = selectedFunction? condition := by
  have hname (c : Word) (t : Term) : selectorName? c (t.rename ρ) = selectorName? c t := by
    unfold selectorName?
    rw [Term.readsSelector_rename]
  cases condition <;> simp [Term.rename, selectedFunction?, hname]

/-! ### Values and supplies -/

/-- The value with another tag and other numbers of results. -/
def Value.rename (ρ : Renaming) (v : Value) : Value := ⟨v.word.rename ρ, ρ.tags v.tag⟩

/-- The constraint with other numbers of results. -/
def Constraint.rename (ρ : Renaming) (c : Constraint) : Constraint :=
  ⟨c.condition.rename ρ, c.holds⟩

variable {ρ π : Renaming} {a b : Nat}

namespace Value

@[simp] theorem tag_rename (v : Value) : (v.rename ρ).tag = ρ.tags v.tag := rfl

@[simp] theorem word_rename (v : Value) : (v.rename ρ).word = v.word.rename ρ := rfl

@[simp] theorem const?_rename (v : Value) : (v.rename ρ).const? = v.const? :=
  Term.const?_rename v.word

@[simp] theorem size?_rename (v : Value) : (v.rename ρ).size? = v.size? := by
  rw [size?, const?_rename, size?]

theorem rename_rename (v : Value) : (v.rename π).rename ρ = v.rename (ρ.comp π) := by
  simp only [rename, Term.rename_rename]
  rfl

end Value

theorem Constraint.rename_rename (c : Constraint) :
    (c.rename π).rename ρ = c.rename (ρ.comp π) := by
  simp only [rename, Term.rename_rename]

@[simp] theorem memoryOffset?_rename (offset : Value) (length : Nat) :
    memoryOffset? (offset.rename ρ) length = memoryOffset? offset length := by
  rw [memoryOffset?, Value.size?_rename, memoryOffset?]

@[simp] theorem memoryRange?_rename (offset length : Value) :
    memoryRange? (offset.rename ρ) (length.rename ρ) = memoryRange? offset length := by
  simp only [memoryRange?, Value.size?_rename, memoryOffset?_rename]

@[simp] theorem jumpTarget?_rename (program : Program) (destination : Value) :
    jumpTarget? program (destination.rename ρ) = jumpTarget? program destination := by
  rw [jumpTarget?, Value.size?_rename, jumpTarget?]

/-! ### Memory -/

/-- A cell with other names. -/
abbrev Cell.rename (ρ : Renaming) : Cell → Cell := Cell.mapValue (Value.rename ρ)

namespace Cell

theorem known?_rename (cell : Option Cell) :
    known? (cell.map (Cell.rename ρ)) = known? cell := by
  rcases cell with - | b | ⟨v, i⟩ <;> rfl

theorem term_rename (cell : Option Cell) :
    term (cell.map (Cell.rename ρ)) = (term cell).rename ρ := by
  rcases cell with - | b | ⟨v, i⟩
  · exact (Term.rename_const 0).symm
  · exact (Term.rename_const _).symm
  · simp only [Option.map_some, mapValue, term, Term.rename_applyBinary, Term.rename_const,
      Value.word_rename]

theorem tag?_rename (cell : Option Cell) :
    (cell.map (Cell.rename ρ)).bind tag? = (cell.bind tag?).map ρ.tags := by
  rcases cell with - | b | ⟨v, i⟩ <;> rfl

theorem rename_rename (cell : Cell) :
    (cell.rename π).rename ρ = cell.rename (ρ.comp π) := by
  cases cell with
  | byte => rfl
  | part v i => simp only [mapValue, Value.rename_rename]

theorem ofValue_rename (v : Value) (count : Nat) :
    ofValue (v.rename ρ) count = (ofValue v count).map (Cell.rename ρ) := by
  simp only [ofValue, List.map_map]
  rfl

end Cell

namespace Memory

/-- Memory that is another one with other names. -/
structure Renamed (ρ : Renaming) (m m' : Memory) : Prop where
  size : m'.size = m.size
  cells : ∀ a : Nat, m'.cells[a]? = m.cells[a]?.map (Cell.rename ρ)

variable {m m' : Memory}

theorem knownBytes?_rename (cells : List (Option Cell)) :
    knownBytes? (cells.map (Option.map (Cell.rename ρ))) = knownBytes? cells := by
  induction cells with
  | nil => rfl
  | cons cell rest ih => simp only [List.map_cons, knownBytes?, Cell.known?_rename, ih]

theorem wordOf_rename (cells : List (Option Cell)) :
    wordOf (cells.map (Option.map (Cell.rename ρ))) = (wordOf cells).rename ρ := by
  unfold wordOf
  rw [knownBytes?_rename]
  cases knownBytes? cells with
  | some bytes => exact (Term.rename_const _).symm
  | none =>
    simp only [Term.rename, Term.renameAll_eq_map, List.map_map, Term.concat.injEq]
    exact List.map_congr_left fun cell _ => Cell.term_rename cell

theorem tagsOf_rename (cells : List (Option Cell)) :
    tagsOf (cells.map (Option.map (Cell.rename ρ))) = (tagsOf cells).map ρ.tags := by
  simp only [tagsOf, List.filterMap_map, List.map_filterMap]
  exact List.filterMap_congr fun cell _ => Cell.tag?_rename cell

namespace Renamed

variable (h : m.Renamed ρ m')
include h

theorem row (offset length : Nat) :
    m'.row offset length = (m.row offset length).map (Option.map (Cell.rename ρ)) := by
  simp only [Memory.row, List.map_map]
  exact List.map_congr_left fun i _ => h.cells _

theorem bytes? (offset length : Nat) : m'.bytes? offset length = m.bytes? offset length := by
  rw [bytes?_eq, h.row, knownBytes?_rename, bytes?_eq]

theorem words (offset length : Nat) :
    m'.words offset length = (m.words offset length).map (Term.rename ρ) := by
  rw [words_eq, words_eq, List.map_map]
  refine List.map_congr_left fun i _ => ?_
  rw [h.row, wordOf_rename]
  rfl

theorem tags (offset length : Nat) :
    m'.tags offset length = (m.tags offset length).map ρ.tags := by
  rw [tags_eq, h.row, tagsOf_rename, tags_eq]

theorem wholeValue? (offset : Nat) :
    m'.wholeValue? offset = (m.wholeValue? offset).map (Value.rename ρ) := by
  unfold Memory.wholeValue?
  simp only [h.cells]
  rcases m.cells[offset]? with - | b | ⟨v, j⟩
  · rfl
  · rfl
  · simp only [Option.map_some, Cell.mapValue, Value.tag_rename]
    rw [apply_ite (Option.map (Value.rename ρ))]
    refine if_congr ?_ rfl rfl
    refine iff_of_eq (congrArg (· = true) (congrArg (List.all _) (funext fun i => ?_)))
    rcases m.cells[offset + i.val]? with - | b | ⟨w, j⟩
    · rfl
    · rfl
    · simp only [Option.map_some, Cell.mapValue, Value.tag_rename, ρ.tags_injective.eq_iff]

theorem touch (offset length : Nat) :
    (m.touch offset length).Renamed ρ (m'.touch offset length) := by
  unfold Memory.touch
  split
  · exact h
  · exact ⟨by simp only [h.size], h.cells⟩

theorem write (offset : Nat) (row : List Cell) :
    (m.write offset row).Renamed ρ (m'.write offset (row.map (Cell.rename ρ))) := by
  refine ⟨?_, fun a => ?_⟩
  · simp only [Memory.write, List.length_map]
    exact (h.touch offset row.length).size
  · simp only [getElem?_write, List.length_map, List.getElem?_map, h.cells]
    split <;> rfl

theorem storeWord (offset : Nat) (v : Value) :
    (m.storeWord offset v).Renamed ρ (m'.storeWord offset (v.rename ρ)) := by
  unfold Memory.storeWord
  rw [Value.const?_rename]
  cases v.const? with
  | none =>
    simp only [Cell.ofValue_rename]
    exact h.write offset _
  | some w =>
    have hbytes : ((Word.toBytes w).map Cell.byte).map (Cell.rename ρ) =
        (Word.toBytes w).map Cell.byte := by
      rw [List.map_map]
      rfl
    have := h.write offset ((Word.toBytes w).map .byte)
    rwa [hbytes] at this

theorem storeByte (offset : Nat) (v : Value) :
    (m.storeByte offset v).Renamed ρ (m'.storeByte offset (v.rename ρ)) := by
  unfold Memory.storeByte
  rw [Value.const?_rename]
  cases v.const? with
  | none => exact h.write offset [.part v 31]
  | some w => exact h.write offset [.byte (Word.byteAt w 31)]

theorem storeBytes (offset : Nat) (bytes : Bytes) :
    (m.storeBytes offset bytes).Renamed ρ (m'.storeBytes offset bytes) := by
  have hbytes : (bytes.map Cell.byte).map (Cell.rename ρ) = bytes.map Cell.byte := by
    rw [List.map_map]
    rfl
  have := h.write offset (bytes.map .byte)
  rwa [hbytes] at this

theorem storeSymbolic (s : Supply) (offset length : Nat) (source : Nat → Term)
    (hρ : ρ.Raises a b s (m.storeSymbolic s offset length source).2) :
    (m.storeSymbolic s offset length source).1.Renamed ρ
        (m'.storeSymbolic (s.raise a b) offset length fun d => (source d).rename ρ).1 ∧
      (m'.storeSymbolic (s.raise a b) offset length fun d => (source d).rename ρ).2 =
        (m.storeSymbolic s offset length source).2.raise a b := by
  let count := (length + 31) / 32
  have htag (i : Nat) (hi : i < count) : ρ.tags (s.nextTag + i) = s.nextTag + a + i := by
    rw [hρ.tags _ (Nat.le_add_right ..) (Nat.add_lt_add_left hi _), Nat.add_right_comm]
  have hrow : ((List.range count).flatMap fun i =>
        Cell.ofValue ⟨source (32 * i), s.nextTag + i⟩ (length - 32 * i)).map (Cell.rename ρ) =
      (List.range count).flatMap fun i =>
        Cell.ofValue ⟨(source (32 * i)).rename ρ, s.nextTag + a + i⟩ (length - 32 * i) := by
    rw [List.map_flatMap]
    refine List.flatMap_congr fun i hi => ?_
    rw [← Cell.ofValue_rename, Value.rename, htag i (List.mem_range.mp hi)]
  have hwrite := h.write offset ((List.range count).flatMap fun i =>
    Cell.ofValue ⟨source (32 * i), s.nextTag + i⟩ (length - 32 * i))
  rw [hrow] at hwrite
  refine ⟨hwrite, ?_⟩
  simp only [Memory.storeSymbolic, Supply.raise, Nat.add_right_comm]

/-- The values come in the same order. -/
theorem values : m'.values = m.values.map (Value.rename ρ) := by
  have hcells : m'.cells.toList = (m.cells.map fun _ => Cell.rename ρ).toList := by
    refine Std.TreeMap.Equiv.toList_eq (.of_forall_constGet?_eq fun a => ?_)
    rw [h.cells, Std.TreeMap.getElem?_map]
  simp only [Memory.values, hcells, Std.TreeMap.toList_map, List.filterMap_map, List.map_filterMap]
  refine List.filterMap_congr fun entry _ => ?_
  rcases entry with ⟨a, b | ⟨v, i⟩⟩ <;> rfl

theorem mapValues {f f' : Value → Value} (hf : ∀ v, f' (v.rename ρ) = (f v).rename ρ) :
    (m.mapValues f).Renamed ρ (m'.mapValues f') := by
  refine ⟨h.size, fun a => ?_⟩
  simp only [getElem?_mapValues, h.cells, Option.map_map]
  congr 1
  funext cell
  rcases cell with b | ⟨v, i⟩
  · rfl
  · simp only [Function.comp_apply, Cell.mapValue, hf]

end Renamed

/-- What was loaded, with other names. -/
structure Loaded.Renamed (ρ : Renaming) (a b : Nat) (l l' : Loaded) : Prop where
  memory : l.memory.Renamed ρ l'.memory
  value : l'.value = l.value.rename ρ
  supply : l'.supply = l.supply.raise a b
  inheritances : l'.inheritances = l.inheritances.map (Inheritance.rename ρ)

theorem Renamed.load (h : m.Renamed ρ m') (s : Supply) (offset : Nat)
    (hρ : ρ.Raises a b s (m.load s offset).supply) :
    (m.load s offset).Renamed ρ a b (m'.load (s.raise a b) offset) := by
  rw [load_eq] at hρ ⊢
  rw [load_eq, h.wholeValue?]
  cases hwhole : m.wholeValue? offset with
  | some v => exact ⟨h.touch offset 32, rfl, rfl, rfl⟩
  | none =>
    simp only [hwhole] at hρ
    have htag : s.nextTag + a = ρ.tags s.nextTag :=
      (hρ.tags _ (Nat.le_refl _) (Nat.lt_succ_self _)).symm
    refine ⟨h.touch offset 32, ?_, ?_, ?_⟩
    · simp only [h.row, wordOf_rename, Option.map_none, Supply.value, Supply.raise, htag]
      rfl
    · simp only [Option.map_none, Supply.value, Supply.raise, Nat.add_right_comm]
    · simp only [h.row, tagsOf_rename, Option.map_none, Supply.value, Supply.raise, htag]
      rfl

/-- One renaming after the other. -/
theorem Renamed.comp {m'' : Memory} (h : m.Renamed π m') (h' : m'.Renamed ρ m'') :
    m.Renamed (ρ.comp π) m'' := by
  refine ⟨h'.size.trans h.size, fun i => ?_⟩
  rw [h'.cells, h.cells, Option.map_map]
  exact congrArg (Option.map · _) (funext fun cell => cell.rename_rename)

end Memory

/-! ### Storage -/

namespace Slots

/-- Storage that is another one with other names. -/
structure Renamed (ρ : Renaming) (s s' : Slots) : Prop where
  known : ∀ w : Word, s'.known[w]? = s.known[w]?.map (Value.rename ρ)
  others : s'.others = s.others.map fun (slot, v) => (slot.rename ρ, v.rename ρ)

namespace Renamed

variable {s s' : Slots} (h : s.Renamed ρ s')
include h

theorem get? (slot : Term) :
    s'.get? (slot.rename ρ) = (s.get? slot).map (Value.rename ρ) := by
  have hlookup (l : List (Term × Value)) :
      (l.map fun (slot, v) => (slot.rename ρ, v.rename ρ)).lookup (slot.rename ρ) =
        (l.lookup slot).map (Value.rename ρ) := by
    induction l with
    | nil => rfl
    | cons entry l ih =>
      obtain ⟨key, v⟩ := entry
      have heq : (slot.rename ρ == key.rename ρ) = (slot == key) := by
        simp only [beq_eq_beq, Term.rename_inj]
      rw [List.map_cons, List.lookup_cons, List.lookup_cons, heq]
      cases slot == key with
      | false => exact ih
      | true => rfl
  cases slot with
  | const w =>
    rw [Term.rename_const]
    exact h.known w
  | _ =>
    simp only [Term.rename] at hlookup ⊢
    simp only [Slots.get?, h.others, hlookup]

theorem put (slot : Term) (v : Value) :
    (s.put slot v).Renamed ρ (s'.put (slot.rename ρ) (v.rename ρ)) := by
  have hothers : (slot.rename ρ, v.rename ρ) ::
        s'.others.filter (·.1 ≠ slot.rename ρ) =
      ((slot, v) :: s.others.filter (·.1 ≠ slot)).map
        fun (slot, v) => (slot.rename ρ, v.rename ρ) := by
    rw [h.others, List.map_cons, List.filter_map]
    congr 3
    funext entry
    simp only [Function.comp_apply, ne_eq, Term.rename_inj]
  cases slot with
  | const w =>
    rw [Term.rename_const]
    refine ⟨fun u => ?_, h.others⟩
    simp only [Slots.put, Std.TreeMap.getElem?_insert, h.known]
    split <;> rfl
  | _ =>
    simp only [Term.rename] at hothers ⊢
    exact ⟨h.known, hothers⟩

theorem values : s'.values = s.values.map (Value.rename ρ) := by
  have hknown : s'.known.toList = (s.known.map fun _ => Value.rename ρ).toList := by
    refine Std.TreeMap.Equiv.toList_eq (.of_forall_constGet?_eq fun a => ?_)
    rw [h.known, Std.TreeMap.getElem?_map]
  simp only [Slots.values, hknown, h.others, Std.TreeMap.toList_map, List.map_append, List.map_map]
  rfl

theorem mapValues {f f' : Value → Value} (hf : ∀ v, f' (v.rename ρ) = (f v).rename ρ) :
    (s.mapValues f).Renamed ρ (s'.mapValues f') := by
  refine ⟨fun w => ?_, ?_⟩
  · simp only [Slots.mapValues, Std.TreeMap.getElem?_map, h.known, Option.map_map]
    congr 1
    funext v
    exact hf v
  · simp only [Slots.mapValues, h.others, List.map_map]
    refine List.map_congr_left fun entry _ => ?_
    simp only [Function.comp_apply, hf]

omit h in
/-- One renaming after the other. -/
theorem comp {s'' : Slots} (h : s.Renamed π s') (h' : s'.Renamed ρ s'') :
    s.Renamed (ρ.comp π) s'' := by
  refine ⟨fun w => ?_, ?_⟩
  · rw [h'.known, h.known, Option.map_map]
    exact congrArg (Option.map · _) (funext fun v => v.rename_rename)
  · rw [h'.others, h.others, List.map_map]
    refine List.map_congr_left fun entry _ => ?_
    simp only [Function.comp_apply, Term.rename_rename, Value.rename_rename]

end Renamed

end Slots

/-! ### Paths -/

/-- Where a path goes, with other names. -/
def Flow.rename (ρ : Renaming) : Flow → Flow
  | .next => .next
  | .jump destination => .jump (destination.rename ρ)
  | .branch destination condition => .branch (destination.rename ρ) (condition.rename ρ)
  | .halt returned => .halt returned

/-- A path that is another one with other names, perhaps at another node. -/
structure Path.Renamed (ρ : Renaming) (p q : Path) : Prop where
  pc : q.pc = p.pc
  stack : q.stack = p.stack.map (Value.rename ρ)
  memory : p.memory.Renamed ρ q.memory
  storage : p.storage.Renamed ρ q.storage
  constraints : q.constraints = p.constraints.map (Constraint.rename ρ)
  functionName : q.functionName = p.functionName
  trail : q.trail = p.trail

/-- An effect that is another one with other names. -/
structure Effect.Renamed (ρ : Renaming) (a b : Nat) (e e' : Effect) : Prop where
  path : e.path.Renamed ρ e'.path
  supply : e'.supply = e.supply.raise a b
  inheritances : e'.inheritances = e.inheritances.map (Inheritance.rename ρ)
  flow : e'.flow = e.flow.rename ρ

/-- An effect is another one with other names, if the names it gives out are raised. -/
def Effect.RenamedFrom (ρ : Renaming) (a b : Nat) (s : Supply) (e e' : Effect) : Prop :=
  ρ.Raises a b s e.supply → e.Renamed ρ a b e'

namespace Path

theorem renamed_start (entry : String) (node node' : Nat) :
    (Path.start entry node).Renamed ρ (Path.start entry node') where
  pc := rfl
  stack := rfl
  memory := ⟨rfl, fun i => by simp [start]⟩
  storage := ⟨fun w => by simp [start], rfl⟩
  constraints := rfl
  functionName := rfl
  trail := rfl

namespace Renamed

variable {p q : Path} (h : p.Renamed ρ q) (s : Supply)
include h

theorem withStack (stack : List Value) :
    { p with stack }.Renamed ρ { q with stack := stack.map (Value.rename ρ) } :=
  { h with stack := rfl }

theorem pushNew {word word' : Term} (hword : word.rename ρ = word') (sources : List Nat) :
    (p.pushNew s word sources).RenamedFrom ρ a b s
      (q.pushNew (s.raise a b) word' (sources.map ρ.tags)) := by
  intro hρ
  subst hword
  have htag : s.nextTag + a = ρ.tags s.nextTag :=
    (hρ.tags _ (Nat.le_refl _) (Nat.lt_succ_self _)).symm
  refine ⟨{ h with stack := ?_ }, ?_, ?_, rfl⟩
  · simp only [Path.pushNew, Supply.value, Supply.raise, htag, h.stack]
    rfl
  · simp only [Path.pushNew, Supply.value, Supply.raise, Nat.add_right_comm]
  · simp only [Path.pushNew, Supply.value, Supply.raise, htag]
    cases sources <;> rfl

theorem pushHavoc (origin : Opcode) (sources : List Nat) :
    (p.pushHavoc s origin sources).RenamedFrom ρ a b s
      (q.pushHavoc (s.raise a b) origin (sources.map ρ.tags)) := by
  intro hρ
  have hword : (Term.havoc origin (s.havocs + 1)).rename ρ =
      .havoc origin (s.havocs + b + 1) := by
    rw [Term.rename, hρ.ids _ (Nat.lt_succ_self _) (Nat.le_refl _), Nat.add_right_comm]
  have hpush : Effect.Renamed ρ a b _ _ := h.pushNew { s with havocs := s.havocs + 1 } hword sources
    ⟨hρ.tags, fun i hlt hle => absurd hlt (Nat.not_lt_of_le hle)⟩
  simp only [Supply.raise, Nat.add_right_comm _ 1 b] at hpush
  exact hpush

theorem stuck : (p.stuck s).RenamedFrom ρ a b s (q.stuck (s.raise a b)) :=
  fun _ => ⟨h, rfl, rfl, rfl⟩

theorem hashOf (offset length : Nat) :
    hashOf q.memory offset length =
      ((hashOf p.memory offset length).1.rename ρ,
        (hashOf p.memory offset length).2.map ρ.tags) := by
  unfold GuardFinder.hashOf
  rw [h.memory.bytes?]
  cases p.memory.bytes? offset length with
  | some bytes => simp only [Term.rename_const, List.map_nil]
  | none => simp only [Term.rename, Term.renameAll_eq_map, h.memory.words, h.memory.tags]

theorem copyCallData (destination source length : Value)
    (hρ : ρ.Raises a b s (copyCallData p.memory s destination source length).2) :
    (copyCallData p.memory s destination source length).1.Renamed ρ
        (copyCallData q.memory (s.raise a b) (destination.rename ρ) (source.rename ρ)
          (length.rename ρ)).1 ∧
      (copyCallData q.memory (s.raise a b) (destination.rename ρ) (source.rename ρ)
          (length.rename ρ)).2 =
        (copyCallData p.memory s destination source length).2.raise a b := by
  unfold GuardFinder.copyCallData at hρ ⊢
  rw [memoryRange?_rename]
  cases hrange : memoryRange? destination length with
  | none => exact ⟨h.memory, rfl⟩
  | some range =>
    simp only [hrange] at hρ
    have hsource (distance : Nat) : (Term.callData (.applyBinary .add source.word
          (.const (BitVec.ofNat 256 distance)))).rename ρ =
        .callData (.applyBinary .add (source.rename ρ).word
          (.const (BitVec.ofNat 256 distance))) := by
      rw [Term.rename, Term.rename_applyBinary, Term.rename_const, Value.word_rename]
    simp only [← hsource]
    exact h.memory.storeSymbolic s range.1 range.2 _ hρ

theorem copyCode (code : Bytes) (destination source length : Value) :
    (copyCode p.memory code destination source length).Renamed ρ
      (copyCode q.memory code (destination.rename ρ) (source.rename ρ)
        (length.rename ρ)) := by
  unfold GuardFinder.copyCode
  rw [Value.size?_rename, memoryRange?_rename]
  split
  · exact h.memory.storeBytes _ _
  · exact h.memory

section

variable {program : Program} {ins : Instruction} {operands : List Value} {sources : List Nat}

theorem drops {flow : Flow} (hdrops : ins.Drops p operands flow) :
    ins.Drops q (operands.map (Value.rename ρ)) (flow.rename ρ) := by
  cases hdrops with
  | discard kind =>
    rw [List.map_take, ← h.stack]
    exact .discard kind
  | halt kind =>
    rw [List.map_take, ← h.stack]
    exact .halt kind
  | giveBack kind offset length =>
    have hbytes : returnedBytes? q.memory (offset.rename ρ) (length.rename ρ) =
        returnedBytes? p.memory offset length := by
      simp only [returnedBytes?, memoryRange?_rename, h.memory.bytes?]
    rw [Flow.rename, ← hbytes]
    exact .giveBack kind _ _
  | jump kind => exact .jump kind _
  | branch kind => exact .branch kind _ _

theorem makes {word : Term} (hmakes : ins.Makes program p operands word sources) :
    ins.Makes program q (operands.map (Value.rename ρ)) (word.rename ρ)
      (sources.map ρ.tags) := by
  cases hmakes with
  | argument kind =>
    rw [Term.rename_const]
    exact .argument kind
  | codeSize kind =>
    rw [Term.rename_const]
    exact .codeSize kind
  | counter kind =>
    rw [Term.rename_const]
    exact .counter kind
  | memorySize kind =>
    rw [Term.rename_const, ← h.memory.size]
    exact .memorySize kind
  | environment kind =>
    rw [Term.rename]
    exact .environment kind
  | unary kind =>
    rw [Term.rename_applyUnary]
    exact .unary kind _
  | binary kind =>
    rw [Term.rename_applyBinary]
    exact .binary kind _ _
  | @hash kind offset length o n range =>
    have hmakes : ins.Makes program q [offset.rename ρ, length.rename ρ] _ _ :=
      .hash kind ((memoryRange?_rename ..).trans range)
    rwa [h.hashOf] at hmakes
  | callData kind =>
    rw [Term.rename]
    exact .callData kind _
  | @storage kind slot unwritten =>
    rw [Term.rename]
    refine .storage kind ?_
    rw [stored?, Value.word_rename, h.storage.get?]
    exact Option.map_eq_none_iff.mpr unwritten
  | query kind =>
    rw [Term.rename]
    exact .query kind _

theorem guesses (hguesses : ins.Guesses p operands sources) :
    ins.Guesses q (operands.map (Value.rename ρ)) (sources.map ρ.tags) := by
  cases hguesses with
  | modular kind => exact .modular kind _ _ _
  | hash kind range => exact .hash kind ((memoryRange?_rename ..).trans range)
  | memory kind range => exact .memory kind ((memoryOffset?_rename ..).trans range)
  | unmodelled kind =>
    rw [List.map_take, ← h.stack]
    exact .unmodelled kind

theorem writes {memory : Memory} (hwrites : ins.Writes program p operands memory) :
    ∃ memory', ins.Writes program q (operands.map (Value.rename ρ)) memory' ∧
      memory.Renamed ρ memory' := by
  cases hwrites with
  | code kind => exact ⟨_, .code kind _ _ _, h.copyCode _ _ _ _⟩
  | word kind range v =>
    exact ⟨_, .word kind ((memoryOffset?_rename ..).trans range) _, h.memory.storeWord _ v⟩
  | byte kind range v =>
    exact ⟨_, .byte kind ((memoryOffset?_rename ..).trans range) _, h.memory.storeByte _ v⟩
  | wordLost kind range =>
    exact ⟨_, .wordLost kind ((memoryOffset?_rename ..).trans range) _, h.memory⟩
  | byteLost kind range =>
    exact ⟨_, .byteLost kind ((memoryOffset?_rename ..).trans range) _, h.memory⟩

end

end Renamed

/-- **Instructions commute with renaming.** -/
theorem renamed_execute {p q : Path} (h : p.Renamed ρ q) (program : Program)
    (ins : Instruction) (s : Supply) :
    (execute program ins p s).RenamedFrom ρ a b s (execute program ins q (s.raise a b)) := by
  have hstack (operands : List Value) {rest : List Value} (hp : p.stack = operands ++ rest) :
      q.stack = operands.map (Value.rename ρ) ++ rest.map (Value.rename ρ) := by
    rw [h.stack, hp, List.map_append]
  have heffect := executes_execute program ins p s
  generalize execute program ins p s = e at heffect ⊢
  cases heffect with
  | stuck strict short =>
    have hshort : q.stack.length < ins.opcode.pops := by rwa [h.stack, List.length_map]
    rw [(Executes.stuck strict hshort).execute_eq]
    exact h.stuck s
  | @dup n v kind item =>
    have hitem : q.stack[n - 1]? = some (v.rename ρ) := by
      rw [h.stack, List.getElem?_map, item, Option.map_some]
    rw [(Executes.dup kind hitem).execute_eq]
    exact fun _ => ⟨{ h with stack := congrArg _ h.stack }, rfl, rfl, rfl⟩
  | @swap n top v rest kind stack item =>
    have hitem : q.stack[n]? = some (v.rename ρ) := by
      rw [h.stack, List.getElem?_map, item, Option.map_some]
    have hswapped : (q.stack.set 0 (v.rename ρ)).set n (top.rename ρ) =
        ((p.stack.set 0 v).set n top).map (Value.rename ρ) := by
      rw [h.stack, List.map_set, List.map_set]
    rw [(Executes.swap kind (hstack [top] stack) hitem).execute_eq]
    exact fun _ => ⟨{ h with stack := hswapped }, rfl, rfl, rfl⟩
  | drop stack drops =>
    rw [(Executes.drop (hstack _ stack) (h.drops drops)).execute_eq]
    exact fun _ => ⟨h.withStack _, rfl, rfl, rfl⟩
  | make stack makes =>
    rw [(Executes.make (hstack _ stack) (h.makes makes)).execute_eq]
    exact (h.withStack _).pushNew s rfl _
  | guess stack guesses =>
    rw [(Executes.guess (hstack _ stack) (h.guesses guesses)).execute_eq]
    exact (h.withStack _).pushHavoc s _ _
  | @load offset rest o kind stack range =>
    rw [(Executes.load kind (hstack [offset] stack)
      ((memoryOffset?_rename ..).trans range)).execute_eq]
    intro hρ
    have hload := h.memory.load s o hρ
    have hvalue := congrArg (· :: rest.map (Value.rename ρ)) hload.value
    exact ⟨{ h with stack := hvalue, memory := hload.memory }, hload.supply, hload.inheritances,
      rfl⟩
  | @fetch slot v rest kind stack stored =>
    have hstored : q.stored? (slot.rename ρ).word = some (v.rename ρ) := by
      rw [stored?, Value.word_rename, h.storage.get?]
      exact congrArg _ stored
    rw [(Executes.fetch kind (hstack [slot] stack) hstored).execute_eq]
    exact fun _ => ⟨{ h with stack := rfl }, rfl, rfl, rfl⟩
  | @copy destination source length rest kind stack =>
    rw [(Executes.copy kind (hstack [destination, source, length] stack)).execute_eq]
    intro hρ
    obtain ⟨hmemory, hsupply⟩ := h.copyCallData s destination source length hρ
    exact ⟨{ h with stack := rfl, memory := hmemory }, hsupply, rfl, rfl⟩
  | write stack writes =>
    obtain ⟨memory', hwrites, hmemory⟩ := h.writes writes
    rw [(Executes.write (hstack _ stack) hwrites).execute_eq]
    exact fun _ => ⟨{ h with stack := rfl, memory := hmemory }, rfl, rfl, rfl⟩
  | @store slot v rest kind stack =>
    rw [(Executes.store kind (hstack [slot, v] stack)).execute_eq]
    exact fun _ => ⟨{ h with stack := rfl, storage := h.storage.put slot.word v }, rfl, rfl, rfl⟩

end Path

/-! ### Forks -/

namespace Copies

/-- Copies that are other ones with other names. -/
structure Renamed (ρ : Renaming) (a b : Nat) (c c' : Copies) : Prop where
  names : ∀ i, c'.names[ρ.tags i]? = c.names[i]?.map ρ.tags
  supply : c'.supply = c.supply.raise a b
  inheritances : c'.inheritances = c.inheritances.map (Inheritance.rename ρ)

theorem nextTag_le_add (c : Copies) (tag : Nat) :
    c.supply.nextTag ≤ (c.add tag).supply.nextTag := by
  unfold add
  split
  · exact Nat.le_refl _
  · exact Nat.le_succ _

theorem nextTag_le_foldl (vs : List Value) (c : Copies) :
    c.supply.nextTag ≤ (vs.foldl (fun c v => c.add v.tag) c).supply.nextTag := by
  induction vs generalizing c with
  | nil => exact Nat.le_refl _
  | cons v vs ih => exact Nat.le_trans (c.nextTag_le_add v.tag) (ih _)

theorem havocs_add (c : Copies) (tag : Nat) : (c.add tag).supply.havocs = c.supply.havocs := by
  unfold add
  split <;> rfl

theorem havocs_foldl (vs : List Value) (c : Copies) :
    (vs.foldl (fun c v => c.add v.tag) c).supply.havocs = c.supply.havocs := by
  induction vs generalizing c with
  | nil => rfl
  | cons v vs ih => exact (ih _).trans (c.havocs_add v.tag)

variable {c c' : Copies}

theorem Renamed.add (h : c.Renamed ρ a b c') {tag : Nat}
    (hρ : ρ.Raises a b c.supply (c.add tag).supply) :
    (c.add tag).Renamed ρ a b (c'.add (ρ.tags tag)) := by
  have hcontains : c'.names.contains (ρ.tags tag) = c.names.contains tag := by
    rw [← Std.TreeMap.isSome_getElem?_eq_contains, ← Std.TreeMap.isSome_getElem?_eq_contains,
      h.names, Option.isSome_map]
  unfold Copies.add at hρ ⊢
  rw [hcontains]
  split
  · exact h
  · next hnew =>
    simp only [if_neg hnew] at hρ
    have htag : c.supply.nextTag + a = ρ.tags c.supply.nextTag :=
      (hρ.tags _ (Nat.le_refl _) (Nat.lt_succ_self _)).symm
    refine ⟨fun i => ?_, ?_, ?_⟩
    · simp only [Std.TreeMap.getElem?_insert, h.supply, Supply.raise, htag, h.names,
        Std.LawfulEqCmp.compare_eq_iff_eq, ρ.tags_injective.eq_iff]
      split <;> rfl
    · simp only [h.supply, Supply.raise, Nat.add_right_comm]
    · simp only [h.supply, h.inheritances, Supply.raise, htag]
      rfl

theorem Renamed.foldl (vs : List Value) (h : c.Renamed ρ a b c')
    (hρ : ρ.Raises a b c.supply (vs.foldl (fun c v => c.add v.tag) c).supply) :
    (vs.foldl (fun c v => c.add v.tag) c).Renamed ρ a b
      ((vs.map (Value.rename ρ)).foldl (fun c v => c.add v.tag) c') := by
  induction vs generalizing c c' with
  | nil => exact h
  | cons v vs ih =>
    have hle := nextTag_le_foldl vs (c.add v.tag)
    have hhavocs := c.havocs_add v.tag
    refine ih (h.add
      ⟨fun i hi hlt => hρ.tags i hi (Nat.lt_of_lt_of_le hlt hle), fun i hi hle => ?_⟩)
      ⟨fun i hi hlt => hρ.tags i (Nat.le_trans (c.nextTag_le_add v.tag) hi) hlt,
        fun i hi hle => hρ.ids i (hhavocs ▸ hi) hle⟩
    exact absurd (hhavocs ▸ hle) (Nat.not_le_of_lt hi)

theorem Renamed.rename (h : c.Renamed ρ a b c') (v : Value) :
    c'.rename (v.rename ρ) = (c.rename v).rename ρ := by
  simp only [Copies.rename, Value.rename, Std.TreeMap.getD_eq_getD_getElem?, h.names]
  cases c.names[v.tag]? <;> rfl

end Copies

/-- Copies of paths with other names are copies with other names. -/
theorem Path.renamed_fork {p q : Path} (h : p.Renamed ρ q) (s : Supply)
    (hρ : ρ.Raises a b s (p.fork s).supply) :
    (p.fork s).path.Renamed ρ (q.fork (s.raise a b)).path ∧
      (q.fork (s.raise a b)).supply = (p.fork s).supply.raise a b ∧
      (q.fork (s.raise a b)).inheritances =
        (p.fork s).inheritances.map (Inheritance.rename ρ) := by
  have hvalues : q.values = p.values.map (Value.rename ρ) := by
    simp only [values, h.stack, h.memory.values, h.storage.values, List.map_append]
  have hstart : Copies.Renamed ρ a b { supply := s } { supply := s.raise a b } :=
    ⟨fun i => by simp, rfl, rfl⟩
  have hcopies : (Copies.ofValues s p.values).Renamed ρ a b
      (Copies.ofValues (s.raise a b) q.values) := by
    rw [hvalues]
    exact hstart.foldl p.values hρ
  refine ⟨{ h with stack := ?_, memory := ?_, storage := ?_ }, hcopies.supply,
    hcopies.inheritances⟩
  · simp only [fork, mapValues, h.stack, List.map_map]
    exact List.map_congr_left fun v _ => hcopies.rename v
  · exact h.memory.mapValues hcopies.rename
  · exact h.storage.mapValues hcopies.rename

/-- Paths with other names take a branch with other names. -/
theorem Path.Renamed.taken {p q : Path} (h : p.Renamed ρ q) (condition : Term) :
    (p.taken condition).Renamed ρ (q.taken (condition.rename ρ)) where
  __ := h
  constraints := by simp [Path.taken, h.constraints, Constraint.rename]
  functionName := by simp only [Path.taken, selectedFunction?_rename, h.functionName]

/-- So do the copies that fall through. -/
theorem Path.Renamed.fallen {p q : Path} (h : p.Renamed ρ q) {s : Supply}
    (hρ : ρ.Raises a b s (p.fork s).supply) (condition : Term) :
    (p.fallen s condition).Renamed ρ (q.fallen (s.raise a b) (condition.rename ρ)) where
  __ := (renamed_fork h s hρ).1
  constraints := by simp [Path.fallen, h.constraints, Constraint.rename]

/-! ### Names that were given out -/

theorem Supply.exists_raise {s t : Supply} (htags : s.nextTag ≤ t.nextTag)
    (hhavocs : s.havocs ≤ t.havocs) : ∃ a b, t = s.raise a b := by
  obtain ⟨a, ha⟩ := Nat.exists_eq_add_of_le htags
  obtain ⟨b, hb⟩ := Nat.exists_eq_add_of_le hhavocs
  exact ⟨a, b, by rw [raise, ← ha, ← hb]⟩

theorem Supply.raise_raise (s : Supply) (a b a' b' : Nat) :
    (s.raise a b).raise a' b' = s.raise (a + a') (b + b') := by
  simp only [raise, Nat.add_assoc]

namespace Renaming

variable {s t : Supply}

theorem Fixes.raises (h : ρ.Fixes t) (s : Supply) : ρ.Raises 0 0 s t :=
  ⟨fun i _ hi => h.tags i hi, fun i _ hi => h.ids i hi⟩

theorem Fixes.of_raise (h : ρ.Fixes (s.raise a b)) : ρ.Fixes s :=
  ⟨fun i hi => h.tags i (Nat.lt_add_right a hi), fun i hi => h.ids i (Nat.le_add_right_of_le hi)⟩

theorem fixes_gap (s : Supply) (a b : Nat) : (gap s a b).Fixes s :=
  ⟨fun _ hi => if_pos hi, fun _ hi => if_pos hi⟩

/-- After a gap names are raised by more. -/
theorem Raises.comp_gap (h : ∀ t, ρ.Raises a b s t) (a' b' : Nat) (t : Supply) :
    (ρ.comp (gap s a' b')).Raises (a + a') (b + b') s t := by
  have htags (i : Nat) (hi : s.nextTag ≤ i) : ρ.tags i = i + a :=
    (h ⟨i + 1, 0⟩).tags i hi (Nat.lt_succ_self i)
  have hids (i : Nat) (hi : s.havocs < i) : ρ.ids i = i + b :=
    (h ⟨0, i⟩).ids i hi (Nat.le_refl i)
  refine ⟨fun i hi _ => ?_, fun i hi _ => ?_⟩
  · simp only [comp, gap, Function.comp_apply, if_neg (Nat.not_lt_of_le hi)]
    rw [htags _ (Nat.le_add_right_of_le hi)]
    omega
  · simp only [comp, gap, Function.comp_apply, if_neg (Nat.not_le_of_lt hi)]
    rw [hids _ (Nat.lt_add_right b' hi)]
    omega

end Renaming

namespace Path

variable {p q r : Path} {s : Supply}

/-- One renaming after the other. -/
theorem Renamed.comp (h : p.Renamed π q) (h' : q.Renamed ρ r) : p.Renamed (ρ.comp π) r where
  pc := h'.pc.trans h.pc
  stack := by
    rw [h'.stack, h.stack, List.map_map]
    exact List.map_congr_left fun v _ => v.rename_rename
  memory := h.memory.comp h'.memory
  storage := h.storage.comp h'.storage
  constraints := by
    rw [h'.constraints, h.constraints, List.map_map]
    exact List.map_congr_left fun c _ => c.rename_rename
  functionName := h'.functionName.trans h.functionName
  trail := h'.trail.trans h.trail

/-- A path has no names but those that a supply has given out. -/
def Named (p : Path) (s : Supply) : Prop := ∀ ρ : Renaming, ρ.Fixes s → p.Renamed ρ p

theorem named_start (entry : String) (node : Nat) (s : Supply) : (Path.start entry node).Named s :=
  fun _ _ => renamed_start entry node node

theorem Named.raise (h : p.Named s) (a b : Nat) : p.Named (s.raise a b) :=
  fun ρ hρ => h ρ hρ.of_raise

/-- The paths have the same names but for a renaming, and what the first one is given next the other
one is given too, raised by what its supply has given out more. -/
def Matched (s : Supply) (a b : Nat) (p q : Path) : Prop :=
  p.Named s ∧ ∃ ρ : Renaming, (∀ t, ρ.Raises a b s t) ∧ p.Renamed ρ q

/-- The other supply may give out more meanwhile. -/
theorem Matched.raise (h : p.Matched s a b q) (a' b' : Nat) : p.Matched s (a + a') (b + b') q := by
  obtain ⟨hnamed, ρ, hρ, hrenamed⟩ := h
  exact ⟨hnamed, ρ.comp (.gap s a' b'), Renaming.Raises.comp_gap hρ a' b',
    (hnamed _ (Renaming.fixes_gap s a' b')).comp hrenamed⟩

/-- Both supplies may give out the same number of names. -/
theorem Matched.advance (h : p.Matched s a b q) (a' b' : Nat) :
    p.Matched (s.raise a' b') a b q := by
  obtain ⟨hnamed, ρ, hρ, hrenamed⟩ := h
  exact ⟨hnamed.raise a' b', ρ, fun t => ⟨fun i hi => (hρ t).tags i (Nat.le_of_add_right_le hi),
    fun i hi => (hρ t).ids i (Nat.lt_of_le_of_lt (Nat.le_add_right ..) hi)⟩, hrenamed⟩

theorem matched_start (entry : String) (node node' : Nat) (s : Supply) :
    (Path.start entry node).Matched s 0 0 (Path.start entry node') :=
  ⟨named_start entry node s, ⟨id, id, Function.injective_id, Function.injective_id⟩,
    fun _ => ⟨fun _ _ _ => rfl, fun _ _ _ => rfl⟩, renamed_start entry node node'⟩

end Path

end GuardFinder

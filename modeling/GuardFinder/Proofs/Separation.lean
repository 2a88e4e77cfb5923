import GuardFinder.Proofs.Forks
import Mathlib.Data.Set.Function

/-!
# Paths apart

The paths of an exploration have no value in common, so a taint that is put on a value of one path
or taken from it shows on no other path. Paths come apart at forks, and a fork is a faithful copy:
it has the same words and taints in the same places, and two places share a value in the copy just
if they share one in the path.

* `Path.Apart`: two paths without a common tag.
* `Progress.apart_of_advance`: **advances keep paths apart**.
* `Path.CopiedTo`: a path as a copy of another, with the taints of both.
* `Path.copies_fork`: **a fork is a faithful copy**.
-/

namespace GuardFinder

/-! ### All values are copied -/

namespace Memory

theorem mem_values_of_holds {m : Memory} {v : Value} (h : m.Holds v) : v ∈ m.values := by
  obtain ⟨a, i, hcell⟩ := h
  refine List.mem_filterMap.mpr ⟨(a, .part v i), ?_, rfl⟩
  exact Std.TreeMap.mem_toList_iff_getElem?_eq_some.mpr hcell

end Memory

namespace Slots

theorem mem_of_lookup {l : List (Term × Value)} {slot : Term} {v : Value}
    (h : l.lookup slot = some v) : (slot, v) ∈ l := by
  induction l with
  | nil => simp at h
  | cons e l ih =>
    rw [List.lookup_cons] at h
    split at h
    · next heq =>
      obtain rfl := Option.some.inj h
      rw [eq_of_beq heq]
      exact List.mem_cons_self
    · exact List.mem_cons_of_mem _ (ih h)

theorem mem_values_of_holds {s : Slots} {v : Value} (h : s.Holds v) : v ∈ s.values := by
  obtain ⟨slot, hslot⟩ := h
  unfold get? at hslot
  split at hslot
  · next w =>
    refine List.mem_append_left _ (List.mem_map.mpr ⟨(w, v), ?_, rfl⟩)
    exact Std.TreeMap.mem_toList_iff_getElem?_eq_some.mpr hslot
  · exact List.mem_append_right _ (List.mem_map.mpr ⟨_, mem_of_lookup hslot, rfl⟩)

end Slots

theorem Path.mem_values_of_has {p : Path} {v : Value} (h : p.Has v) : v ∈ p.values := by
  rcases h with h | h | h
  · exact List.mem_append_left _ (List.mem_append_left _ h)
  · exact List.mem_append_left _ (List.mem_append_right _ (Memory.mem_values_of_holds h))
  · exact List.mem_append_right _ (Slots.mem_values_of_holds h)

namespace Copies

theorem mem_names_add {c : Copies} {tag other : Nat} :
    other ∈ (c.add tag).names ↔ tag = other ∨ other ∈ c.names := by
  unfold add
  split
  · next h => exact ⟨.inr, fun h' => h'.elim (fun heq => heq ▸ h) id⟩
  · rw [Std.TreeMap.mem_insert, Std.LawfulEqCmp.compare_eq_iff_eq]

theorem names_ofValues {s : Supply} {values : List Value} {v : Value} (h : v ∈ values) :
    (ofValues s values).names[v.tag]? = some ((ofValues s values).rename v).tag := by
  have hfold : ∀ (values : List Value) (c : Copies), (v ∈ values ∨ v.tag ∈ c.names) →
      v.tag ∈ (values.foldl (fun c w => c.add w.tag) c).names := by
    intro values
    induction values with
    | nil => exact fun c h => h.resolve_left List.not_mem_nil
    | cons w values ih =>
      intro c h
      refine ih _ ?_
      rw [mem_names_add]
      rcases h with h | h
      · rcases List.mem_cons.mp h with rfl | h
        · exact .inr (.inl rfl)
        · exact .inl h
      · exact .inr (.inr h)
  have hmem : v.tag ∈ (ofValues s values).names := hfold values _ (.inl h)
  obtain ⟨name, hname⟩ := Option.isSome_iff_exists.mp
    (Std.TreeMap.mem_iff_isSome_getElem?.mp hmem)
  rw [rename, Std.TreeMap.getD_eq_getD_getElem?, hname, Option.getD_some]

/-- What has been copied is what is inherited: each new tag from its old one. -/
structure Recorded (c : Copies) : Prop where
  named : ∀ i ∈ c.inheritances, ∃ tag, i.sources = [tag] ∧ c.names[tag]? = some i.heir
  inherited : ∀ ⦃tag name : Nat⦄, c.names[tag]? = some name → ⟨name, [tag]⟩ ∈ c.inheritances

theorem Recorded.add {c : Copies} (h : c.Recorded) (tag : Nat) : (c.add tag).Recorded := by
  unfold Copies.add
  split
  · exact h
  · next hnew =>
    refine ⟨fun i hi => ?_, fun u name hu => ?_⟩
    · rcases List.mem_cons.mp hi with rfl | hi
      · exact ⟨tag, rfl, Std.TreeMap.getElem?_insert_self⟩
      · obtain ⟨u, hsources, hname⟩ := h.named i hi
        have hne : tag ≠ u := by
          rintro rfl
          rw [Std.TreeMap.contains_eq_isSome_getElem?, hname] at hnew
          exact hnew rfl
        refine ⟨u, hsources, ?_⟩
        rw [Std.TreeMap.getElem?_insert, if_neg (by simpa using hne)]
        exact hname
    · simp only [Std.TreeMap.getElem?_insert, Std.LawfulEqCmp.compare_eq_iff_eq] at hu
      split at hu
      · next heq =>
        obtain rfl := Option.some.inj hu
        rw [heq]
        exact List.mem_cons_self
      · exact List.mem_cons_of_mem _ (h.inherited hu)

theorem recorded_ofValues (s : Supply) (values : List Value) : (ofValues s values).Recorded := by
  have hfold : ∀ (values : List Value) (c : Copies), c.Recorded →
      (values.foldl (fun c v => c.add v.tag) c).Recorded := by
    intro values
    induction values with
    | nil => exact fun c h => h
    | cons v values ih => exact fun c h => ih _ (h.add v.tag)
  exact hfold values _ ⟨nofun, by simp⟩

end Copies

/-! ### Taints of copies -/

namespace Taints

theorem get_annotate_of_ne {τ : Taints} {tag other : Nat} (h : other ≠ tag) (a : Taint) :
    (τ.annotate tag a).get other = τ.get other := by
  rw [annotate, get_set, if_neg h]

theorem get_discard_of_ne {τ : Taints} {tag other : Nat} (h : other ≠ tag) (a : Taint) :
    (τ.discard tag a).get other = τ.get other := by
  rw [discard, get_set, if_neg h]

theorem get_inherit (τ : Taints) (i : Inheritance) (tag : Nat) :
    (τ.inherit i).get tag = if tag = i.heir then τ.union i.sources else τ.get tag := by
  rw [inherit, get_set]

theorem union_singleton (τ : Taints) (tag : Nat) : τ.union [tag] = τ.get tag := rfl

/-- The taints after several inheritances. -/
def inheritAll (τ : Taints) (inheritances : List Inheritance) : Taints :=
  inheritances.foldl inherit τ

/-- Who is no heir keeps what it has. -/
theorem get_inheritAll_of_not_heir {inheritances : List Inheritance} {tag : Nat}
    (h : ∀ i ∈ inheritances, i.heir ≠ tag) (τ : Taints) :
    (τ.inheritAll inheritances).get tag = τ.get tag := by
  induction inheritances generalizing τ with
  | nil => rfl
  | cons i rest ih =>
    have hrest := ih (fun j hj => h j (List.mem_cons_of_mem _ hj)) (τ.inherit i)
    rw [inheritAll, List.foldl_cons, ← inheritAll, hrest, get_inherit,
      if_neg (h i List.mem_cons_self).symm]

/-- An heir has the taints of its only source, if that one is no heir. -/
theorem get_inheritAll_of_heir {inheritances : List Inheritance} {heir source : Nat}
    (hmem : ⟨heir, [source]⟩ ∈ inheritances)
    (honly : ∀ i ∈ inheritances, i.heir = heir → i.sources = [source])
    (hsource : ∀ i ∈ inheritances, i.heir ≠ source) (τ : Taints) :
    (τ.inheritAll inheritances).get heir = τ.get source := by
  induction inheritances generalizing τ with
  | nil => cases hmem
  | cons i rest ih =>
    have hkept : (τ.inherit i).get source = τ.get source := by
      rw [get_inherit, if_neg (hsource i List.mem_cons_self).symm]
    rw [inheritAll, List.foldl_cons, ← inheritAll]
    by_cases hrest : ⟨heir, [source]⟩ ∈ rest
    · rw [ih hrest (fun j hj => honly j (List.mem_cons_of_mem _ hj))
        (fun j hj => hsource j (List.mem_cons_of_mem _ hj)), hkept]
    · obtain rfl := (List.mem_cons.mp hmem).resolve_right hrest
      have hno : ∀ j ∈ rest, j.heir ≠ heir := by
        intro j hj hheir
        have hsources := honly j (List.mem_cons_of_mem _ hj) hheir
        obtain ⟨jheir, jsources⟩ := j
        subst hheir hsources
        exact hrest hj
      rw [get_inheritAll_of_not_heir hno, get_inherit, if_pos rfl, union_singleton]

end Taints

/-! ### Forks are faithful -/

/-- A path and its taints as a copy of another path and its taints, by way of a map of values: the
map is one-to-one between the values of the two, it keeps words and taints, it tells values apart by
their tags just as the path does, and it leads from the value in each place to the value in the same
place, to the same byte of it if the place is in memory. -/
structure Path.CopiedTo (p : Path) (τ : Taints) (f : Value → Value) (q : Path) (τ' : Taints) :
    Prop where
  bijective : Set.BijOn f {v | p.Has v} {w | q.Has w}
  tag_eq_iff : ∀ ⦃v w⦄, p.Has v → p.Has w → ((f v).tag = (f w).tag ↔ v.tag = w.tag)
  word : ∀ ⦃v⦄, p.Has v → (f v).word = v.word
  taints : ∀ ⦃v⦄, p.Has v → τ'.get (f v).tag = τ.get v.tag
  stack : q.stack = p.stack.map f
  memory : ∀ a : Nat, q.memory.cells[a]? = p.memory.cells[a]?.map (Cell.mapValue f)
  storage : ∀ slot, q.storage.get? slot = (p.storage.get? slot).map f

/-- Two paths without a common value. -/
def Path.Apart (p q : Path) : Prop := ∀ ⦃v w⦄, p.Has v → q.Has w → v.tag ≠ w.tag

namespace Path

variable {p q r : Path} {s t : Supply}

theorem Apart.symm (h : p.Apart q) : q.Apart p := fun _ _ hv hw => (h hw hv).symm

/-- What a fork renames values by. -/
abbrev copyOf (p : Path) (s : Supply) : Value → Value := (Copies.ofValues s p.values).rename

theorem names_of_has {v : Value} (h : p.Has v) :
    (Copies.ofValues s p.values).names[v.tag]? = some (p.copyOf s v).tag :=
  Copies.names_ofValues (mem_values_of_has h)

theorem has_fork_iff {w : Value} :
    (p.fork s).path.Has w ↔ ∃ v, p.Has v ∧ p.copyOf s v = w := by
  constructor
  · intro h
    obtain ⟨v, hv, rfl⟩ := has_mapValues h
    exact ⟨v, hv, rfl⟩
  · rintro ⟨v, hv | ⟨a, i, hcell⟩ | ⟨slot, hslot⟩, rfl⟩
    · exact .inl (List.mem_map.mpr ⟨v, hv, rfl⟩)
    · refine .inr (.inl ⟨a, i, ?_⟩)
      simp only [fork, mapValues, Memory.getElem?_mapValues, hcell, Option.map_some, Cell.mapValue]
    · refine .inr (.inr ⟨slot, ?_⟩)
      simp only [fork, mapValues, Slots.get?_mapValues, hslot, Option.map_some]

/-- All values of a fork are new. -/
theorem nextTag_le_of_has_fork {w : Value} (h : (p.fork s).path.Has w) : s.nextTag ≤ w.tag := by
  obtain ⟨v, hv, rfl⟩ := has_fork_iff.mp h
  exact ((Copies.fresh_ofValues s p.values).range (names_of_has hv)).1

theorem apart_fork (h : ∀ v, p.Has v → v.tag < s.nextTag) : p.Apart (p.fork s).path := by
  intro v w hv hw
  have := h v hv
  have := nextTag_le_of_has_fork hw
  omega

/-- The copying changes the taints of no value that there was before. -/
theorem get_inheritAll_fork {tag : Nat} (h : tag < s.nextTag) (τ : Taints) :
    (τ.inheritAll (p.fork s).inheritances).get tag = τ.get tag := by
  refine Taints.get_inheritAll_of_not_heir (fun i hi => ?_) τ
  obtain ⟨source, -, hname⟩ := (Copies.recorded_ofValues s p.values).named i hi
  have := ((Copies.fresh_ofValues s p.values).range hname).1
  omega

/-- A copy starts with the taints of its original. -/
theorem get_inheritAll_copyOf {v : Value} (hv : p.Has v) (hlt : v.tag < s.nextTag) (τ : Taints) :
    (τ.inheritAll (p.fork s).inheritances).get (p.copyOf s v).tag = τ.get v.tag := by
  have hfresh := Copies.fresh_ofValues s p.values
  have hrecorded := Copies.recorded_ofValues s p.values
  have hname := names_of_has (s := s) hv
  refine Taints.get_inheritAll_of_heir (hrecorded.inherited hname) (fun i hi hheir => ?_)
    (fun i hi => ?_) τ
  · obtain ⟨source, hsources, hname'⟩ := hrecorded.named i hi
    rw [hheir] at hname'
    rw [hsources, hfresh.injective hname' hname]
  · obtain ⟨source, -, hname'⟩ := hrecorded.named i hi
    have := (hfresh.range hname').1
    omega

/-- A value of a path, or of its fork, has the taints that a value of the path had before. -/
theorem exists_get_fork (hold : ∀ v, p.Has v → v.tag < s.nextTag) {v : Value}
    (hv : p.Has v ∨ (p.fork s).path.Has v) :
    ∃ w, p.Has w ∧ ∀ τ : Taints,
      (τ.inheritAll (p.fork s).inheritances).get v.tag = τ.get w.tag := by
  rcases hv with hv | hv
  · exact ⟨v, hv, get_inheritAll_fork (hold v hv)⟩
  · obtain ⟨w, hw, rfl⟩ := has_fork_iff.mp hv
    exact ⟨w, hw, get_inheritAll_copyOf hw (hold w hw)⟩

/-- **A fork is a faithful copy.** -/
theorem copies_fork (h : ∀ v, p.Has v → v.tag < s.nextTag) (τ : Taints) :
    p.CopiedTo τ (p.copyOf s) (p.fork s).path (τ.inheritAll (p.fork s).inheritances) := by
  have htag : ∀ ⦃v w⦄, p.Has v → p.Has w →
      ((p.copyOf s v).tag = (p.copyOf s w).tag ↔ v.tag = w.tag) := by
    intro v w hv hw
    refine ⟨fun heq => ?_, fun heq => ?_⟩
    · exact (Copies.fresh_ofValues s p.values).tag_eq (h v hv) (h w hw) heq
    · have hname := names_of_has (s := s) hv
      rw [heq, names_of_has hw] at hname
      exact (Option.some.inj hname).symm
  refine ⟨⟨fun v hv => has_fork_iff.mpr ⟨v, hv, rfl⟩, fun v hv w hw heq => ?_, fun w hw => ?_⟩,
    htag, fun _ _ => rfl, fun v hv => get_inheritAll_copyOf hv (h v hv) τ, rfl, fun a => ?_,
    fun slot => ?_⟩
  · have hword : (p.copyOf s v).word = (p.copyOf s w).word := congrArg Value.word heq
    obtain ⟨word, tag⟩ := v
    obtain ⟨word', tag'⟩ := w
    obtain rfl : tag = tag' := (htag hv hw).mp (congrArg Value.tag heq)
    exact congrArg (Value.mk · tag) hword
  · exact has_fork_iff.mp hw
  · exact Memory.getElem?_mapValues ..
  · exact Slots.get?_mapValues ..

end Path

/-! ### Paths stay apart -/

section

variable {program : Program} {limits : Limits} {frame : Frame} {e : Effect} {s s' : StateSpace}
  {qs : List Path} {supply : Supply} {returned : Option Bytes}

/-- A path that goes on has values of the path before, or new ones. -/
theorem Steps.has_or_new (h : Steps program limits frame e s s' qs supply returned) {q : Path}
    (hq : q ∈ qs) {v : Value} (hv : q.Has v) : e.path.Has v ∨ e.supply.nextTag ≤ v.tag := by
  cases h with
  | next =>
    rw [List.mem_singleton.mp hq] at hv
    exact .inl hv
  | halt | jumpLost | knownLost => exact absurd hq List.not_mem_nil
  | jump _ _ enters | knownFalse _ _ enters | knownTrue _ _ _ _ enters =>
    rw [enters.mem hq] at hv
    exact .inl hv
  | fork _ _ _ falls jumps =>
    rcases List.mem_append.mp hq with hq | hq
    · rw [jumps.mem hq] at hv
      exact .inl hv
    · rw [falls.mem hq] at hv
      exact .inr (Path.nextTag_le_of_has_fork (p := e.path) (s := e.supply) hv)
  | forkLost _ _ _ falls =>
    rw [falls.mem hq] at hv
    exact .inr (Path.nextTag_le_of_has_fork (p := e.path) (s := e.supply) hv)

/-- The paths that go on after an instruction are apart from each other. -/
theorem Steps.apart (h : Steps program limits frame e s s' qs supply returned)
    (he : ∀ v, e.path.Has v → v.tag < e.supply.nextTag) : qs.Pairwise Path.Apart := by
  cases h with
  | next => exact List.pairwise_singleton _ _
  | halt | jumpLost | knownLost => exact .nil
  | jump _ _ enters | knownFalse _ _ enters | knownTrue _ _ _ _ enters | forkLost _ _ _ enters =>
    cases enters with
    | entered => exact List.pairwise_singleton _ _
    | pruned => exact .nil
  | fork _ _ _ falls jumps =>
    have hapart := Path.apart_fork he
    cases falls with
    | pruned =>
      rw [List.append_nil]
      cases jumps with
      | entered => exact List.pairwise_singleton _ _
      | pruned => exact .nil
    | entered =>
      cases jumps with
      | pruned => exact List.pairwise_singleton _ _
      | entered =>
        refine List.pairwise_cons.mpr ⟨fun q hq => ?_, List.pairwise_singleton _ _⟩
        rw [List.mem_singleton.mp hq]
        exact fun v w hv hw => hapart hv hw

end

namespace Progress

/-- The paths of an exploration have no value in common. -/
def Apart (g : Progress) : Prop := g.paths.Pairwise Path.Apart

/-- **Advances keep paths apart.** What a path adds is new, and what the others have is not. -/
theorem apart_of_advance {program : Program} {limits : Limits} {g g' : Progress}
    (h : Advance program limits g g') (hg : g.Tidy) (hapart : g.Apart) : g'.Apart := by
  cases h with
  | ended | unfit => exact (List.pairwise_cons.mp hapart).2
  | @step p ps qs space space' supply supply' returned now ins at_ins fits steps =>
    obtain ⟨hfirst, hrest⟩ := List.pairwise_cons.mp hapart
    have hp := hg p List.mem_cons_self
    obtain ⟨hle, word, hadds⟩ := Path.adds_execute program ins p supply
    have hnew := fun v hv => (hp.of_adds (Path.adds_execute program ins p supply)).tag_lt (v := v) hv
    refine List.pairwise_append.mpr ⟨steps.apart hnew, hrest, fun q hq r hr v w hv hw => ?_⟩
    have hlt : w.tag < supply.nextTag := (hg r (List.mem_cons_of_mem _ hr)).tag_lt hw
    rcases steps.has_or_new hq hv with hv | hv
    · rcases hadds v hv with hv | ⟨hv, -⟩
      · exact hfirst r hr hv hw
      · omega
    · omega

/-- The start of a transaction: one path, at a new node. -/
def begin (entry : String) (space : StateSpace) (supply : Supply) : Progress where
  paths := [Path.start entry space.nodes.size]
  space := space.addNode entry 0 []
  supply

variable {program : Program} {limits : Limits} {g : Progress} {entry : String} {space : StateSpace}
  {supply : Supply}

theorem tidy_and_apart_of_reaches (h : Reaches program limits (begin entry space supply) g) :
    g.Tidy ∧ g.Apart := by
  induction h with
  | refl =>
    refine ⟨fun p hp => ?_, List.pairwise_singleton _ _⟩
    rw [List.mem_singleton.mp hp]
    exact Path.tidy_start ..
  | tail _ hadvance ih =>
    exact ⟨tidy_of_advance hadvance ih.1, apart_of_advance hadvance ih.1 ih.2⟩

theorem apart_of_ne {p q : Path} {i j : Nat} (h : g.Apart) (hne : i ≠ j)
    (hp : g.paths[i]? = some p) (hq : g.paths[j]? = some q) : p.Apart q := by
  obtain ⟨hi, rfl⟩ := List.getElem?_eq_some_iff.mp hp
  obtain ⟨hj, rfl⟩ := List.getElem?_eq_some_iff.mp hq
  rcases Nat.lt_or_gt_of_ne hne with hlt | hgt
  · exact List.pairwise_iff_getElem.mp h i j hi hj hlt
  · exact (List.pairwise_iff_getElem.mp h j i hj hi hgt).symm

end Progress

/-- **Paths never share values, and a fork is a faithful copy.** At all times of a transaction no
two paths have a value in common, so taints that come and go through a value of one of them change
no value of another. A fork of a path whose tags have been given out is a faithful copy that is
apart from the path and leaves the taints of all values as they were; and the tags of a path have
been given out whenever an instruction of it has been executed. -/
theorem paths_share_no_value (program : Program) (limits : Limits) (entry : String)
    (space : StateSpace) (supply : Supply) {g : Progress}
    (h : Progress.Reaches program limits (.begin entry space supply) g) :
    (∀ ⦃i j : Nat⦄ ⦃p q : Path⦄, i ≠ j → g.paths[i]? = some p → g.paths[j]? = some q →
      ∀ ⦃v w⦄, p.Has v → q.Has w → v.tag ≠ w.tag ∧ ∀ (τ : Taints) (a : Taint),
        (τ.annotate v.tag a).get w.tag = τ.get w.tag ∧
          (τ.discard v.tag a).get w.tag = τ.get w.tag) ∧
      (∀ (p : Path) (s : Supply) (τ : Taints), (∀ v, p.Has v → v.tag < s.nextTag) →
        p.Apart (p.fork s).path ∧
          (∃ f, p.CopiedTo τ f (p.fork s).path (τ.inheritAll (p.fork s).inheritances)) ∧
          ∀ tag < s.nextTag, (τ.inheritAll (p.fork s).inheritances).get tag = τ.get tag) ∧
      ∀ p ∈ g.paths, ∀ ins v, (execute program ins p g.supply).path.Has v →
        v.tag < (execute program ins p g.supply).supply.nextTag := by
  obtain ⟨htidy, hapart⟩ := Progress.tidy_and_apart_of_reaches h
  refine ⟨fun i j p q hne hp hq v w hv hw => ?_, fun p s τ hp => ?_, fun p hp ins v hv => ?_⟩
  · have htag := Progress.apart_of_ne hapart hne hp hq hv hw
    exact ⟨htag, fun τ a =>
      ⟨Taints.get_annotate_of_ne htag.symm a, Taints.get_discard_of_ne htag.symm a⟩⟩
  · exact ⟨Path.apart_fork hp, ⟨_, Path.copies_fork hp τ⟩,
      fun tag htag => Path.get_inheritAll_fork htag τ⟩
  · exact ((htidy p hp).of_adds (Path.adds_execute program ins p g.supply)).tag_lt hv

/-- Code that keeps the first word of the call data and jumps to its last byte if that word is not
zero. -/
def keepingCode : Bytes := [0x5f, 0x35, 0x80, 0x60, 0x07, 0x57, 0x00, 0x5b]

/-- An observer that stops an exploration at the first event. -/
def stoppingObserver : Observer Unit := ⟨fun i _ => throw (.unknownSubscriber i)⟩

/-- What an exploration of this code needs that stops before the first jump destination. -/
def stoppedSetting : Setting Unit where
  program := .ofCode keepingCode
  limits := ⟨60, 10, 3⟩
  hooks := [⟨.pre, .jumpDest, 0⟩]
  observer := stoppingObserver

/-- The exploration. -/
def stoppedRun : RunEnd Unit := runPaths stoppedSetting (.begin fallbackName {} {}) ((), {})

/-- After the branch both paths have kept the word, each as a value of its own. -/
theorem paths_share_no_value_of_branch :
    ∃ g p q v w, Progress.Reaches (.ofCode keepingCode) ⟨60, 10, 3⟩ (.begin fallbackName {} {}) g ∧
      g.paths = [p, q] ∧ p.stack = [v] ∧ q.stack = [w] ∧
      v.word = .callData (.const 0) ∧ w.word = .callData (.const 0) ∧ v.tag ≠ w.tag ∧
      ∀ (τ : Taints) (a : Taint), (τ.annotate v.tag a).get w.tag = τ.get w.tag := by
  have hstacks : stoppedRun.progress.paths.map Path.stack =
      [[⟨.callData (.const 0), 1⟩], [⟨.callData (.const 0), 3⟩]] := by decide +kernel
  have hcomplete : stoppedRun.progress.space.complete = true := by decide +kernel
  obtain ⟨p, rest, hpaths, hp, hrest⟩ := List.map_eq_cons_iff.mp hstacks
  obtain ⟨q, last, rfl, hq, hlast⟩ := List.map_eq_cons_iff.mp hrest
  obtain rfl := List.map_eq_nil_iff.mp hlast
  obtain ⟨g, hreach, ⟨rfl, -⟩ | hcut⟩ := runPaths_reaches stoppedSetting
    (.begin fallbackName {} {}) ((), {})
  · have hv : p.Has ⟨.callData (.const 0), 1⟩ := .inl (by rw [hp]; exact List.mem_singleton_self _)
    have hw : q.Has ⟨.callData (.const 0), 3⟩ := .inl (by rw [hq]; exact List.mem_singleton_self _)
    obtain ⟨htag, hkept⟩ := (paths_share_no_value _ _ _ _ _ hreach).1 Nat.zero_ne_one
      (congrArg (·[0]?) hpaths) (congrArg (·[1]?) hpaths) hv hw
    exact ⟨_, p, q, _, _, hreach, hpaths, hp, hq, rfl, rfl, htag, fun τ a => (hkept τ a).1⟩
  · have hcut' : stoppedRun.progress.space.complete = false := by
      rw [stoppedRun, hcut]
      rfl
    rw [hcut'] at hcomplete
    cases hcomplete

end GuardFinder

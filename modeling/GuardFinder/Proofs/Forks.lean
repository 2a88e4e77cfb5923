import GuardFinder.Proofs.Steps
import GuardFinder.Proofs.Tags

/-!
# Forks

A fork gives each tag of its path one new tag, and values with different tags get different new
ones. So a fork has the words of its path in all places, and is as tidy as its path.

* `Copies.Fresh`: new tags were never given out, and no two tags share one.
* `Path.tidy_fork`: a fork is tidy.
* `Progress.tidy_of_advance`: **all paths are tidy at all times**.
-/

namespace GuardFinder

/-! ### Copies -/

namespace Copies

/-- The new tags were given out since `base`, and no two tags have one new tag. -/
structure Fresh (base : Nat) (c : Copies) : Prop where
  base_le : base ≤ c.supply.nextTag
  range : ∀ ⦃tag name : Nat⦄, c.names[tag]? = some name → base ≤ name ∧ name < c.supply.nextTag
  injective : ∀ ⦃tag other name : Nat⦄, c.names[tag]? = some name →
    c.names[other]? = some name → tag = other

theorem Fresh.add {base : Nat} {c : Copies} (h : c.Fresh base) (tag : Nat) :
    (c.add tag).Fresh base := by
  unfold Copies.add
  split
  · exact h
  · refine ⟨Nat.le_succ_of_le h.base_le, fun u name hu => ?_, fun u v name hu hv => ?_⟩
    · simp only [Std.TreeMap.getElem?_insert, Std.LawfulEqCmp.compare_eq_iff_eq] at hu
      split at hu
      · obtain rfl := Option.some.inj hu
        exact ⟨h.base_le, Nat.lt_succ_self _⟩
      · exact ⟨(h.range hu).1, Nat.lt_succ_of_lt (h.range hu).2⟩
    · simp only [Std.TreeMap.getElem?_insert, Std.LawfulEqCmp.compare_eq_iff_eq] at hu hv
      -- a name from before is below the one given now
      split at hu <;> split at hv
      · omega
      · obtain rfl := Option.some.inj hu
        exact absurd (h.range hv).2 (Nat.lt_irrefl _)
      · obtain rfl := Option.some.inj hv
        exact absurd (h.range hu).2 (Nat.lt_irrefl _)
      · exact h.injective hu hv

theorem fresh_ofValues (s : Supply) (values : List Value) :
    (ofValues s values).Fresh s.nextTag := by
  have hfold : ∀ (values : List Value) (c : Copies), c.Fresh s.nextTag →
      (values.foldl (fun c v => c.add v.tag) c).Fresh s.nextTag := by
    intro values
    induction values with
    | nil => exact fun c h => h
    | cons v values ih => exact fun c h => ih _ (h.add v.tag)
  exact hfold values _ ⟨Nat.le_refl _, by simp, by simp⟩

theorem tag_rename (c : Copies) (v : Value) :
    c.names[v.tag]? = some (c.rename v).tag ∨ (c.rename v).tag = v.tag := by
  unfold rename
  rw [Std.TreeMap.getD_eq_getD_getElem?]
  cases h : c.names[v.tag]? with
  | none => exact .inr rfl
  | some name => exact .inl rfl

/-- Tags that were given out before the copying stay different. -/
theorem Fresh.tag_eq {base : Nat} {c : Copies} (h : c.Fresh base) {v w : Value} (hv : v.tag < base)
    (hw : w.tag < base) (heq : (c.rename v).tag = (c.rename w).tag) : v.tag = w.tag := by
  rcases c.tag_rename v with hv' | hv' <;> rcases c.tag_rename w with hw' | hw'
  · rw [heq] at hv'
    exact h.injective hv' hw'
  · have := (h.range hv').1
    omega
  · have := (h.range hw').1
    omega
  · omega

end Copies

/-! ### Paths -/

theorem Slots.get?_mapValues (s : Slots) (f : Value → Value) (slot : Term) :
    (s.mapValues f).get? slot = (s.get? slot).map f := by
  have hlookup : ∀ l : List (Term × Value),
      (l.map fun e => (e.1, f e.2)).lookup slot = (l.lookup slot).map f := by
    intro l
    induction l with
    | nil => rfl
    | cons e l ih =>
      obtain ⟨key, v⟩ := e
      simp only [List.map_cons, List.lookup_cons]
      cases slot == key
      · exact ih
      · rfl
  unfold mapValues get?
  split
  · exact Std.TreeMap.getElem?_map
  · exact hlookup _

namespace Path

variable {p q : Path} {s : Supply} {v : Value}

theorem has_mapValues {f : Value → Value} (h : (p.mapValues f).Has v) :
    ∃ w, p.Has w ∧ v = f w := by
  rcases h with hstack | hmemory | ⟨slot, hslot⟩
  · obtain ⟨w, hw, rfl⟩ := List.mem_map.mp hstack
    exact ⟨w, .inl hw, rfl⟩
  · obtain ⟨w, hw, rfl⟩ := Memory.holds_mapValues hmemory
    exact ⟨w, .inr (.inl hw), rfl⟩
  · simp only [mapValues, Slots.get?_mapValues, Option.map_eq_some_iff] at hslot
    obtain ⟨w, hw, rfl⟩ := hslot
    exact ⟨w, .inr (.inr ⟨slot, hw⟩), rfl⟩

theorem nextTag_le_fork (p : Path) (s : Supply) : s.nextTag ≤ (p.fork s).supply.nextTag :=
  (Copies.fresh_ofValues s p.values).base_le

/-- A fork is as tidy as its path. -/
theorem tidy_fork (h : p.Tidy s) : (p.fork s).path.Tidy (p.fork s).supply := by
  have hfresh := Copies.fresh_ofValues s p.values
  refine ⟨fun v hv => ?_, fun v w hv hw htag => ?_⟩
  · obtain ⟨v, hold, rfl⟩ := has_mapValues hv
    rcases Copies.tag_rename _ v with htag | htag
    · exact (hfresh.range htag).2
    · rw [htag]
      exact Nat.lt_of_lt_of_le (h.tag_lt hold) hfresh.base_le
  · obtain ⟨v, hv', rfl⟩ := has_mapValues hv
    obtain ⟨w, hw', rfl⟩ := has_mapValues hw
    have hword : v.word = w.word :=
      h.word_eq hv' hw' (hfresh.tag_eq (h.tag_lt hv') (h.tag_lt hw') htag)
    exact hword

end Path

/-! ### Explorations -/

section

variable {program : Program} {limits : Limits} {frame : Frame} {e : Effect} {s s' : StateSpace}
  {qs : List Path} {supply : Supply} {returned : Option Bytes}

/-- Steps never take tags back. -/
theorem Steps.nextTag_le (h : Steps program limits frame e s s' qs supply returned) :
    e.supply.nextTag ≤ supply.nextTag := by
  cases h with
  | fork | forkLost => exact Path.nextTag_le_fork ..
  | _ => exact Nat.le_refl _

theorem nextTag_le_stepAt (program : Program) (limits : Limits) (s : StateSpace) (supply : Supply)
    (p : Path) (ins : Instruction) :
    supply.nextTag ≤ (stepAt program limits s supply p ins).supply.nextTag :=
  Nat.le_trans (Path.adds_execute program ins p supply).1
    (steps_stepAt program limits s supply p ins).nextTag_le

theorem Steps.tidy (h : Steps program limits frame e s s' qs supply returned)
    (he : e.path.Tidy e.supply) : ∀ q ∈ qs, q.Tidy supply := by
  intro q hq
  cases h with
  | next =>
    rw [List.mem_singleton.mp hq]
    exact he.of_has fun _ h => h
  | halt | jumpLost | knownLost => exact absurd hq List.not_mem_nil
  | jump _ _ enters | knownFalse _ _ enters | knownTrue _ _ _ _ enters =>
    rw [enters.mem hq]
    exact he.of_has fun _ h => h
  | fork _ _ _ falls jumps =>
    rcases List.mem_append.mp hq with hq | hq
    · rw [jumps.mem hq]
      exact (he.mono (Path.nextTag_le_fork ..)).of_has fun _ h => h
    · rw [falls.mem hq]
      exact (Path.tidy_fork he).of_has fun _ h => h
  | forkLost _ _ _ falls =>
    rw [falls.mem hq]
    exact (Path.tidy_fork he).of_has fun _ h => h

end

/-- All paths of an exploration are tidy. -/
def Progress.Tidy (g : Progress) : Prop := ∀ p ∈ g.paths, p.Tidy g.supply

/-- **All paths are tidy at all times.** -/
theorem Progress.tidy_of_advance {program : Program} {limits : Limits} {g g' : Progress}
    (h : Advance program limits g g') (hg : g.Tidy) : g'.Tidy := by
  cases h with
  | ended | unfit => exact fun p hp => hg p (List.mem_cons_of_mem _ hp)
  | @step p ps qs space space' supply supply' returned now ins at_ins fits steps =>
    have hadds := Path.adds_execute program ins p supply
    intro q hq
    rcases List.mem_append.mp hq with hq | hq
    · exact steps.tidy ((hg p List.mem_cons_self).of_adds hadds) q hq
    · exact (hg q (List.mem_cons_of_mem _ hq)).mono (Nat.le_trans hadds.1 steps.nextTag_le)

end GuardFinder

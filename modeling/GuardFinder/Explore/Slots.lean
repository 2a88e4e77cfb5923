import GuardFinder.Value
import Std.Data.TreeMap

/-!
# Storage slots

What a path wrote to storage. Slots are named by terms, and two slots are one if their terms are
equal. Slots with known numbers are kept apart from the others, so that a program that writes many
of them is followed without delay.

* `Slots.get?_put`: a slot has what was written last.
-/

namespace GuardFinder

/-- The slots that a path wrote. -/
structure Slots where
  /-- The slots with known numbers. -/
  known : Std.TreeMap Word Value := ∅
  /-- The other slots, the one that was written last first. -/
  others : List (Term × Value) := []

namespace Slots

/-- What was written to a slot. -/
def get? (s : Slots) (slot : Term) : Option Value :=
  match slot with
  | .const w => s.known[w]?
  | _ => s.others.lookup slot

/-- Writes a slot. -/
def put (s : Slots) (slot : Term) (v : Value) : Slots :=
  match slot with
  | .const w => { s with known := s.known.insert w v }
  | _ => { s with others := (slot, v) :: s.others.filter (·.1 ≠ slot) }

/-- The values in all slots. -/
def values (s : Slots) : List Value := s.known.toList.map (·.2) ++ s.others.map (·.2)

/-- Replaces every value. -/
def mapValues (s : Slots) (f : Value → Value) : Slots where
  known := s.known.map fun _ v => f v
  others := s.others.map fun (slot, v) => (slot, f v)

theorem lookup_filter_ne {slot other : Term} (h : other ≠ slot) (l : List (Term × Value)) :
    (l.filter (·.1 ≠ slot)).lookup other = l.lookup other := by
  induction l with
  | nil => rfl
  | cons e l ih =>
    obtain ⟨key, v⟩ := e
    by_cases hk : key = slot
    · subst hk
      simpa [List.lookup_cons, beq_false_of_ne h] using ih
    · simp only [ne_eq, hk, not_false_eq_true, decide_true, List.filter_cons_of_pos,
        List.lookup_cons]
      cases other == key
      · exact ih
      · rfl

/-- **A slot has what was written last**: a write changes the slot and no other. -/
theorem get?_put (s : Slots) (slot other : Term) (v : Value) :
    (s.put slot v).get? other = if other = slot then some v else s.get? other := by
  by_cases h : other = slot
  · subst h
    unfold put get?
    split <;> simp_all
  · rw [if_neg h]
    unfold put get?
    split
    · next w =>
      split
      · next u =>
        have hne : u ≠ w := fun he => h (by rw [he])
        simp [Std.TreeMap.getElem?_insert, hne]
      · rfl
    · split
      · rfl
      · simp only [List.lookup_cons, beq_false_of_ne h]
        exact lookup_filter_ne h _

end Slots

end GuardFinder

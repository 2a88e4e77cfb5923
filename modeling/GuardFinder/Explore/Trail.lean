/-!
# Trails

The jump edges behind a path, by the addresses of jump and target. A trail knows its length and how
often each edge is in it, so that the limits of an exploration can be looked at in each step however
long the path is.

* `Trail.push`: the trail after one more edge.
* `Trail.count`: how often an edge was taken, which `Trail.count_eq` states on the list of edges.
-/

namespace GuardFinder

/-- How often an edge is listed in a tally. -/
def talliedIn (tally : List ((Nat × Nat) × Nat)) (edge : Nat × Nat) : Nat :=
  (tally.lookup edge).getD 0

/-- Counts a listed edge once more. -/
def raiseIn (edge : Nat × Nat) : List ((Nat × Nat) × Nat) → List ((Nat × Nat) × Nat)
  | [] => []
  | (e, n) :: rest => if edge = e then (e, n + 1) :: rest else (e, n) :: raiseIn edge rest

/-- Counts an edge once more, whether it is listed or not. -/
def tallyUp (edge : Nat × Nat) (tally : List ((Nat × Nat) × Nat)) : List ((Nat × Nat) × Nat) :=
  if (tally.lookup edge).isSome then raiseIn edge tally else (edge, 1) :: tally

theorem lookup_raiseIn (edge e : Nat × Nat) (tally : List ((Nat × Nat) × Nat)) :
    (raiseIn edge tally).lookup e =
      if e = edge then (tally.lookup e).map (· + 1) else tally.lookup e := by
  induction tally with
  | nil => simp [raiseIn]
  | cons p rest ih =>
    obtain ⟨f, n⟩ := p
    by_cases hf : edge = f
    · subst hf
      by_cases he : e = edge
      · subst he
        simp [raiseIn]
      · simp [raiseIn, List.lookup_cons, he, beq_false_of_ne he]
    · by_cases he : e = f
      · subst he
        have : ¬e = edge := fun h => hf h.symm
        simp [raiseIn, hf, this]
      · simp [raiseIn, hf, List.lookup_cons, beq_false_of_ne he, ih]

theorem talliedIn_tallyUp (edge e : Nat × Nat) (tally : List ((Nat × Nat) × Nat)) :
    talliedIn (tallyUp edge tally) e = talliedIn tally e + if e = edge then 1 else 0 := by
  unfold tallyUp talliedIn
  split
  · next h =>
    rw [lookup_raiseIn]
    by_cases he : e = edge
    · subst he
      obtain ⟨n, hn⟩ := Option.isSome_iff_exists.mp h
      simp [hn]
    · simp [he]
  · next h =>
    by_cases he : e = edge
    · subst he
      simp only [Bool.not_eq_true, Option.isSome_eq_false_iff, Option.isNone_iff_eq_none] at h
      simp [h]
    · simp [List.lookup_cons, he, beq_false_of_ne he]

/-- The jump edges behind a path. -/
structure Trail where
  /-- The edges, the last one first. -/
  edges : List (Nat × Nat)
  /-- How many edges there are. -/
  length : Nat
  /-- How often each edge was taken. -/
  tally : List ((Nat × Nat) × Nat)
  length_eq : length = edges.length
  tally_eq : ∀ e, talliedIn tally e = edges.count e

namespace Trail

/-- The trail at the start of a path. -/
def empty : Trail where
  edges := []
  length := 0
  tally := []
  length_eq := rfl
  tally_eq _ := rfl

/-- The trail after one more edge. -/
def push (t : Trail) (edge : Nat × Nat) : Trail where
  edges := edge :: t.edges
  length := t.length + 1
  tally := tallyUp edge t.tally
  length_eq := by simp [t.length_eq]
  tally_eq e := by
    rw [talliedIn_tallyUp, t.tally_eq, List.count_cons]
    by_cases h : e = edge
    · subst h
      simp
    · have : ¬edge = e := fun h' => h h'.symm
      simp [h, this]

/-- How often an edge was taken. -/
def count (t : Trail) (edge : Nat × Nat) : Nat := talliedIn t.tally edge

theorem count_eq (t : Trail) (edge : Nat × Nat) : t.count edge = t.edges.count edge :=
  t.tally_eq edge

theorem length_push (t : Trail) (edge : Nat × Nat) : (t.push edge).length = t.length + 1 := rfl

end Trail

end GuardFinder

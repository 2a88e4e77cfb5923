import GuardFinder.Term
import GuardFinder.Taint
import Std.Data.TreeMap

/-!
# Values and their taints

A value is a symbolic word with a tag that tells it from all other values. Copies of a value on the
stack, in memory and in storage share its tag, and taints are kept by tag: a taint put on a value
shows wherever the value is.

* `Supply`: the tags and result numbers not given out yet.
* `Taints.annotate`, `Taints.discard`: put a taint on a tag, take it away.
* `Inheritance`, `Taints.inherit`: a new tag starts with the taints of the tags it comes from.
* `Copies`: new tags for old ones, one for each.
-/

namespace GuardFinder

/-- A word on the stack, in memory or in storage. -/
structure Value where
  word : Term
  /-- Tells the value from all others. -/
  tag : Nat
  deriving DecidableEq, Repr, Inhabited

namespace Value

/-- The value as a number, when it is a constant. -/
def const? (v : Value) : Option Word := v.word.const?

/-- The value as a size, when it is a constant that fits 64 bits. -/
def size? (v : Value) : Option Nat := v.const?.bind Word.size?

end Value

/-- What new values and new results are numbered by. -/
structure Supply where
  /-- The next tag. -/
  nextTag : Nat := 0
  /-- How many results of instructions that are not followed have been numbered. -/
  havocs : Nat := 0
  deriving DecidableEq, Repr

namespace Supply

/-- A new value with the given word. -/
def value (s : Supply) (word : Term) : Value × Supply :=
  (⟨word, s.nextTag⟩, { s with nextTag := s.nextTag + 1 })

/-- A new result of an instruction that is not followed. -/
def havoc (s : Supply) (origin : Opcode) : Term × Supply :=
  (.havoc origin (s.havocs + 1), { s with havocs := s.havocs + 1 })

end Supply

/-- A new tag and the tags whose taints it starts with. -/
structure Inheritance where
  heir : Nat
  sources : List Nat
  deriving DecidableEq, Repr

/-- The taints of all tags. -/
structure Taints where
  sets : Std.TreeMap Nat TaintSet

namespace Taints

instance : EmptyCollection Taints := ⟨⟨∅⟩⟩

instance : Inhabited Taints := ⟨∅⟩

/-- The taints of a tag. -/
def get (τ : Taints) (tag : Nat) : TaintSet := τ.sets.getD tag ∅

/-- Gives a tag a new set of taints. -/
def set (τ : Taints) (tag : Nat) (taints : TaintSet) : Taints :=
  if taints.isEmpty then ⟨τ.sets.erase tag⟩ else ⟨τ.sets.insert tag taints⟩

theorem get_set (τ : Taints) (tag other : Nat) (taints : TaintSet) :
    (τ.set tag taints).get other = if other = tag then taints else τ.get other := by
  unfold set get
  split
  · next h =>
    have he : taints = ∅ := by
      obtain ⟨l, hl⟩ := taints
      cases l with
      | nil => rfl
      | cons a l => simp [TaintSet.isEmpty] at h
    rw [Std.TreeMap.getD_erase, he]
    by_cases hot : other = tag
    · simp [hot]
    · simp [hot, Ne.symm hot]
  · rw [Std.TreeMap.getD_insert]
    by_cases hot : other = tag
    · simp [hot]
    · simp [hot, Ne.symm hot]

/-- Whether a tag has a taint. -/
def has (τ : Taints) (tag : Nat) (a : Taint) : Bool := a ∈ τ.get tag

/-- Puts a taint on a tag. -/
def annotate (τ : Taints) (tag : Nat) (a : Taint) : Taints := τ.set tag ((τ.get tag).insert a)

/-- Takes a taint from a tag. -/
def discard (τ : Taints) (tag : Nat) (a : Taint) : Taints := τ.set tag ((τ.get tag).erase a)

/-- The taints of several tags together. -/
def union (τ : Taints) (tags : List Nat) : TaintSet :=
  tags.foldl (fun acc tag => acc.union (τ.get tag)) ∅

/-- Starts a new tag with the taints of its sources. -/
def inherit (τ : Taints) (i : Inheritance) : Taints := τ.set i.heir (τ.union i.sources)

end Taints

/-! ## Copies -/

/-- The tags copied so far, each with the tag of its copy. -/
structure Copies where
  names : Std.TreeMap Nat Nat := ∅
  supply : Supply
  inheritances : List Inheritance := []

namespace Copies

/-- Copies a tag, unless that was done before. -/
def add (c : Copies) (tag : Nat) : Copies :=
  if c.names.contains tag then c
  else
    { names := c.names.insert tag c.supply.nextTag
      supply := { c.supply with nextTag := c.supply.nextTag + 1 }
      inheritances := ⟨c.supply.nextTag, [tag]⟩ :: c.inheritances }

/-- Copies the tags of values, each once. -/
def ofValues (supply : Supply) (values : List Value) : Copies :=
  values.foldl (fun c v => c.add v.tag) { supply }

/-- The copy of a value. -/
def rename (c : Copies) (v : Value) : Value := { v with tag := c.names.getD v.tag v.tag }

end Copies

/-- A value as text: its word, and its taints if it has any. -/
def Value.text (τ : Taints) (v : Value) : String :=
  let taints := τ.get v.tag
  if taints.isEmpty then v.word.text false
  else
    v.word.text false ++ " \x7b" ++ String.intercalate "," (taints.toList.map Taint.text) ++ "\x7d"

end GuardFinder

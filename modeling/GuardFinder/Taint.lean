import GuardFinder.Word

/-!
# Taints

Detectors mark values with taints: where a word comes from, and which comparisons it went through.
Taints are ordered by their kind and then by the slots they name; a set of taints is listed in that
order, and "the first" taint of a set is the first in it.

* `Taint.eq_of_key_eq`: the order tells any two taints apart.
* `TaintSet.insert`, `TaintSet.erase`, `TaintSet.union`: sets as ordered lists without repetition.
-/

namespace GuardFinder

/-- The side of an owner check that a value stood on. -/
inductive Actor
  | sender
  | owner
  deriving DecidableEq, Repr

/-- The side of a comparison with the block number that a value stood on. -/
inductive Compared
  | blockNumber
  | storage
  deriving DecidableEq, Repr

/-- A mark on a value. -/
inductive Taint
  /-- The account that called. -/
  | caller
  /-- Read from storage, at a known slot or an unknown one. -/
  | storage (slot : Option Word)
  /-- Went through a comparison of the caller with a stored account. -/
  | equality (actor : Actor)
  /-- Went through a comparison of the block number with a stored word. -/
  | comparison (item : Compared)
  /-- The outcome of comparing two plain storage slots. -/
  | storageComparison (left right : Word)
  /-- The current block number. -/
  | blockNumber
  /-- Read from the call data. -/
  | input
  /-- The hash of a short input, which may be a secret. -/
  | hashedInput
  /-- The outcome of comparing a hashed input. -/
  | hashedInputEq
  /-- Read from storage at a place that a hashed input names. -/
  | hashedStorage
  /-- May name a role. -/
  | role
  /-- The hash of something that may name a role. -/
  | hashedRole
  /-- The hash of the account that called. -/
  | hashedCaller
  deriving DecidableEq, Repr

namespace Taint

/-! ## Order -/

/-- The place of a kind of taint among all kinds. -/
def rank : Taint → Nat
  | caller => 0
  | storage _ => 1
  | equality _ => 2
  | comparison _ => 3
  | storageComparison .. => 4
  | blockNumber => 5
  | input => 6
  | hashedInput => 7
  | hashedInputEq => 8
  | hashedStorage => 9
  | role => 10
  | hashedRole => 11
  | hashedCaller => 12

/-- The place of a slot: an unknown one comes first, known ones by value. -/
def slotPlace : Option Word → Nat
  | none => 0
  | some slot => slot.toNat + 1

/-- The place of a side of an owner check. -/
def actorPlace : Actor → Nat
  | .sender => 0
  | .owner => 1

/-- The place of a side of a comparison with the block number. -/
def comparedPlace : Compared → Nat
  | .blockNumber => 0
  | .storage => 1

/-- The place of a taint among those of its kind. -/
def place : Taint → Nat
  | storage slot => slotPlace slot
  | equality actor => actorPlace actor
  | comparison item => comparedPlace item
  | storageComparison left right => left.toNat * Word.count + right.toNat
  | caller | blockNumber | input | hashedInput | hashedInputEq | hashedStorage | role | hashedRole
  | hashedCaller => 0

/-- The order of taints. -/
protected def lt (a b : Taint) : Prop := a.rank < b.rank ∨ (a.rank = b.rank ∧ a.place < b.place)

instance : LT Taint := ⟨Taint.lt⟩

theorem lt_def {a b : Taint} : a < b ↔ a.rank < b.rank ∨ (a.rank = b.rank ∧ a.place < b.place) :=
  Iff.rfl

instance (a b : Taint) : Decidable (a < b) := decidable_of_iff _ lt_def.symm

/-- The taint at a place among those of a kind. -/
def ofKey (rank place : Nat) : Option Taint :=
  match rank with
  | 0 => some caller
  | 1 => some (storage (if place = 0 then none else some (BitVec.ofNat 256 (place - 1))))
  | 2 => some (equality (if place = 0 then .sender else .owner))
  | 3 => some (comparison (if place = 0 then .blockNumber else .storage))
  | 4 => some (storageComparison (BitVec.ofNat 256 (place / Word.count))
      (BitVec.ofNat 256 (place % Word.count)))
  | 5 => some blockNumber
  | 6 => some input
  | 7 => some hashedInput
  | 8 => some hashedInputEq
  | 9 => some hashedStorage
  | 10 => some role
  | 11 => some hashedRole
  | 12 => some hashedCaller
  | _ => none

theorem ofKey_rank_place (a : Taint) : ofKey a.rank a.place = some a := by
  cases a with
  | storage slot => cases slot <;> simp [rank, place, slotPlace, ofKey]
  | equality actor => cases actor <;> simp [rank, place, actorPlace, ofKey]
  | comparison item => cases item <;> simp [rank, place, comparedPlace, ofKey]
  | storageComparison left right =>
    have hr := Word.toNat_lt_count right
    have hq : (left.toNat * Word.count + right.toNat) / Word.count = left.toNat := by
      rw [Nat.mul_comm, Nat.mul_add_div (by decide), Nat.div_eq_of_lt hr,
        Nat.add_zero]
    have hm : (left.toNat * Word.count + right.toNat) % Word.count = right.toNat := by
      rw [Nat.mul_comm, Nat.mul_add_mod, Nat.mod_eq_of_lt hr]
    simp only [rank, place, ofKey, hq, hm, BitVec.ofNat_toNat, BitVec.setWidth_eq]
  | _ => rfl

/-- **The order tells taints apart**: no two taints share both places. -/
theorem eq_of_key_eq {a b : Taint} (hr : a.rank = b.rank) (hp : a.place = b.place) : a = b := by
  have h := ofKey_rank_place a
  rw [hr, hp, ofKey_rank_place b] at h
  exact (Option.some.inj h).symm

theorem lt_trans {a b c : Taint} (hab : a < b) (hbc : b < c) : a < c := by
  simp only [lt_def] at *
  omega

theorem lt_irrefl (a : Taint) : ¬a < a := by
  simp [lt_def]

theorem lt_or_eq_or_gt (a b : Taint) : a < b ∨ a = b ∨ b < a := by
  by_cases h : a.rank = b.rank ∧ a.place = b.place
  · exact .inr (.inl (eq_of_key_eq h.1 h.2))
  · simp only [lt_def]
    omega

/-! ## Slots -/

/-- The slot of a storage taint, when it is known. -/
def slot? : Taint → Option Word
  | storage slot => slot
  | _ => none

/-- Whether a taint says that a value was read from storage. -/
def isStorage : Taint → Bool
  | storage _ => true
  | _ => false

/-- Whether a taint is the outcome of comparing two storage slots. -/
def isStorageComparison : Taint → Bool
  | storageComparison .. => true
  | _ => false

/-! ## Text -/

/-- A taint as text. -/
def text : Taint → String
  | caller => "Caller"
  | storage none => "Storage(?)"
  | storage (some slot) => "Storage(" ++ Word.toHex slot ++ ")"
  | equality .sender => "Equality(Sender)"
  | equality .owner => "Equality(Owner)"
  | comparison .blockNumber => "Comparison(BlockNumber)"
  | comparison .storage => "Comparison(Storage)"
  | storageComparison left right =>
    "StorageComparison(" ++ Word.toHex left ++ "," ++ Word.toHex right ++ ")"
  | blockNumber => "BlockNumber"
  | input => "Input"
  | hashedInput => "HashedInput"
  | hashedInputEq => "HashedInputEq"
  | hashedStorage => "HashedStorage"
  | role => "Role"
  | hashedRole => "HashedRole"
  | hashedCaller => "HashedCaller"

end Taint

/-! ## Sets of taints -/

/-- Puts a taint in its place in an ordered list. -/
def insertTaint (a : Taint) : List Taint → List Taint
  | [] => [a]
  | b :: rest =>
    if a < b then a :: b :: rest
    else if a = b then b :: rest
    else b :: insertTaint a rest

theorem mem_insertTaint {a x : Taint} {l : List Taint} : x ∈ insertTaint a l ↔ x = a ∨ x ∈ l := by
  induction l with
  | nil => simp [insertTaint]
  | cons b rest ih =>
    unfold insertTaint
    split
    · simp
    · split
      · next h => subst h; simp
      · simp only [List.mem_cons, ih]
        constructor
        · rintro (h | h | h) <;> simp [h]
        · rintro (h | h | h) <;> simp [h]

theorem pairwise_insertTaint {a : Taint} {l : List Taint} (h : l.Pairwise (· < ·)) :
    (insertTaint a l).Pairwise (· < ·) := by
  induction l with
  | nil => simp [insertTaint]
  | cons b rest ih =>
    obtain ⟨hb, hrest⟩ := List.pairwise_cons.mp h
    unfold insertTaint
    split
    · next hab =>
      refine List.pairwise_cons.mpr ⟨?_, h⟩
      intro c hc
      rcases List.mem_cons.mp hc with rfl | hc
      · exact hab
      · exact Taint.lt_trans hab (hb c hc)
    · split
      · exact h
      · next hab hne =>
        refine List.pairwise_cons.mpr ⟨?_, ih hrest⟩
        intro c hc
        rcases mem_insertTaint.mp hc with rfl | hc
        · rcases Taint.lt_or_eq_or_gt c b with h' | h' | h'
          · exact absurd h' hab
          · exact absurd h' hne
          · exact h'
        · exact hb c hc

/-- Merges an ordered list, which starts with `a` and goes on with `s`, with another one. What is
left of it after `a` is merged by `rest`. -/
def mergeAfter (a : Taint) (s : List Taint) (rest : List Taint → List Taint) :
    List Taint → List Taint
  | [] => a :: s
  | b :: t =>
    if a < b then a :: rest (b :: t)
    else if a = b then a :: rest t
    else b :: mergeAfter a s rest t

/-- Merges two ordered lists. -/
def mergeTaints : List Taint → List Taint → List Taint
  | [], t => t
  | a :: s, t => mergeAfter a s (mergeTaints s) t

theorem mem_mergeAfter {a x : Taint} {s : List Taint} {rest : List Taint → List Taint}
    (hrest : ∀ t, x ∈ rest t ↔ x ∈ s ∨ x ∈ t) (t : List Taint) :
    x ∈ mergeAfter a s rest t ↔ x ∈ a :: s ∨ x ∈ t := by
  induction t with
  | nil => simp [mergeAfter]
  | cons b t ih =>
    unfold mergeAfter
    split
    · simp [hrest, or_assoc]
    · split
      · next h => subst h; simp only [List.mem_cons, hrest]; grind
      · simp only [List.mem_cons, ih]; grind

theorem mem_mergeTaints {x : Taint} (s t : List Taint) :
    x ∈ mergeTaints s t ↔ x ∈ s ∨ x ∈ t := by
  induction s generalizing t with
  | nil => simp [mergeTaints]
  | cons a s ih => exact mem_mergeAfter ih t

theorem pairwise_mergeTaints {s t : List Taint} (hs : s.Pairwise (· < ·))
    (ht : t.Pairwise (· < ·)) : (mergeTaints s t).Pairwise (· < ·) := by
  induction s generalizing t with
  | nil => exact ht
  | cons a s ih =>
    obtain ⟨ha, hs'⟩ := List.pairwise_cons.mp hs
    unfold mergeTaints
    induction t with
    | nil => exact hs
    | cons b t iht =>
      obtain ⟨hb, ht'⟩ := List.pairwise_cons.mp ht
      unfold mergeAfter
      split
      · next hab =>
        refine List.pairwise_cons.mpr ⟨fun c hc => ?_, ih hs' ht⟩
        rcases (mem_mergeTaints _ _).mp hc with hc | hc
        · exact ha c hc
        · rcases List.mem_cons.mp hc with rfl | hc
          · exact hab
          · exact Taint.lt_trans hab (hb c hc)
      · split
        · next hab =>
          subst hab
          refine List.pairwise_cons.mpr ⟨fun c hc => ?_, ih hs' ht'⟩
          rcases (mem_mergeTaints _ _).mp hc with hc | hc
          · exact ha c hc
          · exact hb c hc
        · next hab hne =>
          have hba : b < a := by
            rcases Taint.lt_or_eq_or_gt a b with h | h | h
            · exact absurd h hab
            · exact absurd h hne
            · exact h
          refine List.pairwise_cons.mpr ⟨fun c hc => ?_, iht ht'⟩
          rcases (mem_mergeAfter (mem_mergeTaints s) t).mp hc with hc | hc
          · rcases List.mem_cons.mp hc with rfl | hc
            · exact hba
            · exact Taint.lt_trans hba (ha c hc)
          · exact hb c hc

/-- A set of taints, as the list of its members in order. -/
structure TaintSet where
  toList : List Taint
  sorted : toList.Pairwise (· < ·)
  deriving DecidableEq

namespace TaintSet

instance : EmptyCollection TaintSet := ⟨[], .nil⟩

instance : Inhabited TaintSet := ⟨∅⟩

instance : Membership Taint TaintSet := ⟨fun s a => a ∈ s.toList⟩

theorem mem_def {a : Taint} {s : TaintSet} : a ∈ s ↔ a ∈ s.toList := Iff.rfl

instance (a : Taint) (s : TaintSet) : Decidable (a ∈ s) := decidable_of_iff _ mem_def.symm

@[simp] theorem not_mem_empty (a : Taint) : a ∉ (∅ : TaintSet) := List.not_mem_nil

/-- Whether a set has no members. -/
def isEmpty (s : TaintSet) : Bool := s.toList.isEmpty

/-- The set with one more member. -/
def insert (s : TaintSet) (a : Taint) : TaintSet :=
  ⟨insertTaint a s.toList, pairwise_insertTaint s.sorted⟩

@[simp] theorem mem_insert {s : TaintSet} {a x : Taint} : x ∈ s.insert a ↔ x = a ∨ x ∈ s :=
  mem_insertTaint

/-- The set without a member. -/
def erase (s : TaintSet) (a : Taint) : TaintSet :=
  ⟨s.toList.filter (· ≠ a), s.sorted.filter _⟩

@[simp] theorem mem_erase {s : TaintSet} {a x : Taint} : x ∈ s.erase a ↔ x ≠ a ∧ x ∈ s := by
  simp [mem_def, erase, and_comm]

/-- The members of either set. -/
def union (s t : TaintSet) : TaintSet :=
  ⟨mergeTaints s.toList t.toList, pairwise_mergeTaints s.sorted t.sorted⟩

@[simp] theorem mem_union {s t : TaintSet} {x : Taint} : x ∈ s.union t ↔ x ∈ s ∨ x ∈ t :=
  mem_mergeTaints s.toList t.toList

/-- Whether one of several taints is in the set. -/
def hasAny (s : TaintSet) (candidates : List Taint) : Bool := candidates.any (· ∈ s)

/-- Whether all of several taints are in the set. -/
def hasAll (s : TaintSet) (candidates : List Taint) : Bool := candidates.all (· ∈ s)

/-- The first known slot that a storage taint of the set names. -/
def slot? (s : TaintSet) : Option Word := s.toList.findSome? Taint.slot?

/-- The first known slot below `ceiling` that a storage taint of the set names. -/
def slotBelow? (s : TaintSet) (ceiling : Word) : Option Word :=
  s.toList.findSome? fun a => a.slot?.filter (· < ceiling)

end TaintSet

end GuardFinder

import GuardFinder.Proofs.Refutation
import Mathlib.Data.List.Forall2

/-!
# Verdicts depend on what is said only

The structural oracle compares each constraint with those behind it, and takes the pairs of words
after all constraints. Nothing of that order is left in its verdict: a query is refuted by one or
two constraints, or by a pair and perhaps a constraint, wherever they stand.

* `Query.isRefuted_iff`: the ways to a refutation, without an order.
* `Query.Within`: all that a query says is said by another one, perhaps in other words.
* `Query.Within.isRefuted`: **what is refuted stays refuted when more is said**.
* `Oracle.structural_verdicts`: what follows for the verdicts.
-/

namespace GuardFinder

theorem exists_of_forall₂ {α β : Type} {R : α → β → Prop} {as : List α} {bs : List β}
    (h : List.Forall₂ R as bs) {a : α} (ha : a ∈ as) : ∃ b ∈ bs, R a b := by
  induction h with
  | nil => exact absurd ha List.not_mem_nil
  | cons hab _ ih =>
    rcases List.mem_cons.mp ha with rfl | ha
    · exact ⟨_, List.mem_cons_self, hab⟩
    · obtain ⟨b, hb, hR⟩ := ih ha
      exact ⟨b, List.mem_cons_of_mem _ hb, hR⟩

/-! ### Constraints -/

/-- The term with negations around it. -/
def Term.negated (t : Term) : Nat → Term
  | 0 => t
  | n + 1 => .unary .isZero (t.negated n)

namespace Constraint

theorem contradicts_comm (c d : Constraint) : c.contradicts d = d.contradicts c := by
  simp only [contradicts, eq_comm, bne_comm]

theorem not_contradicts_self (c : Constraint) : c.contradicts c = false := by
  simp [contradicts]

theorem asserts_comm (c : Constraint) (a b : Term) : c.asserts a b = c.asserts b a := by
  unfold asserts
  split
  · rw [Bool.or_comm]
  · rfl

/-- Two constraints that the structural oracle takes for the same. -/
structure SaysSame (c d : Constraint) : Prop where
  core : d.core = c.core
  absurd : d.isAbsurd = c.isAbsurd

namespace SaysSame

variable {c c' d d' : Constraint}

theorem refl (c : Constraint) : c.SaysSame c := ⟨rfl, rfl⟩

theorem symm (h : c.SaysSame d) : d.SaysSame c := ⟨h.core.symm, h.absurd.symm⟩

theorem contradicts (h : c.SaysSame c') (h' : d.SaysSame d') :
    c'.contradicts d' = c.contradicts d := by
  simp only [Constraint.contradicts, h.core, h'.core]

theorem asserts (h : c.SaysSame d) (a b : Term) : d.asserts a b = c.asserts a b := by
  simp only [Constraint.asserts, h.core]

end SaysSame

theorem stripNegations_negated (t : Term) (holds : Bool) (k : Nat) :
    stripNegations (t.negated (2 * k)) holds = stripNegations t holds := by
  induction k with
  | zero => rfl
  | succ k ih =>
    have hstep : stripNegations (t.negated (2 * (k + 1))) holds =
        stripNegations (t.negated (2 * k)) (!!holds) := rfl
    rw [hstep, Bool.not_not, ih]

/-- A constraint, perhaps with an even number of negations around its condition if that is no
constant. -/
def EvenlyNegated (c d : Constraint) : Prop :=
  d = c ∨ c.condition.const? = none ∧ ∃ k, d = ⟨c.condition.negated (2 * k), c.holds⟩

theorem EvenlyNegated.saysSame {c d : Constraint} (h : c.EvenlyNegated d) : c.SaysSame d := by
  rcases h with rfl | ⟨hconst, k, rfl⟩
  · exact .refl d
  · have hconst' : (c.condition.negated (2 * k)).const? = none := by
      cases k with
      | zero => exact hconst
      | succ k => rfl
    exact ⟨stripNegations_negated c.condition c.holds k, by simp only [isAbsurd, hconst, hconst']⟩

end Constraint

/-! ### Queries -/

namespace Query

variable {q q' : Query}

theorem refutesConstraints_iff {cs : List Constraint} :
    refutesConstraints cs = true ↔
      ∃ c ∈ cs, c.isAbsurd = true ∨ ∃ d ∈ cs, c.contradicts d = true := by
  induction cs with
  | nil => simp [refutesConstraints]
  | cons c rest ih =>
    simp only [refutesConstraints, Bool.or_eq_true, List.any_eq_true, ih]
    constructor
    · rintro ((habsurd | ⟨d, hd, hcd⟩) | ⟨e, he, habsurd | ⟨d, hd, hed⟩⟩)
      · exact ⟨c, List.mem_cons_self, .inl habsurd⟩
      · exact ⟨c, List.mem_cons_self, .inr ⟨d, List.mem_cons_of_mem _ hd, hcd⟩⟩
      · exact ⟨e, List.mem_cons_of_mem _ he, .inl habsurd⟩
      · exact ⟨e, List.mem_cons_of_mem _ he, .inr ⟨d, List.mem_cons_of_mem _ hd, hed⟩⟩
    · rintro ⟨e, he, habsurd | ⟨d, hd, hed⟩⟩
      · rcases List.mem_cons.mp he with rfl | he
        · exact .inl (.inl habsurd)
        · exact .inr ⟨e, he, .inl habsurd⟩
      · -- the first of the two in the list is compared with the other one
        rcases List.mem_cons.mp he with rfl | he' <;> rcases List.mem_cons.mp hd with rfl | hd'
        · cases (Constraint.not_contradicts_self _).symm.trans hed
        · exact .inl (.inr ⟨d, hd', hed⟩)
        · exact .inl (.inr ⟨e, he', Constraint.contradicts_comm _ _ ▸ hed⟩)
        · exact .inr ⟨e, he', .inr ⟨d, hd', hed⟩⟩

/-- **The ways to a refutation**: an absurd constraint, two constraints that contradict each other,
or a pair of words that are the same or asserted to be equal. -/
theorem isRefuted_iff :
    q.isRefuted = true ↔
      (∃ c ∈ q.constraints, c.isAbsurd = true ∨ ∃ d ∈ q.constraints, c.contradicts d = true) ∨
        ∃ pair ∈ q.distinct, pair.1 = pair.2 ∨
          ∃ c ∈ q.constraints, c.asserts pair.1 pair.2 = true := by
  simp only [isRefuted, Bool.or_eq_true, refutesConstraints_iff, List.any_eq_true, refutesDistinct,
    decide_eq_true_eq]

/-- All that a query says is said by another one: constraints perhaps with other negations, pairs
perhaps the other way round. -/
structure Within (q q' : Query) : Prop where
  constraints : ∀ c ∈ q.constraints, ∃ d ∈ q'.constraints, c.SaysSame d
  distinct : ∀ pair ∈ q.distinct, pair ∈ q'.distinct ∨ pair.swap ∈ q'.distinct

theorem within_of_subset (hc : q.constraints ⊆ q'.constraints) (hd : q.distinct ⊆ q'.distinct) :
    q.Within q' where
  constraints c h := ⟨c, hc h, .refl c⟩
  distinct _ h := .inl (hd h)

/-- **What is refuted stays refuted when more is said.** -/
theorem Within.isRefuted (h : q.Within q') (hq : q.isRefuted = true) : q'.isRefuted = true := by
  rw [isRefuted_iff] at hq ⊢
  rcases hq with ⟨c, hc, hrefuted⟩ | ⟨pair, hpair, hequal⟩
  · left
    obtain ⟨c', hc', hsame⟩ := h.constraints c hc
    refine ⟨c', hc', hrefuted.imp (hsame.absurd.trans ·) ?_⟩
    rintro ⟨d, hd, hcd⟩
    obtain ⟨d', hd', hsame'⟩ := h.constraints d hd
    exact ⟨d', hd', (hsame.contradicts hsame').trans hcd⟩
  · right
    have hasserted (c : Constraint) (hc : c ∈ q.constraints) (a b : Term)
        (hasserts : c.asserts a b = true) : ∃ d ∈ q'.constraints, d.asserts a b = true := by
      obtain ⟨d, hd, hsame⟩ := h.constraints c hc
      exact ⟨d, hd, (hsame.asserts a b).trans hasserts⟩
    rcases h.distinct pair hpair with hpair' | hpair'
    · refine ⟨pair, hpair', hequal.imp_right ?_⟩
      rintro ⟨c, hc, hasserts⟩
      exact hasserted c hc _ _ hasserts
    · refine ⟨pair.swap, hpair', hequal.imp Eq.symm ?_⟩
      rintro ⟨c, hc, hasserts⟩
      exact hasserted c hc _ _ ((c.asserts_comm _ _).trans hasserts)

theorem isRefuted_eq (h : q.Within q') (h' : q'.Within q) : q'.isRefuted = q.isRefuted :=
  Bool.eq_iff_iff.mpr ⟨h'.isRefuted, h.isRefuted⟩

end Query

/-! ### Verdicts -/

namespace Oracle

variable {seconds : Nat} {clock : Nat → Nat → Nat}

theorem check_eq_of_within (htime : ∀ n i, clock n i < seconds) (n n' : Nat) {q q' : Query}
    (h : q.Within q') (h' : q'.Within q) :
    (structural seconds clock).check n' q' = (structural seconds clock).check n q := by
  rw [check_structural (htime n'), check_structural (htime n), Query.isRefuted_eq h h']

/-- **Verdicts depend on what is said only.** An oracle with time to look never finds that a query
can be satisfied. Its verdict does not change with the order of constraints and of pairs, when pairs
are turned round, or when an even number of negations is put around conditions that are no constants.
And a query stays refuted when constraints and pairs are added, wherever that is. None of this
depends on how many queries were asked before. -/
theorem structural_verdicts (htime : ∀ n i, clock n i < seconds) (q : Query) (n n' : Nat) :
    let oracle := structural seconds clock
    (∃ verdict, oracle.check n q = .ok verdict ∧ verdict ≠ .sat) ∧
    (∀ q' : Query, q'.constraints.Perm q.constraints → q'.distinct.Perm q.distinct →
      oracle.check n' q' = oracle.check n q) ∧
    (∀ pairs, List.Forall₂ (fun pair pair' => pair' = pair ∨ pair' = pair.swap) q.distinct pairs →
      oracle.check n' ⟨q.constraints, pairs⟩ = oracle.check n q) ∧
    (∀ cs, List.Forall₂ Constraint.EvenlyNegated q.constraints cs →
      oracle.check n' ⟨cs, q.distinct⟩ = oracle.check n q) ∧
    ∀ q' : Query, q.constraints ⊆ q'.constraints → q.distinct ⊆ q'.distinct →
      oracle.check n q = .ok .unsat → oracle.check n' q' = .ok .unsat := by
  refine ⟨?_, ?_, ?_, ?_, ?_⟩
  · refine ⟨_, check_structural (htime n) q, ?_⟩
    split <;> decide
  · intro q' hc hd
    exact check_eq_of_within htime n n' (Query.within_of_subset hc.symm.subset hd.symm.subset)
      (Query.within_of_subset hc.subset hd.subset)
  · intro pairs hpairs
    have hkept : ∀ c ∈ q.constraints, ∃ d ∈ q.constraints, c.SaysSame d :=
      fun c hc => ⟨c, hc, .refl c⟩
    refine check_eq_of_within htime n n' ⟨hkept, fun pair hpair => ?_⟩
      ⟨hkept, fun pair hpair => ?_⟩
    · obtain ⟨pair', hpair', rfl | rfl⟩ := exists_of_forall₂ hpairs hpair
      · exact .inl hpair'
      · exact .inr hpair'
    · obtain ⟨pair', hpair', rfl | rfl⟩ := exists_of_forall₂ hpairs.flip hpair
      · exact .inl hpair'
      · exact .inr (by rwa [Prod.swap_swap])
  · intro cs hcs
    refine check_eq_of_within htime n n' ⟨fun c hc => ?_, fun _ => .inl⟩
      ⟨fun d hd => ?_, fun _ => .inl⟩
    · obtain ⟨d, hd, hnegated⟩ := exists_of_forall₂ hcs hc
      exact ⟨d, hd, hnegated.saysSame⟩
    · obtain ⟨c, hc, hnegated⟩ := exists_of_forall₂ hcs.flip hd
      exact ⟨c, hc, (Constraint.EvenlyNegated.saysSame hnegated).symm⟩
  · intro q' hc hd hq
    rw [check_structural (htime n'),
      (Query.within_of_subset hc hd).isRefuted (isRefuted_of_check_unsat hq)]
    rfl

/-- A clock that shows one second more at each look, up to nine. -/
def slowClock (_ look : Nat) : Nat := min look 9

/-- The caller is asserted to be zero and not to be zero. The query is refuted in the other order,
with two more negations, and with a pair that says nothing. -/
theorem structural_verdicts_bothWays :
    (∀ n i, slowClock n i < 10) ∧
      (structural 10 slowClock).check 1
        ⟨[⟨.unary .isZero (.env .caller), true⟩, ⟨.env .caller, true⟩], []⟩ = .ok .unsat ∧
      (structural 10 slowClock).check 1
        ⟨[⟨.unary .isZero (.unary .isZero (.env .caller)), true⟩,
          ⟨.unary .isZero (.env .caller), true⟩], []⟩ = .ok .unsat ∧
      (structural 10 slowClock).check 1
        ⟨[⟨.env .caller, true⟩, ⟨.unary .isZero (.env .caller), true⟩],
          [(.env .caller, .const 5)]⟩ = .ok .unsat := by
  have htime : ∀ n i, slowClock n i < 10 := fun _ i =>
    Nat.lt_of_le_of_lt (Nat.min_le_right i 9) (by decide)
  have hunsat : (structural 10 slowClock).check 0
      ⟨[⟨.env .caller, true⟩, ⟨.unary .isZero (.env .caller), true⟩], []⟩ = .ok .unsat := by
    decide +kernel
  obtain ⟨-, hperm, -, hnegated, hmore⟩ := structural_verdicts htime
    ⟨[⟨.env .caller, true⟩, ⟨.unary .isZero (.env .caller), true⟩], []⟩ 0 1
  refine ⟨htime, ?_, ?_, ?_⟩
  · exact (hperm ⟨_, []⟩ (.swap _ _ _) (.refl _)).trans hunsat
  · exact (hnegated _ (.cons (.inr ⟨rfl, 1, rfl⟩) (.cons (.inl rfl) .nil))).trans hunsat
  · exact hmore ⟨_, _⟩ (List.Subset.refl _) (List.nil_subset _) hunsat

end Oracle

end GuardFinder

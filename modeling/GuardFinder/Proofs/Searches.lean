import GuardFinder.Oracle
import Mathlib.Tactic.Common

/-!
# Searches through queries

The structural oracle goes through the constraints of a query and then through its pairs of words,
with a look at the clock before each of them. Whether a query is refuted by equality of terms does
not depend on time. A search finds that out, or it ends at a look that comes too late.

* `Query.isRefuted`: the query is refuted by equality of terms alone.
* `Oracle.search_eq`: **a search finds this out, unless its time is over before**.
-/

namespace GuardFinder

namespace Query

/-- Whether a constraint of the list is absurd or contradicts a later one. -/
def refutesConstraints : List Constraint → Bool
  | [] => false
  | c :: rest => c.isAbsurd || rest.any c.contradicts || refutesConstraints rest

/-- Whether the query is refuted by equality of terms alone. -/
def isRefuted (q : Query) : Bool :=
  refutesConstraints q.constraints || q.distinct.any (refutesDistinct q.constraints)

end Query

namespace Oracle

section

variable (seconds : Nat) (clock : Nat → Nat)

theorem searchConstraints_eq (looks : Nat) (cs : List Constraint) :
    searchConstraints seconds clock looks cs = .ok (Query.refutesConstraints cs) ∨
      searchConstraints seconds clock looks cs = .error (.timeout seconds) ∧
        ∃ i < looks + cs.length, seconds ≤ clock i := by
  induction cs generalizing looks with
  | nil => exact .inl rfl
  | cons c rest ih =>
    rw [searchConstraints, Query.refutesConstraints, List.length_cons]
    by_cases hlate : seconds ≤ clock looks
    · rw [if_pos hlate]
      exact .inr ⟨rfl, looks, by omega, hlate⟩
    · rw [if_neg hlate]
      by_cases hc : (c.isAbsurd || rest.any c.contradicts) = true
      · rw [if_pos hc, hc]
        exact .inl rfl
      · rw [if_neg hc, Bool.eq_false_iff.mpr hc, Bool.false_or]
        refine (ih (looks + 1)).imp_right ?_
        rintro ⟨herror, i, hi, hlate⟩
        exact ⟨herror, i, by omega, hlate⟩

theorem searchDistinct_eq (constraints : List Constraint) (looks : Nat)
    (pairs : List (Term × Term)) :
    searchDistinct seconds clock constraints looks pairs =
        .ok (pairs.any (Query.refutesDistinct constraints)) ∨
      searchDistinct seconds clock constraints looks pairs = .error (.timeout seconds) ∧
        ∃ i < looks + pairs.length, seconds ≤ clock i := by
  induction pairs generalizing looks with
  | nil => exact .inl rfl
  | cons pair rest ih =>
    rw [searchDistinct, List.any_cons, List.length_cons]
    by_cases hlate : seconds ≤ clock looks
    · rw [if_pos hlate]
      exact .inr ⟨rfl, looks, by omega, hlate⟩
    · rw [if_neg hlate]
      by_cases hpair : Query.refutesDistinct constraints pair = true
      · rw [if_pos hpair, hpair]
        exact .inl rfl
      · rw [if_neg hpair, Bool.eq_false_iff.mpr hpair, Bool.false_or]
        refine (ih (looks + 1)).imp_right ?_
        rintro ⟨herror, i, hi, hlate⟩
        exact ⟨herror, i, by omega, hlate⟩

/-- **A search finds out whether a query is refuted**, or it gives up at one of its looks. -/
theorem search_eq (q : Query) :
    search seconds clock q = .ok (if q.isRefuted then .unsat else .unknown) ∨
      search seconds clock q = .error (.timeout seconds) ∧
        ∃ i < q.constraints.length + q.distinct.length, seconds ≤ clock i := by
  unfold search
  rcases searchConstraints_eq seconds clock 0 q.constraints with hcs | ⟨hcs, i, hi, hlate⟩
  · rw [hcs]
    cases hrefuted : Query.refutesConstraints q.constraints with
    | true => exact .inl (by rw [Query.isRefuted, hrefuted]; rfl)
    | false =>
      rcases searchDistinct_eq seconds clock q.constraints q.constraints.length q.distinct with
        hpairs | ⟨hpairs, hlate⟩
      · left
        rw [Query.isRefuted, hrefuted, Bool.false_or]
        simp only [bind, Except.bind, hpairs, Bool.false_eq_true, if_false]
        cases q.distinct.any (Query.refutesDistinct q.constraints) <;> rfl
      · right
        simp only [bind, Except.bind, hpairs, Bool.false_eq_true, if_false, true_and]
        exact hlate
  · right
    rw [hcs]
    exact ⟨rfl, i, by omega, hlate⟩

end

variable {seconds n : Nat} {clock : Nat → Nat → Nat} {q : Query}

/-- Only a refuted query is found to be unsatisfiable, whatever the clock shows. -/
theorem isRefuted_of_check_unsat (h : (structural seconds clock).check n q = .ok .unsat) :
    q.isRefuted = true := by
  by_contra hopen
  rcases search_eq seconds (clock n) q with hsearch | ⟨hsearch, -⟩
  · rw [if_neg hopen] at hsearch
    cases hsearch.symm.trans h
  · cases hsearch.symm.trans h

/-- An oracle with time to look refutes a query or leaves it open. -/
theorem check_structural (htime : ∀ i, clock n i < seconds) (q : Query) :
    (structural seconds clock).check n q = .ok (if q.isRefuted then .unsat else .unknown) := by
  rcases search_eq seconds (clock n) q with hsearch | ⟨-, i, -, hlate⟩
  · exact hsearch
  · exact absurd hlate (Nat.not_le.mpr (htime i))

end Oracle

end GuardFinder

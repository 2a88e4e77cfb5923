import GuardFinder.Detect.SingleOwner
import GuardFinder.Proofs.Searches
import GuardFinder.Proofs.Valuation

/-!
# Refutations are sound

The structural oracle refutes a query by equality of terms alone. A reading gives every term a word
and is bound to nothing but this: a constant is its value, `ISZERO` tells whether a word is zero,
and `EQ` whether two words are equal. A query that the oracle refutes has no model among the
readings.

* `Reading.agrees_core`: a constraint and its core, without the negations, say the same.
* `Reading.not_isModel_of_isRefuted`: the ways to a refutation, joined.
* `structural_refutation_sound`: **no reading is a model of a refuted query**.
-/

namespace GuardFinder

/-- Words for all terms, with constants, negations and equalities read as they should be. -/
structure Reading where
  value : Term → Word
  value_const (v : Word) : value (.const v) = v
  value_isZero (a : Term) : value (.unary .isZero a) = if value a = 0 then 1 else 0
  value_eq (a b : Term) : value (.binary .eq a b) = if value a = value b then 1 else 0

/-- A valuation reads terms. -/
def Valuation.reading (ρ : Valuation) : Reading where
  value := Term.eval ρ
  value_const v := Term.eval_const ρ v
  value_isZero a := by
    have hunary : Evm.unary? .isZero (a.eval ρ) = some (Evm.flag ((a.eval ρ).toNat = 0)) := rfl
    rw [Term.eval, hunary]
    simp only [Option.getD_some, Evm.flag, Word.eq_zero_iff]
  value_eq a b := by
    rw [Term.eval]
    show Evm.flag _ = _
    simp only [Evm.flag, BitVec.toNat_eq]

namespace Reading

/-- A reading agrees with a constraint: the condition differs from zero just if it should. -/
def Agrees (r : Reading) (c : Constraint) : Prop := r.value c.condition ≠ 0 ↔ c.holds = true

/-- A reading under which all constraints of a query hold and the words of each pair differ. -/
def IsModel (r : Reading) (q : Query) : Prop :=
  (∀ c ∈ q.constraints, r.Agrees c) ∧ ∀ pair ∈ q.distinct, r.value pair.1 ≠ r.value pair.2

variable {r : Reading}

/-! ### Negations -/

theorem isZero_ne_zero_iff (r : Reading) (a : Term) :
    r.value (.unary .isZero a) ≠ 0 ↔ r.value a = 0 := by
  rw [r.value_isZero]
  split <;> simp_all

/-- A negation turns a constraint around. -/
theorem agrees_isZero (r : Reading) (a : Term) (holds : Bool) :
    r.Agrees ⟨.unary .isZero a, holds⟩ ↔ r.Agrees ⟨a, !holds⟩ := by
  unfold Agrees
  rw [isZero_ne_zero_iff]
  cases holds <;> simp

theorem agrees_stripNegations (r : Reading) (condition : Term) (holds : Bool) :
    r.Agrees (Constraint.stripNegations condition holds) ↔ r.Agrees ⟨condition, holds⟩ := by
  fun_induction Constraint.stripNegations condition holds with
  | case1 holds inner ih => rw [ih, agrees_isZero]
  | case2 => rfl
  | case3 => rfl

/-- **A constraint and its core say the same**, however many negations the condition has. -/
theorem agrees_core (r : Reading) (c : Constraint) : r.Agrees c.core ↔ r.Agrees c :=
  r.agrees_stripNegations c.condition c.holds

/-! ### The ways to a refutation -/

theorem not_agrees_of_isAbsurd {c : Constraint} (h : c.isAbsurd = true) : ¬r.Agrees c := by
  unfold Constraint.isAbsurd at h
  split at h
  · next v hv =>
    unfold Agrees
    rw [Term.eq_const_of_const? hv, r.value_const]
    by_cases hz : v = 0 <;> simp_all
  · exact absurd h (by decide)

theorem not_agrees_of_contradicts {c d : Constraint} (h : c.contradicts d = true)
    (hc : r.Agrees c) : ¬r.Agrees d := by
  simp only [Constraint.contradicts, Bool.and_eq_true, decide_eq_true_eq, bne_iff_ne] at h
  obtain ⟨hcondition, hholds⟩ := h
  intro hd
  rw [← agrees_core, Agrees] at hc hd
  rw [hcondition, hd] at hc
  exact hholds (Bool.eq_iff_iff.mpr hc.symm)

theorem value_eq_of_asserts {c : Constraint} {a b : Term} (h : c.asserts a b = true)
    (hc : r.Agrees c) : r.value a = r.value b := by
  rw [← agrees_core] at hc
  unfold Constraint.asserts at h
  split at h
  · next op x y hcore =>
    simp only [Bool.and_eq_true, Bool.or_eq_true, decide_eq_true_eq] at h
    obtain ⟨rfl, hxy⟩ := h
    have hequal : r.value x = r.value y := by
      rw [hcore, Agrees, r.value_eq] at hc
      by_cases hxy : r.value x = r.value y
      · exact hxy
      · simp [hxy] at hc
    rcases hxy with ⟨rfl, rfl⟩ | ⟨rfl, rfl⟩
    · exact hequal
    · exact hequal.symm
  · exact absurd h (by decide)

theorem not_agrees_of_refutesConstraints {cs : List Constraint}
    (h : Query.refutesConstraints cs = true) : ¬∀ c ∈ cs, r.Agrees c := by
  induction cs with
  | nil => exact absurd h (by decide)
  | cons c rest ih =>
    intro hall
    have hc := hall c List.mem_cons_self
    have hrest : ∀ d ∈ rest, r.Agrees d := fun d hd => hall d (List.mem_cons_of_mem c hd)
    simp only [Query.refutesConstraints, Bool.or_eq_true, List.any_eq_true] at h
    rcases h with (habsurd | ⟨d, hd, hcd⟩) | hlater
    · exact not_agrees_of_isAbsurd habsurd hc
    · exact not_agrees_of_contradicts hcd hc (hrest d hd)
    · exact ih hlater hrest

theorem value_eq_of_refutesDistinct {cs : List Constraint} {pair : Term × Term}
    (h : Query.refutesDistinct cs pair = true) (hall : ∀ c ∈ cs, r.Agrees c) :
    r.value pair.1 = r.value pair.2 := by
  simp only [Query.refutesDistinct, Bool.or_eq_true, decide_eq_true_eq, List.any_eq_true] at h
  rcases h with hsame | ⟨c, hc, hasserts⟩
  · rw [hsame]
  · exact value_eq_of_asserts hasserts (hall c hc)

/-- A query that is refuted by equality of terms has no model. -/
theorem not_isModel_of_isRefuted {q : Query} (h : q.isRefuted = true) : ¬r.IsModel q := by
  rintro ⟨hconstraints, hdistinct⟩
  simp only [Query.isRefuted, Bool.or_eq_true, List.any_eq_true] at h
  rcases h with hc | ⟨pair, hpair, hd⟩
  · exact not_agrees_of_refutesConstraints hc hconstraints
  · exact hdistinct pair hpair (value_eq_of_refutesDistinct hd hconstraints)

end Reading

/-! ### The oracle -/

/-- Asking an oracle counts the query, and tells when no verdict was given. -/
theorem SingleOwner.refutes_run (oracle : Oracle) (q : Query) (ledger : Ledger) :
    refutes oracle q ledger =
      match oracle.check ledger.asked q with
      | .ok verdict => .ok (decide (verdict = .unsat)) { ledger with asked := ledger.asked + 1 }
      | .error e =>
        .ok false (Ledger.say { ledger with asked := ledger.asked + 1 } (.oracleGaveUp e)) := by
  show (match oracle.check ledger.asked q with
    | .ok verdict => (pure (decide (verdict = Verdict.unsat)) : Watch Bool)
    | .error e => do
      Watch.say (.oracleGaveUp e)
      return false) { ledger with asked := ledger.asked + 1 } = _
  cases oracle.check ledger.asked q <;> rfl

/-- An oracle refutes a query only by the verdict that it cannot be satisfied: giving up and other
verdicts refute nothing. -/
theorem check_unsat_of_refutes {oracle : Oracle} {q : Query} {ledger ledger' : Ledger}
    (h : SingleOwner.refutes oracle q ledger = .ok true ledger') :
    oracle.check ledger.asked q = .ok .unsat := by
  rw [SingleOwner.refutes_run] at h
  cases hv : oracle.check ledger.asked q with
  | ok verdict =>
    rw [hv] at h
    injection h with hverdict
    rw [of_decide_eq_true hverdict]
  | error e =>
    rw [hv] at h
    injection h with hfalse
    exact absurd hfalse (by decide)

/-- **No reading is a model of a refuted query**: whether the structural oracle gives the verdict
itself or a detector takes it for a proof, no words for the terms make all constraints hold and all
pairs differ, whatever the clock shows. -/
theorem structural_refutation_sound (seconds : Nat) (clock : Nat → Nat → Nat) (q : Query)
    (h : (∃ n, (Oracle.structural seconds clock).check n q = .ok .unsat) ∨
      ∃ ledger ledger' : Ledger,
        SingleOwner.refutes (Oracle.structural seconds clock) q ledger = .ok true ledger')
    (r : Reading) : ¬r.IsModel q := by
  have hcheck : ∃ n, (Oracle.structural seconds clock).check n q = .ok .unsat := by
    rcases h with hcheck | ⟨ledger, ledger', hrefutes⟩
    · exact hcheck
    · exact ⟨_, check_unsat_of_refutes hrefutes⟩
  obtain ⟨n, hcheck⟩ := hcheck
  exact Reading.not_isModel_of_isRefuted (Oracle.isRefuted_of_check_unsat hcheck)

/-- A caller who equals slot zero, asserted under two negations, is not distinct from it; here both
are read as seven. -/
theorem structural_refutation_of_owner :
    SingleOwner.refutes (Oracle.structural 10)
        ⟨[⟨.unary .isZero
              (.unary .isZero (.binary .eq (.storage (.const 0)) (.env .caller))), true⟩],
          [(.env .caller, .storage (.const 0))]⟩ {} = .ok true { asked := 1 } ∧
      ¬(Valuation.reading ⟨fun _ => 7, fun _ => 0, fun _ => 7, fun _ _ => 0, fun _ => 0,
          fun _ _ => 0⟩).IsModel
        ⟨[⟨.unary .isZero
              (.unary .isZero (.binary .eq (.storage (.const 0)) (.env .caller))), true⟩],
          [(.env .caller, .storage (.const 0))]⟩ := by
  have hrefutes : SingleOwner.refutes (Oracle.structural 10)
      ⟨[⟨.unary .isZero (.unary .isZero (.binary .eq (.storage (.const 0)) (.env .caller))), true⟩],
        [(.env .caller, .storage (.const 0))]⟩ {} = .ok true { asked := 1 } := by
    rfl
  exact ⟨hrefutes, structural_refutation_sound 10 _ _ (.inr ⟨{}, _, hrefutes⟩) _⟩

end GuardFinder

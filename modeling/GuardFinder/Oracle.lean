import GuardFinder.Term

/-!
# Constraint oracles

An oracle is asked whether constraints and inequalities can hold together. The structural oracle
knows only that equal terms have equal values: it refutes a query that asserts a constant or another
condition both ways, or that two terms differ which are the same or are asserted to be equal.
Everything else it leaves open.

It looks at its clock before every constraint and every inequality, and gives up when the time for
the query is over.
-/

namespace GuardFinder

/-- Constraints of a path and pairs of words that are asserted to differ. -/
structure Query where
  constraints : List Constraint
  distinct : List (Term × Term)

/-- What an oracle found out. -/
inductive Verdict
  | unsat
  | sat
  | unknown
  deriving DecidableEq, Repr

/-- Why an oracle gave no verdict. -/
inductive OracleError
  /-- The time for a query, in seconds, was over. -/
  | timeout (seconds : Nat)
  /-- The oracle failed. -/
  | failure (reason : String)
  deriving DecidableEq, Repr

/-- A time span in seconds as text. -/
def secondsText (seconds : Nat) : String :=
  if seconds = 0 then "0ns" else toString seconds ++ "s"

/-- The error in words. -/
def OracleError.message : OracleError → String
  | .timeout seconds => "solver timed out after " ++ secondsText seconds
  | .failure reason => "solver failure: " ++ reason

/-- Something that judges queries, which are numbered in the order in which it is asked. -/
structure Oracle where
  check : Nat → Query → Except OracleError Verdict

namespace Constraint

/-- Takes the negations off a condition, each of which turns the constraint around. -/
def stripNegations (condition : Term) (holds : Bool) : Constraint :=
  match condition with
  | .unary op inner =>
    if op = .isZero then stripNegations inner (!holds) else ⟨condition, holds⟩
  | _ => ⟨condition, holds⟩

/-- The constraint without negations around its condition. -/
def core (c : Constraint) : Constraint := stripNegations c.condition c.holds

/-- Whether a constraint says the opposite of a constant's value. -/
def isAbsurd (c : Constraint) : Bool :=
  match c.condition.const? with
  | some v => decide (v = 0) == c.holds
  | none => false

/-- Whether two constraints assert one condition both ways. -/
def contradicts (c d : Constraint) : Bool :=
  c.core.condition = d.core.condition && c.core.holds != d.core.holds

/-- Whether a constraint asserts that two words are equal. -/
def asserts (c : Constraint) (a b : Term) : Bool :=
  match c.core with
  | ⟨.binary op x y, true⟩ => op = .eq && ((x = a && y = b) || (x = b && y = a))
  | _ => false

end Constraint

/-- Whether constraints force two words to be equal. -/
def Query.refutesDistinct (constraints : List Constraint) (pair : Term × Term) : Bool :=
  pair.1 = pair.2 || constraints.any (·.asserts pair.1 pair.2)

namespace Oracle

section

variable (seconds : Nat) (clock : Nat → Nat)

/-- Whether a constraint of the list is absurd or contradicts a later one. The first of them is
looked at when the clock has been looked at `looks` times. -/
def searchConstraints (looks : Nat) : List Constraint → Except OracleError Bool
  | [] => .ok false
  | c :: rest =>
    if seconds ≤ clock looks then .error (.timeout seconds)
    else if c.isAbsurd || rest.any c.contradicts then .ok true
    else searchConstraints (looks + 1) rest

/-- Whether two words of the list that are asserted to differ have to be equal. -/
def searchDistinct (constraints : List Constraint) (looks : Nat) :
    List (Term × Term) → Except OracleError Bool
  | [] => .ok false
  | pair :: rest =>
    if seconds ≤ clock looks then .error (.timeout seconds)
    else if Query.refutesDistinct constraints pair then .ok true
    else searchDistinct constraints (looks + 1) rest

/-- The verdict on a query by equality of terms alone. -/
def search (q : Query) : Except OracleError Verdict := do
  if ← searchConstraints seconds clock 0 q.constraints then return .unsat
  if ← searchDistinct seconds clock q.constraints q.constraints.length q.distinct then return .unsat
  return .unknown

end

/-- The oracle that looks at equality of terms only. The clock tells for each query and each look
how many seconds have passed since it was asked. -/
def structural (seconds : Nat) (clock : Nat → Nat → Nat := fun _ _ => 0) : Oracle where
  check n q := search seconds (clock n) q

end Oracle

end GuardFinder

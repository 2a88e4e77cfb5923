import GuardFinder.Proofs.Arithmetic

/-!
# Valuations

A valuation fixes everything that a transaction can find outside of the code, and so gives every
term a word. Operations have the meaning that the machine gives them, bytes in a row spell a number
with the most significant byte first; hashes, questions about the world and results that are not
followed are free.

* `Term.eval`: the word of a term.
* `Valuation.Satisfies`: the constraints that a valuation agrees with.
* `Term.applyUnary_eq_or`, `Term.applyBinary_eq_or`: an operation is kept, or carried out.
* `Term.eval_applyUnary`, `Term.eval_applyBinary`: folding constants keeps the word of a term.
-/

namespace GuardFinder

/-- What a transaction finds outside of the code. -/
structure Valuation where
  /-- The value that an opcode reads from the transaction or the block. -/
  env : Opcode → Word
  /-- The word of the call data at an offset. -/
  callData : Word → Word
  /-- What storage holds when the transaction starts. -/
  storage : Word → Word
  /-- The answer to a question about a word, such as the balance of an account. -/
  query : Opcode → Word → Word
  /-- The hash of words in a row. -/
  hash : List Word → Word
  /-- The result number `id` of an instruction that is not followed. -/
  havoc : Opcode → Nat → Word

/-- The number that bytes in a row spell, the first being the most significant. -/
def bigEndian (bytes : List Word) : Nat := bytes.foldl (fun n b => 256 * n + b.toNat) 0

namespace Term

mutual

/-- The word of a term under a valuation. -/
def eval (ρ : Valuation) : Term → Word
  | .const v => v
  | .env op => ρ.env op
  | .callData offset => ρ.callData (eval ρ offset)
  | .storage slot => ρ.storage (eval ρ slot)
  | .unary op a => (Evm.unary? op (eval ρ a)).getD (ρ.query op (eval ρ a))
  | .binary op a b => Evm.binary op (eval ρ a) (eval ρ b)
  | .keccak words => ρ.hash (evals ρ words)
  | .concat bytes => BitVec.ofNat 256 (bigEndian (evals ρ bytes))
  | .havoc origin id => ρ.havoc origin id

/-- The words of several terms. -/
def evals (ρ : Valuation) : List Term → List Word
  | [] => []
  | t :: ts => eval ρ t :: evals ρ ts

end

theorem evals_eq_map (ρ : Valuation) (ts : List Term) : evals ρ ts = ts.map (eval ρ) := by
  induction ts with
  | nil => rfl
  | cons t ts ih => rw [evals, ih, List.map_cons]

@[simp] theorem eval_const (ρ : Valuation) (v : Word) : (const v).eval ρ = v := by
  rw [eval]

theorem eq_const_of_const? {t : Term} {v : Word} (h : t.const? = some v) : t = .const v := by
  cases t <;> simp_all [const?]

theorem eval_of_const? {t : Term} {v : Word} (h : t.const? = some v) (ρ : Valuation) :
    t.eval ρ = v := by
  rw [eq_const_of_const? h, eval_const]

/-- An operation on one word is kept, or carried out on a constant as the machine does it. -/
theorem applyUnary_eq_or (op : Opcode) (a : Term) :
    applyUnary op a = .unary op a ∨
      ∃ x v, a = .const x ∧ Evm.unary? op x = some v ∧ applyUnary op a = .const v := by
  unfold applyUnary
  split
  · next v h =>
    obtain ⟨x, hx, hfold⟩ := Option.bind_eq_some_iff.mp h
    rw [foldUnary?_eq] at hfold
    exact .inr ⟨x, v, eq_const_of_const? hx, hfold, rfl⟩
  · exact .inl rfl

/-- An operation on two words is kept, or carried out on constants as the machine does it. -/
theorem applyBinary_eq_or (op : Opcode) (a b : Term) :
    applyBinary op a b = .binary op a b ∨
      ∃ x y, a = .const x ∧ b = .const y ∧ applyBinary op a b = .const (Evm.binary op x y) := by
  unfold applyBinary
  split
  · next x y hx hy =>
    split
    · next v hv =>
      rw [foldBinary?_eq hv]
      exact .inr ⟨x, y, eq_const_of_const? hx, eq_const_of_const? hy, rfl⟩
    · exact .inl rfl
  · exact .inl rfl

/-- **Folding an operation on one word keeps its meaning.** -/
theorem eval_applyUnary (ρ : Valuation) (op : Opcode) (a : Term) :
    (applyUnary op a).eval ρ = (Evm.unary? op (a.eval ρ)).getD (ρ.query op (a.eval ρ)) := by
  rcases applyUnary_eq_or op a with hkept | ⟨x, v, rfl, hv, hfolded⟩
  · rw [hkept, eval]
  · rw [hfolded, eval_const, eval_const, hv, Option.getD_some]

/-- **Folding an operation on two words keeps its meaning.** -/
theorem eval_applyBinary (ρ : Valuation) (op : Opcode) (a b : Term) :
    (applyBinary op a b).eval ρ = Evm.binary op (a.eval ρ) (b.eval ρ) := by
  rcases applyBinary_eq_or op a b with hkept | ⟨x, y, rfl, rfl, hfolded⟩
  · rw [hkept, eval]
  · rw [hfolded, eval_const, eval_const, eval_const]

end Term

/-- A valuation agrees with a constraint: the condition differs from zero just if it should. -/
def Constraint.HoldsUnder (ρ : Valuation) (c : Constraint) : Prop :=
  c.condition.eval ρ ≠ 0 ↔ c.holds = true

instance (ρ : Valuation) (c : Constraint) : Decidable (c.HoldsUnder ρ) :=
  inferInstanceAs (Decidable (_ ↔ _))

/-- A valuation agrees with all constraints of a list. -/
def Valuation.Satisfies (ρ : Valuation) (cs : List Constraint) : Prop :=
  ∀ c ∈ cs, c.HoldsUnder ρ

instance (ρ : Valuation) (cs : List Constraint) : Decidable (ρ.Satisfies cs) :=
  inferInstanceAs (Decidable (∀ c ∈ cs, c.HoldsUnder ρ))

theorem Valuation.satisfies_append {ρ : Valuation} {cs ds : List Constraint} :
    ρ.Satisfies (cs ++ ds) ↔ ρ.Satisfies cs ∧ ρ.Satisfies ds := by
  simp only [Satisfies, List.mem_append, or_imp, forall_and]

theorem Valuation.satisfies_singleton {ρ : Valuation} {c : Constraint} :
    ρ.Satisfies [c] ↔ c.HoldsUnder ρ := by
  simp only [Satisfies, List.mem_singleton, forall_eq]

end GuardFinder

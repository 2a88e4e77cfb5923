import GuardFinder.Proofs.Forest
import GuardFinder.Proofs.Moments

/-!
# The transactions of an exploration

An exploration consists of one transaction, or of two when creation code has returned code. Each
starts with the state space, the supply and the observer that the one before it has left.

* `Opening`: how a transaction starts. `Explorer.run`: the transaction that starts so.
* `Explorer.openings`: the openings of an exploration, in their order.
* `Explorer.openings_rule`: **what one transaction makes of a forest and of the observer, all
  transactions make of them together**.
-/

namespace GuardFinder

/-- How a transaction starts. -/
structure Opening (σ : Type) where
  code : Bytes
  entry : String
  space : StateSpace
  supply : Supply
  watch : σ × Ledger

namespace Opening

variable {σ : Type}

/-- The node that the transaction starts at. -/
def root (o : Opening σ) : Nat := o.space.nodes.size

/-- The first moment of the transaction. -/
def start (o : Opening σ) : Moment σ := .start o.entry o.space o.supply o.watch

end Opening

namespace Explorer

variable {σ : Type}

/-- The transaction with the given opening. -/
def run (x : Explorer) (observer : Observer σ) (o : Opening σ) : RunEnd σ :=
  transaction (x.setting observer o.code) o.entry o.space o.supply o.watch

/-- The opening of the first transaction. Taints start afresh. -/
def opening (x : Explorer) (target : Target) (watch : σ × Ledger) : Opening σ where
  code := target.code
  entry := match target with
    | .deployed .. => fallbackName
    | .creation _ => constructorName
  space := {}
  supply := { havocs := x.havocs }
  watch := (watch.1, { watch.2 with taints := ∅ })

/-- The opening of the transaction after the first one: the code that creation code has returned is
run next. -/
def sequel? (target : Target) (e : RunEnd σ) : Option (Opening σ) :=
  match target, e.failure, e.progress.returned with
  | .creation _, none, some (byte :: rest) =>
    some ⟨byte :: rest, fallbackName, e.progress.space, e.progress.supply, e.watch⟩
  | _, _, _ => none

/-- The openings of the transactions that an exploration consists of. -/
def openings (x : Explorer) (observer : Observer σ) (target : Target) (watch : σ × Ledger) :
    List (Opening σ) :=
  let first := x.opening target watch
  first :: (sequel? target (x.run observer first)).toList

/-- What advances make of a state space, a transaction makes of it, also if the time cuts it short. -/
theorem run_rule (x : Explorer) (observer : Observer σ) (o : Opening σ) {J : StateSpace → Prop}
    (hreach : ∀ g, Progress.Reaches (.ofCode o.code) x.limits (.begin o.entry o.space o.supply) g →
      J g.space)
    (hcut : ∀ s, J s → J { s with complete := false }) :
    J (x.run observer o).progress.space := by
  obtain ⟨g, hg, ⟨hend, -⟩ | hend⟩ := runPaths_reaches (x.setting observer o.code)
    (.begin o.entry o.space o.supply) o.watch
  · rw [show (x.run observer o).progress = g from hend]
    exact hreach g hg
  · rw [show (x.run observer o).progress = g.cutShort from hend]
    exact hcut _ (hreach g hg)

/-- A transaction that starts with a forest leaves one. -/
theorem run_planted (x : Explorer) (observer : Observer σ) {o : Opening σ} {roots : List Nat}
    {entries : List String} (h : o.space.Planted roots entries) :
    (x.run observer o).progress.space.Planted (roots ++ [o.root]) (entries ++ [o.entry]) :=
  x.run_rule observer o (J := fun s => s.Planted (roots ++ [o.root]) (entries ++ [o.entry]))
    (fun _ hreach => Progress.planted_of_reaches hreach h) fun _ hplanted => hplanted.cutShort

section

variable {x : Explorer} {observer : Observer σ} {target : Target} {watch : σ × Ledger}

/-- A sequel starts with what the transaction before it has left. -/
theorem eq_of_sequel? {e : RunEnd σ} {o : Opening σ} (h : sequel? target e = some o) :
    o.space = e.progress.space ∧ o.watch = e.watch := by
  unfold sequel? at h
  split at h
  · cases h
    exact ⟨rfl, rfl⟩
  · cases h

/-- The transaction that an exploration ends with: the sequel of the first one, if it has one. -/
def closing (x : Explorer) (observer : Observer σ) (target : Target) (watch : σ × Ledger) :
    Opening σ :=
  (sequel? target (x.run observer (x.opening target watch))).getD (x.opening target watch)

/-- An exploration ends as its last transaction does, but for messages. -/
theorem explore_eq_closing (x : Explorer) (observer : Observer σ) (target : Target)
    (watch : σ × Ledger) :
    (x.explore observer target watch).result =
        (x.finish (x.run observer (x.closing observer target watch))).result ∧
      (x.explore observer target watch).watch.1 =
        (x.run observer (x.closing observer target watch)).watch.1 := by
  cases target with
  | deployed address code => exact ⟨rfl, rfl⟩
  | creation code =>
    have hrun : transaction (x.setting observer code) constructorName {} { havocs := x.havocs }
        (watch.1, { watch.2 with taints := ∅ }) =
          x.run observer (x.opening (.creation code) watch) := rfl
    unfold explore
    simp only [closing, hrun]
    cases hfailure : (x.run observer (x.opening (.creation code) watch)).failure with
    | some failure => simp [sequel?, hfailure, finish]
    | none =>
      rcases hreturned : (x.run observer (x.opening (.creation code) watch)).progress.returned with
        _ | _ | ⟨byte, rest⟩
      · simp [sequel?, hfailure, hreturned, finish]
      · simp [sequel?, hfailure, hreturned, finish]
      · simp only [sequel?, hfailure, hreturned, Option.getD_some]
        exact ⟨rfl, rfl⟩

/-- **What one transaction makes of a forest and of the observer, all transactions make of them
together.** -/
theorem openings_rule (x : Explorer) (observer : Observer σ) (target : Target) (watch : σ × Ledger)
    {I : List (Opening σ) → StateSpace → σ → Prop} (hempty : I [] {} watch.1)
    (hrun : ∀ os o roots entries, o.space.Planted roots entries → I os o.space o.watch.1 →
      I (os ++ [o]) (x.run observer o).progress.space (x.run observer o).watch.1) :
    I (x.openings observer target watch)
      (x.run observer (x.closing observer target watch)).progress.space
      (x.explore observer target watch).watch.1 := by
  have hfirst := hrun [] (x.opening target watch) [] [] .empty hempty
  rw [(x.explore_eq_closing observer target watch).2]
  simp only [openings, closing]
  cases hsequel : sequel? target (x.run observer (x.opening target watch)) with
  | none => exact hfirst
  | some o =>
    obtain ⟨hspace, hwatch⟩ := eq_of_sequel? hsequel
    have hplanted := x.run_planted observer (o := x.opening target watch) .empty
    exact hrun _ o _ _ (by rw [hspace]; exact hplanted) (by rw [hspace, hwatch]; exact hfirst)

/-- An exploration that does not fail returns the state space of its last transaction. -/
theorem eq_of_explore {space : StateSpace} (h : (x.explore observer target watch).result = .ok space) :
    (x.run observer (x.closing observer target watch)).progress.space = space := by
  rw [(x.explore_eq_closing observer target watch).1, finish] at h
  simp only at h
  split at h
  · cases h
  · exact Except.ok.inj h

end

end Explorer

end GuardFinder

import GuardFinder.Proofs.Relocation

/-!
# Numbers of results do not matter

Results of instructions that are not followed are numbered, and one exploration goes on where the
one before it stopped. An exploration that starts with other numbers goes the same way, with all its
numbers raised by the same amount. That is the renaming `Renaming.shift`.

* `Term.renumber`: raises the numbers in a term. What a state space has of terms is renumbered with
  it.
* `StateSpace.renumber_eq_behind`: **a renumbered state space is one that was relocated**, behind
  nothing.
* `lockstep_renumbered`: explorations that differ in their numbers run in lockstep.
-/

namespace GuardFinder

/-- All numbers of results are raised by `k`, and tags stay. -/
def Renaming.shift (k : Nat) : Renaming where
  tags := id
  ids := (· + k)
  tags_injective := Function.injective_id
  ids_injective _ _ h := Nat.add_right_cancel h

theorem Renaming.ids_shift (k : Nat) : (Renaming.shift k).ids = (· + k) := rfl

/-! ### Terms -/

namespace Term

mutual

/-- The term with all numbers of results raised by `k`. -/
def renumber (k : Nat) : Term → Term
  | .const v => .const v
  | .env op => .env op
  | .callData offset => .callData (renumber k offset)
  | .storage slot => .storage (renumber k slot)
  | .unary op a => .unary op (renumber k a)
  | .binary op a b => .binary op (renumber k a) (renumber k b)
  | .keccak words => .keccak (renumberAll k words)
  | .concat bytes => .concat (renumberAll k bytes)
  | .havoc origin id => .havoc origin (id + k)

/-- Several terms with all numbers of results raised by `k`. -/
def renumberAll (k : Nat) : List Term → List Term
  | [] => []
  | t :: ts => renumber k t :: renumberAll k ts

end

mutual

theorem renumber_eq_rename (k : Nat) : ∀ t : Term, t.renumber k = t.rename (.shift k)
  | .const _ | .env _ | .havoc _ _ => by simp only [renumber, rename, Renaming.shift]
  | .callData a | .storage a | .unary _ a => by
    simp only [renumber, rename, renumber_eq_rename k a]
  | .binary _ a b => by simp only [renumber, rename, renumber_eq_rename k a, renumber_eq_rename k b]
  | .keccak ts | .concat ts => by simp only [renumber, rename, renumberAll_eq_renameAll k ts]

theorem renumberAll_eq_renameAll (k : Nat) :
    ∀ ts : List Term, renumberAll k ts = renameAll (.shift k) ts
  | [] => by rw [renumberAll, renameAll]
  | t :: ts => by
    rw [renumberAll, renameAll, renumber_eq_rename k t, renumberAll_eq_renameAll k ts]

end

variable {k : Nat}

/-- A renaming that raises numbers of results does so whatever it makes of tags. -/
theorem renumber_eq_of_ids {ρ : Renaming} (hρ : ρ.ids = (· + k)) (t : Term) :
    t.renumber k = t.rename ρ := by
  rw [renumber_eq_rename]
  exact rename_congr hρ.symm t

@[simp] theorem renumber_inj {a b : Term} : a.renumber k = b.renumber k ↔ a = b := by
  rw [renumber_eq_rename, renumber_eq_rename, rename_inj]

@[simp] theorem const?_renumber (t : Term) : (t.renumber k).const? = t.const? := by
  rw [renumber_eq_rename, const?_rename]

end Term

/-! ### State spaces -/

/-- The value with all numbers of results raised by `k`. -/
def Value.renumber (k : Nat) (v : Value) : Value := ⟨v.word.renumber k, v.tag⟩

/-- The constraint with all numbers of results raised by `k`. -/
def Constraint.renumber (k : Nat) (c : Constraint) : Constraint := ⟨c.condition.renumber k, c.holds⟩

/-- The frame with all numbers of results raised by `k`. -/
def Frame.renumber (k : Nat) (f : Frame) : Frame := ⟨f.instruction, f.stack.map (Value.renumber k)⟩

/-- The node with all numbers of results raised by `k`. -/
def Node.renumber (k : Nat) (n : Node) : Node :=
  { n with
    frames := n.frames.map (Frame.renumber k)
    constraints := n.constraints.map (Constraint.renumber k) }

/-- The state space with all numbers of results raised by `k`. -/
def StateSpace.renumber (k : Nat) (s : StateSpace) : StateSpace :=
  { s with nodes := s.nodes.map (Node.renumber k) }

variable {k : Nat}

theorem Value.renumber_eq_rename (k : Nat) : Value.renumber k = Value.rename (.shift k) :=
  funext fun v => by rw [renumber, Term.renumber_eq_rename]; rfl

theorem Constraint.renumber_eq_of_ids {ρ : Renaming} (hρ : ρ.ids = (· + k)) :
    Constraint.renumber k = Constraint.rename ρ :=
  funext fun c => by rw [renumber, Term.renumber_eq_of_ids hρ, rename]

theorem Constraint.renumber_eq_rename (k : Nat) :
    Constraint.renumber k = Constraint.rename (.shift k) :=
  renumber_eq_of_ids (Renaming.ids_shift k)

theorem Frame.renumber_eq_rename (k : Nat) : Frame.renumber k = Frame.rename (.shift k) :=
  funext fun f => by rw [renumber, Value.renumber_eq_rename, rename]

/-- A renumbered state space is one that was relocated, behind nothing. -/
theorem StateSpace.renumber_eq_behind (k : Nat) (s : StateSpace) :
    s.renumber k = ({} : StateSpace).behind (.shift k) s := by
  have hnode : Node.renumber k = Node.relocate (.shift k) 0 := by
    funext n
    rw [Node.renumber, Frame.renumber_eq_rename, Constraint.renumber_eq_rename]
    rfl
  have hedge : Edge.shift 0 = id := rfl
  simp [renumber, behind, hnode, hedge]

/-! ### Explorations -/

/-- Signals that subscribers see no difference between. -/
inductive Signal.Alike : Signal → Signal → Prop
  | event {e e' : Event} (op : Opcode) (phase : e'.phase = e.phase) (sight : e'.sight = e.sight) :
      Alike (.event op e) (.event op e')
  | inherit (i : Inheritance) : Alike (.inherit i) (.inherit i)
  | message (m m' : Message) : Alike (.message m) (.message m')

theorem Signal.Renamed.alike {signal signal' : Signal} (h : signal.Renamed (.shift k) signal') :
    signal.Alike signal' := by
  have hitem : Item.rename (.shift k) = id := rfl
  have htags : (Renaming.shift k).tags = id := rfl
  cases h with
  | event op phase sight =>
    rw [Sight.rename, hitem, List.map_id, List.map_id] at sight
    exact .event op phase sight
  | inherit i =>
    rw [Inheritance.rename, htags, List.map_id]
    exact .inherit i
  | message m m' => exact .message m m'

theorem Setting.hear_eq {σ : Type} (x : Setting σ) (react : Reaction σ) {signal signal' : Signal}
    (h : signal.Alike signal') (s : σ × Taints) :
    x.hear react s signal' = x.hear react s signal := by
  cases h with
  | event op phase sight => rw [hear, hear, phase, sight]
  | inherit | message => rfl

theorem Renaming.raises_shift (k : Nat) (s t : Supply) : (Renaming.shift k).Raises 0 k s t :=
  ⟨fun _ _ _ => rfl, fun _ _ _ => rfl⟩

/-- An exploration that is another one with all numbers of results raised by `k`. -/
abbrev Progress.Renumbered (k : Nat) (g h : Progress) : Prop := g.Relocated {} (.shift k) 0 k h

theorem Progress.Renumbered.space_eq {g h : Progress} (hrel : g.Renumbered k h) :
    h.space = g.space.renumber k := by
  rw [hrel.space, StateSpace.renumber_eq_behind]

/-- **Explorations that differ in their numbers run in lockstep**, and whoever watches them comes to
the same state. -/
theorem lockstep_renumbered {σ : Type} (x : Setting σ) (react : Reaction σ) (k : Nat) :
    Lockstep x.limits (x.hear react) (x.hear react)
      fun g h a b => g.Renumbered k h ∧ b = a := by
  refine lockstep_relocated (Renaming.raises_shift k) ?_ x.limits {}
  rintro _ s signal signal' hsignal rfl
  exact x.hear_eq react hsignal.alike s

end GuardFinder

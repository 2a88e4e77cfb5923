import GuardFinder.Proofs.Relocation

/-!
# Detectors and tags

Detectors know values by their tags, and look at a tag only to see what taints it has. So they do
the same on paths whose values have other tags: they make the same changes to the taints of the
other tags, remember the same and find the same.

* `Taints.Renamed`: each tag has the taints that its other name has.
* `Strategy.edits_rename`, `Strategy.next_rename`, `Strategy.finding?_rename`: **strategies do not
  depend on tags**.
* `Registry.hear_renamed`: nor do detectors, whatever they are told.
-/

namespace GuardFinder

variable {ρ : Renaming} {τ τ' : Taints}

/-! ### Taints -/

/-- A change to the taints of a tag with another name. -/
def Edit.rename (ρ : Renaming) : Edit → Edit
  | .put tag a => .put (ρ.tags tag) a
  | .drop tag a => .drop (ρ.tags tag) a

namespace Taints

/-- Each tag has the taints that it has under its other name. -/
def Renamed (ρ : Renaming) (τ τ' : Taints) : Prop := ∀ tag, τ'.get (ρ.tags tag) = τ.get tag

namespace Renamed

variable (h : τ.Renamed ρ τ')
include h

theorem set (tag : Nat) (taints : TaintSet) :
    (τ.set tag taints).Renamed ρ (τ'.set (ρ.tags tag) taints) := by
  intro other
  rw [get_set, get_set, h other]
  simp only [ρ.tags_injective.eq_iff]

theorem edit (e : Edit) : (τ.edit e).Renamed ρ (τ'.edit (e.rename ρ)) := by
  cases e with
  | put tag a =>
    rw [Edit.rename, Taints.edit, Taints.edit, annotate, annotate, h tag]
    exact h.set tag _
  | drop tag a =>
    rw [Edit.rename, Taints.edit, Taints.edit, discard, discard, h tag]
    exact h.set tag _

/-- What is seen of a value has the taints that it has under its other name. -/
theorem item (i : Item) : τ'.get (i.rename ρ).tag = τ.get i.tag := h i.tag

theorem editAll (edits : List Edit) :
    (τ.editAll edits).Renamed ρ (τ'.editAll (edits.map (Edit.rename ρ))) := by
  induction edits generalizing τ τ' with
  | nil => exact h
  | cons e rest ih => exact ih (h.edit e)

theorem inherit (i : Inheritance) : (τ.inherit i).Renamed ρ (τ'.inherit (i.rename ρ)) := by
  have hunion : τ'.union (i.sources.map ρ.tags) = τ.union i.sources := by
    simp only [union, List.foldl_map, h _]
  rw [Inheritance.rename, Taints.inherit, Taints.inherit, hunion]
  exact h.set i.heir _

end Renamed

end Taints

/-! ### Strategies -/

section

variable (h : τ.Renamed ρ τ') (s : Sight)

theorem Item.exists_two_of_map {items items' : List Item} {a' b' : Item}
    (h : items.map (Item.rename ρ) = a' :: b' :: items') :
    ∃ a b rest, items = a :: b :: rest ∧ a' = a.rename ρ ∧ b' = b.rename ρ := by
  obtain ⟨a, rest, rfl, rfl, hrest⟩ := List.map_eq_cons_iff.mp h
  obtain ⟨b, rest, rfl, rfl, -⟩ := List.map_eq_cons_iff.mp hrest
  exact ⟨a, b, rest, rfl, rfl, rfl⟩

theorem Item.slotMarks_rename (result key : Item) :
    (result.rename ρ).slotMarks (key.rename ρ) = (result.slotMarks key).map (Edit.rename ρ) := by
  simp only [slotMarks, rename, List.map_map]
  rfl

namespace Ownership

include h

theorem comparisonMarks_rename (ceiling : Word) (a b : Nat) :
    comparisonMarks ceiling τ' (ρ.tags a) (ρ.tags b) =
      (comparisonMarks ceiling τ a b).map (Edit.rename ρ) := by
  unfold comparisonMarks
  rw [h a, h b]
  split
  · rfl
  · split <;> rfl

theorem edits_rename (ceiling : Word) :
    edits ceiling τ' (s.rename ρ) = (edits ceiling τ s).map (Edit.rename ρ) := by
  obtain ⟨phase, op, name, args, stack, word⟩ := s
  unfold edits Sight.rename
  simp only
  split
  · next hstack =>
    obtain ⟨result, rest, rfl, rfl, -⟩ := List.map_eq_cons_iff.mp hstack
    rfl
  · next hargs hstack =>
    obtain ⟨key, rest, rfl, rfl, -⟩ := List.map_eq_cons_iff.mp hargs
    obtain ⟨result, rest, rfl, rfl, -⟩ := List.map_eq_cons_iff.mp hstack
    exact result.slotMarks_rename key
  · next hargs =>
    obtain ⟨a, b, rest, rfl, rfl, rfl⟩ := Item.exists_two_of_map hargs
    exact comparisonMarks_rename h ceiling a.tag b.tag
  -- neither sight is one of the others
  · split <;> grind

end Ownership

include h in
theorem HashLock.edits_rename (maxLength : Nat) :
    edits maxLength τ' (s.rename ρ) = (edits maxLength τ s).map (Edit.rename ρ) := by
  obtain ⟨phase, op, name, args, stack, word⟩ := s
  unfold edits Sight.rename
  simp only
  split
  · next hstack =>
    obtain ⟨result, rest, rfl, rfl, -⟩ := List.map_eq_cons_iff.mp hstack
    rfl
  · next hargs hstack =>
    obtain ⟨offset, length, rest, rfl, rfl, rfl⟩ := Item.exists_two_of_map hargs
    obtain ⟨result, rest, rfl, rfl, -⟩ := List.map_eq_cons_iff.mp hstack
    have hsize : (length.rename ρ).size? = length.size? := rfl
    simp only [hsize, h.item result]
    split
    · split <;> rfl
    · rfl
  · next hargs hstack =>
    obtain ⟨key, rest, rfl, rfl, -⟩ := List.map_eq_cons_iff.mp hargs
    obtain ⟨result, rest, rfl, rfl, -⟩ := List.map_eq_cons_iff.mp hstack
    simp only [h.item key, result.slotMarks_rename key, List.map_append]
    split <;> rfl
  · next hstack =>
    obtain ⟨result, rest, rfl, rfl, -⟩ := List.map_eq_cons_iff.mp hstack
    simp only [h.item result]
    split <;> rfl
  · split <;> grind

namespace MultipleAuthorization

include h

theorem comparisonMarks_rename (ceiling : Word) (a b result : Nat) :
    comparisonMarks ceiling τ' (ρ.tags a) (ρ.tags b) (ρ.tags result) =
      (comparisonMarks ceiling τ a b result).map (Edit.rename ρ) := by
  unfold comparisonMarks
  rw [h a, h b]
  split <;> rfl

theorem edits_rename (ceiling : Word) :
    edits ceiling τ' (s.rename ρ) = (edits ceiling τ s).map (Edit.rename ρ) := by
  obtain ⟨phase, op, name, args, stack, word⟩ := s
  unfold edits Sight.rename
  simp only
  split
  · next hargs hstack =>
    obtain ⟨key, rest, rfl, rfl, -⟩ := List.map_eq_cons_iff.mp hargs
    obtain ⟨result, rest, rfl, rfl, -⟩ := List.map_eq_cons_iff.mp hstack
    simp only [List.map_map]
    rfl
  iterate 2
    · next hargs hstack =>
      obtain ⟨a, b, rest, rfl, rfl, rfl⟩ := Item.exists_two_of_map hargs
      obtain ⟨result, rest, rfl, rfl, -⟩ := List.map_eq_cons_iff.mp hstack
      exact comparisonMarks_rename h ceiling a.tag b.tag result.tag
  · split <;> grind

end MultipleAuthorization

namespace XConfirmation

include h

theorem comparisonMarks_rename (a b : Nat) :
    comparisonMarks τ' (ρ.tags a) (ρ.tags b) = (comparisonMarks τ a b).map (Edit.rename ρ) := by
  unfold comparisonMarks
  rw [h a, h b]
  split
  · rfl
  · split <;> rfl

theorem edits_rename : edits τ' (s.rename ρ) = (edits τ s).map (Edit.rename ρ) := by
  obtain ⟨phase, op, name, args, stack, word⟩ := s
  unfold edits Sight.rename
  simp only
  split
  · next hstack =>
    obtain ⟨result, rest, rfl, rfl, -⟩ := List.map_eq_cons_iff.mp hstack
    rfl
  · next hargs hstack =>
    obtain ⟨key, rest, rfl, rfl, -⟩ := List.map_eq_cons_iff.mp hargs
    obtain ⟨result, rest, rfl, rfl, -⟩ := List.map_eq_cons_iff.mp hstack
    rfl
  iterate 3
    · next hargs =>
      obtain ⟨a, b, rest, rfl, rfl, rfl⟩ := Item.exists_two_of_map hargs
      exact comparisonMarks_rename h a.tag b.tag
  · split <;> grind

end XConfirmation

namespace Roles

include h

theorem candidate?_rename (top second : Item) :
    candidate? τ' (top.rename ρ) (second.rename ρ) =
      (candidate? τ top second).map (Item.rename ρ) := by
  unfold candidate?
  rw [h.item top, h.item second]
  split
  · rfl
  · split <;> rfl

theorem distance?_rename (top second : Item) :
    distance? τ' (top.rename ρ) (second.rename ρ) = distance? τ top second := by
  unfold distance?
  rw [h.item top, h.item second]
  rfl

theorem edits_rename (memo : Memo) :
    edits memo τ' (s.rename ρ) = (edits memo τ s).map (Edit.rename ρ) := by
  obtain ⟨phase, op, name, args, stack, word⟩ := s
  unfold edits Sight.rename
  simp only
  split
  · next hstack =>
    obtain ⟨result, rest, rfl, rfl, -⟩ := List.map_eq_cons_iff.mp hstack
    rfl
  · next hstack =>
    obtain ⟨result, rest, rfl, rfl, -⟩ := List.map_eq_cons_iff.mp hstack
    simp only [Item.rename, h result.tag, List.map_append, apply_ite (List.map (Edit.rename ρ)),
      List.map_cons, List.map_nil, Edit.rename]
  · next hargs hstack =>
    obtain ⟨key, rest, rfl, rfl, -⟩ := List.map_eq_cons_iff.mp hargs
    obtain ⟨result, rest, rfl, rfl, -⟩ := List.map_eq_cons_iff.mp hstack
    simp only [h.item key]
    split <;> rfl
  · next hargs =>
    obtain ⟨top, second, rest, rfl, rfl, rfl⟩ := Item.exists_two_of_map hargs
    simp only [candidate?_rename h top second]
    simp only [Option.filter_map, Option.toList_map, List.map_map]
    rfl
  · split <;> grind

theorem next_rename (memo : Memo) : next memo τ' (s.rename ρ) = next memo τ s := by
  obtain ⟨phase, op, name, args, stack, word⟩ := s
  unfold next Sight.rename
  simp only
  split
  · next hstack =>
    obtain ⟨result, rest, rfl, rfl, -⟩ := List.map_eq_cons_iff.mp hstack
    rfl
  · next hargs =>
    obtain ⟨top, second, rest, rfl, rfl, rfl⟩ := Item.exists_two_of_map hargs
    simp only [candidate?_rename h top second, Option.bind_map]
    rfl
  · next hargs =>
    obtain ⟨top, second, rest, rfl, rfl, rfl⟩ := Item.exists_two_of_map hargs
    simp only [distance?_rename h top second]
  · next hargs =>
    obtain ⟨offset, length, rest, rfl, rfl, rfl⟩ := Item.exists_two_of_map hargs
    rfl
  · next hargs =>
    obtain ⟨destination, condition, rest, rfl, rfl, rfl⟩ := Item.exists_two_of_map hargs
    simp only [h.item condition]
  · split <;> grind

end Roles

namespace Strategy

variable (st : Strategy)
include h

/-- **Strategies make the same changes**, to the taints of other tags. -/
theorem edits_rename : st.edits τ' (s.rename ρ) = (st.edits τ s).map (Edit.rename ρ) := by
  cases st with
  | ownership ceiling => exact Ownership.edits_rename h s ceiling
  | hashLock maxLength => exact HashLock.edits_rename h s maxLength
  | roles memo => exact Roles.edits_rename h s memo
  | multipleAuthorization ceiling => exact MultipleAuthorization.edits_rename h s ceiling
  | xConfirmation => exact XConfirmation.edits_rename h s
  | offChainSecret | singleOwner => rfl

/-- **They remember the same.** -/
theorem next_rename : st.next τ' (s.rename ρ) = st.next τ s := by
  cases st with
  | roles memo => exact congrArg roles (Roles.next_rename h s memo)
  | _ => rfl

/-- **They find the same.** -/
theorem finding?_rename : st.finding? τ' (s.rename ρ) = st.finding? τ s := by
  obtain ⟨phase, op, name, args, stack, word⟩ := s
  unfold finding? Sight.rename
  simp only
  split
  · next hargs =>
    obtain ⟨destination, condition, rest, rfl, rfl, rfl⟩ := Item.exists_two_of_map hargs
    simp only [h.item condition]
  · split <;> grind

end Strategy

end

/-! ### Detectors -/

namespace Detector

variable (h : τ.Renamed ρ τ') (s : Sight) (d : Detector)
include h

theorem edits_rename : d.edits τ' (s.rename ρ) = (d.edits τ s).map (Edit.rename ρ) := by
  have hname : (s.rename ρ).functionName = s.functionName := rfl
  rw [edits, hname, edits, d.strategy.edits_rename h s]
  split <;> rfl

theorem after_rename : d.after τ' (s.rename ρ) = d.after τ s := by
  have hname : (s.rename ρ).functionName = s.functionName := rfl
  rw [after, hname, d.strategy.next_rename h s, d.strategy.finding?_rename h s, after]

end Detector

namespace Registry

/-- Registries with the same detectors, and taints with other tags. -/
def Renamed (ρ : Renaming) (s t : Registry × Taints) : Prop := t.1 = s.1 ∧ s.2.Renamed ρ t.2

theorem react_rename {s t : Registry × Taints} (h : Renamed ρ s t) (i : Nat) (sight : Sight) :
    Renamed ρ (react i sight s) (react i (sight.rename ρ) t) := by
  obtain ⟨r, τ⟩ := s
  obtain ⟨_, τ'⟩ := t
  obtain ⟨rfl, hτ⟩ : _ = r ∧ τ.Renamed ρ τ' := h
  unfold react
  simp only
  split
  · exact ⟨rfl, hτ⟩
  · next d _ =>
    rw [d.after_rename hτ, d.edits_rename hτ]
    exact ⟨rfl, hτ.editAll _⟩

/-- **Detectors that are told the same with other tags do the same.** -/
theorem hear_renamed (x y : Setting Registry) (hhooks : y.hooks = x.hooks) {signal signal' : Signal}
    (hsignal : signal.Renamed ρ signal') {s t : Registry × Taints} (h : Renamed ρ s t) :
    Renamed ρ (x.hear react s signal) (y.hear react t signal') := by
  cases hsignal with
  | event op phase sight =>
    have hsubscribers : y.subscribers = x.subscribers := by
      funext phase op
      rw [Setting.subscribers, hhooks, Setting.subscribers]
    rw [Setting.hear, Setting.hear, hsubscribers, phase, sight]
    exact List.foldl_rel h fun i _ _ _ hst => react_rename hst i _
  | inherit i => exact ⟨h.1, h.2.inherit i⟩
  | message => exact h

end Registry

end GuardFinder

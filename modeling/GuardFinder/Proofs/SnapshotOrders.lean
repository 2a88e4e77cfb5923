import GuardFinder.Snapshot
import Mathlib.Data.List.Basic

/-!
# Snapshots and the order of their entries

A snapshot is made from the fields of an object one after the other, in an order that the object
does not fix. Fields with the same name are merged before, but names that differ may spell the same
slot: `1`, `01`, `0x1`. Then the last one counts, and which that is depends on the order.

* `Snapshot.Names`, `Snapshot.Readable`: what entries say, in whatever order.
* `Snapshot.ofEntries_of_readable`, `Snapshot.exists_order`: a snapshot reads one of the values that
  are named for a slot, and each of them in some order.
* `Snapshot.ofText_orders`: **the order matters where names spell one slot with different values**,
  and nowhere else.
-/

namespace GuardFinder.Snapshot

/-! ### Entries -/

/-- An entry spells a slot and its value. -/
def Spells (entry : String × String) (slot value : Word) : Prop :=
  readWord entry.1 = .ok slot ∧ readWord entry.2 = .ok value

/-- Entries name a value for a slot. -/
def Names (entries : List (String × String)) (slot value : Word) : Prop :=
  ∃ entry ∈ entries, Spells entry slot value

/-- All entries spell slots and values. -/
def Readable (entries : List (String × String)) : Prop :=
  ∀ entry ∈ entries, ∃ slot value, Spells entry slot value

section

variable {entries order : List (String × String)} {slot value : Word}

theorem names_perm (h : order.Perm entries) :
    Names order slot value ↔ Names entries slot value := by
  simp only [Names, h.mem_iff]

theorem readable_perm (h : order.Perm entries) : Readable order ↔ Readable entries := by
  simp only [Readable, h.mem_iff]

theorem readable_cons {entry : String × String} :
    Readable (entry :: entries) ↔ (∃ slot value, Spells entry slot value) ∧ Readable entries :=
  List.forall_mem_cons

theorem names_cons {entry : String × String} :
    Names (entry :: entries) slot value ↔ Spells entry slot value ∨ Names entries slot value := by
  simp only [Names, List.exists_mem_cons_iff]

end

theorem Spells.unique {entry : String × String} {slot value slot' value' : Word}
    (h : Spells entry slot value) (h' : Spells entry slot' value') :
    slot' = slot ∧ value' = value :=
  ⟨Except.ok.inj (h'.1.symm.trans h.1), Except.ok.inj (h'.2.symm.trans h.2)⟩

/-! ### Adding entries -/

theorem read_withSlot (s : Snapshot) (slot value other : Word) :
    (s.withSlot slot value).read other = if other = slot then value else s.read other := by
  unfold withSlot read
  by_cases h : other = slot
  · rw [if_pos h, List.lookup_cons, beq_iff_eq.mpr h]
    rfl
  · rw [if_neg h, List.lookup_cons, beq_eq_false_iff_ne.mpr h]

theorem addEntries_cons {entry : String × String} {slot value : Word}
    (h : Spells entry slot value) (s : Snapshot) (rest : List (String × String)) :
    addEntries s (entry :: rest) = addEntries (s.withSlot slot value) rest := by
  rw [addEntries, h.1, h.2]
  rfl

/-- Entries that are added spell slots and values, the first one included. -/
theorem spells_of_addEntries {entry : String × String} {rest : List (String × String)}
    {s t : Snapshot} (h : addEntries s (entry :: rest) = .ok t) :
    ∃ slot value, Spells entry slot value ∧ addEntries (s.withSlot slot value) rest = .ok t := by
  rw [addEntries] at h
  cases hslot : readWord entry.1 with
  | error e =>
    rw [hslot] at h
    cases h
  | ok slot =>
    cases hvalue : readWord entry.2 with
    | error e =>
      rw [hslot, hvalue] at h
      cases h
    | ok value =>
      rw [hslot, hvalue] at h
      exact ⟨slot, value, ⟨hslot, hvalue⟩, h⟩

theorem readable_of_addEntries {entries : List (String × String)} {s t : Snapshot}
    (h : addEntries s entries = .ok t) : Readable entries := by
  induction entries generalizing s with
  | nil => exact fun entry hentry => absurd hentry List.not_mem_nil
  | cons entry entries ih =>
    obtain ⟨slot, value, hspells, hrest⟩ := spells_of_addEntries h
    exact readable_cons.mpr ⟨⟨slot, value, hspells⟩, ih hrest⟩

theorem addEntries_append {entries : List (String × String)} {s t : Snapshot}
    (h : addEntries s entries = .ok t) (rest : List (String × String)) :
    addEntries s (entries ++ rest) = addEntries t rest := by
  induction entries generalizing s with
  | nil =>
    rw [← Except.ok.inj h]
    rfl
  | cons entry entries ih =>
    obtain ⟨slot, value, hspells, hrest⟩ := spells_of_addEntries h
    rw [List.cons_append, addEntries_cons hspells, ih hrest]

/-- **A snapshot reads one of the values that are named for a slot**, or what it read before. -/
theorem addEntries_of_readable {entries : List (String × String)} (h : Readable entries)
    (s : Snapshot) :
    ∃ t, addEntries s entries = .ok t ∧ ∀ slot, Names entries slot (t.read slot) ∨
      (¬∃ value, Names entries slot value) ∧ t.read slot = s.read slot := by
  induction entries generalizing s with
  | nil => exact ⟨s, rfl, fun slot => .inr ⟨by simp [Names], rfl⟩⟩
  | cons entry entries ih =>
    obtain ⟨⟨slot, value, hspells⟩, hrest⟩ := readable_cons.mp h
    obtain ⟨t, ht, hread⟩ := ih hrest (s.withSlot slot value)
    refine ⟨t, (addEntries_cons hspells s entries).trans ht, fun other => ?_⟩
    -- if no later entry names the slot, this one counts, or what was there before
    rcases hread other with hnames | ⟨hnone, hbefore⟩
    · exact .inl (names_cons.mpr (.inr hnames))
    · rw [read_withSlot] at hbefore
      by_cases hother : other = slot
      · left
        rw [if_pos hother] at hbefore
        rw [hbefore, hother]
        exact names_cons.mpr (.inl hspells)
      · right
        rw [if_neg hother] at hbefore
        refine ⟨?_, hbefore⟩
        rintro ⟨value', hnames⟩
        rcases names_cons.mp hnames with hspells' | hnames
        · exact hother (hspells.unique hspells').1
        · exact hnone ⟨value', hnames⟩

/-! ### Orders -/

/-- The snapshot reads a value that the entries name for the slot, or zero if they name none. -/
def ReadsFrom (s : Snapshot) (entries : List (String × String)) (slot : Word) : Prop :=
  Names entries slot (s.read slot) ∨ (¬∃ value, Names entries slot value) ∧ s.read slot = 0

section

variable {entries order : List (String × String)}

/-- In every order, a snapshot reads one of the values that are named for a slot, or zero. -/
theorem ofEntries_of_readable (h : Readable entries) (horder : order.Perm entries) :
    ∃ s, ofEntries order = .ok s ∧ ∀ slot, s.ReadsFrom entries slot := by
  obtain ⟨s, hs, hread⟩ := addEntries_of_readable ((readable_perm horder).mpr h) {}
  refine ⟨s, hs, fun slot => ?_⟩
  have hslot := hread slot
  simp only [names_perm horder] at hslot
  exact hslot

theorem ofEntries_of_not_readable (h : ¬Readable entries) (horder : order.Perm entries) :
    ∃ e, ofEntries order = .error e := by
  cases hresult : ofEntries order with
  | error e => exact ⟨e, rfl⟩
  | ok s => exact absurd ((readable_perm horder).mp (readable_of_addEntries hresult)) h

/-- Each value that is named for a slot is read from it in some order: the one in which its entry is
the last. -/
theorem exists_order (h : Readable entries) {slot value : Word}
    (hnames : Names entries slot value) :
    ∃ order s, order.Perm entries ∧ ofEntries order = .ok s ∧ s.read slot = value := by
  obtain ⟨entry, hentry, hspells⟩ := hnames
  obtain ⟨before, after, rfl⟩ := List.append_of_mem hentry
  have hperm : (before ++ after ++ [entry]).Perm (before ++ entry :: after) :=
    (List.perm_append_singleton entry (before ++ after)).trans List.perm_middle.symm
  have hothers : Readable (before ++ after) := fun other hother =>
    h other (hperm.subset (List.mem_append_left _ hother))
  obtain ⟨s, hs, -⟩ := addEntries_of_readable hothers {}
  refine ⟨_, s.withSlot slot value, hperm, ?_, ?_⟩
  · rw [ofEntries, addEntries_append hs, addEntries_cons hspells]
    rfl
  · rw [read_withSlot, if_pos rfl]

end

/-- In all orders in which the entries make a snapshot, it reads the same from the slot. -/
def ReadsAlike (entries : List (String × String)) (slot : Word) : Prop :=
  ∀ first second s t, first.Perm entries → second.Perm entries → ofEntries first = .ok s →
    ofEntries second = .ok t → s.read slot = t.read slot

/-- **Snapshots of all orders read the same from a slot if and only if the entries name at most one
value for it.** -/
theorem readsAlike_iff {entries : List (String × String)} (h : Readable entries) (slot : Word) :
    ReadsAlike entries slot ↔
      ∀ value other, Names entries slot value → Names entries slot other → value = other := by
  constructor
  · intro halike value other hvalue hother
    obtain ⟨first, s, hfirst, hs, rfl⟩ := exists_order h hvalue
    obtain ⟨second, t, hsecond, ht, rfl⟩ := exists_order h hother
    exact halike first second s t hfirst hsecond hs ht
  · intro hone first second s t hfirst hsecond hs ht
    obtain ⟨s', hs', hread⟩ := ofEntries_of_readable h hfirst
    obtain ⟨t', ht', hread'⟩ := ofEntries_of_readable h hsecond
    obtain rfl : s' = s := Except.ok.inj (hs'.symm.trans hs)
    obtain rfl : t' = t := Except.ok.inj (ht'.symm.trans ht)
    rcases hread slot with hnames | ⟨hnone, hzero⟩
    · rcases hread' slot with hnames' | ⟨hnone, -⟩
      · exact hone _ _ hnames hnames'
      · exact absurd ⟨_, hnames⟩ hnone
    · rcases hread' slot with hnames' | ⟨-, hzero'⟩
      · exact absurd ⟨_, hnames'⟩ hnone
      · rw [hzero, hzero']

/-! ### Texts -/

/-- The entries of a text, if it is an object of strings: of those with one name, the last. -/
def entries? (text : String) : Option (List (String × String)) :=
  (((Json.parse? text).bind Json.fields?).bind strings?).map lastEntries

theorem ofText_eq {text : String} {entries : List (String × String)}
    (h : entries? text = some entries) : ofText text = ofEntries entries := by
  obtain ⟨all, hall, rfl⟩ := Option.map_eq_some_iff.mp h
  obtain ⟨fields, hfields, hstrings⟩ := Option.bind_eq_some_iff.mp hall
  rw [ofText, hfields]
  dsimp only
  rw [hstrings]

theorem mem_of_mem_lastEntries {all : List (String × String)} {entry : String × String}
    (h : entry ∈ lastEntries all) : entry ∈ all := by
  induction all with
  | nil => exact h
  | cons first rest ih =>
    rw [lastEntries] at h
    split at h
    · exact List.mem_cons_of_mem first (ih h)
    · rcases List.mem_cons.mp h with rfl | h
      · exact List.mem_cons_self
      · exact List.mem_cons_of_mem first (ih h)

theorem nodup_lastEntries (all : List (String × String)) :
    ((lastEntries all).map Prod.fst).Nodup := by
  induction all with
  | nil => exact List.nodup_nil
  | cons first rest ih =>
    rw [lastEntries]
    split
    · exact ih
    · rename_i hlast
      refine List.nodup_cons.mpr ⟨fun hmem => hlast ?_, ih⟩
      obtain ⟨entry, hentry, hkey⟩ := List.mem_map.mp hmem
      exact List.any_eq_true.mpr ⟨entry, mem_of_mem_lastEntries hentry, decide_eq_true hkey⟩

/-- **The order of the entries of an object of strings matters for a slot if and only if two of them
spell it with different values.** Their names are all different. If one of them spells no slot or no
value, no order makes a snapshot; otherwise all orders do, and each snapshot reads from a slot a
value that is named for it, and zero if none is. -/
theorem ofText_orders {text : String} {entries : List (String × String)}
    (h : entries? text = some entries) :
    ofText text = ofEntries entries ∧ (entries.map Prod.fst).Nodup ∧
      ((¬Readable entries ∧ ∀ order, order.Perm entries → ∃ e, ofEntries order = .error e) ∨
        Readable entries ∧
          (∀ order, order.Perm entries →
            ∃ s, ofEntries order = .ok s ∧ ∀ slot, s.ReadsFrom entries slot) ∧
          ∀ slot, ReadsAlike entries slot ↔ ∀ value other,
            Names entries slot value → Names entries slot other → value = other) := by
  refine ⟨ofText_eq h, ?_, ?_⟩
  · obtain ⟨all, -, rfl⟩ := Option.map_eq_some_iff.mp h
    exact nodup_lastEntries all
  · by_cases hreadable : Readable entries
    · exact .inr ⟨hreadable, fun order horder => ofEntries_of_readable hreadable horder,
        readsAlike_iff hreadable⟩
    · exact .inl ⟨hreadable, fun order horder => ofEntries_of_not_readable hreadable horder⟩

/-- Slot 1 has two names, with one value in two spellings, and slot 2 has one. -/
theorem ofText_orders_twoNames :
    entries? "\x7b\"1\": \"5\", \"2\": \"7\", \"0x1\": \"0x05\"\x7d" =
        some [("1", "5"), ("2", "7"), ("0x1", "0x05")] ∧
      ReadsAlike [("1", "5"), ("2", "7"), ("0x1", "0x05")] 1 := by
  have htext : entries? "\x7b\"1\": \"5\", \"2\": \"7\", \"0x1\": \"0x05\"\x7d" =
      some [("1", "5"), ("2", "7"), ("0x1", "0x05")] := by decide +kernel
  have hfirst : Spells ("1", "5") 1 5 := by constructor <;> decide +kernel
  have hsecond : Spells ("2", "7") 2 7 := by constructor <;> decide +kernel
  have hthird : Spells ("0x1", "0x05") 1 5 := by constructor <;> decide +kernel
  have hreadable : Readable [("1", "5"), ("2", "7"), ("0x1", "0x05")] := by
    intro entry hentry
    rcases List.mem_cons.mp hentry with rfl | hentry
    · exact ⟨1, 5, hfirst⟩
    · rcases List.mem_pair.mp hentry with rfl | rfl
      · exact ⟨2, 7, hsecond⟩
      · exact ⟨1, 5, hthird⟩
  have hone (value : Word) (hvalue : Names [("1", "5"), ("2", "7"), ("0x1", "0x05")] 1 value) :
      value = 5 := by
    rcases names_cons.mp hvalue with hspells | hvalue
    · exact (hfirst.unique hspells).2
    · rcases names_cons.mp hvalue with hspells | hvalue
      · exact absurd (hsecond.unique hspells).1 (by decide)
      · obtain ⟨entry, hentry, hspells⟩ := hvalue
        obtain rfl := List.mem_singleton.mp hentry
        exact (hthird.unique hspells).2
  rcases (ofText_orders htext).2.2 with ⟨hnot, -⟩ | ⟨-, -, halike⟩
  · exact absurd hreadable hnot
  · exact ⟨htext, (halike 1).mpr fun value other hvalue hother =>
      (hone value hvalue).trans (hone other hother).symm⟩

/-- Slot 1 has two names, with different values: the order decides which one is read. -/
theorem ofText_order_matters :
    ¬∀ (text : String) (entries first second : List (String × String)),
      entries? text = some entries → first.Perm entries → second.Perm entries →
        (∃ e e', ofEntries first = .error e ∧ ofEntries second = .error e') ∨
        ∃ s t, ofEntries first = .ok s ∧ ofEntries second = .ok t ∧
          ∀ slot, s.read slot = t.read slot := by
  intro h
  have hfirst : (ofEntries [("1", "5"), ("0x1", "6")]).toOption.map (read · 1) = some 6 := by
    decide +kernel
  have hsecond : (ofEntries [("0x1", "6"), ("1", "5")]).toOption.map (read · 1) = some 5 := by
    decide +kernel
  rcases h "\x7b\"1\": \"5\", \"0x1\": \"6\"\x7d" _ [("1", "5"), ("0x1", "6")]
    [("0x1", "6"), ("1", "5")] (by decide +kernel) (List.Perm.refl _) (List.Perm.swap _ _ _) with
    ⟨e, -, he, -⟩ | ⟨s, t, hs, ht, hread⟩
  · rw [he] at hfirst
    cases hfirst
  · rw [hs] at hfirst
    rw [ht] at hsecond
    have hsix : s.read 1 = 6 := Option.some.inj hfirst
    have hfive : t.read 1 = 5 := Option.some.inj hsecond
    exact absurd ((hsix.symm.trans (hread 1)).trans hfive) (by decide)

end GuardFinder.Snapshot

import GuardFinder.FileTree
import Mathlib.Data.List.Basic

/-!
# Writing into a file tree

A name in a directory leads to a place in the place of the directory. A file that is written there
changes the text at this place and at no other, and neither makes directories nor takes any away.

* `Pathname.exists_pieces_join`: the pieces of a name in a directory.
* `FileTree.isDirectory_putAt`, `FileTree.fileAt?_putAt`: what putting a file changes.
* `FileTree.makeDirectories?_eq_some`: a directory that was made is there, and all files are as
  before.
* `FileTree.write?_join`: **when a file can be written into a directory, and what that changes**.
-/

namespace GuardFinder

/-! ### Pieces of path names -/

namespace Pathname

/-- A row of bytes that names something in a directory. -/
structure IsName (name : Pathname) : Prop where
  ne_nil : name ≠ []
  ne_here : name ≠ here
  ne_above : name ≠ above
  no_slash : slash ∉ name

theorem pieces_append_slash (directory : Pathname) {name : Pathname} (hname : slash ∉ name) :
    pieces (directory ++ slash :: name) = pieces directory ++ [name] := by
  rw [pieces, List.splitOn_append_cons_self, List.splitOn_eq_singleton hname, pieces]

/-- A name in a directory comes after the pieces of the directory, in the place of an empty piece
at their end. -/
theorem exists_pieces_join (directory : Pathname) :
    ∃ above, (pieces directory = above ∨ pieces directory = above ++ [[]]) ∧
      ∀ name, IsName name → pieces (join directory [name]) = above ++ [name] := by
  by_cases hslash : directory = [] ∨ directory.getLast? = some slash
  · have hjoin (name : Pathname) : join directory [name] = directory ++ name := if_pos hslash
    simp only [hjoin]
    rcases hslash with rfl | hslash
    · exact ⟨[], .inr rfl, fun name hname => List.splitOn_eq_singleton hname.no_slash⟩
    · obtain ⟨start, rfl⟩ := List.getLast?_eq_some_iff.mp hslash
      refine ⟨pieces start, .inr (pieces_append_slash start List.not_mem_nil), ?_⟩
      intro name hname
      rw [List.append_assoc, List.singleton_append, pieces_append_slash start hname.no_slash]
  · refine ⟨pieces directory, .inl rfl, fun name hname => ?_⟩
    rw [join, if_neg hslash, join, pieces_append_slash directory hname.no_slash]

/-- A name in a directory starts where the directory does. -/
theorem isAbsolute_join (directory : Pathname) {name : Pathname} (hname : IsName name) :
    isAbsolute (join directory [name]) = isAbsolute directory := by
  cases directory with
  | nil =>
    rw [join, if_pos (.inl rfl), join, List.nil_append]
    refine decide_eq_decide.mpr (iff_of_false (fun hhead => ?_) (by simp))
    exact hname.no_slash (List.mem_of_head? hhead)
  | cons b rest =>
    rw [join]
    split <;> rfl

end Pathname

namespace FileTree

/-! ### Directories -/

variable {t u : FileTree} {place d : List Pathname}

theorem isDirectory_iff : t.isDirectory place = true ↔ place <+: t.home ∨
    (∃ q ∈ t.directories, place <+: q) ∨ ∃ file ∈ t.files, place <+: file.1 ∧ place ≠ file.1 := by
  simp only [isDirectory, Bool.or_eq_true, List.any_eq_true, List.isPrefixOf_iff_prefix,
    Bool.and_eq_true, decide_eq_true_eq, or_assoc]

/-- Names start at a directory. -/
theorem isDirectory_start (path : Pathname) : t.isDirectory (t.start path) = true := by
  refine isDirectory_iff.mpr (.inl ?_)
  unfold start
  split
  · exact List.nil_prefix
  · exact List.prefix_rfl

theorem isDirectory_of_above (h : t.isDirectory d = true) (hplace : place <+: d) :
    t.isDirectory place = true := by
  rcases isDirectory_iff.mp h with hd | ⟨q, hq, hd⟩ | ⟨file, hfile, hd, hne⟩
  · exact isDirectory_iff.mpr (.inl (hplace.trans hd))
  · exact isDirectory_iff.mpr (.inr (.inl ⟨q, hq, hplace.trans hd⟩))
  · refine isDirectory_iff.mpr (.inr (.inr ⟨file, hfile, hplace.trans hd, ?_⟩))
    -- a place as long as the file's would be the whole of `d`
    rintro rfl
    exact hne (hd.eq_of_length_le hplace.length_le)

/-! ### Following names -/

theorem follow?_append (l m : List Pathname) :
    t.follow? place (l ++ m) = (t.follow? place l).bind (t.follow? · m) := by
  induction l generalizing place with
  | nil => rfl
  | cons part l ih =>
    simp only [List.cons_append, follow?]
    split
    · rfl
    · split
      · exact ih
      · split
        · exact ih
        · exact ih

theorem follow?_cons_of_not_isDirectory {part : Pathname} {rest : List Pathname}
    (h : t.isDirectory place = false) : t.follow? place (part :: rest) = none := by
  rw [follow?, h]
  rfl

theorem follow?_name {name : Pathname} (h : t.isDirectory place = true)
    (hname : Pathname.IsName name) :
    t.follow? place [name] = some (place ++ [name]) := by
  rw [follow?, h, if_neg (by decide), if_neg (not_or.mpr ⟨hname.ne_nil, hname.ne_here⟩),
    if_neg hname.ne_above, follow?]

/-- Only directories lead on. -/
theorem isDirectory_of_follow? {l : List Pathname} (h : t.follow? place l = some d)
    (hd : t.isDirectory d = true) : t.isDirectory place = true := by
  cases l with
  | nil => exact Option.some.inj h ▸ hd
  | cons part rest =>
    by_contra hplace
    rw [follow?_cons_of_not_isDirectory (Bool.eq_false_iff.mpr hplace)] at h
    cases h

theorem follow?_congr (h : ∀ p, u.isDirectory p = t.isDirectory p) (l : List Pathname) :
    u.follow? place l = t.follow? place l := by
  induction l generalizing place with
  | nil => rfl
  | cons part l ih => simp only [follow?, h, ih]

/-- Pieces that say nothing can be left out on the way to a directory. -/
theorem follow?_of_filter {l : List Pathname}
    (h : t.follow? place (l.filter fun p => p ≠ [] ∧ p ≠ .here) = some d)
    (hd : t.isDirectory d = true) : t.follow? place l = some d := by
  induction l generalizing place with
  | nil => exact h
  | cons part l ih =>
    have hplace := isDirectory_of_follow? h hd
    rw [follow?, hplace, if_neg (by decide)]
    by_cases hpart : part = [] ∨ part = .here
    · rw [List.filter_cons_of_neg (by simpa [or_iff_not_imp_left] using hpart)] at h
      rw [if_pos hpart]
      exact ih h
    · rw [List.filter_cons_of_pos (by simpa [not_or] using hpart), follow?, hplace,
        if_neg (by decide), if_neg hpart] at h
      rw [if_neg hpart]
      split at h
      · rename_i hdots
        rw [if_pos hdots]
        exact ih h
      · rename_i hdots
        rw [if_neg hdots]
        exact ih h

/-! ### Names in a directory -/

section

variable {output name : Pathname} {text : String}

theorem resolve?_join (hd : t.resolve? output = some d) (hdir : t.isDirectory d = true)
    (hname : Pathname.IsName name) (hshort : (output.join [name]).isShort = true) :
    t.resolve? (output.join [name]) = some (d ++ [name]) := by
  obtain ⟨above, habove, hjoin⟩ := Pathname.exists_pieces_join output
  have hfollow : t.follow? (t.start output) above = some d := by
    unfold resolve? at hd
    split at hd
    · rcases habove with habove | habove
      · rwa [habove] at hd
      · -- the empty piece at the end leads from a directory to itself
        rw [habove, follow?_append] at hd
        obtain ⟨place, hplace, hlast⟩ := Option.bind_eq_some_iff.mp hd
        have hfrom := isDirectory_of_follow? hlast hdir
        rw [follow?, hfrom, if_neg (by decide), if_pos (.inl rfl), follow?] at hlast
        exact hplace.trans hlast
    · cases hd
  have hstart : t.start (output.join [name]) = t.start output := by
    rw [start, start, Pathname.isAbsolute_join output hname]
  rw [resolve?, if_pos hshort, hstart, hjoin name hname, follow?_append, hfollow]
  exact follow?_name hdir hname

/-- **A file can be written into a directory if its name is not too long and no directory has it.**
The text is then put at its place. -/
theorem write?_join (hd : t.resolve? output = some d) (hdir : t.isDirectory d = true)
    (hname : Pathname.IsName name) :
    t.write? (output.join [name]) text =
      if (output.join [name]).isShort = true ∧ t.isDirectory (d ++ [name]) = false then
        some (t.putAt (d ++ [name]) text)
      else none := by
  obtain ⟨above, -, hjoin⟩ := Pathname.exists_pieces_join output
  have hlast : (output.join [name]).pieces.getLast? = some name := by
    rw [hjoin name hname, List.getLast?_concat]
  have hparts : ¬(name = [] ∨ name = .here ∨ name = .above) :=
    not_or.mpr ⟨hname.ne_nil, not_or.mpr ⟨hname.ne_here, hname.ne_above⟩⟩
  rw [write?, hlast]
  dsimp only
  rw [if_neg hparts]
  by_cases hshort : (output.join [name]).isShort = true
  · rw [resolve?_join hd hdir hname hshort]
    by_cases hplace : t.isDirectory (d ++ [name]) = true
    · simp [hplace]
    · simp [hplace, hshort]
  · rw [resolve?, if_neg hshort, if_neg fun h => hshort h.1]

end

/-! ### Putting files -/

theorem lookup_replace (files : List (List Pathname × String)) (text : String) (p : List Pathname) :
    (files.map fun file => (file.1, if file.1 = place then text else file.2)).lookup p =
      (files.lookup p).map fun old => if p = place then text else old := by
  induction files with
  | nil => rfl
  | cons file files ih =>
    rw [List.map_cons, List.lookup_cons, List.lookup_cons, ih]
    by_cases hp : p = file.1
    · subst hp
      simp
    · simp [beq_eq_false_iff_ne.mpr hp]

theorem fileAt?_putAt (text : String) (p : List Pathname) :
    (t.putAt place text).fileAt? p = if p = place then some text else t.fileAt? p := by
  unfold putAt
  split
  · rename_i hthere
    refine (lookup_replace t.files text p).trans ?_
    by_cases hp : p = place
    · obtain ⟨old, hold⟩ := Option.isSome_iff_exists.mp hthere
      rw [if_pos hp, hp, ← fileAt?, hold]
      simp
    · simp [hp, fileAt?]
  · rename_i hthere
    rw [fileAt?, List.lookup_append, ← fileAt?]
    by_cases hp : p = place
    · rw [if_pos hp, hp, Option.not_isSome_iff_eq_none.mp hthere]
      simp
    · simp [hp, List.lookup_cons, beq_eq_false_iff_ne.mpr hp]

/-- A file in a directory leaves all directories as they are. -/
theorem isDirectory_putAt {name : Pathname} (hd : t.isDirectory d = true) (text : String)
    (p : List Pathname) : (t.putAt (d ++ [name]) text).isDirectory p = t.isDirectory p := by
  rw [Bool.eq_iff_iff]
  unfold putAt
  split
  · rw [isDirectory_iff, isDirectory_iff]
    simp only [List.mem_map, exists_exists_and_eq_and]
  · rw [isDirectory_iff, isDirectory_iff]
    simp only [List.mem_append, List.mem_singleton]
    constructor
    · rintro (hhome | hdirectory | ⟨file, hfile | rfl, hleads, hne⟩)
      · exact .inl hhome
      · exact .inr (.inl hdirectory)
      · exact .inr (.inr ⟨file, hfile, hleads, hne⟩)
      · -- what leads to the new file leads to its directory
        rcases List.prefix_concat_iff.mp hleads with heq | hleads
        · exact absurd heq hne
        · exact isDirectory_iff.mp (isDirectory_of_above hd hleads)
    · rintro (hhome | hdirectory | ⟨file, hfile, hleads⟩)
      · exact .inl hhome
      · exact .inr (.inl hdirectory)
      · exact .inr (.inr ⟨file, .inl hfile, hleads⟩)

theorem home_putAt (text : String) : (t.putAt place text).home = t.home := by
  unfold putAt
  split <;> rfl

theorem resolve?_putAt {name : Pathname} (hd : t.isDirectory d = true) (text : String)
    (path : Pathname) : (t.putAt (d ++ [name]) text).resolve? path = t.resolve? path := by
  rw [resolve?, resolve?, follow?_congr (isDirectory_putAt hd text), start, start, home_putAt]

/-! ### Making directories -/

/-- A tree with the files of another one, and at least its directories. -/
structure Extends (u t : FileTree) : Prop where
  files_eq : u.files = t.files
  home_eq : u.home = t.home
  isDirectory : ∀ p, t.isDirectory p = true → u.isDirectory p = true

theorem Extends.refl (t : FileTree) : t.Extends t := ⟨rfl, rfl, fun _ hp => hp⟩

theorem Extends.trans {s : FileTree} (hu : u.Extends s) (hs : s.Extends t) : u.Extends t :=
  ⟨hu.files_eq.trans hs.files_eq, hu.home_eq.trans hs.home_eq,
    fun p hp => hu.isDirectory p (hs.isDirectory p hp)⟩

theorem extends_addDirectory (next : List Pathname) :
    Extends { t with directories := next :: t.directories } t := by
  refine ⟨rfl, rfl, fun p hp => ?_⟩
  rcases isDirectory_iff.mp hp with hhome | ⟨q, hq, hleads⟩ | hfile
  · exact isDirectory_iff.mpr (.inl hhome)
  · exact isDirectory_iff.mpr (.inr (.inl ⟨q, List.mem_cons_of_mem next hq, hleads⟩))
  · exact isDirectory_iff.mpr (.inr (.inr hfile))

theorem isDirectory_addDirectory (next : List Pathname) :
    isDirectory { t with directories := next :: t.directories } next = true :=
  isDirectory_iff.mpr (.inr (.inl ⟨next, List.mem_cons_self, List.prefix_rfl⟩))

/-- Making directories extends the tree, and the last of them is there. -/
theorem makeAll?_eq_some {parts : List Pathname} (hplace : t.isDirectory place = true)
    (hparts : ∀ part ∈ parts, part ≠ [] ∧ part ≠ .here) (h : t.makeAll? place parts = some u) :
    u.Extends t ∧ ∃ d, u.follow? place parts = some d ∧ u.isDirectory d = true := by
  induction parts generalizing t place with
  | nil =>
    obtain rfl := Option.some.inj h
    exact ⟨.refl t, place, rfl, hplace⟩
  | cons part parts ih =>
    have hrest := fun p hp => hparts p (List.mem_cons_of_mem part hp)
    have hpart : ¬(part = [] ∨ part = .here) := not_or.mpr (hparts part List.mem_cons_self)
    rw [makeAll?] at h
    split at h
    · rename_i hdots
      have habove := isDirectory_of_above hplace (List.dropLast_prefix place)
      obtain ⟨hextends, d, hd, hdir⟩ := ih habove hrest h
      refine ⟨hextends, d, ?_, hdir⟩
      rw [follow?, hextends.isDirectory place hplace, if_neg (by decide), if_neg hpart,
        if_pos hdots]
      exact hd
    · rename_i hdots
      -- the rest starts from this tree, or from the one with the next place as a directory
      have hstep {s : FileTree} (hs : s.Extends t) (hnext : s.isDirectory (place ++ [part]) = true)
          (hmade : s.makeAll? (place ++ [part]) parts = some u) :
          u.Extends t ∧ ∃ d, u.follow? place (part :: parts) = some d ∧ u.isDirectory d = true := by
        obtain ⟨hextends, d, hd, hdir⟩ := ih hnext hrest hmade
        refine ⟨hextends.trans hs, d, ?_, hdir⟩
        rw [follow?, (hextends.trans hs).isDirectory place hplace, if_neg (by decide),
          if_neg hpart, if_neg hdots]
        exact hd
      dsimp only at h
      split at h
      · cases h
      · split at h
        · rename_i hnext
          exact hstep (.refl t) hnext h
        · exact hstep (extends_addDirectory _) (isDirectory_addDirectory _) h

/-- **A directory that was made is there, and all files are as before.** -/
theorem makeDirectories?_eq_some {output : Pathname} (h : t.makeDirectories? output = some u) :
    u.files = t.files ∧ ∃ d, u.resolve? output = some d ∧ u.isDirectory d = true := by
  have hparts : ∀ part ∈ output.parts, part ≠ [] ∧ part ≠ .here := fun part hpart =>
    of_decide_eq_true (List.mem_filter.mp hpart).2
  unfold makeDirectories? at h
  dsimp only at h
  split at h
  · cases h
  · rename_i hshort
    suffices hmade : u.Extends t ∧
        ∃ d, u.follow? (t.start output) output.parts = some d ∧ u.isDirectory d = true by
      obtain ⟨hextends, d, hd, hdir⟩ := hmade
      refine ⟨hextends.files_eq, d, ?_, hdir⟩
      rw [resolve?, if_pos (by simpa using hshort), start, hextends.home_eq]
      exact follow?_of_filter hd hdir
    split at h
    · -- with a dot at the end, the last directory has to be there already
      obtain ⟨hmade, hleads⟩ := Option.filter_eq_some_iff.mp h
      obtain ⟨d, hd, hdir⟩ := Option.any_eq_true _ _ |>.mp hleads
      have hinit := fun part hpart => hparts part (List.dropLast_subset _ hpart)
      exact ⟨(makeAll?_eq_some (isDirectory_start output) hinit hmade).1, d, hd, hdir⟩
    · exact makeAll?_eq_some (isDirectory_start output) hparts h

end FileTree

end GuardFinder

import GuardFinder.Cli.Batch
import GuardFinder.Proofs.FileTrees
import GuardFinder.Proofs.LossyText
import Mathlib.Data.List.TakeDrop

/-!
# Names of reports

The texts of the parts of a file's name are joined by underscores to the name of its report. Two
files can share a name for two reasons. Where parts contain underscores themselves, they cannot be
told from those between parts: `a/b/Vault.bin` and `a_b/Vault.bin`. And where parts are no text,
they may show the same marks. What a name keeps of a file are the texts between all the underscores,
those that join parts and those in parts.

* `Pathname.eq_of_extension?`: a file name is its stem, a dot and its extension.
* `Batch.segments`, `Batch.reportName_eq_iff`: **what two files with one report name have in
  common**.
* `Batch.eq_of_reportName_eq`: if their parts are texts without underscores, two files share a name
  only if they are `..bin` and `...bin` of one directory.
-/

namespace GuardFinder

/-! ### File names -/

namespace Pathname

variable {name other extension : Pathname}

/-- A name with an extension is its stem, a dot and the extension. -/
theorem eq_of_extension? (h : extension? name = some extension) :
    name = stem name ++ dot :: extension ∧ stem name ≠ [] := by
  have hname := List.takeWhile_append_dropWhile (p := fun b => decide (b ≠ dot))
    (l := name.reverse)
  have hdot := List.head?_dropWhile_not (fun b => decide (b ≠ dot)) name.reverse
  unfold extension? splitName at h
  unfold stem splitName
  rw [List.span_eq_takeWhile_dropWhile] at h ⊢
  generalize name.reverse.takeWhile (fun b => decide (b ≠ dot)) = after at *
  generalize name.reverse.dropWhile (fun b => decide (b ≠ dot)) = before at *
  rcases before with _ | ⟨first, _ | ⟨last, rest⟩⟩
  · cases h
  · cases h
  · obtain rfl := Option.some.inj h
    obtain rfl : first = dot := by simpa using hdot
    refine ⟨?_, by simp⟩
    rw [← List.reverse_reverse name, ← hname]
    simp

theorem eq_of_stem_eq (hname : extension? name = some extension)
    (hother : extension? other = some extension) (h : stem name = stem other) : name = other := by
  rw [(eq_of_extension? hname).1, (eq_of_extension? hother).1, h]

theorem bareName_ne_nil (h : extension? name = some extension) : bareName name ≠ [] := by
  unfold bareName
  split
  · decide
  · exact (eq_of_extension? h).2

/-- A bare name has the bytes of the name. -/
theorem mem_of_mem_bareName (h : extension? name = some extension) {b : UInt8}
    (hb : b ∈ bareName name) : b ∈ name := by
  rw [(eq_of_extension? h).1]
  unfold bareName at hb
  split at hb
  · obtain rfl : b = dot := by simpa [above] using hb
    simp
  · exact List.mem_append_left _ hb

/-! ### Names as text -/

/-- A name that is the name of a text. -/
def IsText (name : Pathname) : Prop := Utf8.encode (Utf8.decode name) = name

instance (name : Pathname) : Decidable (IsText name) :=
  inferInstanceAs (Decidable (Utf8.encode (Utf8.decode name) = name))

theorem isText_ofText (s : String) : IsText (ofText s) := by
  rw [IsText, ofText, Utf8.decode_encode]

theorem ofText_inj {s s' : String} : ofText s = ofText s' ↔ s = s' :=
  Utf8.encode_injective.eq_iff.trans String.toList_inj

/-- A name with an extension is shown as its stem, a dot and the extension. -/
theorem decode_of_extension? (h : extension? name = some extension) :
    Utf8.decode name = Utf8.decode (stem name) ++ '.' :: Utf8.decode extension := by
  conv_lhs => rw [(eq_of_extension? h).1]
  exact Utf8.decode_append_cons _ (by decide) _

/-- A stem before an extension that is text is text if the name is. -/
theorem IsText.bareName (h : IsText name) (hextension : extension? name = some extension)
    (htext : IsText extension) : IsText (bareName name) := by
  unfold Pathname.bareName
  split
  · decide
  · have hname : Utf8.encode (Utf8.decode (stem name)) ++ dot :: extension =
        stem name ++ dot :: extension := by
      conv_rhs => rw [← (eq_of_extension? hextension).1, ← h, decode_of_extension? hextension,
        Utf8.encode_append]
      conv_lhs => rw [← htext]
      rfl
    exact List.append_cancel_right hname

/-- What is shown of a bare name is shown of the name, dots apart. -/
theorem mem_decode_of_bareName (h : extension? name = some extension) {c : Char} (hdot : c ≠ '.')
    (hc : c ∈ Utf8.decode (bareName name)) : c ∈ Utf8.decode name := by
  rw [decode_of_extension? h]
  unfold bareName at hc
  split at hc
  · have hdots : Utf8.decode above = ['.', '.'] := by decide
    rw [hdots] at hc
    exact absurd (by simpa using hc) hdot
  · exact List.mem_append_left _ hc

/-- The names whose stems are one dot and two dots. -/
def DotTwins (name other : Pathname) : Prop :=
  stem name = here ∧ stem other = above ∨ stem name = above ∧ stem other = here

/-- **Bare names tell files with one extension apart**, but for one dot and two dots. -/
theorem eq_of_bareName_eq (hname : extension? name = some extension)
    (hother : extension? other = some extension) (h : bareName name = bareName other) :
    name = other ∨ DotTwins name other := by
  unfold bareName at h
  by_cases hdot : stem name = here
  · by_cases hdot' : stem other = here
    · exact .inl (eq_of_stem_eq hname hother (hdot.trans hdot'.symm))
    · rw [if_pos hdot, if_neg hdot'] at h
      exact .inr (.inl ⟨hdot, h.symm⟩)
  · by_cases hdot' : stem other = here
    · rw [if_neg hdot, if_pos hdot'] at h
      exact .inr (.inr ⟨h, hdot'⟩)
    · rw [if_neg hdot, if_neg hdot'] at h
      exact .inl (eq_of_stem_eq hname hother h)

theorem dropExtension_concat (above : List Pathname) (name : Pathname) :
    dropExtension (above ++ [name]) = above ++ [bareName name] := by
  induction above with
  | nil => rfl
  | cons part above ih =>
    rw [List.cons_append, dropExtension, ih, List.cons_append]
    simp

end Pathname

/-! ### Texts between separators -/

section

variable {α : Type} {c : α}

theorem intercalate_concat_ne_nil (ls : List (List α)) {l : List α} (h : l ≠ []) :
    [c].intercalate (ls ++ [l]) ≠ [] := by
  cases ls with
  | nil => simpa using h
  | cons m ls => simp [List.intercalate_cons_of_ne_nil]

theorem mem_of_mem_intercalate {ls : List (List α)} {x : α} (h : x ∈ [c].intercalate ls) :
    x = c ∨ ∃ l ∈ ls, x ∈ l := by
  induction ls with
  | nil => cases h
  | cons l ls ih =>
    cases ls with
    | nil => exact .inr ⟨l, List.mem_cons_self, by simpa using h⟩
    | cons m ls =>
      rw [List.intercalate_cons_cons, List.append_assoc, List.mem_append, List.mem_append,
        List.mem_singleton] at h
      rcases h with h | h | h
      · exact .inr ⟨l, List.mem_cons_self, h⟩
      · exact .inl h
      · rcases ih h with h | ⟨k, hk, hx⟩
        · exact .inl h
        · exact .inr ⟨k, List.mem_cons_of_mem l hk, hx⟩

variable [DecidableEq α] (c)

theorem splitOn_intercalate_flatMap {ls : List (List α)} (h : ls ≠ []) :
    ([c].intercalate ls).splitOn c = ls.flatMap (List.splitOn c) := by
  induction ls with
  | nil => exact absurd rfl h
  | cons l ls ih =>
    cases ls with
    | nil => simp
    | cons m ls =>
      rw [List.intercalate_cons_cons, List.append_assoc, List.singleton_append,
        List.splitOn_append_cons_self, ih (List.cons_ne_nil m ls), ← List.flatMap_cons]

/-- Joined texts are the same if and only if the texts between all separators are. -/
theorem intercalate_eq_iff {ls ms : List (List α)} (hls : ls ≠ []) (hms : ms ≠ []) :
    [c].intercalate ls = [c].intercalate ms ↔
      ls.flatMap (List.splitOn c) = ms.flatMap (List.splitOn c) := by
  rw [← splitOn_intercalate_flatMap c hls, ← splitOn_intercalate_flatMap c hms]
  constructor
  · intro h
    rw [h]
  · intro h
    have hjoined (l : List α) : [c].intercalate (l.splitOn c) = l := List.intercalate_splitOn c
    rw [← hjoined ([c].intercalate ls), h, hjoined]

end

/-! ### Report names -/

namespace Batch

open Pathname

variable {directory : Pathname} {below other : List Pathname}

/-- What the name of a report keeps of a file: the texts between the underscores. -/
def segments (below : List Pathname) : List (List Char) :=
  (dropExtension below).flatMap fun part => (Utf8.decode part).splitOn '_'

/-- A file of code is the directory itself, or has a name below it with the extension of code. -/
theorem isCode_cases (h : isCode directory below = true) :
    below = [] ∨ ∃ above name, below = above ++ [name] ∧ extension? name = some codeExtension := by
  rcases List.eq_nil_or_concat' below with rfl | ⟨above, name, rfl⟩
  · exact .inl rfl
  · refine .inr ⟨above, name, rfl, ?_⟩
    simpa [isCode, fileName?] using h

theorem toList_reportName (below : List Pathname) : (reportName below).toList =
    ['_'].intercalate ((dropExtension below).map Utf8.decode) ++ ".md".toList := by
  rw [reportName, String.toList_append, String.toList_intercalate, List.map_map]
  have htext : String.toList ∘ Pathname.text = Utf8.decode := by
    funext name
    exact String.toList_ofList
  rw [htext]
  rfl

theorem segments_eq (below : List Pathname) : segments below =
    ((dropExtension below).map Utf8.decode).flatMap (List.splitOn '_') := by
  rw [segments, List.flatMap_map]

theorem segments_concat_ne_nil (above : List Pathname) (name : Pathname) :
    segments (above ++ [name]) ≠ [] := by
  rw [segments, dropExtension_concat, List.flatMap_append, List.flatMap_singleton]
  exact List.append_ne_nil_of_right_ne_nil _ (List.splitOn_ne_nil _ _)

theorem reportName_concat_ne {name : Pathname} (h : extension? name = some codeExtension)
    (above : List Pathname) : reportName (above ++ [name]) ≠ reportName [] := by
  rw [← String.toList_inj.ne, toList_reportName, toList_reportName, dropExtension_concat,
    List.map_append, List.map_singleton]
  refine fun heq => intercalate_concat_ne_nil _ ?_ (List.append_left_inj _ |>.mp heq)
  exact Utf8.decode_ne_nil (bareName_ne_nil h)

/-- **Two files of code have one report name if and only if the texts between underscores are the
same.** -/
theorem reportName_eq_iff (h : isCode directory below = true) (h' : isCode directory other = true) :
    reportName below = reportName other ↔ segments below = segments other := by
  rcases isCode_cases h with rfl | ⟨above, name, rfl, hname⟩
  · rcases isCode_cases h' with rfl | ⟨above', name', rfl, hname'⟩
    · exact ⟨fun _ => rfl, fun _ => rfl⟩
    · exact ⟨fun heq => absurd heq.symm (reportName_concat_ne hname' above'),
        fun heq => absurd heq.symm (segments_concat_ne_nil above' name')⟩
  · rcases isCode_cases h' with rfl | ⟨above', name', rfl, hname'⟩
    · exact ⟨fun heq => absurd heq (reportName_concat_ne hname above),
        fun heq => absurd heq (segments_concat_ne_nil above name)⟩
    · rw [← String.toList_inj, toList_reportName, toList_reportName, List.append_left_inj,
        segments_eq, segments_eq, dropExtension_concat, dropExtension_concat]
      exact intercalate_eq_iff '_' (by simp) (by simp)

/-- All parts of the name are texts without underscores. -/
def IsPlain (below : List Pathname) : Prop :=
  ∀ part ∈ below, IsText part ∧ '_' ∉ Utf8.decode part

instance (below : List Pathname) : Decidable (IsPlain below) := List.decidableBAll _ _

section

variable {above : List Pathname} {name : Pathname} (hname : extension? name = some codeExtension)
include hname

theorem IsPlain.bareName (h : IsPlain (above ++ [name])) : IsPlain (above ++ [bareName name]) := by
  intro part hpart
  rcases List.mem_append.mp hpart with hpart | hpart
  · exact h part (List.mem_append_left _ hpart)
  · obtain rfl := List.mem_singleton.mp hpart
    obtain ⟨htext, hplain⟩ := h name (by simp)
    exact ⟨htext.bareName hname (isText_ofText "bin"),
      fun hmem => hplain (mem_decode_of_bareName hname (by decide) hmem)⟩

theorem segments_of_isPlain (h : IsPlain (above ++ [name])) :
    segments (above ++ [name]) = (above ++ [bareName name]).map Utf8.decode := by
  have hparts : ∀ part ∈ above ++ [bareName name],
      (Utf8.decode part).splitOn '_' = [Utf8.decode part] := fun part hpart =>
    List.splitOn_eq_singleton (h.bareName hname part hpart).2
  rw [segments, dropExtension_concat, List.flatMap_congr hparts, List.map_eq_flatMap]

end

/-- Names that are text can be told from what is shown. -/
theorem IsPlain.eq_of_map_decode_eq (h : IsPlain below) (h' : IsPlain other)
    (heq : below.map Utf8.decode = other.map Utf8.decode) : below = other := by
  have hback {l : List Pathname} (hl : IsPlain l) : (l.map Utf8.decode).map Utf8.encode = l := by
    rw [List.map_map]
    exact (List.map_congr_left fun part hpart => (hl part hpart).1).trans (List.map_id' l)
  rw [← hback h, heq, hback h']

/-- The files are in one directory, and their names have one dot and two dots as stems. -/
def DotTwins (below other : List Pathname) : Prop :=
  ∃ above name name', below = above ++ [name] ∧ other = above ++ [name'] ∧
    Pathname.DotTwins name name'

/-- **Files of code whose names are text without underscores have reports of their own**, but for
those with one dot and two dots before the extension. -/
theorem eq_of_reportName_eq (h : isCode directory below = true) (h' : isCode directory other = true)
    (hplain : IsPlain below) (hplain' : IsPlain other) (heq : reportName below = reportName other) :
    below = other ∨ DotTwins below other := by
  have hsegments := (reportName_eq_iff h h').mp heq
  rcases isCode_cases h with rfl | ⟨above, name, rfl, hname⟩
  · rcases isCode_cases h' with rfl | ⟨above', name', rfl, hname'⟩
    · exact .inl rfl
    · exact absurd hsegments.symm (segments_concat_ne_nil above' name')
  · rcases isCode_cases h' with rfl | ⟨above', name', rfl, hname'⟩
    · exact absurd hsegments (segments_concat_ne_nil above name)
    · rw [segments_of_isPlain hname hplain, segments_of_isPlain hname' hplain'] at hsegments
      have hparts := (hplain.bareName hname).eq_of_map_decode_eq (hplain'.bareName hname') hsegments
      obtain ⟨rfl, hbare⟩ := List.append_inj' hparts rfl
      rcases eq_of_bareName_eq hname hname' (List.singleton_inj.mp hbare) with rfl | htwins
      · exact .inl rfl
      · exact .inr ⟨above, name, name', rfl, rfl, htwins⟩

example : reportName [ofText "x", ofText "..bin"] = reportName [ofText "x", ofText "...bin"] := by
  decide +kernel

/-- Names that are no text can look alike. -/
example : reportName [0xff :: ofText ".bin"] = reportName [0xfe :: ofText ".bin"] := by
  decide +kernel

/-- A report name is the name of a file. -/
theorem isName_reportName (h : isCode directory below = true)
    (hslash : ∀ part ∈ below, slash ∉ part) : IsName (.ofText (reportName below)) := by
  have hlong (cs : List Char) (hcs : cs.length < 3) :
      Pathname.ofText (reportName below) ≠ Utf8.encode cs := by
    intro heq
    rw [← Utf8.encode_injective heq, toList_reportName, List.length_append] at hcs
    exact absurd hcs (Nat.not_lt.mpr (Nat.le_add_left 3 _))
  refine ⟨hlong [] (by decide), hlong ['.'] (by decide), hlong ['.', '.'] (by decide), ?_⟩
  intro hmem
  have hmem : '/' ∈ (reportName below).toList := Utf8.mem_of_mem_encode (by decide) hmem
  rw [toList_reportName, List.mem_append] at hmem
  rcases hmem with hmem | hmem
  · rcases mem_of_mem_intercalate hmem with hunderscore | ⟨chars, hchars, hslash'⟩
    · exact absurd hunderscore (by decide)
    · obtain ⟨part, hpart, rfl⟩ := List.mem_map.mp hchars
      have hbyte : slash ∈ part := Utf8.mem_of_mem_decode (by decide) hslash'
      rcases isCode_cases h with rfl | ⟨above, name, rfl, hname⟩
      · cases hpart
      · rw [dropExtension_concat] at hpart
        rcases List.mem_append.mp hpart with hpart | hpart
        · exact hslash part (List.mem_append_left _ hpart) hbyte
        · obtain rfl := List.mem_singleton.mp hpart
          exact hslash name (by simp) (mem_of_mem_bareName hname hbyte)
  · exact absurd hmem (by decide)

end Batch

end GuardFinder

import GuardFinder.Proofs.LossyText
import GuardFinder.Target
import Mathlib.Data.List.Forall2

/-!
# Texts of bytecode

The same bytes can be written down in many ways: each digit in either case, any number of `0x` in
front, and blanks anywhere, even inside a mark. All these texts are read back as the bytes. There is
one more text for the same bytes, with a `0X` behind the other marks, and it may stand there alone:
then it is read as no bytes at all. Whatever else is in a text, it is refused.

* `Hex.Spells`: characters that are the digits of bytes. `Bytecode.decode_encode_iff`: just these are
  decoded.
* `Text.Spaced`: blanks between characters. `Bytecode.marks`: the marks in front.
* `Bytecode.ofText_eq_ok_iff`: **the texts that are read as given bytes**.
* `Bytecode.ofText_spelled`: how to write bytes, and what is left of a text that was read.
-/

namespace GuardFinder

/-! ### Digits -/

namespace Hex

/-- The values of the digits of bytes. -/
def nibbles (bytes : Bytes) : List Nat := bytes.flatMap fun b => [b.toNat / 16, b.toNat % 16]

/-- Characters that are the digits of bytes, each in lower or in upper case. -/
def Spells (cs : List Char) (bytes : Bytes) : Prop :=
  List.Forall₂ (fun c d => c = d ∨ c = d.toUpper) cs (digits bytes)

theorem digits_eq (bytes : Bytes) : digits bytes = (nibbles bytes).map digit := by
  rw [nibbles, List.map_flatMap]
  rfl

theorem nibbles_cons (b : UInt8) (bytes : Bytes) :
    nibbles (b :: bytes) = b.toNat / 16 :: b.toNat % 16 :: nibbles bytes := rfl

theorem length_nibbles (bytes : Bytes) : (nibbles bytes).length = 2 * bytes.length := by
  induction bytes with
  | nil => rfl
  | cons b bytes ih =>
    rw [nibbles_cons, List.length_cons, List.length_cons, ih, List.length_cons]
    omega

theorem lt_of_mem_nibbles {bytes : Bytes} {n : Nat} (h : n ∈ nibbles bytes) : n < 16 := by
  obtain ⟨b, -, hn⟩ := List.mem_flatMap.mp h
  have hb := b.toNat_lt
  simp only [List.mem_cons, List.not_mem_nil, or_false] at hn
  omega

/-- A digit in either case is an ASCII character with the value of the digit. -/
theorem value?_digit {n : Nat} (hn : n < 16) {c : Char}
    (hc : c = digit n ∨ c = (digit n).toUpper) :
    c.toNat < 128 ∧ value? (UInt8.ofNat c.toNat) = some n := by
  have hall : ∀ n : Fin 16, ∀ c, c = digit n ∨ c = (digit n).toUpper →
      c.toNat < 128 ∧ value? (UInt8.ofNat c.toNat) = some n.val := by
    simp only [forall_eq_or_imp, forall_eq]
    decide +kernel
  exact hall ⟨n, hn⟩ c hc

/-- A byte with a value is a digit in one of the cases. -/
theorem eq_digit_of_value? {b : UInt8} {n : Nat} (h : value? b = some n) :
    b.toNat < 128 ∧ n < 16 ∧
      (Char.ofNat b.toNat = digit n ∨ Char.ofNat b.toNat = (digit n).toUpper) := by
  have hall : ∀ k : Fin 256, (value? (UInt8.ofNat k)).all fun n => k.val < 128 ∧ n < 16 ∧
      (Char.ofNat k = digit n ∨ Char.ofNat k = (digit n).toUpper) := by decide +kernel
  have hb := hall ⟨b.toNat, b.toNat_lt⟩
  rw [UInt8.ofNat_toNat, h, Option.all_some] at hb
  simpa using hb

/-- **Pairs of digits are decoded to the bytes with these digits**, and nothing else is decoded. -/
theorem decodePairs_eq_ok_iff {position : Nat} {text bytes : Bytes} :
    decodePairs position text = .ok bytes ↔ text.map value? = (nibbles bytes).map some := by
  fun_induction decodePairs position text generalizing bytes with
  | case1 position high low rest hhigh => cases bytes <;> simp [nibbles, hhigh]
  | case2 position high low rest h hlow hhigh => cases bytes <;> simp [nibbles, hlow]
  | case3 position high low rest h l hhigh hlow ih =>
    cases bytes with
    | nil => cases decodePairs (position + 2) rest <;> simp [Except.map, nibbles]
    | cons b bytes =>
      have hh := (eq_digit_of_value? hhigh).2.1
      have hl := (eq_digit_of_value? hlow).2.1
      have hbyte : UInt8.ofNat (16 * h + l) = b ↔ h = b.toNat / 16 ∧ l = b.toNat % 16 := by
        rw [← UInt8.toNat_inj, UInt8.toNat_ofNat']
        omega
      rw [nibbles_cons]
      simp only [List.map_cons, hhigh, hlow, List.cons.injEq, Option.some.injEq, ← ih, ← and_assoc,
        ← hbyte]
      cases decodePairs (position + 2) rest <;> simp [Except.map]
  | case4 position b => cases bytes <;> simp [nibbles]
  | case5 position => cases bytes <;> simp [nibbles]

theorem decode_eq_ok_iff {text bytes : Bytes} :
    decode text = .ok bytes ↔ text.map value? = (nibbles bytes).map some := by
  unfold decode
  split
  · exact decodePairs_eq_ok_iff
  · next hodd =>
    refine ⟨fun h => ?_, fun h => absurd ?_ hodd⟩
    · cases h
    · have hlength := congrArg List.length h
      rw [List.length_map, List.length_map, length_nibbles] at hlength
      omega

/-- The characters of a spelling: they are neither blanks nor parts of marks, but for a zero, and
differ from the digits in their case only. -/
theorem Spells.chars {cs : List Char} {bytes : Bytes} (h : Spells cs bytes) :
    (∀ c ∈ cs, Text.isBlank c = false ∧ c ≠ 'x' ∧ c ≠ 'X') ∧
      cs.map Char.toLower = digits bytes := by
  have hall : ∀ n : Fin 16, ∀ c, c = digit n ∨ c = (digit n).toUpper →
      (Text.isBlank c = false ∧ c ≠ 'x' ∧ c ≠ 'X') ∧ c.toLower = digit n := by
    simp only [forall_eq_or_imp, forall_eq]
    decide +kernel
  have hvalues : ∀ n ∈ nibbles bytes, n < 16 := fun n => lt_of_mem_nibbles
  rw [Spells, digits_eq, List.forall₂_map_right_iff] at h
  rw [digits_eq, ← List.forall₂_eq_eq_eq, List.forall₂_map_left_iff, List.forall₂_map_right_iff,
    ← List.forall₂_and_left]
  generalize nibbles bytes = values at h hvalues ⊢
  induction h with
  | nil => exact .nil
  | cons heq _ ih =>
    have hn := hvalues _ List.mem_cons_self
    exact .cons (hall ⟨_, hn⟩ _ heq) (ih fun m hm => hvalues m (List.mem_cons_of_mem _ hm))

end Hex

/-! ### Bytes of characters -/

namespace Bytecode

/-- A character beyond ASCII starts with a byte that is no digit. -/
theorem utf8EncodeChar_of_ge {c : Char} (h : 128 ≤ c.toNat) :
    ∃ b bs, String.utf8EncodeChar c = b :: bs ∧ Hex.value? b = none := by
  obtain ⟨b, bs, hbytes⟩ := List.exists_cons_of_length_pos (l := String.utf8EncodeChar c)
    (by rw [String.length_utf8EncodeChar]; exact c.utf8Size_pos)
  have hb := Utf8.le_of_mem_utf8EncodeChar h (hbytes ▸ List.mem_cons_self : b ∈ _)
  refine ⟨b, bs, hbytes, Option.eq_none_iff_forall_ne_some.mpr fun n hn => ?_⟩
  have := (Hex.eq_digit_of_value? hn).1
  omega

theorem value?_eq_some_iff {c : Char} (hc : c.toNat < 128) {n : Nat} (hn : n < 16) :
    Hex.value? (UInt8.ofNat c.toNat) = some n ↔ c = Hex.digit n ∨ c = (Hex.digit n).toUpper := by
  refine ⟨fun h => ?_, fun h => (Hex.value?_digit hn h).2⟩
  have hbyte : (UInt8.ofNat c.toNat).toNat = c.toNat := by
    rw [UInt8.toNat_ofNat']
    omega
  obtain ⟨-, -, heq⟩ := Hex.eq_digit_of_value? h
  rwa [hbyte, Char.ofNat_toNat] at heq

/-- Characters whose bytes have values are digits, one for each value. -/
theorem map_value?_encode_iff {cs : List Char} {values : List Nat} (h : ∀ n ∈ values, n < 16) :
    (Utf8.encode cs).map Hex.value? = values.map some ↔
      List.Forall₂ (fun c n => c = Hex.digit n ∨ c = (Hex.digit n).toUpper) cs values := by
  unfold Utf8.encode at *
  induction cs generalizing values with
  | nil => cases values <;> simp
  | cons c cs ih =>
    rw [List.flatMap_cons]
    cases values with
    | nil =>
      by_cases hc : c.toNat < 128
      · simp [Utf8.utf8EncodeChar_of_lt hc]
      · obtain ⟨b, bs, hbytes, -⟩ := utf8EncodeChar_of_ge (Nat.le_of_not_lt hc)
        simp [hbytes]
    | cons n values =>
      have hn := h n List.mem_cons_self
      rw [List.forall₂_cons, ← ih fun m hm => h m (List.mem_cons_of_mem _ hm)]
      by_cases hc : c.toNat < 128
      · simp [Utf8.utf8EncodeChar_of_lt hc, value?_eq_some_iff hc hn]
      · -- the character has a byte that is no digit, and is none itself
        obtain ⟨b, bs, hbytes, hb⟩ := utf8EncodeChar_of_ge (Nat.le_of_not_lt hc)
        simp only [hbytes, List.cons_append, List.map_cons, hb, List.cons.injEq, reduceCtorEq,
          false_and, false_iff]
        rintro ⟨hdigit, -⟩
        exact hc (Hex.value?_digit hn hdigit).1

/-- **A text is decoded to the bytes whose digits it has**, in whatever cases. -/
theorem decode_encode_iff {cs : List Char} {bytes : Bytes} :
    Hex.decode (Utf8.encode cs) = .ok bytes ↔ Hex.Spells cs bytes := by
  rw [Hex.decode_eq_ok_iff, map_value?_encode_iff fun _ => Hex.lt_of_mem_nibbles, Hex.Spells,
    Hex.digits_eq, List.forall₂_map_right_iff]

end Bytecode

/-! ### Blanks and marks -/

namespace Text

/-- Characters with blanks put anywhere between them. -/
inductive Spaced : List Char → List Char → Prop
  | nil : Spaced [] []
  | blank {c : Char} {cs ds : List Char} (blank : isBlank c = true) (h : Spaced cs ds) :
    Spaced cs (c :: ds)
  | char (c : Char) {cs ds : List Char} (h : Spaced cs ds) : Spaced (c :: cs) (c :: ds)

theorem Spaced.filter_eq {cs ds : List Char} (h : Spaced cs ds) :
    ds.filter (!isBlank ·) = cs.filter (!isBlank ·) := by
  induction h with
  | nil => rfl
  | blank hblank _ ih =>
    rw [List.filter_cons, hblank, ih]
    rfl
  | char c _ ih => rw [List.filter_cons, List.filter_cons, ih]

end Text

namespace Bytecode

/-- A number of marks `0x`. -/
def marks (n : Nat) : List Char := (List.replicate n ['0', 'x']).flatten

/-- Drops one `0X` at the front. -/
def dropUpperMark : List Char → List Char
  | '0' :: 'X' :: rest => rest
  | cs => cs

theorem marks_succ (n : Nat) (cs : List Char) :
    marks (n + 1) ++ cs = '0' :: 'x' :: (marks n ++ cs) := by
  rw [marks, List.replicate_succ, List.flatten_cons]
  rfl

theorem dropMarks_append (n : Nat) (cs : List Char) : dropMarks (marks n ++ cs) = dropMarks cs := by
  induction n with
  | zero => rfl
  | succ n ih => rw [marks_succ, dropMarks, ih]

theorem dropMarks_of_not {cs : List Char} (h : ¬['0', 'x'] <+: cs) : dropMarks cs = cs := by
  unfold dropMarks
  split
  · next rest => exact absurd ⟨rest, rfl⟩ h
  · rfl

/-- Marks are dropped until there is none. -/
theorem exists_marks (cs : List Char) :
    ∃ n, cs = marks n ++ dropMarks cs ∧ ¬['0', 'x'] <+: dropMarks cs := by
  fun_induction dropMarks cs with
  | case1 rest ih =>
    obtain ⟨n, hrest, hnot⟩ := ih
    exact ⟨n + 1, by rw [marks_succ, ← hrest], hnot⟩
  | case2 cs hcs =>
    refine ⟨0, rfl, ?_⟩
    rintro ⟨rest, rfl⟩
    exact hcs rest rfl

theorem dropMark_of_not {cs : List Char} (h : ¬['0', 'x'] <+: cs) :
    dropMark cs = dropUpperMark cs := by
  unfold dropMark
  split
  · next rest => exact absurd ⟨rest, rfl⟩ h
  · rfl
  · next hupper =>
    unfold dropUpperMark
    split
    · exact absurd rfl (hupper _)
    · rfl

theorem filter_marks (n : Nat) : (marks n).filter (!Text.isBlank ·) = marks n := by
  refine List.filter_eq_self.mpr fun c hc => ?_
  obtain ⟨mark, hmark, hc⟩ := List.mem_flatten.mp hc
  rw [List.eq_of_mem_replicate hmark, List.mem_cons, List.mem_singleton] at hc
  rcases hc with rfl | rfl <;> decide

/-! ### Texts -/

/-- **The texts that are read as given bytes**: blanks removed, there are any number of marks, then
perhaps one `0X`, and then the digits of the bytes. -/
theorem ofText_eq_ok_iff {text : String} {bytes : Bytes} :
    ofText text = .ok bytes ↔ ∃ n rest,
      text.toList.filter (!Text.isBlank ·) = marks n ++ rest ∧ ¬['0', 'x'] <+: rest ∧ rest ≠ [] ∧
        Hex.Spells (dropUpperMark rest) bytes := by
  have hread {rest : List Char}
      (hdrop : dropMarks (text.toList.filter (!Text.isBlank ·)) = rest)
      (hnot : ¬['0', 'x'] <+: rest) :
      ofText text = .ok bytes ↔ rest ≠ [] ∧ Hex.Spells (dropUpperMark rest) bytes := by
    unfold ofText
    rw [hdrop, ← dropMark_of_not hnot, ← decode_encode_iff]
    cases rest with
    | nil => simp
    | cons c cs =>
      simp only [ne_eq, reduceCtorEq, not_false_eq_true, true_and]
      cases Hex.decode (Utf8.encode (dropMark (c :: cs))) <;> simp [Except.mapError]
  constructor
  · intro h
    obtain ⟨n, hcs, hnot⟩ := exists_marks (text.toList.filter (!Text.isBlank ·))
    exact ⟨n, _, hcs, hnot, (hread rfl hnot).mp h⟩
  · rintro ⟨n, rest, hcs, hnot, hrest⟩
    refine (hread ?_ hnot).mpr hrest
    rw [hcs, dropMarks_append, dropMarks_of_not hnot]

/-- Digits have no mark in front. -/
theorem not_mark_of_spells {cs : List Char} {bytes : Bytes} (h : Hex.Spells cs bytes) :
    ¬['0', 'x'] <+: cs ∧ dropUpperMark cs = cs := by
  refine ⟨?_, ?_⟩
  · rintro ⟨rest, rfl⟩
    exact (h.chars.1 'x' (by simp)).2.1 rfl
  · unfold dropUpperMark
    split
    · exact absurd rfl (h.chars.1 'X' (by simp)).2.2
    · rfl

theorem code_ne_nil_of_resolve {creation runtime : Option Bytes} {address : Option Address}
    {target : Target} (h : Target.resolve creation address runtime = .ok target) :
    target.code ≠ [] := by
  unfold Target.resolve at h
  repeat' split at h
  all_goals cases h
  all_goals simp_all [Target.code]

/-- **Bytes can be read back from all their texts, and a text that is read has nothing else in
it.** The digits of bytes may be written in either case, behind any number of `0x`, with blanks
anywhere. A text that is read as bytes has their digits, when blanks, every `0x` at the front and
one `0X` behind them are taken away. No target has empty code. -/
theorem ofText_spelled :
    (∀ (bytes : Bytes) (n : Nat) (cs : List Char) (text : String), bytes ≠ [] →
      Hex.Spells cs bytes → Text.Spaced (marks n ++ cs) text.toList → ofText text = .ok bytes) ∧
    (∀ (text : String) (bytes : Bytes), ofText text = .ok bytes →
      ∃ n rest, text.toList.filter (!Text.isBlank ·) = marks n ++ rest ∧ ¬['0', 'x'] <+: rest ∧
        (dropUpperMark rest).map Char.toLower = Hex.digits bytes) ∧
    (∀ (text : String) (target : Target), Target.creationText text = .ok target →
      target.code ≠ []) ∧
    ∀ (address : Address) (text : String) (target : Target),
      Target.deployedText address text = .ok target → target.code ≠ [] := by
  refine ⟨?_, ?_, ?_, ?_⟩
  · intro bytes n cs text hbytes hcs htext
    obtain ⟨hnot, hdrop⟩ := not_mark_of_spells hcs
    have hblanks : cs.filter (!Text.isBlank ·) = cs :=
      List.filter_eq_self.mpr fun c hc => by rw [(hcs.chars.1 c hc).1]; rfl
    have hne : cs ≠ [] := by
      rintro rfl
      obtain ⟨b, bytes, rfl⟩ := List.exists_cons_of_ne_nil hbytes
      cases hcs
    refine ofText_eq_ok_iff.mpr ⟨n, cs, ?_, hnot, hne, hdrop.symm ▸ hcs⟩
    rw [htext.filter_eq, List.filter_append, filter_marks, hblanks]
  · intro text bytes h
    obtain ⟨n, rest, hcs, hnot, -, hspells⟩ := ofText_eq_ok_iff.mp h
    exact ⟨n, rest, hcs, hnot, hspells.chars.2⟩
  · intro text target h
    unfold Target.creationText at h
    split at h
    · exact code_ne_nil_of_resolve h
    · cases h
  · intro address text target h
    unfold Target.deployedText at h
    split at h
    · exact code_ne_nil_of_resolve h
    · cases h

/-- A mark may be interrupted by blanks, and the last one may be `0X`. -/
theorem ofText_spelled_marks :
    ofText "0x0 x6a\n F0" = .ok [0x6a, 0xf0] ∧
    (ofText "0x0X6A" = .ok [0x6a] ∧
      ∃ n rest, "0x0X6A".toList.filter (!Text.isBlank ·) = marks n ++ rest ∧
        ¬['0', 'x'] <+: rest ∧ (dropUpperMark rest).map Char.toLower = ['6', 'a']) ∧
    (Target.creationText "0x0X6A" = .ok (.creation [0x6a]) ∧ (Target.creation [0x6a]).code ≠ []) ∧
    Target.deployedText ⟨7⟩ "6a" = .ok (.deployed ⟨7⟩ [0x6a]) ∧
      (Target.deployed ⟨7⟩ [0x6a]).code ≠ [] := by
  obtain ⟨hread, hshape, hcreation, hdeployed⟩ := ofText_spelled
  have hspells : Hex.Spells ['6', 'a', 'F', '0'] [0x6a, 0xf0] :=
    .cons (.inl rfl) (.cons (.inl rfl) (.cons (.inr rfl) (.cons (.inl rfl) .nil)))
  have hspaced : Text.Spaced (marks 2 ++ ['6', 'a', 'F', '0']) "0x0 x6a\n F0".toList :=
    .char '0' (.char 'x' (.char '0' (.blank (by decide) (.char 'x' (.char '6' (.char 'a'
      (.blank (by decide) (.blank (by decide) (.char 'F' (.char '0' .nil))))))))))
  have hmarked : ofText "0x0X6A" = .ok [0x6a] := by decide +kernel
  have htarget : Target.creationText "0x0X6A" = .ok (.creation [0x6a]) := by decide +kernel
  have htarget' : Target.deployedText ⟨7⟩ "6a" = .ok (.deployed ⟨7⟩ [0x6a]) := by decide +kernel
  exact ⟨hread _ 2 _ _ (by decide) hspells hspaced, ⟨hmarked, hshape _ _ hmarked⟩,
    ⟨htarget, hcreation _ _ htarget⟩, htarget', hdeployed _ _ _ htarget'⟩

/-- Without digits behind it, `0X` stands for no bytes, which is no code to create a contract
with. -/
example : ofText "0X" = .ok [] ∧
    Target.creationText "0X" = .error (.invalidBytecode .emptyCreation) := by decide +kernel

end Bytecode

end GuardFinder

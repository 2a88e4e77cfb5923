import GuardFinder.Text.Utf8
import Mathlib.Algebra.Group.Nat.Defs
import Mathlib.Data.List.Basic

/-!
# Reading bytes as text

Any bytes can be read as text, at the price of marks for what is none. Text comes back as it was,
and bytes of ASCII are characters of their own wherever they stand: they end a character that has
begun.

* `Utf8.decode_encode`: **the bytes of a text are read as the text**.
* `Utf8.decode_append_cons`: bytes are read on both sides of a byte of ASCII.
* `Utf8.mem_of_mem_decode`: a character of ASCII is read only where its byte stands.
-/

namespace GuardFinder.Utf8

/-! ### Bytes of text -/

theorem encode_append (cs ds : List Char) : encode (cs ++ ds) = encode cs ++ encode ds :=
  List.flatMap_append

theorem toNat_ofNat_of_lt {n : Nat} (h : n < 256) : (UInt8.ofNat n).toNat = n := by
  rw [UInt8.toNat_ofNat']
  omega

theorem toNat_char_cases (n : Nat) : (Char.ofNat n).toNat = n ∨ (Char.ofNat n).toNat = 0 := by
  by_cases hvalid : n.isValidChar
  · rw [Char.ofNat, dif_pos hvalid]
    exact .inl rfl
  · rw [Char.ofNat, dif_neg hvalid]
    exact .inr rfl

theorem toNat_char_of_lt {n : Nat} (h : n < 0x80) : (Char.ofNat n).toNat = n := by
  rw [Char.ofNat, dif_pos (.inl (by omega))]
  rfl

/-- A character of ASCII is one byte. -/
theorem utf8EncodeChar_of_lt {c : Char} (h : c.toNat < 0x80) :
    String.utf8EncodeChar c = [UInt8.ofNat c.toNat] := by
  have hval : c.val.toNat = c.toNat := rfl
  simp only [String.utf8EncodeChar, hval]
  rw [if_pos (by omega)]

/-- No byte of another character is one of ASCII. -/
theorem le_of_mem_utf8EncodeChar {c : Char} (h : 0x80 ≤ c.toNat) {b : UInt8}
    (hb : b ∈ String.utf8EncodeChar c) : 0x80 ≤ b.toNat := by
  have hval : c.val.toNat = c.toNat := rfl
  simp only [String.utf8EncodeChar, hval] at hb
  rw [if_neg (by omega)] at hb
  have hbyte {n : Nat} (hn : 0x80 ≤ n ∧ n < 256) : 0x80 ≤ (UInt8.ofNat n).toNat := by
    rw [toNat_ofNat_of_lt hn.2]
    exact hn.1
  split_ifs at hb <;> simp only [List.mem_cons, List.not_mem_nil, or_false] at hb
  · rcases hb with rfl | rfl <;> exact hbyte (by omega)
  · rcases hb with rfl | rfl | rfl <;> exact hbyte (by omega)
  · rcases hb with rfl | rfl | rfl | rfl <;> exact hbyte (by omega)

/-- What the first byte of a character of several bytes begins. -/
def begun (n : Nat) : Pending :=
  if n < 0xe0 then { bits := n % 32, missing := 0 }
  else if n < 0xf0 then
    { bits := n % 16, missing := 1
      low := if n = 0xe0 then 0xa0 else 0x80
      high := if n = 0xed then 0x9f else 0xbf }
  else
    { bits := n % 8, missing := 2
      low := if n = 0xf0 then 0x90 else 0x80
      high := if n = 0xf4 then 0x8f else 0xbf }

/-- **What a byte is at the start of a character**: an ASCII character, a beginning, or no text. -/
theorem start_eq (b : UInt8) :
    start b =
      if b.toNat < 0x80 then ([Char.ofNat b.toNat], none)
      else if b.toNat < 0xc2 ∨ 0xf5 ≤ b.toNat then ([mark], none)
      else ([], some (begun b.toNat)) := by
  unfold start begun
  dsimp only
  split_ifs <;> rfl

theorem decodeFrom_none {n : Nat} (h : 0xc2 ≤ n) (h' : n < 0xf5) (rest : Bytes) :
    decodeFrom none (UInt8.ofNat n :: rest) = decodeFrom (some (begun n)) rest := by
  rw [decodeFrom, step, start_eq, toNat_ofNat_of_lt (by omega), if_neg (by omega),
    if_neg (by omega), List.nil_append]

section

variable {p : Pending} {n : Nat} (hlow : p.low ≤ n) (hhigh : n ≤ p.high) (hbyte : n < 256)
include hlow hhigh hbyte

/-- The last byte of a character. -/
theorem decodeFrom_last (hlast : p.missing = 0) (rest : Bytes) :
    decodeFrom (some p) (UInt8.ofNat n :: rest) =
      Char.ofNat (64 * p.bits + n % 64) :: decodeFrom none rest := by
  simp only [decodeFrom, step, toNat_ofNat_of_lt hbyte, if_pos (And.intro hlow hhigh), hlast]
  rfl

/-- A byte of a character that goes on. -/
theorem decodeFrom_next {k : Nat} (hnext : p.missing = k + 1) (rest : Bytes) :
    decodeFrom (some p) (UInt8.ofNat n :: rest) =
      decodeFrom (some { bits := 64 * p.bits + n % 64, missing := k }) rest := by
  simp only [decodeFrom, step, toNat_ofNat_of_lt hbyte, if_pos (And.intro hlow hhigh), hnext]
  rfl

end

section

variable {v : Nat} (rest : Bytes)

theorem decodeFrom_two (h : 127 < v) (h' : v ≤ 2047) :
    decodeFrom none (UInt8.ofNat (v / 64 % 32 + 192) :: UInt8.ofNat (v % 64 + 128) :: rest) =
      Char.ofNat v :: decodeFrom none rest := by
  have hbegun : begun (v / 64 % 32 + 192) = { bits := v / 64, missing := 0 } := by
    rw [begun, if_pos (by omega)]
    congr 1
    omega
  have hv : 64 * (v / 64) + (v % 64 + 128) % 64 = v := by omega
  rw [decodeFrom_none (by omega) (by omega), hbegun,
    decodeFrom_last (show 0x80 ≤ _ by omega) (show _ ≤ 0xbf by omega) (by omega) rfl, hv]

theorem decodeFrom_three (h : 2047 < v) (h' : v ≤ 65535) (hvalid : v < 0xd800 ∨ 0xdfff < v) :
    decodeFrom none (UInt8.ofNat (v / 4096 % 16 + 224) :: UInt8.ofNat (v / 64 % 64 + 128) ::
      UInt8.ofNat (v % 64 + 128) :: rest) = Char.ofNat v :: decodeFrom none rest := by
  have hbegun : begun (v / 4096 % 16 + 224) =
      { bits := v / 4096, missing := 1
        low := if v < 4096 then 0xa0 else 0x80
        high := if v / 4096 = 13 then 0x9f else 0xbf } := by
    rw [begun, if_neg (by omega), if_pos (by omega)]
    congr 1
    · omega
    · exact if_congr (by omega) rfl rfl
    · exact if_congr (by omega) rfl rfl
  have hv : 64 * (64 * (v / 4096) + (v / 64 % 64 + 128) % 64) + (v % 64 + 128) % 64 = v := by
    omega
  rw [decodeFrom_none (by omega) (by omega), hbegun,
    decodeFrom_next (by dsimp only; split <;> omega) (by dsimp only; split <;> omega) (by omega)
      rfl,
    decodeFrom_last (show 0x80 ≤ _ by omega) (show _ ≤ 0xbf by omega) (by omega) rfl, hv]

theorem decodeFrom_four (h : 65535 < v) (h' : v < 0x110000) :
    decodeFrom none (UInt8.ofNat (v / 262144 % 8 + 240) :: UInt8.ofNat (v / 4096 % 64 + 128) ::
      UInt8.ofNat (v / 64 % 64 + 128) :: UInt8.ofNat (v % 64 + 128) :: rest) =
      Char.ofNat v :: decodeFrom none rest := by
  have hbegun : begun (v / 262144 % 8 + 240) =
      { bits := v / 262144, missing := 2
        low := if v < 262144 then 0x90 else 0x80
        high := if v / 262144 = 4 then 0x8f else 0xbf } := by
    rw [begun, if_neg (by omega), if_neg (by omega)]
    congr 1
    · omega
    · exact if_congr (by omega) rfl rfl
    · exact if_congr (by omega) rfl rfl
  have hv : 64 * (64 * (64 * (v / 262144) + (v / 4096 % 64 + 128) % 64) +
      (v / 64 % 64 + 128) % 64) + (v % 64 + 128) % 64 = v := by
    omega
  rw [decodeFrom_none (by omega) (by omega), hbegun,
    decodeFrom_next (by dsimp only; split <;> omega) (by dsimp only; split <;> omega) (by omega)
      rfl,
    decodeFrom_next (show 0x80 ≤ _ by omega) (show _ ≤ 0xbf by omega) (by omega) rfl,
    decodeFrom_last (show 0x80 ≤ _ by omega) (show _ ≤ 0xbf by omega) (by omega) rfl, hv]

end

/-- **The bytes of a character are read as the character.** -/
theorem decodeFrom_utf8EncodeChar (c : Char) (rest : Bytes) :
    decodeFrom none (String.utf8EncodeChar c ++ rest) = c :: decodeFrom none rest := by
  have hvalid : c.toNat < 0xd800 ∨ 0xdfff < c.toNat ∧ c.toNat < 0x110000 := c.valid
  have hchar : Char.ofNat c.toNat = c := c.ofNat_toNat
  have hval : c.val.toNat = c.toNat := rfl
  simp only [String.utf8EncodeChar, hval]
  generalize c.toNat = v at *
  subst hchar
  split
  · rw [List.singleton_append, decodeFrom, step, start_eq, toNat_ofNat_of_lt (by omega),
      if_pos (by omega)]
    rfl
  · split
    · exact decodeFrom_two rest (by omega) (by omega)
    · split
      · exact decodeFrom_three rest (by omega) (by omega) (by omega)
      · exact decodeFrom_four rest (by omega) (by omega)

/-- **The bytes of a text are read as the text.** -/
theorem decode_encode (cs : List Char) : decode (encode cs) = cs := by
  induction cs with
  | nil => rfl
  | cons c cs ih =>
    rw [encode, List.flatMap_cons, decode, decodeFrom_utf8EncodeChar]
    exact congrArg (c :: ·) ih

theorem encode_injective : Function.Injective encode :=
  Function.LeftInverse.injective decode_encode

/-- A character that has begun is read, or a mark for it. -/
theorem decodeFrom_some_ne_nil (p : Pending) (bytes : Bytes) : decodeFrom (some p) bytes ≠ [] := by
  induction bytes generalizing p with
  | nil => exact List.cons_ne_nil _ _
  | cons b rest ih =>
    rw [decodeFrom, step]
    split
    · dsimp only
      split
      · exact List.cons_ne_nil _ _
      · exact ih _
    · exact List.cons_ne_nil _ _

/-- Something is read of every byte. -/
theorem decode_ne_nil {bytes : Bytes} (h : bytes ≠ []) : decode bytes ≠ [] := by
  cases bytes with
  | nil => exact absurd rfl h
  | cons b rest =>
    rw [decode, decodeFrom, step, start_eq]
    split
    · exact List.cons_ne_nil _ _
    · split
      · exact List.cons_ne_nil _ _
      · exact decodeFrom_some_ne_nil _ rest

/-! ### Bytes of ASCII -/

/-- What holds of every character that has begun: the next byte is none of ASCII, and the character
will be none. -/
structure Pending.Beyond (p : Pending) : Prop where
  low : 0x80 ≤ p.low
  high : p.high ≤ 0xbf
  code : 0x80 ≤ 64 ^ p.missing * (64 * p.bits + p.low % 64)

theorem beyond_begun {n : Nat} (h : 0xc2 ≤ n) (h' : n < 0xf5) : (begun n).Beyond := by
  unfold begun
  split
  · exact ⟨Nat.le_refl _, Nat.le_refl _, by dsimp only; omega⟩
  · split
    · refine ⟨?_, ?_, ?_⟩ <;> dsimp only <;> split <;> omega
    · refine ⟨?_, ?_, ?_⟩ <;> dsimp only <;> split <;> omega

theorem beyond_of_start {b : UInt8} {p : Pending} (h : (start b).2 = some p) : p.Beyond := by
  rw [start_eq] at h
  split at h
  · cases h
  · split at h
    · cases h
    · obtain rfl := Option.some.inj h
      exact beyond_begun (by omega) (by omega)

/-- **A step leaves a character that goes on beyond ASCII.** -/
theorem beyond_of_step {p : Option Pending} (hp : ∀ q ∈ p, q.Beyond) {b : UInt8} {q : Pending}
    (h : (step p b).2 = some q) : q.Beyond := by
  cases p with
  | none => exact beyond_of_start h
  | some p =>
    obtain ⟨hlow, hhigh, hcode⟩ := hp p rfl
    rw [step] at h
    split at h
    · next hbyte =>
      dsimp only at h
      split at h
      · cases h
      · next k hk =>
        obtain rfl := Option.some.inj h
        rw [hk] at hcode
        refine ⟨Nat.le_refl _, Nat.le_refl _, ?_⟩
        have hbits : 64 * p.bits + p.low % 64 ≤ 64 * p.bits + b.toNat % 64 := by omega
        show 0x80 ≤ 64 ^ k * (64 * (64 * p.bits + b.toNat % 64) + 0x80 % 64)
        calc 0x80 ≤ 64 ^ (k + 1) * (64 * p.bits + p.low % 64) := hcode
          _ ≤ 64 ^ (k + 1) * (64 * p.bits + b.toNat % 64) := Nat.mul_le_mul_left _ hbits
          _ = 64 ^ k * (64 * (64 * p.bits + b.toNat % 64)) := by rw [Nat.pow_succ, Nat.mul_assoc]
    · exact beyond_of_start h

/-- A byte of ASCII is a character. One that has begun ends before it with a mark. -/
theorem step_ascii {p : Option Pending} (hp : ∀ q ∈ p, q.Beyond) {b : UInt8}
    (hb : b.toNat < 0x80) :
    step p b = ((if p.isSome then [mark] else []) ++ [Char.ofNat b.toNat], none) := by
  have hstart : start b = ([Char.ofNat b.toNat], none) := by rw [start_eq, if_pos hb]
  cases p with
  | none => exact hstart
  | some p =>
    have hlow := (hp p rfl).low
    rw [step, if_neg (by omega), hstart]
    rfl

/-- **Bytes are read on both sides of a byte of ASCII.** -/
theorem decodeFrom_append_cons {p : Option Pending} (hp : ∀ q ∈ p, q.Beyond) (before : Bytes)
    {b : UInt8} (hb : b.toNat < 0x80) (after : Bytes) :
    decodeFrom p (before ++ b :: after) =
      decodeFrom p before ++ Char.ofNat b.toNat :: decodeFrom none after := by
  induction before generalizing p with
  | nil =>
    rw [List.nil_append, decodeFrom.eq_2, step_ascii hp hb, decodeFrom.eq_1, List.append_assoc,
      List.singleton_append]
  | cons x before ih =>
    rw [List.cons_append, decodeFrom, decodeFrom, ih fun q hq => beyond_of_step hp hq,
      List.append_assoc]

theorem decode_append_cons (before : Bytes) {b : UInt8} (hb : b.toNat < 0x80) (after : Bytes) :
    decode (before ++ b :: after) = decode before ++ Char.ofNat b.toNat :: decode after :=
  decodeFrom_append_cons (p := none) (fun _ hq => absurd hq (Option.not_mem_none _)) before hb after

/-- A character of ASCII, which is not made where a code is no character. -/
structure IsAscii (c : Char) : Prop where
  pos : 0 < c.toNat
  lt : c.toNat < 0x80

instance (c : Char) : Decidable (IsAscii c) :=
  decidable_of_iff (0 < c.toNat ∧ c.toNat < 0x80) ⟨fun h => ⟨h.1, h.2⟩, fun h => ⟨h.pos, h.lt⟩⟩

theorem IsAscii.ne_mark {c : Char} (h : IsAscii c) : c ≠ mark := by
  rintro rfl
  exact absurd h (by decide)

theorem IsAscii.ne_ofNat {c : Char} (h : IsAscii c) {n : Nat} (hn : 0x80 ≤ n) :
    c ≠ Char.ofNat n := by
  rintro rfl
  obtain ⟨hpos, hlt⟩ := h
  rcases toNat_char_cases n with heq | heq <;> omega

theorem eq_of_mem_start {c : Char} (hc : IsAscii c) {b : UInt8} (h : c ∈ (start b).1) :
    b = UInt8.ofNat c.toNat := by
  rw [start_eq] at h
  split at h
  · next hb =>
    rw [List.mem_singleton.mp h, toNat_char_of_lt hb, UInt8.ofNat_toNat]
  · split at h
    · exact absurd (List.mem_singleton.mp h) hc.ne_mark
    · exact absurd h List.not_mem_nil

theorem eq_of_mem_step {p : Option Pending} (hp : ∀ q ∈ p, q.Beyond) {c : Char} (hc : IsAscii c)
    {b : UInt8} (h : c ∈ (step p b).1) : b = UInt8.ofNat c.toNat := by
  cases p with
  | none => exact eq_of_mem_start hc h
  | some p =>
    obtain ⟨hlow, hhigh, hcode⟩ := hp p rfl
    rw [step] at h
    split at h
    · next hbyte =>
      dsimp only at h
      split at h
      · next hlast =>
        -- the code of the character is beyond ASCII
        rw [hlast, Nat.pow_zero, Nat.one_mul] at hcode
        exact absurd (List.mem_singleton.mp h) (hc.ne_ofNat (by omega))
      · exact absurd h List.not_mem_nil
    · exact eq_of_mem_start hc ((List.mem_cons.mp h).resolve_left hc.ne_mark)

/-- **A character of ASCII is read only where its byte stands.** -/
theorem mem_of_mem_decodeFrom {p : Option Pending} (hp : ∀ q ∈ p, q.Beyond) {c : Char}
    (hc : IsAscii c) {bytes : Bytes} (h : c ∈ decodeFrom p bytes) :
    UInt8.ofNat c.toNat ∈ bytes := by
  induction bytes generalizing p with
  | nil =>
    rw [decodeFrom] at h
    split at h
    · exact absurd (List.mem_singleton.mp h) hc.ne_mark
    · exact absurd h List.not_mem_nil
  | cons b rest ih =>
    rw [decodeFrom, List.mem_append] at h
    rcases h with h | h
    · rw [eq_of_mem_step hp hc h]
      exact List.mem_cons_self
    · exact List.mem_cons_of_mem b (ih (fun q hq => beyond_of_step hp hq) h)

theorem mem_of_mem_decode {c : Char} (hc : IsAscii c) {bytes : Bytes} (h : c ∈ decode bytes) :
    UInt8.ofNat c.toNat ∈ bytes :=
  mem_of_mem_decodeFrom (p := none) (fun _ hq => absurd hq (Option.not_mem_none _)) hc h

/-- A byte of ASCII is the byte of a character. -/
theorem mem_of_mem_encode {cs : List Char} {b : UInt8} (hb : b.toNat < 0x80) (h : b ∈ encode cs) :
    Char.ofNat b.toNat ∈ cs := by
  obtain ⟨c, hc, hbyte⟩ := List.mem_flatMap.mp h
  by_cases hascii : c.toNat < 0x80
  · rw [utf8EncodeChar_of_lt hascii, List.mem_singleton] at hbyte
    rw [hbyte, toNat_ofNat_of_lt (by omega), Char.ofNat_toNat]
    exact hc
  · have := le_of_mem_utf8EncodeChar (Nat.le_of_not_lt hascii) hbyte
    omega

end GuardFinder.Utf8

import GuardFinder.Word

/-!
# Text and bytes

Characters as bytes, and bytes as characters. Bytes need not be text: the longest beginning of a
character that does not go on as it should is replaced by one mark, and so is every byte that begins
no character.

* `Utf8.encode`: the bytes of characters.
* `Utf8.decode`: the characters of bytes.
-/

namespace GuardFinder.Utf8

/-- The bytes of characters. -/
def encode (cs : List Char) : Bytes := cs.flatMap String.utf8EncodeChar

/-- The mark for bytes that are no text. -/
def mark : Char := Char.ofNat 0xfffd

/-- A character that has begun and goes on with the next byte. -/
structure Pending where
  /-- The bits of the bytes so far. -/
  bits : Nat
  /-- The number of bytes after the next one. -/
  missing : Nat
  /-- The least next byte. -/
  low : Nat := 0x80
  /-- The greatest next byte. -/
  high : Nat := 0xbf

/-- What a byte is at the start of a character: characters that are complete, and one that has
begun. Some next bytes are left out, so that no character is spelled in two ways or beyond the last
one. -/
def start (b : UInt8) : List Char × Option Pending :=
  let n := b.toNat
  if n < 0x80 then ([Char.ofNat n], none)
  else if n < 0xc2 ∨ 0xf5 ≤ n then ([mark], none)
  else if n < 0xe0 then ([], some { bits := n % 32, missing := 0 })
  else if n < 0xf0 then
    ([], some
      { bits := n % 16, missing := 1
        low := if n = 0xe0 then 0xa0 else 0x80
        high := if n = 0xed then 0x9f else 0xbf })
  else
    ([], some
      { bits := n % 8, missing := 2
        low := if n = 0xf0 then 0x90 else 0x80
        high := if n = 0xf4 then 0x8f else 0xbf })

/-- Reads a byte, after a character that has begun if there is one. -/
def step : Option Pending → UInt8 → List Char × Option Pending
  | none, b => start b
  | some p, b =>
    if p.low ≤ b.toNat ∧ b.toNat ≤ p.high then
      let bits := 64 * p.bits + b.toNat % 64
      match p.missing with
      | 0 => ([Char.ofNat bits], none)
      | n + 1 => ([], some { bits, missing := n })
    else (mark :: (start b).1, (start b).2)

/-- The characters of bytes, after a character that has begun if there is one. -/
def decodeFrom (p : Option Pending) : Bytes → List Char
  | [] => if p.isSome then [mark] else []
  | b :: rest => (step p b).1 ++ decodeFrom (step p b).2 rest

/-- The characters of bytes. -/
def decode (bytes : Bytes) : List Char := decodeFrom none bytes

example : decode [0x61, 0xff, 0xe2, 0x82, 0xe2, 0x82, 0xac, 0xed, 0xa0, 0x80] =
    ['a', mark, mark, '€', mark, mark, mark] := by decide

end GuardFinder.Utf8

import GuardFinder.Word

/-!
# Hexadecimal text of bytes

* `Hex.encode`: two lower-case digits per byte.
* `Hex.decode`: the bytes that a text in either case spells. Of the reasons to refuse a text, an odd
  number of digits comes before a character that is no digit, whatever its place.
-/

namespace GuardFinder.Hex

/-- Why a text is no hexadecimal spelling of bytes. -/
inductive Error
  /-- The text has an odd number of characters. -/
  | oddLength
  /-- The byte at `position` of the text is no digit. -/
  | badDigit (byte : UInt8) (position : Nat)
  deriving DecidableEq, Repr

/-- Whether the Latin-1 character of a number below 256 leaves no mark of its own: a control
character, the hard space or the soft hyphen. -/
def isInvisible (n : Nat) : Bool := n < 0x20 || (0x7f ≤ n && n ≤ 0xa0) || n == 0xad

/-- The Latin-1 character of a byte as it is shown between single quotes. Invisible characters are
given by their letter after a backslash, or else by their number. -/
def shown (byte : UInt8) : String :=
  let c := Char.ofNat byte.toNat
  match c with
  | '\x00' => "\\0"
  | '\t' => "\\t"
  | '\n' => "\\n"
  | '\r' => "\\r"
  | '\'' => "\\'"
  | '\\' => "\\\\"
  | _ =>
    if isInvisible c.toNat then
      "\\u\x7b" ++ String.ofList (Nat.toDigits 16 c.toNat) ++ "\x7d"
    else String.singleton c

/-- The error in words. -/
def Error.message : Error → String
  | .oddLength => "odd number of digits"
  | .badDigit byte position =>
    "invalid character '" ++ shown byte ++ "' at position " ++ toString position

/-- The digit for a number below 16, in lower case. -/
def digit (n : Nat) : Char :=
  if n < 10 then Char.ofNat ('0'.toNat + n) else Char.ofNat ('a'.toNat + (n - 10))

/-- The value of a digit, given as the byte of its ASCII character. -/
def value? (byte : UInt8) : Option Nat :=
  let n := byte.toNat
  if '0'.toNat ≤ n ∧ n ≤ '9'.toNat then some (n - '0'.toNat)
  else if 'a'.toNat ≤ n ∧ n ≤ 'f'.toNat then some (n - 'a'.toNat + 10)
  else if 'A'.toNat ≤ n ∧ n ≤ 'F'.toNat then some (n - 'A'.toNat + 10)
  else none

/-- The digits of a string of bytes, two for each byte. -/
def digits (bytes : Bytes) : List Char :=
  bytes.flatMap fun b => [digit (b.toNat / 16), digit (b.toNat % 16)]

/-- The text of a string of bytes, two digits for each byte. -/
def encode (bytes : Bytes) : String := String.ofList (digits bytes)

/-- The bytes that pairs of digits spell. The first of them stands at `position` of the text. -/
def decodePairs (position : Nat) : Bytes → Except Error Bytes
  | high :: low :: rest =>
    match value? high, value? low with
    | none, _ => .error (.badDigit high position)
    | some _, none => .error (.badDigit low (position + 1))
    | some h, some l => (decodePairs (position + 2) rest).map (UInt8.ofNat (16 * h + l) :: ·)
  | [_] => .error .oddLength
  | [] => .ok []

/-- The bytes that a text spells. The text is given by its own bytes in UTF-8. -/
def decode (text : Bytes) : Except Error Bytes :=
  if text.length % 2 = 0 then decodePairs 0 text else .error .oddLength

end GuardFinder.Hex

import GuardFinder.Keccak
import GuardFinder.Text.Hex
import GuardFinder.Bytecode

/-!
# Account addresses

An address has 20 bytes. Its text carries a checksum in the case of its letters: a letter is upper
case when the digit at the same place in the hash of the lower-case text is at least eight.
-/

namespace GuardFinder

/-- The address of an account. -/
structure Address where
  value : BitVec 160
  deriving DecidableEq, Repr

namespace Address

/-- The 40 digits of an address in lower case. -/
def lowerDigits (a : Address) : List Char := (Word.hexDigitsPadded 40 a.value.toNat).toList

/-- An address as text with its checksum. -/
def text (a : Address) : String :=
  let lower := a.lowerDigits
  let hash := (Hex.digits (Keccak.digest (lower.map fun c => UInt8.ofNat c.toNat)))
  let upper (c h : Char) : Char := if '8' ≤ h then c.toUpper else c
  "0x" ++ String.ofList (List.zipWith upper lower hash)

/-- The address that 40 digits in either case spell, with or without `0x`. -/
def ofText? (s : String) : Option Address :=
  match Hex.decode (Utf8.encode (Bytecode.dropMark s.toList)) with
  | .ok bytes => if bytes.length = 20 then some ⟨BitVec.ofNat 160 (Word.natOfBytes bytes)⟩ else none
  | .error _ => none

end Address

end GuardFinder

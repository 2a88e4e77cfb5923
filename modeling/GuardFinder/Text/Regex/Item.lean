import GuardFinder.Text.Regex.Mode

/-!
# Items of regular expressions

An item is a character, or an escape for one, for a place in a text or for a class of characters.
There are no tables of characters behind the expressions here. So what needs one is no valid item:
classes of characters by a property, words made of all letters, and letters in either case.

* `Item.escape?`: the item behind a backslash.
-/

namespace GuardFinder.Regex

/-- An item. -/
inductive Item
  /-- A character, which may be given by the number of a byte. -/
  | literal (c : Char) (isByte : Bool)
  /-- A place in a text. -/
  | place
  /-- Digits, blanks or word characters. -/
  | shorthand
  deriving DecidableEq, Repr

/-- The value of a hexadecimal digit. -/
def hexDigit? (c : Char) : Option Nat :=
  if c.isDigit then some (c.toNat - '0'.toNat)
  else if 'a' ≤ c ∧ c ≤ 'f' then some (c.toNat - 'a'.toNat + 10)
  else if 'A' ≤ c ∧ c ≤ 'F' then some (c.toNat - 'A'.toNat + 10)
  else none

/-- Reads a number of hexadecimal digits, after those that gave `value`. -/
def hexDigits? (m : Mode) (value : Nat) : Nat → List Char → Option (Nat × List Char)
  | 0, cs => some (value, cs)
  | n + 1, cs =>
    match m.skip cs with
    | [] => none
    | c :: cs => do hexDigits? m (16 * value + (← hexDigit? c)) n cs

namespace Item

/-- The character that hexadecimal digits give. -/
def hex? (m : Mode) (digits : Nat) (isByte : Bool) (cs : List Char) :
    Option (Item × List Char) := do
  let (value, rest) ← hexDigits? m 0 digits cs
  if value.isValidChar then some (literal (Char.ofNat value) isByte, rest) else none

/-- The item behind a backslash. -/
def escape? (m : Mode) : List Char → Option (Item × List Char)
  | [] => none
  | c :: rest =>
    match c with
    | 'x' => hex? m 2 true rest
    | 'u' => hex? m 4 false rest
    | 'U' => hex? m 8 false rest
    | 'd' | 's' | 'w' => if m.unicode then none else some (shorthand, rest)
    | 'a' => some (literal '\x07' false, rest)
    | 'f' => some (literal '\x0c' false, rest)
    | 't' => some (literal '\t' false, rest)
    | 'n' => some (literal '\n' false, rest)
    | 'r' => some (literal '\r' false, rest)
    | 'v' => some (literal '\x0b' false, rest)
    | 'A' | 'z' => some (place, rest)
    | 'b' | 'B' | '<' | '>' => if m.unicode then none else some (place, rest)
    | _ => if c.toNat < 0x80 && !c.isAlphanum then some (literal c false, rest) else none

/-- Whether an item may stand outside of classes. -/
def isUsable (m : Mode) : Item → Bool
  | literal c isByte => if m.unicode then !m.ignoreCase else !isByte || c.toNat < 0x80
  | place | shorthand => true

/-- Whether an item may be a member of a class. -/
def isMember (m : Mode) : Item → Bool
  | literal c _ => if m.unicode then !m.ignoreCase else c.toNat < 0x80
  | place => false
  | shorthand => true

end Item

end GuardFinder.Regex

/-!
# Blanks

The characters with the Unicode property `White_Space`, and the removal of such characters from the
ends of a text.
-/

namespace GuardFinder.Text

/-- The property `White_Space`: tabs and line ends, the space, and the spaces of other scripts. -/
def isBlank (c : Char) : Bool :=
  let n := c.toNat
  (0x09 ≤ n && n ≤ 0x0d) || n == 0x20 || n == 0x85 || n == 0xa0 || n == 0x1680 ||
    (0x2000 ≤ n && n ≤ 0x200a) || n == 0x2028 || n == 0x2029 || n == 0x202f || n == 0x205f ||
    n == 0x3000

/-- The characters of a list up to the last one that is no blank. -/
def dropBlankEnd (cs : List Char) : List Char := (cs.reverse.dropWhile isBlank).reverse

/-- A text without the blanks at its end. -/
def trimEnd (s : String) : String := String.ofList (dropBlankEnd s.toList)

/-- A text without the blanks at both ends. -/
def trim (s : String) : String := String.ofList (dropBlankEnd (s.toList.dropWhile isBlank))

end GuardFinder.Text

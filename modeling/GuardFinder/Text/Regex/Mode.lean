import GuardFinder.Text.Blank
import GuardFinder.Text.Numeric

/-!
# Modes of regular expressions

How a regular expression is read can be changed inside of it, up to the end of a group. Only what
decides whether an expression is valid is kept here.

* `Mode.skip`: where the next item starts.
* `Mode.setting?`: a change of the mode.
-/

namespace GuardFinder.Regex

/-- How a regular expression is read. -/
structure Mode where
  /-- Upper and lower case are the same. -/
  ignoreCase : Bool := false
  /-- What is matched are characters, else bytes. -/
  unicode : Bool := true
  /-- Blanks and comments between items say nothing. -/
  spaced : Bool := false
  deriving DecidableEq, Repr

/-- A text without the blanks and comments at its start. A comment goes up to the end of a line. -/
def skipSpace (inComment : Bool) : List Char → List Char
  | [] => []
  | c :: cs =>
    if inComment then skipSpace (c ≠ '\n') cs
    else if Text.isBlank c then skipSpace false cs
    else if c = '#' then skipSpace true cs
    else c :: cs

namespace Mode

/-- A text from its next item on. -/
def skip (m : Mode) (cs : List Char) : List Char := if m.spaced then skipSpace false cs else cs

/-- The character that is taken for the next one after a hyphen. Blanks are passed over, and the
sign that starts a comment, but not the comment. -/
def ahead? (m : Mode) (cs : List Char) : Option Char :=
  if m.spaced then
    match cs.dropWhile Text.isBlank with
    | '#' :: rest => (rest.dropWhile Text.isBlank).head?
    | rest => rest.head?
  else cs.head?

/-- Turns what a letter stands for on or off. -/
def set (m : Mode) (on : Bool) : Char → Mode
  | 'i' => { m with ignoreCase := on }
  | 'u' => { m with unicode := on }
  | 'x' => { m with spaced := on }
  | _ => m

/-- The letters of a change of the mode. A hyphen stands before those that are turned off. -/
def settings : List Char := "imsUuRx-".toList

/-- The mode after a change, if the letters are right: each stands at most once, and the hyphen is
not the last. -/
def setting? (m : Mode) (letters : List Char) : Option Mode :=
  if letters.all (settings.contains ·) && decide letters.Nodup && letters.getLast? ≠ some '-' then
    let (on, off) := letters.span (· ≠ '-')
    some (off.foldl (set · false) (on.foldl (set · true) m))
  else none

end Mode

/-- Whether a group can have a name. -/
def isName : List Char → Bool
  | [] => false
  | c :: cs => (c = '_' || Text.isAlphabetic c) &&
    cs.all fun c => "_.[]".toList.contains c || Text.isAlphanumeric c

end GuardFinder.Regex

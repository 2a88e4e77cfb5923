import GuardFinder.Text.Utf8

/-!
# Path names

A path name is a row of bytes with slashes between its parts. Empty parts and parts that are a
single dot say nothing. A file name has an extension when something stands before its last dot. A
name need not be text; where it is shown, marks stand for what is none.
-/

namespace GuardFinder

/-- A path name, or a part of one. -/
abbrev Pathname := Bytes

namespace Pathname

/-- The byte between parts. -/
def slash : UInt8 := 0x2f

/-- The byte before an extension. -/
def dot : UInt8 := 0x2e

/-- The part that leads from a directory to itself. -/
def here : Pathname := [dot]

/-- The part that leads from a directory to the one above it. -/
def above : Pathname := [dot, dot]

/-- The name that is written as a text. -/
def ofText (s : String) : Pathname := Utf8.encode s.toList

/-- The name as text. -/
def text (path : Pathname) : String := String.ofList (Utf8.decode path)

/-- The name below a directory, by its parts. -/
def join (directory : Pathname) : List Pathname → Pathname
  | [] => directory
  | name :: rest =>
    if directory = [] ∨ directory.getLast? = some slash then join (directory ++ name) rest
    else join (directory ++ slash :: name) rest

/-- The bytes between the slashes. -/
def pieces (path : Pathname) : List Pathname := path.splitOn slash

/-- The parts between the slashes that name something. -/
def parts (path : Pathname) : List Pathname := (pieces path).filter fun p => p ≠ [] ∧ p ≠ here

/-- Whether a path name starts with a slash. -/
def isAbsolute (path : Pathname) : Bool := path.head? = some slash

/-- Whether a path name is short enough for a file system: at most 255 bytes in each part, and 4095
in all. -/
def isShort (path : Pathname) : Bool :=
  path.length ≤ 4095 && (pieces path).all (·.length ≤ 255)

/-- Whether a path name ends in a single dot, apart from slashes. -/
def endsInDot (path : Pathname) : Bool :=
  ((pieces path).filter (· ≠ [])).getLast? = some here

/-- The file name that a path name ends in. -/
def fileName? (path : Pathname) : Option Pathname := (parts path).getLast?.filter (· ≠ above)

/-- A file name before and after its last dot. Without a dot, or with nothing before it, the second
part is missing. -/
def splitName (name : Pathname) : Pathname × Option Pathname :=
  let (after, before) := name.reverse.span (· ≠ dot)
  match before with
  | [] | [_] => (name, none)
  | _ :: stem => (stem.reverse, some after.reverse)

/-- A file name without its extension. -/
def stem (name : Pathname) : Pathname := (splitName name).1

/-- The extension of a file name. -/
def extension? (name : Pathname) : Option Pathname := (splitName name).2

/-- A file name without its extension, as a part of a name. A single dot would say nothing there,
so two are kept. -/
def bareName (name : Pathname) : Pathname := if stem name = here then above else stem name

/-- The parts of a name with the extension of the last one taken off. -/
def dropExtension : List Pathname → List Pathname
  | [] => []
  | [name] => [bareName name]
  | name :: rest => name :: dropExtension rest

end Pathname

end GuardFinder

import GuardFinder.Pathname

/-!
# File trees

Files and directories as a value. Names are resolved part by part, from the root or from a working
directory: a part leads from a directory into it, two dots lead back, and from the root to itself.
Names that lead through something that is not a directory lead nowhere, and so do names that are too
long.
-/

namespace GuardFinder

/-- Files with their texts, and directories, each at its place below the root. The working directory
is one, and a directory with something in it need not be listed. -/
structure FileTree where
  files : List (List Pathname × String) := []
  directories : List (List Pathname) := []
  /-- The working directory. -/
  home : List Pathname := []
  deriving DecidableEq, Repr

namespace FileTree

/-- Whether a place is a directory. -/
def isDirectory (t : FileTree) (place : List Pathname) : Bool :=
  place.isPrefixOf t.home || t.directories.any place.isPrefixOf ||
    t.files.any fun (p, _) => place.isPrefixOf p && place ≠ p

/-- The text of the file at a place. -/
def fileAt? (t : FileTree) (place : List Pathname) : Option String := t.files.lookup place

/-- Where parts of a name lead from a place. -/
def follow? (t : FileTree) (place : List Pathname) : List Pathname → Option (List Pathname)
  | [] => some place
  | part :: rest =>
    if !t.isDirectory place then none
    else if part = [] ∨ part = .here then t.follow? place rest
    else if part = .above then t.follow? place.dropLast rest
    else t.follow? (place ++ [part]) rest

/-- Where names start: at the root or at the working directory. -/
def start (t : FileTree) (path : Pathname) : List Pathname :=
  if path.isAbsolute then [] else t.home

/-- Where a name leads. -/
def resolve? (t : FileTree) (path : Pathname) : Option (List Pathname) :=
  if path.isShort then t.follow? (t.start path) path.pieces else none

/-- The text of a file. -/
def read? (t : FileTree) (path : Pathname) : Option String := (t.resolve? path).bind t.fileAt?

/-- The files below a directory, by their names from there on. A file is below itself. -/
def filesBelow (t : FileTree) (path : Pathname) : List (List Pathname) :=
  match t.resolve? path with
  | none => []
  | some place =>
    (t.files.filter fun (p, _) => place.isPrefixOf p).map fun (p, _) => p.drop place.length

/-- Makes the directories that parts of a name lead through, where they are missing. No part is
empty or a single dot. -/
def makeAll? (t : FileTree) (place : List Pathname) : List Pathname → Option FileTree
  | [] => some t
  | part :: rest =>
    if part = .above then t.makeAll? place.dropLast rest
    else
      let next := place ++ [part]
      if (t.fileAt? next).isSome then none
      else if t.isDirectory next then t.makeAll? next rest
      else { t with directories := next :: t.directories }.makeAll? next rest

/-- Whether parts of a name lead from a place to a directory. -/
def leadsToDirectory (t : FileTree) (place parts : List Pathname) : Bool :=
  (t.follow? place parts).any t.isDirectory

/-- Makes a directory and those above it. A directory named by a dot at the end is not made: it has
to be there after those above it are made. -/
def makeDirectories? (t : FileTree) (path : Pathname) : Option FileTree :=
  let parts := path.parts
  if !path.isShort then none
  else if path.endsInDot then
    (t.makeAll? (t.start path) parts.dropLast).filter (·.leadsToDirectory (t.start path) parts)
  else t.makeAll? (t.start path) parts

/-- Puts a file at a place, in the place of one that is there. -/
def putAt (t : FileTree) (place : List Pathname) (text : String) : FileTree :=
  if (t.fileAt? place).isSome then
    { t with files := t.files.map fun (p, old) => (p, if p = place then text else old) }
  else { t with files := t.files ++ [(place, text)] }

/-- Writes a file into a directory that is there. -/
def write? (t : FileTree) (path : Pathname) (text : String) : Option FileTree :=
  match path.pieces.getLast? with
  | none => none
  | some name =>
    if name = [] ∨ name = .here ∨ name = .above then none
    else
      match t.resolve? path with
      | none => none
      | some place => if t.isDirectory place then none else some (t.putAt place text)

end FileTree

end GuardFinder

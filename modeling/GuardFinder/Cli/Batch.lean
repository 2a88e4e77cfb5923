import GuardFinder.Pathname

/-!
# Batches

The files of code below a directory, their order, and the names of the reports on them.
-/

namespace GuardFinder.Batch

/-- The file name of a file below a directory; the directory may be the file itself. -/
def fileName? (directory : Pathname) (below : List Pathname) : Option Pathname :=
  match below.getLast? with
  | some name => some name
  | none => directory.fileName?

/-- The extension of files of code. -/
def codeExtension : Pathname := .ofText "bin"

/-- Whether a file holds code by its name. -/
def isCode (directory : Pathname) (below : List Pathname) : Bool :=
  (fileName? directory below).bind Pathname.extension? = some codeExtension

/-- The files of code, ordered by the parts of their names. -/
def codeFiles (directory : Pathname) (files : List (List Pathname)) : List (List Pathname) :=
  (files.filter (isCode directory)).mergeSort fun a b => ¬ b < a

/-- The name of the report on a file: its name below the directory without the extension, with the
texts of the parts joined. -/
def reportName (below : List Pathname) : String :=
  String.intercalate "_" ((Pathname.dropExtension below).map Pathname.text) ++ ".md"

end GuardFinder.Batch

import GuardFinder.Text.Blank

/-!
# Markdown documents

Documents made of sections with paragraphs, tables, code and further sections.
-/

namespace GuardFinder.Markdown

/-- A table. -/
structure Table where
  headers : List String
  rows : List (List String) := []

/-- A row with another number of cells than its table has columns. -/
structure RowError where
  cells : Nat
  columns : Nat
  deriving DecidableEq, Repr

/-- The error in words. -/
def RowError.message (e : RowError) : String :=
  "Row has " ++ toString e.cells ++ " cells, table has " ++ toString e.columns ++ " columns"

namespace Table

/-- Adds a row, which must have one cell for each column. -/
def addRow (t : Table) (row : List String) : Except RowError Table :=
  if row.length = t.headers.length then .ok { t with rows := t.rows ++ [row] }
  else .error ⟨row.length, t.headers.length⟩

/-- Cells between bars. -/
def line (cells : List String) : String :=
  cells.foldl (fun out cell => out ++ " " ++ cell ++ " |") "|" ++ "\n"

/-- The table as text, which is empty for a table without columns. -/
def render (t : Table) : String :=
  if t.headers.isEmpty then ""
  else
    line t.headers ++ line (t.headers.map fun _ => "---") ++ String.join (t.rows.map line)

end Table

/-- A section: its heading, the number of marks before it, its text and its parts. -/
inductive Section
  | mk (heading : String) (level : Nat) (content : String) (parts : List Section)
  deriving Inhabited

namespace Section

/-- A section without text and parts. -/
def empty (heading : String) (level : Nat) : Section := .mk heading level "" []

/-- Adds a paragraph. -/
def addContent (s : Section) (paragraph : String) : Section :=
  match s with
  | .mk heading level content parts =>
    let before := if content.isEmpty then "" else content ++ "\n\n"
    .mk heading level (before ++ paragraph) parts

/-- Adds a block of code in a language. -/
def addCode (s : Section) (code language : String) : Section :=
  s.addContent ("```" ++ language ++ "\n" ++ code ++ "\n```")

/-- Adds a part. -/
def addPart (s part : Section) : Section :=
  match s with
  | .mk heading level content parts => .mk heading level content (parts ++ [part])

mutual

/-- A section as text, without blanks at its end. -/
def render : Section → String
  | .mk heading level content parts =>
    let head := String.ofList (List.replicate level '#') ++ " " ++ heading ++ "\n\n"
    let body := if content.isEmpty then "" else content ++ "\n\n"
    Text.trimEnd (head ++ body ++ renderAll parts)

/-- Sections as text, each followed by an empty line. -/
def renderAll : List Section → String
  | [] => ""
  | s :: rest => render s ++ "\n\n" ++ renderAll rest

end

end Section

/-- A document. -/
structure Document where
  title : String
  sections : List Section := []

namespace Document

/-- Adds a section. -/
def addSection (d : Document) (s : Section) : Document := { d with sections := d.sections ++ [s] }

/-- The document as text. -/
def render (d : Document) : String := "# " ++ d.title ++ "\n\n" ++ Section.renderAll d.sections

end Document

end GuardFinder.Markdown

import GuardFinder.FileTree
import GuardFinder.Cli.Host

/-!
# Transcripts

A host that is a value: a file tree, and what was written to the two outputs. Its clocks stand
still.
-/

namespace GuardFinder

/-- The files of a host and what was written so far. -/
structure Transcript where
  tree : FileTree := {}
  printed : String := ""
  /-- The lines of the error output, the last one first. -/
  complaints : List String := []

namespace Transcript

/-- Changes the tree if that is possible. -/
def changeTree (f : FileTree → Option FileTree) : StateM Transcript Bool := do
  let t ← get
  match f t.tree with
  | some tree =>
    set { t with tree }
    return true
  | none => return false

/-- The host whose state is a transcript. -/
def host : Host (StateM Transcript) where
  readText path := return (← get).tree.read? path
  filesBelow path := return (← get).tree.filesBelow path
  makeDirectories path := changeTree (·.makeDirectories? path)
  writeText path text := changeTree (·.write? path text)
  print text := modify fun t => { t with printed := t.printed ++ text }
  complain line := modify fun t => { t with complaints := line :: t.complaints }
  now := return 0.0
  clocks := return {}

end Transcript

end GuardFinder

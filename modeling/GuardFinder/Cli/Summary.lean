import GuardFinder.Report

/-!
# Summaries

A report as status lines, one for each detector, with colours if they are wanted.
-/

namespace GuardFinder

/-- How a word is set off. -/
inductive Style
  | bold
  | red
  | green
  | yellow
  deriving DecidableEq, Repr

/-- The number that a terminal knows a style by. -/
def Style.code : Style → String
  | bold => "1"
  | red => "31"
  | green => "32"
  | yellow => "33"

/-- A text in a style, or as it is without colours. -/
def Style.apply (style : Style) (colours : Bool) (text : String) : String :=
  if colours then "\x1b[" ++ style.code ++ "m" ++ text ++ "\x1b[0m" else text

namespace Report

/-- The line for the finding number `number`. -/
def findingLine (colours : Bool) (number : Nat) (f : Finding) : String :=
  let guarded := match f.slot, f.content with
    | some slot, some content =>
      " guarded by storage slot " ++ Word.toHex slot ++ " = " ++ content
    | some slot, none => " guarded by storage slot " ++ Word.toHex slot
    | none, _ => ""
  "  " ++ toString number ++ ". " ++ Style.yellow.apply colours f.functionName ++ guarded ++ "\n"

/-- The lines for an item. With details they tell what was looked for. -/
def itemLines (colours details : Bool) (i : ReportItem) : String :=
  let head :=
    if details then
      "\nRan " ++ Style.bold.apply colours i.title ++ " (" ++ i.patternName ++ ")\n" ++
        i.description ++ "\n"
    else ""
  let outcome :=
    if i.findings.isEmpty then
      if details then Style.green.apply colours "✓ No issues found" ++ "\n"
      else
        Style.green.apply colours "✓" ++ " " ++ i.title ++ ": " ++
          Style.green.apply colours "No issues found" ++ "\n"
    else
      Style.red.apply colours "❌" ++ " " ++ i.title ++ ": " ++ toString i.findings.length ++
        " issues found\n" ++
        String.join (i.findings.zipIdx.map fun (f, k) => findingLine colours (k + 1) f)
  head ++ outcome

/-- The lines for a report on a file. -/
def summary (colours details : Bool) (path : String) (r : Report) : String :=
  "\n" ++ Style.bold.apply colours "Analyzed" ++ " " ++ path ++ "\n" ++
    String.join (r.items.map (itemLines colours details))

end Report

end GuardFinder

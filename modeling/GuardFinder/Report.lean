import GuardFinder.Finding
import GuardFinder.Pattern
import GuardFinder.Text.Json.Printer
import GuardFinder.Text.Markdown
import GuardFinder.Decimal.Fixed
import GuardFinder.Decimal.Shortest

/-!
# Reports

The outcome of an analysis: the findings of all detectors. A report keeps the items without
findings, but does not write them.

* `Report.json`, `Report.text`, `Report.markdown`: the three ways to write a report.
-/

namespace GuardFinder

/-- The findings of one detector. -/
structure ReportItem where
  patternName : String
  title : String
  description : String
  findings : List Finding := []
  deriving DecidableEq, Repr

/-- The item for a pattern, without findings. -/
def ReportItem.ofPattern (p : Pattern) : ReportItem where
  patternName := p.name
  title := p.title
  description := p.description

/-- Adds a finding behind the others. -/
def ReportItem.addFinding (item : ReportItem) (f : Finding) : ReportItem :=
  { item with findings := item.findings ++ [f] }

/-- The outcome of an analysis. -/
structure Report where
  /-- When the analysis started, in seconds. -/
  startTime : Float := 0.0
  endTime : Float := 0.0
  contractAddress : Option String := none
  contractCode : Option String := none
  items : List ReportItem := []

namespace Report

/-- The number of findings. -/
def findingsCount (r : Report) : Nat := r.items.foldl (fun n item => n + item.findings.length) 0

/-- Whether there are findings. -/
def hasFindings (r : Report) : Bool := 0 < r.findingsCount

/-- The items with findings. -/
def reportedItems (r : Report) : List ReportItem := r.items.filter (!·.findings.isEmpty)

/-- How long the analysis took. -/
def duration (r : Report) : String := Decimal.twoPlaces (r.endTime - r.startTime) ++ "s"

/-! ## JSON -/

/-- A field that is left out when it has no value. -/
def optionalField (name : String) (value : Option String) : List (String × Json) :=
  (value.map fun v => (name, Json.string v)).toList

/-- A finding as JSON. -/
def findingJson (f : Finding) : Json :=
  .object (("functionName", .string f.functionName) ::
    (optionalField "storageAddress" (f.slot.map Word.toHex) ++
      optionalField "storageContent" f.content))

/-- An item as JSON. -/
def itemJson (i : ReportItem) : Json :=
  .object
    [("patternName", .string i.patternName), ("title", .string i.title),
     ("description", .string i.description), ("findings", .array (i.findings.map findingJson))]

/-- A report as JSON. -/
def json (r : Report) : Json :=
  .object
    ([("startTime", Json.number (Decimal.shortestText r.startTime)),
      ("endTime", Json.number (Decimal.shortestText r.endTime))] ++
     optionalField "contractAddress" r.contractAddress ++
     optionalField "contractCode" r.contractCode ++
     [("items", .array (r.reportedItems.map itemJson))])

/-! ## Text -/

/-- A finding as a line of text. -/
def findingText (f : Finding) : String :=
  let place := match f.slot, f.content with
    | some slot, some content => " (storage slot " ++ Word.toHex slot ++ " = " ++ content ++ ")"
    | some slot, none => " (storage slot " ++ Word.toHex slot ++ ")"
    | none, _ => ""
  "  - " ++ f.functionName ++ place ++ "\n"

/-- An item as lines of text. -/
def itemText (i : ReportItem) : String :=
  "\n" ++ i.title ++ " [" ++ i.patternName ++ "]\n" ++ String.join (i.findings.map findingText)

/-- A report as text. -/
def text (r : Report) : String :=
  let contract := match r.contractAddress with
    | some address => "Contract: " ++ address ++ "\n"
    | none => ""
  let body :=
    if r.hasFindings then String.join (r.reportedItems.map itemText)
    else "No patterns detected.\n"
  contract ++ "Analysis time: " ++ r.duration ++ "\n" ++ body

/-! ## Markdown -/

open Markdown

/-- The section that counts the findings. -/
def summarySection (r : Report) : Section :=
  let s := Section.empty "Summary" 2
  let s := match r.contractAddress with
    | some address => s.addContent ("**Contract**: `" ++ address ++ "`")
    | none => s
  let s := s.addContent
    ("Analysis time: " ++ r.duration ++ ". Total findings: " ++ toString r.findingsCount)
  if r.hasFindings then
    s.addContent (Table.render
      { headers := ["Pattern", "Functions"]
        rows := r.reportedItems.map fun i => [i.title, toString i.findings.length] })
  else s

/-- The section for an item. -/
def itemSection (i : ReportItem) : Section :=
  let table : Table :=
    { headers := ["Function", "Storage slot", "Storage content"]
      rows := i.findings.map fun f =>
        ["`" ++ f.functionName ++ "`", (f.slot.map Word.toHex).getD "-", f.content.getD "-"] }
  let s := Section.empty (i.title ++ " (`" ++ i.patternName ++ "`)") 3
  (s.addContent i.description).addContent table.render

/-- The section with all items. -/
def detailsSection (r : Report) : Section :=
  let s := Section.empty "Detected Patterns" 2
  let s := if r.hasFindings then s else s.addContent "No patterns detected."
  (r.reportedItems.map itemSection).foldl Section.addPart s

/-- A report as a document about a named contract. -/
def document (r : Report) (contractName : String) : Document :=
  let code := match r.contractCode with
    | some code => [(Section.empty "Analyzed Bytecode" 2).addCode code "text"]
    | none => []
  { title := "EVM Fender Analysis: " ++ contractName
    sections := [r.summarySection, r.detailsSection] ++ code }

/-- A report in Markdown. -/
def markdown (r : Report) (contractName : String) : String := (r.document contractName).render

end Report

end GuardFinder

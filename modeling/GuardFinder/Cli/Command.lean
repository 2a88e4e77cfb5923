import GuardFinder.Analysis
import GuardFinder.Settings.Reader
import GuardFinder.Cli.Batch
import GuardFinder.Cli.Host
import GuardFinder.Cli.Options
import GuardFinder.Cli.Summary

/-!
# Commands

The work of a command line: settings, targets, analyses, and the output. A command ends with an exit
code: 0 when nothing was found, 1 when something was found or went wrong, 2 when the command line is
wrong, 101 when the rules for the log stop the command before it starts.

* `Command.run`: runs a command line on a host.
-/

namespace GuardFinder

/-- Why a command ended early. -/
inductive CommandError
  | noTarget
  | configUnreadable (path : Pathname)
  | configInvalid (path : Pathname)
  | snapshotUnreadable (path : Pathname)
  | snapshotInvalid (cause : Snapshot.Error)
  | codeUnreadable (path : Pathname)
  | bytecodeInvalid (path : Pathname) (cause : AnalysisError)
  | runtimeInvalid (path : Pathname) (cause : AnalysisError)
  | analysis (cause : AnalysisError)
  | directoryNotMade (path : Pathname)
  | reportNotWritten (path : Pathname)
  deriving DecidableEq, Repr

/-- The error in words. -/
def CommandError.message : CommandError → String
  | .noTarget => "One of --bin, --runtime or --dir must be specified"
  | .configUnreadable path => "Failed to read config file " ++ path.text
  | .configInvalid path => "Invalid config file " ++ path.text
  | .snapshotUnreadable path => "Failed to read storage snapshot " ++ path.text
  | .snapshotInvalid cause => cause.message
  | .codeUnreadable path => "Failed to read " ++ path.text
  | .bytecodeInvalid path _ => "Invalid bytecode in " ++ path.text
  | .runtimeInvalid path _ => "Invalid runtime code in " ++ path.text
  | .analysis cause => cause.message
  | .directoryNotMade path => "Failed to create report directory " ++ path.text
  | .reportNotWritten path => "Failed to write " ++ path.text

/-- What lies behind an error. -/
def CommandError.cause? : CommandError → Option AnalysisError
  | .bytecodeInvalid _ cause | .runtimeInvalid _ cause => some cause
  | _ => none

namespace Command

/-- The name and the version of the program. -/
def versionText : String := "evm_fender 0.1.0\n"

/-- How the program is used. -/
def usage : String :=
  let line (name : OptionName) : String :=
    let short := match name.short? with
      | some letter => "-" ++ String.singleton letter ++ ", "
      | none => "    "
    "  " ++ short ++ "--" ++ name.long ++ "  " ++ name.purpose ++ "\n"
  "Access-control pattern detector for EVM bytecode\n\nUsage: evm_fender [OPTIONS]\n\nOptions:\n" ++
    String.join (OptionName.all.map line)

/-- A report, and the file that it is about. -/
structure FileReport where
  path : Pathname
  /-- The name of the file below the directory that was analysed. -/
  below : List Pathname := []
  report : Report

variable {m : Type → Type} [Monad m]

/-- A command, which may end early. -/
abbrev Run (m : Type → Type) := ExceptT CommandError m

/-- Reads a file. -/
def readText (host : Host m) (path : Pathname) (otherwise : CommandError) : Run m String := do
  match ← host.readText path with
  | some text => return text
  | none => throw otherwise

/-- The settings of a command. -/
def settings (host : Host m) (o : Options) : Run m Settings := do
  let s ← match o.config with
    | none => pure {}
    | some path =>
      match Settings.ofText? (← readText host path (.configUnreadable path)) with
      | some s => pure s
      | none => throw (.configInvalid path)
  let s := match o.timeout with
    | some n => { s with timeout := n }
    | none => s
  return match o.maxDepth with
    | some n => { s with maxDepth := n }
    | none => s

/-- The detectors of a command. -/
def registry (s : Settings) (o : Options) : Run m Registry :=
  match Registry.choose s o.patterns with
  | .ok r => pure r
  | .error e => throw (.analysis e)

/-- Writes a message to the log if it passes the filter. -/
def log (host : Host m) (wanted : LogFilter) (message : Message) : Run m Unit := do
  if wanted.allows message then host.complain message.line

/-- Analyses a target, and keeps the time. -/
def analyze (host : Host m) (wanted : LogFilter) (s : Settings) (a : Analysis) (target : Target)
    (reader : Option StorageReader) : Run m (Report × Analysis) := do
  let startTime ← host.now
  let a := { a with log := [] }.withClocks s (← host.clocks)
  match Analysis.execute target reader a with
  | .error e a =>
    a.log.reverse.forM (log host wanted)
    throw (.analysis e)
  | .ok report a =>
    a.log.reverse.forM (log host wanted)
    let report := { report with startTime, endTime := ← host.now }
    log host wanted (.finished report.duration report.findingsCount)
    return (report, a)

/-- Analyses a file of creation code. -/
def analyzeFile (host : Host m) (wanted : LogFilter) (s : Settings) (o : Options)
    (path : Pathname) : Run m (List FileReport) := do
  match Target.creationText (← readText host path (.codeUnreadable path)) with
  | .error e => throw (.bytecodeInvalid path e)
  | .ok target =>
    let (report, _) ← analyze host wanted s (Analysis.new s (← registry s o)) target none
    return [{ path, report }]

/-- The reader that a snapshot in a file gives. -/
def storageReader (host : Host m) (o : Options) : Run m (Option StorageReader) := do
  match o.storage with
  | none => return none
  | some path =>
    match Snapshot.ofText (← readText host path (.snapshotUnreadable path)) with
    | .ok snapshot => return some snapshot.reader
    | .error e => throw (.snapshotInvalid e)

/-- Analyses the code of a deployed contract. -/
def analyzeDeployed (host : Host m) (wanted : LogFilter) (s : Settings) (o : Options)
    (path : Pathname) (address : Address) : Run m (List FileReport) := do
  let reader ← storageReader host o
  match Target.deployedText address (← readText host path (.codeUnreadable path)) with
  | .error e => throw (.runtimeInvalid path e)
  | .ok target =>
    let (report, _) ← analyze host wanted s (Analysis.new s (← registry s o)) target reader
    return [{ path, report }]

/-- Analyses files below a directory, one after the other. -/
def analyzeFiles (host : Host m) (wanted : LogFilter) (s : Settings) (directory : Pathname)
    (a : Analysis) : List (List Pathname) → Run m (List FileReport)
  | [] => return []
  | below :: rest => do
    let path := Pathname.join directory below
    match Target.creationText (← readText host path (.codeUnreadable path)) with
    | .error e => throw (.bytecodeInvalid path e)
    | .ok target =>
      let (report, a) ← analyze host wanted s a target none
      return { path, below, report } :: (← analyzeFiles host wanted s directory a rest)

/-- Analyses all files of code below a directory. -/
def analyzeDirectory (host : Host m) (wanted : LogFilter) (s : Settings) (o : Options)
    (directory : Pathname) : Run m (List FileReport) := do
  let r ← registry s o
  let files ← host.filesBelow directory
  analyzeFiles host wanted s directory (Analysis.new s r) (Batch.codeFiles directory files)

/-- Analyses what the options name. -/
def reports (host : Host m) (wanted : LogFilter) (s : Settings) (o : Options) :
    Run m (List FileReport) :=
  match o.bin, o.runtime, o.dir with
  | some path, _, _ => analyzeFile host wanted s o path
  | none, some path, _ => analyzeDeployed host wanted s o path (o.address.getD ⟨0⟩)
  | none, none, some directory => analyzeDirectory host wanted s o directory
  | none, none, none => throw .noTarget

/-- The fields of an object for reports. Of those on files with the same text as a name, the last
one is kept. -/
def jsonFields : List FileReport → List (String × Json)
  | [] => []
  | r :: rest =>
    let fields := jsonFields rest
    if fields.any (·.1 = r.path.text) then fields else (r.path.text, r.report.json) :: fields

/-- The reports as JSON. A batch is one object with a field for each file. -/
def jsonText (batch : Bool) (rs : List FileReport) : String :=
  if batch then (Json.object (jsonFields rs)).sortKeys.pretty ++ "\n"
  else String.join (rs.map fun r => r.report.json.pretty ++ "\n")

/-- The name of a contract: the name of its file without the extension. -/
def contractName (path : Pathname) : String :=
  match path.fileName? with
  | some name => (Pathname.stem name).text
  | none => path.text

/-- Writes reports in Markdown, to one file or into a directory. -/
def writeMarkdown (host : Host m) (wanted : LogFilter) (batch : Bool) (output : Pathname)
    (rs : List FileReport) : Run m Unit := do
  if batch then
    unless ← host.makeDirectories output do throw (.directoryNotMade output)
  rs.forM fun r => do
    let path := if batch then output.join [.ofText (Batch.reportName r.below)] else output
    unless ← host.writeText path (r.report.markdown (contractName r.path)) do
      throw (.reportNotWritten path)
    log host wanted (.reportWritten path.text)

/-- Runs a command, and tells whether something was found. -/
def execute (host : Host m) (wanted : LogFilter) (debug colours : Bool) (o : Options) :
    Run m Bool := do
  let s ← settings host o
  let rs ← reports host wanted s o
  let batch := o.dir.isSome
  if o.json then host.print (jsonText batch rs)
  else rs.forM fun r => host.print (r.report.summary colours debug r.path.text)
  match o.markdown with
  | some output => writeMarkdown host wanted batch output rs
  | none => pure ()
  return rs.any (·.report.hasFindings)

/-- The text for an error, with what lies behind it. -/
def errorText (e : CommandError) : String :=
  "Error: " ++ e.message ++
    match e.cause? with
    | some cause => "\n\nCaused by:\n    " ++ cause.message
    | none => ""

/-- Runs a command line, and gives its exit code. -/
def run (host : Host m) (env : Environment) (words : List String) : m UInt32 := do
  match Options.read words with
  | .error e => do
    host.complain ("error: " ++ e.message)
    return 2
  | .ok .help => do
    host.print usage
    return 0
  | .ok .version => do
    host.print versionText
    return 0
  | .ok (.analyze o) => do
    let debug := o.debug || env.debug
    match LogFilter.ofRules? env.logRules debug with
    | none => return 101
    | some wanted =>
      match ← (execute host wanted debug env.colours o).run with
      | .ok found => return if found then 1 else 0
      | .error e => do
        host.complain (errorText e)
        return 1

end Command

end GuardFinder

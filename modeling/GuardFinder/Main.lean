import GuardFinder.Cli.Command

/-!
# The program

Runs a command line on the machine itself. Names of its files are text there. Analyses are values,
so they take no time by their own clocks.
-/

namespace GuardFinder.Machine

/-- Whether an action succeeds. -/
def succeeds (action : IO Unit) : IO Bool := do
  try
    action
    return true
  catch _ => return false

/-- The files below an entry of a directory, each by its name from there on. -/
partial def filesBelowEntry (entry : IO.FS.DirEntry) : IO (List (List Pathname)) := do
  if ← entry.path.isDir then
    let inner ← entry.path.readDir
    let lists ← inner.toList.mapM fun e => do
      return (← filesBelowEntry e).map (Pathname.ofText e.fileName :: ·)
    return lists.flatten
  else if ← entry.path.pathExists then return [[]]
  else return []

/-- Makes a directory and those above it. A directory named by a dot at the end is not made: it has
to be there after those above it are made. -/
def makeDirectories (path : Pathname) : IO Bool := do
  if path.endsInDot then
    let start := if path.isAbsolute then "/" else ""
    let above := start ++ String.intercalate "/" (path.parts.dropLast.map Pathname.text)
    let made ← if above.isEmpty then pure true else succeeds (IO.FS.createDirAll above)
    let entry : IO.FS.DirEntry := { root := ".", fileName := path.text }
    return made && (← entry.path.isDir)
  else succeeds (IO.FS.createDirAll path.text)

/-- The machine as a host. -/
def host : Host IO where
  readText path := do
    try return some (← IO.FS.readFile path.text)
    catch _ => return none
  filesBelow path := do
    try filesBelowEntry { root := ".", fileName := path.text }
    catch _ => return []
  makeDirectories := makeDirectories
  writeText path text := succeeds (IO.FS.writeFile path.text text)
  print text := IO.print text
  complain line := IO.eprintln line
  now := return (← IO.monoNanosNow).toFloat / 1000000000.0
  clocks := return {}

end GuardFinder.Machine

open GuardFinder

def main (args : List String) : IO UInt32 := do
  let names := ["EVM_FENDER_DEBUG", "CLICOLOR_FORCE", "CLICOLOR", "NO_COLOR"]
  let values ← names.mapM fun name => return (name, ← IO.getEnv name)
  let environment := Environment.ofVariables (fun name => (values.lookup name).join)
    (← (← IO.getStdout).isTty)
  Command.run Machine.host environment args

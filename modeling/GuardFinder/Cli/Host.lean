import GuardFinder.Analysis
import GuardFinder.Cli.LogOutput
import GuardFinder.Pathname

/-!
# Hosts

What a command needs of the machine it runs on: files, two places to write to and clocks.
-/

namespace GuardFinder

/-- A machine to run commands on. -/
structure Host (m : Type → Type) where
  /-- The text of a file, if it can be read. -/
  readText : Pathname → m (Option String)
  /-- The files below a directory, by their names from there on. A file is below itself. -/
  filesBelow : Pathname → m (List (List Pathname))
  /-- Makes a directory and those above it, and tells whether it is there now. -/
  makeDirectories : Pathname → m Bool
  /-- Writes a file, and tells whether that was possible. -/
  writeText : Pathname → String → m Bool
  /-- Writes to the standard output. -/
  print : String → m Unit
  /-- Writes a line to the standard error output. -/
  complain : String → m Unit
  /-- The time in seconds. -/
  now : m Float
  /-- The clocks of the next analysis. -/
  clocks : m Clocks

/-- What the environment of a command says about its output. -/
structure Environment where
  /-- Details are wanted. -/
  debug : Bool := false
  colours : Bool := false
  /-- The text of the rules for the log, if there are any. -/
  logRules : Option String := none

/-- The environment that variables describe. Colours can be forced or forbidden; else they are used
on a terminal. -/
def Environment.ofVariables (lookup : String → Option String) (terminal : Bool) :
    Environment where
  debug := lookup "EVM_FENDER_DEBUG" = some "true"
  colours :=
    if ((lookup "CLICOLOR_FORCE").filter (· ≠ "0")).isSome then true
    else if (lookup "NO_COLOR").isSome then false
    else terminal && lookup "CLICOLOR" ≠ some "0"

end GuardFinder

import GuardFinder.Log
import GuardFinder.Cli.LogRule

/-!
# The log of a command

Which messages a command writes to its log, and how a message is written. Every message has a
source, which is the name of the part of the program that it comes from. A filter is a list of
rules, and the most specific rule for a message decides.

* `LogFilter.ofRules?`: the filter of a command.
* `LogFilter.allows`: whether a message passes.
-/

namespace GuardFinder

namespace Message

/-- The name of the program, which all sources start with. -/
def program : String := "evm_fender"

/-- The source of a message. -/
def source : Message → String
  | stackBounds _ | invalidJump _ | entering _ | loopBound .. | maxDepth _ | timedOut _
  | noRuntimeCode => program ++ "::engine::explorer"
  | oracleGaveUp _ => program ++ "::engine::oracle"
  | executing _ | hit .. => program ++ "::analyzers"
  | registering .. => program ++ "::analyzers::registry"
  | roleChecked .. | roleText _ => program ++ "::analyzers::roles"
  | restricted _ => program ++ "::analyzers::off_chain_secret"
  | analyzingNodes | administrators _ | foundCaller .. | foundLoad .. =>
    program ++ "::analyzers::single_owner"
  | starting _ | partialResults | explored .. | finished .. => program ++ "::analysis"
  | reportWritten _ => program

end Message

/-- How much detail has to be wanted for a message of a level to pass. Nothing passes at 0, and 1 is
for errors, of which there are none among the messages. -/
def Level.detail : Level → Nat
  | .warn => 2
  | .info => 3
  | .debug => 4

/-- Rules on what passes into the log. -/
structure LogFilter where
  rules : List LogRule
  deriving DecidableEq, Repr

namespace LogFilter

/-- The filter of a command that was not given one. -/
def standard (debug : Bool) : LogFilter :=
  ⟨[{ source := Message.program
      detail := if debug then Level.debug.detail else Level.info.detail }]⟩

/-- The filter that rules in a text describe, with commas between them. The first flaw counts. -/
def ofText (text : String) : Except LogRule.Flaw LogFilter := do
  return ⟨← ((text.splitOn ",").filter (· ≠ "")).mapM LogRule.ofText⟩

/-- The filter of a command. Malformed rules count for nothing. There is no filter for rules that
would be cut inside a character. -/
def ofRules? (rules : Option String) (debug : Bool) : Option LogFilter :=
  match rules.map ofText with
  | some (.ok filter) => some filter
  | some (.error .splitCharacter) => none
  | some (.error .malformed) | none => some (standard debug)

/-- The rule for messages of a source: of the most specific ones the last. -/
def rule? (f : LogFilter) (source : String) : Option LogRule :=
  (f.rules.filter (·.applies source)).foldl (fun best r =>
    match best with
    | some b => if b.weight ≤ r.weight then some r else some b
    | none => some r) none

/-- Whether a message passes. -/
def allows (f : LogFilter) (m : Message) : Bool :=
  (f.rule? m.source).any (m.level.detail ≤ ·.detail)

end LogFilter

/-- A character as it is written to the log. Those that a terminal may take for a command are given
by their numbers; line ends are kept. -/
def logged (c : Char) : String :=
  match c with
  | '\x07' => "\\x07"
  | '\x08' => "\\x08"
  | '\x0c' => "\\x0c"
  | '\x1b' => "\\x1b"
  | '\x7f' => "\\x7f"
  | _ =>
    if 0x80 ≤ c.toNat ∧ c.toNat ≤ 0x9f then
      "\\u\x7b" ++ String.ofList (Nat.toDigits 16 c.toNat) ++ "\x7d"
    else String.singleton c

/-- A message as it is written to the log. -/
def Message.line (m : Message) : String :=
  m.level.text ++ " " ++ m.source ++ ": " ++ String.join (m.text.toList.map logged)

end GuardFinder

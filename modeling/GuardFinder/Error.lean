import GuardFinder.Address
import GuardFinder.Pattern
import GuardFinder.StateSpace

/-!
# Errors of an analysis

The reasons why an analysis ends without a report, and their words.
-/

namespace GuardFinder

/-- Why there is no report. -/
inductive AnalysisError
  /-- Neither creation code nor an address was given. -/
  | missingTarget
  /-- Both creation code and an address were given. -/
  | ambiguousTarget
  /-- There is an address, but no code at it. -/
  | missingRuntimeCode (address : Address)
  | invalidBytecode (cause : Bytecode.Error)
  /-- An observer looked at a stack item that is not there. -/
  | stackUnderflow (cause : Underflow)
  | storageRead (address : Address) (slot : Word) (reason : String)
  | unknownPattern (name : String)
  /-- An event was sent to a subscriber that does not exist. -/
  | unknownSubscriber (subscriber : Nat)
  deriving DecidableEq, Repr

/-- The error in words. -/
def AnalysisError.message : AnalysisError → String
  | .missingTarget => "either creation bytecode or a target address must be provided"
  | .ambiguousTarget => "creation bytecode and target address are mutually exclusive"
  | .missingRuntimeCode address => "no runtime code available for contract at " ++ address.text
  | .invalidBytecode cause => "invalid bytecode: " ++ cause.message
  | .stackUnderflow u =>
    "stack underflow in " ++ u.opcode.name ++ " hook at " ++ toString u.address ++ ": needs " ++
      toString u.required ++ " item(s), found " ++ toString u.actual
  | .storageRead address slot reason =>
    "failed to read storage slot " ++ Word.toHex slot ++ " of " ++ address.text ++ ": " ++ reason
  | .unknownPattern name =>
    "Unknown pattern '" ++ name ++ "', expected one of: " ++
      String.intercalate ", " (Pattern.all.map Pattern.name)
  | .unknownSubscriber subscriber =>
    "No detector registered as hook subscriber " ++ toString subscriber

end GuardFinder

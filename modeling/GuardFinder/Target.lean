import GuardFinder.Error

/-!
# Targets

What is analysed: code that creates a contract, or the code of a contract at an address.
`Target.resolve` settles which of the two was asked for, and refuses empty code in both cases.
-/

namespace GuardFinder

/-- What is analysed. -/
inductive Target
  /-- Code that runs once and returns the code of the contract. -/
  | creation (code : Bytes)
  /-- The code of the contract at an address. -/
  | deployed (address : Address) (code : Bytes)
  deriving DecidableEq, Repr

namespace Target

/-- The target for what was given of creation code, address and runtime code. -/
def resolve (creation : Option Bytes) (address : Option Address) (runtime : Option Bytes) :
    Except AnalysisError Target :=
  match creation, address with
  | some _, some _ => .error .ambiguousTarget
  | none, none => .error .missingTarget
  | some code, none =>
    if code.isEmpty then .error (.invalidBytecode .emptyCreation) else .ok (.creation code)
  | none, some address =>
    match runtime with
    | some code =>
      if code.isEmpty then .error (.missingRuntimeCode address) else .ok (.deployed address code)
    | none => .error (.missingRuntimeCode address)

/-- The target for creation code given as text. -/
def creationText (text : String) : Except AnalysisError Target :=
  match Bytecode.ofText text with
  | .ok code => resolve (some code) none none
  | .error e => .error (.invalidBytecode e)

/-- The target for the code of a contract given as text. -/
def deployedText (address : Address) (text : String) : Except AnalysisError Target :=
  match Bytecode.ofText text with
  | .ok code => resolve none (some address) (some code)
  | .error e => .error (.invalidBytecode e)

/-- The code of a target. -/
def code : Target → Bytes
  | creation code => code
  | deployed _ code => code

/-- The address of a target. -/
def address? : Target → Option Address
  | creation _ => none
  | deployed address _ => some address

end Target

end GuardFinder

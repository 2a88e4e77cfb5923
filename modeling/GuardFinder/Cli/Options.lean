import GuardFinder.Address
import GuardFinder.Pathname
import GuardFinder.Settings

/-!
# Options

What the words of a command line ask for. Options are written `--name value`, `--name=value`,
`-n value`, `-nvalue` or `-n=value`. A word that starts with a dash is never the value of the word
before it, a dash alone apart. Each option but `--pattern` may stand once.

* `Options.read`: the request that a command line makes, or what is wrong with it.
-/

namespace GuardFinder

/-- The options of the command line. -/
inductive OptionName
  | bin
  | runtime
  | dir
  | address
  | storage
  | config
  | pattern
  | timeout
  | maxDepth
  | json
  | markdown
  | debug
  | help
  | version
  deriving DecidableEq, Repr

namespace OptionName

/-- All options. -/
def all : List OptionName :=
  [bin, runtime, dir, address, storage, config, pattern, timeout, maxDepth, json, markdown, debug,
   help, version]

/-- The name after two dashes. -/
def long : OptionName → String
  | bin => "bin"
  | runtime => "runtime"
  | dir => "dir"
  | address => "address"
  | storage => "storage"
  | config => "config"
  | pattern => "pattern"
  | timeout => "timeout"
  | maxDepth => "max-depth"
  | json => "json"
  | markdown => "markdown"
  | debug => "debug"
  | help => "help"
  | version => "version"

/-- The letter after one dash. -/
def short? : OptionName → Option Char
  | bin => some 'b'
  | runtime => some 'r'
  | dir => some 'd'
  | address => some 'a'
  | storage => some 's'
  | config => some 'c'
  | pattern => some 'p'
  | help => some 'h'
  | version => some 'V'
  | timeout | maxDepth | json | markdown | debug => none

/-- Whether the option is followed by a value. -/
def takesValue : OptionName → Bool
  | json | debug | help | version => false
  | _ => true

/-- What the option is for. -/
def purpose : OptionName → String
  | bin => "Hex-encoded creation bytecode to analyze"
  | runtime => "Hex-encoded runtime code of a deployed contract, requires --address"
  | dir => "Directory whose *.bin files are analyzed as creation bytecode"
  | address => "Address the runtime code is deployed at"
  | storage => "JSON object mapping storage slots to values of the deployed contract"
  | config => "JSON file with analysis settings"
  | pattern => "Only run the given pattern(s), e.g. OWNERSHIP"
  | timeout => "Exploration timeout in seconds"
  | maxDepth => "Maximum number of blocks along one path"
  | json => "Print the report as JSON instead of status lines"
  | markdown => "Write a Markdown report to this file (a directory with --dir)"
  | debug => "Show detailed debug output"
  | help => "Print help"
  | version => "Print version"

/-- The option with the given long name. -/
def ofLong? (name : String) : Option OptionName := all.find? (·.long = name)

/-- The option with the given letter. -/
def ofShort? (letter : Char) : Option OptionName := all.find? (·.short? = some letter)

end OptionName

/-- What is wrong with a command line. -/
inductive UsageError
  | unexpected (word : String)
  | missingValue (name : OptionName)
  | invalidValue (name : OptionName) (value : String)
  /-- A value for an option that takes none. -/
  | needlessValue (name : OptionName)
  | repeated (name : OptionName)
  /-- More than one thing to analyse. -/
  | severalTargets
  /-- An option without the one that it needs. -/
  | needs (name needed : OptionName)
  deriving DecidableEq, Repr

/-- The error in words. -/
def UsageError.message : UsageError → String
  | .unexpected word => "unexpected argument '" ++ word ++ "' found"
  | .missingValue name => "a value is required for '--" ++ name.long ++ "' but none was supplied"
  | .invalidValue name value => "invalid value '" ++ value ++ "' for '--" ++ name.long ++ "'"
  | .needlessValue name => "unexpected value for '--" ++ name.long ++ "'"
  | .repeated name => "the argument '--" ++ name.long ++ "' cannot be used multiple times"
  | .severalTargets => "only one of '--bin', '--runtime' and '--dir' can be used"
  | .needs name needed => "'--" ++ name.long ++ "' requires '--" ++ needed.long ++ "'"

/-- What the words of a command line set. -/
structure Options where
  bin : Option Pathname := none
  runtime : Option Pathname := none
  dir : Option Pathname := none
  address : Option Address := none
  storage : Option Pathname := none
  config : Option Pathname := none
  patterns : List String := []
  timeout : Option Nat := none
  maxDepth : Option Nat := none
  json : Bool := false
  markdown : Option Pathname := none
  debug : Bool := false
  deriving DecidableEq, Repr

/-- What a command line asks for. -/
inductive Request
  | help
  | version
  | analyze (options : Options)
  deriving DecidableEq, Repr

namespace Options

/-- A path is any text but the empty one. -/
def pathValue (name : OptionName) (value : String) : Except UsageError Pathname :=
  if value.isEmpty then .error (.invalidValue name value) else .ok (.ofText value)

/-- A number that fits 64 bits, in digits after an optional plus sign. -/
def number? (value : String) : Option Nat :=
  let digits := match value.toList with
    | '+' :: rest => rest
    | cs => cs
  if digits.isEmpty ∨ !digits.all Char.isDigit then none
  else
    let n := digits.foldl (fun n c => 10 * n + (c.toNat - '0'.toNat)) 0
    if n < UInt64.size then some n else none

/-- A number as the value of an option. -/
def numberValue (name : OptionName) (value : String) : Except UsageError Nat :=
  match number? value with
  | some n => .ok n
  | none => .error (.invalidValue name value)

/-- Sets something that is not set yet. -/
def once {α : Type} (name : OptionName) (old : Option α) (value : Except UsageError α) :
    Except UsageError (Option α) := do
  let value ← value
  if old.isSome then throw (.repeated name) else return some value

/-- Turns on something that is not on yet. -/
def onceFlag (name : OptionName) (old : Bool) : Except UsageError Bool :=
  if old then .error (.repeated name) else .ok true

/-- Sets an option that takes a value. -/
def setValue (o : Options) (name : OptionName) (value : String) : Except UsageError Options :=
  match name with
  | .bin => do return { o with bin := ← once name o.bin (pathValue name value) }
  | .runtime => do return { o with runtime := ← once name o.runtime (pathValue name value) }
  | .dir => do return { o with dir := ← once name o.dir (pathValue name value) }
  | .storage => do return { o with storage := ← once name o.storage (pathValue name value) }
  | .config => do return { o with config := ← once name o.config (pathValue name value) }
  | .markdown => do return { o with markdown := ← once name o.markdown (pathValue name value) }
  | .timeout => do return { o with timeout := ← once name o.timeout (numberValue name value) }
  | .maxDepth => do return { o with maxDepth := ← once name o.maxDepth (numberValue name value) }
  | .pattern => .ok { o with patterns := o.patterns ++ [value] }
  | .address => do
    let parsed := match Address.ofText? value with
      | some a => .ok a
      | none => .error (.invalidValue name value)
    return { o with address := ← once name o.address parsed }
  | .json | .debug | .help | .version => .error (.needlessValue name)

/-- Sets an option that takes no value, or answers it at once. -/
def setFlag (o : Options) (name : OptionName) : Except UsageError (Options ⊕ Request) :=
  match name with
  | .json => do return .inl { o with json := ← onceFlag name o.json }
  | .debug => do return .inl { o with debug := ← onceFlag name o.debug }
  | .help => .ok (.inr .help)
  | .version => .ok (.inr .version)
  | _ => .error (.missingValue name)

/-- How many things to analyse are named. -/
def targetCount (o : Options) : Nat :=
  o.bin.toList.length + o.runtime.toList.length + o.dir.toList.length

/-- Whether the options fit together. A snapshot needs deployed code, and with it an address. Where
another target stands in the place of the deployed code, only the address is still asked for. -/
def validate (o : Options) : Except UsageError Request :=
  if 1 < o.targetCount then .error .severalTargets
  else if o.runtime.isSome && o.address.isNone then .error (.needs .runtime .address)
  else if o.storage.isSome && o.targetCount = 0 then .error (.needs .storage .runtime)
  else if o.storage.isSome && o.address.isNone then .error (.needs .storage .address)
  else .ok (.analyze o)

/-- An option and what stands in the same word as its value. -/
structure Token where
  name : OptionName
  attached : Option String

/-- The option that a word is, if it is one. -/
def Token.ofText? (word : String) : Option Token :=
  match word.toList with
  | '-' :: '-' :: rest =>
    let (name, value) := rest.span (· ≠ '=')
    (OptionName.ofLong? (String.ofList name)).map fun option =>
      ⟨option, if value.isEmpty then none else some (String.ofList (value.drop 1))⟩
  | '-' :: letter :: rest =>
    (OptionName.ofShort? letter).map fun option =>
      let attached :=
        if !option.takesValue then none
        else
          match rest with
          | [] => none
          | '=' :: value => some (String.ofList value)
          | value => some (String.ofList value)
      ⟨option, attached⟩
  | _ => none

/-- Whether a word can be the value of the word before it. -/
def isValue (word : String) : Bool := !word.startsWith "-" || word = "-"

/-- Reads words one after the other. -/
def readWords (o : Options) : List String → Except UsageError Request
  | [] => o.validate
  | word :: rest =>
    if word = "--" then
      match rest with
      | [] => o.validate
      | extra :: _ => .error (.unexpected extra)
    else
      match Token.ofText? word with
      | none => .error (.unexpected word)
      | some ⟨name, attached⟩ =>
        match name.takesValue, attached, rest with
        | true, some value, rest => do (← o.setValue name value).readWords rest
        | true, none, [] => .error (.missingValue name)
        | true, none, value :: rest =>
          if isValue value then do (← o.setValue name value).readWords rest
          else .error (.missingValue name)
        | false, some _, _ => .error (.needlessValue name)
        | false, none, rest =>
          match o.setFlag name with
          | .ok (.inl o) => o.readWords rest
          | .ok (.inr request) => .ok request
          | .error e => .error e

/-- The request that a command line makes. -/
def read (words : List String) : Except UsageError Request := readWords {} words

end Options

end GuardFinder

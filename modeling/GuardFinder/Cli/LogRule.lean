import GuardFinder.Text.Cut
import GuardFinder.Text.Regex

/-!
# Rules for the log

A rule says how much detail is wanted from some messages. It may name the start of sources, and in
brackets a scope and in braces a part that messages must have, perhaps with a value. This program
has no scopes, so rules for scopes or for values never apply.

Where the pieces of a rule start and end is found without the blanks at the ends of its text. The
pieces are then cut out of the text with its blanks. So a blank at the start shifts all pieces, and
a cut inside a character is possible and a mistake of its own.

* `LogRule.ofText`: reads rules such as `warn`, `name=debug` or `name[scope]=info`.
-/

namespace GuardFinder

/-- How much detail is wanted from some messages. -/
structure LogRule where
  /-- How the names of the sources start; all sources are meant if it is missing. -/
  source : Option String := none
  /-- A part that messages must have. -/
  part : Option String := none
  /-- The rule is for what happens in certain scopes. -/
  inScope : Bool := false
  /-- The amount of detail, from none at 0 to all. -/
  detail : Nat := 5
  deriving DecidableEq, Repr

namespace LogRule

/-- What is wrong with the text of a rule. -/
inductive Flaw
  /-- It is not the text of a rule. -/
  | malformed
  /-- A piece would start or end inside a character. -/
  | splitCharacter
  deriving DecidableEq, Repr

/-- Where the reading of a rule is, with the position where the piece that is being read starts. -/
inductive Stage
  | start
  | source (first : Nat)
  | scope (first : Nat)
  | part (first : Nat)
  | afterPart
  | afterBrackets
  | detail (first : Nat)
  deriving DecidableEq, Repr

/-! ## Pieces -/

/-- The greatest amount of detail, which a rule has that names none. -/
def full : Nat := 5

/-- The names of the amounts of detail, from the least. -/
def detailNames : List String := ["off", "error", "warn", "info", "debug", "trace"]

/-- The amount of detail that a number or a name in either case stands for. -/
def detail? (word : List Char) : Option Nat :=
  let digits := match word with
    | '+' :: rest => rest
    | cs => cs
  if !digits.isEmpty && digits.all Char.isDigit then
    (some (digits.foldl (fun n c => 10 * n + (c.toNat - '0'.toNat)) 0)).filter (· ≤ full)
  else detailNames.findIdx? (·.toList = word.map Char.toLower)

/-- Whether a text is a number: digits that may have a sign, a point and an exponent, or a name for
what is no finite number. -/
def isNumber (cs : List Char) : Bool :=
  let signless (cs : List Char) := match cs with
    | '+' :: rest | '-' :: rest => rest
    | _ => cs
  let cs := (signless cs).map Char.toLower
  let (mantissa, exponent) := cs.span (· ≠ 'e')
  let (whole, fraction) := mantissa.span (· ≠ '.')
  let digits := whole ++ fraction.tail
  ["inf", "infinity", "nan"].contains (String.ofList cs) ||
    (!digits.isEmpty && digits.all Char.isDigit &&
      (exponent.isEmpty ||
        (!(signless exponent.tail).isEmpty && (signless exponent.tail).all Char.isDigit)))

/-- Whether a part can be asked to have a value. -/
def isValue (cs : List Char) : Bool := isNumber cs || Regex.isValid cs

/-- Whether the text of a rule can start with a character. -/
def isStart (c : Char) : Bool := Text.isAlphanumeric c || c = '-' || c = ':' || c = '_'

/-- The piece of a text between two positions. -/
def piece (text : List Char) (first stop : Nat) : Except Flaw (List Char) :=
  match Text.between? text first stop with
  | some cs => .ok cs
  | none => .error .splitCharacter

/-- The piece of a text from a position on. -/
def lastPiece (text : List Char) (first : Nat) : Except Flaw (List Char) :=
  match Text.from? text first with
  | some cs => .ok cs
  | none => .error .splitCharacter

/-- The rule with a part, which may have a value after an equals sign. A second equals sign ends the
value. -/
def withPart (r : LogRule) (cs : List Char) : Except Flaw LogRule :=
  let (name, value) := cs.span (· ≠ '=')
  let r := { r with part := some (String.ofList name) }
  match value with
  | [] => if cs.isEmpty then .error .malformed else .ok r
  | _ :: value =>
    if isValue (value.takeWhile (· ≠ '=')) then .ok { r with inScope := true }
    else .error .malformed

/-! ## Reading -/

/-- Reads a character at a position. -/
def step (text : List Char) (r : LogRule) (stage : Stage) (position : Nat) (c : Char) :
    Except Flaw (LogRule × Stage) :=
  match stage, c with
  | .start, '[' => .ok (r, .scope (position + 1))
  | .start, _ => if isStart c then .ok (r, .source position) else .error .malformed
  | .source first, '=' => do
    let source := String.ofList (← piece text first position)
    return ({ r with source }, .detail (position + 1))
  | .source first, '[' => do
    let source := String.ofList (← piece text first position)
    return ({ r with source }, .scope (position + 1))
  | .scope first, ']' => do
    let _ ← piece text first position
    return ({ r with inScope := true }, .afterBrackets)
  | .scope first, '\x7b' => do
    let scope ← piece text first position
    return ({ r with inScope := !scope.isEmpty }, .part (position + 1))
  | .part first, '\x7d' => do
    return (← r.withPart (← piece text first position), .afterPart)
  | .afterPart, ']' => .ok (r, .afterBrackets)
  | .afterBrackets, '=' => .ok (r, .detail (position + 1))
  | .source _, _ | .scope _, _ | .part _, _ | .detail _, _ => .ok (r, stage)
  | .afterPart, _ | .afterBrackets, _ => .error .malformed

/-- Reads characters from a position on. -/
def steps (text : List Char) (r : LogRule) (stage : Stage) (position : Nat) :
    List Char → Except Flaw (LogRule × Stage)
  | [] => .ok (r, stage)
  | c :: cs => do
    let (r, stage) ← step text r stage position c
    steps text r stage (position + c.utf8Size) cs

/-- The rule at the end of its text. -/
def finish (text : List Char) (r : LogRule) : Stage → Except Flaw LogRule
  | .source first => do
    let word ← lastPiece text first
    match detail? word with
    | some detail => return { r with detail }
    | none => return { r with source := some (String.ofList word) }
  | .detail first => do
    let word ← lastPiece text first
    if word.isEmpty then return r
    else
      match detail? word with
      | some detail => return { r with detail }
      | none => throw .malformed
  | .afterBrackets => .ok r
  | .start | .scope _ | .part _ | .afterPart => .error .malformed

/-- The rule that a text describes: an amount of detail, or sources, scopes and parts, and perhaps
an amount of detail after an equals sign. -/
def ofText (s : String) : Except Flaw LogRule := do
  let text := s.toList
  let (r, stage) ← steps text {} .start 0 (Text.trim s).toList
  finish text r stage

/-! ## Use -/

/-- Whether a rule is for messages of a source. -/
def applies (r : LogRule) (source : String) : Bool :=
  !r.inScope && r.source.all (source.startsWith ·) && r.part.all (· = "message")

/-- How specific a rule is: by the length of the name, then by whether it asks for a part. -/
def weight (r : LogRule) : Nat :=
  2 * (r.source.map (·.utf8ByteSize + 1)).getD 0 + (if r.part.isSome then 1 else 0)

end LogRule

end GuardFinder

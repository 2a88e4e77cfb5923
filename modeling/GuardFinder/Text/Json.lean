/-!
# JSON values

A number is kept as it was written, so that a reader can tell `1` from `1.0` and from `1e0`. The
fields of an object stand in the order of the text, repeated ones included.
-/

namespace GuardFinder

/-- A JSON value. -/
inductive Json
  | null
  | bool (value : Bool)
  /-- A number, by its text. -/
  | number (text : String)
  | string (value : String)
  | array (items : List Json)
  | object (fields : List (String × Json))
  deriving Inhabited, Repr

namespace Json

/-- The whole number `n`. -/
def ofNat (n : Nat) : Json := .number (toString n)

/-- The fields of an object. -/
def fields? : Json → Option (List (String × Json))
  | .object fields => some fields
  | _ => none

/-- The last field of that name in an object. -/
def field? (name : String) : Json → Option Json
  | .object fields => fields.reverse.lookup name
  | _ => none

/-- The text of a string. -/
def string? : Json → Option String
  | .string s => some s
  | _ => none

/-- The items of an array. -/
def items? : Json → Option (List Json)
  | .array items => some items
  | _ => none

/-- The value of a number that is written in decimal digits only. -/
def nat? : Json → Option Nat
  | .number text =>
    if text.toList.all Char.isDigit then
      some (text.toList.foldl (fun n c => 10 * n + (c.toNat - '0'.toNat)) 0)
    else none
  | _ => none

end Json

end GuardFinder

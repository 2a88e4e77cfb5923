import GuardFinder.Settings
import GuardFinder.Bytecode
import GuardFinder.Text.Json.Reader
import GuardFinder.Text.Numeral

/-!
# Reading settings

Settings are written in JSON, as an object with some of the fields, each at most once, or as an
array with the fields in order, some of which may be missing at the end. Numbers are written in
digits only and fit 64 bits; the ceiling may also be a string, in base 16, 8 or 2 after `0x`, `0o`
or `0b` and in base 10 else.
-/

namespace GuardFinder.Settings

/-- The names of the fields, in order. -/
def fieldNames : List String :=
  ["timeout", "max_depth", "loop_bound", "solver_timeout", "storage_index_ceiling",
   "hash_lock_max_length"]

/-- A number that fits 64 bits. -/
def number? (j : Json) : Option Nat := j.nat?.filter (· < UInt64.size)

/-- The word that a text spells, in the base that its first two characters choose. -/
def readCeiling (text : String) : Except Numeral.Error Word :=
  match text.toList with
  | '0' :: mark :: rest =>
    if mark = 'x' ∨ mark = 'X' then Numeral.read 16 (Utf8.encode rest)
    else if mark = 'o' ∨ mark = 'O' then Numeral.read 8 (Utf8.encode rest)
    else if mark = 'b' ∨ mark = 'B' then Numeral.read 2 (Utf8.encode rest)
    else Numeral.read 10 (Utf8.encode ('0' :: mark :: rest))
  | cs => Numeral.read 10 (Utf8.encode cs)

/-- A number or a numeral. -/
def ceiling? : Json → Option Word
  | .string text => (readCeiling text).toOption
  | j => (number? j).map (BitVec.ofNat 256)

/-- Sets a field. -/
def setField? (s : Settings) (name : String) (value : Json) : Option Settings :=
  match name with
  | "timeout" => (number? value).map fun n => { s with timeout := n }
  | "max_depth" => (number? value).map fun n => { s with maxDepth := n }
  | "loop_bound" => (number? value).map fun n => { s with loopBound := n }
  | "solver_timeout" => (number? value).map fun n => { s with solverTimeout := n }
  | "storage_index_ceiling" => (ceiling? value).map fun w => { s with storageIndexCeiling := w }
  | "hash_lock_max_length" => (number? value).map fun n => { s with hashLockMaxLength := n }
  | _ => none

/-- Sets fields one after the other. -/
def setFields? (s : Settings) : List (String × Json) → Option Settings
  | [] => some s
  | (name, value) :: rest => (s.setField? name value).bind (·.setFields? rest)

/-- The settings that a JSON value describes. -/
def ofJson? : Json → Option Settings
  | .object fields =>
    if (fields.map (·.1)).eraseDups.length = fields.length then setFields? {} fields else none
  | .array items =>
    if items.length ≤ fieldNames.length then setFields? {} (fieldNames.zip items) else none
  | _ => none

/-- The settings that a text describes. -/
def ofText? (text : String) : Option Settings := (Json.parse? text).bind ofJson?

end GuardFinder.Settings

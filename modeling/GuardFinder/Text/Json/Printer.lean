import GuardFinder.Text.Json
import GuardFinder.Word

/-!
# Writing JSON

* `Json.compact`: a value on one line without blanks.
* `Json.pretty`: a value with one item or field a line, two blanks of indentation a level.
* `Json.sortKeys`: the same value with the fields of every object in the order of their names.

Inside strings the quote, the backslash and the control characters are escaped, all else stands as
it is.
-/

namespace GuardFinder.Json

/-- The text of one character inside a string. -/
def escapeChar (c : Char) : String :=
  match c with
  | '"' => "\\\""
  | '\\' => "\\\\"
  | '\n' => "\\n"
  | '\r' => "\\r"
  | '\t' => "\\t"
  | '\x08' => "\\b"
  | '\x0c' => "\\f"
  | c => if c.toNat < 0x20 then "\\u" ++ Word.hexDigitsPadded 4 c.toNat else String.singleton c

/-- A string with its quotes. -/
def quote (s : String) : String := s.toList.foldl (fun out c => out ++ escapeChar c) "\"" ++ "\""

mutual

/-- A value on one line. -/
def compact : Json → String
  | .null => "null"
  | .bool b => if b then "true" else "false"
  | .number text => text
  | .string s => quote s
  | .array items => "[" ++ String.intercalate "," (compactItems items) ++ "]"
  | .object fields => "\x7b" ++ String.intercalate "," (compactFields fields) ++ "\x7d"

/-- The items of an array, each on one line. -/
def compactItems : List Json → List String
  | [] => []
  | item :: rest => compact item :: compactItems rest

/-- The fields of an object, each on one line. -/
def compactFields : List (String × Json) → List String
  | [] => []
  | (name, value) :: rest => (quote name ++ ":" ++ compact value) :: compactFields rest

end

/-- Blanks at the start of a line, `level` levels deep. -/
def indent (level : Nat) : String := String.ofList (List.replicate (2 * level) ' ')

/-- Lines between an opening and a closing mark, one level deeper than the marks. -/
def block (level : Nat) (opening closing : String) (lines : List String) : String :=
  if lines.isEmpty then opening ++ closing
  else
    opening ++ "\n" ++
      String.intercalate ",\n" (lines.map (indent (level + 1) ++ ·)) ++
      "\n" ++ indent level ++ closing

mutual

/-- A value over several lines, the first of which stands `level` levels deep. -/
def prettyAt (level : Nat) : Json → String
  | .null => "null"
  | .bool b => if b then "true" else "false"
  | .number text => text
  | .string s => quote s
  | .array items => block level "[" "]" (prettyItems (level + 1) items)
  | .object fields => block level "\x7b" "\x7d" (prettyFields (level + 1) fields)

/-- The items of an array, `level` levels deep. -/
def prettyItems (level : Nat) : List Json → List String
  | [] => []
  | item :: rest => prettyAt level item :: prettyItems level rest

/-- The fields of an object, `level` levels deep. -/
def prettyFields (level : Nat) : List (String × Json) → List String
  | [] => []
  | (name, value) :: rest => (quote name ++ ": " ++ prettyAt level value) :: prettyFields level rest

end

/-- A value over several lines. -/
def pretty (value : Json) : String := prettyAt 0 value

mutual

/-- The value with the fields of all its objects in the order of their names. -/
def sortKeys : Json → Json
  | .array items => .array (sortItems items)
  | .object fields => .object ((sortFields fields).mergeSort fun a b => a.1 ≤ b.1)
  | other => other

/-- `sortKeys` on each item. -/
def sortItems : List Json → List Json
  | [] => []
  | item :: rest => sortKeys item :: sortItems rest

/-- `sortKeys` on the value of each field. -/
def sortFields : List (String × Json) → List (String × Json)
  | [] => []
  | (name, value) :: rest => (name, sortKeys value) :: sortFields rest

end

end GuardFinder.Json

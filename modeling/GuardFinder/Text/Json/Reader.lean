import GuardFinder.Text.Json

/-!
# Reading JSON

`Json.parse?` accepts exactly the texts of the JSON grammar: no comments, no commas at the end of a
list, no leading zeros, no control characters inside strings, and escapes of surrogates only in
pairs.
-/

namespace GuardFinder.Json

/-- Whether a character may stand between the tokens of a text. -/
def isSpace (c : Char) : Bool := c = ' ' || c = '\n' || c = '\t' || c = '\r'

/-- The value of four hexadecimal digits. -/
def hexQuad? (a b c d : Char) : Option Nat :=
  [a, b, c, d].foldl
    (fun acc ch => do
      let n ← acc
      if ch.isDigit then some (16 * n + (ch.toNat - '0'.toNat))
      else if 'a' ≤ ch ∧ ch ≤ 'f' then some (16 * n + (ch.toNat - 'a'.toNat + 10))
      else if 'A' ≤ ch ∧ ch ≤ 'F' then some (16 * n + (ch.toNat - 'A'.toNat + 10))
      else none)
    (some 0)

/-- The character that a one-letter escape stands for. -/
def escape? : Char → Option Char
  | '"' => some '"'
  | '\\' => some '\\'
  | '/' => some '/'
  | 'b' => some '\x08'
  | 'f' => some '\x0c'
  | 'n' => some '\n'
  | 'r' => some '\r'
  | 't' => some '\t'
  | _ => none

/-- Whether a number is the first half of a surrogate pair. -/
def isHighSurrogate (n : Nat) : Bool := 0xd800 ≤ n && n < 0xdc00

/-- Whether a number is the second half of a surrogate pair. -/
def isLowSurrogate (n : Nat) : Bool := 0xdc00 ≤ n && n < 0xe000

/-- Reads a string up to its closing quote. `done` holds what was read so far, last first. -/
def stringBody (done : List Char) : List Char → Option (List Char × List Char)
  | [] => none
  | '"' :: rest => some (done.reverse, rest)
  | '\\' :: 'u' :: a :: b :: c :: d :: rest =>
    match hexQuad? a b c d with
    | none => none
    | some n =>
      if isHighSurrogate n then
        match rest with
        | '\\' :: 'u' :: e :: f :: g :: h :: rest =>
          match hexQuad? e f g h with
          | some m =>
            if isLowSurrogate m then
              stringBody (Char.ofNat (0x10000 + (n - 0xd800) * 0x400 + (m - 0xdc00)) :: done) rest
            else none
          | none => none
        | _ => none
      else if isLowSurrogate n then none
      else stringBody (Char.ofNat n :: done) rest
  | '\\' :: c :: rest =>
    match escape? c with
    | some c => stringBody (c :: done) rest
    | none => none
  | c :: rest => if c.toNat < 0x20 then none else stringBody (c :: done) rest

/-- Splits off the digits at the front. -/
def digitRun (cs : List Char) : List Char × List Char :=
  (cs.takeWhile Char.isDigit, cs.dropWhile Char.isDigit)

/-- Reads the whole part of a number: a zero alone, or digits that start with no zero. -/
def wholePart? (cs : List Char) : Option (List Char × List Char) :=
  match digitRun cs with
  | ([], _) => none
  | ('0' :: _ :: _, _) => none
  | parts => some parts

/-- Reads the fraction of a number, if there is one. -/
def fraction? : List Char → Option (List Char × List Char)
  | '.' :: rest =>
    match digitRun rest with
    | ([], _) => none
    | (digits, rest) => some ('.' :: digits, rest)
  | rest => some ([], rest)

/-- Reads the exponent of a number, if there is one. -/
def exponent? (cs : List Char) : Option (List Char × List Char) :=
  match cs with
  | e :: rest =>
    if e = 'e' ∨ e = 'E' then
      let (sign, rest) := match rest with
        | '+' :: rest => (['+'], rest)
        | '-' :: rest => (['-'], rest)
        | rest => ([], rest)
      match digitRun rest with
      | ([], _) => none
      | (digits, rest) => some (e :: sign ++ digits, rest)
    else some ([], cs)
  | [] => some ([], [])

/-- Reads a number. -/
def number? (cs : List Char) : Option (Json × List Char) := do
  let (sign, rest) := match cs with
    | '-' :: rest => (['-'], rest)
    | rest => ([], rest)
  let (whole, rest) ← wholePart? rest
  let (fraction, rest) ← fraction? rest
  let (exponent, rest) ← exponent? rest
  return (.number (String.ofList (sign ++ whole ++ fraction ++ exponent)), rest)

/-- The rest of a text without the word at its front. -/
def word? (word : String) (value : Json) (cs : List Char) : Option (Json × List Char) :=
  let letters := word.toList
  if letters.isPrefixOf cs then some (value, cs.drop letters.length) else none

mutual

/-- Reads a value at the front of a text, nested at most `depth` deep. -/
def readValue? (depth : Nat) (cs : List Char) : Option (Json × List Char) :=
  match depth with
  | 0 => none
  | depth + 1 =>
    match cs.dropWhile isSpace with
    | '"' :: rest => (stringBody [] rest).map fun (s, rest) => (.string (String.ofList s), rest)
    | '[' :: rest =>
      match rest.dropWhile isSpace with
      | ']' :: rest => some (.array [], rest)
      | rest => (readItems? depth [] rest).map fun (items, rest) => (.array items, rest)
    | '{' :: rest =>
      match rest.dropWhile isSpace with
      | '}' :: rest => some (.object [], rest)
      | rest => (readMembers? depth [] rest).map fun (fields, rest) => (.object fields, rest)
    | 't' :: rest => word? "true" (.bool true) ('t' :: rest)
    | 'f' :: rest => word? "false" (.bool false) ('f' :: rest)
    | 'n' :: rest => word? "null" .null ('n' :: rest)
    | rest => number? rest

/-- Reads the items of an array up to the closing bracket. -/
def readItems? (depth : Nat) (done : List Json) (cs : List Char) : Option (List Json × List Char) :=
  match depth with
  | 0 => none
  | depth + 1 =>
    match readValue? depth cs with
    | none => none
    | some (item, rest) =>
      match rest.dropWhile isSpace with
      | ']' :: rest => some ((item :: done).reverse, rest)
      | ',' :: rest => readItems? depth (item :: done) rest
      | _ => none

/-- Reads the members of an object up to the closing brace. -/
def readMembers? (depth : Nat) (done : List (String × Json)) (cs : List Char) :
    Option (List (String × Json) × List Char) :=
  match depth with
  | 0 => none
  | depth + 1 =>
    match cs.dropWhile isSpace with
    | '"' :: rest =>
      match stringBody [] rest with
      | none => none
      | some (name, rest) =>
        match rest.dropWhile isSpace with
        | ':' :: rest =>
          match readValue? depth rest with
          | none => none
          | some (item, rest) =>
            let done := (String.ofList name, item) :: done
            match rest.dropWhile isSpace with
            | '}' :: rest => some (done.reverse, rest)
            | ',' :: rest => readMembers? depth done rest
            | _ => none
        | _ => none
    | _ => none

end

/-- The value of a JSON text. Every call of the reader takes at least one character, so twice the
length of the text bounds the depth of its calls. -/
def parse? (text : String) : Option Json :=
  let cs := text.toList
  match readValue? (2 * cs.length + 2) cs with
  | some (value, rest) => if rest.all isSpace then some value else none
  | none => none

end GuardFinder.Json

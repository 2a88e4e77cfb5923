import GuardFinder.Text.Hex
import GuardFinder.Text.Blank
import GuardFinder.Text.Utf8

/-!
# Bytecode as text

Bytecode is handed over as hexadecimal text, with blanks anywhere and any number of `0x` in front.
`Bytecode.ofText` reads such a text; a last `0X` is dropped too, and a text with nothing but blanks
and `0x` is refused.
-/

namespace GuardFinder.Bytecode

/-- Why bytecode is refused. -/
inductive Error
  /-- The text holds no digits. -/
  | empty
  /-- There is no code that could create a contract. -/
  | emptyCreation
  /-- The text is not hexadecimal. -/
  | notHex (cause : Hex.Error)
  deriving DecidableEq, Repr

/-- The error in words. -/
def Error.message : Error → String
  | .empty => "empty bytecode"
  | .emptyCreation => "empty creation code"
  | .notHex cause => cause.message

/-- Drops every `0x` at the front. -/
def dropMarks : List Char → List Char
  | '0' :: 'x' :: rest => dropMarks rest
  | cs => cs

/-- Drops one `0x` or `0X` at the front. -/
def dropMark : List Char → List Char
  | '0' :: 'x' :: rest => rest
  | '0' :: 'X' :: rest => rest
  | cs => cs

/-- The bytes that a text of bytecode spells. -/
def ofText (text : String) : Except Error Bytes :=
  match dropMarks (text.toList.filter (!Text.isBlank ·)) with
  | [] => .error .empty
  | cs => (Hex.decode (Utf8.encode (dropMark cs))).mapError .notHex

end GuardFinder.Bytecode

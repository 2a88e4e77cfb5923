import GuardFinder.Address
import GuardFinder.Text.Json.Reader
import GuardFinder.Text.Numeral

/-!
# Storage of deployed contracts

A storage reader tells what a slot of a contract holds. A snapshot is a reader that was written down
before: an object of strings in JSON, slots and their values as numerals. A slot that it does not
name holds zero.
-/

namespace GuardFinder

/-- Tells what slots of contracts hold, or why it cannot. -/
structure StorageReader where
  read : Address → Word → Except String Word

/-- The contents of some slots. -/
structure Snapshot where
  /-- Slots and contents; the first entry for a slot counts. -/
  slots : List (Word × Word) := []

namespace Snapshot

/-- Why a text is no snapshot. -/
inductive Error
  /-- The text is no object of strings. -/
  | shape
  /-- A slot or a value is no numeral. -/
  | badWord (text : String) (cause : Numeral.Error)
  deriving DecidableEq, Repr

/-- The error in words. -/
def Error.message : Error → String
  | .shape => "Storage snapshot must be a JSON object of strings"
  | .badWord text cause => "Invalid storage word '" ++ text ++ "': " ++ cause.message

/-- What a slot holds. -/
def read (s : Snapshot) (slot : Word) : Word := (s.slots.lookup slot).getD 0

/-- The snapshot with another content of a slot. -/
def withSlot (s : Snapshot) (slot value : Word) : Snapshot := ⟨(slot, value) :: s.slots⟩

/-- The word that a text spells: in base 16 after `0x`, and in base 10 else. -/
def readWord (text : String) : Except Error Word :=
  let trimmed := Text.trim text
  let result := match trimmed.toList with
    | '0' :: 'x' :: rest => Numeral.read 16 (Utf8.encode rest)
    | cs => Numeral.read 10 (Utf8.encode cs)
  result.mapError (.badWord trimmed)

/-- The snapshot with the given entries after those of `s`. -/
def addEntries (s : Snapshot) : List (String × String) → Except Error Snapshot
  | [] => .ok s
  | (slot, value) :: rest => do
    let slot ← readWord slot
    let value ← readWord value
    addEntries (s.withSlot slot value) rest

/-- The snapshot with the given entries. -/
def ofEntries (entries : List (String × String)) : Except Error Snapshot := addEntries {} entries

/-- The strings of an object, when all its fields are strings. -/
def strings? : List (String × Json) → Option (List (String × String))
  | [] => some []
  | (name, .string value) :: rest => (strings? rest).map ((name, value) :: ·)
  | _ :: _ => none

/-- The entries that count: the last of those with the same key. -/
def lastEntries : List (String × String) → List (String × String)
  | [] => []
  | entry :: rest =>
    if rest.any (·.1 = entry.1) then lastEntries rest else entry :: lastEntries rest

/-- The snapshot that a text describes. -/
def ofText (text : String) : Except Error Snapshot :=
  match (Json.parse? text).bind Json.fields? with
  | none => .error .shape
  | some fields =>
    match strings? fields with
    | none => .error .shape
    | some entries => ofEntries (lastEntries entries)

/-- The snapshot as a reader, whatever the address. -/
def reader (s : Snapshot) : StorageReader := ⟨fun _ slot => .ok (s.read slot)⟩

end Snapshot

end GuardFinder

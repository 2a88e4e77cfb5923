import GuardFinder.Opcode

/-!
# Symbolic words

A term stands for a word that a run does not know. Two terms are the same term when they are built
in the same way; nothing else is ever concluded from them.

* `Term.applyUnary`, `Term.applyBinary`: an operation on terms, carried out at once on constants.
* `Term.readsSelector`: whether a term is built on the first word of the call data.
* `Term.text`: a term as text.
-/

namespace GuardFinder

/-- A symbolic word. -/
inductive Term
  | const (value : Word)
  /-- A value of the transaction or the block, named by the opcode that reads it. -/
  | env (op : Opcode)
  /-- The word of the call data at an offset. -/
  | callData (offset : Term)
  /-- What a storage slot held when the transaction started. -/
  | storage (slot : Term)
  | unary (op : Opcode) (a : Term)
  /-- An operation on two words; `a` was on top of the stack. -/
  | binary (op : Opcode) (a b : Term)
  /-- The hash of a range of memory, given word by word. -/
  | keccak (words : List Term)
  /-- Bytes in a row, the most significant first. -/
  | concat (bytes : List Term)
  /-- The result number `id` of an instruction that is not followed any further. -/
  | havoc (origin : Opcode) (id : Nat)
  deriving Inhabited, Repr

namespace Term

/-! ## Equality

Terms share their parts, so equality first looks whether both sides are one object. -/

mutual

/-- Decides equality of terms. -/
def decEq (a b : Term) : Decidable (a = b) :=
  withPtrEqDecEq a b fun _ =>
    match a with
    | .const v =>
      match b with
      | .const w => decidable_of_iff (v = w) (by simp)
      | .env .. | .callData .. | .storage .. | .unary .. | .binary .. | .keccak .. | .concat ..
      | .havoc .. => isFalse nofun
    | .env o =>
      match b with
      | .env p => decidable_of_iff (o = p) (by simp)
      | .const .. | .callData .. | .storage .. | .unary .. | .binary .. | .keccak .. | .concat ..
      | .havoc .. => isFalse nofun
    | .callData x =>
      match b with
      | .callData y => @decidable_of_iff _ (x = y) (by simp) (decEq x y)
      | .const .. | .env .. | .storage .. | .unary .. | .binary .. | .keccak .. | .concat ..
      | .havoc .. => isFalse nofun
    | .storage x =>
      match b with
      | .storage y => @decidable_of_iff _ (x = y) (by simp) (decEq x y)
      | .const .. | .env .. | .callData .. | .unary .. | .binary .. | .keccak .. | .concat ..
      | .havoc .. => isFalse nofun
    | .unary o x =>
      match b with
      | .unary p y =>
        have := decEq x y
        decidable_of_iff (o = p ∧ x = y) (by simp)
      | .const .. | .env .. | .callData .. | .storage .. | .binary .. | .keccak .. | .concat ..
      | .havoc .. => isFalse nofun
    | .binary o x x' =>
      match b with
      | .binary p y y' =>
        have := decEq x y
        have := decEq x' y'
        decidable_of_iff (o = p ∧ x = y ∧ x' = y') (by simp)
      | .const .. | .env .. | .callData .. | .storage .. | .unary .. | .keccak .. | .concat ..
      | .havoc .. => isFalse nofun
    | .keccak xs =>
      match b with
      | .keccak ys => @decidable_of_iff _ (xs = ys) (by simp) (decEqList xs ys)
      | .const .. | .env .. | .callData .. | .storage .. | .unary .. | .binary .. | .concat ..
      | .havoc .. => isFalse nofun
    | .concat xs =>
      match b with
      | .concat ys => @decidable_of_iff _ (xs = ys) (by simp) (decEqList xs ys)
      | .const .. | .env .. | .callData .. | .storage .. | .unary .. | .binary .. | .keccak ..
      | .havoc .. => isFalse nofun
    | .havoc o i =>
      match b with
      | .havoc p j => decidable_of_iff (o = p ∧ i = j) (by simp)
      | .const .. | .env .. | .callData .. | .storage .. | .unary .. | .binary .. | .keccak ..
      | .concat .. => isFalse nofun

/-- Decides equality of lists of terms. -/
def decEqList (as bs : List Term) : Decidable (as = bs) :=
  match as with
  | [] =>
    match bs with
    | [] => isTrue rfl
    | _ :: _ => isFalse nofun
  | a :: as =>
    match bs with
    | [] => isFalse nofun
    | b :: bs =>
      match decEq a b with
      | isTrue h =>
        match decEqList as bs with
        | isTrue hs => isTrue (by rw [h, hs])
        | isFalse hs => isFalse (by simp [hs])
      | isFalse h => isFalse (by simp [h])

end

instance : DecidableEq Term := decEq

/-! ## Constants and selectors -/

/-- The value of a constant. -/
def const? : Term → Option Word
  | .const v => some v
  | _ => none

/-- Whether a term is an operation on the first word of the call data, where the selector of a
function stands. -/
def readsSelector : Term → Bool
  | .callData offset => offset.const? = some 0
  | .unary _ a => a.readsSelector
  | .binary _ a b => a.readsSelector || b.readsSelector
  | _ => false

/-! ## Operations -/

/-- The result of an operation on one constant, for the operations that are carried out. -/
def foldUnary? (op : Opcode) (x : Word) : Option Word :=
  match op.byte.toNat with
  | 0x15 => some (Word.ofBool (x = 0))
  | 0x19 => some (~~~x)
  | _ => none

/-- The result of an operation on two constants, for the operations that are carried out. Signed
division and remainder, sign extension and the arithmetic shift stay symbolic. -/
def foldBinary? (op : Opcode) (x y : Word) : Option Word :=
  match op.byte.toNat with
  | 0x01 => some (x + y)
  | 0x02 => some (x * y)
  | 0x03 => some (x - y)
  | 0x04 => some (Word.div x y)
  | 0x06 => some (Word.mod x y)
  | 0x0a => some (Word.pow x y)
  | 0x10 => some (Word.ofBool (x < y))
  | 0x11 => some (Word.ofBool (y < x))
  | 0x12 => some (Word.ofBool (x.signedLess y))
  | 0x13 => some (Word.ofBool (y.signedLess x))
  | 0x14 => some (Word.ofBool (x = y))
  | 0x16 => some (x &&& y)
  | 0x17 => some (x ||| y)
  | 0x18 => some (x ^^^ y)
  | 0x1a => some (Word.byte x y)
  | 0x1b => some (Word.shl x y)
  | 0x1c => some (Word.shr x y)
  | _ => none

/-- An operation on one word. -/
def applyUnary (op : Opcode) (a : Term) : Term :=
  match a.const?.bind (foldUnary? op) with
  | some v => .const v
  | none => .unary op a

/-- An operation on two words, of which `a` is on top of the stack. -/
def applyBinary (op : Opcode) (a b : Term) : Term :=
  match a.const?, b.const? with
  | some x, some y =>
    match foldBinary? op x y with
    | some v => .const v
    | none => .binary op a b
  | _, _ => .binary op a b

/-! ## Text -/

mutual

/-- A term as text. Bytes in a row are spelled out if `spelled` is set, and only counted else. -/
def text (spelled : Bool) : Term → String
  | .const v => Word.toHex v
  | .env op => op.lowerName
  | .callData offset => "calldata[" ++ text spelled offset ++ "]"
  | .storage slot => "storage[" ++ text spelled slot ++ "]"
  | .unary op a => op.lowerName ++ "(" ++ text spelled a ++ ")"
  | .binary op a b => op.lowerName ++ "(" ++ text spelled a ++ ", " ++ text spelled b ++ ")"
  | .keccak words => "keccak(" ++ String.intercalate " . " (texts spelled words) ++ ")"
  | .concat bytes =>
    if spelled then "concat(" ++ String.intercalate " . " (texts spelled bytes) ++ ")"
    else "concat<" ++ toString bytes.length ++ ">"
  | .havoc origin id => origin.lowerName ++ "#" ++ toString id

/-- The texts of several terms. -/
def texts (spelled : Bool) : List Term → List String
  | [] => []
  | t :: ts => text spelled t :: texts spelled ts

end

end Term

/-- What a path knows of a branch it took: whether its condition was different from zero. -/
structure Constraint where
  condition : Term
  holds : Bool
  deriving DecidableEq, Repr

end GuardFinder

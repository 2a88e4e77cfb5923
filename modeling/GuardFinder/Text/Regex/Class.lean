import GuardFinder.Text.Regex.Item

/-!
# Classes of characters in regular expressions

A class stands in square brackets. Its members are characters, ranges of them, classes with names
and classes inside, and operators stand between lists of members. Of what is read only the depth is
kept, which is how many constructions are inside one another.

* `Class.read?`: reads a class.
-/

namespace GuardFinder.Regex

/-- The depth of several parts, from their depths. Only two or more parts make a construction. -/
def joinDepths : List Nat → Nat
  | [] => 0
  | [d] => d
  | ds => ds.foldl max 0 + 1

/-- What was read of the start of a class. -/
inductive ClassStart
  /-- Nothing yet. -/
  | fresh
  /-- Only hyphens. -/
  | hyphens
  /-- Members. -/
  | members
  deriving DecidableEq, Repr

/-- A class that is being read. -/
structure Class where
  start : ClassStart := .fresh
  /-- The depths of the members after the last operator. -/
  members : List Nat := []
  /-- The depth of what stands before the last operator. -/
  left : Option Nat := none
  deriving DecidableEq, Repr

namespace Class

/-- The depth of what was read. -/
def depth (k : Class) : Nat :=
  match k.left with
  | none => joinDepths k.members
  | some left => max left (joinDepths k.members) + 1

/-- The class with one more member. -/
def add (k : Class) (depth : Nat) : Class :=
  { k with start := .members, members := depth :: k.members }

/-- The class after an operator. -/
def operate (k : Class) : Class := { start := .members, left := some k.depth }

/-- The names of classes. -/
def names : List String :=
  ["alnum", "alpha", "ascii", "blank", "cntrl", "digit", "graph", "lower", "print", "punct",
   "space", "upper", "word", "xdigit"]

/-- Reads a class with a name, after its bracket. It can stand for all other characters. -/
def named? (cs : List Char) : Option (Bool × List Char) :=
  match cs with
  | ':' :: cs =>
    let negated := cs.head? = some '^'
    let (name, rest) := (if negated then cs.tail else cs).span (· ≠ ':')
    match rest with
    | ':' :: ']' :: rest =>
      if names.contains (String.ofList name) then some (negated, rest) else none
    | _ => none
  | _ => none

/-- Whether a class may stand for all other characters. Bytes that are not in ASCII have no meaning
of their own. -/
def mayNegate (m : Mode) (negated : Bool) : Bool := m.unicode || !negated

/-- Reads the start of a class, after its bracket. -/
def open? (m : Mode) (cs : List Char) : Option (Class × List Char) :=
  let cs := m.skip cs
  let negated := cs.head? = some '^'
  if mayNegate m negated then some ({}, if negated then cs.tail else cs) else none

/-- Reads a character of a class, which may be an escape. -/
def item? (m : Mode) : List Char → Option (Item × List Char)
  | [] => none
  | '\\' :: rest => Item.escape? m rest
  | c :: rest => some (.literal c false, rest)

/-- Whether two items are the ends of a range. -/
def isRange : Item → Item → Bool
  | .literal first _, .literal last _ => first ≤ last
  | _, _ => false

/-- Reads a member or a range. A hyphen before another one, or before the end of the class, makes no
range. -/
def member? (m : Mode) (cs : List Char) : Option (List Char) := do
  let (first, rest) ← item? m cs
  let rest := m.skip rest
  match rest with
  | [] => none
  | '-' :: more =>
    if (m.ahead? more).any (fun c => c = ']' || c = '-') then
      if first.isMember m then some rest else none
    else
      let (last, rest) ← item? m (m.skip more)
      if isRange first last && first.isMember m && last.isMember m then some rest else none
  | _ => if first.isMember m then some rest else none

/-- Reads a class up to its end, with the classes around it. Each step takes at least one character,
so the number of characters is enough fuel. -/
def read? (m : Mode) : (fuel : Nat) → Class → List Class → List Char → Option (Nat × List Char)
  | 0, _, _, _ => none
  | fuel + 1, k, around, cs =>
    let plain (c : Char) (start : ClassStart) (rest : List Char) :=
      if (Item.literal c false).isMember m then
        read? m fuel { k.add 0 with start } around rest
      else none
    let member (cs : List Char) := do read? m fuel (k.add 0) around (← member? m cs)
    match k.start, m.skip cs with
    | _, [] => none
    | .fresh, '-' :: rest | .hyphens, '-' :: rest => plain '-' .hyphens rest
    | .fresh, ']' :: rest => plain ']' .members rest
    | _, '[' :: rest =>
      match named? rest with
      | some (negated, rest) =>
        if mayNegate m negated && !(m.unicode && m.ignoreCase) then
          read? m fuel (k.add 0) around rest
        else none
      | none => do
        let (inner, rest) ← open? m rest
        read? m fuel inner (k :: around) rest
    | _, ']' :: rest =>
      match around with
      | [] => some (k.depth + 1, rest)
      | outer :: around => read? m fuel (outer.add (k.depth + 1)) around rest
    | _, '&' :: '&' :: rest | _, '-' :: '-' :: rest | _, '~' :: '~' :: rest =>
      read? m fuel k.operate around rest
    | _, cs => member cs

end Class

end GuardFinder.Regex

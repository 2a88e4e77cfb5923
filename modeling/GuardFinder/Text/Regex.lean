import GuardFinder.Text.Regex.Class

/-!
# Regular expressions

Whether a text is a regular expression. An expression is a choice of branches, a branch is a list of
items, which may be repeated, and groups of branches are items. Counts in braces are not known, so a
brace that opens is a mistake. Expressions must not be too deep.

* `Regex.isValid`: whether a text is a regular expression.
-/

namespace GuardFinder.Regex

/-- How many constructions may be inside one another. -/
def depthBound : Nat := 250

/-- A group that is being read. -/
structure Group where
  mode : Mode := {}
  /-- The depths of the items of the branch, the last one first. A change of the mode is an item
  without a depth, and cannot be repeated. -/
  items : List (Option Nat) := []
  /-- The depths of the branches before. -/
  branches : List Nat := []
  deriving DecidableEq, Repr

namespace Group

/-- The group with one more item. -/
def add (g : Group) (depth : Nat) : Group := { g with items := some depth :: g.items }

/-- The depth of the branch that is being read. -/
def branchDepth (g : Group) : Nat := joinDepths (g.items.map (·.getD 0))

/-- The depth of what is in the group. -/
def depth (g : Group) : Nat := joinDepths (g.branchDepth :: g.branches)

/-- The group after the end of a branch. -/
def nextBranch (g : Group) : Group :=
  { g with items := [], branches := g.branchDepth :: g.branches }

/-- The group with its last item repeated. -/
def repeatLast? (g : Group) : Option Group :=
  match g.items with
  | some depth :: items => some { g with items := some (depth + 1) :: items }
  | _ => none

end Group

/-- What was read of an expression. -/
structure State where
  group : Group := {}
  /-- The groups around, from the inside. -/
  around : List Group := []
  /-- The names of groups. -/
  names : List (List Char) := []
  deriving DecidableEq, Repr

namespace State

/-- The state with one more item. -/
def add (s : State) (depth : Nat) : State := { s with group := s.group.add depth }

/-- The state in a new group. -/
def enter (s : State) (mode : Mode) : State :=
  { s with group := { mode }, around := s.group :: s.around }

/-- The state after the end of a group. -/
def leave? (s : State) : Option State :=
  match s.around with
  | [] => none
  | outer :: around => some { s with group := outer.add (s.group.depth + 1), around }

/-- Reads the start of a group with a name, after its angle bracket. -/
def enterNamed? (s : State) (cs : List Char) : Option (State × List Char) :=
  let (name, rest) := cs.span (· ≠ '>')
  match rest with
  | _ :: rest =>
    if isName name && !s.names.contains name then
      some ({ s with names := name :: s.names }.enter s.group.mode, rest)
    else none
  | [] => none

/-- Reads a change of the mode, for a group or for what follows. -/
def change? (s : State) (cs : List Char) : Option (State × List Char) := do
  let (letters, rest) := cs.span fun c => c ≠ ':' && c ≠ ')'
  let mode ← s.group.mode.setting? letters
  match rest with
  | ':' :: rest => some (s.enter mode, rest)
  | ')' :: rest =>
    if letters.isEmpty then none
    else some ({ s with group := { s.group with mode, items := none :: s.group.items } }, rest)
  | _ => none

/-- Reads the start of a group, after its bracket. -/
def open? (s : State) (cs : List Char) : Option (State × List Char) :=
  match s.group.mode.skip cs with
  | '?' :: '=' :: _ | '?' :: '!' :: _ | '?' :: '<' :: '=' :: _ | '?' :: '<' :: '!' :: _ => none
  | '?' :: 'P' :: '<' :: rest | '?' :: '<' :: rest => s.enterNamed? rest
  | '?' :: rest => s.change? rest
  | rest => some (s.enter s.group.mode, rest)

/-- Adds an item that stands outside of classes. -/
def addItem? (s : State) (item : Item) : Option State :=
  if item.isUsable s.group.mode then some (s.add 0) else none

/-- Reads what starts with a character. -/
def step? (s : State) (c : Char) (rest : List Char) : Option (State × List Char) :=
  match c with
  | '(' => s.open? rest
  | ')' => do return (← s.leave?, rest)
  | '|' => some ({ s with group := s.group.nextBranch }, rest)
  | '[' => do
    let (k, rest) ← Class.open? s.group.mode rest
    let (depth, rest) ← Class.read? s.group.mode (rest.length + 1) k [] rest
    return (s.add depth, rest)
  | '*' | '+' | '?' => do
    let group ← s.group.repeatLast?
    return ({ s with group }, if rest.head? = some '?' then rest.tail else rest)
  | '\x7b' => none
  | '.' => if s.group.mode.unicode then some (s.add 0, rest) else none
  | '^' | '$' => some (s.add 0, rest)
  | '\\' => do
    let (item, rest) ← Item.escape? s.group.mode rest
    return (← s.addItem? item, rest)
  | _ => do return (← s.addItem? (.literal c false), rest)

/-- Reads an expression up to its end. Each step takes at least one character, so the number of
characters is enough fuel. -/
def read? : (fuel : Nat) → State → List Char → Option State
  | 0, _, _ => none
  | fuel + 1, s, cs =>
    match s.group.mode.skip cs with
    | [] => some s
    | c :: rest => do
      let (s, rest) ← s.step? c rest
      read? fuel s rest

end State

/-- Whether a text is a regular expression. -/
def isValid (cs : List Char) : Bool :=
  match State.read? (cs.length + 1) {} cs with
  | some s => s.around.isEmpty && s.group.depth ≤ depthBound
  | none => false

end GuardFinder.Regex

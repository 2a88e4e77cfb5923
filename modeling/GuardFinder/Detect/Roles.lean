import GuardFinder.Detect.Watch
import GuardFinder.Text.Hex
import Std.Data.TreeSet

/-!
# Roles

Functions that branch on a storage word whose place depends both on the hash of a role and on the
hash of the caller.

Known words forget their taints in memory. So known role names, and the hashes made of them, are
remembered by value, and recognised when the memory that holds them is hashed.
-/

namespace GuardFinder.Roles

open Watch

/-- The opcodes to be told about before they are executed. -/
def preOpcodes : List Opcode := [.add, .jumpDest, .jumpi, .sha3]

/-- The opcodes to be told about after they are executed. -/
def postOpcodes : List Opcode := [.caller, .sha3, .sload]

/-- What is remembered between events. -/
structure Memo where
  /-- The memory that is about to be hashed holds a known role. -/
  forward : Bool := false
  /-- The first known role of each function. -/
  roles : List (String × Word) := []
  /-- Known roles and the known hashes made of them. -/
  words : Std.TreeSet Word := ∅

/-- A look at events and taints that may remember something. -/
abbrev Recall := EStateM Underflow (Memo × Ledger)

/-- Changes what is remembered. -/
def remember (f : Memo → Memo) : Recall Unit := modify fun (memo, ledger) => (f memo, ledger)

namespace Memo

/-- Remembers a word. -/
def addWord (m : Memo) (w : Word) : Memo := { m with words := m.words.insert w }

/-- Remembers the role of a function, unless one is remembered already. -/
def addRole (m : Memo) (functionName : String) (role : Word) : Memo :=
  if (m.roles.lookup functionName).isSome then m
  else { m with roles := (functionName, role) :: m.roles }

/-- Forgets the role of a function. -/
def dropRole (m : Memo) (functionName : String) : Memo :=
  { m with roles := m.roles.filter (·.1 ≠ functionName) }

/-- Adds a distance to all remembered words. -/
def shift (m : Memo) (distance : Word) : Memo :=
  { m with words := m.words.foldl (fun shifted w => shifted.insert (w + distance)) ∅ }

/-- Forgets a word that is about to be hashed, and notes that it is. -/
def take (m : Memo) (w : Word) : Memo :=
  if w ∈ m.words then { m with words := m.words.erase w, forward := true } else m

end Memo

/-- A role as text: its bytes from the first that is not zero, those outside ASCII replaced. -/
def roleText (role : Word) : String :=
  match (Word.toBytes role).dropWhile (· = 0) with
  | [] => "0x" ++ Hex.encode (Word.toBytes role)
  | bytes =>
    String.ofList (bytes.map fun b => if b < 0x80 then Char.ofNat b.toNat else Char.ofNat 0xfffd)

/-- Marks a role, or remembers it when it is known. -/
def noteRole (functionName : String) (role : Value) : Recall Unit := do
  match role.const? with
  | none => annotate role .role
  | some w => remember fun m => (m.addWord w).addRole functionName w

/-- At a jump destination with the caller near the top of the stack, the item next to it may be a
role. -/
def markRole (e : Event) : Recall Unit := do
  match e.state.stack with
  | top :: second :: _ =>
    let topTaints ← taintsOf top
    let secondTaints ← taintsOf second
    if .caller ∈ topTaints then noteRole e.state.functionName second
    else if .caller ∈ secondTaints then noteRole e.state.functionName top
  | _ => pure ()

/-- The fields of a role's record stand at distances from the hashed slot. -/
def shiftWords (e : Event) : Recall Unit := do
  let top ← item e 0
  let second ← item e 1
  let topTaints ← taintsOf top
  let secondTaints ← taintsOf second
  let distance :=
    if topTaints.hasAny [.role, .hashedRole] then second.const?
    else if secondTaints.hasAny [.role, .hashedRole] then top.const?
    else none
  match distance with
  | some distance => remember (·.shift distance)
  | none => pure ()

/-- The known words of a memory range, the last of which may reach beyond its end. -/
def knownWords (m : Memory) (offset length : Nat) : List Word :=
  (List.range ((length + 31) / 32)).filterMap fun k => m.knownWord? (offset + 32 * k)

/-- Looks for remembered words in the memory that is about to be hashed. -/
def matchMemory (e : Event) : Recall Unit := do
  let offset := (← item e 0).size?
  let length := (← item e 1).size?
  match offset, length with
  | some offset, some length =>
    if 32 ≤ length ∧ offset + length ≤ Memory.limit then
      remember fun m => (knownWords e.state.memory offset length).foldl Memo.take m
  | _, _ => pure ()

/-- Marks a hash by what was hashed. -/
def markHash (e : Event) : Recall Unit := do
  let result ← item e 0
  if (← get).1.forward then
    annotate result .hashedRole
    remember fun m => { m with forward := false }
    match result.const? with
    | some w => remember (·.addWord w)
    | none => pure ()
  if .role ∈ (← taintsOf result) then annotate result .hashedRole
  if .caller ∈ (← taintsOf result) then annotate result .hashedCaller

/-- Marks a word that is read from storage at a place made of a role and the caller. -/
def markLoad (e : Event) (previous : Frame) : Recall Unit := do
  let key ← taintsOf (← itemOf previous 0)
  if key.hasAll [.hashedCaller, .hashedRole] then
    let result ← item e 0
    annotate result .hashedCaller
    annotate result .hashedRole

/-- Looks at a branch. -/
def inspectBranch (e : Event) : Recall (Option Finding) := do
  let condition ← taintsOf (← item e 1)
  if condition.hasAll [.hashedCaller, .hashedRole] then
    let name := e.state.functionName
    match (← get).1.roles.lookup name with
    | some role =>
      remember (·.dropRole name)
      say (.roleChecked name role)
      say (.roleText (roleText role))
    | none => pure ()
    remember fun m => { m with words := ∅ }
    return some ⟨name, none, none⟩
  else return none

/-- Looks at an event. -/
def observe (e : Event) : Recall (Option Finding) := do
  match e.phase with
  | .post =>
    match e.executed?, e.previous with
    | some .caller, _ => annotate (← item e 0) .caller
    | some .sha3, _ => markHash e
    | some .sload, some previous => markLoad e previous
    | _, _ => pure ()
    return none
  | .pre =>
    match e.state.opcode with
    | .jumpDest =>
      markRole e
      return none
    | .add =>
      shiftWords e
      return none
    | .sha3 =>
      matchMemory e
      return none
    | .jumpi => inspectBranch e
    | _ => return none

end GuardFinder.Roles

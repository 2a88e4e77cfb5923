import GuardFinder.Explore.Execute

/-!
# What an instruction can do

One place that says what instructions do to a path. What holds of all effects is shown from here,
without another look at how instructions are executed.

* `Opcode.Kind.hasArity`: how many items opcodes of a kind take from the stack and put there.
* `Instruction.Drops`, `Instruction.Makes`, `Instruction.Guesses`, `Instruction.Writes`: what
  becomes of operands that are only taken away, that a new value is made of, of whose result only
  the origin is known, or that are written to memory.
* `Executes`: the effects that an instruction can have. `executes_execute`, `Executes.execute_eq`:
  **there is one for each path**, and that is what `execute` gives.
* `drops_of_flow`: where paths jump, branch or return.
-/

namespace GuardFinder

/-! ### Operands -/

/-- The numbers of items that opcodes of a kind take from the stack and put there. -/
def Opcode.Kind.hasArity : Opcode.Kind → Nat × Nat → Bool
  | .push, a | .codeSize, a | .counter, a | .memorySize, a | .environment, a => a = (0, 1)
  | .dup n, a => 0 < n && a = (n, n + 1)
  | .swap n, a => 0 < n && a = (n + 1, n + 1)
  | .jump, a => a = (1, 0)
  | .unary, a | .callDataLoad, a | .memoryLoad, a | .storageLoad, a | .query, a => a = (1, 1)
  | .binary, a | .hash, a => a = (2, 1)
  | .branch, a | .memoryStore, a | .memoryStoreByte, a | .storageStore, a => a = (2, 0)
  | .modular, a => a = (3, 1)
  | .callDataCopy, a | .codeCopy, a => a = (3, 0)
  | .unmodelled, a => a.2 = 1
  | .discard, a => a.2 = 0
  | .giveBack, _ | .halt, _ => true

/-- Whether opcodes of a kind are executed with fewer operands than they take. -/
def Opcode.Kind.isLenient : Opcode.Kind → Bool
  | .halt | .unmodelled | .discard => true
  | _ => false

theorem Opcode.hasArity_kind (op : Opcode) : op.kind.hasArity op.arity = true :=
  Opcode.forall_of_bytes (P := fun op => op.kind.hasArity op.arity = true) (by decide +kernel) op

namespace Opcode

variable {op : Opcode}

theorem hasArity_of_kind {k : Kind} (h : op.kind = k) : k.hasArity op.arity = true :=
  h ▸ op.hasArity_kind

theorem arity_of_dup {n : Nat} (h : op.kind = .dup n) : 0 < n ∧ op.arity = (n, n + 1) := by
  have harity := hasArity_of_kind h
  simpa only [Kind.hasArity, Bool.and_eq_true, decide_eq_true_eq] using harity

theorem arity_of_swap {n : Nat} (h : op.kind = .swap n) : op.arity = (n + 1, n + 1) := by
  have harity := hasArity_of_kind h
  simp only [Kind.hasArity, Bool.and_eq_true, decide_eq_true_eq] at harity
  exact harity.2

theorem arity_of_giveBack : op.kind = .giveBack → op.arity = (2, 0) :=
  forall_of_bytes (P := fun op => op.kind = .giveBack → op.arity = (2, 0)) (by decide +kernel) op

end Opcode

theorem exists_cons {stack : List Value} (h : 1 ≤ stack.length) : ∃ a rest, stack = a :: rest :=
  List.exists_cons_of_length_pos h

theorem exists_cons_cons {stack : List Value} (h : 2 ≤ stack.length) :
    ∃ a b rest, stack = a :: b :: rest := by
  match stack, h with
  | a :: b :: rest, _ => exact ⟨a, b, rest, rfl⟩

theorem exists_cons_cons_cons {stack : List Value} (h : 3 ≤ stack.length) :
    ∃ a b c rest, stack = a :: b :: c :: rest := by
  match stack, h with
  | a :: b :: c :: rest, _ => exact ⟨a, b, c, rest, rfl⟩

/-! ### Effects -/

namespace Instruction

/-- Operands that an instruction only takes from the stack of a path, and where the path goes. -/
inductive Drops (ins : Instruction) (p : Path) : List Value → Flow → Prop
  | discard (kind : ins.opcode.kind = .discard) :
      ins.Drops p (p.stack.take ins.opcode.pops) .next
  | halt (kind : ins.opcode.kind = .halt) :
      ins.Drops p (p.stack.take ins.opcode.pops) (.halt none)
  | giveBack (kind : ins.opcode.kind = .giveBack) (offset length : Value) :
      ins.Drops p [offset, length] (.halt (returnedBytes? p.memory offset length))
  | jump (kind : ins.opcode.kind = .jump) (destination : Value) :
      ins.Drops p [destination] (.jump destination)
  | branch (kind : ins.opcode.kind = .branch) (destination condition : Value) :
      ins.Drops p [destination, condition] (.branch destination condition)

/-- Operands that an instruction makes a new value of, the word of that value and the tags that it
inherits taints from. -/
inductive Makes (program : Program) (ins : Instruction) (p : Path) :
    List Value → Term → List Nat → Prop
  | argument (kind : ins.opcode.kind = .push) :
      ins.Makes program p [] (.const (ins.argument.getD 0)) []
  | codeSize (kind : ins.opcode.kind = .codeSize) :
      ins.Makes program p [] (.const (BitVec.ofNat 256 program.code.length)) []
  | counter (kind : ins.opcode.kind = .counter) :
      ins.Makes program p [] (.const (BitVec.ofNat 256 ins.address)) []
  | memorySize (kind : ins.opcode.kind = .memorySize) :
      ins.Makes program p [] (.const (BitVec.ofNat 256 p.memory.size)) []
  | environment (kind : ins.opcode.kind = .environment) :
      ins.Makes program p [] (.env ins.opcode) []
  | unary (kind : ins.opcode.kind = .unary) (a : Value) :
      ins.Makes program p [a] (.applyUnary ins.opcode a.word) [a.tag]
  | binary (kind : ins.opcode.kind = .binary) (a b : Value) :
      ins.Makes program p [a, b] (.applyBinary ins.opcode a.word b.word) [a.tag, b.tag]
  | hash (kind : ins.opcode.kind = .hash) {offset length : Value} {o n : Nat}
      (range : memoryRange? offset length = some (o, n)) :
      ins.Makes program p [offset, length] (hashOf p.memory o n).1 (hashOf p.memory o n).2
  | callData (kind : ins.opcode.kind = .callDataLoad) (offset : Value) :
      ins.Makes program p [offset] (.callData offset.word) []
  | storage (kind : ins.opcode.kind = .storageLoad) {slot : Value}
      (unwritten : p.stored? slot.word = none) :
      ins.Makes program p [slot] (.storage slot.word) []
  | query (kind : ins.opcode.kind = .query) (a : Value) :
      ins.Makes program p [a] (.unary ins.opcode a.word) []

/-- Operands of an instruction of whose result only the origin is known, and the tags that the
result inherits taints from. -/
inductive Guesses (ins : Instruction) (p : Path) : List Value → List Nat → Prop
  | modular (kind : ins.opcode.kind = .modular) (a b c : Value) :
      ins.Guesses p [a, b, c] [a.tag, b.tag, c.tag]
  | hash (kind : ins.opcode.kind = .hash) {offset length : Value}
      (range : memoryRange? offset length = none) : ins.Guesses p [offset, length] []
  | memory (kind : ins.opcode.kind = .memoryLoad) {offset : Value}
      (range : memoryOffset? offset 32 = none) : ins.Guesses p [offset] []
  | unmodelled (kind : ins.opcode.kind = .unmodelled) :
      ins.Guesses p (p.stack.take ins.opcode.pops) []

/-- Operands of an instruction that changes memory and nothing else, and the memory after it. -/
inductive Writes (program : Program) (ins : Instruction) (p : Path) : List Value → Memory → Prop
  | code (kind : ins.opcode.kind = .codeCopy) (destination source length : Value) :
      ins.Writes program p [destination, source, length]
        (copyCode p.memory program.code destination source length)
  | word (kind : ins.opcode.kind = .memoryStore) {offset : Value} {o : Nat}
      (range : memoryOffset? offset 32 = some o) (v : Value) :
      ins.Writes program p [offset, v] (p.memory.storeWord o v)
  | byte (kind : ins.opcode.kind = .memoryStoreByte) {offset : Value} {o : Nat}
      (range : memoryOffset? offset 1 = some o) (v : Value) :
      ins.Writes program p [offset, v] (p.memory.storeByte o v)
  | wordLost (kind : ins.opcode.kind = .memoryStore) {offset : Value}
      (range : memoryOffset? offset 32 = none) (v : Value) :
      ins.Writes program p [offset, v] p.memory
  | byteLost (kind : ins.opcode.kind = .memoryStoreByte) {offset : Value}
      (range : memoryOffset? offset 1 = none) (v : Value) :
      ins.Writes program p [offset, v] p.memory

end Instruction

/-- The effects that an instruction can have on a path. -/
inductive Executes (program : Program) (ins : Instruction) (p : Path) (s : Supply) : Effect → Prop
  | stuck (strict : ins.opcode.kind.isLenient = false)
      (short : p.stack.length < ins.opcode.pops) : Executes program ins p s (p.stuck s)
  | dup {n : Nat} {v : Value} (kind : ins.opcode.kind = .dup n)
      (item : p.stack[n - 1]? = some v) :
      Executes program ins p s { path := { p with stack := v :: p.stack }, supply := s }
  | swap {n : Nat} {top v : Value} {rest : List Value} (kind : ins.opcode.kind = .swap n)
      (stack : p.stack = top :: rest) (item : p.stack[n]? = some v) :
      Executes program ins p s
        { path := { p with stack := (p.stack.set 0 v).set n top }, supply := s }
  | drop {operands rest : List Value} {flow : Flow} (stack : p.stack = operands ++ rest)
      (drops : ins.Drops p operands flow) :
      Executes program ins p s { path := { p with stack := rest }, supply := s, flow }
  | make {operands rest : List Value} {word : Term} {sources : List Nat}
      (stack : p.stack = operands ++ rest) (makes : ins.Makes program p operands word sources) :
      Executes program ins p s ({ p with stack := rest }.pushNew s word sources)
  | guess {operands rest : List Value} {sources : List Nat} (stack : p.stack = operands ++ rest)
      (guesses : ins.Guesses p operands sources) :
      Executes program ins p s ({ p with stack := rest }.pushHavoc s ins.opcode sources)
  | load {offset : Value} {rest : List Value} {o : Nat} (kind : ins.opcode.kind = .memoryLoad)
      (stack : p.stack = offset :: rest) (range : memoryOffset? offset 32 = some o) :
      Executes program ins p s
        { path := { p with
            stack := (p.memory.load s o).value :: rest, memory := (p.memory.load s o).memory }
          supply := (p.memory.load s o).supply
          inheritances := (p.memory.load s o).inheritances }
  | fetch {slot v : Value} {rest : List Value} (kind : ins.opcode.kind = .storageLoad)
      (stack : p.stack = slot :: rest) (stored : p.stored? slot.word = some v) :
      Executes program ins p s { path := { p with stack := v :: rest }, supply := s }
  | copy {destination source length : Value} {rest : List Value}
      (kind : ins.opcode.kind = .callDataCopy)
      (stack : p.stack = destination :: source :: length :: rest) :
      Executes program ins p s
        { path := { p with
            stack := rest, memory := (copyCallData p.memory s destination source length).1 }
          supply := (copyCallData p.memory s destination source length).2 }
  | write {operands rest : List Value} {memory : Memory} (stack : p.stack = operands ++ rest)
      (writes : ins.Writes program p operands memory) :
      Executes program ins p s { path := { p with stack := rest, memory }, supply := s }
  | store {slot v : Value} {rest : List Value} (kind : ins.opcode.kind = .storageStore)
      (stack : p.stack = slot :: v :: rest) :
      Executes program ins p s { path := { p with stack := rest }.store slot.word v, supply := s }

section

variable {program : Program} {ins : Instruction} {p : Path} {s : Supply} {e : Effect}

/-- An instruction that misses operands is where its path ends. -/
theorem execute_eq_stuck (hstrict : ins.opcode.kind.isLenient = false)
    (hshort : p.stack.length < ins.opcode.pops) : execute program ins p s = p.stuck s := by
  rw [Opcode.pops] at hshort
  cases hkind : ins.opcode.kind with
  | halt | unmodelled | discard =>
    rw [hkind] at hstrict
    cases hstrict
  | push | codeSize | counter | memorySize | environment =>
    rw [of_decide_eq_true (Opcode.hasArity_of_kind hkind)] at hshort
    exact absurd hshort (Nat.not_lt_zero _)
  | jump | unary | callDataLoad | memoryLoad | storageLoad | query =>
    rw [of_decide_eq_true (Opcode.hasArity_of_kind hkind)] at hshort
    match hstack : p.stack, hshort with
    | [], _ => simp only [execute, hkind, hstack]
  | binary | hash | branch | memoryStore | memoryStoreByte | storageStore =>
    rw [of_decide_eq_true (Opcode.hasArity_of_kind hkind)] at hshort
    match hstack : p.stack, hshort with
    | [], _ | [_], _ => simp only [execute, hkind, hstack]
  | giveBack =>
    rw [Opcode.arity_of_giveBack hkind] at hshort
    match hstack : p.stack, hshort with
    | [], _ | [_], _ => simp only [execute, hkind, hstack]
  | modular | callDataCopy | codeCopy =>
    rw [of_decide_eq_true (Opcode.hasArity_of_kind hkind)] at hshort
    match hstack : p.stack, hshort with
    | [], _ | [_], _ | [_, _], _ => simp only [execute, hkind, hstack]
  | dup n =>
    obtain ⟨hpos, harity⟩ := Opcode.arity_of_dup hkind
    rw [harity] at hshort
    have hnone : p.stack[n - 1]? = none :=
      List.getElem?_eq_none_iff.mpr (Nat.le_sub_one_of_lt hshort)
    simp only [execute, hkind, hnone]
  | swap n =>
    rw [Opcode.arity_of_swap hkind] at hshort
    have hnone : p.stack[n]? = none := List.getElem?_eq_none_iff.mpr (Nat.le_of_lt_succ hshort)
    match hstack : p.stack with
    | [] => simp only [execute, hkind, hstack]
    | top :: rest =>
      rw [hstack] at hnone
      simp only [execute, hkind, hstack, hnone]

/-- The effects are those of the instruction. -/
theorem Executes.execute_eq (h : Executes program ins p s e) : execute program ins p s = e := by
  have hdrop {n : Nat} {rest : List Value} (h : p.stack = p.stack.take n ++ rest) :
      p.stack.drop n = rest :=
    List.append_cancel_left ((List.take_append_drop ..).trans h)
  cases h with
  | stuck strict short => exact execute_eq_stuck strict short
  | dup kind item => simp only [execute, kind, item]
  | swap kind stack item =>
    simp only [execute, kind, stack]
    rw [← stack, item]
  | drop stack drops =>
    cases drops with
    | discard kind | halt kind => simp only [execute, kind, hdrop stack]
    | giveBack kind | jump kind | branch kind =>
      simp only [execute, kind, stack, List.cons_append, List.nil_append]
  | make stack makes =>
    cases makes with
    | argument kind | codeSize kind | counter kind | memorySize kind | environment kind =>
      cases stack
      simp only [execute, kind]
    | unary kind | binary kind | callData kind | query kind =>
      simp only [execute, kind, stack, List.cons_append, List.nil_append]
    | hash kind range =>
      simp only [execute, kind, stack, List.cons_append, List.nil_append, range]
    | storage kind unwritten =>
      simp only [execute, kind, stack, List.cons_append, List.nil_append, unwritten]
  | guess stack guesses =>
    cases guesses with
    | modular kind => simp only [execute, kind, stack, List.cons_append, List.nil_append]
    | hash kind range | memory kind range =>
      simp only [execute, kind, stack, List.cons_append, List.nil_append, range]
    | unmodelled kind => simp only [execute, kind, hdrop stack]
  | load kind stack range => simp only [execute, kind, stack, range]
  | fetch kind stack stored => simp only [execute, kind, stack, stored]
  | copy kind stack => simp only [execute, kind, stack]
  | write stack writes =>
    cases writes with
    | code kind => simp only [execute, kind, stack, List.cons_append, List.nil_append]
    | word kind range | byte kind range | wordLost kind range | byteLost kind range =>
      simp only [execute, kind, stack, List.cons_append, List.nil_append, range]
  | store kind stack => simp only [execute, kind, stack]

/-- An instruction that is executed without its operands takes what is there. -/
theorem exists_executes_of_isLenient (program : Program) (p : Path) (s : Supply)
    (h : ins.opcode.kind.isLenient = true) : ∃ e, Executes program ins p s e := by
  have hstack := (List.take_append_drop ins.opcode.pops p.stack).symm
  cases hkind : ins.opcode.kind with
  | halt => exact ⟨_, .drop hstack (.halt hkind)⟩
  | discard => exact ⟨_, .drop hstack (.discard hkind)⟩
  | unmodelled => exact ⟨_, .guess hstack (.unmodelled hkind)⟩
  | _ =>
    rw [hkind] at h
    cases h

/-- An instruction that finds its operands has an effect. -/
theorem exists_executes (program : Program) (s : Supply)
    (hfits : ins.opcode.pops ≤ p.stack.length) : ∃ e, Executes program ins p s e := by
  have hpops {n m : Nat} (harity : ins.opcode.arity = (n, m)) : n ≤ p.stack.length := by
    rwa [Opcode.pops, harity] at hfits
  cases hkind : ins.opcode.kind with
  | halt | discard | unmodelled =>
    exact exists_executes_of_isLenient program p s (hkind ▸ rfl)
  | push => exact ⟨_, .make rfl (.argument hkind)⟩
  | codeSize => exact ⟨_, .make rfl (.codeSize hkind)⟩
  | counter => exact ⟨_, .make rfl (.counter hkind)⟩
  | memorySize => exact ⟨_, .make rfl (.memorySize hkind)⟩
  | environment => exact ⟨_, .make rfl (.environment hkind)⟩
  | jump =>
    obtain ⟨destination, rest, hstack⟩ :=
      exists_cons (hpops (of_decide_eq_true (Opcode.hasArity_of_kind hkind)))
    exact ⟨_, .drop hstack (.jump hkind destination)⟩
  | branch =>
    obtain ⟨destination, condition, rest, hstack⟩ :=
      exists_cons_cons (hpops (of_decide_eq_true (Opcode.hasArity_of_kind hkind)))
    exact ⟨_, .drop hstack (.branch hkind destination condition)⟩
  | giveBack =>
    obtain ⟨offset, length, rest, hstack⟩ :=
      exists_cons_cons (hpops (Opcode.arity_of_giveBack hkind))
    exact ⟨_, .drop hstack (.giveBack hkind offset length)⟩
  | unary =>
    obtain ⟨a, rest, hstack⟩ :=
      exists_cons (hpops (of_decide_eq_true (Opcode.hasArity_of_kind hkind)))
    exact ⟨_, .make hstack (.unary hkind a)⟩
  | binary =>
    obtain ⟨a, b, rest, hstack⟩ :=
      exists_cons_cons (hpops (of_decide_eq_true (Opcode.hasArity_of_kind hkind)))
    exact ⟨_, .make hstack (.binary hkind a b)⟩
  | query =>
    obtain ⟨a, rest, hstack⟩ :=
      exists_cons (hpops (of_decide_eq_true (Opcode.hasArity_of_kind hkind)))
    exact ⟨_, .make hstack (.query hkind a)⟩
  | callDataLoad =>
    obtain ⟨offset, rest, hstack⟩ :=
      exists_cons (hpops (of_decide_eq_true (Opcode.hasArity_of_kind hkind)))
    exact ⟨_, .make hstack (.callData hkind offset)⟩
  | modular =>
    obtain ⟨a, b, c, rest, hstack⟩ :=
      exists_cons_cons_cons (hpops (of_decide_eq_true (Opcode.hasArity_of_kind hkind)))
    exact ⟨_, .guess hstack (.modular hkind a b c)⟩
  | callDataCopy =>
    obtain ⟨destination, source, length, rest, hstack⟩ :=
      exists_cons_cons_cons (hpops (of_decide_eq_true (Opcode.hasArity_of_kind hkind)))
    exact ⟨_, .copy hkind hstack⟩
  | codeCopy =>
    obtain ⟨destination, source, length, rest, hstack⟩ :=
      exists_cons_cons_cons (hpops (of_decide_eq_true (Opcode.hasArity_of_kind hkind)))
    exact ⟨_, .write hstack (.code hkind destination source length)⟩
  | storageStore =>
    obtain ⟨slot, v, rest, hstack⟩ :=
      exists_cons_cons (hpops (of_decide_eq_true (Opcode.hasArity_of_kind hkind)))
    exact ⟨_, .store hkind hstack⟩
  | hash =>
    obtain ⟨offset, length, rest, hstack⟩ :=
      exists_cons_cons (hpops (of_decide_eq_true (Opcode.hasArity_of_kind hkind)))
    cases hrange : memoryRange? offset length with
    | none => exact ⟨_, .guess hstack (.hash hkind hrange)⟩
    | some range => exact ⟨_, .make hstack (.hash hkind hrange)⟩
  | memoryLoad =>
    obtain ⟨offset, rest, hstack⟩ :=
      exists_cons (hpops (of_decide_eq_true (Opcode.hasArity_of_kind hkind)))
    cases hrange : memoryOffset? offset 32 with
    | none => exact ⟨_, .guess hstack (.memory hkind hrange)⟩
    | some o => exact ⟨_, .load hkind hstack hrange⟩
  | storageLoad =>
    obtain ⟨slot, rest, hstack⟩ :=
      exists_cons (hpops (of_decide_eq_true (Opcode.hasArity_of_kind hkind)))
    cases hstored : p.stored? slot.word with
    | none => exact ⟨_, .make hstack (.storage hkind hstored)⟩
    | some v => exact ⟨_, .fetch hkind hstack hstored⟩
  | memoryStore =>
    obtain ⟨offset, v, rest, hstack⟩ :=
      exists_cons_cons (hpops (of_decide_eq_true (Opcode.hasArity_of_kind hkind)))
    cases hrange : memoryOffset? offset 32 with
    | none => exact ⟨_, .write hstack (.wordLost hkind hrange v)⟩
    | some o => exact ⟨_, .write hstack (.word hkind hrange v)⟩
  | memoryStoreByte =>
    obtain ⟨offset, v, rest, hstack⟩ :=
      exists_cons_cons (hpops (of_decide_eq_true (Opcode.hasArity_of_kind hkind)))
    cases hrange : memoryOffset? offset 1 with
    | none => exact ⟨_, .write hstack (.byteLost hkind hrange v)⟩
    | some o => exact ⟨_, .write hstack (.byte hkind hrange v)⟩
  | dup n =>
    obtain ⟨hpos, harity⟩ := Opcode.arity_of_dup hkind
    have hlt : n - 1 < p.stack.length :=
      Nat.lt_of_lt_of_le (Nat.sub_one_lt_of_lt hpos) (hpops harity)
    exact ⟨_, .dup hkind (List.getElem?_eq_getElem hlt)⟩
  | swap n =>
    have hlt : n < p.stack.length := hpops (Opcode.arity_of_swap hkind)
    obtain ⟨top, rest, hstack⟩ := exists_cons (Nat.lt_of_le_of_lt n.zero_le hlt)
    exact ⟨_, .swap hkind hstack (List.getElem?_eq_getElem hlt)⟩

end

/-- **An instruction has one of these effects**, and no other by `Executes.execute_eq`. -/
theorem executes_execute (program : Program) (ins : Instruction) (p : Path) (s : Supply) :
    Executes program ins p s (execute program ins p s) := by
  have heffect : ∃ e, Executes program ins p s e := by
    rcases Nat.lt_or_ge p.stack.length ins.opcode.pops with hshort | hfits
    · cases hlenient : ins.opcode.kind.isLenient with
      | true => exact exists_executes_of_isLenient program p s hlenient
      | false => exact ⟨_, .stuck hlenient hshort⟩
    · exact exists_executes program s hfits
  obtain ⟨e, he⟩ := heffect
  rw [he.execute_eq]
  exact he

/-- A path that does not just go on, and not because operands are missing, is at an instruction that
only takes them away. -/
theorem drops_of_flow {program : Program} {ins : Instruction} {p : Path} {s : Supply} {flow : Flow}
    (h : (execute program ins p s).flow = flow) (hnext : flow ≠ .next)
    (hstuck : flow ≠ .halt none) :
    ∃ operands rest, p.stack = operands ++ rest ∧ ins.Drops p operands flow := by
  have heffect := executes_execute program ins p s
  generalize execute program ins p s = e at heffect h
  cases heffect with
  | stuck => exact absurd h.symm hstuck
  | drop stack drops => exact ⟨_, _, stack, h ▸ drops⟩
  | dup | swap | make | guess | load | fetch | copy | write | store => exact absurd h.symm hnext

end GuardFinder

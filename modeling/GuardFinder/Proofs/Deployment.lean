import GuardFinder.Proofs.Inspections
import GuardFinder.Proofs.Retagging
import GuardFinder.Proofs.ReturnedCode

/-!
# Creation and deployment

The plainest creation code copies the code behind it to memory and returns it. No detector looks at
what it does, so an analysis of it goes on as one of the code that it deploys: it finds the same,
and its state space is the one of that code, behind the one node of the constructor.

* `Path.Runs`: a path that goes on from instruction to instruction. `runPaths_of_runs`: nobody who
  waits for other opcodes takes note of it.
* `deployingCode`: the creation code. `transaction_deployingCode`: what comes of it.
* `Analysis.creation_eq_deployed`: **creation and deployment of the same code agree**.
-/

namespace GuardFinder

/-! ### Straight lines -/

/-- A path goes on from instruction to instruction and leaves frames behind. Nothing that it
executes jumps, ends or hands on taints. -/
inductive Path.Runs (program : Program) : Path → Supply → List Frame → Path → Supply → Prop
  | refl (p : Path) (s : Supply) : Runs program p s [] p s
  | step {p q r : Path} {s t u : Supply} {ins : Instruction} {frames : List Frame}
      (at_ins : program.at? p.pc = some ins) (fits : fitsStack ins.opcode p.stack = true)
      (effect : execute program ins p s = { path := q, supply := t })
      (rest : Runs program { q with pc := ins.nextAddress, lastFrame := some ⟨ins, p.stack⟩ } t
        frames r u) :
      Runs program p s (⟨ins, p.stack⟩ :: frames) r u

/-- Nobody waits for the opcode. -/
def Setting.Deaf {σ : Type} (x : Setting σ) (op : Opcode) : Prop :=
  ∀ phase, x.subscribers phase op = []

section

variable {σ : Type} {x : Setting σ} {watch : σ × Ledger} {g : Progress} {p q : Path}
  {ps : List Path} {s t : Supply} {ins : Instruction}

theorem Setting.Deaf.play {op : Opcode} (h : x.Deaf op) (e : Event) :
    x.play (.event op e) watch = .ok () watch := by
  rw [Setting.play, h e.phase]
  rfl

/-- A run goes on after an instruction that nobody waits for. -/
theorem runPaths_of_next (hp : g.paths = p :: ps) (hs : x.InTime)
    (hi : x.program.at? p.pc = some ins) (hf : fitsStack ins.opcode p.stack = true)
    (hdeaf : x.Deaf ins.opcode)
    (he : execute x.program ins p g.supply = { path := q, supply := t }) :
    runPaths x g watch = runPaths x
      { g with
        paths := { q with pc := ins.nextAddress, lastFrame := some ⟨ins, p.stack⟩ } :: ps
        space := g.space.addFrame p.node ⟨ins, p.stack⟩
        supply := t } watch := by
  have hplay : x.playAll (g.signals x.program x.limits p ins) watch = .ok () watch := by
    simp only [Progress.signals, stepAt, he, inheritSignals, List.map_nil, List.nil_append,
      Path.postEvent, Setting.playAll, bind_run, hdeaf.play]
    rfl
  rw [runPaths_of_step hp (hs.not_late g) hi hf hplay]
  simp only [Progress.stepped, stepAt, he, Option.or_none, List.cons_append, List.nil_append]

/-- A path that ends with an instruction that nobody waits for leaves a run to the others. -/
theorem runPaths_of_halt {returned : Option Bytes} (hp : g.paths = p :: ps)
    (hs : x.InTime) (hi : x.program.at? p.pc = some ins)
    (hf : fitsStack ins.opcode p.stack = true) (hdeaf : x.Deaf ins.opcode)
    (he : execute x.program ins p g.supply =
      { path := q, supply := t, flow := .halt returned }) :
    runPaths x g watch = runPaths x
      { paths := ps
        space := g.space.addFrame p.node ⟨ins, p.stack⟩
        supply := t
        returned := g.returned.or returned } watch := by
  have hplay : x.playAll (g.signals x.program x.limits p ins) watch = .ok () watch := by
    simp only [Progress.signals, stepAt, he, inheritSignals, List.map_nil, Setting.playAll,
      bind_run, hdeaf.play]
    rfl
  rw [runPaths_of_step hp (hs.not_late g) hi hf hplay]
  simp only [Progress.stepped, stepAt, he, List.nil_append]

/-- **A run follows its first path along a straight line**, if nobody waits for what is executed
there. -/
theorem runPaths_of_runs {frames : List Frame} (h : p.Runs x.program s frames q t)
    (hs : x.InTime) (hdeaf : ∀ f ∈ frames, x.Deaf f.instruction.opcode)
    (hp : g.paths = p :: ps) (hsupply : g.supply = s) :
    runPaths x g watch = runPaths x
      { g with
        paths := q :: ps
        space := frames.foldl (fun space f => space.addFrame p.node f) g.space
        supply := t } watch := by
  induction h generalizing g with
  | refl p s => rw [List.foldl_nil, ← hp, ← hsupply]
  | @step p q r s t u ins frames at_ins fits effect rest ih =>
    have hnode : q.node = p.node := by
      obtain ⟨_, _, _, hpath⟩ := path_execute x.program ins p s
      have hsame := congrArg Path.node hpath
      rwa [effect] at hsame
    rw [← hsupply] at effect
    rw [runPaths_of_next hp hs at_ins fits (hdeaf _ List.mem_cons_self) effect,
      ih (fun f hf => hdeaf f (List.mem_cons_of_mem _ hf)) rfl rfl]
    simp only [hnode, List.foldl_cons]

end

/-! ### The constructor -/

/-- Creation code that returns the code behind it. -/
def deployingCode (runtime : Bytes) : Bytes :=
  [0x61, UInt8.ofNat (runtime.length / 256), UInt8.ofNat runtime.length, 0x80, 0x61, 0x00, 0x0d,
    0x60, 0x00, 0x39, 0x60, 0x00, 0xf3] ++ runtime

/-- The length of a code as a word. -/
def lengthWord (code : Bytes) : Word := BitVec.ofNat 256 code.length

/-- A known value with a tag. -/
def Value.known (w : Word) (tag : Nat) : Value := ⟨.const w, tag⟩

/-- What is executed before code of the given length is returned. -/
def copyingFrames (length : Word) : List Frame :=
  let size : Value := .known length 0
  [⟨⟨0, ⟨0x61⟩, some length⟩, []⟩,
    ⟨⟨3, ⟨0x80⟩, none⟩, [size]⟩,
    ⟨⟨4, ⟨0x61⟩, some 13⟩, [size, size]⟩,
    ⟨⟨7, ⟨0x60⟩, some 0⟩, [.known 13 1, size, size]⟩,
    ⟨⟨9, ⟨0x39⟩, none⟩, [.known 0 2, .known 13 1, size, size]⟩,
    ⟨⟨10, ⟨0x60⟩, some 0⟩, [size]⟩]

/-- The last instruction of the constructor. -/
def returningFrame (length : Word) : Frame :=
  ⟨⟨12, ⟨0xf3⟩, none⟩, [.known 0 3, .known length 0]⟩

/-- All that the constructor executes. -/
def constructorFrames (length : Word) : List Frame :=
  copyingFrames length ++ [returningFrame length]

/-- The one node of the constructor. -/
def constructorNode (length : Word) : Node where
  uid := 0
  functionName := constructorName
  startAddress := 0
  frames := (constructorFrames length).toArray
  constraints := []

/-- The state space of the constructor. -/
def constructorSpace (length : Word) : StateSpace where
  nodes := #[constructorNode length]

theorem StateSpace.foldl_addFrame (n : Node) (frames : List Frame) :
    frames.foldl (fun space f => space.addFrame 0 f) ({ nodes := #[n] } : StateSpace) =
      { nodes := #[{ n with frames := n.frames ++ frames }] } := by
  induction frames generalizing n with
  | nil => simp
  | cons f rest ih =>
    have hfirst : ({ nodes := #[n] } : StateSpace).addFrame 0 f =
        { nodes := #[{ n with frames := n.frames.push f }] } := rfl
    rw [List.foldl_cons, hfirst, ih]
    rfl

/-- The opcodes of the constructor. -/
def constructorOpcodes : List Opcode := [⟨0x60⟩, ⟨0x61⟩, ⟨0x80⟩, ⟨0x39⟩, ⟨0xf3⟩]

theorem opcode_mem_constructorOpcodes {length : Word} {f : Frame}
    (hf : f ∈ constructorFrames length) :
    f.instruction.opcode ∈ constructorOpcodes := by
  have hopcodes : (constructorFrames length).map (·.instruction.opcode) =
      [⟨0x61⟩, ⟨0x80⟩, ⟨0x61⟩, ⟨0x60⟩, ⟨0x39⟩, ⟨0x60⟩, ⟨0xf3⟩] := rfl
  have hmem := List.mem_map_of_mem (f := (·.instruction.opcode)) hf
  rw [hopcodes] at hmem
  revert hmem
  generalize f.instruction.opcode = op
  revert op
  decide

theorem quiet_constructorSpace (length : Word) : (constructorSpace length).Quiet := by
  have hcontains (op : Opcode) (hop : op ∉ constructorOpcodes) :
      ∀ n ∈ (constructorSpace length).nodes, n.contains op = false := by
    intro n hn
    obtain rfl : n = constructorNode length := by simpa [constructorSpace] using hn
    simp only [Node.contains, constructorNode, Array.any_eq_false', decide_eq_true_eq,
      List.mem_toArray]
    intro f hf heq
    exact hop (heq ▸ opcode_mem_constructorOpcodes hf)
  exact ⟨hcontains .eq (by decide), hcontains .sha3 (by decide),
    fun e he => absurd he (Array.not_mem_empty e)⟩

/-- No strategy asks for what the constructor does. -/
theorem Strategy.not_asks_constructor (st : Strategy) (phase : Phase) {op : Opcode}
    (hop : op ∈ constructorOpcodes) : ¬st.Asks phase op := by
  have hlisted : ∀ op ∈ constructorOpcodes, op ∉ st.opcodes.1 ∧ op ∉ st.opcodes.2 := by
    cases st with
    | ownership =>
      exact (by decide : ∀ op ∈ constructorOpcodes,
        op ∉ Ownership.preOpcodes ∧ op ∉ Ownership.postOpcodes)
    | hashLock =>
      exact (by decide : ∀ op ∈ constructorOpcodes,
        op ∉ HashLock.preOpcodes ∧ op ∉ HashLock.postOpcodes)
    | roles =>
      exact (by decide : ∀ op ∈ constructorOpcodes, op ∉ Roles.preOpcodes ∧ op ∉ Roles.postOpcodes)
    | multipleAuthorization =>
      exact (by decide : ∀ op ∈ constructorOpcodes,
        op ∉ MultipleAuthorization.preOpcodes ∧ op ∉ MultipleAuthorization.postOpcodes)
    | xConfirmation =>
      exact (by decide : ∀ op ∈ constructorOpcodes,
        op ∉ XConfirmation.preOpcodes ∧ op ∉ XConfirmation.postOpcodes)
    | offChainSecret | singleOwner => exact fun _ _ => ⟨List.not_mem_nil, List.not_mem_nil⟩
  cases phase with
  | pre => exact (hlisted op hop).1
  | post => exact (hlisted op hop).2

theorem Registry.Serves.deaf {σ : Type} {r : Registry} {x : Setting σ} (h : r.Serves x.hooks)
    {op : Opcode} (hop : op ∈ constructorOpcodes) : x.Deaf op := by
  intro phase
  refine List.eq_nil_iff_forall_not_mem.mpr fun i hi => ?_
  obtain ⟨d, -, hwish⟩ := h _ (mem_hooks_of_mem_subscribers hi)
  exact d.strategy.not_asks_constructor phase hop (Detector.mem_wishes.mp hwish)

section

variable (runtime : Bytes) (hlength : runtime.length ≤ 65535)
include hlength

theorem toNat_lengthWord : (lengthWord runtime).toNat = runtime.length := by
  rw [lengthWord, BitVec.toNat_ofNat]
  omega

/-- Two bytes spell the length of the code. -/
theorem immediate_length :
    Instruction.immediate 2 [UInt8.ofNat (runtime.length / 256), UInt8.ofNat runtime.length] =
      lengthWord runtime := by
  have hhigh : (UInt8.ofNat (runtime.length / 256)).toNat = runtime.length / 256 := by
    rw [UInt8.toNat_ofNat']
    omega
  have hlow : (UInt8.ofNat runtime.length).toNat = runtime.length % 256 := UInt8.toNat_ofNat'
  have hspelled : Word.natOfBytes
      [UInt8.ofNat (runtime.length / 256), UInt8.ofNat runtime.length] = runtime.length := by
    simp only [Word.natOfBytes, List.foldl_cons, List.foldl_nil, hhigh, hlow]
    omega
  exact congrArg (BitVec.ofNat 256) hspelled

/-- Whatever code follows, the constructor is decoded in the same way. -/
theorem at?_deployingCode :
    ∀ f ∈ constructorFrames (lengthWord runtime),
      (Program.ofCode (deployingCode runtime)).at? f.instruction.address = some f.instruction := by
  rw [← immediate_length runtime hlength]
  simp only [Program.at?_eq_some_iff, constructorFrames, copyingFrames, returningFrame,
    List.cons_append, List.nil_append, List.forall_mem_cons]
  exact ⟨rfl, rfl, rfl, rfl, rfl, rfl, rfl, fun _ h => absurd h List.not_mem_nil⟩

/-- The memory of the constructor when it returns. -/
def deployedMemory (runtime : Bytes) : Memory :=
  copyCode {} (deployingCode runtime) (.known 0 2) (.known 13 1) (.known (lengthWord runtime) 0)

/-- The range that the constructor copies to and returns. -/
theorem memoryRange?_lengthWord (i j : Nat) :
    memoryRange? (.known 0 i) (.known (lengthWord runtime) j) = some (0, runtime.length) := by
  have hlimit : 65535 ≤ Memory.limit := by decide
  exact memoryRange?_eq_some_iff.mpr
    ⟨0, _, rfl, rfl, rfl, toNat_lengthWord runtime hlength, by omega⟩

theorem deployedMemory_eq : deployedMemory runtime = Memory.storeBytes {} 0 runtime := by
  have hcode : codeBytes (deployingCode runtime) 13 runtime.length = runtime := by
    have hdrop : (deployingCode runtime).drop 13 = runtime := rfl
    simp only [codeBytes, hdrop, List.take_length, Nat.sub_self, List.replicate_zero,
      List.append_nil]
  have hsource : (Value.known 13 1).size? = some 13 := by decide
  simp only [deployedMemory, copyCode, hsource, memoryRange?_lengthWord runtime hlength, hcode]

/-- The constructor returns the code behind it. -/
theorem returnedBytes?_deployedMemory :
    returnedBytes? (deployedMemory runtime) (.known 0 3) (.known (lengthWord runtime) 0) =
      some runtime := by
  rw [returnedBytes?, memoryRange?_lengthWord runtime hlength]
  refine Memory.bytes?_eq_some_iff.mpr ⟨rfl, ?_⟩
  intro i hi
  rw [deployedMemory_eq runtime hlength, Nat.zero_add, Memory.storeBytes, Memory.getElem?_write]
  simp [hi, Cell.known?]

theorem runs_deployingCode (havocs : Nat) :
    ∃ last, (Path.start constructorName 0).Runs (.ofCode (deployingCode runtime)) { havocs }
      (copyingFrames (lengthWord runtime))
      { Path.start constructorName 0 with
        pc := 12
        stack := (returningFrame (lengthWord runtime)).stack
        memory := deployedMemory runtime
        lastFrame := last }
      { nextTag := 4, havocs } := by
  have hat := at?_deployingCode runtime hlength
  simp only [constructorFrames, copyingFrames, returningFrame, List.cons_append, List.nil_append,
    List.forall_mem_cons] at hat
  obtain ⟨h0, h3, h4, h7, h9, h10, -⟩ := hat
  -- each instruction computes on the stack that the one before it has left
  exact ⟨_, .step h0 rfl rfl <| .step h3 rfl rfl <| .step h4 rfl rfl <| .step h7 rfl rfl <|
    .step h9 rfl rfl <| .step h10 rfl rfl <| .refl _ _⟩

end

/-- **What comes of the constructor**: its one node, and the code behind it. -/
theorem transaction_deployingCode {σ : Type} {x : Setting σ} {runtime : Bytes}
    (hlength : runtime.length ≤ 65535) (hprogram : x.program = .ofCode (deployingCode runtime))
    (hs : x.InTime) (hdeaf : ∀ op ∈ constructorOpcodes, x.Deaf op) (havocs : Nat)
    (watch : σ × Ledger) :
    transaction x constructorName {} { havocs } watch =
      { progress :=
          { paths := []
            space := constructorSpace (lengthWord runtime)
            supply := { nextTag := 4, havocs }
            returned := some runtime }
        watch } := by
  obtain ⟨last, hruns⟩ := runs_deployingCode runtime hlength havocs
  rw [← hprogram] at hruns
  have hdeaf' : ∀ f ∈ constructorFrames (lengthWord runtime), x.Deaf f.instruction.opcode :=
    fun f hf => hdeaf _ (opcode_mem_constructorOpcodes hf)
  have hlast : returningFrame (lengthWord runtime) ∈ constructorFrames (lengthWord runtime) :=
    List.mem_append_right _ List.mem_cons_self
  have hat := at?_deployingCode runtime hlength _ hlast
  rw [← hprogram] at hat
  unfold transaction
  rw [runPaths_of_runs hruns hs (fun f hf => hdeaf' f (List.mem_append_left _ hf)) rfl rfl,
    runPaths_of_halt rfl hs hat rfl (hdeaf' _ hlast) rfl, runPaths_of_nil rfl]
  have hspace : (constructorFrames (lengthWord runtime)).foldl
        (fun space f => space.addFrame 0 f) (({} : StateSpace).addNode constructorName 0 []) =
      constructorSpace (lengthWord runtime) :=
    (StateSpace.foldl_addFrame _ _).trans (by simp [constructorSpace, constructorNode])
  rw [constructorFrames, List.foldl_append] at hspace
  have hreturned := returnedBytes?_deployedMemory runtime hlength
  simp only [Option.none_or, hreturned]
  exact congrArg (fun space => RunEnd.mk ⟨[], space, _, _⟩ watch none) hspace

/-- Message calls start with what the constructor has left. -/
theorem Explorer.explore_deployingCode {σ : Type} {x : Explorer} {observer : Observer σ}
    {runtime : Bytes} (hs : x.InTime) (hne : runtime ≠ [])
    (hlength : runtime.length ≤ 65535)
    (hdeaf : ∀ op ∈ constructorOpcodes, (x.setting observer (deployingCode runtime)).Deaf op)
    (watch : σ × Ledger) :
    x.explore observer (.creation (deployingCode runtime)) watch =
      x.finish (transaction (x.setting observer runtime) fallbackName
        (constructorSpace (lengthWord runtime)) { nextTag := 4, havocs := x.havocs }
        (watch.1, { watch.2 with taints := ∅ })) := by
  have hcreated := transaction_deployingCode hlength rfl (hs.setting observer _) hdeaf x.havocs
    (watch.1, { watch.2 with taints := ∅ })
  obtain ⟨byte, rest, rfl⟩ := List.exists_cons_of_ne_nil hne
  simp only [explore]
  rw [hcreated]

/-! ### Analyses -/

/-- The node one place further back. Its values have other tags, since the constructor was given
four of them. -/
def Node.afterConstructor (n : Node) : Node :=
  { n with
    uid := n.uid + 1
    frames := n.frames.map fun f => ⟨f.instruction, f.stack.map fun v => ⟨v.word, v.tag + 4⟩⟩ }

theorem Node.relocate_eq_afterConstructor : Node.relocate (.lift 4 0) 1 = afterConstructor := by
  have hvalue : Value.rename (.lift 4 0) = fun v => ⟨v.word, v.tag + 4⟩ := by
    funext v
    rw [Value.rename, Term.rename_lift_tags]
    rfl
  have hframe : Frame.rename (.lift 4 0) =
      fun f => ⟨f.instruction, f.stack.map fun v => ⟨v.word, v.tag + 4⟩⟩ := by
    funext f
    rw [Frame.rename, hvalue]
  have hconstraint : Constraint.rename (.lift 4 0) = id := by
    funext c
    rw [Constraint.rename, Term.rename_lift_tags]
    rfl
  funext n
  rw [relocate, hconstraint, List.map_id, hframe]
  rfl

theorem behind_constructorSpace (length : Word) (space : StateSpace) :
    (constructorSpace length).behind (.lift 4 0) space =
      { nodes := #[constructorNode length] ++ space.nodes.map Node.afterConstructor
        edges := space.edges.map (Edge.shift 1)
        complete := space.complete } := by
  rw [← Node.relocate_eq_afterConstructor]
  simp only [StateSpace.behind, constructorSpace, Array.empty_append, Bool.true_and]
  rfl

namespace Analysis

/-- The exploration of the code that was deployed goes on behind the constructor. -/
theorem explored_deployingCode (a : Analysis) (hs : a.explorer.InTime)
    {runtime : Bytes} (hne : runtime ≠ []) (hlength : runtime.length ≤ 65535) (address : Address) :
    ∃ space, (a.explored (.deployed address runtime)).result = .ok space ∧
      (a.explored (.creation (deployingCode runtime))).result =
        .ok ((constructorSpace (lengthWord runtime)).behind (.lift 4 0) space) ∧
      (a.explored (.creation (deployingCode runtime))).watch.1 =
        (a.explored (.deployed address runtime)).watch.1 := by
  let x := a.prepare.explorer
  let front := constructorSpace (lengthWord runtime)
  let watch : Registry × Ledger := (a.prepare.registry,
    { taints := ∅, log := .starting a.prepare.registry.detectors.length :: a.prepare.log })
  have htime : x.InTime := fun g => by
    rw [show x.clock = _ from clock_prepare a, show x.limits = _ from limits_prepare a]
    exact hs g
  have hdeployed : a.explored (.deployed address runtime) =
      x.finish (transaction (x.setting Registry.observer runtime) fallbackName {}
        { havocs := x.havocs } watch) := rfl
  have hcreation : a.explored (.creation (deployingCode runtime)) =
      x.finish (transaction (x.setting Registry.observer runtime) fallbackName front
        { nextTag := 4, havocs := x.havocs } watch) :=
    Explorer.explore_deployingCode htime hne hlength
      (fun op hop => a.serves_prepare.deaf hop) watch
  have hbegin : (Progress.begin fallbackName {} { havocs := x.havocs }).Relocated front (.lift 4 0)
      4 0 (.begin fallbackName front { nextTag := 4, havocs := x.havocs }) := by
    have hbegin := Progress.relocated_begin front (.lift 4 0) 4 0 fallbackName {}
      { havocs := x.havocs }
    rwa [StateSpace.behind_empty front _ rfl] at hbegin
  -- no tag has taints yet, under any name
  have htaints : Registry.Renamed (.lift 4 0) (withoutLog watch) (withoutLog watch) :=
    ⟨rfl, fun _ => rfl⟩
  have hwatch := And.intro a.serves_prepare a.registry.reset_reset
  have hrun := runPaths_lockstep (a.follows_prepare runtime) (a.follows_prepare runtime) rfl rfl
    (fun g h _ _ _ => (htime.late h).trans (htime.late g).symm)
    (lockstep_relocated (Renaming.raises_lift 4 0)
      (fun hsignal hst => Registry.hear_renamed _ _ rfl hsignal hst) _ front)
    _ _ watch watch hwatch hwatch ⟨hbegin, htaints⟩
  obtain ⟨-, -, g, h, hg, hh, hrelocated, hrenamed⟩ := Explorer.related_finish x x hrun
  rw [hdeployed, hcreation]
  exact ⟨g.space, hg, hrelocated.space ▸ hh, hrenamed.1⟩

/-- **Creation and deployment of the same code agree.** An analysis of creation code that copies and
returns the code behind it reports the same findings, for all detectors and in the same order, as an
analysis of that code with no reader of storage. Its state space is the one of that code, with all
uids raised by one, after one node of the constructor. -/
theorem creation_eq_deployed (s : Settings) (hs : s.timeout ≠ 0) (r : Registry) (runtime : Bytes)
    (hne : runtime ≠ []) (hlength : runtime.length ≤ 65535) (address : Address)
    (reader : Option StorageReader) :
    ∃ space created report report',
      ((new s r).explored (.deployed address runtime)).result = .ok space ∧
      ((new s r).explored (.creation (deployingCode runtime))).result = .ok created ∧
      created.nodes =
        #[constructorNode (lengthWord runtime)] ++ space.nodes.map Node.afterConstructor ∧
      created.edges = space.edges.map (Edge.shift 1) ∧ created.complete = space.complete ∧
      (new s r).outcome (.deployed address runtime) none = .ok report ∧
      (new s r).outcome (.creation (deployingCode runtime)) reader = .ok report' ∧
      report'.items = report.items := by
  have ho : (new s r).oracle.Blind := Oracle.blind_structural s.solverTimeout
  obtain ⟨space, hdeployed, hcreated, hwatch⟩ :=
    (new s r).explored_deployingCode (fun _ => Nat.pos_of_ne_zero hs) hne hlength address
  obtain ⟨_, hdeployed', hspace⟩ := ((new s r).explored_succeeds (.deployed address runtime)).space
  obtain ⟨_, hcreated', hspace'⟩ :=
    ((new s r).explored_succeeds (.creation (deployingCode runtime))).space
  cases hdeployed.symm.trans hdeployed'
  cases hcreated.symm.trans hcreated'
  have hsame := behind_constructorSpace (lengthWord runtime) space
  refine ⟨space, _, _, _, hdeployed, hcreated.trans (congrArg _ hsame), rfl, rfl, rfl,
    outcome_eq ho hdeployed hspace none, outcome_eq ho hcreated hspace' reader, ?_⟩
  rw [hwatch, Registry.inspected_behind (k := 0) ho hspace rfl (quiet_constructorSpace _)]

/-- Creation code that deploys a comparison of the caller with an owner. -/
theorem creation_eq_deployed_owned :
    let r : Registry := ⟨[.ofPattern {} .ownership, .ofPattern {} .singleOwner]⟩
    ({} : Settings).timeout ≠ 0 ∧ Explorer.ownedCode ≠ [] ∧
      Explorer.ownedCode.length ≤ 65535 ∧
      ∃ created report,
        ((new {} r).explored (.creation (deployingCode Explorer.ownedCode))).result =
          .ok created ∧ created.nodes.size = 4 ∧
        (new {} r).outcome (.creation (deployingCode Explorer.ownedCode)) none = .ok report ∧
        report.items.map (·.findings) =
          [[⟨fallbackName, some 0, none⟩], [⟨fallbackName, some 0, none⟩]] := by
  intro r
  refine ⟨by decide, by decide, by decide, ?_⟩
  obtain ⟨space, created, report, report', hspace, hcreated, hnodes, -, -, hreport, hreport',
      hitems⟩ :=
    creation_eq_deployed {} (by decide) r Explorer.ownedCode (by decide) (by decide) ⟨0⟩ none
  have hsize : (((new {} r).explored (.deployed ⟨0⟩ Explorer.ownedCode)).result.toOption.any
      fun space => space.nodes.size = 3) = true := by decide +kernel
  have hfindings : (((new {} r).outcome (.deployed ⟨0⟩ Explorer.ownedCode) none).toOption.any
      fun report => report.items.map (·.findings) =
        [[⟨fallbackName, some 0, none⟩], [⟨fallbackName, some 0, none⟩]]) = true := by
    decide +kernel
  simp only [hspace, Except.toOption, Option.any_some, decide_eq_true_eq] at hsize
  simp only [hreport, Except.toOption, Option.any_some, decide_eq_true_eq] at hfindings
  refine ⟨created, report', hcreated, ?_, hreport', ?_⟩
  · rw [hnodes, Array.size_append, Array.size_map, hsize]
    rfl
  · rw [hitems, hfindings]

end Analysis

end GuardFinder

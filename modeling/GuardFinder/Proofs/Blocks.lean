import GuardFinder.Proofs.Boundary
import GuardFinder.Proofs.Execution
import GuardFinder.Proofs.Forest
import GuardFinder.Proofs.Observation
import GuardFinder.Proofs.Openings

/-!
# Nodes are stretches of the code

A node is a basic block: its frames are consecutive instructions of the code, from the start address
on, and only the last of them may be one that does not go on to the next address. From frame to frame,
also along an edge, a stack changes by what the instruction takes and puts there.

* `Opcode.fallsThrough`: the opcodes after which a path goes on at the next address, which
  `fallsThrough_of_flow` and `flow_eq_next` find in the flow of an instruction.
* `Frame.Yields`: the words on the stack after a frame, as far as its opcode tells.
* `Node.IsBlock`, `StateSpace.Links`: what holds inside a node and along an edge.
* `Blocks`: what all steps keep. `Progress.blocks_of_reaches`: **a transaction adds blocks**.
* `Explorer.explore_blocks`: every node of an exploration is a block of the code that was run.
-/

namespace GuardFinder

/-! ### Instructions that fall through -/

/-- Whether a path goes on from an opcode to the next address. -/
def Opcode.fallsThrough (op : Opcode) : Bool :=
  op ≠ .jump && op ≠ .jumpi && !op.isHalting

/-- Whether a path goes on from opcodes of a kind to the next address. -/
def Opcode.Kind.fallsThrough : Opcode.Kind → Bool
  | .jump | .branch | .giveBack | .halt => false
  | _ => true

theorem Opcode.fallsThrough_kind (op : Opcode) : op.fallsThrough = op.kind.fallsThrough :=
  Opcode.forall_of_bytes (P := fun op => op.fallsThrough = op.kind.fallsThrough)
    (by decide +kernel) op

section

variable {program : Program} {ins : Instruction} {p : Path} {s : Supply}

theorem fallsThrough_of_flow (h : (execute program ins p s).flow = .next) :
    ins.opcode.fallsThrough = true := by
  rw [Opcode.fallsThrough_kind]
  unfold execute at h
  cases hkind : ins.opcode.kind with
  | halt =>
    simp only [hkind] at h
    cases h
  | jump | branch | giveBack =>
    simp only [hkind] at h
    rcases hstack : p.stack with _ | ⟨_, _ | ⟨_, _⟩⟩ <;>
      · rw [hstack] at h
        cases h
  | _ => rfl

/-- An instruction that falls through goes on to the next address, if it finds its operands. -/
theorem flow_eq_next (h : ins.opcode.pops ≤ p.stack.length)
    (hfalls : ins.opcode.fallsThrough = true) : (execute program ins p s).flow = .next := by
  rw [Opcode.fallsThrough_kind] at hfalls
  have heffect := executes_execute program ins p s
  generalize execute program ins p s = e at heffect ⊢
  cases heffect with
  | stuck _ short => exact absurd h (Nat.not_le_of_lt short)
  | drop stack drops =>
    cases drops with
    | discard => rfl
    | halt kind | giveBack kind | jump kind | branch kind =>
      rw [kind] at hfalls
      cases hfalls
  | dup | swap | make | guess | load | fetch | copy | write | store => rfl

/-- **An instruction leaves alone what is below its operands**, if the path goes on from it. -/
theorem drop_execute (program : Program) (s : Supply) (h : ins.opcode.pops ≤ p.stack.length) :
    (∃ returned, (execute program ins p s).flow = .halt returned) ∨
      (execute program ins p s).path.stack.drop ins.opcode.pushes =
        p.stack.drop ins.opcode.pops :=
  (replaces_execute program ins p s h).imp_right Opcode.Replaces.drop_eq

end

/-! ### Blocks -/

/-- The words on a stack. -/
def wordsOf (stack : List Value) : List Term := stack.map Value.word

/-- The words on the stack after a frame: results in place of the operands, and below them what was
there before. -/
structure Frame.Yields (f : Frame) (words : List Term) : Prop where
  length : words.length =
    f.stack.length - f.instruction.opcode.pops + f.instruction.opcode.pushes
  below : words.drop f.instruction.opcode.pushes = (wordsOf f.stack).drop f.instruction.opcode.pops

/-- A frame has the operands of its instruction, on a stack that is not too high. -/
def Frame.Fits (f : Frame) : Prop :=
  f.instruction.opcode.pops ≤ f.stack.length ∧ f.stack.length ≤ stackLimit

/-- The frames of a node are consecutive instructions of a program, from its start address on, and
only the last of them may be one that does not fall through. -/
structure Node.IsBlock (program : Program) (n : Node) : Prop where
  first : ∀ ⦃f⦄, n.frames[0]? = some f → program.at? n.startAddress = some f.instruction
  next : ∀ ⦃i f g⦄, n.frames[i]? = some f → n.frames[i + 1]? = some g →
    f.instruction.opcode.fallsThrough = true ∧
      program.at? f.instruction.nextAddress = some g.instruction ∧ f.Yields (wordsOf g.stack)
  fits : ∀ f ∈ n.frames, f.Fits

/-- Where an edge leads from a frame: to a jump destination, or to the next address. -/
def Frame.Lands (program : Program) (f : Frame) (start : Nat) : EdgeKind → Prop
  | .jump | .conditional true => ∃ ins, program.at? start = some ins ∧ ins.opcode = .jumpDest
  | .conditional false => start = f.instruction.nextAddress

/-- The words with which the target of an edge is entered, from the last frame of its source. -/
def StateSpace.Links (program : Program) (s : StateSpace) (e : Edge) (words : List Term) : Prop :=
  ∃ parent child last, s.nodes[e.source]? = some parent ∧ s.nodes[e.target]? = some child ∧
    parent.frames.back? = some last ∧ last.instruction.opcode = e.kind.opcode ∧
    last.Lands program child.startAddress e.kind ∧ last.Yields words

/-- How a path waits at a node for its next instruction: at the start of the node, or after the last
frame. -/
inductive Node.Awaits (n : Node) (words : List Term) (p : Path) : Prop
  | first (frames : n.frames = #[]) (pc : p.pc = n.startAddress) (stack : wordsOf p.stack = words)
  | next {f : Frame} (last : n.frames.back? = some f)
      (falls : f.instruction.opcode.fallsThrough = true)
      (pc : p.pc = f.instruction.nextAddress) (yields : f.Yields (wordsOf p.stack))

/-- The nodes from a root on are blocks, entered with the given words, and each path waits at its
node. -/
structure Blocks (program : Program) (root : Nat) (s : StateSpace) (words : Nat → List Term)
    (ps : List Path) : Prop where
  block : ∀ ⦃u : Nat⦄ ⦃n : Node⦄, root ≤ u → s.nodes[u]? = some n → n.IsBlock program
  first : ∀ ⦃u : Nat⦄ ⦃n : Node⦄ ⦃f⦄, root ≤ u → s.nodes[u]? = some n → n.frames[0]? = some f →
    wordsOf f.stack = words u
  start : ∀ ⦃n : Node⦄, s.nodes[root]? = some n → n.startAddress = 0
  edge : ∀ e ∈ s.edges, root ≤ e.source → s.Links program e (words e.target)
  path : ∀ p ∈ ps, p.stack.length ≤ stackLimit ∧
    ∃ n, s.nodes[p.node]? = some n ∧ n.Awaits (words p.node) p

section

variable {program : Program} {ins : Instruction} {p q : Path} {supply : Supply} {n : Node}
  {words : List Term}

theorem Node.isBlock_empty {program : Program} {n : Node} (h : n.frames = #[]) :
    n.IsBlock program where
  first f hf := by simp [h] at hf
  next i f g hf := by simp [h] at hf
  fits f hf := by simp [h] at hf

/-- A block goes on with the instruction that a path waits for. -/
theorem Node.IsBlock.push (h : n.IsBlock program) (hawaits : n.Awaits words p)
    (hat : program.at? p.pc = some ins) (hfits : Frame.Fits ⟨ins, p.stack⟩) :
    { n with frames := n.frames.push ⟨ins, p.stack⟩ }.IsBlock program where
  first f hf := by
    rw [Array.getElem?_push] at hf
    split at hf
    · next hzero =>
      obtain rfl := Option.some.inj hf
      cases hawaits with
      | first _ pc => rw [← pc, hat]
      | next last => simp [Array.back?, ← hzero] at last
    · exact h.first hf
  next i f g hf hg := by
    rw [Array.getElem?_push] at hf hg
    split at hg
    · next hlast =>
      obtain rfl := Option.some.inj hg
      rw [if_neg (by omega)] at hf
      cases hawaits with
      | first frames => simp [frames] at hf
      | @next f' last falls pc yields =>
        have hsame : f' = f := by
          rw [Array.back?, show n.frames.size - 1 = i by omega, hf] at last
          exact (Option.some.inj last).symm
        subst hsame
        exact ⟨falls, by rw [← pc, hat], yields⟩
    · next hne =>
      have hlt : i + 1 < n.frames.size := (Array.getElem?_eq_some_iff.mp hg).1
      rw [if_neg (by omega)] at hf
      exact h.next hf hg
  fits f hf := by
    rcases Array.mem_push.mp hf with hf | rfl
    · exact h.fits f hf
    · exact hfits

theorem Node.Awaits.first_push (hawaits : n.Awaits words p)
    (hfirst : ∀ f, n.frames[0]? = some f → wordsOf f.stack = words) {f : Frame}
    (hf : (n.frames.push ⟨ins, p.stack⟩)[0]? = some f) : wordsOf f.stack = words := by
  rw [Array.getElem?_push] at hf
  split at hf
  · next hzero =>
    obtain rfl := Option.some.inj hf
    cases hawaits with
    | first _ _ stack => exact stack
    | next last => simp [Array.back?, ← hzero] at last
  · exact hfirst f hf

/-- What an instruction leaves, if the path goes on from it. -/
theorem yields_execute (h : ins.opcode.pops ≤ p.stack.length)
    (hflow : ∀ returned, (execute program ins p supply).flow ≠ .halt returned) :
    (Frame.mk ins p.stack).Yields (wordsOf (execute program ins p supply).path.stack) where
  length := by
    rcases length_execute program ins p supply h with ⟨returned, hhalt⟩ | hlength
    · exact absurd hhalt (hflow returned)
    · rw [wordsOf, List.length_map, hlength]
  below := by
    rcases drop_execute program supply h with ⟨returned, hhalt⟩ | hdrop
    · exact absurd hhalt (hflow returned)
    · rw [wordsOf, wordsOf, ← List.map_drop, ← List.map_drop, hdrop]

theorem Effect.SetsOut.wordsOf_eq {e : Effect} {frame : Frame} {target : Nat} {kind : EdgeKind}
    (h : e.SetsOut program frame q target kind) : wordsOf q.stack = wordsOf e.path.stack := by
  cases h with
  | jump | knownFalse | knownTrue | taken => rfl
  | fallen => exact List.map_map

theorem Effect.SetsOut.flow_ne_halt {e : Effect} {frame : Frame} {target : Nat} {kind : EdgeKind}
    (h : e.SetsOut program frame q target kind) (returned : Option Bytes) :
    e.flow ≠ .halt returned := by
  cases h with
  | jump flow | knownFalse flow | knownTrue flow | fallen flow | taken flow =>
    rw [flow]
    nofun

theorem Effect.SetsOut.lands {e : Effect} {frame : Frame} {target : Nat} {kind : EdgeKind}
    (h : e.SetsOut program frame q target kind) : frame.Lands program target kind := by
  have hdest {destination : Value} (lands : jumpTarget? program destination = some target) :
      ∃ ins, program.at? target = some ins ∧ ins.opcode = .jumpDest := by
    have hjump := isJumpDest_of_jumpTarget? lands
    unfold Program.isJumpDest at hjump
    split at hjump
    · next ins hins => exact ⟨ins, hins, of_decide_eq_true hjump⟩
    · cases hjump
  cases h with
  | knownFalse | fallen => rfl
  | jump _ lands | knownTrue _ _ _ lands | taken _ _ lands => exact hdest lands

end

/-! ### Steps -/

namespace StateSpace.Links

variable {program : Program} {s s' : StateSpace} {e : Edge} {words : List Term}

theorem mono (h : s.Links program e words) (hcontinues : s.Continues s') :
    s'.Links program e words := by
  obtain ⟨parent, child, last, hparent, hchild, hlast⟩ := h
  refine ⟨parent, child, last, ?_, ?_, hlast⟩
  · rw [hcontinues.node _ (Array.getElem?_eq_some_iff.mp hparent).1, hparent]
  · rw [hcontinues.node _ (Array.getElem?_eq_some_iff.mp hchild).1, hchild]

theorem addFrame (h : s.Links program e words) {u : Nat} (hsource : e.source ≠ u) (f : Frame) :
    (s.addFrame u f).Links program e words := by
  obtain ⟨parent, child, last, hparent, hchild, hlast, hop, hlands, hyields⟩ := h
  refine ⟨parent, if e.target = u then { child with frames := child.frames.push f } else child,
    last, ?_, ?_, hlast, hop, ?_, hyields⟩
  · rw [getElem?_nodes_addFrame, hparent, Option.map_some, if_neg hsource]
  · rw [getElem?_nodes_addFrame, hchild, Option.map_some]
  · split <;> exact hlands

end StateSpace.Links

namespace Blocks

variable {program : Program} {limits : Limits} {root : Nat} {s s' : StateSpace}
  {words : Nat → List Term} {ins : Instruction} {p q : Path} {ps qs : List Path}

theorem of_subset (h : Blocks program root s words ps) (hsub : ∀ q ∈ qs, q ∈ ps) :
    Blocks program root s words qs :=
  ⟨h.block, h.first, h.start, h.edge, fun q hq => h.path q (hsub q hq)⟩

theorem cutShort (h : Blocks program root s words ps) :
    Blocks program root { s with complete := false } words ps :=
  ⟨h.block, h.first, h.start, h.edge, h.path⟩

/-- The instruction that a path has waited for is recorded at its node. -/
theorem addFrame (h : Blocks program root s words (p :: ps))
    (hleaf : ∀ e ∈ s.edges, e.source ≠ p.node) (hfree : ∀ q ∈ ps, q.node ≠ p.node)
    (hat : program.at? p.pc = some ins) (hpops : ins.opcode.pops ≤ p.stack.length) :
    Blocks program root (s.addFrame p.node ⟨ins, p.stack⟩) words ps := by
  obtain ⟨hheight, n, hn, hawaits⟩ := h.path p List.mem_cons_self
  have hself := StateSpace.getElem?_nodes_addFrame_self hn ⟨ins, p.stack⟩
  have hother {u : Nat} (hu : u ≠ p.node) :
      (s.addFrame p.node ⟨ins, p.stack⟩).nodes[u]? = s.nodes[u]? := by
    rw [StateSpace.getElem?_nodes_addFrame]
    simp [hu]
  refine ⟨fun u m hroot hm => ?_, fun u m f hroot hm hf => ?_, fun m hm => ?_, fun e he hroot => ?_,
    fun q hq => ?_⟩
  · by_cases hu : u = p.node
    · subst hu
      obtain rfl := Option.some.inj (hself.symm.trans hm)
      exact (h.block hroot hn).push hawaits hat ⟨hpops, hheight⟩
    · exact h.block hroot ((hother hu).symm.trans hm)
  · by_cases hu : u = p.node
    · subst hu
      obtain rfl := Option.some.inj (hself.symm.trans hm)
      exact hawaits.first_push (fun f hf => h.first hroot hn hf) hf
    · exact h.first hroot ((hother hu).symm.trans hm) hf
  · by_cases hu : root = p.node
    · rw [hu] at hm
      obtain rfl := Option.some.inj (hself.symm.trans hm)
      have hstart : n.startAddress = 0 := h.start (hu ▸ hn)
      exact hstart
    · exact h.start ((hother hu).symm.trans hm)
  · exact (h.edge e he hroot).addFrame (hleaf e he) _
  · obtain ⟨hq', m, hm, hwaits⟩ := h.path q (List.mem_cons_of_mem _ hq)
    exact ⟨hq', m, (hother (hfree q hq)).trans hm, hwaits⟩

/-- A path that follows an edge waits at the start of a new block. -/
theorem enters (h : Blocks program root s words ps) {source target : Nat} {kind : EdgeKind}
    (henters : q.Enters limits source target kind s s' qs) {n : Node} {f : Frame}
    (hroot : root ≤ q.node) (hn : s.nodes[q.node]? = some n) (hf : n.frames.back? = some f)
    (hop : f.instruction.opcode = kind.opcode) (hlands : f.Lands program target kind)
    (hyields : f.Yields (wordsOf q.stack)) (hheight : q.stack.length ≤ stackLimit) :
    ∃ words', Blocks program root s' words' (qs ++ ps) ∧ s'.nodes[q.node]? = some n := by
  have hnode : q.node < s.nodes.size := (Array.getElem?_eq_some_iff.mp hn).1
  have hkept := (henters.continues.node _ hnode).trans hn
  cases henters with
  | pruned => exact ⟨words, h.cutShort, hkept⟩
  | entered =>
    have hold := (StateSpace.Continues.addChild s q target kind).node
    have hnew : (s.addChild q target kind).nodes[s.nodes.size]? =
        some ⟨s.nodes.size, q.functionName, target, #[], q.constraints⟩ := by
      rw [StateSpace.getElem?_nodes_addChild, if_pos rfl]
    have hcases {u : Nat} {m : Node} (hm : (s.addChild q target kind).nodes[u]? = some m) :
        u < s.nodes.size ∧ s.nodes[u]? = some m ∨ u = s.nodes.size ∧ m.frames = #[] := by
      rw [StateSpace.getElem?_nodes_addChild] at hm
      split at hm
      · next hu => exact .inr ⟨hu, by rw [← Option.some.inj hm]⟩
      · exact .inl ⟨(Array.getElem?_eq_some_iff.mp hm).1, hm⟩
    let words' := fun u => if u = s.nodes.size then wordsOf q.stack else words u
    have hwords : ∀ u < s.nodes.size, words' u = words u := fun u hu => if_neg (Nat.ne_of_lt hu)
    refine ⟨words', ⟨fun u m hu hm => ?_, fun u m g hu hm hg => ?_, fun m hm => ?_,
      fun e he hsource => ?_, fun r hr => ?_⟩, hkept⟩
    · rcases hcases hm with ⟨-, hm⟩ | ⟨-, hempty⟩
      · exact h.block hu hm
      · exact Node.isBlock_empty hempty
    · rcases hcases hm with ⟨hlt, hm⟩ | ⟨-, hempty⟩
      · rw [hwords u hlt]
        exact h.first hu hm hg
      · simp [hempty] at hg
    · rw [hold root (Nat.lt_of_le_of_lt hroot hnode)] at hm
      exact h.start hm
    · rcases Array.mem_push.mp he with he | rfl
      · have hlink := h.edge e he hsource
        obtain ⟨-, child, -, -, hchild, -⟩ := id hlink
        rw [hwords _ (Array.getElem?_eq_some_iff.mp hchild).1]
        exact hlink.mono (.addChild ..)
      · exact ⟨n, _, f, hkept, hnew, hf, hop, hlands, by
          rw [show words' s.nodes.size = wordsOf q.stack from if_pos rfl]
          exact hyields⟩
    · rcases List.mem_cons.mp hr with rfl | hr
      · exact ⟨hheight, _, hnew, .first rfl rfl (if_pos rfl).symm⟩
      · obtain ⟨hr', m, hm, hwaits⟩ := h.path r hr
        have hlt := (Array.getElem?_eq_some_iff.mp hm).1
        exact ⟨hr', m, (hold _ hlt).trans hm, by rw [hwords _ hlt]; exact hwaits⟩

/-- **A step keeps nodes blocks.** -/
theorem steps {supply supply' : Supply} {returned : Option Bytes} {first : Nat}
    {way : Nat → List Frame} (h : Blocks program root s words (p :: ps))
    (hsurvey : Survey root first s way (p :: ps)) (hat : program.at? p.pc = some ins)
    (hfits : fitsStack ins.opcode p.stack = true)
    (hsteps : Steps program limits ⟨ins, p.stack⟩ (execute program ins p supply)
      (s.addFrame p.node ⟨ins, p.stack⟩) s' qs supply' returned) :
    ∃ words', Blocks program root s' words' (qs ++ ps) := by
  have hpops := pops_le_of_fitsStack hfits
  have hroot := (hsurvey.node p List.mem_cons_self).1
  have hframe := h.addFrame (hsurvey.leaf p List.mem_cons_self) hsurvey.node_ne hat hpops
  obtain ⟨-, n, hn, -⟩ := h.path p List.mem_cons_self
  have hself := StateSpace.getElem?_nodes_addFrame_self hn ⟨ins, p.stack⟩
  have hlast : (n.frames.push ⟨ins, p.stack⟩).back? = some ⟨ins, p.stack⟩ := Array.back?_push
  obtain ⟨stack, memory, storage, hpath⟩ := path_execute program ins p supply
  have hnode : (execute program ins p supply).path.node = p.node := by rw [hpath]
  -- the stack that the instruction leaves is not too high
  have hheight {ws : List Value} (hyields : (Frame.mk ins p.stack).Yields (wordsOf ws)) :
      ws.length ≤ stackLimit := by
    have hlength := hyields.length
    rw [wordsOf, List.length_map] at hlength
    simp only [fitsStack, Bool.and_eq_true, decide_eq_true_eq] at hfits
    rw [hlength]
    exact hfits.2
  suffices hall : ∃ words', Blocks program root s' words' (qs ++ ps) ∧
      s'.nodes[p.node]? = some { n with frames := n.frames.push ⟨ins, p.stack⟩ } from
    hall.imp fun _ hall => hall.1
  refine hsteps.rule (Q := fun s' qs => ∃ words', Blocks program root s' words' (qs ++ ps) ∧
      s'.nodes[p.node]? = some { n with frames := n.frames.push ⟨ins, p.stack⟩ }) ?_ ?_ ?_
  · exact ⟨words, hframe, hself⟩
  · intro hflow
    have hyields := yields_execute hpops fun returned hhalt => by
      rw [hflow] at hhalt
      cases hhalt
    refine ⟨words, ⟨hframe.block, hframe.first, hframe.start, hframe.edge, fun q hq => ?_⟩, hself⟩
    rcases List.mem_cons.mp hq with rfl | hq
    · refine ⟨hheight hyields, { n with frames := n.frames.push ⟨ins, p.stack⟩ }, ?_,
        .next hlast (fallsThrough_of_flow hflow) rfl hyields⟩
      simp only [hnode]
      exact hself
    · exact hframe.path q hq
  · rintro q target kind s₁ s₂ rs rs' hout henters ⟨words₁, h₁, hn₁⟩
    obtain ⟨hsame, -⟩ := hout.node_eq
    have hyields := yields_execute hpops hout.flow_ne_halt
    rw [← hout.wordsOf_eq] at hyields
    rw [← hsame] at hn₁ hroot ⊢
    obtain ⟨words₂, h₂, hn₂⟩ := h₁.enters henters hroot hn₁ hlast hout.opcode_eq hout.lands hyields
      (hheight hyields)
    rw [List.append_assoc]
    exact ⟨words₂, h₂, hn₂⟩

end Blocks

/-! ### Runs -/

namespace Progress

variable {program : Program} {limits : Limits} {g : Progress} {roots : List Nat}
  {entries : List String}

theorem blocks_begin {space : StateSpace} (h : space.Planted roots entries) (entry : String)
    (supply : Supply) :
    Blocks program space.nodes.size (begin entry space supply).space (fun _ => [])
      (begin entry space supply).paths := by
  have hnodes (u : Nat) : (space.addNode entry 0 []).nodes[u]? =
      if u = space.nodes.size then some ⟨space.nodes.size, entry, 0, #[], []⟩
      else space.nodes[u]? := Array.getElem?_push
  have hroot {u : Nat} {n : Node} (hu : space.nodes.size ≤ u)
      (hn : (space.addNode entry 0 []).nodes[u]? = some n) :
      n = ⟨space.nodes.size, entry, 0, #[], []⟩ := by
    rw [hnodes] at hn
    split at hn
    · exact (Option.some.inj hn).symm
    · rw [Array.getElem?_eq_none hu] at hn
      cases hn
  refine ⟨fun u n hu hn => ?_, fun u n f hu hn hf => ?_, fun n hn => ?_, fun e he hsource => ?_,
    fun p hp => ?_⟩
  · rw [hroot hu hn]
    exact Node.isBlock_empty rfl
  · simp [hroot hu hn] at hf
  · rw [hroot (Nat.le_refl _) hn]
  · have hlt := Nat.lt_trans (h.forward e he) (h.target_lt he)
    omega
  · rw [List.mem_singleton.mp hp]
    exact ⟨Nat.zero_le _, _, (hnodes _).trans (if_pos rfl), .first rfl rfl rfl⟩

/-- **A transaction adds blocks.** -/
theorem blocks_of_reaches {space : StateSpace} {entry : String} {supply : Supply}
    (h : Reaches program limits (begin entry space supply) g)
    (hspace : space.Planted roots entries) :
    ∃ words, Blocks program space.nodes.size g.space words g.paths := by
  induction h with
  | refl => exact ⟨_, blocks_begin hspace entry supply⟩
  | tail hbefore hadvance ih =>
    obtain ⟨words, hblocks⟩ := ih
    obtain ⟨-, way, hsurvey⟩ := continues_of_reaches hbefore hspace
    cases hadvance with
    | ended | unfit => exact ⟨words, hblocks.of_subset fun q hq => List.mem_cons_of_mem _ hq⟩
    | step at_ins fits steps => exact hblocks.steps hsurvey at_ins fits steps

end Progress

/-! ### Explorations -/

namespace StateSpace

/-- A node is a block of a program: without an edge to it, it starts at the first byte; along an edge
to it, it is entered where the edge leads, with what the last frame of the edge's source yields. -/
def HasBlock (program : Program) (s : StateSpace) (u : Nat) : Prop :=
  ∃ n, s.nodes[u]? = some n ∧ n.IsBlock program ∧
    ((∀ e ∈ s.edges, e.target ≠ u) → n.startAddress = 0) ∧
    ∀ e ∈ s.edges, e.target = u → ∃ words, s.Links program e words ∧
      ∀ f, n.frames[0]? = some f → wordsOf f.stack = words

variable {program : Program} {s s' : StateSpace} {u : Nat}

theorem HasBlock.mono (h : s.HasBlock program u) (hcontinues : s.Continues s')
    (htree : s'.GrownFrom s.nodes.size s.edges.size) : s'.HasBlock program u := by
  obtain ⟨n, hn, hblock, hstart, hedges⟩ := h
  have hu : u < s.nodes.size := (Array.getElem?_eq_some_iff.mp hn).1
  have hold {e : Edge} (he : e ∈ s'.edges) (htarget : e.target = u) : e ∈ s.edges :=
    hcontinues.mem_edges_of_target_lt htree he (htarget ▸ hu)
  refine ⟨n, (hcontinues.node u hu).trans hn, hblock, fun hnone => ?_, fun e he htarget => ?_⟩
  · exact hstart fun e he => hnone e (hcontinues.mem_edges he)
  · obtain ⟨words, hlinks, hfirst⟩ := hedges e (hold he htarget) htarget
    exact ⟨words, hlinks.mono hcontinues, hfirst⟩

/-- The nodes of a transaction are blocks of its code. -/
theorem hasBlock_of_blocks {root first : Nat} {words : Nat → List Term} {ps : List Path}
    (h : Blocks program root s words ps) (htree : s.GrownFrom root first) (hroot : root ≤ u)
    (hu : u < s.nodes.size) : s.HasBlock program u := by
  have hn := Array.getElem?_eq_getElem hu
  refine ⟨_, hn, h.block hroot hn, fun hnone => ?_, fun e he htarget => ?_⟩
  · obtain ⟨es, hes⟩ := htree.exists_chain u hroot hu
    rcases hes.eq_or_exists with ⟨rfl, -⟩ | ⟨-, e, -, he, htarget, -⟩
    · exact h.start hn
    · exact absurd htarget (hnone e he)
  · have hlinks := h.edge e he (htree.root_le_source he (htarget ▸ hroot))
    rw [htarget] at hlinks
    exact ⟨words u, hlinks, fun f hf => h.first hroot hn hf⟩

end StateSpace

namespace Explorer

variable {σ : Type}

/-- A transaction leaves blocks as they are and adds its own. -/
theorem run_blocks (x : Explorer) (observer : Observer σ) {o : Opening σ} {roots : List Nat}
    {entries : List String} (hplanted : o.space.Planted roots entries) :
    o.space.Continues (x.run observer o).progress.space ∧
      (x.run observer o).progress.space.GrownFrom o.space.nodes.size o.space.edges.size ∧
      ∀ u, o.root ≤ u → u < (x.run observer o).progress.space.nodes.size →
        (x.run observer o).progress.space.HasBlock (.ofCode o.code) u := by
  refine x.run_rule observer o (J := fun s => o.space.Continues s ∧
    s.GrownFrom o.space.nodes.size o.space.edges.size ∧
      ∀ u, o.root ≤ u → u < s.nodes.size → s.HasBlock (.ofCode o.code) u) ?_ ?_
  · intro g hreach
    obtain ⟨hcontinues, way, hsurvey⟩ := Progress.continues_of_reaches hreach hplanted
    obtain ⟨words, hblocks⟩ := Progress.blocks_of_reaches hreach hplanted
    exact ⟨hcontinues, hsurvey.tree, fun u => StateSpace.hasBlock_of_blocks hblocks hsurvey.tree⟩
  · rintro s ⟨hcontinues, htree, hblocks⟩
    exact ⟨⟨hcontinues.node, hcontinues.edge⟩,
      ⟨htree.first_le, htree.size, htree.uid, htree.before, htree.since⟩, hblocks⟩

/-- **Every node is a stretch of the code.** An exploration before an observer that does not fail
returns a state space, each node of which belongs to a transaction and is a block of the code of that
transaction. -/
theorem explore_blocks {x : Explorer} {observer : Observer σ} {P : σ → Prop}
    (hx : ∀ code, (x.setting observer code).Reliable P) (target : Target) (watch : σ × Ledger)
    (hP : P watch.1) :
    ∃ space, (x.explore observer target watch).result = .ok space ∧
      ∀ u < space.nodes.size, ∃ o ∈ x.openings observer target watch, o.root ≤ u ∧
        u < (x.run observer o).progress.space.nodes.size ∧ space.HasBlock (.ofCode o.code) u := by
  obtain ⟨space, hresult, -⟩ := (explore_succeeds hx target watch hP).space
  refine ⟨space, hresult, ?_⟩
  rw [← eq_of_explore hresult]
  refine x.openings_rule observer target watch
    (I := fun os space _ => ∀ u < space.nodes.size, ∃ o ∈ os, o.root ≤ u ∧
      u < (x.run observer o).progress.space.nodes.size ∧ space.HasBlock (.ofCode o.code) u)
    (fun u hu => absurd hu (Nat.not_lt_zero u)) fun os o roots entries hplanted hos u hu => ?_
  obtain ⟨hcontinues, htree, hblocks⟩ := x.run_blocks observer hplanted
  by_cases hroot : o.root ≤ u
  · exact ⟨o, List.mem_append_right _ (List.mem_singleton_self o), hroot, hu, hblocks u hroot hu⟩
  · obtain ⟨o', ho', hle, hlt, hblock⟩ := hos u (Nat.lt_of_not_le hroot)
    exact ⟨o', List.mem_append_left _ ho', hle, hlt, hblock.mono hcontinues htree⟩

/-- The last node of the code that creation code has returned is a block of a transaction. -/
theorem explore_blocks_created :
    wipingObserver.NeverFails ∧
      ∃ space, (wipingExplorer.explore wipingObserver (.creation createdCheckCode)
          ((), {})).result = .ok space ∧ space.nodes.size = 4 ∧
        ∃ o ∈ wipingExplorer.openings wipingObserver (.creation createdCheckCode) ((), {}),
          o.root ≤ 3 ∧ space.HasBlock (.ofCode o.code) 3 := by
  have hnever : wipingObserver.NeverFails := fun _ _ _ => ⟨_, rfl⟩
  obtain ⟨space, hspace, hblocks⟩ :=
    explore_blocks (hnever.reliable wipingExplorer) (.creation createdCheckCode) ((), {})
      trivial
  have hsize : (match (wipingExplorer.explore wipingObserver (.creation createdCheckCode)
      ((), {})).result with
    | .ok space => decide (space.nodes.size = 4)
    | .error _ => false) = true := by decide +kernel
  rw [hspace] at hsize
  have hfour := of_decide_eq_true hsize
  obtain ⟨o, ho, hroot, -, hblock⟩ := hblocks 3 (by omega)
  exact ⟨hnever, space, hspace, hfour, o, ho, hroot, hblock⟩

end Explorer

end GuardFinder

import GuardFinder.Proofs.Blocks
import GuardFinder.Proofs.Disassembly
import GuardFinder.Proofs.PushData
import GuardFinder.Proofs.Recording
import GuardFinder.Proofs.Selection

/-!
# Packed hashes in the code

The search for off-chain secrets looks at three frames in a row. Frames of a block are consecutive
instructions of the code, so what it finds can be read from the bytes: `60 20 01 20`, where an
instruction starts. Data that the end of the code cuts off cannot be mistaken for it, since an
instruction follows the data.

* `Node.IsBlock.at?_address`, `Node.IsBlock.at?_next`: instructions of a block in the code.
* `Node.HashesPackedAt`: a block executes those bytes. `Node.hashesPacked_iff`: **blocks that hash
  packed input are those that execute the bytes**.
* `pairwise_lt_eraseReps`, `OffChainSecret.inspect_eq`: names are reported once and in order.
* `Analysis.listed_packedHashes`: what a report lists for off-chain secrets.
-/

namespace GuardFinder

/-! ### Names in order -/

theorem loop_eraseRepsBy {α : Type} (r : α → α → Bool) (a : α) (as acc : List α) :
    List.eraseRepsBy.loop r a as acc = acc.reverse ++ List.eraseRepsBy.loop r a as [] := by
  induction as generalizing a acc with
  | nil => simp [List.eraseRepsBy.loop]
  | cons b as ih =>
    simp only [List.eraseRepsBy.loop]
    split
    · exact ih a acc
    · rw [ih b (a :: acc), ih b [a], List.reverse_cons, List.append_assoc]
      rfl

theorem eraseReps_cons_cons (a b : String) (names : List String) :
    (a :: b :: names).eraseReps =
      if a = b then (a :: names).eraseReps else a :: (b :: names).eraseReps := by
  show List.eraseRepsBy.loop (· == ·) a (b :: names) [] = _
  rw [List.eraseRepsBy.loop]
  by_cases h : a = b
  · rw [if_pos h, beq_iff_eq.mpr h]
    rfl
  · rw [if_neg h, beq_eq_false_iff_ne.mpr h]
    exact loop_eraseRepsBy _ b names [a]

theorem mem_eraseReps {name : String} {names : List String} :
    name ∈ names.eraseReps ↔ name ∈ names := by
  induction names with
  | nil => rfl
  | cons a names ih =>
    cases names with
    | nil => rfl
    | cons b names =>
      rw [eraseReps_cons_cons]
      split
      · next h =>
        subst h
        rw [ih]
        simp
      · rw [List.mem_cons, ih, ← List.mem_cons]

/-- **Without repetitions, names in order ascend.** -/
theorem pairwise_lt_eraseReps {names : List String} (h : names.Pairwise (· ≤ ·)) :
    names.eraseReps.Pairwise (· < ·) := by
  induction names with
  | nil => exact .nil
  | cons a names ih =>
    cases names with
    | nil => exact List.pairwise_singleton _ _
    | cons b names =>
      obtain ⟨hfirst, hrest⟩ := List.pairwise_cons.mp h
      rw [eraseReps_cons_cons]
      split
      · next hab =>
        rw [hab]
        exact ih hrest
      · next hab =>
        refine List.pairwise_cons.mpr ⟨fun name hname => ?_, ih hrest⟩
        have hle : b ≤ name := by
          rcases List.mem_cons.mp (mem_eraseReps.mp hname) with rfl | hname
          · exact String.le_refl _
          · exact (List.pairwise_cons.mp hrest).1 name hname
        refine String.not_le.mp fun hname => hab ?_
        exact String.le_antisymm (hfirst b List.mem_cons_self) (String.le_trans hle hname)

/-! ### Blocks in the code -/

theorem Word.ofBytes_singleton_inj {a b : UInt8} (h : ofBytes [a] = ofBytes [b]) : a = b := by
  have hone (byte : UInt8) : [byte].length ≤ 32 := Nat.le_add_left 1 31
  exact List.singleton_inj.mp
    (eq_of_natOfBytes_eq rfl (natOfBytes_eq_of_ofBytes_eq (hone a) (hone b) h))

namespace Node

variable {program : Program} {n : Node}

/-- The instructions that were executed in a block. -/
def instructions (n : Node) : List Instruction := n.frames.toList.map (·.instruction)

theorem getElem?_instructions (n : Node) (i : Nat) :
    n.instructions[i]? = n.frames[i]?.map (·.instruction) := by
  rw [instructions, List.getElem?_map, Array.getElem?_toList]

/-- An instruction of a block follows the one before it in the code. -/
theorem IsBlock.at?_next (h : n.IsBlock program) {i : Nat} {a b : Instruction}
    (ha : n.instructions[i]? = some a) (hb : n.instructions[i + 1]? = some b) :
    program.at? a.nextAddress = some b := by
  rw [getElem?_instructions] at ha hb
  obtain ⟨f, hf, rfl⟩ := Option.map_eq_some_iff.mp ha
  obtain ⟨g, hg, rfl⟩ := Option.map_eq_some_iff.mp hb
  exact (h.next hf hg).2.1

/-- An instruction of a block stands at its address in the code. -/
theorem IsBlock.at?_address (h : n.IsBlock program) {i : Nat} {a : Instruction}
    (ha : n.instructions[i]? = some a) : program.at? a.address = some a := by
  have hat : ∃ address, program.at? address = some a := by
    cases i with
    | zero =>
      rw [getElem?_instructions] at ha
      obtain ⟨f, hf, rfl⟩ := Option.map_eq_some_iff.mp ha
      exact ⟨_, h.first hf⟩
    | succ i =>
      have hlt : i < n.instructions.length := by
        have := (List.getElem?_eq_some_iff.mp ha).1
        omega
      exact ⟨_, h.at?_next (List.getElem?_eq_getElem hlt) ha⟩
  obtain ⟨address, hat⟩ := hat
  rw [Program.address_of_at? hat]
  exact hat

/-- A block executes the bytes `60 20 01 20` of the code, which stand where an instruction starts,
as `PUSH1 0x20`, `ADD` and `SHA3`. -/
structure HashesPackedAt (code : Bytes) (n : Node) (address : Nat) : Prop where
  boundary : Scans code address
  bytes : (code.drop address).take 4 = [0x60, 0x20, 0x01, 0x20]
  executed : [⟨address, .push1, some 0x20⟩, ⟨address + 2, .add, none⟩,
    ⟨address + 3, .sha3, none⟩] <:+: n.instructions

end Node

/-- An edge leads from a node to one where `REVERT` was executed. -/
def StateSpace.RevertsAfter (space : StateSpace) (n : Node) : Prop :=
  ∃ e ∈ space.edges, e.source = n.uid ∧ ∃ m ∈ space.nodes, m.uid = e.target ∧
    ∃ f ∈ m.frames, f.instruction.opcode = .revert

/-! ### Packed hashes -/

namespace OffChainSecret

theorem hashesPacked_iff {instructions : List Instruction} :
    hashesPacked instructions = true ↔ ∃ a b c, [a, b, c] <:+: instructions ∧
      a.opcode = .push1 ∧ a.argument = some 0x20 ∧ b.opcode = .add ∧ c.opcode = .sha3 := by
  induction instructions with
  | nil => simp [hashesPacked]
  | cons a rest ih =>
    rcases rest with - | ⟨b, - | ⟨c, rest⟩⟩
    · simp [hashesPacked, List.infix_cons_iff]
    · simp [hashesPacked, List.infix_cons_iff]
    · rw [hashesPacked, Bool.or_eq_true, ih]
      simp only [Bool.and_eq_true, decide_eq_true_eq]
      constructor
      · rintro (⟨⟨⟨ha, harg⟩, hb⟩, hc⟩ | ⟨a', b', c', hinfix, hshape⟩)
        · exact ⟨a, b, c, ⟨[], rest, rfl⟩, ha, harg, hb, hc⟩
        · exact ⟨a', b', c', List.infix_cons hinfix, hshape⟩
      · rintro ⟨a', b', c', hinfix, ha, harg, hb, hc⟩
        rcases List.infix_cons_iff.mp hinfix with hprefix | hinfix
        · simp only [List.cons_prefix_cons] at hprefix
          obtain ⟨rfl, rfl, rfl, -⟩ := hprefix
          exact .inl ⟨⟨⟨ha, harg⟩, hb⟩, hc⟩
        · exact .inr ⟨a', b', c', hinfix, ha, harg, hb, hc⟩

end OffChainSecret

namespace Program

variable {code : Bytes} {address : Nat} {ins : Instruction}

/-- The argument of a `PUSH1` with another byte behind its data is the byte of the data. -/
theorem argument_push1 (h : (ofCode code).at? address = some ins) (hop : ins.opcode = .push1)
    {byte : UInt8} (hbyte : code[address + 1]? = some byte) :
    ins.argument = some (Word.ofBytes [byte]) := by
  obtain ⟨opcode, -, hins⟩ := decode_of_getElem?_layoutFrom (at?_eq_some_iff.mp h)
  have hsize : Opcode.pushSize ⟨opcode⟩ = 1 := by
    rw [hins] at hop
    exact congrArg Opcode.pushSize hop
  have hlt : address + 1 < code.length := (List.getElem?_eq_some_iff.mp hbyte).1
  have hdata : (code.drop (address + 1)).take 1 = [byte] := by
    rw [List.take_one, List.head?_drop, hbyte]
    rfl
  have hfull : 1 - (code.drop (address + 1)).length = 0 := by
    rw [List.length_drop]
    omega
  have hcode : (ofCode code).code = code := rfl
  rw [hins, hcode, Instruction.argument_decode _ _ _ (by rw [hsize]; decide), hsize, hdata, hfull,
    List.replicate_zero, List.append_nil]

/-- An instruction without data is told by its opcode and its address. -/
theorem eq_of_at?_of_pushSize (h : (ofCode code).at? address = some ins)
    (hsize : ins.opcode.pushSize = 0) (hpush0 : ins.opcode ≠ .push0) :
    ins = ⟨address, ins.opcode, none⟩ := by
  obtain ⟨opcode, -, rfl⟩ := decode_of_getElem?_layoutFrom (at?_eq_some_iff.mp h)
  rw [Instruction.opcode_decode] at hsize hpush0
  simp [Instruction.decode, hsize, hpush0]

/-- The bytes of `PUSH1 0x20`, `ADD` and `SHA3` in a row. -/
theorem take_of_packed {a b c : Instruction} (hata : (ofCode code).at? address = some a)
    (hatb : (ofCode code).at? (address + 2) = some b)
    (hatc : (ofCode code).at? (address + 3) = some c) (ha : a.opcode = .push1)
    (harg : a.argument = some 0x20) (hb : b.opcode = .add) (hc : c.opcode = .sha3) :
    (code.drop address).take 4 = [0x60, 0x20, 0x01, 0x20] := by
  have hdrop {address : Nat} {byte : UInt8} (hbyte : code[address]? = some byte) :
      code.drop address = byte :: code.drop (address + 1) := by
    obtain ⟨hlt, rfl⟩ := List.getElem?_eq_some_iff.mp hbyte
    exact List.drop_eq_getElem_cons hlt
  have hbyte₀ := byte_of_at? hata
  have hbyte₂ := byte_of_at? hatb
  have hbyte₃ := byte_of_at? hatc
  -- the code goes on behind the data, so that they are not filled up
  have hlt : address + 1 < code.length := by
    have hnext : address + 2 < code.length := lt_length_of_at? hatb
    omega
  have hbyte₁ : code[address + 1]? = some 0x20 := by
    have hsome := List.getElem?_eq_getElem hlt
    have hword := (argument_push1 hata ha hsome).symm.trans harg
    rw [hsome, Word.ofBytes_singleton_inj (b := 0x20) (Option.some.inj hword)]
  rw [hdrop hbyte₀, hdrop hbyte₁, hdrop hbyte₂, hdrop hbyte₃, ha, hb, hc]
  rfl

end Program

/-- **Blocks that hash packed input are those that execute the bytes.** -/
theorem Node.hashesPacked_iff {code : Bytes} {n : Node} (hblock : n.IsBlock (.ofCode code)) :
    OffChainSecret.hashesPacked n.instructions = true ↔
      ∃ address, n.HashesPackedAt code address := by
  rw [OffChainSecret.hashesPacked_iff]
  constructor
  · rintro ⟨a, b, c, hinfix, ha, harg, hb, hc⟩
    have hplaces := hinfix
    obtain ⟨before, after, heq⟩ := hplaces
    have hplace (k : Nat) : n.instructions[before.length + k]? = ([a, b, c] ++ after)[k]? := by
      rw [← heq, List.append_assoc, List.getElem?_append_right (Nat.le_add_right _ _),
        Nat.add_sub_cancel_left]
    -- each of the three stands behind the one before it in the code
    have hata := hblock.at?_address (hplace 0)
    have hatb : (Program.ofCode code).at? (a.address + 2) = some b := by
      have hnext := hblock.at?_next (hplace 0) (hplace 1)
      rwa [Instruction.nextAddress, ha] at hnext
    have hb' : b = ⟨a.address + 2, .add, none⟩ := by
      rw [← hb]
      exact Program.eq_of_at?_of_pushSize hatb (by rw [hb]; rfl) (by rw [hb]; decide)
    have hatc : (Program.ofCode code).at? (a.address + 3) = some c := by
      have hnext := hblock.at?_next (hplace 1) (hplace 2)
      rwa [hb'] at hnext
    have hc' : c = ⟨a.address + 3, .sha3, none⟩ := by
      rw [← hc]
      exact Program.eq_of_at?_of_pushSize hatc (by rw [hc]; rfl) (by rw [hc]; decide)
    refine ⟨a.address, ?_, Program.take_of_packed hata hatb hatc ha harg hb hc, ?_⟩
    · exact (Program.scans_or_inPushData_of_layout (Program.at?_eq_some_iff.mp hata)).1 rfl
    · rwa [← ha, ← harg, ← hb', ← hc']
  · rintro ⟨address, h⟩
    exact ⟨_, _, _, h.executed, rfl, rfl, rfl, rfl⟩

/-! ### Reports -/

theorem firstFindings_eq_self {findings : List Finding}
    (h : (findings.map (·.functionName)).Nodup) : firstFindings findings = findings := by
  induction findings with
  | nil => rfl
  | cons f rest ih =>
    rw [List.map_cons, List.nodup_cons] at h
    rw [firstFindings, ih h.2, List.filter_eq_self.mpr]
    intro g hg
    exact decide_eq_true fun hname => h.1 (hname ▸ List.mem_map_of_mem hg)

namespace OffChainSecret

/-- The names that are reported for a state space. -/
def reportedNames (space : StateSpace) : List String :=
  ((restrictedFunctions space).mergeSort (· ≤ ·)).eraseReps

theorem inspect_eq (space : StateSpace) (l : Ledger) : ∃ l',
    inspect space l = .ok ((reportedNames space).map fun name => ⟨name, none, none⟩) l' := by
  have hyields : Yields (inspect space)
      (· = (reportedNames space).map fun name => ⟨name, none, none⟩) :=
    .bind (yields_any _) fun _ _ => yields_pure rfl
  obtain ⟨found, l', hrun⟩ := safe_inspect space l
  exact ⟨l', by rw [hrun, hyields l found l' hrun]⟩

/-- **Names are reported once and in order.** -/
theorem pairwise_reportedNames (space : StateSpace) : (reportedNames space).Pairwise (· < ·) := by
  refine pairwise_lt_eraseReps ?_
  have htrans (a b c : String) (hab : decide (a ≤ b) = true) (hbc : decide (b ≤ c) = true) :
      decide (a ≤ c) = true :=
    decide_eq_true (String.le_trans (of_decide_eq_true hab) (of_decide_eq_true hbc))
  have htotal (a b : String) : (decide (a ≤ b) || decide (b ≤ a)) = true := by
    simpa using String.le_total a b
  have hsorted := List.pairwise_mergeSort htrans htotal (restrictedFunctions space)
  exact hsorted.imp of_decide_eq_true

theorem mem_reportedNames {space : StateSpace} {name : String} :
    name ∈ reportedNames space ↔
      ∃ n ∈ space.nodes, isRestricted space n = true ∧ n.functionName = name := by
  rw [reportedNames, mem_eraseReps, List.mem_mergeSort, restrictedFunctions]
  simp only [List.mem_map, List.mem_filter, Array.mem_toList_iff, and_assoc]

variable {space : StateSpace}

theorem isRestricted_iff {roots : List Nat} {entries : List String} {code : Bytes} {n : Node}
    (hplanted : space.Planted roots entries) (hblock : n.IsBlock (.ofCode code)) :
    isRestricted space n = true ↔
      (∃ address, n.HashesPackedAt code address) ∧ space.RevertsAfter n := by
  have hnode (u : Nat) (m : Node) : space.nodes[u]? = some m ↔ m ∈ space.nodes ∧ m.uid = u := by
    constructor
    · intro hm
      exact ⟨Array.mem_of_getElem? hm, hplanted.uid hm⟩
    · rintro ⟨hm, rfl⟩
      obtain ⟨v, hv⟩ := Array.mem_iff_getElem?.mp hm
      rwa [hplanted.uid hv]
  rw [isRestricted, Bool.and_eq_true, ← Node.hashesPacked_iff hblock]
  refine and_congr_right fun _ => ?_
  simp only [StateSpace.RevertsAfter, StateSpace.successors, List.any_eq_true, List.mem_filterMap,
    List.mem_filter, Array.mem_toList_iff, decide_eq_true_eq, hnode, Node.contains,
    Array.any_eq_true', and_assoc]
  constructor
  · rintro ⟨m, ⟨e, he, hsource, hm, huid⟩, hrevert⟩
    exact ⟨e, he, hsource, m, hm, huid, hrevert⟩
  · rintro ⟨e, he, hsource, m, hm, huid, hrevert⟩
    exact ⟨m, ⟨e, he, hsource, hm, huid⟩, hrevert⟩

end OffChainSecret

/-- The detector for off-chain secrets reports the names that its look at the state space gives. -/
theorem Detector.findings_inspected (s : Settings) (oracle : Oracle) (space : StateSpace) :
    ((ofPattern s .offChainSecret).inspected oracle space).findings =
      (OffChainSecret.reportedNames space).map fun name => ⟨name, none, none⟩ := by
  have hnodup : (((OffChainSecret.reportedNames space).map fun name =>
      (⟨name, none, none⟩ : Finding)).map (·.functionName)).Nodup := by
    rw [List.map_map]
    simp only [Function.comp_def, List.map_id_fun', id]
    exact (OffChainSecret.pairwise_reportedNames space).imp fun h => by
      rintro rfl
      exact String.lt_irrefl _ h
  have hrun (l : Ledger) := look_run (OffChainSecret.inspect_eq space)
    (.executing (ofPattern s .offChainSecret).pattern.title)
    (recordNew_eq _ (ofPattern s .offChainSecret)) l
  have hrecords := (records_reset (ofPattern s .offChainSecret)).foldl_withNew
    ((OffChainSecret.reportedNames space).map fun name => ⟨name, none, none⟩)
  rw [reset_ofPattern] at hrecords
  rw [inspected_of_run fun l => by rw [inspect_run]; exact hrun l, hrecords.findings,
    List.nil_append, firstFindings_eq_self hnodup]

namespace Analysis

/-- The state space of a deployed contract consists of blocks of its code. -/
theorem isBlock_explored_deployed {a : Analysis} {address : Address} {code : Bytes}
    {space : StateSpace} (h : (a.explored (.deployed address code)).result = .ok space) :
    space.Planted [0] [fallbackName] ∧ ∀ n ∈ space.nodes, n.IsBlock (.ofCode code) := by
  let watch : Registry × Ledger :=
    (a.prepare.registry, { log := .starting a.prepare.registry.detectors.length :: a.prepare.log })
  let o := a.prepare.explorer.opening (.deployed address code) watch
  have hspace : (a.prepare.explorer.run Registry.observer o).progress.space = space :=
    Explorer.eq_of_explore h
  obtain ⟨-, -, hblocks⟩ := a.prepare.explorer.run_blocks Registry.observer (o := o) .empty
  have hplanted := a.prepare.explorer.run_planted Registry.observer (o := o) .empty
  rw [hspace] at hblocks hplanted
  refine ⟨hplanted, fun n hn => ?_⟩
  obtain ⟨u, hu⟩ := Array.mem_iff_getElem?.mp hn
  obtain ⟨m, hm, hblock, -⟩ :=
    hblocks u (Nat.zero_le u) (Array.getElem?_eq_some_iff.mp hu).1
  obtain rfl := Option.some.inj (hu.symm.trans hm)
  exact hblock

/-- **Off-chain secrets are reported as the code tells.** The functions that a report on a deployed
contract lists for them, each once and in ascending order, are those with a node that executes the
bytes `60 20 01 20` and has an edge to a node where `REVERT` was executed. So nothing is reported
for code without these bytes. -/
theorem listed_packedHashes (s : Settings) {ps : List Pattern} {i : Nat}
    (hp : ps[i]? = some .offChainSecret) (address : Address) (code : Bytes)
    (snapshot : Option Snapshot) :
    ∃ space lists names,
      ((ofPatterns s ps).explored (.deployed address code)).result = .ok space ∧
      (ofPatterns s ps).listed (.deployed address code) snapshot = .ok lists ∧
      lists[i]? = some (names.map fun name => ⟨name, none, none⟩) ∧
      names.Pairwise (· < ·) ∧
      (∀ name, name ∈ names ↔ ∃ n ∈ space.nodes, n.functionName = name ∧
        (∃ place, n.HashesPackedAt code place) ∧ space.RevertsAfter n) ∧
      (names ≠ [] → [0x60, 0x20, 0x01, 0x20] <:+: code) := by
  obtain ⟨space, hspace, hsupported⟩ :=
    ((ofPatterns s ps).explored_succeeds (.deployed address code)).space
  obtain ⟨lists, hlists, -, hlisted⟩ :=
    exists_listed s ps (.deployed address code) snapshot hspace hsupported
  obtain ⟨d, -, hd, hi⟩ := hlisted i _ hp
  obtain rfl := Option.some.inj (hd.symm.trans (explored_silent hp rfl _))
  obtain ⟨hplanted, hblocks⟩ := isBlock_explored_deployed hspace
  have hmem (name : String) : name ∈ OffChainSecret.reportedNames space ↔
      ∃ n ∈ space.nodes, n.functionName = name ∧
        (∃ place, n.HashesPackedAt code place) ∧ space.RevertsAfter n := by
    rw [OffChainSecret.mem_reportedNames]
    refine exists_congr fun n => and_congr_right fun hn => ?_
    rw [OffChainSecret.isRestricted_iff hplanted (hblocks n hn), and_comm]
  have hfill (name : String) :
      (Target.deployed address code).fill snapshot ⟨name, none, none⟩ = ⟨name, none, none⟩ := by
    cases snapshot <;> rfl
  refine ⟨space, lists, OffChainSecret.reportedNames space, hspace, hlists, ?_,
    OffChainSecret.pairwise_reportedNames space, hmem, fun hne => ?_⟩
  · rw [hi, Detector.findings_inspected, List.map_map]
    simp only [Function.comp_def, hfill]
  · obtain ⟨name, hname⟩ := List.exists_mem_of_ne_nil _ hne
    obtain ⟨n, -, -, ⟨place, hplace⟩, -⟩ := (hmem name).mp hname
    rw [← hplace.bytes]
    exact (List.take_prefix _ _).isInfix.trans (List.drop_suffix _ _).isInfix

/-- Code that compares the hash of a word of the call data with slot zero, and reverts if they
differ. -/
def secretCheckCode : Bytes :=
  [0x5f, 0x35, 0x60, 0x20, 0x52, 0x60, 0x20, 0x5f, 0x60, 0x20, 0x01, 0x20,
   0x5f, 0x54, 0x14, 0x60, 0x15, 0x57, 0x5f, 0x5f, 0xfd, 0x5b, 0x00]

theorem listed_packedHashes_secretCheck :
    [Pattern.ownership, .offChainSecret][1]? = some .offChainSecret ∧
      (ofPatterns {} [.ownership, .offChainSecret]).listed (.deployed ⟨0⟩ secretCheckCode) none =
        .ok [[], [⟨"fallback", none, none⟩]] ∧
      ∃ space, ((ofPatterns {} [.ownership, .offChainSecret]).explored
          (.deployed ⟨0⟩ secretCheckCode)).result = .ok space ∧
        ∃ n ∈ space.nodes, n.functionName = "fallback" ∧
          (∃ place, n.HashesPackedAt secretCheckCode place) ∧ space.RevertsAfter n := by
  have hp : [Pattern.ownership, .offChainSecret][1]? = some .offChainSecret := rfl
  have hlisted : (ofPatterns {} [.ownership, .offChainSecret]).listed
      (.deployed ⟨0⟩ secretCheckCode) none = .ok [[], [⟨"fallback", none, none⟩]] := by
    decide +kernel
  obtain ⟨space, lists, names, hspace, hlists, hi, -, hnames, -⟩ :=
    listed_packedHashes {} hp ⟨0⟩ secretCheckCode none
  obtain rfl := Except.ok.inj (hlisted.symm.trans hlists)
  have hname : "fallback" ∈ names := by
    have hmem : (⟨"fallback", none, none⟩ : Finding) ∈
        names.map fun name => (⟨name, none, none⟩ : Finding) := by
      rw [← Option.some.inj hi]
      exact List.mem_singleton_self _
    obtain ⟨name, hname, heq⟩ := List.mem_map.mp hmem
    rwa [← (Finding.mk.inj heq).1]
  exact ⟨hp, hlisted, space, hspace, (hnames _).mp hname⟩

end Analysis

end GuardFinder

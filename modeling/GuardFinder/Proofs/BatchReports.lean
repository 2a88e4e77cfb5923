import GuardFinder.Cli.Command
import GuardFinder.Cli.Transcript
import GuardFinder.Proofs.ReportNames
import Mathlib.Data.List.TakeWhile

/-!
# Reports of a batch

The reports on the files of a batch go into one directory, each under its own report name. The run
writes them one after the other and stops at the first that cannot be written; a report is
overwritten by a later one of the same name.

* `Command.outcome`: how a command ends on a transcript.
* `Command.outcome_writeReport`: what one report changes.
* `Command.outcome_writeReports`: what a run over reports changes.
* `Command.writeMarkdown_files`: **which files a batch of reports writes, and when two reports share
  a file**.
-/

namespace GuardFinder.Command

/-! ### Outcomes -/

section

variable {α β : Type}

/-- How a command ends on a transcript, and the transcript that it leaves. -/
def outcome (x : Run (StateM Transcript) α) (t : Transcript) :
    Except CommandError α × Transcript :=
  x.run.run t

theorem outcome_bind_ok {x : Run (StateM Transcript) α} {f : α → Run (StateM Transcript) β}
    {a : α} {t t' : Transcript} (h : outcome x t = (.ok a, t')) :
    outcome (x >>= f) t = outcome (f a) t' := by
  unfold outcome at h ⊢
  rw [ExceptT.run_bind, StateT.run_bind, h]
  rfl

theorem outcome_bind_error {x : Run (StateM Transcript) α} {f : α → Run (StateM Transcript) β}
    {e : CommandError} {t t' : Transcript} (h : outcome x t = (.error e, t')) :
    outcome (x >>= f) t = (.error e, t') := by
  unfold outcome at h ⊢
  rw [ExceptT.run_bind, StateT.run_bind, h]
  rfl

end

/-- Changes the tree and goes on, or ends with an error. -/
def changeThen (f : FileTree → Option FileTree) (e : CommandError)
    (next : Run (StateM Transcript) Unit) : Run (StateM Transcript) Unit := do
  unless ← Transcript.changeTree f do throw e
  next

section

variable {f : FileTree → Option FileTree} {t : Transcript} {tree : FileTree} {e : CommandError}

theorem run_changeTree_some (h : f t.tree = some tree) :
    (Transcript.changeTree f).run t = (true, { t with tree }) := by
  unfold Transcript.changeTree
  simp only [StateT.run_bind, StateT.run_get, pure_bind, h]
  rfl

theorem run_changeTree_none (h : f t.tree = none) :
    (Transcript.changeTree f).run t = (false, t) := by
  unfold Transcript.changeTree
  simp only [StateT.run_bind, StateT.run_get, pure_bind, h]
  rfl

theorem outcome_lift {α : Type} (x : StateM Transcript α) :
    outcome (ExceptT.lift x) t = (.ok (x.run t).1, (x.run t).2) := rfl

theorem outcome_changeThen_some (h : f t.tree = some tree) (next : Run (StateM Transcript) Unit) :
    outcome (changeThen f e next) t = outcome next { t with tree } := by
  have hchange : outcome (ExceptT.lift (Transcript.changeTree f)) t =
      (.ok true, { t with tree }) := by
    rw [outcome_lift, run_changeTree_some h]
  exact outcome_bind_ok hchange

theorem outcome_changeThen_none (h : f t.tree = none) (next : Run (StateM Transcript) Unit) :
    outcome (changeThen f e next) t = (.error e, t) := by
  have hchange : outcome (ExceptT.lift (Transcript.changeTree f)) t = (.ok false, t) := by
    rw [outcome_lift, run_changeTree_none h]
  exact outcome_bind_ok hchange

end

/-- A message to the log leaves the files as they are. -/
theorem outcome_log (wanted : LogFilter) (message : Message) (t : Transcript) :
    ∃ t', outcome (log Transcript.host wanted message) t = (.ok (), t') ∧ t'.tree = t.tree := by
  unfold log
  split
  · exact ⟨_, rfl, rfl⟩
  · exact ⟨t, rfl, rfl⟩

/-! ### One report -/

namespace FileReport

/-- The name of the file that the report goes to. -/
def name (r : FileReport) : Pathname := .ofText (Batch.reportName r.below)

/-- The path of that file. -/
def pathIn (output : Pathname) (r : FileReport) : Pathname := output.join [r.name]

/-- The text that is written. -/
def text (r : FileReport) : String := r.report.markdown (contractName r.path)

/-- Whether the report can be written into the directory of the tree: the path is not too long, and
no directory has the name. -/
def isWritable (t : FileTree) (output : Pathname) (d : List Pathname) (r : FileReport) : Bool :=
  (r.pathIn output).isShort && !t.isDirectory (d ++ [r.name])

theorem name_eq_iff {directory : Pathname} {r r' : FileReport}
    (h : Batch.isCode directory r.below = true) (h' : Batch.isCode directory r'.below = true) :
    r.name = r'.name ↔ Batch.segments r.below = Batch.segments r'.below :=
  Pathname.ofText_inj.trans (Batch.reportName_eq_iff h h')

/-- A file in the directory does not change which reports can be written there. -/
theorem isWritable_putAt {t : FileTree} {d : List Pathname} (hd : t.isDirectory d = true)
    (name output : Pathname) (text : String) (r : FileReport) :
    r.isWritable (t.putAt (d ++ [name]) text) output d = r.isWritable t output d := by
  rw [isWritable, isWritable, FileTree.isDirectory_putAt hd]

end FileReport

variable {output : Pathname} {d : List Pathname}

/-- Writes a report of a batch. -/
def writeReport (wanted : LogFilter) (output : Pathname) (r : FileReport) :
    Run (StateM Transcript) Unit :=
  changeThen (·.write? (r.pathIn output) r.text) (.reportNotWritten (r.pathIn output))
    (log Transcript.host wanted (.reportWritten (r.pathIn output).text))

theorem writeMarkdown_batch (wanted : LogFilter) (output : Pathname) (rs : List FileReport) :
    writeMarkdown Transcript.host wanted true output rs =
      changeThen (·.makeDirectories? output) (.directoryNotMade output)
        (rs.forM (writeReport wanted output)) := rfl

section

variable {t : Transcript} {r : FileReport}

/-- **A report that can be written is put at its place in the directory.** -/
theorem outcome_writeReport (hd : t.tree.resolve? output = some d)
    (hdir : t.tree.isDirectory d = true) (hname : Pathname.IsName r.name)
    (hwritable : r.isWritable t.tree output d = true) (wanted : LogFilter) :
    ∃ t', outcome (writeReport wanted output r) t = (.ok (), t') ∧
      t'.tree = t.tree.putAt (d ++ [r.name]) r.text := by
  have hwritable : (output.join [r.name]).isShort = true ∧
      t.tree.isDirectory (d ++ [r.name]) = false := by
    simpa [FileReport.isWritable, FileReport.pathIn] using hwritable
  have hwrite : t.tree.write? (r.pathIn output) r.text =
      some (t.tree.putAt (d ++ [r.name]) r.text) :=
    (FileTree.write?_join hd hdir hname).trans (if_pos hwritable)
  obtain ⟨t', hlog, htree⟩ := outcome_log wanted (.reportWritten (r.pathIn output).text)
    { t with tree := t.tree.putAt (d ++ [r.name]) r.text }
  exact ⟨t', (outcome_changeThen_some hwrite _).trans hlog, htree⟩

theorem outcome_writeReport_error (hd : t.tree.resolve? output = some d)
    (hdir : t.tree.isDirectory d = true) (hname : Pathname.IsName r.name)
    (hwritable : r.isWritable t.tree output d = false) (wanted : LogFilter) :
    outcome (writeReport wanted output r) t =
      (.error (.reportNotWritten (r.pathIn output)), t) := by
  have hwritable : ¬((output.join [r.name]).isShort = true ∧
      t.tree.isDirectory (d ++ [r.name]) = false) := by
    simpa [FileReport.isWritable, FileReport.pathIn] using hwritable
  have hwrite : t.tree.write? (r.pathIn output) r.text = none :=
    (FileTree.write?_join hd hdir hname).trans (if_neg hwritable)
  exact outcome_changeThen_none hwrite _

end

/-! ### All reports -/

/-- The last of the reports that go to a place. -/
def lastAt (d place : List Pathname) (rs : List FileReport) : Option FileReport :=
  (rs.filter fun r => d ++ [r.name] = place).getLast?

theorem lastAt_cons (d place : List Pathname) (r : FileReport) (rs : List FileReport) :
    lastAt d place (r :: rs) =
      (lastAt d place rs).or (if d ++ [r.name] = place then some r else none) := by
  unfold lastAt
  by_cases h : d ++ [r.name] = place
  · rw [List.filter_cons_of_pos (by simpa using h), List.getLast?_cons, if_pos h]
    cases (rs.filter fun r => d ++ [r.name] = place).getLast? <;> rfl
  · rw [List.filter_cons_of_neg (by simpa using h), if_neg h, Option.or_none]

/-- A later report at the place wins over the first one, and this one over the file before. -/
theorem text_lastAt_cons (d place : List Pathname) (r : FileReport) (rs : List FileReport)
    (before : Option String) :
    ((lastAt d place (r :: rs)).map FileReport.text).or before =
      ((lastAt d place rs).map FileReport.text).or
        (if place = d ++ [r.name] then some r.text else before) := by
  rw [lastAt_cons]
  cases lastAt d place rs with
  | some later => rfl
  | none =>
    by_cases h : place = d ++ [r.name]
    · rw [if_pos h, if_pos h.symm]
      rfl
    · rw [if_neg h, if_neg (Ne.symm h)]
      rfl

theorem exists_lastAt {r : FileReport} {rs : List FileReport} (h : r ∈ rs) :
    ∃ last, lastAt d (d ++ [r.name]) rs = some last := by
  have hmem : r ∈ rs.filter fun r' => d ++ [r'.name] = d ++ [r.name] :=
    List.mem_filter.mpr ⟨h, decide_eq_true rfl⟩
  exact ⟨_, List.getLast?_eq_some_getLast (List.ne_nil_of_mem hmem)⟩

/-- The reports that a run writes: those before the first that cannot be written. -/
def written (t : FileTree) (output : Pathname) (d : List Pathname) (rs : List FileReport) :
    List FileReport :=
  rs.takeWhile (·.isWritable t output d)

/-- How a run ends: with an error if there is such a report. -/
def ending (t : FileTree) (output : Pathname) (d : List Pathname) (rs : List FileReport) :
    Except CommandError Unit :=
  (rs.find? (!·.isWritable t output d)).elim (.ok ()) fun r =>
    .error (.reportNotWritten (r.pathIn output))

/-- **A run writes the reports up to the first that cannot be written**, and of those with one place
the last stays. -/
theorem outcome_writeReports {rs : List FileReport} (hnames : ∀ r ∈ rs, Pathname.IsName r.name)
    {t : Transcript} (hd : t.tree.resolve? output = some d) (hdir : t.tree.isDirectory d = true)
    (wanted : LogFilter) :
    ∃ t', outcome (rs.forM (writeReport wanted output)) t = (ending t.tree output d rs, t') ∧
      (∀ path, t'.tree.resolve? path = t.tree.resolve? path) ∧
      ∀ place, t'.tree.fileAt? place =
        ((lastAt d place (written t.tree output d rs)).map FileReport.text).or
          (t.tree.fileAt? place) := by
  unfold written
  induction rs generalizing t with
  | nil => exact ⟨t, rfl, fun _ => rfl, fun _ => rfl⟩
  | cons r rs ih =>
    have hname := hnames r List.mem_cons_self
    rw [List.forM_eq_forM, List.forM_cons]
    cases hwritable : r.isWritable t.tree output d with
    | false =>
      refine ⟨t, ?_, fun _ => rfl, fun place => ?_⟩
      · rw [outcome_bind_error (outcome_writeReport_error hd hdir hname hwritable wanted), ending,
          List.find?_cons_of_pos (by simpa using hwritable)]
        rfl
      · rw [List.takeWhile_cons_of_neg (by simpa using hwritable)]
        rfl
    | true =>
      obtain ⟨s, hs, htree⟩ := outcome_writeReport hd hdir hname hwritable wanted
      have hsame (r' : FileReport) :
          r'.isWritable s.tree output d = r'.isWritable t.tree output d := by
        rw [htree, FileReport.isWritable_putAt hdir]
      obtain ⟨t', ht', hresolve, hfiles⟩ := ih
        (fun r' hr' => hnames r' (List.mem_cons_of_mem r hr'))
        (htree ▸ (FileTree.resolve?_putAt hdir r.text output).trans hd)
        (htree ▸ (FileTree.isDirectory_putAt hdir r.text d).trans hdir)
      refine ⟨t', ?_, fun path => ?_, fun place => ?_⟩
      · rw [outcome_bind_ok hs, ← List.forM_eq_forM, ht', ending, ending,
          List.find?_cons_of_neg (by simpa using hwritable)]
        simp only [hsame]
      · rw [hresolve, htree, FileTree.resolve?_putAt hdir]
      · rw [hfiles, htree, FileTree.fileAt?_putAt, List.takeWhile_cons_of_pos hwritable,
          text_lastAt_cons, ← htree]
        simp only [hsame]

/-! ### A batch -/

/-- Files with the same report names are those with the same segments. -/
theorem nodup_names_iff {directory : Pathname} {rs : List FileReport}
    (h : ∀ r ∈ rs, Batch.isCode directory r.below = true) (d : List Pathname) :
    (rs.map fun r => d ++ [r.name]).Nodup ↔ (rs.map fun r => Batch.segments r.below).Nodup := by
  rw [List.Nodup, List.Nodup, List.pairwise_map, List.pairwise_map]
  refine List.Pairwise.iff_of_mem fun {r r'} hr hr' => not_congr ?_
  rw [List.append_right_inj, List.singleton_inj]
  exact FileReport.name_eq_iff (h r hr) (h r' hr')

/-- **The reports of a batch get files of their own unless their names say the same between
underscores.** If the parts of their names are texts without underscores, only `..bin` and `...bin`
in one directory share a name. The run makes the directory, writes the reports up to the first that
cannot be written, and changes no other file; so it writes as many files as reports if and only if
no two of these say the same between underscores, and of those that do, the last one stays. -/
theorem writeMarkdown_files {directory : Pathname} {rs : List FileReport}
    (hcode : ∀ r ∈ rs, Batch.isCode directory r.below = true)
    (hslash : ∀ r ∈ rs, ∀ part ∈ r.below, Pathname.slash ∉ part)
    (wanted : LogFilter) (output : Pathname) (t : Transcript) :
    (∀ r ∈ rs, ∀ r' ∈ rs,
      (r.name = r'.name ↔ Batch.segments r.below = Batch.segments r'.below) ∧
      (Batch.IsPlain r.below → Batch.IsPlain r'.below → r.name = r'.name →
        r.below = r'.below ∨ Batch.DotTwins r.below r'.below)) ∧
    (t.tree.makeDirectories? output = none →
      outcome (writeMarkdown Transcript.host wanted true output rs) t =
        (.error (.directoryNotMade output), t)) ∧
    ∀ tree, t.tree.makeDirectories? output = some tree → ∃ d t',
      tree.resolve? output = some d ∧
      outcome (writeMarkdown Transcript.host wanted true output rs) t =
        (ending tree output d rs, t') ∧
      (∀ place, t'.tree.fileAt? place =
        ((lastAt d place (written tree output d rs)).map FileReport.text).or
          (t.tree.fileAt? place)) ∧
      (∀ r ∈ written tree output d rs, t'.tree.read? (r.pathIn output) =
        (lastAt d (d ++ [r.name]) (written tree output d rs)).map FileReport.text) ∧
      (((written tree output d rs).map fun r => d ++ [r.name]).Nodup ↔
        ((written tree output d rs).map fun r => Batch.segments r.below).Nodup) := by
  have hnames : ∀ r ∈ rs, Pathname.IsName r.name := fun r hr =>
    Batch.isName_reportName (hcode r hr) (hslash r hr)
  refine ⟨fun r hr r' hr' => ⟨FileReport.name_eq_iff (hcode r hr) (hcode r' hr'),
    fun hplain hplain' heq => Batch.eq_of_reportName_eq (hcode r hr) (hcode r' hr') hplain hplain'
      (Pathname.ofText_inj.mp heq)⟩, fun hmade => ?_, fun tree hmade => ?_⟩
  · rw [writeMarkdown_batch, outcome_changeThen_none hmade]
  · obtain ⟨hfiles, d, hd, hdir⟩ := FileTree.makeDirectories?_eq_some hmade
    obtain ⟨t', hrun, hresolve, hat⟩ :=
      outcome_writeReports hnames (t := { t with tree }) hd hdir wanted
    have hbefore (place : List Pathname) : tree.fileAt? place = t.tree.fileAt? place := by
      rw [FileTree.fileAt?, hfiles, FileTree.fileAt?]
    have houtcome : outcome (writeMarkdown Transcript.host wanted true output rs) t =
        (ending tree output d rs, t') := by
      rw [writeMarkdown_batch, outcome_changeThen_some hmade]
      exact hrun
    have hsubset : ∀ r ∈ written tree output d rs, r ∈ rs := fun r hr =>
      (List.takeWhile_sublist _).subset hr
    refine ⟨d, t', hd, houtcome, fun place => (hat place).trans (by rw [hbefore]), fun r hr => ?_,
      nodup_names_iff (fun r hr => hcode r (hsubset r hr)) d⟩
    · have hwritable : r.isWritable tree output d = true := List.mem_takeWhile_imp hr
      have hshort : (output.join [r.name]).isShort = true :=
        (Bool.and_eq_true_iff.mp hwritable).1
      have hplace : t'.tree.resolve? (r.pathIn output) = some (d ++ [r.name]) :=
        (hresolve _).trans (FileTree.resolve?_join hd hdir (hnames r (hsubset r hr)) hshort)
      obtain ⟨last, hlast⟩ := exists_lastAt (d := d) hr
      rw [FileTree.read?, hplace, Option.bind_some, hat, hlast]
      rfl

/-- A report of a batch on vaults. -/
def vaultReport (below : List String) (address : String) : FileReport where
  path := Pathname.join (.ofText "d") (below.map Pathname.ofText)
  below := below.map Pathname.ofText
  report := { contractAddress := some address }

/-- Three reports, two of them with one name. -/
def vaultReports : List FileReport :=
  [vaultReport ["a", "b", "Vault.bin"] "0x1", vaultReport ["a_b", "Vault.bin"] "0x2",
    vaultReport ["x", "Vault.bin"] "0x3"]

/-- A directory for reports. -/
def reportTree : FileTree := { directories := [[.ofText "out"]] }

/-- The run ends well with two files, and the first report is lost. -/
theorem writeMarkdown_files_vaults :
    ∃ t', outcome (writeMarkdown Transcript.host (.standard false) true (.ofText "/out")
        vaultReports) {} = (.ok (), t') ∧
      t'.tree.read? (.ofText "/out/a_b_Vault.md") =
        some (vaultReport ["a_b", "Vault.bin"] "0x2").text ∧
      t'.tree.read? (.ofText "/out/x_Vault.md") =
        some (vaultReport ["x", "Vault.bin"] "0x3").text := by
  have hcode : ∀ r ∈ vaultReports, Batch.isCode (.ofText "d") r.below = true := by decide +kernel
  have hslash : ∀ r ∈ vaultReports, ∀ part ∈ r.below, Pathname.slash ∉ part := by decide +kernel
  have hmade : FileTree.makeDirectories? {} (.ofText "/out") = some reportTree := by decide +kernel
  obtain ⟨d, t', hd, hrun, -, hread, -⟩ :=
    (writeMarkdown_files hcode hslash (.standard false) (.ofText "/out") {}).2.2 _ hmade
  have hout : reportTree.resolve? (.ofText "/out") = some [.ofText "out"] := by decide +kernel
  obtain rfl : d = [.ofText "out"] := Option.some.inj (hd.symm.trans hout)
  have hwritable : ∀ r ∈ vaultReports,
      r.isWritable reportTree (.ofText "/out") [.ofText "out"] = true := by decide +kernel
  have hending : ending reportTree (.ofText "/out") [.ofText "out"] vaultReports = .ok () := by
    rw [ending, List.find?_eq_none.mpr (by simpa using hwritable)]
    rfl
  have hwritten : written reportTree (.ofText "/out") [.ofText "out"] vaultReports =
      vaultReports := List.takeWhile_eq_self_iff.mpr hwritable
  rw [hending] at hrun
  rw [hwritten] at hread
  have hsecond := hread (vaultReport ["a_b", "Vault.bin"] "0x2") (by simp [vaultReports])
  have hthird := hread (vaultReport ["x", "Vault.bin"] "0x3") (by simp [vaultReports])
  refine ⟨t', hrun, ?_, ?_⟩
  · exact hsecond
  · exact hthird

/-- Parts joined by underscores and parts with underscores give one name. -/
theorem reportName_underscore : ¬∀ (directory : Pathname) (below other : List Pathname),
    Batch.isCode directory below = true → Batch.isCode directory other = true → below ≠ other →
      Batch.reportName below ≠ Batch.reportName other := by
  intro h
  exact h (.ofText "d") [.ofText "a", .ofText "b", .ofText "Vault.bin"]
    [.ofText "a_b", .ofText "Vault.bin"] (by decide +kernel) (by decide +kernel) (by decide)
    (by decide +kernel)

end GuardFinder.Command

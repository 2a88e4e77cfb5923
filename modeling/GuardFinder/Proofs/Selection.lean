import GuardFinder.Proofs.Reruns
import GuardFinder.Proofs.SideBySide

/-!
# Choosing detectors

What the detector for a pattern finds, among others and alone.

* `Analysis.result_explored`: **what is explored does not depend on the detectors**.
* `Analysis.listed_among`: **nor does what one of them finds**, where others share no marks with it,
  or where they take none away and no path comes from a function that it has reported.
-/

namespace GuardFinder

/-! ### Ways to compare -/

/-- Detectors that have to do with a taint are for one pattern, or share a mark. -/
theorem Pattern.Handles.eq_or_mark {p q : Pattern} {a : Taint} (hp : p.Handles a)
    (hq : q.Handles a) : p = q ∨ ∃ mark, a.use = .mark mark ∧ mark ∈ p.marks ∧ mark ∈ q.marks := by
  unfold Handles at hp hq
  split at hp
  · next mark huse =>
    rw [huse] at hq
    exact .inr ⟨mark, huse, hp, hq⟩
  · next huse =>
    rw [huse] at hq
    exact .inl (hp.symm.trans hq)

namespace Selection

variable (s : Settings) (ps : List Pattern) (p : Pattern)

/-- Detectors are compared in all they read, with marks put by others. -/
def beside : Selection where
  settings := s
  patterns := ps
  pattern := p
  reads := (Strategy.ofPattern s p).Reads
  mixed := True
  view := id

/-- Detectors are compared in all they read, none of which others put. -/
def apart : Selection := { beside s ps p with mixed := False }

variable {s ps p}

end Selection

/-! ### Explorations -/

/-- A detector that asks for no events is as it was. -/
theorem Analysis.explored_silent {s : Settings} {ps : List Pattern} {i : Nat} {p : Pattern}
    (hp : ps[i]? = some p) (hsilent : (Strategy.ofPattern s p).watchesEvents = false)
    (target : Target) :
    ((ofPatterns s ps).explored target).watch.1.detectors[i]? = some (.ofPattern s p) := by
  have hfollows (code : Bytes) := ((ofPatterns s ps).follows_prepare code).and
    (Q := fun r => r.detectors[i]? = some (.ofPattern s p)) (by
      rintro op e j hj r τ ⟨hserves, -⟩ hr
      obtain ⟨d, hd, hwish⟩ := hserves _ (Registry.mem_hooks_of_mem_subscribers hj)
      have hne : j ≠ i := by
        rintro rfl
        obtain rfl := Option.some.inj (hd.symm.trans hr)
        have hwatches := Strategy.watchesEvents_of_asks (Detector.mem_wishes.mp hwish)
        rw [Detector.ofPattern, hsilent] at hwatches
        cases hwatches
      simp only [Registry.react, hd, List.getElem?_set_ne hne, hr])
  have hstart : (ofPatterns s ps).prepare.registry.detectors[i]? = some (.ofPattern s p) := by
    simp [prepare, ofPatterns, new, Registry.reset, hp]
  exact (Explorer.explore_succeeds (fun code => (hfollows code).reliable) target _
    ⟨⟨serves_prepare _, Registry.reset_reset _⟩, hstart⟩).kept.2

namespace Analysis

/-- The explorations of two new analyses with the same settings, in lockstep. -/
theorem explored_lockstep (s : Settings) (ps qs : List Pattern) (target : Target)
    {R : Progress → Progress → Registry × Taints → Registry × Taints → Prop}
    (hR : ∀ code, Lockstep s.limits
      (((ofPatterns s ps).prepare.explorer.setting Registry.observer code).hear Registry.react)
      (((ofPatterns s qs).prepare.explorer.setting Registry.observer code).hear Registry.react) R)
    (hrel : ∀ entry, R (.begin entry {} {}) (.begin entry {} {})
      (⟨ps.map (.ofPattern s)⟩, ∅) (⟨qs.map (.ofPattern s)⟩, ∅)) :
    ∃ g g', ((ofPatterns s ps).explored target).result = .ok g.space ∧
      ((ofPatterns s qs).explored target).result = .ok g'.space ∧
      R g g' (withoutLog ((ofPatterns s ps).explored target).watch)
        (withoutLog ((ofPatterns s qs).explored target).watch) := by
  have hlimits (ps : List Pattern) : (ofPatterns s ps).prepare.explorer.limits = s.limits :=
    limits_prepare _
  have hhavocs (ps : List Pattern) : (ofPatterns s ps).prepare.explorer.havocs = 0 :=
    Explorer.havocs_foldl_register ..
  have hregistry (ps : List Pattern) :
      (ofPatterns s ps).prepare.registry = ⟨ps.map (.ofPattern s)⟩ := by
    simp [prepare, ofPatterns, new, Registry.reset]
  have hstart (ps : List Pattern) : (ofPatterns s ps).prepare.registry.Serves
        (ofPatterns s ps).prepare.explorer.hooks ∧
      (ofPatterns s ps).prepare.registry.reset = (ofPatterns s ps).registry.reset :=
    ⟨serves_prepare _, Registry.reset_reset _⟩
  refine (Explorer.explore_lockstep (ofPatterns s ps).follows_prepare
    (ofPatterns s qs).follows_prepare ?_ (fun g h _ _ _ => ?_) (fun code => ?_) target _ _
    (hstart ps) (hstart qs) fun entry => ?_).related
  · rw [hlimits, hlimits]
  · simp only [Explorer.late, hlimits, clock_prepare]
    rfl
  · rw [hlimits]
    exact hR code
  · rw [hhavocs, hhavocs, hregistry, hregistry]
    exact hrel entry

/-- **What is explored does not depend on the detectors.** -/
theorem result_explored (s : Settings) (ps qs : List Pattern) (target : Target) :
    ∃ space, ((ofPatterns s ps).explored target).result = .ok space ∧
      ((ofPatterns s qs).explored target).result = .ok space ∧ space.Supported := by
  obtain ⟨g, _, hps, hqs, rfl, -⟩ := explored_lockstep s ps qs target
    (fun _ => lockstep_same (Q := fun _ _ => True) (fun _ _ _ _ => id) _) fun _ => ⟨rfl, trivial⟩
  obtain ⟨space, hspace, hsupported⟩ := ((ofPatterns s ps).explored_succeeds target).space
  obtain rfl := Except.ok.inj (hspace.symm.trans hps)
  exact ⟨_, hps, hqs, hsupported⟩

end Analysis

/-- **Detectors among others match the one alone** when all was explored. -/
theorem Selection.Valid.explored {c : Selection} (hc : c.Valid) (target : Target)
    {space : StateSpace}
    (hspace : ((Analysis.ofPatterns c.settings c.patterns).explored target).result = .ok space) :
    ∃ own d, ((Analysis.ofPatterns c.settings [c.pattern]).explored target).watch.1 = ⟨[own]⟩ ∧
      c.Copies ((Analysis.ofPatterns c.settings c.patterns).explored target).watch.1
        (fun _ e => c.Same d e) ∧ c.Matches space own d := by
  have hcopy := c.isCopy_ofPattern
  have hkept : c.comparison.kept {} ⟨c.patterns.map (.ofPattern c.settings)⟩
      ⟨[c.pattern].map (.ofPattern c.settings)⟩ := by
    refine ⟨by simp [Registry.reset], .ofPattern c.settings c.pattern,
      .ofPattern c.settings c.pattern, rfl, fun i e hi he => ?_, hcopy, hcopy, .inl rfl,
      fun _ _ => rfl⟩
    rw [List.getElem?_map, hi] at he
    obtain rfl := Option.some.inj he
    exact ⟨hcopy, rfl, rfl⟩
  obtain ⟨_, g, hresult, -, rfl, hg⟩ := Analysis.explored_lockstep c.settings c.patterns [c.pattern]
    target (fun code => (c.tracks hc code).lockstep _)
    fun entry => ⟨rfl, (c.tracks hc []).begin entry hkept fun _ _ _ _ => .rfl⟩
  obtain rfl := Except.ok.inj (hspace.symm.trans hresult)
  obtain ⟨-, own, d, hown, hcopies, hmatches⟩ := hg.kept
  exact ⟨own, d, hown, hcopies, hmatches⟩

/-! ### Reports -/

theorem AgreeBut.map {spoiled : String → Prop} {fs gs : List Finding} (h : AgreeBut spoiled fs gs)
    {fill : Finding → Finding} (hfill : ∀ f, (fill f).functionName = f.functionName) :
    AgreeBut spoiled (fs.map fill) (gs.map fill) := by
  intro keep hkeep
  have hmap (l : List Finding) : (l.map fill).filter (keep ·.functionName) =
      (l.filter (keep ·.functionName)).map fill := by
    rw [List.filter_map]
    simp only [Function.comp_def, hfill]
  rw [hmap, hmap, h keep hkeep]

/-- A report lists what each detector has found in the end. -/
theorem Analysis.exists_listed (s : Settings) (ps : List Pattern) (target : Target)
    (snapshot : Option Snapshot) {space : StateSpace}
    (hspace : ((ofPatterns s ps).explored target).result = .ok space)
    (hsupported : space.Supported) :
    ∃ lists, (ofPatterns s ps).listed target snapshot = .ok lists ∧ lists.length = ps.length ∧
      ∀ (i : Nat) (p : Pattern), ps[i]? = some p → ∃ d : Detector, d.reset = .ofPattern s p ∧
        ((ofPatterns s ps).explored target).watch.1.detectors[i]? = some d ∧
        lists[i]? = some ((d.inspected (ofPatterns s ps).oracle space).findings.map
          (target.fill snapshot)) := by
  have hreset : ((ofPatterns s ps).explored target).watch.1.reset = ⟨ps.map (.ofPattern s)⟩ := by
    rw [((ofPatterns s ps).explored_succeeds target).kept.2]
    simp [ofPatterns, new, Registry.reset]
  have hlength := congrArg (·.detectors.length) hreset
  simp only [Registry.reset, List.length_map] at hlength
  refine ⟨_, listed_eq (Oracle.blind_structural _) hspace hsupported snapshot, ?_, fun i p hp => ?_⟩
  · simpa [Registry.inspected] using hlength
  · obtain ⟨d, hd, hd'⟩ := Selection.exists_detector hreset hp
    exact ⟨d, hd', hd, by simp [Registry.inspected, hd]⟩

section

variable {s : Settings} {ps : List Pattern} {i : Nat} {p : Pattern} {target : Target}
  {space : StateSpace} {own d : Detector}
  (hspace : ((Analysis.ofPatterns s ps).explored target).result = .ok space)
  (hp : ps[i]? = some p)
  (hd : ((Analysis.ofPatterns s ps).explored target).watch.1.detectors[i]? = some d)
  (hown : ((Analysis.ofPatterns s [p]).explored target).watch.1.detectors[0]? = some own)
include hspace hp hd hown

theorem Selection.Valid.agree {c : Selection} (hc : c.Valid) (hsettings : c.settings = s)
    (hpatterns : c.patterns = ps) (hpattern : c.pattern = p) :
    AgreeBut (c.Spoils space own d) (own.findings.map c.view) (d.findings.map c.view) := by
  subst hsettings hpatterns hpattern
  obtain ⟨own', e, hown', hcopies, hmatches⟩ := hc.explored target hspace
  rw [hown'] at hown
  obtain rfl := Option.some.inj hown
  have hsame := hcopies i d hp hd
  rw [hsame.findings]
  refine hmatches.findings.mono fun name hname => ⟨hname.1, ?_⟩
  rw [reported, hsame.names_eq hc]
  exact hname.2

end

/-- Code that compares the caller with slot 0, reads the slot again, and then enters a function that
compares this with the caller. -/
def readAgainCode : Bytes :=
  [0x33, 0x33, 0x5f, 0x54, 0x14, 0x60, 0x19, 0x57, 0x5f, 0x54,
   0x5f, 0x35, 0x60, 0x07, 0x14, 0x60, 0x13, 0x57, 0x00,
   0x5b, 0x14, 0x60, 0x19, 0x57, 0x00, 0x5b, 0x00]

end GuardFinder

import GuardFinder.Explore.Machine

/-!
# Settings

What can be set for an analysis. All numbers fit 64 bits, the ceiling of plain slots is a word.
-/

namespace GuardFinder

/-- The settings of an analysis. -/
structure Settings where
  /-- The time for an exploration, in seconds. -/
  timeout : Nat := 60
  /-- How many blocks a path may enter. -/
  maxDepth : Nat := 128
  /-- How often a path may take one jump edge. -/
  loopBound : Nat := 3
  /-- The time for a question to the oracle, in seconds. -/
  solverTimeout : Nat := 10
  /-- Storage slots from this one on are taken for parts of mappings and arrays. -/
  storageIndexCeiling : Word := 0x100000000
  /-- How many bytes a secret may have. -/
  hashLockMaxLength : Nat := 32
  deriving DecidableEq, Repr

/-- The limits that the settings put on an exploration. -/
def Settings.limits (s : Settings) : Limits where
  seconds := s.timeout
  maxDepth := s.maxDepth
  loopBound := s.loopBound

end GuardFinder

import Mathlib

/-!
# Compaction tasks

What a controller hands to the compactor and, in a `Compaction` record, to the replay of the
manifest.
-/

namespace TinyLsm

/-- All of a level, or of L0, goes into the level below it. -/
structure SimpleLeveledCompactionTask where
  /-- `none` is a compaction of L0. -/
  upperLevel : Option ℕ
  upperLevelSstIds : List ℕ
  lowerLevel : ℕ
  lowerLevelSstIds : List ℕ
  isLowerLevelBottomLevel : Bool
  deriving DecidableEq, Repr

/-- L0, or one table of a level, goes into the tables it overlaps in a level below. -/
structure LeveledCompactionTask where
  /-- `none` is a compaction of L0. -/
  upperLevel : Option ℕ
  upperLevelSstIds : List ℕ
  lowerLevel : ℕ
  lowerLevelSstIds : List ℕ
  isLowerLevelBottomLevel : Bool
  deriving DecidableEq, Repr

/-- Some tiers, which become one. -/
structure TieredCompactionTask where
  tiers : List (ℕ × List ℕ)
  bottomTierIncluded : Bool
  deriving DecidableEq, Repr

/-- What a compaction takes as its input, by the controller that has planned it. -/
inductive CompactionTask where
  | leveled (task : LeveledCompactionTask)
  | tiered (task : TieredCompactionTask)
  | simple (task : SimpleLeveledCompactionTask)
  | forceFullCompaction (l0Sstables l1Sstables : List ℕ)
  deriving DecidableEq, Repr

/-- Whether nothing older lies below the output, so that tombstones are left out. -/
def CompactionTask.compactToBottomLevel : CompactionTask → Bool
  | .forceFullCompaction _ _ => true
  | .leveled task => task.isLowerLevelBottomLevel
  | .simple task => task.isLowerLevelBottomLevel
  | .tiered task => task.bottomTierIncluded

end TinyLsm

import TinyLsm.Compact
import TinyLsm.Compact.LeveledSorted
import TinyLsm.Compact.LeveledTargets

/-!
# Trees without a task

When a controller has no task, the tree should be within the bounds that `check_compaction_ratio` of
the tests asserts.  The leveled controller compares L0 with `>` where the simple one and the tests
have `>=`, so it may leave L0 at the trigger.  That is all it misses: `meetsBounds_iff`.
-/

namespace TinyLsm

namespace CompactionController

variable {M : Type}

/-- The bounds of the leveled strategies: L0 is below the trigger, a level has enough tables for the
one above it, and levels with a target are within it. -/
def MeetsBounds (controller : CompactionController) (s : LsmStorageState M) : Prop :=
  match controller with
  | .simple options => s.l0Sstables.length < options.level0FileNumCompactionTrigger ∧
      ∀ above upper lower below, s.levels = above ++ upper :: lower :: below → upper.2 ≠ [] →
        options.sizeRatioPercent * upper.2.length ≤ lower.2.length * 100
  | .leveled options => s.l0Sstables.length < options.level0FileNumCompactionTrigger ∧
      ∃ real targets baseLevel, LeveledCompactionController.realLevelSize s = .ok real ∧
        LeveledCompactionController.targetLevelSize options real = .ok (targets, baseLevel) ∧
        targets.length = options.maxLevels ∧
        (∀ i r t : ℕ, real[i]? = some r → targets[i]? = some t → t ≠ 0 → r ≤ t) ∧
        LeveledCompactionController.Shaped options targets
  | .tiered _ => True
  | .noCompaction => True

theorem meetsBounds_simple {options : SimpleLeveledCompactionOptions} {s : LsmStorageState M}
    (hnone : SimpleLeveledCompactionController.generateCompactionTask options s = .ok none) :
    MeetsBounds (.simple options) s := by
  obtain ⟨hl0, -, hchain⟩ :=
    SimpleLeveledCompactionController.generateCompactionTask_eq_none_iff.mp hnone
  refine ⟨hl0, fun above upper lower below hlevels => ?_⟩
  exact SimpleLeveledCompactionController.inRatio_iff.mp
    (List.isChain_iff_forall_rel_of_append_cons_cons.mp hchain hlevels)

section

variable [Platform]

theorem meetsBounds_leveled (hexact : LeveledCompactionController.ExactPriority)
    {options : LeveledCompactionOptions} {s : LsmStorageState M}
    (hnone : LeveledCompactionController.generateCompactionTask options s = .ok none) :
    MeetsBounds (.leveled options) s ↔
      s.l0Sstables.length ≠ options.level0FileNumCompactionTrigger := by
  obtain ⟨hl0, real, targets, baseLevel, hreal, htargets, hpriorities⟩ :=
    LeveledCompactionController.generateCompactionTask_eq_none_iff.mp hnone
  obtain ⟨-, hlength, hshaped, -⟩ := LeveledCompactionController.targetLevelSize_spec htargets
  constructor
  · rintro ⟨hlt, -⟩
    exact hlt.ne
  · intro hne
    exact ⟨by omega, real, targets, baseLevel, hreal, htargets, hlength,
      (LeveledCompactionController.priorities_eq_nil_iff hexact).mp hpriorities, hshaped⟩

/-- **A tree without a task is within the bounds**, unless it is a leveled one with L0 exactly at the
trigger. -/
theorem meetsBounds_iff (hexact : LeveledCompactionController.ExactPriority)
    {controller : CompactionController} {s : LsmStorageState M}
    (hnone : controller.generateCompactionTask s = .ok none) :
    MeetsBounds controller s ↔ ∀ options, controller = .leveled options →
      s.l0Sstables.length ≠ options.level0FileNumCompactionTrigger := by
  cases controller with
  | leveled options =>
    obtain ⟨task, htask, hmap⟩ := Outcome.bind_eq_ok_iff.mp hnone
    rw [Option.map_eq_none_iff.mp (Except.ok.inj hmap)] at htask
    rw [meetsBounds_leveled hexact htask]
    constructor
    · rintro hne _ ⟨⟩
      exact hne
    · intro h
      exact h options rfl
  | simple options =>
    obtain ⟨task, htask, hmap⟩ := Outcome.bind_eq_ok_iff.mp hnone
    rw [Option.map_eq_none_iff.mp (Except.ok.inj hmap)] at htask
    refine iff_of_true (meetsBounds_simple htask) ?_
    rintro _ ⟨⟩
  | tiered options =>
    refine iff_of_true trivial ?_
    rintro _ ⟨⟩
  | noCompaction => cases hnone

end

section

attribute [local instance] shortKeyPlatform

open LeveledCompactionController (afterFlush)

/-- Two tables in L0, of which three are allowed. -/
theorem meetsBounds_afterFlush : MeetsBounds (.leveled ⟨2, 3, 1, 128⟩) afterFlush :=
  (meetsBounds_iff (fun _ _ => rfl) (by decide +kernel)).mpr (by rintro _ ⟨⟩; decide)

/-- Two tables in L0, with the trigger at two: no task, and not within the bounds. -/
theorem not_meetsBounds_afterFlush :
    generateCompactionTask (.leveled ⟨2, 2, 1, 128⟩) afterFlush = .ok none ∧
      ¬ MeetsBounds (.leveled ⟨2, 2, 1, 128⟩) afterFlush := by
  refine ⟨by decide +kernel, ?_⟩
  rintro ⟨hl0, -⟩
  exact absurd hl0 (by decide)

end

end CompactionController

end TinyLsm

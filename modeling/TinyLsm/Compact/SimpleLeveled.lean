import TinyLsm.Compact.Levels

/-!
# Simple leveled compaction (`compact/simple_leveled.rs`)

L0 is merged into L1 when it has enough tables, a level into the next one when the next one has too
few tables in comparison.  A compaction replaces whole levels: `generateCompactionTask_spec` says
which tasks there are, `applyCompactionResult_spec` what applying one does.
-/

namespace TinyLsm

namespace SimpleLeveledCompactionController

variable {M : Type}

/-- `compaction_required`. -/
def compactionRequired (options : SimpleLeveledCompactionOptions)
    (upperNumFiles lowerNumFiles : ℕ) : Bool :=
  if upperNumFiles = 0 then false
  else lowerNumFiles * 100 / upperNumFiles < options.sizeRatioPercent

/-- The loop over the pairs of adjacent levels. -/
def generateLoop (options : SimpleLeveledCompactionOptions) (maxLevel : ℕ) :
    List (ℕ × List ℕ) → Option SimpleLeveledCompactionTask
  | upper :: lower :: rest =>
    if compactionRequired options upper.2.length lower.2.length then
      some
        { upperLevel := some upper.1
          upperLevelSstIds := upper.2
          lowerLevel := lower.1
          lowerLevelSstIds := lower.2
          isLowerLevelBottomLevel := maxLevel == lower.1 }
    else generateLoop options maxLevel (lower :: rest)
  | _ => none

/-- `generate_compaction_task`. -/
def generateCompactionTask (options : SimpleLeveledCompactionOptions) (s : LsmStorageState M) :
    Outcome (Option SimpleLeveledCompactionTask) :=
  if s.l0Sstables.length ≥ options.level0FileNumCompactionTrigger then do
    let level1 ← index s.levels 0
    return some
      { upperLevel := none
        upperLevelSstIds := s.l0Sstables
        lowerLevel := 1
        lowerLevelSstIds := level1.2
        isLowerLevelBottomLevel := s.levels.length == 1 }
  else do
    let _ ← usizeSub s.levels.length 1
    return generateLoop options s.levels.length s.levels

/-- `apply_compaction_result`. -/
def applyCompactionResult (s : LsmStorageState M) (task : SimpleLeveledCompactionTask)
    (output : List ℕ) : Outcome (LsmStorageState M × List ℕ) := do
  let removed := task.upperLevelSstIds ++ task.lowerLevelSstIds
  match task.upperLevel with
  | none =>
    let levels ← setIndex s.levels 0 (1, output)
    return ({ s with
      l0Sstables := s.l0Sstables.filter fun id => id ∉ task.upperLevelSstIds
      levels }, removed)
  | some upperLevel =>
    let levels ← setIndex s.levels (← usizeSub upperLevel 1) (upperLevel, [])
    let levels ← setIndex levels (← usizeSub task.lowerLevel 1) (task.lowerLevel, output)
    return ({ s with levels }, removed)

/-! ## What the tasks are -/

/-- The lower level has enough tables in comparison with the upper one. -/
def InRatio (options : SimpleLeveledCompactionOptions) (upper lower : ℕ × List ℕ) : Prop :=
  compactionRequired options upper.2.length lower.2.length = false

theorem inRatio_iff {options : SimpleLeveledCompactionOptions} {upper lower : ℕ × List ℕ} :
    InRatio options upper lower ↔ upper.2 ≠ [] →
      options.sizeRatioPercent * upper.2.length ≤ lower.2.length * 100 := by
  unfold InRatio compactionRequired
  rw [← List.length_pos_iff]
  split
  · rename_i hempty
    simp [hempty]
  · rename_i hne
    rw [decide_eq_false_iff_not, Nat.not_lt, Nat.le_div_iff_mul_le (by omega)]
    exact (imp_iff_right (by omega)).symm

/-- Nothing is moved out of an empty level. -/
theorem inRatio_of_empty (options : SimpleLeveledCompactionOptions) {upper : ℕ × List ℕ}
    (lower : ℕ × List ℕ) (h : upper.2 = []) : InRatio options upper lower :=
  inRatio_iff.mpr fun hne => absurd h hne

/-- The loop picks two adjacent levels. -/
theorem generateLoop_spec {options : SimpleLeveledCompactionOptions} {maxLevel : ℕ}
    {levels : List (ℕ × List ℕ)} {task : SimpleLeveledCompactionTask}
    (h : generateLoop options maxLevel levels = some task) :
    ∃ pre upper lower post, levels = pre ++ upper :: lower :: post ∧ ¬ InRatio options upper lower ∧
      task = ⟨some upper.1, upper.2, lower.1, lower.2, maxLevel == lower.1⟩ := by
  induction levels with
  | nil => cases h
  | cons upper levels ih =>
    cases levels with
    | nil => cases h
    | cons lower rest =>
      rw [generateLoop] at h
      split at h
      · rename_i hrequired
        refine ⟨[], upper, lower, rest, rfl, ?_, (Option.some.inj h).symm⟩
        simp [InRatio, hrequired]
      · obtain ⟨pre, u, l, post, heq, hratio, htask⟩ := ih h
        exact ⟨upper :: pre, u, l, post, by rw [heq]; rfl, hratio, htask⟩

/-- The loop finds a pair, if there is one. -/
theorem generateLoop_eq_none_iff {options : SimpleLeveledCompactionOptions} {maxLevel : ℕ}
    {levels : List (ℕ × List ℕ)} :
    generateLoop options maxLevel levels = none ↔ levels.IsChain (InRatio options) := by
  induction levels with
  | nil => simp [generateLoop]
  | cons upper levels ih =>
    cases levels with
    | nil => simp [generateLoop]
    | cons lower rest =>
      rw [generateLoop, List.isChain_cons_cons, ← ih, InRatio]
      split
      · rename_i hrequired
        simp [hrequired]
      · rename_i hratio
        simp [hratio]

/-- **When there is no task**: L0 is below the trigger and every level has enough tables. -/
theorem generateCompactionTask_eq_none_iff {options : SimpleLeveledCompactionOptions}
    {s : LsmStorageState M} : generateCompactionTask options s = .ok none ↔
      s.l0Sstables.length < options.level0FileNumCompactionTrigger ∧ s.levels ≠ [] ∧
        s.levels.IsChain (InRatio options) := by
  unfold generateCompactionTask
  split
  · rename_i htrigger
    refine iff_of_false (fun h => ?_) fun h => by omega
    obtain ⟨level, -, h⟩ := Outcome.bind_eq_ok_iff.mp h
    cases h
  · rename_i htrigger
    rw [and_iff_right (by omega), ← List.length_pos_iff]
    by_cases hlevels : 0 < s.levels.length
    · rw [usizeSub_of_le hlevels, and_iff_right hlevels, ← generateLoop_eq_none_iff]
      exact ⟨Except.ok.inj, congrArg Except.ok⟩
    · refine iff_of_false (fun h => ?_) fun h => hlevels h.1
      obtain ⟨i, hi, -⟩ := Outcome.bind_eq_ok_iff.mp h
      cases (if_neg hlevels : usizeSub s.levels.length 1 = _).symm.trans hi

/-- A task of the controller, up to its flag: all of L0 and L1, or two adjacent levels. -/
def Picked (l0Sstables : List ℕ) (levels : List (ℕ × List ℕ)) (task : SimpleLeveledCompactionTask) :
    Prop :=
  PicksFrom Eq levels task.upperLevel task.upperLevelSstIds task.lowerLevel task.lowerLevelSstIds ∧
    (task.upperLevel = none → task.lowerLevel = 1 ∧ task.upperLevelSstIds = l0Sstables)

/-- **What the tasks are.** -/
theorem generateCompactionTask_spec {options : SimpleLeveledCompactionOptions} {s : LsmStorageState M}
    {task : SimpleLeveledCompactionTask} (hlabels : Labelled s.levels)
    (h : generateCompactionTask options s = .ok (some task)) :
    Picked s.l0Sstables s.levels task ∧
      task.isLowerLevelBottomLevel = (s.levels.length == task.lowerLevel) := by
  unfold generateCompactionTask at h
  split at h
  · rw [Outcome.bind_eq_ok_iff] at h
    obtain ⟨level₁, hindex, htask⟩ := h
    cases htask
    obtain ⟨below, hlevels⟩ : ∃ below, s.levels = level₁ :: below := by
      rw [index_eq_ok_iff] at hindex
      cases hl : s.levels with
      | nil => simp [hl] at hindex
      | cons level below =>
        rw [hl] at hindex
        exact ⟨below, by rw [Option.some.inj hindex]⟩
    have hone : level₁.1 = 1 := (show Labelled ([] ++ level₁ :: below) from hlevels ▸ hlabels).eq_length
    refine ⟨⟨⟨[], level₁.2, below, ?_, rfl, by simp⟩, fun _ => ⟨rfl, rfl⟩⟩, rfl⟩
    rw [hlevels, ← hone]
    rfl
  · rw [Outcome.bind_eq_ok_iff] at h
    obtain ⟨_, -, hloop⟩ := h
    obtain ⟨pre, upper, lower, post, hlevels, -, rfl⟩ := generateLoop_spec (Except.ok.inj hloop)
    refine ⟨⟨⟨pre ++ [upper], lower.2, post, ?_, rfl, ?_⟩, fun hu => nomatch hu⟩, rfl⟩
    · rw [hlevels, List.append_assoc]
      rfl
    · rintro u ⟨⟩
      exact ⟨pre, upper.2, rfl, rfl⟩

/-! ## What applying a task changes -/

/-- L0 and the first level. -/
theorem applyCompactionResult_l0 {s : LsmStorageState M} {level : ℕ × List ℕ}
    {below : List (ℕ × List ℕ)} (hlevels : s.levels = level :: below)
    (upperIds lowerIds output : List ℕ) (lowerLevel : ℕ) (flag : Bool) :
    applyCompactionResult s ⟨none, upperIds, lowerLevel, lowerIds, flag⟩ output =
      .ok ({ s with
        l0Sstables := s.l0Sstables.filter fun id => id ∉ upperIds
        levels := (1, output) :: below }, upperIds ++ lowerIds) := by
  simp only [applyCompactionResult, setIndex, hlevels]
  rfl

/-- Two adjacent levels. -/
theorem applyCompactionResult_pair {s : LsmStorageState M} {upper lower : ℕ × List ℕ}
    {above below : List (ℕ × List ℕ)} (hlabels : Labelled s.levels)
    (hlevels : s.levels = above ++ upper :: lower :: below) (upperIds lowerIds output : List ℕ)
    (flag : Bool) :
    applyCompactionResult s ⟨some upper.1, upperIds, lower.1, lowerIds, flag⟩ output =
      .ok ({ s with levels := above ++ (upper.1, []) :: (lower.1, output) :: below },
        upperIds ++ lowerIds) := by
  have hupper : upper.1 = above.length + 1 :=
    (show Labelled (above ++ upper :: lower :: below) from hlevels ▸ hlabels).eq_length
  have hlower : lower.1 = above.length + 2 := by
    have hsplit : s.levels = (above ++ [upper]) ++ lower :: below := by rw [hlevels]; simp
    rw [(show Labelled ((above ++ [upper]) ++ lower :: below) from hsplit ▸ hlabels).eq_length]
    simp
  have hset : setIndex s.levels (upper.1 - 1) (upper.1, []) =
      .ok (above ++ (upper.1, []) :: lower :: below) := by
    rw [setIndex_eq_ok_iff, hlevels, hupper]
    simp
  have hset' : setIndex (above ++ (upper.1, []) :: lower :: below) (lower.1 - 1) (lower.1, output) =
      .ok (above ++ (upper.1, []) :: (lower.1, output) :: below) := by
    rw [setIndex_eq_ok_iff, hlower]
    simp
  simp only [applyCompactionResult, usizeSub_of_le (show 1 ≤ upper.1 by omega),
    usizeSub_of_le (show 1 ≤ lower.1 by omega), bind, Except.bind, hset, hset']
  rfl

/-- **What applying a task does**, on a state with the levels for which it was made. -/
theorem applyCompactionResult_spec {s : LsmStorageState M} {task : SimpleLeveledCompactionTask}
    {l0Sstables : List ℕ} (hlabels : Labelled s.levels) (hnodup : s.listedIds.Nodup)
    (htask : Picked l0Sstables s.levels task) (hl0 : ∀ id ∈ l0Sstables, id ∈ s.l0Sstables)
    (output : List ℕ) :
    ∃ levels', applyCompactionResult s task output =
        .ok ({ s with
          l0Sstables := s.l0Sstables.filter
            (· ∉ task.upperLevelSstIds ++ task.lowerLevelSstIds)
          levels := levels' }, task.upperLevelSstIds ++ task.lowerLevelSstIds) ∧
      Installed (task.upperLevelSstIds ++ task.lowerLevelSstIds) output task.lowerLevel s.levels
        levels' ∧
      Thinned task.lowerLevel s.levels levels' ∧
      ∀ level ∈ levels', level.1 = task.lowerLevel → level.2 = output := by
  obtain ⟨upperLevel, upperIds, lowerLevel, lowerIds, flag⟩ := task
  obtain ⟨⟨above, lower, below, hlevels, rfl, hupper⟩, hnone⟩ := htask
  simp only at hlevels hupper hnone ⊢
  have hlen : lowerLevel = above.length + 1 :=
    (show Labelled (above ++ (lowerLevel, lowerIds) :: below) from hlevels ▸ hlabels).eq_length
  have houtput : output.Perm (lowerIds.filter (· ∉ lowerIds) ++ output) := by
    rw [filter_notMem_self, List.nil_append]
  -- The level with the label of the lower one holds the output.
  have houtput_eq : ∀ above₁ below₁ : List (ℕ × List ℕ),
      Installed (upperIds ++ lowerIds) output lowerLevel s.levels
        (above₁ ++ (lowerLevel, output) :: below₁) →
      ∀ level ∈ above₁ ++ (lowerLevel, output) :: below₁, level.1 = lowerLevel → level.2 = output := by
    intro above₁ below₁ hinstalled level hlevel hlabel
    rw [(hlabels.congr hinstalled.labels).eq_of_label hlevel hlabel]
  cases upperLevel with
  | none =>
    obtain ⟨rfl, rfl⟩ := hnone rfl
    have habove : above = [] := List.length_eq_zero_iff.mp (by omega)
    subst habove
    obtain ⟨hfilter, hinstalled⟩ := installed_l0 hlabels hnodup hlevels hl0 (fun _ => id) houtput
    refine ⟨(1, output) :: below, ?_, hinstalled, ?_, houtput_eq [] below hinstalled⟩
    rotate_left
    · rw [hlevels]
      have hthinned : Thinned 1 ([] ++ (1, lowerIds) :: below) ([] ++ (1, output) :: below) :=
        thinned_l0 lowerIds output
      exact hthinned
    rw [applyCompactionResult_l0 hlevels, hfilter]
  | some u =>
    obtain ⟨above', upper, rfl, rfl⟩ := hupper u rfl
    rw [List.append_assoc, List.singleton_append] at hlevels
    obtain ⟨hfilter, hinstalled⟩ :=
      installed_level hlabels hnodup hlevels (fun _ => id) (fun _ => id) houtput
    rw [filter_notMem_self] at hinstalled
    have heq := houtput_eq (above' ++ [(u, [])]) below
    simp only [List.append_assoc, List.singleton_append] at heq
    refine ⟨_, ?_, hinstalled, ?_, heq hinstalled⟩
    rotate_left
    · rw [hlevels]
      exact thinned_level (List.nil_sublist _) lowerIds output
    rw [hfilter]
    exact applyCompactionResult_pair hlabels hlevels upperIds lowerIds output flag

/-- The controller changes L0 and the levels only. -/
theorem applyCompactionResult_frame {s s' : LsmStorageState M} {task : SimpleLeveledCompactionTask}
    {output removed : List ℕ} (h : applyCompactionResult s task output = .ok (s', removed)) :
    s' = { s with l0Sstables := s'.l0Sstables, levels := s'.levels } := by
  unfold applyCompactionResult at h
  cases hu : task.upperLevel with
  | none =>
    simp only [hu, Outcome.bind_eq_ok_iff] at h
    obtain ⟨levels, -, h⟩ := h
    cases h
    rfl
  | some upperLevel =>
    simp only [hu, Outcome.bind_eq_ok_iff] at h
    obtain ⟨i, -, levels, -, j, -, levels', -, h⟩ := h
    cases h
    rfl

/-- The memtables play no part. -/
theorem applyCompactionResult_congr {s s' t : LsmStorageState M} {task : SimpleLeveledCompactionTask}
    {output removed : List ℕ} (h : applyCompactionResult s task output = .ok (s', removed))
    (hl0 : t.l0Sstables = s.l0Sstables) (hlevels : t.levels = s.levels) :
    applyCompactionResult t task output =
      .ok ({ t with l0Sstables := s'.l0Sstables, levels := s'.levels }, removed) := by
  unfold applyCompactionResult at h ⊢
  rw [hl0, hlevels]
  cases hu : task.upperLevel with
  | none =>
    simp only [hu, Outcome.bind_eq_ok_iff] at h ⊢
    obtain ⟨levels, hset, h⟩ := h
    cases h
    exact ⟨levels, hset, rfl⟩
  | some upperLevel =>
    simp only [hu, Outcome.bind_eq_ok_iff] at h ⊢
    obtain ⟨i, hi, levels, hset, j, hj, levels', hset', h⟩ := h
    cases h
    refine ⟨i, hi, levels, hset, j, hj, levels', hset', ?_⟩
    rw [← hl0]
    rfl

end SimpleLeveledCompactionController

end TinyLsm

import TinyLsm.Compact.LeveledTargets
import TinyLsm.Compact.LeveledSorted
import TinyLsm.Lib.Runs

/-!
# Leveled compaction plans, and comes to an end

On a tree whose tables are all in the map, `generate_compaction_task` does not panic and its task is
`Feasible`: the picked level is not the bottom one and has a table.

A turn takes tables out of one level and changes no level above it.  So the table counts, L0 first,
fall lexicographically, whatever the output is: `not_endless`.
-/

namespace TinyLsm

namespace LeveledCompactionController

variable {M : Type} {options : LeveledCompactionOptions} {s s' : LsmStorageState M}

/-! ## What a tree has to be -/

/-- The levels are there, and so are their tables. -/
structure WellFormed (options : LeveledCompactionOptions) (s : LsmStorageState M) : Prop where
  length : s.levels.length = options.maxLevels
  listed : ∀ id ∈ s.listedIds, ∃ t, s.sstables.lookup id = some t

theorem WellFormed.level (h : WellFormed options s) {level : ℕ × List ℕ} (hlevel : level ∈ s.levels) :
    ∀ id ∈ level.2, ∃ t, s.sstables.lookup id = some t := fun id hid =>
  h.listed id (LsmStorageState.mem_listedIds.mpr (Or.inr ⟨level, hlevel, hid⟩))

theorem WellFormed.l0 (h : WellFormed options s) :
    ∀ id ∈ s.l0Sstables, ∃ t, s.sstables.lookup id = some t := fun id hid =>
  h.listed id (LsmStorageState.mem_listedIds.mpr (Or.inl hid))

/-! ## Tasks -/

/-- What the compactor relies on: the levels of the task exist, and its inputs are all of L0, or
tables of the level above the lower one. -/
structure Feasible (options : LeveledCompactionOptions) (s : LsmStorageState M)
    (task : LeveledCompactionTask) : Prop where
  lower_pos : 1 ≤ task.lowerLevel
  lower_le : task.lowerLevel ≤ options.maxLevels
  upper_ne : task.upperLevelSstIds ≠ []
  upper : (task.upperLevel = none ∧ task.upperLevelSstIds = s.l0Sstables) ∨
    ∃ u level, task.upperLevel = some u ∧ task.lowerLevel = u + 1 ∧ 1 ≤ u ∧
      s.levels[u - 1]? = some level ∧ ∀ id ∈ task.upperLevelSstIds, id ∈ level.2

/-- The sizes can be summed up. -/
theorem exists_realLevelSize (h : WellFormed options s) :
    ∃ real, realLevelSize s = .ok real ∧ real.length = options.maxLevels := by
  obtain ⟨real, hreal⟩ : ∃ real, realLevelSize s = .ok real := by
    refine exists_mapM fun level hlevel => ?_
    obtain ⟨sizes, hsizes⟩ := exists_mapM
      (f := fun id => do return (← s.table id).tableSize) (l := level.2) fun id hid => by
        obtain ⟨t, ht⟩ := h.level hlevel id hid
        rw [LsmStorageState.table_eq ht]
        exact ⟨_, rfl⟩
    exact ⟨sizes.sum, by rw [hsizes]; rfl⟩
  refine ⟨real, hreal, ?_⟩
  rw [← h.length]
  exact (mapM_eq_ok_iff.mp hreal).length_eq.symm

/-- A level without tables has size zero. -/
theorem ne_nil_of_realLevelSize {real : List ℕ} (h : realLevelSize s = .ok real) {i r : ℕ}
    (hr : real[i]? = some r) (hpos : 0 < r) : ∃ level, s.levels[i]? = some level ∧ level.2 ≠ [] := by
  have hforall := mapM_eq_ok_iff.mp h
  obtain ⟨hlt, rfl⟩ := List.getElem?_eq_some_iff.mp hr
  have hlt' : i < s.levels.length := hforall.length_eq ▸ hlt
  refine ⟨s.levels[i], List.getElem?_eq_getElem hlt', fun hempty => ?_⟩
  have hsum := (List.forall₂_iff_get.mp hforall).2 i hlt' hlt
  simp only [List.get_eq_getElem, hempty, List.mapM_nil] at hsum
  have hzero : 0 = real[i] := Except.ok.inj hsum
  omega

/-- Tables that overlap some tables of the map can be found. -/
theorem exists_findOverlappingSsts (h : WellFormed options s) {sstIds : List ℕ} (hne : sstIds ≠ [])
    (hids : ∀ id ∈ sstIds, ∃ t, s.sstables.lookup id = some t) {inLevel : ℕ} (hpos : 1 ≤ inLevel)
    (hle : inLevel ≤ options.maxLevels) :
    ∃ overlapSsts, findOverlappingSsts s sstIds inLevel = .ok overlapSsts := by
  obtain ⟨tables, htables⟩ := LsmStorageState.exists_mapM_table hids
  have htables_ne : tables ≠ [] := by
    rw [← List.length_pos_iff, ← (mapM_eq_ok_iff.mp htables).length_eq]
    exact List.length_pos_iff.mpr hne
  obtain ⟨beginKey, hbegin⟩ : ∃ k, (tables.map SsTable.firstKey).min? = some k := by
    rw [← Option.isSome_iff_exists, List.isSome_min?_iff]
    simpa using htables_ne
  obtain ⟨endKey, hend⟩ : ∃ k, (tables.map SsTable.lastKey).max? = some k := by
    rw [← Option.isSome_iff_exists, List.isSome_max?_iff]
    simpa using htables_ne
  have hlt : inLevel - 1 < s.levels.length := by
    rw [h.length]
    omega
  have hlevel : s.levels[inLevel - 1]? = some s.levels[inLevel - 1] := List.getElem?_eq_getElem hlt
  have hfilter : ∃ overlapSsts, (s.levels[inLevel - 1].2.filterM fun id => do
      let sst ← s.table id
      return !(decide (sst.lastKey < beginKey) || decide (sst.firstKey > endKey))) =
        .ok overlapSsts := by
    refine exists_filterM fun id hid => ?_
    obtain ⟨t, ht⟩ := h.level (List.getElem_mem hlt) id hid
    rw [LsmStorageState.table_eq ht]
    exact ⟨_, rfl⟩
  obtain ⟨overlapSsts, hoverlap⟩ := hfilter
  refine ⟨overlapSsts, ?_⟩
  simp only [findOverlappingSsts, Outcome.bind_eq_ok_iff, Outcome.ofOption_eq_ok_iff, index_eq_ok_iff]
  exact ⟨tables, htables, beginKey, hbegin, endKey, hend, _, usizeSub_of_le hpos, _, hlevel, hoverlap⟩

/-- **What the plan is**: there is no panic, and a task has inputs and levels of the tree. -/
theorem generateCompactionTask_planned [Platform] (hexact : ExactPriority) (hmax : 1 ≤ options.maxLevels)
    (hmultiplier : 1 ≤ options.levelSizeMultiplier) (h : WellFormed options s) :
    ∃ r, generateCompactionTask options s = .ok r ∧ ∀ task ∈ r, Feasible options s task := by
  obtain ⟨real, hreal, hlength⟩ := exists_realLevelSize h
  obtain ⟨targets, baseLevel, htargets⟩ :=
    exists_targetLevelSize hmax hmultiplier hlength.ge
  obtain ⟨-, htlength, -, hbase, hbase', bottom, bottomTarget, hbottom, hbottomTarget, hbottom_le⟩ :=
    targetLevelSize_spec htargets
  rw [generateCompactionTask, hreal]
  simp only [bind, Except.bind, htargets]
  split
  · -- L0 goes into the base level.
    rename_i hl0
    have hne : s.l0Sstables ≠ [] := by
      rw [← List.length_pos_iff]
      omega
    obtain ⟨lowerIds, hoverlap⟩ := exists_findOverlappingSsts h hne h.l0 hbase hbase'
    rw [hoverlap]
    refine ⟨_, rfl, ?_⟩
    rintro task ⟨⟩
    exact ⟨hbase, hbase', hne, Or.inl ⟨rfl, rfl⟩⟩
  · split
    · exact ⟨none, rfl, by simp⟩
    · rename_i priority u rest hpriorities
      have hmem : (priority, u) ∈ priorities real targets := by
        rw [hpriorities]
        exact List.mem_cons_self
      obtain ⟨i, r, t, hr, ht, hne, hlt, heq⟩ := (mem_priorities_iff hexact).mp hmem
      obtain ⟨-, rfl⟩ := Prod.mk.inj heq
      -- The level has a table, and is not the bottom one.
      obtain ⟨level, hlevel, hlevel_ne⟩ := ne_nil_of_realLevelSize hreal hr (by omega)
      have hi : i + 1 < options.maxLevels := by
        have hi := (List.getElem?_eq_some_iff.mp hr).1
        by_contra hnot
        obtain rfl : i = options.maxLevels - 1 := by omega
        rw [hr] at hbottom
        rw [ht] at hbottomTarget
        obtain rfl := Option.some.inj hbottom
        obtain rfl := Option.some.inj hbottomTarget
        omega
      obtain ⟨selectedSst, hmin⟩ : ∃ id, level.2.min? = some id := by
        rw [← Option.isSome_iff_exists, List.isSome_min?_iff]
        exact hlevel_ne
      have hselected : selectedSst ∈ level.2 := List.min?_mem hmin
      have hids : ∀ id ∈ [selectedSst], ∃ t, s.sstables.lookup id = some t := by
        intro id hid
        rw [List.mem_singleton.mp hid]
        exact h.level (List.mem_of_getElem? hlevel) selectedSst hselected
      obtain ⟨lowerIds, hoverlap⟩ :=
        exists_findOverlappingSsts h (List.cons_ne_nil _ _) hids (Nat.le_add_left 1 (i + 1)) hi
      simp only [Nat.add_sub_cancel, index_eq_ok_iff.mpr hlevel, hmin, Outcome.ofOption_some, hoverlap]
      refine ⟨_, rfl, ?_⟩
      rintro task ⟨⟩
      refine ⟨Nat.le_add_left 1 (i + 1), hi, List.cons_ne_nil _ _, Or.inr ⟨i + 1, level, rfl, rfl,
        Nat.le_add_left 1 i, hlevel, ?_⟩⟩
      intro id hid
      rw [List.mem_singleton.mp hid]
      exact hselected

/-! ## Applying a task -/

/-- Taking the upper tables out leaves tables of the tree, and the other levels as they are. -/
theorem exists_takeUpper {task : LeveledCompactionTask} (m : SstMap) (h : Feasible options s task) :
    ∃ s₁, takeUpper { s with sstables := m } task = .ok s₁ ∧ s₁.sstables = m ∧
      s₁.levels.length = s.levels.length ∧ (∀ id ∈ s₁.listedIds, id ∈ s.listedIds) ∧
      s₁.levels[task.lowerLevel - 1]? = s.levels[task.lowerLevel - 1]? := by
  rcases h.upper with ⟨hnone, hall⟩ | ⟨u, level, hsome, hlower, hu, hget, hids⟩
  · have hsub : ∀ id ∈ task.upperLevelSstIds, id ∈ s.l0Sstables := by
      rw [hall]
      exact fun _ => id
    have hout := takeOutAll_of_mem hsub
    have htake : takeUpper { s with sstables := m } task = .ok { s with
        sstables := m
        l0Sstables := (takeOut s.l0Sstables task.upperLevelSstIds.toFinset).1 } := by
      simp only [takeUpper, hnone, hout]
      rfl
    refine ⟨_, htake, rfl, rfl, fun id hid => ?_, rfl⟩
    rw [LsmStorageState.mem_listedIds] at hid ⊢
    exact hid.imp_left fun hl0 => (takeOut_sublist _ _).subset hl0
  · have hout := takeOutAll_of_mem hids
    have htake : takeUpper { s with sstables := m } task = .ok { s with
        sstables := m
        levels := s.levels.set (u - 1)
          (level.1, (takeOut level.2 task.upperLevelSstIds.toFinset).1) } := by
      simp only [takeUpper, hsome, usizeSub_of_le hu, index_eq_ok_iff.mpr hget, hout, bind, Except.bind]
      rfl
    refine ⟨_, htake, rfl, List.length_set, fun id hid => ?_, ?_⟩
    · rw [LsmStorageState.mem_listedIds] at hid ⊢
      refine hid.imp_right ?_
      rintro ⟨level', hlevel', hid'⟩
      rcases List.mem_or_eq_of_mem_set hlevel' with hold | rfl
      · exact ⟨level', hold, hid'⟩
      · exact ⟨level, List.mem_of_getElem? hget, (takeOut_sublist _ _).subset hid'⟩
    · exact List.getElem?_set_ne (by omega)

/-- **A plan can be applied**, when the map has the tables of the tree and of the output. -/
theorem applyCompactionResult_planned {task : LeveledCompactionTask} {output : List ℕ} {m : SstMap}
    (h : WellFormed options s) (hplanned : Feasible options s task)
    (hoverlap : findOverlappingSsts s task.upperLevelSstIds task.lowerLevel = .ok task.lowerLevelSstIds)
    (hlisted : ∀ id ∈ s.listedIds, ∃ t, m.lookup id = some t)
    (houtput : ∀ id ∈ output, ∃ t, m.lookup id = some t) :
    ∃ s' removed, applyCompactionResult { s with sstables := m } task output false =
      .ok (s', removed) ∧ WellFormed options s' := by
  obtain ⟨s₁, htake, htables, hlength, hlisted₁, hlower⟩ := exists_takeUpper m hplanned
  obtain ⟨-, -, level, -, hlevel, -, hsub, -⟩ := findOverlappingSsts_spec hoverlap
  have hkept : takeOutAll level.2 task.lowerLevelSstIds =
      .ok (takeOut level.2 task.lowerLevelSstIds.toFinset).1 := takeOutAll_of_mem hsub.subset
  have hlevel_listed : ∀ id ∈ level.2, id ∈ s.listedIds := fun id hid =>
    LsmStorageState.mem_listedIds.mpr (Or.inr ⟨level, List.mem_of_getElem? hlevel, hid⟩)
  have hnew : ∀ id ∈ (takeOut level.2 task.lowerLevelSstIds.toFinset).1 ++ output,
      ∃ t, m.lookup id = some t := fun id hid =>
    (List.mem_append.mp hid).elim
      (fun hold => hlisted id (hlevel_listed id ((takeOut_sublist _ _).subset hold))) (houtput id)
  obtain ⟨ids, hids, hperm, -⟩ := arrange_spec s₁ _ false fun _ id hid => htables ▸ hnew id hid
  have happly : applyCompactionResult { s with sstables := m } task output false =
      .ok ({ s₁ with levels := s₁.levels.set (task.lowerLevel - 1) (level.1, ids) },
        task.upperLevelSstIds ++ task.lowerLevelSstIds) := by
    simp only [applyCompactionResult, htake, usizeSub_of_le hplanned.lower_pos, bind, Except.bind,
      index_eq_ok_iff.mpr (hlower.trans hlevel), hkept, hids]
    rfl
  refine ⟨_, _, happly, ?_, ?_⟩
  · rw [List.length_set, hlength]
    exact h.length
  · intro id hid
    show ∃ t, s₁.sstables.lookup id = some t
    rw [htables]
    rcases LsmStorageState.mem_listedIds.mp hid with hl0 | ⟨level', hlevel', hid'⟩
    · exact hlisted id (hlisted₁ id (LsmStorageState.mem_listedIds.mpr (Or.inl hl0)))
    · rcases List.mem_or_eq_of_mem_set hlevel' with hold | rfl
      · exact hlisted id (hlisted₁ id (LsmStorageState.mem_listedIds.mpr (Or.inr ⟨level', hold, hid'⟩)))
      · exact hnew id (hperm.subset hid')

/-! ## Runs of the loop -/

/-- The numbers of tables, L0 first. -/
def counts (s : LsmStorageState M) : List ℕ :=
  s.l0Sstables.length :: s.levels.map fun level => level.2.length

/-- One turn of the loop of `generate_compaction_task` and `apply_compaction_result`, with any output.
The map of tables changes meanwhile: the new tables come in before the task is applied and the inputs
leave afterwards. -/
def Compacts [Platform] (options : LeveledCompactionOptions) (s s' : LsmStorageState M) : Prop :=
  ∃ task m output applied, generateCompactionTask options s = .ok (some task) ∧
    applyCompactionResult { s with sstables := m } task output false = .ok applied ∧
    s'.l0Sstables = applied.1.l0Sstables ∧ s'.levels = applied.1.levels

/-- Only tables overlap tables. -/
theorem ne_nil_of_findOverlappingSsts {sstIds overlapSsts : List ℕ} {inLevel : ℕ}
    (h : findOverlappingSsts s sstIds inLevel = .ok overlapSsts) : sstIds ≠ [] := by
  rintro rfl
  simp only [findOverlappingSsts, Outcome.bind_eq_ok_iff, Outcome.ofOption_eq_ok_iff, mapM_eq_ok_iff]
    at h
  obtain ⟨tables, htables, beginKey, hbegin, -⟩ := h
  cases htables
  cases hbegin

theorem getElem?_counts (s : LsmStorageState M) (i : ℕ) :
    (counts s)[i + 1]? = s.levels[i]?.map fun level => level.2.length := by
  rw [counts, List.getElem?_cons_succ, List.getElem?_map]

/-- **What a turn does to the counts.** -/
theorem Compacts.lexFall [Platform] (h : Compacts options s s') : LexFall (counts s) (counts s') := by
  obtain ⟨task, m, output, ⟨applied, removed⟩, htask, happly, hl0, hlevels⟩ := h
  obtain ⟨-, hoverlap, hinputs⟩ := generateCompactionTask_cases htask
  have hne := ne_nil_of_findOverlappingSsts hoverlap
  simp only [applyCompactionResult, Outcome.bind_eq_ok_iff, index_eq_ok_iff] at happly
  obtain ⟨s₁, hupper, i, hi, level, hlevel, kept, hkept, ids, hids, happly⟩ := happly
  cases happly
  simp only at hl0 hlevels
  rcases hinputs with ⟨hnone, hall⟩ | ⟨u, upper, id, hu, hget, -, hsome, hall, hlower⟩
  · -- L0 loses tables.
    simp only [takeUpper, hnone, Outcome.bind_eq_ok_iff] at hupper
    obtain ⟨rest, hrest, hupper⟩ := hupper
    cases hupper
    refine ⟨?_, 0, by simp, s.l0Sstables.length, rest.length, rfl, ?_, length_takeOutAll_lt hne hrest⟩
    · simp [counts, hlevels]
    · rw [counts, hl0]
      rfl
  · -- The level `u` loses its oldest table.
    simp only [takeUpper, hsome, Outcome.bind_eq_ok_iff, index_eq_ok_iff, usizeSub_of_le hu] at hupper
    obtain ⟨_, ⟨⟩, level', hlevel', rest, hrest, hupper⟩ := hupper
    cases hupper
    obtain ⟨rfl⟩ : i = u := by
      rw [hlower, usizeSub_of_le (Nat.le_add_left 1 u)] at hi
      exact (Except.ok.inj hi).symm
    obtain rfl := Option.some.inj (hget.symm.trans hlevel')
    refine ⟨by simp [counts, hlevels], i, fun j hj => ?_, upper.2.length, rest.length, ?_, ?_,
      length_takeOutAll_lt hne hrest⟩
    · cases j with
      | zero =>
        rw [counts, counts, hl0]
        rfl
      | succ j =>
        rw [getElem?_counts, getElem?_counts, hlevels, List.getElem?_set_ne (by omega),
          List.getElem?_set_ne (by omega)]
    · rw [← Nat.sub_add_cancel hu, getElem?_counts, hget]
      rfl
    · have hlt : i - 1 < s.levels.length := (List.getElem?_eq_some_iff.mp hget).1
      rw [← Nat.sub_add_cancel hu, getElem?_counts, hlevels, List.getElem?_set_ne (by omega),
        List.getElem?_set_self hlt]
      rfl

/-- **There is no endless run.** -/
theorem not_endless [Platform] (run : ℕ → LsmStorageState M) :
    ¬ ∀ i, Compacts options (run i) (run (i + 1)) := fun h =>
  not_forall_lexFall (fun i => counts (run i)) fun i => (h i).lexFall

/-- **Leveled compaction plans are well-formed and converge.**  On a tree whose tables are in the map
there is no panic, the task is as the compactor expects it, and with the output in the map it can be
applied; and no run of the loop is endless, whatever the outputs are. -/
theorem plans_converge [Platform] (hexact : ExactPriority) (hmax : 1 ≤ options.maxLevels)
    (hmultiplier : 1 ≤ options.levelSizeMultiplier) :
    (∀ s : LsmStorageState M, WellFormed options s →
      ∃ r, generateCompactionTask options s = .ok r ∧ ∀ task ∈ r, Feasible options s task ∧
        ∀ (m : SstMap) (output : List ℕ),
          (∀ id ∈ s.listedIds ++ output, ∃ t, m.lookup id = some t) →
            ∃ s' removed, applyCompactionResult { s with sstables := m } task output false =
              .ok (s', removed) ∧ WellFormed options s') ∧
    ∀ run : ℕ → LsmStorageState M, ¬ ∀ i, Compacts options (run i) (run (i + 1)) := by
  refine ⟨fun s h => ?_, not_endless⟩
  obtain ⟨r, hr, hplanned⟩ := generateCompactionTask_planned hexact hmax hmultiplier h
  refine ⟨r, hr, fun task htask => ⟨hplanned task htask, fun m output hlisted => ?_⟩⟩
  rw [Option.mem_def] at htask
  subst htask
  obtain ⟨-, hoverlap, -⟩ := generateCompactionTask_cases hr
  exact applyCompactionResult_planned h (hplanned task rfl) hoverlap
    (fun id hid => hlisted id (List.mem_append_left _ hid))
    fun id hid => hlisted id (List.mem_append_right _ hid)

end LeveledCompactionController

section

attribute [local instance] shortKeyPlatform

namespace LeveledCompactionController

/-- The tree of `beforeFlush`, with one table in L0 and none allowed. -/
theorem plans_converge_beforeFlush :
    (∃ r, generateCompactionTask ⟨2, 0, 1, 128⟩ beforeFlush = .ok r ∧
      ∀ task ∈ r, Feasible ⟨2, 0, 1, 128⟩ beforeFlush task) ∧
    ¬ ∀ _ : ℕ, Compacts ⟨2, 0, 1, 128⟩ beforeFlush beforeFlush := by
  obtain ⟨hplans, hends⟩ := plans_converge (M := ℕ) (show ExactPriority from fun _ _ => rfl)
    (show 1 ≤ (⟨2, 0, 1, 128⟩ : LeveledCompactionOptions).maxLevels by decide) (by decide)
  have hwellFormed : WellFormed ⟨2, 0, 1, 128⟩ beforeFlush := by
    refine ⟨rfl, fun id hid => ?_⟩
    have hids : id = 3 ∨ id = 1 ∨ id = 2 := by
      simpa [LsmStorageState.listedIds, beforeFlush] using hid
    rcases hids with rfl | rfl | rfl
    · exact ⟨spanTable 3 [20] [30], rfl⟩
    · exact ⟨spanTable 1 [10] [20], rfl⟩
    · exact ⟨spanTable 2 [50] [60], rfl⟩
  refine ⟨?_, hends fun _ => beforeFlush⟩
  obtain ⟨r, hr, hplanned⟩ := hplans beforeFlush hwellFormed
  exact ⟨r, hr, fun task htask => (hplanned task htask).1⟩

end LeveledCompactionController

end

end TinyLsm

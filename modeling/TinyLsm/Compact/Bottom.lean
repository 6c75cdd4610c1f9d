import TinyLsm.LsmStorage.Layout

/-!
# When tombstones may be dropped

A compaction that leaves tombstones out is right only when nothing older than its inputs is left
behind, since an older version of a deleted key would come back.  `NothingOlder` says so, and
`nothingOlder_iff` which of the tasks meet it:

* the flags of both leveled planners are true for the last level only;
* the tiered planner is right when space amplification or the size ratio asks for the compaction;
  when it merely reduces the number of tiers it always sets the flag, also when `max_merge_width`
  leaves the oldest tiers out;
* a full compaction merges L0 and the first level, whatever lies below.
-/

namespace TinyLsm

variable {M : Type} {s : LsmStorageState M} {task : CompactionTask}

namespace CompactionTask

/-- How deep the inputs of a task reach: the deepest input level, or the number of tiers. -/
def depth : CompactionTask → ℕ
  | .forceFullCompaction _ _ => 1
  | .simple t => t.lowerLevel
  | .leveled t => t.lowerLevel
  | .tiered t => t.tiers.length

/-- If the task drops tombstones, all tables in deeper levels or in older tiers are among its
inputs. -/
def NothingOlder (s : LsmStorageState M) (task : CompactionTask) : Prop :=
  task.compactToBottomLevel = true → ∀ level ∈ s.levels.drop task.depth, ∀ id ∈ level.2,
    id ∈ task.inputIds

variable [Platform]

/-- What has to hold of the state for the flag to be right. -/
def ReachesBottom (controller : CompactionController) (s : LsmStorageState M) : CompactionTask → Prop
  | .forceFullCompaction _ _ => ∀ level ∈ s.levels.drop 1, level.2 = []
  | .tiered _ => ∀ options, controller = .tiered options →
      TieredCompactionController.ReducesRuns options s.levels →
      ∀ width, options.maxMergeWidth = some width → ∀ tier ∈ s.levels.drop width, tier.2 = []
  | .simple _ => True
  | .leveled _ => True

end CompactionTask

/-- Deeper levels hold no input, so none of them may hold a table. -/
theorem deeper_inputs_iff (hids : s.listedIds.Nodup) {n : ℕ} {inputs : List ℕ}
    (hinputs : inputs.Sublist (s.l0Sstables ++ ((s.levels.take n).map Prod.snd).flatten)) :
    (∀ level ∈ s.levels.drop n, ∀ id ∈ level.2, id ∈ inputs) ↔
      ∀ level ∈ s.levels.drop n, level.2 = [] := by
  have hsplit : s.listedIds = s.l0Sstables ++ ((s.levels.take n).map Prod.snd).flatten ++
      ((s.levels.drop n).map Prod.snd).flatten := by
    unfold LsmStorageState.listedIds
    conv_lhs => rw [← List.take_append_drop n s.levels]
    rw [List.map_append, List.flatten_append, List.append_assoc]
  rw [hsplit, List.nodup_append] at hids
  refine forall₂_congr fun level hlevel => ⟨fun h => ?_, fun h => by simp [h]⟩
  rw [List.eq_nil_iff_forall_not_mem]
  intro id hid
  refine hids.2.2 id (hinputs.subset (h id hid)) id ?_ rfl
  exact List.mem_flatten.mpr ⟨level.2, List.mem_map_of_mem hlevel, hid⟩

namespace LsmStorageInner

open LsmStorageState CompactionTask

variable [Platform] {options : LsmStorageOptions} {e : LsmStorageInner}

/-- The tasks that are made in a state: the one of the controller and the one of a full
compaction. -/
def TaskOf (e : LsmStorageInner) (task : CompactionTask) : Prop :=
  e.compactionController.generateCompactionTask e.state = .ok (some task) ∨
    ∃ level₁, e.state.levels[0]? = some level₁ ∧
      task = .forceFullCompaction e.state.l0Sstables level₁.2

omit [Platform] in
/-- The levels of a leveled strategy stay as many as there were at first. -/
theorem Laid.length_levels (h : e.Laid options)
    (hflush : CompactionController.flushToL0 options.compactionOptions = true) :
    e.state.levels.length = (initialLevels options.compactionOptions).length := by
  simpa using congrArg List.length (h.labels hflush)

omit [Platform] in
theorem nothingOlder_simple {o : SimpleLeveledCompactionOptions} {t : SimpleLeveledCompactionTask}
    (hlabels : Labelled s.levels)
    (h : SimpleLeveledCompactionController.generateCompactionTask o s = .ok (some t)) :
    NothingOlder s (.simple t) := by
  intro hbottom level hlevel
  have hflag := (SimpleLeveledCompactionController.generateCompactionTask_spec hlabels h).2
  rw [show t.isLowerLevelBottomLevel = true from hbottom, eq_comm, beq_iff_eq] at hflag
  rw [show (CompactionTask.simple t).depth = t.lowerLevel from rfl, ← hflag, List.drop_length] at hlevel
  cases hlevel

theorem nothingOlder_leveled {o : LeveledCompactionOptions} {t : LeveledCompactionTask}
    (hlabels : Labelled s.levels) (hlength : s.levels.length = o.maxLevels)
    (h : LeveledCompactionController.generateCompactionTask o s = .ok (some t)) :
    NothingOlder s (.leveled t) := by
  intro hbottom level hlevel
  have hflag := (LeveledCompactionController.generateCompactionTask_spec hlabels h).2.1
  rw [show t.isLowerLevelBottomLevel = true from hbottom, eq_comm, beq_iff_eq] at hflag
  rw [show (CompactionTask.leveled t).depth = t.lowerLevel from rfl, hflag, ← hlength,
    List.drop_length] at hlevel
  cases hlevel

theorem nothingOlder_tiered {o : TieredCompactionOptions} {t : TieredCompactionTask}
    (hids : s.listedIds.Nodup)
    (h : TieredCompactionController.generateCompactionTask o s = .ok (some t)) :
    NothingOlder s (.tiered t) ↔ ReachesBottom (.tiered o) s (.tiered t) := by
  obtain ⟨hl0, -, older, holder, hcase⟩ := TieredCompactionController.generateCompactionTask_spec h
  have hdrop : s.levels.drop t.tiers.length = older := by
    rw [holder, List.drop_left]
  rcases hcase with ⟨hreduces, -, rfl⟩ | ⟨hreduces, hflag, -⟩ | ⟨hreduces, hflag, hlength⟩
  · refine iff_of_true (fun _ level hlevel => ?_) ?_
    · rw [show (CompactionTask.tiered t).depth = t.tiers.length from rfl, hdrop] at hlevel
      cases hlevel
    · rintro _ ⟨⟩ h
      exact absurd h hreduces
  · refine iff_of_true (fun hbottom => ?_) ?_
    · rw [show t.bottomTierIncluded = true from hbottom] at hflag
      cases hflag
    · rintro _ ⟨⟩ h
      exact absurd h hreduces
  · have htake : t.tiers = s.levels.take t.tiers.length := by
      rw [holder, List.take_left]
    have hinputs : (CompactionTask.tiered t).inputIds.Sublist
        (s.l0Sstables ++ ((s.levels.take t.tiers.length).map Prod.snd).flatten) := by
      rw [← htake]
      exact List.sublist_append_right _ _
    have hiff := deeper_inputs_iff hids hinputs
    have hdeeper : NothingOlder s (.tiered t) ↔
        ∀ level ∈ s.levels.drop t.tiers.length, level.2 = [] :=
      ⟨fun h => hiff.mp (h hflag), fun h _ => hiff.mpr h⟩
    rw [hdeeper]
    cases hwidth : o.maxMergeWidth with
    | none =>
      rw [hwidth, Option.getD_none, Nat.min_self] at hlength
      refine iff_of_true ?_ ?_
      · rw [hlength, List.drop_length]
        simp
      · rintro _ ⟨⟩ - width hw
        rw [hwidth] at hw
        cases hw
    | some width =>
      rw [hwidth, Option.getD_some] at hlength
      have hsame : s.levels.drop t.tiers.length = s.levels.drop width := by
        rcases le_total s.levels.length width with hle | hle
        · rw [List.drop_eq_nil_of_le (by omega), List.drop_eq_nil_of_le hle]
        · rw [hlength, Nat.min_eq_right hle]
      rw [hsame]
      constructor
      · rintro h _ ⟨⟩ - width' hw
        rw [hwidth] at hw
        cases hw
        exact h
      · intro h
        exact h o rfl hreduces width hwidth

/-- **The tombstones of a task may be dropped** exactly when the task reaches the bottom, in every
state of every run. -/
theorem nothingOlder_iff {e₀ : LsmStorageInner} {ops : List Op} (hfresh : Fresh options e₀)
    (hrun : RunOf (fun _ _ => True) e₀ ops e) (htask : TaskOf e task) :
    NothingOlder e.state task ↔ ReachesBottom options.compactionOptions e.state task := by
  have hlaid := RunOf.laid hrun hfresh.laid
  rcases htask with hgenerated | ⟨level₁, hlevel, rfl⟩
  · rw [hlaid.controller] at hgenerated
    have hlayout := hlaid.layout
    have hlength := hlaid.length_levels
    revert hgenerated hlayout hlength
    cases options.compactionOptions with
    | noCompaction => rintro ⟨⟩
    | simple o =>
      intro hgenerated hlayout _
      obtain ⟨t, ht, htask⟩ := Outcome.bind_eq_ok_iff.mp hgenerated
      obtain ⟨t, rfl, rfl⟩ := Option.map_eq_some_iff.mp (Except.ok.inj htask)
      exact iff_of_true (nothingOlder_simple ((hlayout rfl).labelled rfl) ht) trivial
    | leveled o =>
      intro hgenerated hlayout hlength
      obtain ⟨t, ht, htask⟩ := Outcome.bind_eq_ok_iff.mp hgenerated
      obtain ⟨t, rfl, rfl⟩ := Option.map_eq_some_iff.mp (Except.ok.inj htask)
      have hmax : e.state.levels.length = o.maxLevels := by
        rw [hlength rfl]
        simp [initialLevels]
      exact iff_of_true (nothingOlder_leveled ((hlayout rfl).labelled rfl) hmax ht) trivial
    | tiered o =>
      intro hgenerated _ _
      obtain ⟨t, ht, htask⟩ := Outcome.bind_eq_ok_iff.mp hgenerated
      obtain ⟨t, rfl, rfl⟩ := Option.map_eq_some_iff.mp (Except.ok.inj htask)
      exact nothingOlder_tiered hlaid.listed_nodup ht
  · -- A full compaction always drops tombstones and reaches down to the first level.
    have hinputs : (CompactionTask.forceFullCompaction e.state.l0Sstables level₁.2).inputIds.Sublist
        (e.state.l0Sstables ++ ((e.state.levels.take 1).map Prod.snd).flatten) := by
      obtain ⟨above, below, heq, habove⟩ := split_of_getElem? hlevel
      obtain rfl := List.length_eq_zero_iff.mp habove
      rw [heq]
      simp [inputIds]
    have hiff := deeper_inputs_iff hlaid.listed_nodup hinputs
    exact ⟨fun h => hiff.mp (h rfl), fun h _ => hiff.mpr h⟩

end LsmStorageInner

section

attribute [local instance] shortKeyPlatform

namespace LsmStorageInner

open CompactionTask

/-- Three flushes, the last one of a deletion. -/
def threeTiers : List Op :=
  [.writeBatch [.put [1] [7]], .freeze, .flush, .writeBatch [.put [2] [7]], .freeze, .flush,
    .writeBatch [.del [1]], .freeze, .flush]

/-- Three tiers and a merge width of three: the planner takes all of them, and a full compaction leaves two
behind. -/
theorem nothingOlder_small : ∃ e task full, TaskOf e task ∧ TaskOf e full ∧
    e.state.levels = [(2, [2]), (1, [1]), (0, [0])] ∧ task.compactToBottomLevel = true ∧
    full.compactToBottomLevel = true ∧ NothingOlder e.state task ∧ ¬NothingOlder e.state full := by
  have hfinal : (afterCalls threeTiers
      (newStore ⟨4096, 2 ^ 20, 50, .tiered ⟨3, 300, 200, 10, some 3⟩, false⟩)).map (fun e =>
        (e.state.levels, e.compactionController.generateCompactionTask e.state)) =
      some ([(2, [2]), (1, [1]), (0, [0])],
        .ok (some (.tiered ⟨[(2, [2]), (1, [1]), (0, [0])], true⟩))) := by
    decide +kernel
  obtain ⟨e, he, hsummary⟩ := Option.map_eq_some_iff.mp hfinal
  obtain ⟨hlevels, hgenerated⟩ := Prod.mk.inj hsummary
  have htask : TaskOf e (.tiered ⟨[(2, [2]), (1, [1]), (0, [0])], true⟩) := Or.inl hgenerated
  have hfull : TaskOf e (.forceFullCompaction e.state.l0Sstables [2]) :=
    Or.inr ⟨(2, [2]), by rw [hlevels]; rfl, rfl⟩
  have hfresh := fresh_newStore ⟨4096, 2 ^ 20, 50, .tiered ⟨3, 300, 200, 10, some 3⟩, false⟩
  have hrun := (run_of_afterCalls he).mono fun _ _ _ h => (⟨trivial, h.2⟩ : True ∧ _)
  refine ⟨e, _, _, htask, hfull, hlevels, rfl, rfl, (nothingOlder_iff hfresh hrun htask).mpr ?_,
    fun hnothing => ?_⟩
  · rintro _ ⟨⟩ - width ⟨⟩
    rw [hlevels]
    exact List.forall_mem_nil _
  · have hempty : ([1] : List ℕ) = [] := (nothingOlder_iff hfresh hrun hfull).mp hnothing (1, [1]) (by
      rw [hlevels]
      exact List.mem_cons_self)
    cases hempty

/-- With three tiers and a merge width of two the oldest tier is left out, and the task says that it
is included. -/
theorem tiered_drops_above_bottom : ∃ e task, RunOf (fun e op => op.Proper e)
      (newStore ⟨4096, 2 ^ 20, 50, .tiered ⟨3, 300, 200, 10, some 2⟩, false⟩)
      [.writeBatch [.put [1] [7]], .freeze, .flush, .writeBatch [.put [2] [7]], .freeze, .flush,
        .writeBatch [.del [1]], .freeze, .flush] e ∧
    TaskOf e task ∧ task.inputIds = [2, 1] ∧ e.state.levels = [(2, [2]), (1, [1]), (0, [0])] ∧
    ¬NothingOlder e.state task := by
  have hfinal : (afterCalls [.writeBatch [.put [1] [7]], .freeze, .flush, .writeBatch [.put [2] [7]],
      .freeze, .flush, .writeBatch [.del [1]], .freeze, .flush]
      (newStore ⟨4096, 2 ^ 20, 50, .tiered ⟨3, 300, 200, 10, some 2⟩, false⟩)).map (fun e =>
        (e.state.levels, e.compactionController.generateCompactionTask e.state)) =
      some ([(2, [2]), (1, [1]), (0, [0])], .ok (some (.tiered ⟨[(2, [2]), (1, [1])], true⟩))) := by
    decide +kernel
  obtain ⟨e, he, hsummary⟩ := Option.map_eq_some_iff.mp hfinal
  obtain ⟨hlevels, htask⟩ := Prod.mk.inj hsummary
  refine ⟨e, _, run_of_afterCalls he, Or.inl htask, rfl, hlevels, fun hnothing => ?_⟩
  have hmem := hnothing rfl (0, [0]) (by rw [hlevels]; decide) 0 (List.mem_singleton.mpr rfl)
  revert hmem
  decide

end LsmStorageInner

end

end TinyLsm

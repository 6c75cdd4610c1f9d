import TinyLsm.LsmStorage.Engine

/-!
# Installing a compaction result

While a compaction runs, memtables may be flushed: the state on which the result is installed is not
the one for which the task was made.  `Meanwhile` says what may have happened, and
`applyCompactionResult_placed` where each id is afterwards: the inputs are gone, the output is at its
place and every other id is where it was.
-/

namespace TinyLsm

variable {M : Type} {s s' : LsmStorageState M} {task : CompactionTask}
  {controller : CompactionController} {idOf : M → ℕ}

/-! ## Layout -/

namespace CompactionController

/-- The levels have the labels they are created with; a tier is labelled with its first table. -/
def HasLayout (controller : CompactionController) (levels : List (ℕ × List ℕ)) : Prop :=
  match controller with
  | .tiered _ => ∀ tier ∈ levels, tier.2.head? = some tier.1
  | _ => levels.map Prod.fst = (LsmStorageState.initialLevels controller).map Prod.fst

theorem hasLayout_initialLevels (controller : CompactionController) :
    controller.HasLayout (LsmStorageState.initialLevels controller) := by
  cases controller with
  | tiered options => simp [HasLayout, LsmStorageState.initialLevels]
  | leveled options => rfl
  | simple options => rfl
  | noCompaction => rfl

theorem HasLayout.labelled {levels : List (ℕ × List ℕ)} (h : controller.HasLayout levels)
    (hflush : controller.flushToL0 = true) : Labelled levels := by
  cases controller with
  | tiered options => cases hflush
  | leveled options => exact (labelled_range options.maxLevels).congr h
  | simple options => exact (labelled_range options.maxLevels).congr h
  | noCompaction =>
    exact (show Labelled (LsmStorageState.initialLevels .noCompaction) from rfl).congr h

/-- The labels of tiers are distinct because the ids of the tables are. -/
theorem nodup_of_head {levels : List (ℕ × List ℕ)}
    (h : ∀ tier ∈ levels, tier.2.head? = some tier.1)
    (hnodup : (levels.map Prod.snd).flatten.Nodup) : (levels.map Prod.fst).Nodup := by
  induction levels with
  | nil => exact List.nodup_nil
  | cons tier levels ih =>
    obtain ⟨htier, hrest⟩ := List.forall_mem_cons.mp h
    rw [List.map_cons, List.flatten_cons, List.nodup_append] at hnodup
    obtain ⟨-, hlevels, hdis⟩ := hnodup
    rw [List.map_cons, List.nodup_cons]
    refine ⟨fun hmem => ?_, ih hrest hlevels⟩
    obtain ⟨other, hother, heq⟩ := List.mem_map.mp hmem
    refine hdis tier.1 (List.mem_of_mem_head? htier) other.1 ?_ heq.symm
    exact List.mem_flatten.mpr
      ⟨other.2, List.mem_map_of_mem hother, List.mem_of_mem_head? (hrest other hother)⟩

/-! ## What happens meanwhile -/

/-- One thing that may happen while a compaction runs: the oldest immutable memtable becomes a
table, or L0 and the levels stay and no table leaves the map. -/
inductive Meanwhile (idOf : M → ℕ) (controller : CompactionController) :
    LsmStorageState M → Option SsTable → LsmStorageState M → Prop where
  | flush {s s' : LsmStorageState M} {sst : SsTable}
      (h : s.installFlush idOf controller.flushToL0 sst = .ok s') :
      Meanwhile idOf controller s (some sst) s'
  | other {s s' : LsmStorageState M} (hl0 : s'.l0Sstables = s.l0Sstables)
      (hlevels : s'.levels = s.levels) (htables : ∀ id ∈ s.sstables, id ∈ s'.sstables) :
      Meanwhile idOf controller s none s'

/-- The tables that were flushed, latest first. -/
def flushedIds (events : List (Option SsTable)) : List ℕ :=
  (events.filterMap fun event => event.map SsTable.id).reverse

/-- Where flushes leave their tables. -/
structure Grown (controller : CompactionController) (flushed : List ℕ) (s s' : LsmStorageState M) :
    Prop where
  l0Sstables : s'.l0Sstables =
    if controller.flushToL0 then flushed ++ s.l0Sstables else s.l0Sstables
  levels : s'.levels =
    if controller.flushToL0 then s.levels else flushed.map (fun id => (id, [id])) ++ s.levels
  tables : ∀ id ∈ s.sstables, id ∈ s'.sstables

theorem grown_of_run {events : List (Option SsTable)}
    (h : Run (Meanwhile idOf controller) s events s') :
    Grown controller (flushedIds events) s s' := by
  refine h.invariant_of_steps (fun events s' => Grown controller (flushedIds events) s s')
    ⟨by simp [flushedIds], by simp [flushedIds], fun _ => id⟩ fun events t event u ih hstep => ?_
  cases hstep with
  | @flush _ sst hinstall =>
    obtain ⟨mem, -, -, rfl⟩ := LsmStorageInner.installFlush_ok hinstall
    have hids : flushedIds (events ++ [some sst]) = sst.id :: flushedIds events := by
      simp [flushedIds]
    refine ⟨?_, ?_, fun id hid => AList.mem_insert _ |>.mpr (Or.inr (ih.tables id hid))⟩
    · simp only [LsmStorageState.flushedState, ih.l0Sstables, hids]
      split <;> rfl
    · simp only [LsmStorageState.flushedState, ih.levels, hids]
      split <;> rfl
  | other hl0 hlevels htables =>
    have hids : flushedIds (events ++ [none]) = flushedIds events := by
      simp [flushedIds]
    rw [hids]
    exact ⟨hl0.trans ih.l0Sstables, hlevels.trans ih.levels, fun id hid => htables id (ih.tables id hid)⟩

end CompactionController

/-! ## Picking -/

namespace CompactionTask

/-- The inputs of the task were picked from the state by a controller. -/
def Picked (s : LsmStorageState M) : CompactionTask → Prop
  | .forceFullCompaction _ _ => False
  | .simple t => SimpleLeveledCompactionController.Picked s.l0Sstables s.levels t
  | .leveled t => LeveledCompactionController.Picked s.l0Sstables s.levels t
  | .tiered t => s.l0Sstables = [] ∧ t.tiers ≠ [] ∧
      ∃ older, TieredCompactionController.Picked s.levels t older

/-- The ids a task picks stand in the order of the tree. -/
theorem PicksFrom.sublist {R : List ℕ → List ℕ → Prop} (hR : ∀ ids ids', R ids ids' → ids.Sublist ids')
    {upperLevel : Option ℕ} {upperIds lowerIds : List ℕ} {lowerLevel : ℕ}
    (h : PicksFrom R s.levels upperLevel upperIds lowerLevel lowerIds)
    (hl0 : upperLevel = none → upperIds = s.l0Sstables) :
    (upperIds ++ lowerIds).Sublist s.listedIds := by
  obtain ⟨above, lower, below, hlevels, hlower, hupper⟩ := h
  have hlow : lowerIds.Sublist (((lowerLevel, lower) :: below).map Prod.snd).flatten :=
    (hR _ _ hlower).trans (List.sublist_append_left _ _)
  unfold LsmStorageState.listedIds
  rw [hlevels, List.map_append, List.flatten_append]
  cases upperLevel with
  | none =>
    rw [hl0 rfl]
    exact (hlow.trans (List.sublist_append_right _ _)).append_left _
  | some u =>
    obtain ⟨above', upper, rfl, hids⟩ := hupper u rfl
    refine List.Sublist.trans ?_ (List.sublist_append_right _ _)
    refine List.Sublist.append ?_ hlow
    rw [List.map_append, List.flatten_append]
    refine (hR _ _ hids).trans (List.Sublist.trans ?_ (List.sublist_append_right _ _))
    simp

theorem Picked.sublist (h : task.Picked s) : task.inputIds.Sublist s.listedIds := by
  cases task with
  | forceFullCompaction l0 l1 => exact h.elim
  | simple t =>
    refine PicksFrom.sublist (fun ids ids' heq => ?_) h.1 fun hu => (h.2 hu).2
    rw [heq]
  | leveled t => exact PicksFrom.sublist (fun _ _ => id) h.1 h.2.1
  | tiered t =>
    obtain ⟨-, -, older, hlevels⟩ := h
    unfold LsmStorageState.listedIds
    rw [hlevels, List.map_append, List.flatten_append]
    exact (List.sublist_append_left _ _).trans (List.sublist_append_right _ _)

/-! ## Placing -/

/-- Where the ids of `s` are in `s'`, when the task was made for `s` without its `flushed` tables. -/
def Placed (flushed output : List ℕ) (s s' : LsmStorageState M) (task : CompactionTask) : Prop :=
  match task with
  | .forceFullCompaction _ _ => False
  | .simple t => s'.l0Sstables = s.l0Sstables.filter (· ∉ task.inputIds) ∧
      Installed task.inputIds output t.lowerLevel s.levels s'.levels
  | .leveled t => s'.l0Sstables = s.l0Sstables.filter (· ∉ task.inputIds) ∧
      Installed task.inputIds output t.lowerLevel s.levels s'.levels
  | .tiered t => s'.l0Sstables = s.l0Sstables ∧ ∃ o older, output.head? = some o ∧
      s.levels = flushed.map (fun id => (id, [id])) ++ (t.tiers ++ older) ∧
      s'.levels = flushed.map (fun id => (id, [id])) ++ (o, output) :: older

/-- The levels of the tasks of the leveled controllers. -/
def lowerLevel? : CompactionTask → Option ℕ
  | .forceFullCompaction _ _ => none
  | .simple t => some t.lowerLevel
  | .leveled t => some t.lowerLevel
  | .tiered _ => none

/-- **Every id but the inputs stays and the output comes in.** -/
theorem Placed.perm {flushed output : List ℕ} (h : Placed flushed output s s' task)
    (hids : s.listedIds.Nodup)
    (hlower : ∀ l ∈ task.lowerLevel?, (s.levels.map Prod.fst).Nodup ∧ l ∈ s.levels.map Prod.fst) :
    s'.listedIds.Perm (s.listedIds.filter (· ∉ task.inputIds) ++ output) := by
  cases task with
  | forceFullCompaction l0 l1 => exact h.elim
  | simple t => exact h.2.listed_perm h.1 (hlower _ rfl).1 (hlower _ rfl).2
  | leveled t => exact h.2.listed_perm h.1 (hlower _ rfl).1 (hlower _ rfl).2
  | tiered t =>
    obtain ⟨hl0, o, older, -, hlevels, hlevels'⟩ := h
    have hinputs : (tiered t).inputIds = (t.tiers.map Prod.snd).flatten := rfl
    unfold LsmStorageState.listedIds at hids ⊢
    rw [hlevels] at hids
    rw [hl0, hlevels, hlevels', hinputs]
    simp only [List.map_append, List.map_cons, List.flatten_append, List.flatten_cons,
      List.filter_append] at hids ⊢
    rw [List.nodup_append, List.nodup_append, List.nodup_append] at hids
    obtain ⟨-, ⟨-, ⟨-, -, holder⟩, hnewer⟩, hl0dis⟩ := hids
    have hkeep : ∀ ids : List ℕ, (∀ id ∈ ids, id ∉ (t.tiers.map Prod.snd).flatten) →
        ids.filter (· ∉ (t.tiers.map Prod.snd).flatten) = ids := by
      intro ids hnot
      exact List.filter_eq_self.mpr (by simpa using hnot)
    rw [hkeep s.l0Sstables, hkeep (List.map _ _).flatten, hkeep (older.map Prod.snd).flatten,
      filter_notMem_self, List.nil_append]
    · simp only [List.append_assoc]
      exact (List.perm_append_comm.append_left _).append_left _
    · intro id hid hmem
      exact holder id hmem id hid rfl
    · intro id hid hmem
      exact hnewer id hid id (List.mem_append_left _ hmem) rfl
    · intro id hid hmem
      exact hl0dis id hid id (List.mem_append_right _ (List.mem_append_left _ hmem)) rfl

end CompactionTask

/-! ## Applying a task -/

namespace CompactionController

variable [Platform]

/-- `max_merge_width` is not set to zero. -/
def TakesSome (controller : CompactionController) : Prop :=
  ∀ options, controller = .tiered options → options.maxMergeWidth ≠ some 0

/-- **Generated tasks are picked from the state.** -/
theorem generateCompactionTask_picked (hlayout : controller.HasLayout s.levels)
    (hsome : controller.TakesSome)
    (h : controller.generateCompactionTask s = .ok (some task)) : task.Picked s := by
  cases controller with
  | noCompaction => cases h
  | leveled options =>
    obtain ⟨t, ht, htask⟩ := Outcome.bind_eq_ok_iff.mp h
    obtain ⟨t, rfl, rfl⟩ := Option.map_eq_some_iff.mp (Except.ok.inj htask)
    exact (LeveledCompactionController.generateCompactionTask_spec (hlayout.labelled rfl) ht).1
  | simple options =>
    obtain ⟨t, ht, htask⟩ := Outcome.bind_eq_ok_iff.mp h
    obtain ⟨t, rfl, rfl⟩ := Option.map_eq_some_iff.mp (Except.ok.inj htask)
    exact (SimpleLeveledCompactionController.generateCompactionTask_spec (hlayout.labelled rfl) ht).1
  | tiered options =>
    obtain ⟨t, ht, htask⟩ := Outcome.bind_eq_ok_iff.mp h
    obtain ⟨t, rfl, rfl⟩ := Option.map_eq_some_iff.mp (Except.ok.inj htask)
    obtain ⟨hl0, hne, older, holder, hcase⟩ :=
      TieredCompactionController.generateCompactionTask_spec ht
    refine ⟨hl0, ?_, older, holder⟩
    rcases hcase with ⟨-, -, rfl⟩ | ⟨-, -, htiers⟩ | ⟨-, -, hlength⟩
    · rw [TieredCompactionController.Picked, List.append_nil] at holder
      rwa [← holder]
    · exact htiers
    · intro hnil
      have hpos := List.length_pos_iff.mpr hne
      cases hwidth : options.maxMergeWidth with
      | none =>
        rw [hnil, hwidth, Option.getD_none, Nat.min_self, List.length_nil] at hlength
        omega
      | some width =>
        rw [hnil, hwidth, Option.getD_some, List.length_nil] at hlength
        refine hsome options rfl ?_
        rw [hwidth, show width = 0 by omega]

/-- The tables of the levels were looked up to make a leveled task. -/
theorem mem_sstables_of_leveled {options : LeveledCompactionOptions} {t : Option LeveledCompactionTask}
    (h : LeveledCompactionController.generateCompactionTask options s = .ok t) :
    ∀ level ∈ s.levels, ∀ id ∈ level.2, id ∈ s.sstables := by
  unfold LeveledCompactionController.generateCompactionTask at h
  obtain ⟨real, hreal, -⟩ := Outcome.bind_eq_ok_iff.mp h
  unfold LeveledCompactionController.realLevelSize at hreal
  rw [mapM_eq_ok_iff] at hreal
  intro level hlevel id hid
  obtain ⟨size, -, hsize⟩ := exists_of_mem_left hreal hlevel
  obtain ⟨sizes, hsizes, -⟩ := Outcome.bind_eq_ok_iff.mp hsize
  rw [mapM_eq_ok_iff] at hsizes
  obtain ⟨size', -, hsize'⟩ := exists_of_mem_left hsizes hid
  obtain ⟨table, htable, -⟩ := Outcome.bind_eq_ok_iff.mp hsize'
  rw [← AList.lookup_isSome, LsmStorageState.table_eq_ok_iff.mp htable]
  rfl

/-- **The result of a compaction is put in its place**, whatever was flushed meanwhile. -/
theorem applyCompactionResult_placed {flushed output : List ℕ} {inRecovery : Bool}
    (hlayout : controller.HasLayout s.levels) (hsome : controller.TakesSome)
    (htask : controller.generateCompactionTask s = .ok (some task))
    (hgrown : Grown controller flushed s s') (hids : s'.listedIds.Nodup)
    (hne : controller.flushToL0 = false → output ≠ [])
    (houtput : ∀ id ∈ output, id ∈ s'.sstables) :
    ∃ u, controller.applyCompactionResult s' task output inRecovery = .ok (u, task.inputIds) ∧
      task.Placed flushed output s' u := by
  have hpicked := generateCompactionTask_picked hlayout hsome htask
  have hmem : ∀ id, id ∈ s'.sstables → ∃ t, s'.sstables.lookup id = some t := fun id hid =>
    Option.isSome_iff_exists.mp (AList.lookup_isSome.mpr hid)
  cases controller with
  | noCompaction => cases htask
  | leveled options =>
    have hl0 : s'.l0Sstables = flushed ++ s.l0Sstables := hgrown.l0Sstables
    have hlevels : s'.levels = s.levels := hgrown.levels
    obtain ⟨t, ht, htask⟩ := Outcome.bind_eq_ok_iff.mp htask
    obtain ⟨t, rfl, rfl⟩ := Option.map_eq_some_iff.mp (Except.ok.inj htask)
    have hpicked' : LeveledCompactionController.Picked s.l0Sstables s'.levels t := by
      rw [hlevels]
      exact hpicked
    obtain ⟨levels', happly, hinstalled, -⟩ :=
      LeveledCompactionController.applyCompactionResult_spec output inRecovery
        (hlevels ▸ hlayout.labelled rfl) hids hpicked'
        (fun id hid => hl0 ▸ List.mem_append_right flushed hid)
        (fun _ level hlevel id hid => hmem id
          (hgrown.tables id (mem_sstables_of_leveled ht level (hlevels ▸ hlevel) id hid)))
        fun _ id hid => hmem id (houtput id hid)
    exact ⟨_, happly, rfl, hinstalled⟩
  | simple options =>
    have hl0 : s'.l0Sstables = flushed ++ s.l0Sstables := hgrown.l0Sstables
    have hlevels : s'.levels = s.levels := hgrown.levels
    obtain ⟨t, ht, htask⟩ := Outcome.bind_eq_ok_iff.mp htask
    obtain ⟨t, rfl, rfl⟩ := Option.map_eq_some_iff.mp (Except.ok.inj htask)
    have hpicked' : SimpleLeveledCompactionController.Picked s.l0Sstables s'.levels t := by
      rw [hlevels]
      exact hpicked
    obtain ⟨levels', happly, hinstalled, -⟩ :=
      SimpleLeveledCompactionController.applyCompactionResult_spec
        (hlevels ▸ hlayout.labelled rfl) hids hpicked'
        (fun id hid => hl0 ▸ List.mem_append_right flushed hid) output
    exact ⟨_, happly, rfl, hinstalled⟩
  | tiered options =>
    have hl0 : s'.l0Sstables = s.l0Sstables := hgrown.l0Sstables
    have hlevels : s'.levels = flushed.map (fun id => (id, [id])) ++ s.levels := hgrown.levels
    obtain ⟨t, ht, htask⟩ := Outcome.bind_eq_ok_iff.mp htask
    obtain ⟨t, rfl, rfl⟩ := Option.map_eq_some_iff.mp (Except.ok.inj htask)
    obtain ⟨hempty, htiers, older, holder⟩ := hpicked
    cases output with
    | nil => exact absurd rfl (hne rfl)
    | cons o os =>
      have hlevels' : s'.levels = flushed.map (fun id => (id, [id])) ++ (t.tiers ++ older) := by
        rw [hlevels, holder]
      have hlabels : (s'.levels.map Prod.fst).Nodup := by
        refine nodup_of_head (fun tier htier => ?_) (List.nodup_append.mp hids).2.1
        rw [hlevels] at htier
        rcases List.mem_append.mp htier with htier | htier
        · obtain ⟨id, -, rfl⟩ := List.mem_map.mp htier
          rfl
        · exact hlayout tier htier
      rw [hlevels', ← List.append_assoc, List.map_append] at hlabels
      exact ⟨_, TieredCompactionController.applyCompactionResult_spec (hl0.trans hempty) hlevels'
        htiers (List.nodup_append.mp hlabels).1, rfl, o, older, rfl, hlevels', rfl⟩

omit [Platform] in
/-- The lower level of a picked task is a level of the tree. -/
theorem mem_labels_of_picked (h : task.Picked s) :
    ∀ l ∈ task.lowerLevel?, l ∈ s.levels.map Prod.fst := by
  have hpicks : ∀ {R : List ℕ → List ℕ → Prop} {upperLevel : Option ℕ} {upperIds lowerIds : List ℕ}
      {l : ℕ}, PicksFrom R s.levels upperLevel upperIds l lowerIds → l ∈ s.levels.map Prod.fst := by
    rintro R upperLevel upperIds lowerIds l ⟨above, lower, below, hlevels, -, -⟩
    rw [hlevels]
    simp
  cases task with
  | forceFullCompaction l0 l1 => exact h.elim
  | simple t => rintro l ⟨⟩; exact hpicks h.1
  | leveled t => rintro l ⟨⟩; exact hpicks h.1
  | tiered t => rintro l ⟨⟩

omit [Platform] in
theorem Grown.listed {flushed : List ℕ} (h : Grown controller flushed s s') :
    ∀ id ∈ s.listedIds, id ∈ s'.listedIds := by
  intro id hid
  rw [LsmStorageState.mem_listedIds] at hid ⊢
  rw [h.l0Sstables, h.levels]
  rcases hid with hid | ⟨level, hlevel, hid⟩
  · left
    split
    · exact List.mem_append_right _ hid
    · exact hid
  · right
    refine ⟨level, ?_, hid⟩
    split
    · exact hlevel
    · exact List.mem_append_right _ hlevel

/-- The lower level of a generated task is one level of the tree. -/
theorem Grown.lower {flushed : List ℕ} (h : Grown controller flushed s s')
    (hlayout : controller.HasLayout s.levels)
    (htask : controller.generateCompactionTask s = .ok (some task)) (hpicked : task.Picked s) :
    ∀ l ∈ task.lowerLevel?, (s'.levels.map Prod.fst).Nodup ∧ l ∈ s'.levels.map Prod.fst := by
  intro l hl
  have hmem := mem_labels_of_picked hpicked l hl
  have hflush : controller.flushToL0 = true := by
    cases controller with
    | tiered options =>
      obtain ⟨t, ht, htask⟩ := Outcome.bind_eq_ok_iff.mp htask
      obtain ⟨t, rfl, rfl⟩ := Option.map_eq_some_iff.mp (Except.ok.inj htask)
      cases hl
    | leveled options => rfl
    | simple options => rfl
    | noCompaction => rfl
  have hlevels := h.levels
  rw [if_pos hflush] at hlevels
  rw [hlevels]
  exact ⟨(hlayout.labelled hflush).nodup, hmem⟩

omit [Platform] in
/-- Flushed tables with new ids keep the ids distinct. -/
theorem Grown.nodup {flushed : List ℕ} (h : Grown controller flushed s s') (hids : s.listedIds.Nodup)
    (hflushed : flushed.Nodup) (hfresh : ∀ id ∈ flushed, id ∉ s.listedIds) : s'.listedIds.Nodup := by
  have hperm : s'.listedIds.Perm (flushed ++ s.listedIds) := by
    unfold LsmStorageState.listedIds
    rw [h.l0Sstables, h.levels]
    split
    · rw [List.append_assoc]
    · have hflat : ((flushed.map fun id => (id, [id])).map Prod.snd).flatten = flushed := by
        rw [List.map_map]
        exact List.flatMap_singleton' flushed
      rw [List.map_append, List.flatten_append, hflat, ← List.append_assoc, ← List.append_assoc]
      exact List.perm_append_comm.append_right _
  rw [hperm.nodup_iff, List.nodup_append]
  refine ⟨hflushed, hids, fun id hid other hother heq => ?_⟩
  exact hfresh id hid (heq ▸ hother)

/-- **Installing the result of a compaction keeps every table exactly once**, whatever was flushed
since the task was made. -/
theorem applyCompactionResult_once {events : List (Option SsTable)} {output : List ℕ}
    {inRecovery : Bool} (hlayout : controller.HasLayout s.levels) (hsome : controller.TakesSome)
    (hids : s.listedIds.Nodup) (htask : controller.generateCompactionTask s = .ok (some task))
    (hrun : Run (Meanwhile idOf controller) s events s') (hflushed : (flushedIds events).Nodup)
    (hfresh : ∀ id ∈ flushedIds events, id ∉ s.listedIds) (hne : output ≠ [])
    (hnodup : output.Nodup) (hnew : ∀ id ∈ output, id ∉ s'.listedIds)
    (houtput : ∀ id ∈ output, id ∈ s'.sstables) :
    ∃ u removed, controller.applyCompactionResult s' task output inRecovery = .ok (u, removed) ∧
      removed.Perm task.inputIds ∧ removed.Nodup ∧ (∀ id ∈ removed, id ∈ s'.listedIds) ∧
      u.listedIds.Nodup ∧
      (∀ id, id ∈ u.listedIds ↔ id ∈ s'.listedIds ∧ id ∉ removed ∨ id ∈ output) ∧
      task.Placed (flushedIds events) output s' u := by
  have hgrown := grown_of_run hrun
  have hids' := hgrown.nodup hids hflushed hfresh
  obtain ⟨u, happly, hplaced⟩ :=
    applyCompactionResult_placed hlayout hsome htask hgrown hids' (fun _ => hne)
      houtput
  have hpicked := generateCompactionTask_picked hlayout hsome htask
  have hperm := hplaced.perm hids' (hgrown.lower hlayout htask hpicked)
  have hin : ∀ id ∈ task.inputIds, id ∈ s'.listedIds := fun id hid =>
    hgrown.listed id (hpicked.sublist.subset hid)
  refine ⟨u, task.inputIds, happly, List.Perm.refl _, hids.sublist hpicked.sublist, hin, ?_, ?_,
    hplaced⟩
  · rw [hperm.nodup_iff, List.nodup_append]
    refine ⟨hids'.filter _, hnodup, fun id hid other hother heq => ?_⟩
    exact hnew other hother (heq ▸ List.mem_of_mem_filter hid)
  · intro id
    rw [hperm.mem_iff, List.mem_append, List.mem_filter]
    simp only [decide_eq_true_eq]

end CompactionController

section

attribute [local instance] shortKeyPlatform

namespace CompactionController

/-- Three tiers and a memtable that is about to become a fourth one. -/
def threeTiers : LsmStorageState ℕ :=
  { memtable := 9
    immMemtables := [4]
    l0Sstables := []
    levels := [(3, [3]), (2, [2]), (1, [1])]
    sstables := ∅ }

/-- A table with nothing in it. -/
def blankTable (id : ℕ) : SsTable := (SsTableBuilder.new 1).build id

/-- The memtable has been flushed, and the table `5` is the result of a compaction. -/
def fourTiers : LsmStorageState ℕ :=
  { memtable := 9
    immMemtables := []
    l0Sstables := []
    levels := [(4, [4]), (3, [3]), (2, [2]), (1, [1])]
    sstables := ((∅ : SstMap).insert 4 (blankTable 4)).insert 5 (blankTable 5) }

theorem applyCompactionResult_once_small :
    ∃ u removed, applyCompactionResult (.tiered ⟨2, 300, 200, 10, some 2⟩) fourTiers
        (.tiered ⟨[(3, [3]), (2, [2])], true⟩) [5] false = .ok (u, removed) ∧
      removed.Perm [3, 2] ∧ removed.Nodup ∧ (∀ id ∈ removed, id ∈ fourTiers.listedIds) ∧
      u.listedIds.Nodup ∧
      (∀ id, id ∈ u.listedIds ↔ id ∈ fourTiers.listedIds ∧ id ∉ removed ∨ id ∈ [5]) ∧
      CompactionTask.Placed [4] [5] fourTiers u (.tiered ⟨[(3, [3]), (2, [2])], true⟩) := by
  have hflush : Meanwhile id (.tiered ⟨2, 300, 200, 10, some 2⟩) threeTiers (some (blankTable 4))
      { fourTiers with sstables := (∅ : SstMap).insert 4 (blankTable 4) } := .flush rfl
  have hinsert : Meanwhile id (.tiered ⟨2, 300, 200, 10, some 2⟩)
      { fourTiers with sstables := (∅ : SstMap).insert 4 (blankTable 4) } none fourTiers :=
    .other rfl rfl fun id hid => AList.mem_insert _ |>.mpr (Or.inr hid)
  have hlayout : HasLayout (.tiered ⟨2, 300, 200, 10, some 2⟩) threeTiers.levels := by
    simp [HasLayout, threeTiers]
  have hsome : TakesSome (.tiered ⟨2, 300, 200, 10, some 2⟩) := by
    rintro options ⟨⟩
    decide
  exact applyCompactionResult_once hlayout hsome (by decide) (by decide +kernel)
    (Run.snoc (Run.single hflush) hinsert) (by decide) (by decide) (by decide) (by decide)
    (by decide) (by simp [fourTiers, AList.mem_insert])

end CompactionController

end

end TinyLsm

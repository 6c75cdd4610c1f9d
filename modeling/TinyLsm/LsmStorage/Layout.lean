import TinyLsm.LsmStorage.Invariant
import TinyLsm.LsmStorage.Open
import TinyLsm.Compact.Install
import TinyLsm.Compact.Output

/-!
# What every run keeps, whatever the tables hold

`Laid e`: the ids of the memtables and of the listed tables are distinct and lie below the next one,
the levels of a leveled strategy keep their labels, and a tiered store has no L0.  Nothing is said
about the contents of a table, so this holds in every state of every run.
-/

namespace TinyLsm

open List (Subperm)

/-! ## No id is listed twice -/

/-- One list of ids is replaced. -/
theorem flatten_set_subperm {L : List (List ℕ)} {i : ℕ} {l ids output : List ℕ} (hl : L[i]? = some l)
    (h : ids.Subperm (l ++ output)) : (L.set i ids).flatten.Subperm (L.flatten ++ output) := by
  obtain ⟨pre, post, rfl, rfl⟩ := split_of_getElem? hl
  rw [List.set_append_right _ _ (Nat.le_refl _), Nat.sub_self, List.set_cons_zero]
  simp only [List.flatten_append, List.flatten_cons, List.append_assoc]
  refine List.Subperm.append (List.Subperm.refl _) ?_
  refine (h.append (List.Subperm.refl post.flatten)).trans (List.Perm.subperm ?_)
  rw [List.append_assoc]
  exact List.perm_append_comm.append_left _

theorem levels_set_subperm {levels : List (ℕ × List ℕ)} {i : ℕ} {level : ℕ × List ℕ}
    {ids output : List ℕ} (label : ℕ) (hlevel : levels[i]? = some level) (h : ids.Subperm (level.2 ++ output)) :
    ((levels.set i (label, ids)).map Prod.snd).flatten.Subperm
      ((levels.map Prod.snd).flatten ++ output) := by
  rw [List.map_set]
  exact flatten_set_subperm (by rw [List.getElem?_map, hlevel]; rfl) h

variable {M : Type} {s s' : LsmStorageState M} {task : CompactionTask} {output removed : List ℕ}
  {inRecovery : Bool}

namespace LeveledCompactionController

theorem arrange_perm {ids ids' : List ℕ} (h : arrange s ids inRecovery = .ok ids') :
    ids'.Perm ids := by
  cases inRecovery with
  | true =>
    cases h
    exact List.Perm.refl _
  | false =>
    unfold arrange sortByFirstKey at h
    rw [if_neg (by simp)] at h
    split at h
    · cases h
      exact List.Perm.refl _
    · obtain ⟨tables, htables, h⟩ := Outcome.bind_eq_ok_iff.mp h
      cases h
      have hfst : (ids.zip tables).map Prod.fst = ids :=
        List.map_fst_zip (mapM_eq_ok_iff.mp htables).length_eq.le
      exact ((List.perm_insertionSort _ _).map _).trans (List.Perm.of_eq hfst)

/-- The labels stay and no id is doubled. -/
theorem applyCompactionResult_subperm {task : LeveledCompactionTask}
    (h : applyCompactionResult s task output inRecovery = .ok (s', removed)) :
    s'.listedIds.Subperm (s.listedIds ++ output) ∧ s'.levels.map Prod.fst = s.levels.map Prod.fst := by
  have hset : ∀ {levels : List (ℕ × List ℕ)} {i : ℕ} {level : ℕ × List ℕ} (ids : List ℕ),
      index levels i = .ok level → (levels.set i (level.1, ids)).map Prod.fst = levels.map Prod.fst := by
    intro levels i level ids hlevel
    obtain ⟨pre, post, rfl, rfl⟩ := split_of_getElem? (index_eq_ok_iff.mp hlevel)
    simp
  simp only [applyCompactionResult, Outcome.bind_eq_ok_iff] at h
  obtain ⟨s₁, hupper, i, -, level, hlevel, kept, hkept, ids, hids, h⟩ := h
  cases h
  have hs₁ : s₁.listedIds.Subperm s.listedIds ∧ s₁.levels.map Prod.fst = s.levels.map Prod.fst := by
    cases hu : task.upperLevel with
    | none =>
      simp only [takeUpper, hu, Outcome.bind_eq_ok_iff] at hupper
      obtain ⟨ids, hout, hupper⟩ := hupper
      cases hupper
      exact ⟨((takeOutAll_sublist hout).append (List.Sublist.refl _)).subperm, rfl⟩
    | some upperLevel =>
      simp only [takeUpper, hu, Outcome.bind_eq_ok_iff] at hupper
      obtain ⟨i, -, upper, hindex, ids, hout, hupper⟩ := hupper
      cases hupper
      have hsub := levels_set_subperm upper.1 (index_eq_ok_iff.mp hindex)
        ((takeOutAll_sublist hout).subperm.trans (List.sublist_append_left upper.2 []).subperm)
      rw [List.append_nil] at hsub
      exact ⟨List.Subperm.append (List.Subperm.refl _) hsub, hset ids hindex⟩
  refine ⟨?_, (hset ids hlevel).trans hs₁.2⟩
  have hsub := levels_set_subperm level.1 (index_eq_ok_iff.mp hlevel)
    ((arrange_perm hids).subperm.trans
      ((takeOutAll_sublist hkept).append (List.Sublist.refl output)).subperm)
  refine (List.Subperm.append (List.Subperm.refl s₁.l0Sstables) hsub).trans ?_
  rw [← List.append_assoc]
  exact List.Subperm.append hs₁.1 (List.Subperm.refl _)

end LeveledCompactionController

namespace SimpleLeveledCompactionController

theorem applyCompactionResult_subperm {task : SimpleLeveledCompactionTask}
    (h : applyCompactionResult s task output = .ok (s', removed)) :
    s'.listedIds.Subperm (s.listedIds ++ output) := by
  have hset : ∀ {levels levels' : List (ℕ × List ℕ)} {i label : ℕ} (ids : List ℕ),
      setIndex levels i (label, ids) = .ok levels' →
      (levels'.map Prod.snd).flatten.Subperm ((levels.map Prod.snd).flatten ++ ids) := by
    intro levels levels' i label ids hset
    obtain ⟨hlt, rfl⟩ := setIndex_eq_ok_iff.mp hset
    exact levels_set_subperm label (List.getElem?_eq_getElem hlt)
      (List.sublist_append_right _ _).subperm
  unfold LsmStorageState.listedIds
  cases hu : task.upperLevel with
  | none =>
    simp only [applyCompactionResult, hu, Outcome.bind_eq_ok_iff] at h
    obtain ⟨levels, hlevels, h⟩ := h
    cases h
    rw [List.append_assoc]
    exact List.Subperm.append List.filter_sublist.subperm (hset _ hlevels)
  | some upperLevel =>
    simp only [applyCompactionResult, hu, Outcome.bind_eq_ok_iff] at h
    obtain ⟨i, -, levels, hlevels, j, -, levels', hlevels', h⟩ := h
    cases h
    have hupper := hset _ hlevels
    rw [List.append_nil] at hupper
    rw [List.append_assoc]
    exact List.Subperm.append (List.Subperm.refl _)
      ((hset _ hlevels').trans (List.Subperm.append hupper (List.Subperm.refl _)))

end SimpleLeveledCompactionController

namespace TieredCompactionController

/-- The loop keeps tiers and adds the output at most once. -/
theorem applyLoop_subperm {m left : AList fun _ : ℕ => List ℕ} {newTierAdded : Bool}
    {tiers levels : List (ℕ × List ℕ)}
    (h : applyLoop output m newTierAdded tiers = .ok (levels, removed, left)) :
    (levels.map Prod.snd).flatten.Subperm
      ((tiers.map Prod.snd).flatten ++ if newTierAdded then [] else output) := by
  induction tiers generalizing m newTierAdded levels removed with
  | nil =>
    cases h
    exact (List.nil_sublist _).subperm
  | cons tier tiers ih =>
    obtain ⟨kept, removed₁, m₁, hpass, levels₁, more, -, hcase⟩ := applyLoop_cons h
    have hkept : (kept.map Prod.snd).flatten.Subperm tier.2 := by
      cases hpass with
      | remove => exact (List.nil_sublist _).subperm
      | keep =>
        rw [List.map_singleton, List.flatten_singleton]
    rw [List.map_cons, List.flatten_cons, List.append_assoc]
    rcases hcase with ⟨-, hadd, rfl, -, hloop⟩ | ⟨-, rfl, hloop⟩
    · have hih := ih hloop
      rw [if_pos rfl, List.append_nil] at hih
      rw [hadd, List.map_append, List.flatten_append, List.map_cons, List.flatten_cons]
      refine List.Subperm.append hkept ?_
      exact List.perm_append_comm.subperm.trans (List.Subperm.append hih (List.Subperm.refl _))
    · rw [List.map_append, List.flatten_append]
      exact List.Subperm.append hkept (ih hloop)

theorem applyCompactionResult_subperm {task : TieredCompactionTask}
    (h : applyCompactionResult s task output = .ok (s', removed)) :
    s'.listedIds.Subperm (s.listedIds ++ output) ∧ s'.l0Sstables = [] := by
  have hframe := applyCompactionResult_frame h
  unfold applyCompactionResult at h
  split at h
  · cases h
  · rename_i hl0
    obtain ⟨⟨levels, removed', left⟩, hloop, h⟩ := Outcome.bind_eq_ok_iff.mp h
    simp only at h
    split at h
    · cases h
      refine ⟨?_, not_not.mp hl0⟩
      unfold LsmStorageState.listedIds
      rw [List.append_assoc]
      exact List.Subperm.append (List.Subperm.refl _) (applyLoop_subperm hloop)
    · cases h

end TieredCompactionController

theorem CompactionController.applyCompactionResult_subperm {controller : CompactionController}
    (h : controller.applyCompactionResult s task output inRecovery = .ok (s', removed)) :
    s'.listedIds.Subperm (s.listedIds ++ output) := by
  unfold CompactionController.applyCompactionResult at h
  split at h
  · exact (LeveledCompactionController.applyCompactionResult_subperm h).1
  · exact SimpleLeveledCompactionController.applyCompactionResult_subperm h
  · exact (TieredCompactionController.applyCompactionResult_subperm h).1
  · cases h

/-! ## The invariant -/

namespace LsmStorageInner

open LsmStorageState

variable {options : LsmStorageOptions} {e e' : LsmStorageInner}

/-- The ids are distinct, and the next one is above them. -/
structure Numbered (e : LsmStorageInner) : Prop where
  nodup : e.state.ids.Nodup
  lt : ∀ id ∈ e.state.ids, id < e.nextSstId

/-- A call has taken new ids, and may have given up old ones. -/
structure TakesIds (e e' : LsmStorageInner) (newIds : List ℕ) : Prop where
  nodup : newIds.Nodup
  new : ∀ id ∈ newIds, e.nextSstId ≤ id ∧ id < e'.nextSstId
  next : e.nextSstId ≤ e'.nextSstId
  ids : e'.state.ids.Subperm (newIds ++ e.state.ids)

/-- **Taking ids keeps them distinct.** -/
theorem Numbered.of_takesIds (h : e.Numbered) {newIds : List ℕ} (htakes : TakesIds e e' newIds) :
    e'.Numbered where
  nodup := by
    obtain ⟨l, hperm, hsub⟩ := htakes.ids
    refine hperm.nodup_iff.mp (List.Nodup.sublist hsub ?_)
    rw [List.nodup_append]
    refine ⟨htakes.nodup, h.nodup, fun id hid other hother heq => ?_⟩
    have hle := (htakes.new id hid).1
    have hlt := h.lt other hother
    omega
  lt id hid := by
    rcases List.mem_append.mp (htakes.ids.subset hid) with hid | hid
    · exact (htakes.new id hid).2
    · exact (h.lt id hid).trans_le htakes.next

theorem Froze.takesIds {m : MemTable} (h : Froze e e' m) : TakesIds e e' [e.nextSstId] := by
  have hnext := h.nextSstId
  refine ⟨List.nodup_singleton _, fun id hid => ?_, by omega, ?_⟩
  · rw [List.mem_singleton.mp hid]
    omega
  · rw [h.ids_eq]
    exact List.Subperm.refl _

theorem takesIds_afterPut (e : LsmStorageInner) (data : List Entry) (d : Disk) :
    TakesIds e (e.afterPut data d) [] := by
  refine ⟨List.nodup_nil, by simp, Nat.le_refl _, ?_⟩
  rw [ids_afterPut]
  exact List.Subperm.refl _

/-- The invariant that says nothing about contents. -/
structure Laid (options : LsmStorageOptions) (e : LsmStorageInner) : Prop where
  opts : e.options = options
  nodup : e.state.ids.Nodup
  ids : ∀ id ∈ e.state.ids, id < e.nextSstId
  labels : CompactionController.flushToL0 options.compactionOptions = true →
    e.state.levels.map Prod.fst = (initialLevels options.compactionOptions).map Prod.fst
  l0Sstables : CompactionController.flushToL0 options.compactionOptions = false → e.state.l0Sstables = []

theorem Laid.listed_nodup (h : e.Laid options) : e.state.listedIds.Nodup :=
  (List.nodup_append.mp h.nodup).2.1

theorem Laid.controller (h : e.Laid options) : e.compactionController = options.compactionOptions := by
  unfold compactionController
  rw [h.opts]

theorem Laid.numbered (h : e.Laid options) : e.Numbered := ⟨h.nodup, h.ids⟩

/-- Only the labels of the levels are new, and no id is doubled. -/
theorem Laid.of_takesIds (h : e.Laid options) {newIds : List ℕ} (htakes : TakesIds e e' newIds)
    (hoptions : e'.options = e.options)
    (hlabels : CompactionController.flushToL0 options.compactionOptions = true →
      e'.state.levels.map Prod.fst = e.state.levels.map Prod.fst)
    (hl0 : CompactionController.flushToL0 options.compactionOptions = false → e'.state.l0Sstables = []) :
    e'.Laid options where
  opts := hoptions.trans h.opts
  nodup := (h.numbered.of_takesIds htakes).nodup
  ids := (h.numbered.of_takesIds htakes).lt
  labels hflush := (hlabels hflush).trans (h.labels hflush)
  l0Sstables := hl0

theorem Laid.freeze {m : MemTable} (h : e.Laid options) (hfroze : Froze e e' m) :
    e'.Laid options := by
  refine h.of_takesIds hfroze.takesIds hfroze.options ?_ ?_
  · intro _
    rw [hfroze.state]
  · intro hflush
    rw [hfroze.state]
    exact h.l0Sstables hflush

theorem Laid.afterPut (h : e.Laid options) (data : List Entry) (d : Disk) :
    (e.afterPut data d).Laid options :=
  h.of_takesIds (takesIds_afterPut e data d) rfl (fun _ => rfl) h.l0Sstables

variable [Platform]

theorem Flushed.takesIds {m : MemTable} {builder : SsTableBuilder} (h : Flushed e e' m builder) :
    TakesIds e e' [] :=
  ⟨List.nodup_nil, by simp, h.nextSstId.ge, h.ids_perm.subperm⟩

theorem Laid.flush {m : MemTable} {builder : SsTableBuilder} (h : e.Laid options)
    (hflushed : Flushed e e' m builder) : e'.Laid options := by
  have hl0 := hflushed.l0Sstables
  have hlevels := hflushed.levels
  rw [h.controller] at hl0 hlevels
  refine h.of_takesIds hflushed.takesIds hflushed.options ?_ ?_
  · intro hflush
    rw [hlevels, if_pos hflush]
  · intro hflush
    rw [hl0, hflush, if_neg Bool.false_ne_true]
    exact h.l0Sstables hflush

/-- The tables of a compaction have the next ids. -/
theorem output_ids {s : LsmStorageState MemTable} {task : CompactionTask} {p p' : Disk × ℕ}
    {ssts : List SsTable} (hok : (TinyLsm.compact options s task).exec p = (.ok ssts, p')) :
    (ssts.map SsTable.id).Nodup ∧ (∀ id ∈ ssts.map SsTable.id, p.2 ≤ id ∧ id < p'.2) ∧ p.2 ≤ p'.2 := by
  obtain ⟨l, -, hwrote⟩ := compact_streams hok
  obtain ⟨hids, hnext⟩ := hwrote.ids
  rw [hids, hnext]
  refine ⟨List.nodup_range', fun id hid => ?_, Nat.le_add_right _ _⟩
  obtain ⟨i, hi, rfl⟩ := List.mem_range'.mp hid
  omega

/-- The levels of a leveled strategy keep their labels. -/
theorem applied_labels {controller : CompactionController} {s s' : LsmStorageState M} {m : SstMap}
    {task : CompactionTask} {output removed : List ℕ}
    (hlayout : controller.HasLayout s.levels) (hflush : controller.flushToL0 = true)
    (hids : s.listedIds.Nodup) (htask : controller.generateCompactionTask s = .ok (some task))
    (happly : controller.applyCompactionResult { s with sstables := m } task output false =
      .ok (s', removed)) :
    s'.levels.map Prod.fst = s.levels.map Prod.fst := by
  cases controller with
  | tiered options => cases hflush
  | noCompaction => cases htask
  | leveled options =>
    obtain ⟨t, -, htask⟩ := Outcome.bind_eq_ok_iff.mp htask
    obtain ⟨t, rfl, rfl⟩ := Option.map_eq_some_iff.mp (Except.ok.inj htask)
    exact (LeveledCompactionController.applyCompactionResult_subperm happly).2
  | simple options =>
    obtain ⟨t, ht, htask⟩ := Outcome.bind_eq_ok_iff.mp htask
    obtain ⟨t, rfl, rfl⟩ := Option.map_eq_some_iff.mp (Except.ok.inj htask)
    have hlabels := hlayout.labelled hflush
    have hpicked := (SimpleLeveledCompactionController.generateCompactionTask_spec hlabels ht).1
    obtain ⟨levels', heq, hinstalled, -⟩ :=
      SimpleLeveledCompactionController.applyCompactionResult_spec
        (show Labelled ({ s with sstables := m } : LsmStorageState M).levels from hlabels) hids
        hpicked (fun _ => id) output
    have hs' : s'.levels = levels' := by
      rw [show SimpleLeveledCompactionController.applyCompactionResult _ _ _ = .ok (s', removed) from
        happly] at heq
      rw [(Prod.mk.inj (Except.ok.inj heq)).1]
    rw [hs']
    exact hinstalled.labels

omit [Platform] in
theorem Laid.layout (h : e.Laid options) (hflush : CompactionController.flushToL0 options.compactionOptions = true) :
    CompactionController.HasLayout options.compactionOptions e.state.levels := by
  have hlabels := h.labels hflush
  revert hflush hlabels
  cases options.compactionOptions with
  | tiered o => rintro ⟨⟩
  | leveled o => exact fun _ => id
  | simple o => exact fun _ => id
  | noCompaction => exact fun _ => id

/-- The memtables stay, and the output is listed. -/
theorem takesIds_of_listed {task : CompactionTask} {output : List SsTable} {d : Disk}
    (hcompact : (TinyLsm.compact e.options e.state task).exec (e.disk, e.nextSstId) =
      (.ok output, (d, e'.nextSstId)))
    (hmemtables : e'.state.memtables = e.state.memtables)
    (hlisted : e'.state.listedIds.Subperm (e.state.listedIds ++ output.map SsTable.id)) :
    TakesIds e e' (output.map SsTable.id) := by
  obtain ⟨hnodup, hnew, hnext⟩ := output_ids hcompact
  refine ⟨hnodup, hnew, hnext, ?_⟩
  unfold LsmStorageState.ids
  rw [hmemtables]
  refine (List.Subperm.append (List.Subperm.refl _) hlisted).trans (List.Perm.subperm ?_)
  rw [← List.append_assoc]
  exact List.perm_append_comm

theorem Compacted.takesIds {task : CompactionTask} {output : List SsTable}
    {s : LsmStorageState MemTable} {removed : List ℕ} (h : Compacted e e' task output s removed) :
    TakesIds e e' (output.map SsTable.id) := by
  obtain ⟨d, hcompact, -⟩ := h.compact
  refine takesIds_of_listed hcompact ?_ ?_
  · unfold LsmStorageState.memtables
    rw [h.state, CompactionController.applyCompactionResult_frame h.apply]
  · have hsub := CompactionController.applyCompactionResult_subperm h.apply
    rw [h.state]
    exact hsub

theorem FullyCompacted.takesIds {level₁ : ℕ × List ℕ} {newSsts : List SsTable}
    (h : FullyCompacted e e' level₁ newSsts) : TakesIds e e' (newSsts.map SsTable.id) := by
  obtain ⟨d, hcompact, -⟩ := h.compact
  refine takesIds_of_listed hcompact ?_ ?_
  · unfold LsmStorageState.memtables
    rw [h.state]
  · have hsub := levels_set_subperm 1 h.level
      (List.sublist_append_right level₁.2 (newSsts.map SsTable.id)).subperm
    rw [h.state]
    unfold LsmStorageState.listedIds
    rw [List.append_assoc]
    exact List.Subperm.append (List.nil_sublist _).subperm hsub

theorem Laid.compact (h : e.Laid options) {task : CompactionTask} {output : List SsTable}
    {s : LsmStorageState MemTable} {removed : List ℕ}
    (hcompacted : Compacted e e' task output s removed) : e'.Laid options := by
  have happly := hcompacted.apply
  have hgenerated := hcompacted.generated
  rw [h.controller] at happly hgenerated
  refine h.of_takesIds hcompacted.takesIds hcompacted.options ?_ ?_
  · intro hflush
    rw [hcompacted.state]
    change s.levels.map Prod.fst = _
    exact applied_labels (h.layout hflush) hflush h.listed_nodup hgenerated happly
  · intro hflush
    rw [hcompacted.state]
    change s.l0Sstables = []
    revert happly hflush
    cases options.compactionOptions with
    | tiered o =>
      intro happly _
      cases task with
      | tiered t =>
        exact (TieredCompactionController.applyCompactionResult_subperm happly).2
      | leveled t => cases happly
      | simple t => cases happly
      | forceFullCompaction l0 l1 => cases happly
    | leveled o => rintro _ ⟨⟩
    | simple o => rintro _ ⟨⟩
    | noCompaction => rintro _ ⟨⟩

theorem Laid.fullCompact (h : e.Laid options) {level₁ : ℕ × List ℕ} {newSsts : List SsTable}
    (hcompacted : FullyCompacted e e' level₁ newSsts) : e'.Laid options := by
  have hlevel := hcompacted.level
  refine h.of_takesIds hcompacted.takesIds hcompacted.options ?_ ?_
  · intro hflush
    rw [hcompacted.state]
    obtain ⟨above, below, heq, habove⟩ := split_of_getElem? hlevel
    have hlabels := (h.layout hflush).labelled hflush
    obtain rfl := List.length_eq_zero_iff.mp habove
    rw [heq] at hlabels
    simp only [heq, List.nil_append, List.set_cons_zero, List.map_cons, hlabels.eq_length,
      List.length_nil, Nat.zero_add]
  · intro _
    rw [hcompacted.state]

theorem Fresh.laid (h : Fresh options e) : e.Laid options := by
  obtain ⟨m, hnew⟩ := h.isNew
  have hids : e.state.ids = [0] := by
    rw [hnew.state]
    unfold LsmStorageState.ids LsmStorageState.memtables
    rw [listedIds_create]
    simp only [LsmStorageState.create, List.map_cons, List.map_nil, hnew.id, List.append_nil]
  refine ⟨hnew.options, ?_, ?_, fun _ => by rw [hnew.state]; rfl, fun _ => by rw [hnew.state]; rfl⟩
  · rw [hids]
    exact List.nodup_singleton 0
  · rw [hids, hnew.nextSstId]
    intro id hid
    rw [List.mem_singleton.mp hid]
    exact Nat.one_pos

/-- **One call keeps the ids distinct**, however the tree looks. -/
theorem Numbered.step {op : Op} (h : e.Numbered) (hstep : Step e op e') : e'.Numbered := by
  cases op with
  | writeBatch batch =>
    obtain ⟨ts, d, e₁, -, -, hfreeze, rfl⟩ := writeBatch_ok hstep
    have hput := h.of_takesIds (takesIds_afterPut e (batch.map (WriteBatchRecord.entry ts)) d)
    suffices hafter : e₁.Numbered from ⟨hafter.nodup, hafter.lt⟩
    rcases tryFreeze_ok hfreeze with rfl | ⟨-, m, hfroze⟩
    · exact hput
    · exact hput.of_takesIds hfroze.takesIds
  | freeze =>
    obtain ⟨m, hfroze⟩ := forceFreezeMemtable_ok hstep
    exact h.of_takesIds hfroze.takesIds
  | flush =>
    rcases forceFlushNextImmMemtable_ok hstep with ⟨-, rfl⟩ | ⟨m, builder, hflushed⟩
    · exact h
    · exact h.of_takesIds hflushed.takesIds
  | compact =>
    rcases triggerCompaction_ok hstep with ⟨-, rfl⟩ | ⟨task, output, s, removed, hcompacted⟩
    · exact h
    · exact h.of_takesIds hcompacted.takesIds
  | fullCompact =>
    obtain ⟨level₁, newSsts, hcompacted⟩ := forceFullCompaction_ok hstep
    exact h.of_takesIds hcompacted.takesIds

/-- One call keeps the invariant. -/
theorem Laid.step {op : Op} (h : e.Laid options) (hstep : Step e op e') : e'.Laid options := by
  cases op with
  | writeBatch batch =>
    obtain ⟨ts, d, e₁, -, -, hfreeze, rfl⟩ := writeBatch_ok hstep
    have hput := h.afterPut (batch.map (WriteBatchRecord.entry ts)) d
    suffices hafter : e₁.Laid options from
      ⟨hafter.opts, hafter.nodup, hafter.ids, hafter.labels, hafter.l0Sstables⟩
    rcases tryFreeze_ok hfreeze with rfl | ⟨-, m, hfroze⟩
    · exact hput
    · exact hput.freeze hfroze
  | freeze =>
    obtain ⟨m, hfroze⟩ := forceFreezeMemtable_ok hstep
    exact h.freeze hfroze
  | flush =>
    rcases forceFlushNextImmMemtable_ok hstep with ⟨-, rfl⟩ | ⟨m, builder, hflushed⟩
    · exact h
    · exact h.flush hflushed
  | compact =>
    rcases triggerCompaction_ok hstep with ⟨-, rfl⟩ | ⟨task, output, s, removed, hcompacted⟩
    · exact h
    · exact h.compact hcompacted
  | fullCompact =>
    obtain ⟨level₁, newSsts, hcompacted⟩ := forceFullCompaction_ok hstep
    exact h.fullCompact hcompacted

/-- **Every run keeps the ids distinct and the levels in their place.** -/
theorem RunOf.laid {C : LsmStorageInner → Op → Prop} {ops : List Op} (hrun : RunOf C e ops e')
    (h : e.Laid options) : e'.Laid options :=
  hrun.invariant (Laid options) (fun _ _ _ h hstep => h.step hstep.2) h

end LsmStorageInner

end TinyLsm

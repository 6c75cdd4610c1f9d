import TinyLsm.LsmStorage.Layout
import TinyLsm.Compact.LeveledSorted

/-!
# The replay of the manifest against the live transitions

A flush and a compaction are each implemented twice: on the live state, and in the loop of `open` over
the records, where no table is loaded.  `Transition.apply` is the live side, `replay` the other one.

The two differ in two places.  The loop puts every flushed table into L0, also when the live path makes
a tier of it, and it does not sort the level into which a leveled compaction writes.
`Transition.Replayable` excludes both: `replay_step_iff`.
-/

namespace TinyLsm

variable {M : Type}

/-- A live transition, and what is new in it. -/
inductive Transition (M : Type) where
  /-- Writes and freezes. -/
  | memtables (memtable : M) (immMemtables : List M)
  | flush (sst : SsTable)
  | compact (task : CompactionTask) (output : List SsTable)

namespace Transition

/-- The record for a transition of the tree. -/
def record : Transition M → Option ManifestRecord
  | .memtables _ _ => none
  | .flush sst => some (.flush sst.id)
  | .compact task output => some (.compaction task (output.map SsTable.id))

/-- The state with the output of a compaction in its map. -/
def withOutput (s : LsmStorageState M) (output : List SsTable) : LsmStorageState M :=
  { s with sstables := LsmStorageInner.insertTables output s.sstables }

/-- The install of a flush, and that of `trigger_compaction`. -/
def apply (idOf : M → ℕ) (controller : CompactionController) (s : LsmStorageState M) :
    Transition M → Outcome (LsmStorageState M)
  | .memtables memtable immMemtables => .ok { s with memtable, immMemtables }
  | .flush sst => s.installFlush idOf controller.flushToL0 sst
  | .compact task output => do
    let (state, removed) ← controller.applyCompactionResult (withOutput s output) task
      (output.map SsTable.id) false
    return { state with sstables := LsmStorageInner.eraseTables removed state.sstables }

/-- A flush has a new id; a compaction is that of a generated task and writes tables with new ids,
sorted by key. -/
def Valid [Platform] (controller : CompactionController) (s : LsmStorageState M) :
    Transition M → Prop
  | .memtables _ _ => True
  | .flush sst => sst.id ∉ s.listedIds
  | .compact task output => controller.generateCompactionTask s = .ok (some task) ∧
      (output.map SsTable.id).Nodup ∧ (∀ id ∈ output.map SsTable.id, id ∉ s.listedIds) ∧
      SstsValid output

/-- The replay of the record does the same: flushes go to L0, and what a leveled compaction leaves in
the lower level, followed by its output, is already in the order of the first keys. -/
def Replayable (controller : CompactionController) (s : LsmStorageState M) : Transition M → Prop
  | .flush _ => controller.flushToL0 = true
  | .compact (.leveled task) output => ∀ level ∈ s.levels[task.lowerLevel - 1]?,
      (level.2.filter (· ∉ task.lowerLevelSstIds) ++ output.map SsTable.id).Pairwise
        (LeveledCompactionController.FirstKeyLe (withOutput s output))
  | _ => True

/-- The output of a leveled compaction lies between the first and the last key of its inputs. -/
def Fits (s : LsmStorageState M) : Transition M → Prop
  | .compact (.leveled task) output => LeveledCompactionController.WithinInputs s (withOutput s output)
      (task.upperLevelSstIds ++ task.lowerLevelSstIds) (output.map SsTable.id)
  | _ => True

instance [Platform] (controller : CompactionController) (s : LsmStorageState M) (t : Transition M) :
    Decidable (t.Valid controller s) := by
  cases t <;> unfold Valid <;> infer_instance

instance (controller : CompactionController) (s : LsmStorageState M) (t : Transition M) :
    Decidable (t.Replayable controller s) := by
  rcases t with _ | _ | ⟨_ | _ | _ | _, _⟩ <;> unfold Replayable <;> infer_instance

instance (s : LsmStorageState M) (t : Transition M) : Decidable (t.Fits s) := by
  rcases t with _ | _ | ⟨_ | _ | _ | _, _⟩ <;> unfold Fits <;> infer_instance

end Transition

/-- The transitions of the tree that `C` allows. -/
def Live [Platform] (C : LsmStorageState M → Transition M → Prop) (idOf : M → ℕ)
    (controller : CompactionController) (s : LsmStorageState M) (t : Transition M)
    (s' : LsmStorageState M) : Prop :=
  C s t ∧ t.Valid controller s ∧ t.apply idOf controller s = .ok s'

/-- What the loop of `open` makes of the records of some transitions. -/
def replay (options : LsmStorageOptions) (ts : List (Transition M)) : Outcome Replay :=
  (Replay.init options).records options.compactionOptions (ts.filterMap Transition.record)

/-- The two states list the same tables in the same order. -/
def SameLists {M' : Type} (s : LsmStorageState M) (r : LsmStorageState M') : Prop :=
  r.l0Sstables = s.l0Sstables ∧ r.levels = s.levels

/-! ## The loop, record by record -/

theorem Replay.records_append {controller : CompactionController} (r : Replay)
    (recs recs' : List ManifestRecord) : r.records controller (recs ++ recs') = (do
      let r' ← r.records controller recs
      r'.records controller recs') := by
  induction recs generalizing r with
  | nil => rfl
  | cons rec recs ih =>
    simp only [List.cons_append, Replay.records, bind_assoc]
    exact bind_congr fun r' => ih r'

/-- The last transition is replayed last. -/
theorem replay_snoc (options : LsmStorageOptions) (ts : List (Transition M)) (t : Transition M) :
    replay options (ts ++ [t]) = (do
      let r ← replay options ts
      match t.record with
      | none => return r
      | some rec => r.record options.compactionOptions rec) := by
  unfold replay
  rw [List.filterMap_append, Replay.records_append]
  refine bind_congr fun r => ?_
  cases hrecord : t.record with
  | none =>
    rw [List.filterMap_cons_none hrecord]
    rfl
  | some rec =>
    rw [List.filterMap_cons_some hrecord]
    exact bind_pure _

/-! ## Installing a compaction twice -/

section

variable {M' : Type} {s u : LsmStorageState M} {r : LsmStorageState M'} {output removed : List ℕ}

/-- The simple controller looks at the lists only. -/
theorem SimpleLeveledCompactionController.applyCompactionResult_replayed (h : SameLists s r)
    {task : SimpleLeveledCompactionTask}
    (happly : applyCompactionResult s task output = .ok (u, removed)) :
    ∃ v, applyCompactionResult r task output = .ok (v, removed) ∧ SameLists u v := by
  obtain ⟨hl0, hlevels⟩ := h
  unfold applyCompactionResult at happly ⊢
  rw [hl0, hlevels]
  cases hu : task.upperLevel with
  | none =>
    simp only [hu, Outcome.bind_eq_ok_iff] at happly ⊢
    obtain ⟨levels, hset, happly⟩ := happly
    cases happly
    exact ⟨_, ⟨levels, hset, rfl⟩, rfl, rfl⟩
  | some upperLevel =>
    simp only [hu, Outcome.bind_eq_ok_iff] at happly ⊢
    obtain ⟨i, hi, levels, hset, j, hj, levels', hset', happly⟩ := happly
    cases happly
    exact ⟨_, ⟨i, hi, levels, hset, j, hj, levels', hset', rfl⟩, rfl, rfl⟩

/-- So does the tiered one. -/
theorem TieredCompactionController.applyCompactionResult_replayed (h : SameLists s r)
    {task : TieredCompactionTask}
    (happly : applyCompactionResult s task output = .ok (u, removed)) :
    ∃ v, applyCompactionResult r task output = .ok (v, removed) ∧ SameLists u v := by
  obtain ⟨hl0, hlevels⟩ := h
  unfold applyCompactionResult at happly ⊢
  rw [hl0, hlevels]
  split at happly
  · cases happly
  · rename_i hempty
    rw [if_neg hempty]
    obtain ⟨⟨levels, removed', left⟩, hloop, happly⟩ := Outcome.bind_eq_ok_iff.mp happly
    simp only at happly
    split at happly
    · rename_i hleft
      cases happly
      refine ⟨{ r with l0Sstables := s.l0Sstables, levels }, ?_, rfl, rfl⟩
      rw [hloop]
      simp only [bind, Except.bind, if_pos hleft]
      rfl
    · cases happly

namespace LeveledCompactionController

/-- The sort changes nothing exactly when the tables are in order. -/
theorem sortByFirstKey_eq_self_iff {ids ids' : List ℕ} (h : sortByFirstKey s ids = .ok ids') :
    ids = ids' ↔ ids.Pairwise (FirstKeyLe s) := by
  unfold sortByFirstKey at h
  split at h
  · rename_i hshort
    cases h
    refine iff_of_true rfl ?_
    match ids, hshort with
    | [], _ => exact .nil
    | [_], _ => exact List.pairwise_singleton _ _
  · obtain ⟨tables, htables, h⟩ := Outcome.bind_eq_ok_iff.mp h
    rw [mapM_eq_ok_iff] at htables
    have hfst : (ids.zip tables).map Prod.fst = ids := List.map_fst_zip htables.length_eq.le
    have hlookup : ∀ p ∈ ids.zip tables, s.sstables.lookup p.1 = some p.2 := fun p hp =>
      LsmStorageState.table_eq_ok_iff.mp ((List.forall₂_iff_zip.mp htables).2 hp)
    -- In terms of the tables, `FirstKeyLe` is the order that the sort makes.
    have hpair : ∀ l : List (ℕ × SsTable), (∀ p ∈ l, s.sstables.lookup p.1 = some p.2) →
        ((l.map Prod.fst).Pairwise (FirstKeyLe s) ↔ l.Pairwise fun a b => a.2.firstKey ≤ b.2.firstKey) := by
      intro l hl
      rw [List.pairwise_map]
      refine ⟨fun h => h.imp_of_mem fun {a b} ha hb hab => ?_,
        fun h => h.imp_of_mem fun {a b} ha hb hab => ⟨a.2, b.2, hl a ha, hl b hb, hab⟩⟩
      obtain ⟨t₁, t₂, h₁, h₂, hle⟩ := hab
      rw [hl a ha] at h₁
      rw [hl b hb] at h₂
      cases h₁
      cases h₂
      exact hle
    have hids' := (Except.ok.inj h).symm
    constructor
    · intro heq
      rw [heq, hids', hpair _ fun p hp => hlookup p (List.mem_insertionSort _ |>.mp hp)]
      exact List.pairwise_insertionSort _ _
    · intro hsorted
      rw [← hfst, hpair _ hlookup] at hsorted
      rw [hids', hsorted.insertionSort_eq, hfst]

/-- The upper tables leave both states in the same way. -/
theorem takeUpper_replayed (h : SameLists s r) {task : LeveledCompactionTask}
    {s₁ : LsmStorageState M} (hupper : takeUpper s task = .ok s₁) :
    ∃ r₁, takeUpper r task = .ok r₁ ∧ SameLists s₁ r₁ ∧ s₁.sstables = s.sstables := by
  obtain ⟨hl0, hlevels⟩ := h
  unfold takeUpper at hupper ⊢
  rw [hl0, hlevels]
  cases hu : task.upperLevel with
  | none =>
    simp only [hu, Outcome.bind_eq_ok_iff] at hupper ⊢
    obtain ⟨ids, hids, hupper⟩ := hupper
    cases hupper
    exact ⟨_, ⟨ids, hids, rfl⟩, ⟨rfl, rfl⟩, rfl⟩
  | some upperLevel =>
    simp only [hu, Outcome.bind_eq_ok_iff] at hupper ⊢
    obtain ⟨i, hi, level, hlevel, ids, hids, hupper⟩ := hupper
    cases hupper
    exact ⟨_, ⟨i, hi, level, hlevel, ids, hids, rfl⟩, ⟨rfl, rfl⟩, rfl⟩

/-- The level below the upper one is the same before and after the upper tables leave. -/
theorem takeUpper_lower {task : LeveledCompactionTask} {s₁ : LsmStorageState M}
    (hlower : ∀ u ∈ task.upperLevel, task.lowerLevel = u + 1) (hupper : takeUpper s task = .ok s₁) :
    s₁.levels[task.lowerLevel - 1]? = s.levels[task.lowerLevel - 1]? := by
  unfold takeUpper at hupper
  cases hu : task.upperLevel with
  | none =>
    simp only [hu, Outcome.bind_eq_ok_iff] at hupper
    obtain ⟨ids, -, hupper⟩ := hupper
    cases hupper
    rfl
  | some upperLevel =>
    simp only [hu, Outcome.bind_eq_ok_iff] at hupper
    obtain ⟨i, hi, level, -, ids, -, hupper⟩ := hupper
    cases hupper
    have hu' := hlower upperLevel hu
    rw [usizeSub_eq_ok_iff] at hi
    rw [List.getElem?_set_ne (by omega)]

/-- **The replay of a leveled compaction** always returns, with the same lists exactly when the sort of
the live path had nothing to do. -/
theorem applyCompactionResult_replayed (h : SameLists s r) (hnodup : s.listedIds.Nodup)
    {task : LeveledCompactionTask} (hlower : ∀ u ∈ task.upperLevel, task.lowerLevel = u + 1)
    (happly : applyCompactionResult s task output false = .ok (u, removed)) :
    ∃ v, applyCompactionResult r task output true = .ok (v, removed) ∧
      (SameLists u v ↔ ∀ level ∈ s.levels[task.lowerLevel - 1]?,
        (level.2.filter (· ∉ task.lowerLevelSstIds) ++ output).Pairwise (FirstKeyLe s)) := by
  unfold applyCompactionResult at happly ⊢
  simp only [Outcome.bind_eq_ok_iff] at happly ⊢
  obtain ⟨s₁, hupper, i, hi, level, hlevel, kept, hkept, ids, hids, happly⟩ := happly
  obtain ⟨r₁, hupper', ⟨hl0, hlevels⟩, htables⟩ := takeUpper_replayed h hupper
  cases happly
  obtain ⟨-, rfl⟩ := usizeSub_eq_ok_iff.mp hi
  refine ⟨{ r₁ with levels := r₁.levels.set (task.lowerLevel - 1) (level.1, kept ++ output) },
    ⟨r₁, hupper', task.lowerLevel - 1, hi, level, by rw [hlevels]; exact hlevel, kept, hkept,
      kept ++ output, rfl, rfl⟩, ?_⟩
  have hget : s.levels[task.lowerLevel - 1]? = some level :=
    (takeUpper_lower hlower hupper).symm.trans (index_eq_ok_iff.mp hlevel)
  have hkept' : kept = level.2.filter (· ∉ task.lowerLevelSstIds) :=
    eq_of_takeOutAll (nodup_level hnodup (List.mem_of_getElem? hget)) hkept
  have hsort : sortByFirstKey s₁ (kept ++ output) = .ok ids := hids
  have hfirst : FirstKeyLe s₁ = FirstKeyLe s := by
    unfold FirstKeyLe
    rw [htables]
  simp only [hget, Option.mem_some_iff, forall_eq']
  rw [← hkept', ← hfirst, ← sortByFirstKey_eq_self_iff hsort]
  unfold SameLists
  simp only [hl0, hlevels, true_and]
  -- Only the rewritten level can differ.
  obtain ⟨pre, post, hsplit, hlen⟩ := split_of_getElem? (index_eq_ok_iff.mp hlevel)
  rw [hsplit, ← hlen]
  simp

end LeveledCompactionController

end

section

variable [Platform] {C : LsmStorageState M → Transition M → Prop} {idOf : M → ℕ}
  {options : LsmStorageOptions} {s s' : LsmStorageState M} {t : Transition M}
  {ts : List (Transition M)} {r : Replay}

/-- **The replay of a compaction.** -/
theorem CompactionController.applyCompactionResult_replayed {controller : CompactionController}
    {task : CompactionTask} {output : List SsTable} {u : LsmStorageState M} {removed : List ℕ}
    (hsame : SameLists s r.state) (hids : s.listedIds.Nodup)
    (htask : controller.generateCompactionTask s = .ok (some task))
    (happly : controller.applyCompactionResult (Transition.withOutput s output) task
      (output.map SsTable.id) false = .ok (u, removed)) :
    ∃ v, controller.applyCompactionResult r.state task (output.map SsTable.id) true =
        .ok (v, removed) ∧
      (SameLists u v ↔ (Transition.compact task output : Transition M).Replayable controller s) := by
  have hsame' : SameLists (Transition.withOutput s output) r.state := hsame
  unfold CompactionController.applyCompactionResult at happly ⊢
  cases controller with
  | noCompaction => cases htask
  | leveled options =>
    obtain ⟨t, ht, htask⟩ := Outcome.bind_eq_ok_iff.mp htask
    obtain ⟨t, rfl, rfl⟩ := Option.map_eq_some_iff.mp (Except.ok.inj htask)
    obtain ⟨-, -, hinputs⟩ := LeveledCompactionController.generateCompactionTask_cases ht
    have hlower : ∀ u ∈ t.upperLevel, t.lowerLevel = u + 1 := by
      intro u hu
      rcases hinputs with ⟨hnone, -⟩ | ⟨u', -, -, -, -, -, hsome, -, hlower⟩
      · rw [hnone] at hu
        cases hu
      · rw [hsome] at hu
        rw [hlower, Option.some.inj hu]
    exact LeveledCompactionController.applyCompactionResult_replayed hsame' hids hlower happly
  | simple options =>
    obtain ⟨t, -, htask⟩ := Outcome.bind_eq_ok_iff.mp htask
    obtain ⟨t, rfl, rfl⟩ := Option.map_eq_some_iff.mp (Except.ok.inj htask)
    obtain ⟨v, hv, hlists⟩ :=
      SimpleLeveledCompactionController.applyCompactionResult_replayed hsame' happly
    exact ⟨v, hv, iff_of_true hlists trivial⟩
  | tiered options =>
    obtain ⟨t, -, htask⟩ := Outcome.bind_eq_ok_iff.mp htask
    obtain ⟨t, rfl, rfl⟩ := Option.map_eq_some_iff.mp (Except.ok.inj htask)
    obtain ⟨v, hv, hlists⟩ :=
      TieredCompactionController.applyCompactionResult_replayed hsame' happly
    exact ⟨v, hv, iff_of_true hlists trivial⟩

/-- **One transition**: its record is replayed without a panic, with the same lists exactly when it is
replayable. -/
theorem replay_step_iff (hr : replay options ts = .ok r) (hsame : SameLists s r.state)
    (hids : s.listedIds.Nodup) (hlive : Live C idOf options.compactionOptions s t s') :
    ∃ r', replay options (ts ++ [t]) = .ok r' ∧
      (SameLists s' r'.state ↔ t.Replayable options.compactionOptions s) := by
  obtain ⟨-, hvalid, happly⟩ := hlive
  rw [replay_snoc, hr]
  cases t with
  | memtables memtable immMemtables =>
    cases happly
    exact ⟨r, rfl, iff_of_true hsame trivial⟩
  | flush sst =>
    obtain ⟨mem, -, -, rfl⟩ := LsmStorageInner.installFlush_ok happly
    refine ⟨_, rfl, ?_⟩
    obtain ⟨hl0, hlevels⟩ := hsame
    unfold SameLists Transition.Replayable LsmStorageState.flushedState
    cases CompactionController.flushToL0 options.compactionOptions with
    | true => simp [hl0, hlevels]
    | false => simp [hl0]
  | compact task output =>
    obtain ⟨⟨u, removed⟩, hu, happly⟩ := Outcome.bind_eq_ok_iff.mp happly
    cases happly
    obtain ⟨v, hv, hlists⟩ :=
      CompactionController.applyCompactionResult_replayed hsame hids hvalid.1 hu
    refine ⟨{ r with
      nextSstId := max r.nextSstId ((output.map SsTable.id).max?.getD 0 + 1)
      state := v }, ?_, hlists⟩
    show Replay.record _ _ (.compaction task (output.map SsTable.id)) = _
    unfold Replay.record
    simp only [hv, bind, Except.bind]
    rfl

/-- No id is listed twice. -/
theorem Live.nodup {controller : CompactionController} (hlive : Live C idOf controller s t s')
    (hids : s.listedIds.Nodup) : s'.listedIds.Nodup := by
  obtain ⟨-, hvalid, happly⟩ := hlive
  cases t with
  | memtables memtable immMemtables =>
    cases happly
    exact hids
  | flush sst =>
    obtain ⟨mem, -, -, rfl⟩ := LsmStorageInner.installFlush_ok happly
    rw [(LsmStorageState.listedIds_flushedState _ _ _).nodup_iff, List.nodup_cons]
    exact ⟨hvalid, hids⟩
  | compact task output =>
    obtain ⟨-, hnodup, hfresh, -⟩ := hvalid
    obtain ⟨⟨u, removed⟩, hu, happly⟩ := Outcome.bind_eq_ok_iff.mp happly
    cases happly
    have hsub : u.listedIds.Subperm (s.listedIds ++ output.map SsTable.id) :=
      CompactionController.applyCompactionResult_subperm (s := Transition.withOutput s output) hu
    have happend : (s.listedIds ++ output.map SsTable.id).Nodup := by
      rw [List.nodup_append]
      refine ⟨hids, hnodup, fun id hid other hother heq => ?_⟩
      exact hfresh other hother (heq ▸ hid)
    obtain ⟨l, hperm, hsub⟩ := hsub
    exact hperm.nodup_iff.mp (happend.sublist hsub)

omit [Platform] in
theorem sameLists_create (options : LsmStorageOptions) (memtable : M) :
    SameLists (LsmStorageState.create options memtable) (Replay.init options).state := ⟨rfl, rfl⟩

/-- **A run of replayable transitions is replayed.** -/
theorem replay_of_run {memtable : M} (hC : ∀ s t, C s t → t.Replayable options.compactionOptions s)
    (hrun : Run (Live C idOf options.compactionOptions) (LsmStorageState.create options memtable) ts s) :
    s.listedIds.Nodup ∧ ∃ r, replay options ts = .ok r ∧ SameLists s r.state := by
  refine hrun.invariant_of_steps
    (fun ts s => s.listedIds.Nodup ∧ ∃ r, replay options ts = .ok r ∧ SameLists s r.state) ?_ ?_
  · refine ⟨?_, Replay.init options, rfl, sameLists_create options memtable⟩
    rw [LsmStorageState.listedIds_create]
    exact List.nodup_nil
  · rintro ts s t u ⟨hids, r, hr, hsame⟩ hlive
    obtain ⟨r', hr', hiff⟩ := replay_step_iff hr hsame hids hlive
    exact ⟨hlive.nodup hids, r', hr', hiff.mpr (hC s t hlive.1)⟩

/-! ## Sorted levels -/

/-- The levels have their labels and are sorted; a tiered store has no tier yet. -/
structure Arranged (controller : CompactionController) (s : LsmStorageState M) : Prop where
  layout : controller.HasLayout s.levels
  sorted : ∀ level ∈ s.levels, s.SortedLevel level.2
  tiers : controller.flushToL0 = false → s.levels = []

omit [Platform] in
/-- The tables of an output are in the map. -/
theorem lookup_withOutput {output : List SsTable} (hnodup : (output.map SsTable.id).Nodup) {table : SsTable}
    (h : table ∈ output) :
    (Transition.withOutput s output).sstables.lookup table.id = some table :=
  LsmStorageInner.lookup_insertTables_of_mem hnodup h _

omit [Platform] in
theorem mem_withOutput {output : List SsTable} (hnodup : (output.map SsTable.id).Nodup) :
    ∀ id ∈ output.map SsTable.id, id ∈ (Transition.withOutput s output).sstables := by
  intro id hid
  obtain ⟨table, htable, rfl⟩ := List.mem_map.mp hid
  rw [← AList.lookup_isSome, lookup_withOutput hnodup htable]
  rfl

omit [Platform] in
theorem sortedLevel_output {output : List SsTable} (hnodup : (output.map SsTable.id).Nodup)
    (hvalid : SstsValid output) :
    (Transition.withOutput s output).SortedLevel (output.map SsTable.id) := by
  refine ⟨output, ?_, hvalid⟩
  rw [mapM_eq_ok_iff, List.forall₂_map_left_iff, List.forall₂_same]
  exact fun table htable => LsmStorageState.table_eq (lookup_withOutput hnodup htable)

/-- The inputs of a compaction leave the lists. -/
theorem notMem_removed {controller : CompactionController} (hflush : controller.flushToL0 = true)
    (harranged : Arranged controller s) (hids : s.listedIds.Nodup) {task : CompactionTask}
    {output : List SsTable} (hvalid : (Transition.compact task output : Transition M).Valid controller s)
    {u : LsmStorageState M} {removed : List ℕ}
    (happly : controller.applyCompactionResult (Transition.withOutput s output) task
      (output.map SsTable.id) false = .ok (u, removed)) : ∀ id ∈ u.listedIds, id ∉ removed := by
  obtain ⟨htask, hnodup, hfresh, -⟩ := hvalid
  have hsome : controller.TakesSome := by
    rintro options rfl
    cases hflush
  have hgrown : CompactionController.Grown controller [] s (Transition.withOutput s output) := by
    refine ⟨by simp [Transition.withOutput], by simp [Transition.withOutput], fun id hid => ?_⟩
    by_cases hmem : id ∈ output.map SsTable.id
    · exact mem_withOutput hnodup id hmem
    · rw [← AList.lookup_isSome] at hid ⊢
      rwa [Transition.withOutput, LsmStorageInner.lookup_insertTables_of_notMem hmem]
  have hplaced : ∃ v, controller.applyCompactionResult (Transition.withOutput s output) task
      (output.map SsTable.id) false = .ok (v, task.inputIds) ∧
        task.Placed [] (output.map SsTable.id) (Transition.withOutput s output) v :=
    CompactionController.applyCompactionResult_placed harranged.layout hsome htask hgrown hids
      (fun h => by rw [hflush] at h; cases h) (mem_withOutput hnodup)
  obtain ⟨v, happly', hplaced⟩ := hplaced
  rw [happly] at happly'
  obtain ⟨rfl, rfl⟩ := Prod.mk.inj (Except.ok.inj happly')
  have hpicked := CompactionController.generateCompactionTask_picked harranged.layout hsome htask
  have hperm := hplaced.perm hids (hgrown.lower harranged.layout htask hpicked)
  intro id hid hin
  rcases List.mem_append.mp (hperm.subset hid) with hid | hid
  · have hnot : id ∉ task.inputIds := by simpa using (List.mem_filter.mp hid).2
    exact hnot hin
  · exact hfresh id hid (hpicked.sublist.subset hin)

omit [Platform] in
/-- What is not new in the map of tables. -/
theorem lookup_withOutput_of_listed {output : List SsTable}
    (hfresh : ∀ id ∈ output.map SsTable.id, id ∉ s.listedIds) {id : ℕ} (hid : id ∈ s.listedIds) :
    (Transition.withOutput s output).sstables.lookup id = s.sstables.lookup id :=
  LsmStorageInner.lookup_insertTables_of_notMem (fun hmem => hfresh id hmem hid) _

/-- The levels after a compaction are sorted in the map with the output. -/
theorem applied_sorted {controller : CompactionController} (harranged : Arranged controller s)
    (hids : s.listedIds.Nodup) {task : CompactionTask} {output : List SsTable}
    (hvalid : (Transition.compact task output : Transition M).Valid controller s)
    (hfits : (Transition.compact task output : Transition M).Fits s)
    {u : LsmStorageState M} {removed : List ℕ}
    (happly : controller.applyCompactionResult (Transition.withOutput s output) task
      (output.map SsTable.id) false = .ok (u, removed)) :
    controller.flushToL0 = true ∧ u.sstables = (Transition.withOutput s output).sstables ∧
      ∀ level ∈ u.levels, (Transition.withOutput s output).SortedLevel level.2 := by
  obtain ⟨htask, hnodup, hfresh, hssts⟩ := hvalid
  have hlookup : ∀ level ∈ s.levels, ∀ id ∈ level.2,
      (Transition.withOutput s output).sstables.lookup id = s.sstables.lookup id :=
    fun level hlevel id hid => lookup_withOutput_of_listed hfresh
      (LsmStorageState.mem_listedIds.mpr (Or.inr ⟨level, hlevel, hid⟩))
  have hold : ∀ level ∈ s.levels, (Transition.withOutput s output).SortedLevel level.2 :=
    fun level hlevel => (harranged.sorted level hlevel).congr (hlookup level hlevel)
  cases controller with
  | noCompaction => cases htask
  | tiered options =>
    obtain ⟨t, ht, htask⟩ := Outcome.bind_eq_ok_iff.mp htask
    obtain ⟨t, rfl, rfl⟩ := Option.map_eq_some_iff.mp (Except.ok.inj htask)
    exact absurd (harranged.tiers rfl) (TieredCompactionController.generateCompactionTask_spec ht).2.1
  | leveled options =>
    obtain ⟨t, ht, htask⟩ := Outcome.bind_eq_ok_iff.mp htask
    obtain ⟨t, rfl, rfl⟩ := Option.map_eq_some_iff.mp (Except.ok.inj htask)
    have hadds : LeveledCompactionController.AddsL0 s (Transition.withOutput s output) :=
      ⟨rfl, ⟨[], rfl⟩, fun id hid => lookup_withOutput_of_listed hfresh hid⟩
    obtain ⟨v, hv, htables, hlevels⟩ := LeveledCompactionController.applied_levels harranged.sorted ht
      hadds (sortedLevel_output hnodup hssts) hfits
    obtain ⟨rfl, -⟩ := Prod.mk.inj (Except.ok.inj (happly.symm.trans hv))
    exact ⟨rfl, htables, hlevels⟩
  | simple options =>
    obtain ⟨t, ht, htask⟩ := Outcome.bind_eq_ok_iff.mp htask
    obtain ⟨t, rfl, rfl⟩ := Option.map_eq_some_iff.mp (Except.ok.inj htask)
    have hlabels : Labelled s.levels := harranged.layout.labelled rfl
    have hpicked := (SimpleLeveledCompactionController.generateCompactionTask_spec hlabels ht).1
    have hspec := SimpleLeveledCompactionController.applyCompactionResult_spec
      (s := Transition.withOutput s output) hlabels hids hpicked (fun _ => id) (output.map SsTable.id)
    obtain ⟨levels', hv, -, hthinned, hlower⟩ := hspec
    obtain ⟨rfl, -⟩ := Prod.mk.inj (Except.ok.inj (happly.symm.trans hv))
    refine ⟨rfl, rfl, fun level hlevel => ?_⟩
    by_cases hlabel : level.1 = t.lowerLevel
    · rw [hlower level hlevel hlabel]
      exact sortedLevel_output hnodup hssts
    · obtain ⟨level₀, hlevel₀, hsub⟩ := hthinned level hlevel hlabel
      exact (hold level₀ hlevel₀).sublist hsub

/-- **One transition keeps the levels sorted.** -/
theorem Arranged.step {controller : CompactionController} (harranged : Arranged controller s)
    (hids : s.listedIds.Nodup) (hreplayable : t.Replayable controller s) (hfits : t.Fits s)
    (hlive : Live C idOf controller s t s') : Arranged controller s' := by
  obtain ⟨-, hvalid, happly⟩ := hlive
  cases t with
  | memtables memtable immMemtables =>
    cases happly
    exact ⟨harranged.layout,
      fun level hlevel => (harranged.sorted level hlevel).congr fun _ _ => rfl, harranged.tiers⟩
  | flush sst =>
    obtain ⟨mem, -, -, rfl⟩ := LsmStorageInner.installFlush_ok happly
    have hflush : controller.flushToL0 = true := hreplayable
    have hlevels : (s.flushedState controller.flushToL0 sst).levels = s.levels := if_pos hflush
    refine ⟨by rw [hlevels]; exact harranged.layout, ?_, fun h => by rw [hflush] at h; cases h⟩
    rw [hlevels]
    refine fun level hlevel => (harranged.sorted level hlevel).congr fun id hid => ?_
    refine AList.lookup_insert_ne fun heq => hvalid ?_
    rw [← heq]
    exact LsmStorageState.mem_listedIds.mpr (Or.inr ⟨level, hlevel, hid⟩)
  | compact task output =>
    obtain ⟨⟨u, removed⟩, hu, happly⟩ := Outcome.bind_eq_ok_iff.mp happly
    cases happly
    obtain ⟨hflush, htables, hsorted⟩ := applied_sorted harranged hids hvalid hfits hu
    have hremoved := notMem_removed hflush harranged hids hvalid hu
    have hlabels : u.levels.map Prod.fst = s.levels.map Prod.fst :=
      LsmStorageInner.applied_labels harranged.layout hflush hids hvalid.1 hu
    refine ⟨?_, fun level hlevel => ?_, fun h => by rw [hflush] at h; cases h⟩
    · have hlayout := harranged.layout
      revert hlayout hflush
      cases controller with
      | tiered options => rintro ⟨⟩
      | leveled options => exact fun _ => hlabels.trans
      | simple options => exact fun _ => hlabels.trans
      | noCompaction => exact fun _ => hlabels.trans
    · refine (hsorted level hlevel).congr fun id hid => ?_
      have hnot := hremoved id (LsmStorageState.mem_listedIds.mpr (Or.inr ⟨level, hlevel, hid⟩))
      simp only [LsmStorageInner.lookup_eraseTables, if_neg hnot, htables]

omit [Platform] in
theorem arranged_create (options : LsmStorageOptions) (memtable : M) :
    Arranged options.compactionOptions (LsmStorageState.create options memtable) := by
  refine ⟨CompactionController.hasLayout_initialLevels _, fun level hlevel => ?_, fun hflush => ?_⟩
  · rw [LsmStorageState.eq_nil_of_mem_initialLevels hlevel]
    exact ⟨[], rfl, by simp [SstsValid]⟩
  · show LsmStorageState.initialLevels options.compactionOptions = []
    revert hflush
    cases options.compactionOptions with
    | tiered o => exact fun _ => rfl
    | leveled o => rintro ⟨⟩
    | simple o => rintro ⟨⟩
    | noCompaction => rintro ⟨⟩

/-- **The replay of the manifest agrees with the live transitions**, exactly as long as these are
replayable: after such transitions the loop of `open` has the lists of the live state, and so it does
after one more if and only if that one is replayable too.  When the outputs lie between the keys of
their inputs, all levels it ends with are sorted. -/
theorem replay_agrees_iff (idOf : M → ℕ) (options : LsmStorageOptions) (memtable : M)
    (ts : List (Transition M)) (s : LsmStorageState M) :
    (Run (Live (fun s t => t.Replayable options.compactionOptions s) idOf options.compactionOptions)
        (LsmStorageState.create options memtable) ts s →
      (∃ r, replay options ts = .ok r ∧ SameLists s r.state) ∧
      ∀ t s', Live (fun _ _ => True) idOf options.compactionOptions s t s' →
        ∃ r, replay options (ts ++ [t]) = .ok r ∧
          (SameLists s' r.state ↔ t.Replayable options.compactionOptions s)) ∧
    (Run (Live (fun s t => t.Replayable options.compactionOptions s ∧ t.Fits s) idOf
        options.compactionOptions) (LsmStorageState.create options memtable) ts s →
      ∃ r, replay options ts = .ok r ∧ SameLists s r.state ∧
        ∀ level ∈ r.state.levels, s.SortedLevel level.2) := by
  refine ⟨fun hrun => ?_, fun hrun => ?_⟩
  · obtain ⟨hids, r, hr, hsame⟩ := replay_of_run (fun _ _ => id) hrun
    exact ⟨⟨r, hr, hsame⟩, fun t s' hlive => replay_step_iff hr hsame hids hlive⟩
  · obtain ⟨-, r, hr, hsame⟩ := replay_of_run (fun _ _ => And.left) hrun
    have harranged := hrun.invariant
      (fun s => s.listedIds.Nodup ∧ Arranged options.compactionOptions s)
      (fun s t s' ⟨hids, h⟩ hlive =>
        ⟨hlive.nodup hids, h.step hids hlive.1.1 hlive.1.2 hlive⟩)
      ⟨by rw [LsmStorageState.listedIds_create]; exact List.nodup_nil, arranged_create options memtable⟩
    refine ⟨r, hr, hsame, ?_⟩
    rw [hsame.2]
    exact harranged.2.sorted

end

section

attribute [local instance] shortKeyPlatform

/-- The state after some transitions that `C` allows. -/
def afterTransitions (C : LsmStorageState ℕ → Transition ℕ → Prop) [∀ s t, Decidable (C s t)]
    (options : LsmStorageOptions) (ts : List (Transition ℕ)) : Option (LsmStorageState ℕ) :=
  execAll (fun s t => if C s t ∧ t.Valid options.compactionOptions s then
    (t.apply id options.compactionOptions s).toOption else none) ts
    (LsmStorageState.create options 0)

theorem run_of_afterTransitions {C : LsmStorageState ℕ → Transition ℕ → Prop}
    [∀ s t, Decidable (C s t)] {options : LsmStorageOptions} {ts : List (Transition ℕ)}
    {s : LsmStorageState ℕ} (h : afterTransitions C options ts = some s) :
    Run (Live C id options.compactionOptions) (LsmStorageState.create options 0) ts s := by
  refine run_of_execAll ?_ h
  intro s t s' hcall
  split at hcall
  · rename_i hC
    cases happly : t.apply id options.compactionOptions s with
    | error e =>
      rw [happly] at hcall
      cases hcall
    | ok u =>
      rw [happly] at hcall
      cases hcall
      exact ⟨hC.1, hC.2, happly⟩
  · cases hcall

/-- Two tables are flushed and go to L1 one after the other: the first ranges over the keys 10 to 20. -/
def twoCompactions (firstKey lastKey : Bytes) : List (Transition ℕ) :=
  [.memtables 2 [1], .flush (LeveledCompactionController.spanTable 1 [10] [20]),
    .compact (.leveled ⟨none, [1], 1, [], true⟩)
      [LeveledCompactionController.spanTable 2 [10] [20]],
    .memtables 4 [3], .flush (LeveledCompactionController.spanTable 3 firstKey lastKey),
    .compact (.leveled ⟨none, [3], 1, [], true⟩)
      [LeveledCompactionController.spanTable 5 firstKey lastKey]]

/-- A leveled store with one level, into which every table of L0 goes. -/
def leveledOptions : LsmStorageOptions := ⟨4096, 2 ^ 20, 50, .leveled ⟨2, 0, 1, 128⟩, false⟩

/-- A tiered store that merges two tiers. -/
def tieredOptions : LsmStorageOptions := ⟨4096, 2 ^ 20, 50, .tiered ⟨2, 300, 200, 2, none⟩, false⟩

/-- The second table is behind the first one. -/
theorem replay_agrees_ascending : ∃ (s : LsmStorageState ℕ) (r : Replay),
    replay leveledOptions (twoCompactions [50] [60]) = .ok r ∧ SameLists s r.state ∧
      s.levels = [(1, [2, 5])] ∧ ∀ level ∈ r.state.levels, s.SortedLevel level.2 := by
  have hfinal : (afterTransitions
      (fun s t => t.Replayable leveledOptions.compactionOptions s ∧ t.Fits s) leveledOptions
      (twoCompactions [50] [60])).map (fun s => s.levels) = some [(1, [2, 5])] := by
    decide +kernel
  obtain ⟨s, hs, hlevels⟩ := Option.map_eq_some_iff.mp hfinal
  obtain ⟨r, hr, hsame, hsorted⟩ := (replay_agrees_iff id leveledOptions 0 _ s).2
    (run_of_afterTransitions hs)
  exact ⟨s, r, hr, hsame, hlevels, hsorted⟩

/-- The second table is in front of the first one; and the flush of a tiered store. -/
theorem replay_differs :
    (∃ (s : LsmStorageState ℕ) (r : Replay),
      Run (Live (fun _ _ => True) id leveledOptions.compactionOptions)
        (LsmStorageState.create leveledOptions 0) (twoCompactions [5] [6]) s ∧
      replay leveledOptions (twoCompactions [5] [6]) = .ok r ∧ s.levels = [(1, [5, 2])] ∧
      r.state.levels = [(1, [2, 5])] ∧ ¬ s.SortedLevel [2, 5]) ∧
    ∃ (s : LsmStorageState ℕ) (r : Replay),
      Run (Live (fun _ _ => True) id tieredOptions.compactionOptions)
        (LsmStorageState.create tieredOptions 0)
        [.memtables 2 [1], .flush (LeveledCompactionController.spanTable 1 [10] [20])] s ∧
      replay tieredOptions ([.memtables 2 [1],
        .flush (LeveledCompactionController.spanTable 1 [10] [20])] : List (Transition ℕ)) = .ok r ∧
      s.l0Sstables = [] ∧ s.levels = [(1, [1])] ∧ r.state.l0Sstables = [1] ∧ r.state.levels = [] := by
  refine ⟨?_, ?_⟩
  · have hfinal : (afterTransitions (fun _ _ => True) leveledOptions (twoCompactions [5] [6])).map
        (fun s => (s.levels, decide (s.SortedLevel [2, 5]))) = some ([(1, [5, 2])], false) := by
      decide +kernel
    obtain ⟨s, hs, hsummary⟩ := Option.map_eq_some_iff.mp hfinal
    obtain ⟨hlevels, hsorted⟩ := Prod.mk.inj hsummary
    have hreplay : (replay leveledOptions (twoCompactions [5] [6])).toOption.map
        (fun r => r.state.levels) = some [(1, [2, 5])] := by
      decide +kernel
    obtain ⟨r, hr, hlists⟩ := Option.map_eq_some_iff.mp hreplay
    exact ⟨s, r, run_of_afterTransitions hs, by
      cases h : replay leveledOptions (twoCompactions [5] [6]) <;> rw [h] at hr <;> cases hr
      rfl, hlevels, hlists, of_decide_eq_false hsorted⟩
  · have hfinal : (afterTransitions (fun _ _ => True) tieredOptions [.memtables 2 [1],
        .flush (LeveledCompactionController.spanTable 1 [10] [20])]).map
        (fun s => (s.l0Sstables, s.levels)) = some ([], [(1, [1])]) := by
      decide +kernel
    obtain ⟨s, hs, hsummary⟩ := Option.map_eq_some_iff.mp hfinal
    obtain ⟨hl0, hlevels⟩ := Prod.mk.inj hsummary
    exact ⟨s, _, run_of_afterTransitions hs, rfl, hl0, hlevels, rfl, rfl⟩

end

end TinyLsm

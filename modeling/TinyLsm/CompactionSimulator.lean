import TinyLsm.Compact.Install
import TinyLsm.Compact.SimpleConverges

/-!
# The compaction simulator (`bin/compaction-simulator.rs`)

The simulator flushes tables without content into a tree and runs the controller after every flush
until there is no task.  It panics when that takes `max_levels * 2` compactions.

`Sound` is the invariant of its tree.  `mainSimple_ok` is the main result on `main`: the simulator
of simple leveled compaction does not panic.
-/

namespace TinyLsm

/-- The tree, without the counters for the statistics. -/
structure MockStorage where
  snapshot : LsmStorageState MemTable
  nextSstId : ℕ
  /-- `HashMap<usize, usize>`: the table from which a table was made. -/
  fileList : AList fun _ : ℕ => ℕ

namespace MockStorage

/-- Nothing was flushed. -/
def new : MockStorage where
  snapshot :=
    { memtable := MemTable.create 0
      immMemtables := []
      l0Sstables := []
      levels := []
      sstables := ∅ }
  nextSstId := 1
  fileList := ∅

/-- `generate_sst_id`. -/
def generateSstId (storage : MockStorage) : ℕ × MockStorage :=
  (storage.nextSstId, { storage with nextSstId := storage.nextSstId + 1 })

/-- `flush_sst_to_l0`. -/
def flushSstToL0 (storage : MockStorage) : MockStorage :=
  let generated := storage.generateSstId
  let snapshot := generated.2.snapshot
  { generated.2 with
    snapshot := { snapshot with l0Sstables := snapshot.l0Sstables ++ [generated.1] }
    fileList := generated.2.fileList.insert generated.1 generated.1 }

/-- Remove files, each of which has to be there. -/
def remove : List ℕ → MockStorage → Outcome MockStorage
  | [], storage => .ok storage
  | fileId :: filesToRemove, storage =>
    if fileId ∈ storage.fileList then
      remove filesToRemove { storage with fileList := storage.fileList.erase fileId }
    else .error (.panic s!"failed to remove file {fileId}")

/-- The loop of `main` that makes a table for every input of a task. -/
def writeFiles : List ℕ → MockStorage → List ℕ × MockStorage
  | [], storage => ([], storage)
  | file :: files, storage =>
    let generated := storage.generateSstId
    let written := writeFiles files
      { generated.2 with fileList := generated.2.fileList.insert generated.1 file }
    (generated.1 :: written.1, written.2)

/-- One compaction of the loop of `main`. -/
def compactSimple (storage : MockStorage) (task : SimpleLeveledCompactionTask) :
    Outcome MockStorage := do
  let written := storage.writeFiles (task.upperLevelSstIds ++ task.lowerLevelSstIds)
  let applied ← SimpleLeveledCompactionController.applyCompactionResult written.2.snapshot task written.1
  remove applied.2 { written.2 with snapshot := applied.1 }

/-- The loop of `main` after a flush. -/
def compactSimpleLoop (options : SimpleLeveledCompactionOptions) (storage : MockStorage)
    (numCompactions : ℕ) : Outcome MockStorage := do
  match ← SimpleLeveledCompactionController.generateCompactionTask options storage.snapshot with
  | none => return storage
  | some task =>
    let storage ← storage.compactSimple task
    if _h : numCompactions + 1 ≥ options.maxLevels * 2 then
      .error (.panic "compaction does not converge?")
    else compactSimpleLoop options storage (numCompactions + 1)
termination_by options.maxLevels * 2 - numCompactions

/-- The empty tree of `main`. -/
def newLeveled (maxLevels : ℕ) : MockStorage :=
  { new with
    snapshot := { new.snapshot with levels := (List.range maxLevels).map fun i => (i + 1, []) } }

/-- `main`, with `Args::Simple`. -/
def mainSimple (options : SimpleLeveledCompactionOptions) (iterations : ℕ) : Outcome MockStorage :=
  (List.range iterations).foldlM (fun storage _ => compactSimpleLoop options storage.flushSstToL0 0)
    (newLeveled options.maxLevels)

/-! ## What the operations do -/

/-- The new tables have the next ids. -/
theorem writeFiles_spec (files : List ℕ) (storage : MockStorage) :
    (writeFiles files storage).1 = List.range' storage.nextSstId files.length ∧
      (writeFiles files storage).2.snapshot = storage.snapshot ∧
      (writeFiles files storage).2.nextSstId = storage.nextSstId + files.length ∧
      ∀ id, id ∈ (writeFiles files storage).2.fileList ↔
        id ∈ storage.fileList ∨ id ∈ (writeFiles files storage).1 := by
  induction files generalizing storage with
  | nil => simp [writeFiles]
  | cons file files ih =>
    obtain ⟨hids, hsnapshot, hnext, hmem⟩ := ih
      { storage with
        nextSstId := storage.nextSstId + 1
        fileList := storage.fileList.insert storage.nextSstId file }
    simp only [writeFiles, generateSstId]
    refine ⟨?_, hsnapshot, ?_, fun id => ?_⟩
    · rw [hids]
      rfl
    · rw [hnext, List.length_cons]
      exact Nat.add_right_comm storage.nextSstId 1 files.length
    · rw [hmem, AList.mem_insert, List.mem_cons]
      tauto

/-- Distinct files that are there can be removed. -/
theorem remove_spec {files : List ℕ} (hnodup : files.Nodup) (storage : MockStorage)
    (hmem : ∀ id ∈ files, id ∈ storage.fileList) :
    ∃ storage', remove files storage = .ok storage' ∧ storage'.snapshot = storage.snapshot ∧
      storage'.nextSstId = storage.nextSstId ∧
      ∀ id, id ∈ storage'.fileList ↔ id ∈ storage.fileList ∧ id ∉ files := by
  induction files generalizing storage with
  | nil => exact ⟨storage, rfl, rfl, rfl, by simp⟩
  | cons file files ih =>
    rw [List.nodup_cons] at hnodup
    rw [List.forall_mem_cons] at hmem
    obtain ⟨storage', hremove, hsnapshot, hnext, hmem'⟩ :=
      ih hnodup.2 { storage with fileList := storage.fileList.erase file } fun id hid =>
        AList.mem_erase.mpr ⟨fun heq => hnodup.1 (heq ▸ hid), hmem.2 id hid⟩
    refine ⟨storage', ?_, hsnapshot, hnext, fun id => ?_⟩
    · rw [remove, if_pos hmem.1]
      exact hremove
    · rw [hmem' id, AList.mem_erase, List.mem_cons]
      tauto

/-! ## The invariant -/

open SimpleLeveledCompactionController

variable {options : SimpleLeveledCompactionOptions} {storage : MockStorage}

/-- The listed tables are distinct and known, and the next id is not among them. -/
structure Sound (options : SimpleLeveledCompactionOptions) (storage : MockStorage) : Prop where
  labelled : Labelled storage.snapshot.levels
  length : storage.snapshot.levels.length = options.maxLevels
  nodup : storage.snapshot.listedIds.Nodup
  listed : ∀ id ∈ storage.snapshot.listedIds, id < storage.nextSstId ∧ id ∈ storage.fileList

theorem mem_newLeveled {maxLevels : ℕ} {level : ℕ × List ℕ}
    (h : level ∈ (newLeveled maxLevels).snapshot.levels) : level.2 = [] := by
  obtain ⟨i, -, rfl⟩ := List.mem_map.mp h
  rfl

theorem sound_newLeveled (options : SimpleLeveledCompactionOptions) :
    Sound options (newLeveled options.maxLevels) := by
  have hlisted : (newLeveled options.maxLevels).snapshot.listedIds = [] := by
    refine List.append_eq_nil_iff.mpr ⟨rfl, List.flatten_eq_nil_iff.mpr fun ids hids => ?_⟩
    obtain ⟨level, hlevel, rfl⟩ := List.mem_map.mp hids
    exact mem_newLeveled hlevel
  refine ⟨labelled_range _, by simp [newLeveled], ?_, ?_⟩
  · rw [hlisted]
    exact List.nodup_nil
  · simp [hlisted]

/-- The empty tree has no task. -/
theorem newLeveled_quiescent (htrigger : 1 ≤ options.level0FileNumCompactionTrigger)
    (hmax : 1 ≤ options.maxLevels) :
    generateCompactionTask options (newLeveled options.maxLevels).snapshot = .ok none := by
  refine generateCompactionTask_eq_none_iff.mpr ⟨htrigger, ?_, ?_⟩
  · rw [← List.length_pos_iff, newLeveled, List.length_map, List.length_range]
    exact hmax
  · refine List.isChain_iff_forall_rel_of_append_cons_cons.mpr fun upper lower above below heq => ?_
    have hupper : upper ∈ (newLeveled options.maxLevels).snapshot.levels := by
      rw [heq]
      simp
    exact inRatio_of_empty options lower (mem_newLeveled hupper)

theorem Sound.flush (h : Sound options storage) : Sound options storage.flushSstToL0 where
  labelled := h.labelled
  length := h.length
  nodup := by
    have hnew : storage.nextSstId ∉ storage.snapshot.listedIds :=
      fun hmem => (h.listed _ hmem).1.ne rfl
    have hcons := List.nodup_cons.mpr ⟨hnew, h.nodup⟩
    refine (List.Perm.nodup_iff ?_).mp hcons
    simp only [flushSstToL0, generateSstId, LsmStorageState.listedIds, List.append_assoc]
    exact List.perm_middle.symm
  listed := by
    intro id hid
    have hid' : id ∈ storage.snapshot.listedIds ∨ id = storage.nextSstId := by
      simp only [flushSstToL0, generateSstId, LsmStorageState.listedIds, List.mem_append,
        List.mem_singleton] at hid ⊢
      tauto
    show id < storage.nextSstId + 1 ∧ id ∈ storage.fileList.insert storage.nextSstId storage.nextSstId
    rw [AList.mem_insert]
    rcases hid' with hid' | rfl
    · exact ⟨(h.listed id hid').1.trans (Nat.lt_succ_self _), Or.inr (h.listed id hid').2⟩
    · exact ⟨Nat.lt_succ_self _, Or.inl rfl⟩

/-- **One compaction**: it does not panic, and it is a turn of the loop. -/
theorem Sound.compact (h : Sound options storage) {task : SimpleLeveledCompactionTask}
    (htask : generateCompactionTask options storage.snapshot = .ok (some task)) :
    ∃ storage', storage.compactSimple task = .ok storage' ∧ Sound options storage' ∧
      ∃ output, Compacts options storage.snapshot output storage'.snapshot := by
  have hpicked : CompactionTask.Picked storage.snapshot (.simple task) :=
    (generateCompactionTask_spec h.labelled htask).1
  have hinputs : (task.upperLevelSstIds ++ task.lowerLevelSstIds).Sublist storage.snapshot.listedIds :=
    hpicked.sublist
  obtain ⟨hids, hsnapshot, hnext, hfiles⟩ :=
    writeFiles_spec (task.upperLevelSstIds ++ task.lowerLevelSstIds) storage
  rw [compactSimple]
  generalize storage.writeFiles (task.upperLevelSstIds ++ task.lowerLevelSstIds) = written
    at hids hsnapshot hnext hfiles ⊢
  obtain ⟨levels', happly, hinstalled, -, -⟩ :=
    applyCompactionResult_spec h.labelled h.nodup hpicked (fun _ => id) written.1
  obtain ⟨storage', hremove, hsnapshot', hnext', hfiles'⟩ := remove_spec (hinputs.nodup h.nodup)
    { written.2 with
      snapshot := { storage.snapshot with
        l0Sstables := storage.snapshot.l0Sstables.filter
          (· ∉ task.upperLevelSstIds ++ task.lowerLevelSstIds)
        levels := levels' } }
    fun id hid => (hfiles id).mpr (Or.inl (h.listed id (hinputs.subset hid)).2)
  have hperm : storage'.snapshot.listedIds.Perm (storage.snapshot.listedIds.filter
      (· ∉ task.upperLevelSstIds ++ task.lowerLevelSstIds) ++ written.1) := by
    rw [hsnapshot']
    exact hinstalled.listed_perm rfl h.labelled.nodup (CompactionController.mem_labels_of_picked hpicked _ rfl)
  refine ⟨storage', ?_, ⟨?_, ?_, ?_, ?_⟩, written.1, task,
    task.upperLevelSstIds ++ task.lowerLevelSstIds, htask, ?_⟩
  · rw [hsnapshot, happly]
    exact hremove
  · rw [hsnapshot']
    exact h.labelled.congr hinstalled.labels
  · rw [hsnapshot', ← h.length]
    exact hinstalled.length_eq.symm
  · -- The new ids are the next ones.
    rw [hperm.nodup_iff, List.nodup_append]
    refine ⟨h.nodup.filter _, hids ▸ List.nodup_range', ?_⟩
    rintro id hid _ hnew rfl
    have hlt := (h.listed id (List.mem_of_mem_filter hid)).1
    rw [hids, List.mem_range'_1] at hnew
    omega
  · intro id hid
    rw [hnext', hfiles' id]
    show id < written.2.nextSstId ∧ id ∈ written.2.fileList ∧ _
    rw [hnext, hfiles id]
    rcases List.mem_append.mp (hperm.subset hid) with hold | hnew
    · obtain ⟨hlisted, hnot⟩ := List.mem_filter.mp hold
      obtain ⟨hlt, hmem⟩ := h.listed id hlisted
      exact ⟨by omega, Or.inl hmem, by simpa using hnot⟩
    · refine ⟨?_, Or.inr hnew, fun hin => ?_⟩
      · rw [hids, List.mem_range'_1] at hnew
        exact hnew.2
      · have hlt := (h.listed id (hinputs.subset hin)).1
        rw [hids, List.mem_range'_1] at hnew
        omega
  · rw [hsnapshot']
    exact happly

/-! ## The loop -/

/-- **The loop after a flush ends below the limit.** -/
theorem Sound.compactSimpleLoop {n numCompactions : ℕ}
    (htrigger : 1 ≤ options.level0FileNumCompactionTrigger) (hmax : 1 ≤ options.maxLevels)
    (h : Sound options storage) (hsettling : Settling options n storage.snapshot)
    (hcount : numCompactions + n ≤ options.maxLevels) :
    ∃ storage', compactSimpleLoop options storage numCompactions = .ok storage' ∧
      Sound options storage' ∧ generateCompactionTask options storage'.snapshot = .ok none := by
  induction n using Nat.strong_induction_on generalizing storage numCompactions with
  | h n ih =>
    have hlevels : storage.snapshot.levels ≠ [] := by
      rw [← List.length_pos_iff, h.length]
      exact hmax
    rcases continues options h.labelled hlevels with hnone | ⟨task, htask, -⟩
    · refine ⟨storage, ?_, h, hnone⟩
      rw [MockStorage.compactSimpleLoop, hnone]
      rfl
    · obtain ⟨storage₁, hcompact, hsound, output, hstep⟩ := h.compact htask
      obtain ⟨m, hlt, hsettling'⟩ := hsettling.step htrigger h.labelled hstep
      obtain ⟨storage', hloop, hsound'⟩ :=
        ih m hlt hsound hsettling' (show numCompactions + 1 + m ≤ options.maxLevels by omega)
      refine ⟨storage', ?_, hsound'⟩
      rw [MockStorage.compactSimpleLoop, htask]
      simp only [bind, Except.bind, hcompact]
      rw [dif_neg (by omega)]
      exact hloop

/-- **The simulator of simple leveled compaction does not panic.** -/
theorem mainSimple_ok (htrigger : 1 ≤ options.level0FileNumCompactionTrigger)
    (hmax : 1 ≤ options.maxLevels) (iterations : ℕ) :
    ∃ storage, mainSimple options iterations = .ok storage ∧ Sound options storage ∧
      generateCompactionTask options storage.snapshot = .ok none := by
  unfold mainSimple
  induction iterations with
  | zero => exact ⟨_, rfl, sound_newLeveled options, newLeveled_quiescent htrigger hmax⟩
  | succ n ih =>
    obtain ⟨storage, hrun, hsound, hnone⟩ := ih
    have hsettling : Settling options options.maxLevels storage.flushSstToL0.snapshot := by
      rw [← hsound.length]
      exact settling_of_flush hnone ⟨rfl, storage.nextSstId, List.perm_append_singleton _ _⟩
    obtain ⟨storage', hloop, hsound'⟩ :=
      hsound.flush.compactSimpleLoop htrigger hmax hsettling (Nat.zero_add _).le
    refine ⟨storage', ?_, hsound'⟩
    rw [List.range_succ, List.foldlM_append, hrun]
    simp only [bind, Except.bind, List.foldlM_cons, hloop]
    rfl

end MockStorage

namespace SimpleLeveledCompactionController

/-- **Simple leveled compaction converges**, whatever tables the compactions write: from every state
the loop ends, after a flush onto a state without a task it ends within one turn a level, and the
simulator, which allows for two, does not panic. -/
theorem converges {M : Type} (options : SimpleLeveledCompactionOptions) (hmax : 1 ≤ options.maxLevels)
    (htrigger : 1 ≤ options.level0FileNumCompactionTrigger) :
    (∀ s : LsmStorageState M, Labelled s.levels → s.levels.length = options.maxLevels →
      EndsWithin options (options.maxLevels * (options.maxLevels + 1) / 2) s) ∧
    (∀ s₀ s : LsmStorageState M, Labelled s₀.levels → s₀.levels.length = options.maxLevels →
      generateCompactionTask options s₀ = .ok none → FlushedToL0 s₀ s →
      EndsWithin options options.maxLevels s) ∧
    ∀ iterations, ∃ storage, MockStorage.mainSimple options iterations = .ok storage := by
  have hlevels : ∀ s : LsmStorageState M, s.levels.length = options.maxLevels → s.levels ≠ [] := by
    intro s hlength
    rw [← List.length_pos_iff, hlength]
    exact hmax
  refine ⟨fun s hlabels hlength => ?_, fun s₀ s hlabels hlength hnone hflush => ?_, fun iterations => ?_⟩
  · rw [← hlength]
    exact (endsWithin_potential htrigger hlabels (hlevels s hlength)).mono (potential_le options s)
  · have hsettling := settling_of_flush hnone hflush
    rw [hlength] at hsettling
    rw [← hflush.1] at hlabels hlength
    exact hsettling.endsWithin htrigger hlabels (hlevels s hlength)
  · obtain ⟨storage, hrun, -⟩ := MockStorage.mainSimple_ok htrigger hmax iterations
    exact ⟨storage, hrun⟩

/-- Two levels, the upper one of which has too many tables, and a full L0. -/
theorem converges_two :
    EndsWithin ⟨200, 2, 2⟩ 3 (⟨0, [], [5, 4], [(1, [2, 3]), (2, [1])], ∅⟩ : LsmStorageState ℕ) ∧
      ∃ storage, MockStorage.mainSimple ⟨200, 2, 2⟩ 50 = .ok storage := by
  obtain ⟨hends, -, hmain⟩ := converges (M := ℕ) ⟨200, 2, 2⟩ (by decide) (by decide)
  exact ⟨hends _ rfl rfl, hmain 50⟩

end SimpleLeveledCompactionController

end TinyLsm

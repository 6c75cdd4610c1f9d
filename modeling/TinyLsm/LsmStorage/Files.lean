import TinyLsm.LsmStorage.Contents

/-!
# The directory of a running store

A flush and a compaction write the file of a table before they list it, and a compaction removes the
files of its inputs after it has installed its output.  `run_directory`: after every run of calls that
returned, the table files in the directory are those of the listed tables, byte for byte, and no table
is in the map that is not listed.
-/

namespace TinyLsm

/-! ## Maps by table id -/

section

variable {β : Type}

/-- The last one of some tables with an id. -/
def lastWith (ssts : List SsTable) (id : ℕ) : Option SsTable := ssts.reverse.find? fun t => t.id = id

theorem lookup_foldl_insert (f : SsTable → β) (ssts : List SsTable) (m : AList fun _ : ℕ => β) (id : ℕ) :
    (ssts.foldl (fun m t => m.insert t.id (f t)) m).lookup id =
      ((lastWith ssts id).map f).or (m.lookup id) := by
  induction ssts generalizing m with
  | nil => rfl
  | cons t ssts ih =>
    rw [List.foldl_cons, ih]
    unfold lastWith
    rw [List.reverse_cons, List.find?_append]
    by_cases hid : id = t.id
    · subst hid
      rw [AList.lookup_insert]
      cases List.find? (fun u => decide (u.id = t.id)) ssts.reverse <;> simp
    · rw [AList.lookup_insert_ne hid]
      cases List.find? (fun u => decide (u.id = id)) ssts.reverse <;> simp [Ne.symm hid]

theorem lookup_foldl_erase (ids : List ℕ) (m : AList fun _ : ℕ => β) (id : ℕ) :
    (ids.foldl (fun m id => m.erase id) m).lookup id = if id ∈ ids then none else m.lookup id := by
  induction ids generalizing m with
  | nil => simp
  | cons a ids ih =>
    rw [List.foldl_cons, ih]
    by_cases ha : id = a
    · subst ha
      simp [AList.lookup_erase]
    · simp [AList.lookup_erase_ne ha, ha]

theorem lookup_insertTables (ssts : List SsTable) (m : SstMap) (id : ℕ) :
    (LsmStorageInner.insertTables ssts m).lookup id = (lastWith ssts id).or (m.lookup id) := by
  have h := lookup_foldl_insert (fun t => t) ssts m id
  rwa [Option.map_id'] at h

theorem lastWith_isSome_iff {ssts : List SsTable} {id : ℕ} :
    (lastWith ssts id).isSome = true ↔ id ∈ ssts.map SsTable.id := by
  unfold lastWith
  simp [List.find?_isSome]

theorem mem_of_lastWith {ssts : List SsTable} {id : ℕ} {t : SsTable} (h : lastWith ssts id = some t) :
    t ∈ ssts ∧ t.id = id :=
  ⟨List.mem_reverse.mp (List.mem_of_find?_eq_some h),
    of_decide_eq_true (List.find?_some (p := fun t : SsTable => decide (t.id = id)) h)⟩

end

/-- The files that a compaction has written. -/
theorem Wrote.files [Platform] {blockSize : ℕ} {p p' : Disk × ℕ} {cs : List (List Entry)}
    {ssts : List SsTable} (h : Wrote blockSize p cs ssts p') :
    p'.1.ssts = ssts.foldl (fun m t => m.insert t.id t.file) p.1.ssts ∧
      p'.1.manifest = p.1.manifest ∧ p'.1.wals = p.1.wals := by
  induction h with
  | nil _ => exact ⟨rfl, rfl, rfl⟩
  | @cons d d₁ id c cs t ts p hbuild hssts hmanifest hwals _ ih =>
    obtain ⟨hfiles, hmanifest', hwals'⟩ := ih
    refine ⟨?_, hmanifest'.trans hmanifest, hwals'.trans hwals⟩
    rw [hfiles, List.foldl_cons, SsTable.ofEntries_id hbuild, show (d₁, id + 1).1.ssts = _ from hssts]

namespace LsmStorageInner

open LsmStorageState

variable [Platform] {options : LsmStorageOptions} {e₀ e e' : LsmStorageInner}
  {contents : ℕ → List Entry} {task : CompactionTask} {op : Op} {ops : List Op}

/-! ## The invariant -/

/-- The engine is settled, its map holds the listed tables and no other one, each of them was built
from its contents, and the directory has their files and no other one. -/
structure Housed (options : LsmStorageOptions) (contents : ℕ → List Entry) (e : LsmStorageInner) :
    Prop where
  settled : e.Settled options contents
  listed : ∀ id, (e.state.sstables.lookup id).isSome = true ↔ id ∈ e.state.listedIds
  built : ∀ id t, e.state.sstables.lookup id = some t →
    SsTable.ofEntries e.options.blockSize id (contents id) = .ok t
  files : ∀ id, e.disk.ssts.lookup id = (e.state.sstables.lookup id).map SsTable.file

/-- A step that leaves the tables and their files alone. -/
theorem Housed.congr (h : e.Housed options contents) (hsettled : e'.Settled options contents)
    (hoptions : e'.options = e.options) (hlisted : e'.state.listedIds = e.state.listedIds)
    (hmap : e'.state.sstables = e.state.sstables) (hssts : e'.disk.ssts = e.disk.ssts) :
    e'.Housed options contents where
  settled := hsettled
  listed := by
    rw [hmap, hlisted]
    exact h.listed
  built := by
    rw [hmap, hoptions]
    exact h.built
  files := by
    rw [hmap, hssts]
    exact h.files

theorem Housed.freeze {m : MemTable} (h : e.Housed options contents) (hfroze : Froze e e' m) :
    e'.Housed options contents :=
  h.congr (h.settled.freeze hfroze) hfroze.options (by rw [hfroze.state]; rfl)
    (by rw [hfroze.state]) hfroze.ssts

theorem Housed.writeBatch {batch : List WriteBatchRecord} (h : e.Housed options contents)
    (hfits : (Op.writeBatch batch).Fits) (hstep : Step e (.writeBatch batch) e') :
    e'.Housed options contents := by
  have hsettled := h.settled.writeBatch hfits hstep
  obtain ⟨ts, d, e₁, -, hlogged, hfreeze, rfl⟩ := writeBatch_ok hstep
  rcases tryFreeze_ok hfreeze with rfl | ⟨-, m, hfroze⟩
  · exact h.congr hsettled rfl rfl rfl hlogged.ssts
  · exact h.congr hsettled hfroze.options (by rw [hfroze.state]; rfl) (by rw [hfroze.state]; rfl)
      (hfroze.ssts.trans hlogged.ssts)

theorem Housed.flush {m : MemTable} {builder : SsTableBuilder} (h : e.Housed options contents)
    (hflushed : Flushed e e' m builder) : e'.Housed options (withTable contents m) where
  settled := h.settled.flush hflushed
  listed id := by
    rw [hflushed.sstables, hflushed.listed.mem_iff, List.mem_cons]
    by_cases hid : id = m.id
    · subst hid
      simp [AList.lookup_insert]
    · rw [AList.lookup_insert_ne hid, h.listed, or_iff_right hid]
  built id t ht := by
    rw [hflushed.sstables] at ht
    rw [hflushed.options]
    by_cases hid : id = m.id
    · subst hid
      rw [AList.lookup_insert] at ht
      rw [withTable_self, ← Option.some.inj ht]
      exact hflushed.built_flushed
    · rw [AList.lookup_insert_ne hid] at ht
      rw [withTable_of_ne hid]
      exact h.built id t ht
  files id := by
    rw [hflushed.sstables, hflushed.ssts]
    by_cases hid : id = m.id
    · subst hid
      rw [AList.lookup_insert, AList.lookup_insert]
      rfl
    · rw [AList.lookup_insert_ne hid, AList.lookup_insert_ne hid]
      exact h.files id

/-! ## Compactions -/

/-- What a compaction has done to the map and to the directory. -/
structure Swapped (e e' : LsmStorageInner) (task : CompactionTask) (ssts : List SsTable) : Prop where
  sstables : ∀ id, e'.state.sstables.lookup id =
    if id ∈ task.inputIds then none else (lastWith ssts id).or (e.state.sstables.lookup id)
  files : ∀ id, e'.disk.ssts.lookup id = if id ∈ task.inputIds then none
    else ((lastWith ssts id).map SsTable.file).or (e.disk.ssts.lookup id)
  manifest : e'.disk.manifest = e.disk.manifest
  wals : e'.disk.wals = e.disk.wals

/-- The files of the output are written and those of the inputs removed. -/
theorem files_of_compact {d d' : Disk} {next : ℕ} {ssts : List SsTable} {ids : List ℕ}
    (hcompact : (TinyLsm.compact e.options e.state task).exec (e.disk, e.nextSstId) =
      (.ok ssts, (d, next))) (hssts : d'.ssts = ids.foldl (fun m id => m.erase id) d.ssts) (id : ℕ) :
    d'.ssts.lookup id = (if id ∈ ids then none
      else ((lastWith ssts id).map SsTable.file).or (e.disk.ssts.lookup id)) ∧
      d.manifest = e.disk.manifest ∧ d.wals = e.disk.wals := by
  obtain ⟨l, -, hwrote⟩ := compact_streams hcompact
  obtain ⟨hfiles, hmanifest, hwals⟩ := hwrote.files
  refine ⟨?_, hmanifest, hwals⟩
  rw [hssts, lookup_foldl_erase, show d.ssts = _ from hfiles, lookup_foldl_insert]

theorem Compacted.swapped {output : List SsTable} {s : LsmStorageState MemTable} {removed : List ℕ}
    (h : Compacted e e' task output s removed) (hs : e.Settled options contents) :
    Swapped e e' task output := by
  obtain rfl := h.removed_eq hs.steady hs.laid hs.tiers
  obtain ⟨d, hcompact, hssts, hmanifest, hwals⟩ := h.compact
  have hframe := CompactionController.applyCompactionResult_frame h.apply
  refine ⟨fun id => ?_, fun id => (files_of_compact hcompact hssts id).1, ?_, ?_⟩
  · rw [h.state]
    change (eraseTables _ s.sstables).lookup id = _
    rw [lookup_eraseTables, hframe]
    exact if_congr Iff.rfl rfl (lookup_insertTables _ _ _)
  · exact hmanifest.trans (files_of_compact hcompact hssts 0).2.1
  · exact hwals.trans (files_of_compact hcompact hssts 0).2.2

theorem FullyCompacted.swapped {level₁ : ℕ × List ℕ} {newSsts : List SsTable}
    (h : FullyCompacted e e' level₁ newSsts) (hs : e.Settled options contents) :
    Swapped e e' (.forceFullCompaction e.state.l0Sstables level₁.2) newSsts := by
  obtain ⟨d, hcompact, hssts, hmanifest, hwals⟩ := h.compact
  obtain ⟨cs, hrep⟩ := h.replaced hs.laid
  refine ⟨fun id => ?_, fun id => (files_of_compact hcompact hssts id).1,
    hmanifest.trans (files_of_compact hcompact hssts 0).2.1,
    hwals.trans (files_of_compact hcompact hssts 0).2.2⟩
  rw [h.state]
  change (insertTables newSsts (eraseTables (CompactionTask.forceFullCompaction _ _).inputIds _)).lookup id = _
  rw [lookup_insertTables, lookup_eraseTables]
  split
  · rename_i hid
    -- an input is older than every new table
    have hnew : id ∉ newSsts.map SsTable.id := by
      rw [hrep.ids]
      intro hmem
      have hlt := hs.laid.ids id (List.mem_append_right _ (hrep.inputs.subset hid))
      exact absurd (List.left_le_of_mem_range' hmem) (not_le.mpr hlt)
    rw [Option.or_none]
    exact Option.not_isSome_iff_eq_none.mp fun h => hnew (lastWith_isSome_iff.mp h)
  · rfl

/-- The task that a call runs. -/
def Op.Runs (e : LsmStorageInner) : Op → CompactionTask → Prop
  | .compact, task => e.compactionController.generateCompactionTask e.state = .ok (some task)
  | .fullCompact, task => ∃ level₁, e.state.levels[0]? = some level₁ ∧
      task = .forceFullCompaction e.state.l0Sstables level₁.2
  | _, _ => False

/-- What the calls do that run a task, to the engine and to its files. -/
theorem Settled.replaced (h : e.Settled options contents) (hruns : op.Runs e task)
    (hstep : Step e op e') : ∃ ssts cs, Replaced e e' task ssts cs ∧ Swapped e e' task ssts ∧
      e'.Settled options (withChunks contents e.nextSstId cs) := by
  have hlaid := h.laid.step hstep
  cases op with
  | writeBatch batch => exact hruns.elim
  | freeze => exact hruns.elim
  | flush => exact hruns.elim
  | compact =>
    have hgenerated : e.compactionController.generateCompactionTask e.state = .ok (some task) := hruns
    rcases triggerCompaction_ok hstep with ⟨hnone, -⟩ | ⟨task', output, s, removed, hcompacted⟩
    · rw [hgenerated] at hnone
      cases hnone
    · obtain rfl := Option.some.inj (Except.ok.inj (hgenerated.symm.trans hcompacted.generated))
      obtain ⟨cs, hrep, hsteady, htiers⟩ := hcompacted.steady h.steady h.laid h.tiers
      exact ⟨output, cs, hrep, hcompacted.swapped h, hlaid, hsteady, htiers⟩
  | fullCompact =>
    obtain ⟨level₁, newSsts, hcompacted⟩ := forceFullCompaction_ok hstep
    obtain ⟨level, hlevel, rfl⟩ := hruns
    obtain rfl := Option.some.inj (hlevel.symm.trans hcompacted.level)
    obtain ⟨cs, hrep, hsteady, htiers⟩ := hcompacted.steadied h.steady h.laid h.tiers
    exact ⟨newSsts, cs, hrep, hcompacted.swapped h, hlaid, hsteady, htiers⟩

theorem Housed.swap {ssts : List SsTable} {cs : List (List Entry)} (h : e.Housed options contents)
    (hrep : Replaced e e' task ssts cs) (hswap : Swapped e e' task ssts)
    (hsettled : e'.Settled options (withChunks contents e.nextSstId cs)) :
    e'.Housed options (withChunks contents e.nextSstId cs) := by
  have hnew : ∀ id ∈ ssts.map SsTable.id, e.nextSstId ≤ id := by
    intro id hid
    rw [hrep.ids] at hid
    exact List.left_le_of_mem_range' hid
  have hold : ∀ id ∈ e.state.listedIds, id < e.nextSstId := fun id hid =>
    h.settled.laid.ids id (List.mem_append_right _ hid)
  refine ⟨hsettled, fun id => ?_, fun id t ht => ?_, fun id => ?_⟩
  · rw [hswap.sstables, hrep.listed.mem_iff, List.mem_append, List.mem_filter, decide_eq_true_iff]
    split
    · rename_i hid
      refine iff_of_false (by simp) ?_
      rintro (⟨-, hout⟩ | hmem)
      · exact hout hid
      · exact absurd (hnew id hmem) (not_le.mpr (hold id (hrep.inputs.subset hid)))
    · rename_i hid
      rw [Option.isSome_or, Bool.or_eq_true, lastWith_isSome_iff, h.listed, and_iff_left hid, or_comm]
  · rw [hswap.sstables] at ht
    rw [hrep.options]
    split at ht
    · cases ht
    · rcases Option.or_eq_some_iff.mp ht with hlast | ⟨-, ht⟩
      · obtain ⟨hmem, rfl⟩ := mem_of_lastWith hlast
        exact (hrep.exchanged h.settled.steady).merged.built t hmem
      · have hlt := hold id ((h.listed id).mp (by rw [ht]; rfl))
        rw [withChunks, if_pos hlt]
        exact h.built id t ht
  · rw [hswap.files, hswap.sstables, h.files]
    split
    · rfl
    · rw [Option.map_or]

/-! ## The run -/

theorem Fresh.housed (hblock : options.blockSize ≤ 65535) (hfresh : Fresh options e) :
    e.Housed options fun _ => [] := by
  obtain ⟨m, hnew⟩ := hfresh.isNew
  have hmap : e.state.sstables = ∅ := by
    rw [hnew.state]
    rfl
  have hlisted : e.state.listedIds = [] := by
    rw [hnew.state]
    exact listedIds_create options m
  refine ⟨hfresh.settled hblock, fun id => ?_, fun id t ht => ?_, fun id => ?_⟩
  · rw [hmap, hlisted, AList.lookup_empty]
    simp
  · rw [hmap, AList.lookup_empty] at ht
    cases ht
  · rw [hmap, hnew.ssts, AList.lookup_empty, AList.lookup_empty]
    rfl

/-- What is kept of the tables that have been: an old id that no memtable has is not taken by one, and
names the same contents. -/
structure KeepsOld (e e' : LsmStorageInner) (contents contents' : ℕ → List Entry) : Prop where
  nextSstId : e.nextSstId ≤ e'.nextSstId
  memtables : ∀ id < e.nextSstId, id ∉ e.state.memtables.map MemTable.id →
    id ∉ e'.state.memtables.map MemTable.id
  contents : ∀ id < e.nextSstId, id ∉ e.state.memtables.map MemTable.id → contents' id = contents id

omit [Platform] in
theorem KeepsOld.refl (e : LsmStorageInner) (contents : ℕ → List Entry) :
    KeepsOld e e contents contents := ⟨le_rfl, fun _ _ => id, fun _ _ _ => rfl⟩

omit [Platform] in
theorem Froze.keepsOld {m : MemTable} (h : Froze e e' m) : KeepsOld e e' contents contents := by
  refine ⟨by rw [h.nextSstId]; exact Nat.le_succ _, fun id hid hout => ?_, fun _ _ _ => rfl⟩
  rw [h.state]
  refine List.not_mem_cons_of_ne_of_not_mem ?_ hout
  rw [h.id]
  exact hid.ne

omit [Platform] in
theorem keepsOld_afterPut (data : List Entry) (d : Disk) (ts : UInt64) :
    KeepsOld e { e.afterPut data d with latestCommitTs := ts } contents contents := by
  refine ⟨le_rfl, fun id _ hout => ?_, fun _ _ _ => rfl⟩
  have hid : (e.state.memtable.insertAll data).id = e.state.memtable.id := MemTable.insertAll_id _ _
  simpa [LsmStorageState.memtables, LsmStorageInner.afterPut, LsmStorageInner.setMemtable, hid] using hout

/-- **One call.** -/
theorem Housed.step (h : e.Housed options contents) (hfits : op.Fits) (hstep : Step e op e') :
    ∃ contents', e'.Housed options contents' ∧ KeepsOld e e' contents contents' := by
  have hruns : ∀ task, op.Runs e task →
      ∃ contents', e'.Housed options contents' ∧ KeepsOld e e' contents contents' := by
    intro task hruns
    obtain ⟨ssts, cs, hrep, hswap, hsettled⟩ := h.settled.replaced hruns hstep
    refine ⟨_, h.swap hrep hswap hsettled, ?_, fun id _ hout => ?_, fun id hid _ => if_pos hid⟩
    · rw [hrep.nextSstId]
      exact Nat.le_add_right _ _
    · rwa [hrep.memtables]
  cases op with
  | writeBatch batch =>
    refine ⟨contents, h.writeBatch hfits hstep, ?_⟩
    obtain ⟨ts, d, e₁, -, -, hfreeze, rfl⟩ := writeBatch_ok hstep
    rcases tryFreeze_ok hfreeze with rfl | ⟨-, m, hfroze⟩
    · exact keepsOld_afterPut _ _ _
    · have hput : KeepsOld e (e.afterPut (batch.map (WriteBatchRecord.entry ts)) d) contents contents :=
        keepsOld_afterPut _ d e.latestCommitTs
      have hfreeze : KeepsOld _ e₁ contents contents := hfroze.keepsOld
      exact ⟨hput.nextSstId.trans hfreeze.nextSstId,
        fun id hid hout => hfreeze.memtables id hid (hput.memtables id hid hout), fun _ _ _ => rfl⟩
  | freeze =>
    obtain ⟨m, hfroze⟩ := forceFreezeMemtable_ok hstep
    exact ⟨contents, h.freeze hfroze, hfroze.keepsOld⟩
  | flush =>
    rcases forceFlushNextImmMemtable_ok hstep with ⟨-, rfl⟩ | ⟨m, builder, hflushed⟩
    · exact ⟨contents, h, KeepsOld.refl _ _⟩
    · refine ⟨_, h.flush hflushed, hflushed.nextSstId.ge, fun id _ hout => ?_, fun id _ hout => ?_⟩
      · rw [hflushed.memtables, List.map_append] at hout
        exact fun hin => hout (List.mem_append_left _ hin)
      · refine withTable_of_ne (fun hid => hout ?_) _
        rw [hflushed.memtables, hid]
        exact List.mem_map_of_mem (List.mem_append_right _ (List.mem_singleton_self m))
  | compact =>
    rcases triggerCompaction_ok hstep with ⟨-, rfl⟩ | ⟨task, output, s, removed, hcompacted⟩
    · exact ⟨contents, h, KeepsOld.refl _ _⟩
    · exact hruns task hcompacted.generated
  | fullCompact =>
    obtain ⟨level₁, newSsts, hcompacted⟩ := forceFullCompaction_ok hstep
    exact hruns _ ⟨level₁, hcompacted.level, rfl⟩

theorem RunOf.housed {C : LsmStorageInner → Op → Prop} (hblock : options.blockSize ≤ 65535)
    (hfresh : Fresh options e₀) (hC : ∀ e op, C e op → op.Fits) (hrun : RunOf C e₀ ops e) :
    ∃ contents, e.Housed options contents := by
  refine hrun.invariant (fun e => ∃ contents, e.Housed options contents) ?_ ⟨_, hfresh.housed hblock⟩
  rintro e op e' ⟨contents, h⟩ ⟨hop, hstep⟩
  obtain ⟨contents', h', -⟩ := h.step (hC e op hop) hstep
  exact ⟨contents', h'⟩

/-- **The directory of a running store**: after every run the table files are those of the listed
tables, and the tables in the map are the listed ones. -/
theorem run_directory (hblock : options.blockSize ≤ 65535) (hfresh : Fresh options e₀)
    (hrun : RunOf (fun _ op => op.Fits) e₀ ops e) (id : ℕ) :
    e.disk.ssts.lookup id = (e.state.sstables.lookup id).map SsTable.file ∧
      ((e.state.sstables.lookup id).isSome = true ↔ id ∈ e.state.listedIds) ∧
      ((e.disk.ssts.lookup id).isSome = true ↔ id ∈ e.state.listedIds) := by
  obtain ⟨contents, h⟩ := RunOf.housed hblock hfresh (fun _ _ hfits => hfits) hrun
  refine ⟨h.files id, h.listed id, ?_⟩
  rw [h.files, Option.isSome_map]
  exact h.listed id

end LsmStorageInner

section

attribute [local instance] shortKeyPlatform

namespace LsmStorageInner

/-- A put, a deletion of nothing, and their table. -/
def oneTable : List Op := [.writeBatch [.put [1] [7], .del [2]], .freeze, .flush]

/-- Blocks of four kilobytes, no compaction and no log. -/
def smallOptions : LsmStorageOptions := ⟨4096, 2 ^ 20, 50, .noCompaction, false⟩

theorem run_directory_small : ∃ e,
    afterCalls (oneTable ++ [.fullCompact]) (newStore smallOptions) = some e ∧
      e.disk.ssts.lookup 0 = none ∧ ∃ t, e.state.sstables.lookup 2 = some t ∧
        e.disk.ssts.lookup 2 = some t.file := by
  have hfinal : (afterCalls (oneTable ++ [.fullCompact]) (newStore smallOptions)).map
      (fun e => e.state.listedIds) = some [2] := by
    decide +kernel
  obtain ⟨e, he, hlisted⟩ := Option.map_eq_some_iff.mp hfinal
  have hfits : ∀ op ∈ oneTable ++ [.fullCompact], op.Fits := by
    simp [oneTable, Op.Fits, WriteBatchRecord.key, WriteBatchRecord.value]
  have hrun : RunOf (fun _ op => op.Fits) (newStore smallOptions) (oneTable ++ [.fullCompact]) e :=
    (run_of_afterCalls he).mono_of_mem fun op hop _ _ h => ⟨hfits op hop, h.2⟩
  have hdirectory := run_directory (by decide) (fresh_newStore smallOptions) hrun
  refine ⟨e, he, ?_, ?_⟩
  · obtain ⟨-, -, hiff⟩ := hdirectory 0
    rw [hlisted] at hiff
    exact Option.not_isSome_iff_eq_none.mp fun hsome => absurd (hiff.mp hsome) (by decide)
  · obtain ⟨hfile, hiff, -⟩ := hdirectory 2
    obtain ⟨t, ht⟩ := Option.isSome_iff_exists.mp (hiff.mpr (by rw [hlisted]; decide))
    exact ⟨t, ht, by rw [hfile, ht]; rfl⟩

end LsmStorageInner

end

end TinyLsm

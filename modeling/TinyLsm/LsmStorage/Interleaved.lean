import TinyLsm.LsmStorage.Threads
import TinyLsm.LsmStorage.Preserved

/-!
# Every interleaving

`Threads.Kept` is what the steps of a writer, a flusher and a compactor keep in any order, as long as the
compactor is not disturbed: the engine is settled, and stores what was written but for tombstones that a
compaction to the bottom has left out.

The engine is looked at as if the batch that is being written were committed (`Threads.ahead`): then
every step either leaves it as it is or does what a whole call does.
-/

namespace TinyLsm

open CompactionTask

namespace LsmStorageInner

open LsmStorageState

variable [Platform] {options : LsmStorageOptions} {e e' : LsmStorageInner}
  {contents contents' : ℕ → List Entry} {task : CompactionTask} {ssts : List SsTable} {m : MemTable}

/-! ## What a step does to the engine -/

/-- The state stays.  Ids may be used up, and the directory may have changed. -/
structure Idle (e e' : LsmStorageInner) : Prop where
  state : e'.state = e.state
  nextSstId : e.nextSstId ≤ e'.nextSstId
  latestCommitTs : e'.latestCommitTs = e.latestCommitTs
  options : e'.options = e.options

theorem Settled.idle (h : e.Settled options contents) (hidle : Idle e e') :
    e'.Settled options contents := by
  obtain ⟨hstate, hnext, hts, hoptions⟩ := hidle
  have hcontroller : e'.compactionController = e.compactionController := by
    unfold compactionController
    rw [hoptions]
  have hids : ∀ id ∈ e'.state.ids, id < e'.nextSstId := by
    rw [hstate]
    exact fun id hid => (h.laid.ids id hid).trans_le hnext
  refine ⟨⟨hoptions.trans h.laid.opts, ?_, hids, ?_, ?_⟩, ⟨?_, ?_, hids, ?_⟩, ?_⟩
  · rw [hstate]
    exact h.laid.nodup
  · rw [hstate]
    exact h.laid.labels
  · rw [hstate]
    exact h.laid.l0Sstables
  · rw [hstate]
    exact h.steady.state
  · rw [hoptions]
    exact h.steady.blockSize
  · rw [hstate, hts]
    exact h.steady.stamps
  · unfold HasNoEmptyTier
    rw [hcontroller, hstate]
    exact h.tiers

/-- A batch in the memtable, at a timestamp that counts as committed. -/
theorem Settled.put {batch : List WriteBatchRecord} {ts : UInt64} (h : e.Settled options contents)
    (hfits : (Op.writeBatch batch).Fits) (hnext : nextTs e.latestCommitTs = .ok ts) (d : Disk) :
    ({ e.afterPut (batch.map (WriteBatchRecord.entry ts)) d with
      latestCommitTs := ts } : LsmStorageInner).Settled options contents := by
  have hids := ids_afterPut e (batch.map (WriteBatchRecord.entry ts)) d
  refine ⟨⟨h.laid.opts, ?_, ?_, h.laid.labels, h.laid.l0Sstables⟩, (h.steady.put hfits hnext d).1, h.tiers⟩
  · change (e.afterPut _ d).state.ids.Nodup
    rw [hids]
    exact h.laid.nodup
  · change ∀ id ∈ (e.afterPut _ d).state.ids, id < e.nextSstId
    rw [hids]
    exact h.laid.ids

/-- An empty memtable with a new id is published. -/
theorem Settled.frozen (h : e.Settled options contents) (hempty : m.map = SkipMap.new)
    (hid : m.id ∉ e.state.ids) (hstate : e'.state = { e.state with
      memtable := m
      immMemtables := e.state.memtable :: e.state.immMemtables })
    (hnext : e.nextSstId ≤ e'.nextSstId) (hlt : m.id < e'.nextSstId)
    (hts : e'.latestCommitTs = e.latestCommitTs) (hoptions : e'.options = e.options) :
    e'.Settled options contents ∧
      ∀ x, e'.state.HasVersion contents x ↔ e.state.HasVersion contents x := by
  have hids : e'.state.ids = m.id :: e.state.ids := by
    rw [hstate]
    exact ids_frozenState e.state m
  have hconsistent : e'.state.Consistent contents := by
    rw [hstate]
    exact h.steady.state.frozenState hempty hid
  have hiff : ∀ x, e'.state.HasVersion contents x ↔ e.state.HasVersion contents x := by
    rw [hstate]
    exact fun x => hasVersion_frozenState hempty
  have hcontroller : e'.compactionController = e.compactionController := by
    unfold compactionController
    rw [hoptions]
  have hbound : ∀ id ∈ e'.state.ids, id < e'.nextSstId := by
    rw [hids]
    exact List.forall_mem_cons.mpr ⟨hlt, fun id hid => (h.laid.ids id hid).trans_le hnext⟩
  refine ⟨⟨⟨hoptions.trans h.laid.opts, hconsistent.nodup, hbound, ?_, ?_⟩, ⟨hconsistent, ?_, hbound, ?_⟩,
    ?_⟩, hiff⟩
  · rw [hstate]
    exact h.laid.labels
  · rw [hstate]
    exact h.laid.l0Sstables
  · rw [hoptions]
    exact h.steady.blockSize
  · intro x hx
    rw [hts]
    exact h.steady.stamps x ((hiff x).mp hx)
  · unfold HasNoEmptyTier
    rw [hcontroller, hstate]
    exact h.tiers

/-- The table of the oldest immutable memtable is published. -/
theorem Settled.publish {builder : SsTableBuilder} (h : e.Settled options contents)
    (hlast : e.state.immMemtables.getLast? = some m) (hkeys : m.KeysNonempty)
    (hflush : m.flush (SsTableBuilder.new e.options.blockSize) = .ok builder) :
    (e.publish (builder.build m.id)).Settled options (withTable contents m) ∧
      ∀ x, (e.publish (builder.build m.id)).state.HasVersion (withTable contents m) x ↔
        e.state.HasVersion contents x := by
  -- The directory plays no part, so that of a whole flush will do.
  have hflushed : Flushed e { e.publish (builder.build m.id) with
      disk := { e.disk with
        manifest := e.disk.manifest.map (· ++ [.flush m.id])
        ssts := e.disk.ssts.insert m.id (builder.build m.id).file } } m builder :=
    ⟨(List.dropLast_append_getLast? m hlast).symm, hflush, rfl, rfl, rfl, rfl, rfl, rfl, rfl, rfl, rfl, rfl⟩
  exact ⟨(h.flush hflushed).idle ⟨rfl, le_rfl, rfl, rfl⟩,
    fun x => hflushed.hasVersion_iff hkeys (hflushed.id_notMem h.laid.nodup)⟩

/-- The inputs of a planned task are merged; the tables of the output get contents. -/
theorem Settled.merge {s₀ : LsmStorageState MemTable} {flushed : List ℕ} {output : List SsTable}
    {d : Disk} {next : ℕ} (h : e.Settled options contents) (hplan : Planned e task s₀ flushed)
    (hcompact : (compact e.options e.state task).exec (e.disk, e.nextSstId) = (.ok output, (d, next))) :
    ∃ contents', e.Settled options contents' ∧
      (∀ x, e.state.HasVersion contents' x ↔ e.state.HasVersion contents x) ∧
      Merged contents' e task output ∧ (output.map SsTable.id).Nodup ∧
      ∀ id ∈ output.map SsTable.id, e.nextSstId ≤ id ∧ id < next := by
  obtain ⟨htaken, hinputs⟩ := hplan.taken h.laid
  obtain ⟨l, hl, hwrote⟩ := compact_streams hcompact
  obtain ⟨hids, -⟩ := hwrote.ids
  obtain ⟨hnodup, hnew, -⟩ := output_ids hcompact
  have hsame := Replaced.withChunks_eq h.steady (chunks e.options task.compactToBottomLevel none l)
  refine ⟨_, ⟨h.laid, h.steady.congr hsame, h.tiers⟩, fun x => ?_,
    merged_of_streams h.steady htaken hinputs hl rfl hwrote.built hids, hnodup, hnew⟩
  unfold HasVersion
  rw [containers_congr hsame]

/-! ## What a compaction knows that is under way -/

/-- L0, the levels and the tables stay. -/
structure SameTables (s s' : LsmStorageState MemTable) : Prop where
  l0Sstables : s'.l0Sstables = s.l0Sstables
  levels : s'.levels = s.levels
  sstables : s'.sstables = s.sstables

theorem Planned.same {s₀ : LsmStorageState MemTable} {flushed : List ℕ}
    (h : Planned e task s₀ flushed) (hsame : SameTables e.state e'.state)
    (hoptions : e'.options = e.options) : Planned e' task s₀ flushed := by
  have hcontroller : e'.compactionController = e.compactionController := by
    unfold compactionController
    rw [hoptions]
  obtain ⟨hgenerated, ⟨hl0, hlevels, hmem⟩, htables⟩ := h
  refine ⟨by rw [hcontroller]; exact hgenerated, ⟨?_, ?_, ?_⟩, ?_⟩
  · rw [hcontroller, hsame.l0Sstables, hl0]
  · rw [hcontroller, hsame.levels, hlevels]
  · rw [hsame.sstables]
    exact hmem
  · rw [hsame.sstables]
    exact htables

theorem Merged.same (h : Merged contents e task ssts) (hsame : SameTables e.state e'.state)
    (hoptions : e'.options = e.options) : Merged contents e' task ssts := by
  refine ⟨fun id hid => ?_, h.nil, h.entries, fun t ht => ?_⟩
  · unfold TableHolds
    rw [hsame.sstables]
    exact h.holds id hid
  · rw [hoptions]
    exact h.built t ht

/-- Nothing has left the lists since the task was planned. -/
theorem Planned.listed {s₀ : LsmStorageState MemTable} {flushed : List ℕ}
    (h : Planned e task s₀ flushed) {id : ℕ} (hid : id ∈ s₀.listedIds) : id ∈ e.state.listedIds := by
  rw [mem_listedIds] at hid ⊢
  rw [h.grown.l0Sstables, h.grown.levels]
  split
  · exact hid.imp_left (List.mem_append_right _)
  · exact hid.imp_right fun ⟨level, hlevel, hid⟩ => ⟨level, List.mem_append_right _ hlevel, hid⟩

/-- One more table is flushed while the compaction is under way. -/
theorem Planned.publish {s₀ : LsmStorageState MemTable} {flushed : List ℕ} {sst : SsTable}
    (h : Planned e task s₀ flushed) (hnew : sst.id ∉ e.state.listedIds) :
    Planned (e.publish sst) task s₀ (sst.id :: flushed) := by
  obtain ⟨hl0, hlevels, hmem⟩ := h.grown
  refine ⟨h.generated, ⟨?_, ?_, fun id hid => ?_⟩, fun id hid => ?_⟩
  · change (if _ then _ else _) = if _ then _ else _
    rw [hl0]
    change (if e.compactionController.flushToL0 then _ else _) =
      if e.compactionController.flushToL0 then _ else _
    split <;> rfl
  · change (if _ then _ else _) = if _ then _ else _
    rw [hlevels]
    change (if e.compactionController.flushToL0 then _ else _) =
      if e.compactionController.flushToL0 then _ else _
    split <;> rfl
  · exact (AList.mem_insert _).mpr (Or.inr (hmem id hid))
  · have hne : id ≠ sst.id := by
      rintro rfl
      exact hnew (h.listed hid)
    exact (AList.lookup_insert_ne hne).trans (h.tables id hid)

theorem Merged.publish {sst : SsTable} (h : Merged contents e task ssts)
    (hsame : ∀ id ∈ task.inputIds ++ ssts.map SsTable.id, contents' id = contents id)
    (hnew : sst.id ∉ task.inputIds) : Merged contents' (e.publish sst) task ssts := by
  have hold : ∀ id ∈ task.inputIds, contents' id = contents id := fun id hid =>
    hsame id (List.mem_append_left _ hid)
  have hout : ∀ id ∈ ssts.map SsTable.id, contents' id = contents id := fun id hid =>
    hsame id (List.mem_append_right _ hid)
  refine ⟨fun id hid => ?_, h.nil, ?_, fun t ht => ?_⟩
  · obtain ⟨t, ht, hholds⟩ := h.holds id hid
    refine ⟨t, ?_, by rw [hold id hid]; exact hholds⟩
    have hne : id ≠ sst.id := by
      rintro rfl
      exact hnew hid
    exact (AList.lookup_insert_ne hne).trans ht
  · rw [CompactionTask.levelRun_congr hout, CompactionTask.runs_congr hold]
    exact h.entries
  · rw [hout t.id (List.mem_map_of_mem ht)]
    exact h.built t ht

/-- The next state of a compaction, as it would be made from the state of the engine. -/
def Applied (contents : ℕ → List Entry) (e : LsmStorageInner) (task : CompactionTask)
    (output : List ℕ) (state : LsmStorageState MemTable) (removed : List ℕ) : Prop :=
  ∃ ssts s, output = ssts.map SsTable.id ∧ Merged contents e task ssts ∧
    e.compactionController.applyCompactionResult
      { e.state with sstables := insertTables ssts e.state.sstables } task output false =
        .ok (s, removed) ∧
    state = { s with sstables := eraseTables removed s.sstables }

/-- What a compaction has made up to `place`, which may be out of date once it has cloned a state. -/
def Busy (contents : ℕ → List Entry) (e : LsmStorageInner) (stale : Prop) : CompactAt → Prop
  | .start => True
  | .planned task => ∃ s₀ flushed, Planned e task s₀ flushed
  | .merged task output => (∃ s₀ flushed, Planned e task s₀ flushed) ∧ Merged contents e task output
  | .applied task output state removed => ¬stale →
      (∃ s₀ flushed, Planned e task s₀ flushed) ∧ Applied contents e task output state removed
  | .installed _ => True

/-- Before it clones a state a compaction depends on the tables alone. -/
theorem Busy.of_sameTables {stale stale' : Prop} {place : CompactAt} (h : Busy contents e stale place)
    (hsame : SameTables e.state e'.state) (hoptions : e'.options = e.options)
    (hnext : ∀ task output state removed, place ≠ .applied task output state removed) :
    Busy contents e' stale' place := by
  cases place with
  | start => trivial
  | installed removed => trivial
  | planned task =>
    obtain ⟨s₀, flushed, hplan⟩ := h
    exact ⟨s₀, flushed, hplan.same hsame hoptions⟩
  | merged task output =>
    obtain ⟨⟨s₀, flushed, hplan⟩, hmerged⟩ := h
    exact ⟨⟨s₀, flushed, hplan.same hsame hoptions⟩, hmerged.same hsame hoptions⟩
  | applied task output state removed => exact absurd rfl (hnext task output state removed)

omit [Platform] in
theorem through_eq {s : LsmStorageState MemTable} (hid : s.memtable.id = m.id)
    (himms : ∀ x ∈ s.immMemtables, x.id ≠ m.id) : s.through m = { s with memtable := m } := by
  have hmap : s.immMemtables.map m.through = s.immMemtables := by
    refine (List.map_congr_left fun x hx => ?_).trans (List.map_id s.immMemtables)
    exact if_neg (himms x hx)
  unfold LsmStorageState.through
  rw [hmap, MemTable.through, if_pos hid]

/-- The writer has done something to the active memtable, which the clone shares. -/
theorem Busy.through {stale : Prop} {place : CompactAt} (h : Busy contents e stale place)
    (hnodup : e.state.ids.Nodup) (hid : m.id = e.state.memtable.id)
    (hstate : e'.state = { e.state with memtable := m }) (hoptions : e'.options = e.options) :
    Busy contents e' stale (place.through m) := by
  have hsame : SameTables e.state e'.state := by
    rw [hstate]
    exact ⟨rfl, rfl, rfl⟩
  have hcontroller : e'.compactionController = e.compactionController := by
    unfold compactionController
    rw [hoptions]
  have himms : ∀ x ∈ e.state.immMemtables, x.id ≠ m.id := by
    intro x hx heq
    have hmem := (List.nodup_append.mp hnodup).1
    unfold LsmStorageState.memtables at hmem
    rw [List.map_cons, List.nodup_cons] at hmem
    exact hmem.1 (hid ▸ heq ▸ List.mem_map_of_mem hx)
  cases place with
  | applied task output state removed =>
    intro hstale
    obtain ⟨⟨s₀, flushed, hplan⟩, ssts, s, rfl, hmerged, happly, rfl⟩ := h hstale
    have happly' := CompactionController.applyCompactionResult_congr (t := { e'.state with
      sstables := insertTables ssts e'.state.sstables }) happly hsame.l0Sstables hsame.levels
      (by rw [hsame.sstables])
    rw [← hcontroller] at happly'
    refine ⟨⟨s₀, flushed, hplan.same hsame hoptions⟩, ssts, _, rfl, hmerged.same hsame hoptions, happly', ?_⟩
    have hframe := CompactionController.applyCompactionResult_frame happly
    have hmem : s.memtable = e.state.memtable := by rw [hframe]
    have himm : s.immMemtables = e.state.immMemtables := by rw [hframe]
    have htables : s.sstables = insertTables ssts e.state.sstables := by rw [hframe]
    rw [through_eq (s := { s with sstables := eraseTables removed s.sstables })
      (by rw [hid]; exact congrArg MemTable.id hmem) (by rw [himm]; exact himms)]
    simp only [hstate, himm, htables]
  | _ => exact Busy.of_sameTables h hsame hoptions nofun

/-- The state has been replaced, by one with the same tables. -/
theorem Busy.frozen {stale : Prop} {place : CompactAt} (h : Busy contents e stale place)
    (hsame : SameTables e.state e'.state) (hoptions : e'.options = e.options) :
    Busy contents e' True place := by
  cases place with
  | applied task output state removed => exact fun hstale => absurd trivial hstale
  | _ => exact Busy.of_sameTables h hsame hoptions nofun

/-- The state has been replaced, by one with one more table. -/
theorem Busy.publish {stale : Prop} {place : CompactAt} {sst : SsTable}
    (h : Busy contents e stale place) (hlaid : e.Laid options) (hnew : sst.id ∉ e.state.listedIds)
    (htaken : sst.id ∉ place.taken) (hsame : ∀ id, id ≠ sst.id → contents' id = contents id) :
    Busy contents' (e.publish sst) True place := by
  cases place with
  | start => trivial
  | installed removed => trivial
  | planned task =>
    obtain ⟨s₀, flushed, hplan⟩ := h
    exact ⟨s₀, _, hplan.publish hnew⟩
  | merged task output =>
    obtain ⟨⟨s₀, flushed, hplan⟩, hmerged⟩ := h
    have hinputs := (hplan.taken hlaid).2.subset
    refine ⟨⟨s₀, _, hplan.publish hnew⟩, hmerged.publish (fun id hid => hsame id ?_)
      fun hid => hnew (hinputs hid)⟩
    rintro rfl
    rcases List.mem_append.mp hid with hid | hid
    · exact hnew (hinputs hid)
    · exact htaken hid
  | applied task output state removed => exact fun hstale => absurd trivial hstale

/-- The state is that of the engine with the active memtable frozen. -/
def Frozen (e : LsmStorageInner) (state : LsmStorageState MemTable) : Prop :=
  ∃ memtable, memtable.map = SkipMap.new ∧ state = { e.state with
    memtable
    immMemtables := e.state.memtable :: e.state.immMemtables }

/-- What a write knows that stands at `place`. -/
def Writing (e : LsmStorageInner) : WriteAt → Prop
  | .start batch => (Op.writeBatch batch).Encodable
  | .stamped ts batch => (Op.writeBatch batch).Encodable ∧ nextTs e.latestCommitTs = .ok ts
  | .freezing _ (.created state) => Frozen e state
  | .freezing _ (.recorded state) => Frozen e state
  | _ => True

omit [Platform] in
theorem Writing.idle {place : WriteAt} (h : Writing e place) (hstate : e'.state = e.state)
    (hts : e'.latestCommitTs = e.latestCommitTs) : Writing e' place := by
  unfold Writing Frozen at h ⊢
  rwa [hstate, hts]

omit [Platform] in
/-- A write that has no clone does not depend on the state. -/
theorem Writing.of_next {place : WriteAt} (h : Writing e place) (hnext : place.next = none)
    (hts : e'.latestCommitTs = e.latestCommitTs) : Writing e' place := by
  cases place with
  | start batch => exact h
  | stamped ts batch =>
    unfold Writing at h ⊢
    rwa [hts]
  | written ts => trivial
  | committing ts => trivial
  | freezing ts place =>
    cases place with
    | start => trivial
    | created state => cases hnext
    | recorded state => cases hnext

omit [Platform] in
theorem WriteAt.next_of_unlocked {place : WriteAt} (h : place.locksState = false) :
    place.next = none := by
  cases place with
  | freezing ts place => cases h
  | _ => rfl

theorem Busy.idle {stale stale' : Prop} {place : CompactAt} (h : Busy contents e stale place)
    (hstate : e'.state = e.state) (hoptions : e'.options = e.options) (himp : stale → stale') :
    Busy contents e' stale' place := by
  have hsame : SameTables e.state e'.state := by
    rw [hstate]
    exact ⟨rfl, rfl, rfl⟩
  cases place with
  | applied task output state removed =>
    intro hstale
    obtain ⟨⟨s₀, flushed, hplan⟩, ssts, s, houtput, hmerged, happly, hs⟩ := h (mt himp hstale)
    refine ⟨⟨s₀, flushed, hplan.same hsame hoptions⟩, ssts, s, houtput, hmerged.same hsame hoptions, ?_, hs⟩
    unfold compactionController
    rw [hstate, hoptions]
    exact happly
  | _ => exact Busy.of_sameTables h hsame hoptions nofun

/-! ## Shared memtables -/

theorem FlushAt.through_eq {place : FlushAt} (h : Current e place)
    (himms : ∀ x ∈ e.state.immMemtables, x.id ≠ m.id) : place.through m = place := by
  cases place with
  | chosen memtable =>
    have hne := himms memtable (List.mem_of_getLast? h)
    exact congrArg FlushAt.chosen (if_neg hne)
  | _ => rfl

omit [Platform] in
theorem CompactAt.taken_through (place : CompactAt) (m : MemTable) :
    (place.through m).taken = place.taken := by
  cases place <;> rfl

/-- What is out of date does not matter any more. -/
theorem Busy.stale_through {place : CompactAt} (h : Busy contents e True place) (m : MemTable) :
    Busy contents e True (place.through m) := by
  cases place with
  | applied task output state removed => exact fun hstale => absurd trivial hstale
  | _ => exact h

end LsmStorageInner

namespace Threads

open LsmStorageInner LsmStorageState

/-- The engine, as if the batch that is being written were committed. -/
def ahead (T : Threads) : LsmStorageInner :=
  { T.engine with latestCommitTs := (T.writer.place.bind WriteAt.stamp).getD T.engine.latestCommitTs }

/-- The ids in use. -/
def ids (T : Threads) : List ℕ :=
  T.engine.state.ids ++ (T.writer.place.toList.flatMap WriteAt.taken ++
    T.compactor.place.toList.flatMap CompactAt.taken)

/-- A tombstone that may have been left out. -/
def Dropped (T : Threads) (x : Entry) : Prop :=
  isTombstone x.2 = true ∧ ∃ task ∈ T.tasks, task.compactToBottomLevel = true

variable [Platform] {options : LsmStorageOptions} {contents contents' : ℕ → List Entry} {T T' : Threads}

/-- What the steps keep. -/
structure Kept (options : LsmStorageOptions) (contents : ℕ → List Entry) (T : Threads) : Prop where
  settled : T.ahead.Settled options contents
  keys : ∀ m ∈ T.engine.state.memtables, m.KeysNonempty
  nodup : T.ids.Nodup
  ids_lt : ∀ id ∈ T.ids, id < T.engine.nextSstId
  cloned : T.cloned ≤ T.published
  writer : ∀ place ∈ T.writer.place, Writing T.engine place
  flusher : ∀ place ∈ T.flusher.place, Current T.engine place
  compactor : ∀ place ∈ T.compactor.place, Busy contents T.engine (T.published ≠ T.cloned) place
  latest : T.ahead.latestCommitTs.toNat = T.batches.length
  written : ∀ x, T.engine.state.HasVersion contents x → WrittenBy T.batches x
  kept : ∀ x, WrittenBy T.batches x → T.engine.state.HasVersion contents x ∨ T.Dropped x

theorem Kept.laid (h : T.Kept options contents) : T.engine.Laid options :=
  ⟨h.settled.laid.opts, h.settled.laid.nodup, h.settled.laid.ids, h.settled.laid.labels,
    h.settled.laid.l0Sstables⟩

/-- The state stays, and the new places of the threads are known. -/
theorem Kept.idle (h : T.Kept options contents) (hidle : Idle T.ahead T'.ahead)
    (hbatches : T'.batches = T.batches) (htasks : T'.tasks = T.tasks) (hcloned : T'.cloned ≤ T'.published)
    (hids : T'.ids.Nodup ∧ ∀ id ∈ T'.ids, id < T'.engine.nextSstId)
    (hwriter : ∀ place ∈ T'.writer.place, Writing T'.engine place)
    (hflusher : ∀ place ∈ T'.flusher.place, Current T'.engine place)
    (hcompactor : ∀ place ∈ T'.compactor.place,
      Busy contents T'.engine (T'.published ≠ T'.cloned) place) : T'.Kept options contents := by
  have hstate : T'.engine.state = T.engine.state := hidle.state
  refine ⟨h.settled.idle hidle, ?_, hids.1, hids.2, hcloned, hwriter, hflusher, hcompactor, ?_, ?_, ?_⟩
  · rw [hstate]
    exact h.keys
  · rw [hidle.latestCommitTs, hbatches]
    exact h.latest
  · rw [hstate, hbatches]
    exact h.written
  · unfold Dropped
    rw [hstate, hbatches, htasks]
    exact h.kept

/-! ### The flusher -/

/-- What a step of a flusher does to the engine: it publishes its table, or leaves the state. -/
theorem atomicStep_exec {e : LsmStorageInner} {place : FlushAt} (hcurrent : Current e place) :
    ∃ o d, (atomicStep place).exec e = (o, { e with disk := d }) ∨
      ∃ (m : MemTable) (builder : SsTableBuilder), e.state.immMemtables.getLast? = some m ∧
        place = .built (builder.build m.id) ∧
        (atomicStep place).exec e = (o, { e.publish (builder.build m.id) with disk := d }) := by
  cases place with
  | start => exact ⟨_, e.disk, Or.inl (flushStep_start e)⟩
  | chosen m =>
    obtain ⟨builder, hflush⟩ := m.exists_flush e.options.blockSize
    have hexec := flushStep_chosen hflush
    split at hexec
    · exact ⟨_, _, Or.inl hexec⟩
    · exact ⟨_, _, Or.inl hexec⟩
  | built sst =>
    obtain ⟨m, builder, hlast, -, rfl⟩ := hcurrent
    have hbuilt : (flushStep (.built (builder.build m.id))).exec e =
        (.ok (some (.published m.id)), e.publish (builder.build m.id)) := flushStep_built hlast rfl
    have hrecorded := flushStep_published (e.publish (builder.build m.id)) m.id
    unfold atomicStep
    split at hrecorded
    · exact ⟨_, _, Or.inr ⟨m, builder, hlast, rfl, Effect.exec_bind_of_error
        ((Effect.drive_of_some hbuilt).trans (Effect.drive_of_error hrecorded))⟩⟩
    · exact ⟨_, _, Or.inr ⟨m, builder, hlast, rfl, Effect.exec_bind_of_ok
        ((Effect.drive_of_some hbuilt).trans (Effect.drive_of_none hrecorded))⟩⟩
  | published id => exact hcurrent.elim

/-- Whatever the flusher does before it publishes. -/
theorem Kept.stepFlusher_idle (h : T.Kept options contents) {place : FlushAt}
    {o : Outcome (Option FlushAt)} {d : Disk} (hpublishes : place.publishes = false)
    (hexec : (atomicStep place).exec T.engine = (o, { T.engine with disk := d }))
    (hcurrent : ∀ next ∈ (Worker.after o).place, Current T.engine next) :
    (T.stepFlusher place).Kept options contents := by
  unfold stepFlusher
  rw [hexec, hpublishes]
  refine h.idle ⟨rfl, le_rfl, rfl, rfl⟩ rfl rfl h.cloned ⟨h.nodup, h.ids_lt⟩
    (fun place hplace => (h.writer place hplace).idle rfl rfl) (fun next hnext => ?_)
    (fun place hplace => (h.compactor place hplace).idle rfl rfl id)
  exact (hcurrent next hnext).quiet [] rfl rfl

/-- A memtable and its table have one id. -/
theorem perm_ids_publish {e : LsmStorageInner} {m : MemTable}
    (hlast : e.state.immMemtables.getLast? = some m) (builder : SsTableBuilder) :
    (e.publish (builder.build m.id)).state.ids.Perm e.state.ids := by
  have hsplit := (List.dropLast_append_getLast? m hlast).symm
  unfold LsmStorageState.ids LsmStorageState.memtables
  rw [hsplit, ← List.cons_append, List.map_append, List.append_assoc]
  exact (listedIds_flushedState _ (builder.build m.id) e.state).append_left _

/-- The flusher publishes its table. -/
theorem Kept.publish (h : T.Kept options contents) {m : MemTable} {builder : SsTableBuilder} (d : Disk)
    (hlast : T.engine.state.immMemtables.getLast? = some m)
    (hflush : m.flush (SsTableBuilder.new T.engine.options.blockSize) = .ok builder)
    (hunlocked : T.stateLocked = false) :
    ({ T with
      engine := { T.engine.publish (builder.build m.id) with disk := d }
      flusher := .outside
      published := T.published + 1 } : Threads).Kept options (withTable contents m) := by
  have himm : m ∈ T.engine.state.immMemtables := List.mem_of_getLast? hlast
  have hid : m.id ∈ T.engine.state.ids :=
    List.mem_append_left _ (List.mem_map_of_mem (List.mem_cons_of_mem _ himm))
  have hperm := perm_ids_publish hlast builder
  have hnotListed : m.id ∉ T.engine.state.listedIds := fun hmem =>
    (List.nodup_append.mp h.laid.nodup).2.2 m.id
      (List.mem_map_of_mem (List.mem_cons_of_mem _ himm)) m.id hmem rfl
  obtain ⟨hsettled, hiff⟩ :=
    h.settled.publish hlast (h.keys m (List.mem_cons_of_mem _ himm)) hflush
  have hids : ({ T with
      engine := { T.engine.publish (builder.build m.id) with disk := d }
      flusher := .outside
      published := T.published + 1 } : Threads).ids.Perm T.ids := hperm.append_right _
  refine ⟨hsettled.idle ⟨rfl, le_rfl, rfl, rfl⟩, fun x hx => h.keys x ?_, hids.nodup_iff.mpr h.nodup,
    fun id hid => h.ids_lt id (hids.subset hid), Nat.le_succ_of_le h.cloned, fun place hplace => ?_, ?_,
    fun place hplace => ?_, h.latest, fun x hx => h.written x ((hiff x).mp hx),
    fun x hx => (h.kept x hx).imp_left (hiff x).mpr⟩
  · rcases List.mem_cons.mp hx with rfl | hx
    · exact List.mem_cons_self
    · exact List.mem_cons_of_mem _ (List.mem_of_mem_dropLast hx)
  · refine (h.writer place hplace).of_next (WriteAt.next_of_unlocked ?_) rfl
    unfold stateLocked at hunlocked
    rw [Option.mem_def.mp hplace] at hunlocked
    exact hunlocked
  · rintro place ⟨⟩
  · have htaken : m.id ∉ place.taken := fun htaken =>
      (List.nodup_append.mp h.nodup).2.2 m.id hid m.id (List.mem_append_right _
        (List.mem_flatMap.mpr ⟨place, Option.mem_toList.mpr hplace, htaken⟩)) rfl
    have hbusy : Busy (withTable contents m) (T.engine.publish (builder.build m.id)) True place :=
      (h.compactor place hplace).publish h.laid hnotListed htaken
        fun id hne => withTable_of_ne hne contents
    exact hbusy.idle rfl rfl fun _ => (Nat.lt_succ_of_le h.cloned).ne'

/-- **A step of the flusher.** -/
theorem Kept.stepFlusher (h : T.Kept options contents) {place : FlushAt}
    (hcurrent : Current T.engine place) (hunlocked : place.publishes = true → T.stateLocked = false) :
    ∃ contents', (T.stepFlusher place).Kept options contents' := by
  cases place with
  | start =>
    refine ⟨contents, h.stepFlusher_idle rfl (flushStep_start T.engine) fun next hnext => ?_⟩
    cases hlast : T.engine.state.immMemtables.getLast? with
    | none =>
      rw [hlast] at hnext
      cases hnext
    | some m =>
      rw [hlast] at hnext
      cases hnext
      exact hlast
  | chosen m =>
    obtain ⟨builder, hflush⟩ := m.exists_flush T.engine.options.blockSize
    have hexec := flushStep_chosen hflush
    split at hexec
    · refine ⟨contents, h.stepFlusher_idle rfl hexec fun next hnext => ?_⟩
      cases hnext
    · refine ⟨contents, h.stepFlusher_idle rfl hexec fun next hnext => ?_⟩
      cases hnext
      exact ⟨m, builder, hcurrent, hflush, rfl⟩
  | built sst =>
    obtain ⟨m, builder, hlast, hflush, rfl⟩ := hcurrent
    refine ⟨withTable contents m, ?_⟩
    have hbuilt : (flushStep (.built (builder.build m.id))).exec T.engine =
        (.ok (some (.published m.id)), T.engine.publish (builder.build m.id)) :=
      flushStep_built hlast rfl
    have hpublished := flushStep_published (T.engine.publish (builder.build m.id)) m.id
    unfold Threads.stepFlusher atomicStep
    split at hpublished
    · rw [Effect.exec_bind_of_error ((Effect.drive_of_some hbuilt).trans
        (Effect.drive_of_error hpublished))]
      exact h.publish _ hlast hflush (hunlocked rfl)
    · rw [Effect.exec_bind_of_ok ((Effect.drive_of_some hbuilt).trans
        (Effect.drive_of_none hpublished))]
      exact h.publish _ hlast hflush (hunlocked rfl)
  | published id => exact hcurrent.elim

/-! ### The compactor -/

theorem cloned_stepCompactor (h : T.cloned ≤ T.published) (place : CompactAt) :
    (T.stepCompactor place).cloned ≤ (T.stepCompactor place).published := by
  refine le_trans ?_ (Nat.le_add_right T.published place.installs.length)
  cases place with
  | merged task output => exact le_rfl
  | _ => exact h

/-- The compactor does nothing that the others see, and takes no ids that it keeps. -/
theorem Kept.stepCompactor_idle (h : T.Kept options contents) {place : CompactAt}
    {o : Outcome (Option CompactAt)} {d : Disk} {next : ℕ} (hinstalls : place.installs = [])
    (hnext : T.engine.nextSstId ≤ next)
    (hexec : (compactStep place).exec T.engine =
      (o, { T.engine with disk := d, nextSstId := next }))
    (htaken : ((Worker.after o).place.toList.flatMap CompactAt.taken).Sublist
      (T.compactor.place.toList.flatMap CompactAt.taken))
    (hbusy : ∀ place' ∈ (Worker.after o).place, Busy contents T.engine
      ((T.stepCompactor place).published ≠ (T.stepCompactor place).cloned) place') :
    (T.stepCompactor place).Kept options contents := by
  have hcloned := cloned_stepCompactor h.cloned place
  unfold stepCompactor at hbusy hcloned ⊢
  simp only [hexec, hinstalls, List.append_nil] at hbusy hcloned ⊢
  have hids := (htaken.append_left (T.writer.place.toList.flatMap WriteAt.taken)).append_left
    T.engine.state.ids
  exact h.idle ⟨rfl, hnext, rfl, rfl⟩ rfl rfl hcloned
    ⟨h.nodup.sublist hids, fun id hid => (h.ids_lt id (hids.subset hid)).trans_le hnext⟩
    (fun place hplace => (h.writer place hplace).idle rfl rfl)
    (fun place hplace => (h.flusher place hplace).quiet [] rfl rfl)
    fun place hplace => (hbusy place hplace).idle rfl rfl id

/-- The merge of a planned task. -/
theorem Kept.merge (h : T.Kept options contents) {task : CompactionTask} {output : List SsTable} {d : Disk}
    {next : ℕ} (hplan : ∃ s₀ flushed, Planned T.engine task s₀ flushed)
    (hcompact : (compact T.engine.options T.engine.state task).exec (T.engine.disk, T.engine.nextSstId) =
      (.ok output, (d, next))) (hnext : T.engine.nextSstId ≤ next) :
    ∃ contents', ({ T with
      engine := { T.engine with disk := d, nextSstId := next }
      compactor := .inside (.merged task output) } : Threads).Kept options contents' := by
  obtain ⟨s₀, flushed, hplanned⟩ := hplan
  have hplan : Planned T.ahead task s₀ flushed := hplanned.same ⟨rfl, rfl, rfl⟩ rfl
  obtain ⟨contents', hsettled, hversion, hmerged, hnodup, hnew⟩ := h.settled.merge hplan hcompact
  -- The ids of the output are new.
  have hsub : (T.engine.state.ids ++ T.writer.place.toList.flatMap WriteAt.taken).Sublist T.ids := by
    unfold ids
    rw [← List.append_assoc]
    exact List.sublist_append_left _ _
  have hids : ({ T with
      engine := { T.engine with disk := d, nextSstId := next }
      compactor := .inside (.merged task output) } : Threads).ids =
      (T.engine.state.ids ++ T.writer.place.toList.flatMap WriteAt.taken) ++ output.map SsTable.id := by
    simp [Threads.ids, Worker.place, CompactAt.taken]
  refine ⟨contents', hsettled.idle ⟨rfl, hnext, rfl, rfl⟩, h.keys, ?_, ?_, h.cloned,
    fun place hplace => (h.writer place hplace).idle rfl rfl,
    fun place hplace => (h.flusher place hplace).quiet [] rfl rfl, ?_, h.latest,
    fun x hx => h.written x ((hversion x).mp hx), fun x hx => (h.kept x hx).imp_left (hversion x).mpr⟩
  · rw [hids, List.nodup_append]
    refine ⟨h.nodup.sublist hsub, hnodup, fun id hid id' hid' heq => ?_⟩
    exact absurd (heq ▸ h.ids_lt id (hsub.subset hid)) (not_lt.mpr (hnew id' hid').1)
  · rw [hids]
    refine List.forall_mem_append.mpr ⟨fun id hid => ?_, fun id hid => (hnew id hid).2⟩
    exact (h.ids_lt id (hsub.subset hid)).trans_le hnext
  · rintro place ⟨⟩
    have hsame : SameTables T.engine.state T.engine.state := ⟨rfl, rfl, rfl⟩
    exact ⟨⟨s₀, flushed, hplanned.same hsame rfl⟩, hmerged.same hsame rfl⟩

/-- What a compactor has made that nobody has disturbed. -/
theorem Kept.exchanged (h : T.Kept options contents) {task : CompactionTask} {output removed : List ℕ}
    {state : LsmStorageState MemTable}
    (hplace : T.compactor.place = some (.applied task output state removed))
    (hfresh : T.published = T.cloned) :
    ∃ ssts, Exchanged contents T.ahead { T.ahead with state } task ssts ∧
      ({ T.ahead with state } : LsmStorageInner).Settled options contents ∧
      removed = task.inputIds ∧ output = ssts.map SsTable.id := by
  obtain ⟨⟨s₀, flushed, hplanned⟩, ssts, s, rfl, hmerged, happly, rfl⟩ :=
    h.compactor _ hplace (not_not.mpr hfresh)
  have hplan : Planned T.ahead task s₀ flushed := hplanned.same ⟨rfl, rfl, rfl⟩ rfl
  have htaken : ∀ id ∈ ssts.map SsTable.id,
      id ∈ T.writer.place.toList.flatMap WriteAt.taken ++
        T.compactor.place.toList.flatMap CompactAt.taken := by
    intro id hid
    rw [hplace]
    exact List.mem_append_right _ (by simpa [CompactAt.taken] using hid)
  have hnodup := h.nodup
  unfold ids at hnodup
  obtain ⟨-, htakenNodup, hdis⟩ := List.nodup_append.mp hnodup
  have hinstalls : Installs T.ahead { T.ahead with
      state := { s with sstables := eraseTables removed s.sstables } } task ssts s removed := by
    refine ⟨?_, fun id hid => ⟨fun hin => hdis id hin id (htaken id hid) rfl,
      h.ids_lt id (List.mem_append_right _ (htaken id hid))⟩, happly, rfl, le_rfl, rfl, rfl⟩
    have hall := (List.nodup_append.mp htakenNodup).2.1
    rw [hplace] at hall
    simpa [CompactAt.taken] using hall
  obtain ⟨hremoved, hex, hlaid, hsteady, htiers⟩ := hplan.steady h.settled.steady h.settled.laid
    h.settled.tiers (hmerged.same ⟨rfl, rfl, rfl⟩ rfl) hinstalls
  exact ⟨ssts, hex, ⟨hlaid, hsteady, htiers⟩, hremoved, rfl⟩

/-- The compactor installs its output on the state from which it was made. -/
theorem Kept.install (h : T.Kept options contents) {task : CompactionTask} {output removed : List ℕ}
    {state : LsmStorageState MemTable}
    (hplace : T.compactor.place = some (.applied task output state removed))
    (hfresh : T.published = T.cloned) (hfrozen : T.frozen = none) :
    ({ T with
      engine := { T.engine with state }
      compactor := .inside (.installed removed)
      published := T.published + 1
      tasks := T.tasks ++ [task] } : Threads).Kept options contents := by
  obtain ⟨ssts, hex, hsettled, -⟩ := h.exchanged hplace hfresh
  have hmemtables : state.memtables = T.engine.state.memtables := hex.memtables
  have hiff := fun x => hex.hasVersion_iff h.settled.steady.state (x := x)
  have hids : ({ T with
      engine := { T.engine with state }
      compactor := .inside (.installed removed)
      published := T.published + 1
      tasks := T.tasks ++ [task] } : Threads).ids = state.ids := by
    have hnone : T.writer.place.toList.flatMap WriteAt.taken = [] := by
      unfold frozen at hfrozen
      cases hwriter : T.writer.place with
      | none => rfl
      | some place =>
        rw [hwriter] at hfrozen
        simp [WriteAt.taken, show place.next = none from hfrozen]
    change _ ++ (T.writer.place.toList.flatMap WriteAt.taken ++ []) = _
    rw [hnone, List.append_nil, List.append_nil]
  refine ⟨hsettled, ?_, ?_, ?_, Nat.le_succ_of_le h.cloned, fun place hmem => ?_,
    fun place hmem => ?_, ?_, h.latest, fun x hx => h.written x ((hiff x).mp hx).1, fun x hx => ?_⟩
  · rw [hmemtables]
    exact h.keys
  · rw [hids]
    exact hsettled.laid.nodup
  · rw [hids]
    exact hsettled.laid.ids
  · refine (h.writer place hmem).of_next ?_ rfl
    unfold frozen at hfrozen
    rwa [Option.mem_def.mp hmem] at hfrozen
  · exact (h.flusher place hmem).quiet [] rfl (List.cons.inj hmemtables).2
  · rintro place ⟨⟩
    trivial
  · by_cases hdrop : task.compactToBottomLevel = true ∧ isTombstone x.2 = true
    · exact Or.inr ⟨hdrop.2, task, List.mem_append_right _ (List.mem_singleton_self _), hdrop.1⟩
    · rcases h.kept x hx with hx | ⟨htomb, task', hmem, hbottom⟩
      · exact Or.inl ((hiff x).mpr ⟨hx, fun hall => hdrop ⟨hall.1, hall.2.1⟩⟩)
      · exact Or.inr ⟨htomb, task', List.mem_append_left _ hmem, hbottom⟩

/-- **A step of the compactor.** -/
theorem Kept.stepCompactor (h : T.Kept options contents) {place : CompactAt}
    (hplace : T.compactor.place = some place ∨ place = .start)
    (hundisturbed : place.installs ≠ [] → T.published = T.cloned ∧ T.frozen = none) :
    ∃ contents', (T.stepCompactor place).Kept options contents' := by
  -- A call that ends keeps no ids.
  have hends : ∀ {o : Outcome (Option CompactAt)} {d : Disk} {next : ℕ}, place.installs = [] →
      (compactStep place).exec T.engine = (o, { T.engine with disk := d, nextSstId := next }) →
      T.engine.nextSstId ≤ next → (Worker.after o).place = none →
      ∃ contents', (T.stepCompactor place).Kept options contents' := by
    intro o d next hinstalls hexec hnext hnone
    refine ⟨contents, h.stepCompactor_idle hinstalls hnext hexec ?_ fun place' hplace' => ?_⟩
    · rw [hnone]
      exact List.nil_sublist _
    · rw [hnone] at hplace'
      cases hplace'
  cases place with
  | start =>
    have hexec := compactStep_start T.engine
    cases hgenerated : T.engine.compactionController.generateCompactionTask T.engine.state with
    | error f =>
      rw [hgenerated] at hexec
      exact hends rfl hexec le_rfl (Worker.place_after_error f)
    | ok task =>
      rw [hgenerated] at hexec
      cases task with
      | none => exact hends rfl hexec le_rfl rfl
      | some task =>
        refine ⟨contents, h.stepCompactor_idle rfl le_rfl hexec (List.nil_sublist _) fun place' hplace' => ?_⟩
        cases hplace'
        exact ⟨_, _, planned_self hgenerated⟩
  | planned task =>
    obtain ⟨o, d, next, hcompact, hnext, hexec⟩ := compactStep_planned T.engine task
    cases o with
    | error f => exact hends rfl hexec hnext (Worker.place_after_error f)
    | ok output =>
      obtain ⟨contents', h'⟩ := h.merge (h.compactor _ (hplace.resolve_right nofun)) hcompact hnext
      refine ⟨contents', ?_⟩
      unfold Threads.stepCompactor
      rw [hexec]
      simp only [CompactAt.installs, List.append_nil]
      exact h'
  | merged task output =>
    have hexec := compactStep_merged T.engine task output
    cases happly : T.engine.compactionController.applyCompactionResult
        { T.engine.state with sstables := insertTables output T.engine.state.sstables } task
        (output.map SsTable.id) false with
    | error f =>
      rw [happly] at hexec
      exact hends rfl hexec le_rfl (Worker.place_after_error f)
    | ok p =>
      rw [happly] at hexec
      obtain ⟨hplan, hmerged⟩ := h.compactor _ (hplace.resolve_right nofun)
      refine ⟨contents, h.stepCompactor_idle rfl le_rfl hexec ?_ fun place' hplace' => ?_⟩
      · rw [hplace.resolve_right nofun]
        exact List.Sublist.refl _
      · cases hplace'
        exact fun _ => ⟨hplan, output, p.1, rfl, hmerged, happly, rfl⟩
  | applied task output state removed =>
    obtain ⟨hfresh, hfrozen⟩ := hundisturbed (List.cons_ne_nil _ _)
    refine ⟨contents, ?_⟩
    unfold Threads.stepCompactor
    rw [compactStep_applied]
    exact h.install (hplace.resolve_right nofun) hfresh hfrozen
  | installed removed =>
    obtain ⟨o, d, hexec⟩ := compactStep_installed T.engine removed
    refine hends rfl hexec le_rfl ?_
    cases o with
    | error f => exact Worker.place_after_error f
    | ok u => rfl

/-! ### The writer -/

omit [Platform] in
theorem taken_map (w : Worker CompactAt) (m : MemTable) :
    (w.map fun place => place.through m).place.toList.flatMap CompactAt.taken =
      w.place.toList.flatMap CompactAt.taken := by
  rw [Worker.place_map]
  cases w.place with
  | none => rfl
  | some place => simp [CompactAt.taken_through]

/-- The immutable memtables are not the active one. -/
theorem Kept.imms_ne (h : T.Kept options contents) {x : MemTable}
    (hx : x ∈ T.engine.state.immMemtables) : x.id ≠ T.engine.state.memtable.id := by
  have hmem := (List.nodup_append.mp h.laid.nodup).1
  unfold LsmStorageState.memtables at hmem
  rw [List.map_cons, List.nodup_cons] at hmem
  exact fun heq => hmem.1 (heq ▸ List.mem_map_of_mem hx)

/-- The writer does nothing that the others see. -/
theorem Kept.stepWriter_idle (h : T.Kept options contents) {place : WriteAt} {next : Option WriteAt}
    {e' : LsmStorageInner} (hexec : (writeStep place).exec T.engine = (.ok next, e'))
    (hpublishes : place.publishes = false) (hputs : place.puts = [])
    (hstate : e'.state = T.engine.state) (hnext : T.engine.nextSstId ≤ e'.nextSstId)
    (hoptions : e'.options = T.engine.options)
    (hahead : (next.bind WriteAt.stamp).getD e'.latestCommitTs = T.ahead.latestCommitTs)
    (hids : (T.engine.state.ids ++ (next.toList.flatMap WriteAt.taken ++
        T.compactor.place.toList.flatMap CompactAt.taken)).Nodup ∧
      ∀ id ∈ next.toList.flatMap WriteAt.taken, id < e'.nextSstId)
    (hwriting : ∀ place' ∈ next, Writing e' place') : (T.stepWriter place).Kept options contents := by
  have himms : ∀ x ∈ T.engine.state.immMemtables, x.id ≠ T.engine.state.memtable.id :=
    fun x hx => h.imms_ne hx
  have hwriter : (Worker.after (.ok next)).place = next := Worker.place_after_ok next
  have hall : (T.stepWriter place).ids.Nodup ∧ ∀ id ∈ (T.stepWriter place).ids, id < e'.nextSstId := by
    have heq : (T.stepWriter place).ids = T.engine.state.ids ++ (next.toList.flatMap WriteAt.taken ++
        T.compactor.place.toList.flatMap CompactAt.taken) := by
      unfold Threads.ids Threads.stepWriter
      simp only [hexec, hstate, hwriter, taken_map]
    rw [heq]
    refine ⟨hids.1, fun id hid => ?_⟩
    rcases List.mem_append.mp hid with hid | hid
    · exact (h.laid.ids id hid).trans_le hnext
    · rcases List.mem_append.mp hid with hid | hid
      · exact hids.2 id hid
      · exact (h.ids_lt id (List.mem_append_right _ (List.mem_append_right _ hid))).trans_le hnext
  unfold Threads.stepWriter at hall ⊢
  simp only [hexec, hpublishes, hputs, hstate, List.append_nil] at hall ⊢
  refine h.idle ⟨hstate, hnext, ?_, hoptions⟩ rfl rfl h.cloned hall ?_ ?_ ?_
  · change ((Worker.after (.ok next)).place.bind WriteAt.stamp).getD e'.latestCommitTs = _
    rw [hwriter]
    exact hahead
  · intro place' hplace'
    rw [hwriter] at hplace'
    exact hwriting place' hplace'
  · intro place' hplace'
    rw [Worker.place_map] at hplace'
    obtain ⟨old, hold, rfl⟩ := Option.map_eq_some_iff.mp hplace'
    have hcurrent := h.flusher old hold
    rw [FlushAt.through_eq hcurrent himms]
    exact hcurrent.quiet [] hoptions (by rw [hstate]; rfl)
  · intro place' hplace'
    rw [Worker.place_map] at hplace'
    obtain ⟨old, hold, rfl⟩ := Option.map_eq_some_iff.mp hplace'
    exact (h.compactor old hold).through h.laid.nodup rfl (by rw [hstate]) hoptions

/-- The batch that is put next gets the timestamp after those of all others. -/
theorem Kept.stamped_next (h : T.Kept options contents) {ts : UInt64} {batch : List WriteBatchRecord}
    (hplace : T.writer.place = some (.stamped ts batch)) :
    T.ahead = T.engine ∧ nextTs T.engine.latestCommitTs = .ok ts ∧
      ts.toNat = T.batches.length + 1 ∧ ts = commitTs (T.batches.length + 1) := by
  have hts := (h.writer _ hplace).2
  have hahead : T.ahead = T.engine := by
    unfold ahead
    rw [hplace]
    rfl
  have hlatest := h.latest
  rw [hahead] at hlatest
  have hnat := toNat_of_nextTs hts
  rw [hlatest] at hnat
  exact ⟨hahead, hts, hnat, by rw [commitTs, ← hnat, UInt64.ofNat_toNat]⟩

/-- The batch goes into the memtable. -/
theorem Kept.put (h : T.Kept options contents) {ts : UInt64} {batch : List WriteBatchRecord} {d : Disk}
    (hplace : T.writer.place = some (.stamped ts batch))
    (hexec : (writeStep (.stamped ts batch)).exec T.engine =
      (.ok (some (.written ts)), T.engine.afterPut (batch.map (WriteBatchRecord.entry ts)) d)) :
    (T.stepWriter (.stamped ts batch)).Kept options contents := by
  have hencodable := (h.writer _ hplace).1
  obtain ⟨hahead, hts, hnat, hcommit⟩ := h.stamped_next hplace
  have hsettled := h.settled
  rw [hahead] at hsettled
  have hput := hsettled.put hencodable.fits hts d
  have hversion := (hsettled.steady.put hencodable.fits hts d).2
  have himms : ∀ x ∈ T.engine.state.immMemtables,
      x.id ≠ (T.engine.state.memtable.insertAll (batch.map (WriteBatchRecord.entry ts))).id := by
    intro x hx
    rw [MemTable.insertAll_id]
    exact h.imms_ne hx
  have hstate : (T.engine.afterPut (batch.map (WriteBatchRecord.entry ts)) d).state = { T.engine.state with
      memtable := T.engine.state.memtable.insertAll (batch.map (WriteBatchRecord.entry ts)) } := rfl
  have hids : (T.stepWriter (.stamped ts batch)).ids = T.ids := by
    unfold Threads.ids Threads.stepWriter
    rw [hexec, hplace]
    simp only [taken_map, ids_afterPut]
    rfl
  have hnodup := h.nodup
  have hlt := h.ids_lt
  rw [← hids] at hnodup hlt
  unfold Threads.stepWriter at hnodup hlt ⊢
  rw [hexec] at hnodup hlt ⊢
  refine ⟨hput, fun m hm => ?_, hnodup, hlt, h.cloned, ?_, fun place' hplace' => ?_,
    fun place' hplace' => ?_, ?_, fun x hx => ?_, fun x hx => ?_⟩
  · rcases List.mem_cons.mp hm with rfl | hm
    · intro x hx
      have hx : x ∈ (T.engine.state.memtable.insertAll
          (batch.map (WriteBatchRecord.entry ts))).map.entries := hx
      rw [MemTable.insertAll_map] at hx
      rcases SkipMap.mem_insertAll.mp hx with hlast | ⟨-, hx⟩
      · obtain ⟨record, hrecord, rfl⟩ := List.mem_map.mp (LastIn.mem hlast)
        exact (hencodable record hrecord ts).key_ne
      · exact h.keys _ List.mem_cons_self x hx
    · exact h.keys m (List.mem_cons_of_mem _ hm)
  · rintro place ⟨⟩
    trivial
  · rw [Worker.place_map] at hplace'
    obtain ⟨old, hold, rfl⟩ := Option.map_eq_some_iff.mp hplace'
    have hcurrent := h.flusher old hold
    have hsame := FlushAt.through_eq hcurrent himms
    change Current _ (old.through (T.engine.state.memtable.insertAll _))
    rw [hsame]
    exact hcurrent.quiet [] rfl rfl
  · rw [Worker.place_map] at hplace'
    obtain ⟨old, hold, rfl⟩ := Option.map_eq_some_iff.mp hplace'
    exact (h.compactor old hold).through h.laid.nodup (MemTable.insertAll_id _ _) hstate rfl
  · change ts.toNat = (T.batches ++ [batch]).length
    rw [hnat, List.length_append, List.length_singleton]
  · change WrittenBy (T.batches ++ [batch]) x
    rw [writtenBy_concat, ← hcommit]
    exact ((hversion x).mp hx).symm.imp_left (h.written x)
  · have hx : WrittenBy (T.batches ++ [batch]) x := hx
    rw [writtenBy_concat, ← hcommit] at hx
    rcases hx with hx | hx
    · exact (h.kept x hx).imp_left fun hx => (hversion x).mpr (Or.inr hx)
    · exact Or.inl ((hversion x).mpr (Or.inl hx))

/-- The frozen memtable is published. -/
theorem Kept.freeze (h : T.Kept options contents) {ts : UInt64} {state : LsmStorageState MemTable}
    (hplace : T.writer.place = some (.freezing ts (.recorded state))) :
    (T.stepWriter (.freezing ts (.recorded state))).Kept options contents := by
  obtain ⟨memtable, hmap, rfl⟩ := h.writer _ hplace
  have hnodup := h.nodup
  have hlt := h.ids_lt
  unfold Threads.ids at hnodup hlt
  rw [hplace] at hnodup hlt
  have hmem : memtable.id ∈ T.engine.state.ids ++ ([memtable.id] ++
      T.compactor.place.toList.flatMap CompactAt.taken) :=
    List.mem_append_right _ List.mem_cons_self
  have hid : memtable.id ∉ T.engine.state.ids := fun hin =>
    (List.nodup_append.mp hnodup).2.2 memtable.id hin memtable.id List.mem_cons_self rfl
  have himms : ∀ x ∈ T.engine.state.immMemtables, x.id ≠ memtable.id := fun x hx heq =>
    hid (List.mem_append_left _ (heq ▸ List.mem_map_of_mem (List.mem_cons_of_mem _ hx)))
  have hfrozen : ({ T.ahead with state := { T.engine.state with
        memtable
        immMemtables := T.engine.state.memtable :: T.engine.state.immMemtables } } :
      LsmStorageInner).Settled options contents ∧ _ :=
    h.settled.frozen hmap hid rfl le_rfl (hlt _ hmem) rfl rfl
  obtain ⟨hsettled, hiff⟩ := hfrozen
  have hids : (T.stepWriter (.freezing ts (.recorded { T.engine.state with
      memtable
      immMemtables := T.engine.state.memtable :: T.engine.state.immMemtables }))).ids.Perm
        (T.engine.state.ids ++ ([memtable.id] ++ T.compactor.place.toList.flatMap CompactAt.taken)) := by
    unfold Threads.ids Threads.stepWriter
    rw [writeStep_recorded]
    simp only [taken_map]
    exact List.perm_middle.symm
  have hts : (T.stepWriter (.freezing ts (.recorded { T.engine.state with
      memtable
      immMemtables := T.engine.state.memtable :: T.engine.state.immMemtables }))).ahead.latestCommitTs =
        T.ahead.latestCommitTs := by
    unfold ahead Threads.stepWriter
    rw [hplace]
    rfl
  have hnodup' := hids.nodup_iff.mpr hnodup
  have hlt' := fun id hid => hlt id (hids.subset hid)
  unfold Threads.stepWriter at hnodup' hlt' hts ⊢
  rw [writeStep_recorded] at hnodup' hlt' hts ⊢
  refine ⟨hsettled.idle ⟨rfl, le_rfl, hts, rfl⟩, fun m hm => ?_, hnodup', hlt', Nat.le_succ_of_le h.cloned,
    ?_, fun place' hplace' => ?_, fun place' hplace' => ?_, ?_, fun x hx => ?_, fun x hx => ?_⟩
  · rcases List.mem_cons.mp hm with heq | hm
    · have hnew : m.map = SkipMap.new := by
        rw [heq]
        exact hmap
      intro x hx
      rw [hnew] at hx
      cases hx
    · exact h.keys m hm
  · rintro place ⟨⟩
    trivial
  · rw [Worker.place_map] at hplace'
    obtain ⟨old, hold, rfl⟩ := Option.map_eq_some_iff.mp hplace'
    have hcurrent := h.flusher old hold
    have hsame := FlushAt.through_eq hcurrent himms
    change Current _ (old.through memtable)
    rw [hsame]
    exact hcurrent.quiet [T.engine.state.memtable] rfl rfl
  · rw [Worker.place_map] at hplace'
    obtain ⟨old, hold, rfl⟩ := Option.map_eq_some_iff.mp hplace'
    have hsame : SameTables T.engine.state { T.engine.state with
        memtable
        immMemtables := T.engine.state.memtable :: T.engine.state.immMemtables } := ⟨rfl, rfl, rfl⟩
    have hbusy : Busy contents { T.engine with state := { T.engine.state with
        memtable
        immMemtables := T.engine.state.memtable :: T.engine.state.immMemtables } } True old :=
      (h.compactor old hold).frozen hsame rfl
    exact (hbusy.stale_through memtable).idle rfl rfl fun _ => (Nat.lt_succ_of_le h.cloned).ne'
  · rw [hts]
    simpa [WriteAt.puts] using h.latest
  · simpa [WriteAt.puts] using h.written x ((hiff x).mp hx)
  · rw [show T.batches ++ WriteAt.puts _ = T.batches from List.append_nil _] at hx
    exact (h.kept x hx).imp_left (hiff x).mpr

/-- **A step of the writer.** -/
theorem Kept.stepWriter (h : T.Kept options contents) {place : WriteAt}
    (hplace : T.writer.place = some place)
    (hok : ∃ next, ((writeStep place).exec T.engine).1 = .ok next) :
    (T.stepWriter place).Kept options contents := by
  obtain ⟨next, hok⟩ := hok
  obtain ⟨e', hexec⟩ := Effect.exists_exec hok
  have hwriting := h.writer place hplace
  have hnodup := h.nodup
  have hlt := h.ids_lt
  have hts : T.ahead.latestCommitTs = (place.stamp).getD T.engine.latestCommitTs := by
    unfold ahead
    rw [hplace]
    rfl
  unfold Threads.ids at hnodup hlt
  rw [hplace] at hnodup hlt
  cases place with
  | start batch =>
    obtain ⟨ts, hnext, rfl, rfl⟩ := writeStep_start_ok hexec
    refine h.stepWriter_idle hexec rfl rfl rfl le_rfl rfl hts.symm ⟨hnodup, nofun⟩ ?_
    rintro place ⟨⟩
    exact ⟨hwriting, hnext⟩
  | stamped ts batch =>
    obtain ⟨d, rfl, rfl⟩ := writeStep_stamped_ok hexec
    exact h.put hplace hexec
  | written ts =>
    obtain ⟨rfl | rfl, rfl⟩ := writeStep_written_ok hexec
    · refine h.stepWriter_idle hexec rfl rfl rfl le_rfl rfl hts.symm ⟨hnodup, nofun⟩ ?_
      rintro place ⟨⟩
      trivial
    · refine h.stepWriter_idle hexec rfl rfl rfl le_rfl rfl hts.symm ⟨hnodup, nofun⟩ ?_
      rintro place ⟨⟩
      trivial
  | committing ts =>
    rw [writeStep_committing] at hexec
    cases hexec
    exact h.stepWriter_idle (writeStep_committing T.engine ts) rfl rfl rfl le_rfl rfl hts.symm
      ⟨hnodup, nofun⟩ nofun
  | freezing ts place =>
    cases place with
    | start =>
      obtain ⟨memtable, d, hmap, hid, rfl, rfl⟩ := writeStep_clone_ok hexec
      refine h.stepWriter_idle hexec rfl rfl rfl (Nat.le_succ _) rfl hts.symm ⟨?_, ?_⟩ ?_
      · -- The id of the new memtable is the next one.
        change (T.engine.state.ids ++ memtable.id ::
          T.compactor.place.toList.flatMap CompactAt.taken).Nodup
        rw [List.perm_middle.nodup_iff, List.nodup_cons, hid]
        exact ⟨fun hmem => lt_irrefl _ (hlt _ hmem), hnodup⟩
      · intro id hmem
        have heq : id = memtable.id := List.mem_singleton.mp hmem
        rw [heq, hid]
        exact Nat.lt_succ_self _
      · rintro place ⟨⟩
        exact ⟨memtable, hmap, rfl⟩
    | created state =>
      obtain ⟨d, rfl, rfl⟩ := writeStep_created_ok hexec
      refine h.stepWriter_idle hexec rfl rfl rfl le_rfl rfl hts.symm ⟨hnodup, fun id hid => ?_⟩ ?_
      · exact hlt id (List.mem_append_right _ (List.mem_append_left _ hid))
      · rintro place ⟨⟩
        exact hwriting
    | recorded state => exact h.freeze hplace

/-! ### The run -/

/-- The flusher works on the oldest immutable memtable. -/
theorem Kept.current (h : T.Kept options contents) {place : FlushAt}
    (hplace : T.flusher.place = some place ∨ place = .start) : Current T.engine place := by
  rcases hplace with hplace | rfl
  · exact h.flusher place hplace
  · trivial

/-- **A step of any thread.** -/
theorem Kept.turn {m : Move} (h : T.Kept options contents) (hturn : Turn T m T') :
    ∃ contents', T'.Kept options contents' := by
  cases hturn.took with
  | nothing => exact ⟨contents, h⟩
  | call houtside hfits =>
    refine ⟨contents, h.idle ⟨rfl, le_rfl, ?_, rfl⟩ rfl rfl h.cloned ?_ ?_ h.flusher h.compactor⟩
    · unfold ahead
      rw [houtside]
      rfl
    · have hnodup := h.nodup
      have hlt := h.ids_lt
      unfold Threads.ids at hnodup hlt
      rw [houtside] at hnodup hlt
      exact ⟨hnodup, hlt⟩
    · rintro place ⟨⟩
      exact hfits
  | write hplace hok => exact ⟨contents, h.stepWriter hplace hok⟩
  | flush hplace hunlocked => exact h.stepFlusher (h.current hplace) hunlocked
  | compact hplace hundisturbed => exact h.stepCompactor hplace hundisturbed

variable {e₀ : LsmStorageInner} {moves : List Move}

theorem Kept.start (hblock : options.blockSize ≤ 65535) (hfresh : Fresh options e₀) :
    (Threads.start e₀).Kept options fun _ => [] := by
  have hsettled := hfresh.settled hblock
  have hrep := hfresh.represents hblock
  have hids : (Threads.start e₀).ids = e₀.state.ids := List.append_nil _
  refine ⟨hsettled, hfresh.noEmptyTable.keys, ?_, ?_, le_rfl, nofun, nofun, nofun, hrep.latest,
    fun x hx => (hrep.versions x).mp hx, fun x hx => Or.inl ((hrep.versions x).mpr hx)⟩
  · rw [hids]
    exact hsettled.laid.nodup
  · rw [hids]
    exact hsettled.laid.ids

/-- **The run lemma.** -/
theorem kept_of_run (hblock : options.blockSize ≤ 65535) (hfresh : Fresh options e₀)
    (hrun : Run Turn (start e₀) moves T) : ∃ contents, T.Kept options contents :=
  hrun.invariant (fun T => ∃ contents, T.Kept options contents)
    (fun _ _ _ ⟨_, h⟩ hturn => h.turn hturn) ⟨_, .start hblock hfresh⟩

/-- **Nothing is lost while threads interleave**, in whatever order a writer, a flusher and a compactor
take their steps, as long as nothing is published between the clone of a compaction and its install, and
no freeze holds a clone of its own at the install: every listed id is a table of the map, no two ids are
the same, everything stored was written, and everything written is stored but for tombstones, once a
compaction to the bottom was installed.  What happens otherwise is in `LostUpdate`. -/
theorem interleaved_keeps (hblock : options.blockSize ≤ 65535) (hfresh : Fresh options e₀)
    (hrun : Run Turn (start e₀) moves T) :
    (∀ id ∈ T.engine.state.listedIds, ∃ t, T.engine.state.sstables.lookup id = some t) ∧
      T.engine.state.ids.Nodup ∧
      (∀ x, T.engine.state.Has x → WrittenBy T.batches x) ∧
      (∀ x, WrittenBy T.batches x → T.engine.state.Has x ∨ T.Dropped x) ∧
      (T.writer.place = none → T.engine.latestCommitTs.toNat = T.batches.length) := by
  obtain ⟨contents, h⟩ := kept_of_run hblock hfresh hrun
  have hc : T.engine.state.Consistent contents := h.settled.steady.state
  refine ⟨fun id hid => ?_, hc.nodup, fun x hx => h.written x (hc.has_iff.mp hx),
    fun x hx => (h.kept x hx).imp_left hc.has_iff.mpr, fun hplace => ?_⟩
  · obtain ⟨t, ht, -⟩ := hc.tables id hid
    exact ⟨t, ht⟩
  · have hlatest := h.latest
    unfold ahead at hlatest
    rw [hplace] at hlatest
    exact hlatest

end Threads

section

attribute [local instance] shortKeyPlatform

open LsmStorageInner

namespace Threads

/-- Whether a step is a `Turn`. -/
def isTurn (T : Threads) : Move → Bool
  | .call batch => batch.all fun record =>
      record.key ≠ [] ∧ record.key.length ≤ 65535 ∧ record.value.length ≤ 65535
  | .write => T.writer.place.all fun place => ((writeStep place).exec T.engine).1.toOption.isSome
  | .flush => true
  | .compact => T.compactor.place.all fun place =>
      place.installs = [] ∨ T.published = T.cloned ∧ T.frozen.isNone

/-- The threads after a step that is a `Turn`. -/
def afterTurn (T : Threads) (m : Move) : Option Threads :=
  if T.isTurn m = true then some (T.move m) else none

theorem turn_of_afterTurn {T T' : Threads} {m : Move} (h : T.afterTurn m = some T') : Turn T m T' := by
  unfold afterTurn at h
  split at h
  · rename_i hturn
    cases h
    unfold isTurn at hturn
    cases m with
    | call batch =>
      refine ⟨fun record hrecord ts => ?_, trivial, rfl⟩
      obtain ⟨hne, hkey, hvalue⟩ := decide_eq_true_iff.mp (List.all_eq_true.mp hturn record hrecord)
      exact ⟨hne, hkey, hvalue⟩
    | write =>
      refine ⟨fun place hplace => ?_, trivial, rfl⟩
      have hsome := (Option.all_eq_true _ _).mp hturn place hplace
      cases hexec : ((writeStep place).exec T.engine).1 with
      | ok next => exact ⟨next, rfl⟩
      | error f =>
        rw [hexec] at hsome
        cases hsome
    | flush => exact ⟨trivial, trivial, rfl⟩
    | compact =>
      refine ⟨trivial, fun place hplace hne => ?_, rfl⟩
      obtain hnil | ⟨hpublished, hfrozen⟩ :=
        decide_eq_true_iff.mp ((Option.all_eq_true _ _).mp hturn place hplace)
      · exact absurd hnil hne
      · exact ⟨hpublished, Option.isNone_iff_eq_none.mp hfrozen⟩
  · cases h

/-- Every write freezes, and one table in L0 is enough for a compaction. -/
def eagerOptions : LsmStorageOptions := ⟨4096, 0, 50, .simple ⟨200, 1, 2⟩, false⟩

/-- A write and its flush, and then a batch that is put while a compaction has its clone. -/
def writeDuringCompaction : List Move :=
  .call [.put [1] [7]] :: List.replicate 7 .write ++ List.replicate 3 .flush ++
    List.replicate 3 .compact ++ [.call [.put [2] [8]], .write, .write, .compact]

theorem interleaved_keeps_small : ∃ T : Threads,
    Run Turn (start (newStore eagerOptions)) writeDuringCompaction T ∧
      T.engine.state.listedIds = [2] ∧ T.tasks.length = 1 ∧
      T.engine.state.Has (⟨[1], commitTs 1⟩, [7]) ∧ T.engine.state.Has (⟨[2], commitTs 2⟩, [8]) := by
  have hfinal : (execAll afterTurn writeDuringCompaction (start (newStore eagerOptions))).map (fun T =>
      (T.engine.state.listedIds, T.tasks.length, T.batches)) =
        some ([2], 1, [[.put [1] [7]], [.put [2] [8]]]) := by
    decide +kernel
  obtain ⟨T, hT, hsummary⟩ := Option.map_eq_some_iff.mp hfinal
  obtain ⟨hlisted, hsummary⟩ := Prod.mk.inj hsummary
  obtain ⟨htasks, hbatches⟩ := Prod.mk.inj hsummary
  have hrun := run_of_execAll (fun _ _ _ => turn_of_afterTurn) hT
  obtain ⟨-, -, -, hkept, -⟩ := interleaved_keeps (by decide) (fresh_newStore eagerOptions) hrun
  refine ⟨T, hrun, hlisted, htasks, (hkept _ ⟨0, [.put [1] [7]], ?_, rfl, by decide⟩).resolve_right ?_,
    (hkept _ ⟨1, [.put [2] [8]], ?_, rfl, by decide⟩).resolve_right ?_⟩
  · rw [hbatches]
    rfl
  · rintro ⟨htombstone, -⟩
    cases htombstone
  · rw [hbatches]
    rfl
  · rintro ⟨htombstone, -⟩
    cases htombstone

end Threads

end

end TinyLsm

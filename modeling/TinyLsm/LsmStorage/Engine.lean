import TinyLsm.LsmStorage.Read
import TinyLsm.Compact
import TinyLsm.Lib.Runs

/-!
# The engine (`lsm_storage.rs`, `compact.rs`)

The operations of `LsmStorageInner` where one call runs at a time: writing, freezing, flushing and
compacting.  An operation is an effect on the whole engine, so that what it changed before it failed
stays changed.

Each operation is followed by its inversion lemma: what a call that returned `Ok` has done.
-/

namespace TinyLsm

/-- `WriteBatchRecord`. -/
inductive WriteBatchRecord where
  | put (key value : Bytes)
  | del (key : Bytes)
  deriving DecidableEq, Repr

namespace WriteBatchRecord

/-- The key that is written. -/
def key : WriteBatchRecord → Bytes
  | put key _ => key
  | del key => key

/-- A deletion writes the empty value. -/
def value : WriteBatchRecord → Bytes
  | put _ value => value
  | del _ => []

/-- The versioned entry of a record. -/
def entry (ts : UInt64) (record : WriteBatchRecord) : Entry := (⟨record.key, ts⟩, record.value)

end WriteBatchRecord

/-- The parts of an immutable memtable becoming a table: the oldest one is taken out of the list and
its table is installed.  `idOf` is the id of a memtable. -/
def LsmStorageState.installFlush {M : Type} (idOf : M → ℕ) (flushToL0 : Bool) (sst : SsTable)
    (s : LsmStorageState M) : Outcome (LsmStorageState M) := do
  let mem ← Outcome.ofOption (.panic "called `Option::unwrap()` on a `None` value")
    s.immMemtables.getLast?
  if idOf mem = sst.id then
    let s := { s with immMemtables := s.immMemtables.dropLast }
    let s := if flushToL0 then { s with l0Sstables := sst.id :: s.l0Sstables }
      else { s with levels := (sst.id, [sst.id]) :: s.levels }
    return { s with sstables := s.sstables.insert sst.id sst }
  else throw (.panic "assertion `left == right` failed")

/-- The state in which the table of the oldest immutable memtable is installed. -/
def LsmStorageState.flushedState {M : Type} (flushToL0 : Bool) (sst : SsTable)
    (s : LsmStorageState M) : LsmStorageState M :=
  { s with
    immMemtables := s.immMemtables.dropLast
    l0Sstables := if flushToL0 then sst.id :: s.l0Sstables else s.l0Sstables
    levels := if flushToL0 then s.levels else (sst.id, [sst.id]) :: s.levels
    sstables := s.sstables.insert sst.id sst }

theorem LsmStorageState.installFlush_eq {M : Type} {idOf : M → ℕ} {sst : SsTable}
    {s : LsmStorageState M} {mem : M} (hlast : s.immMemtables.getLast? = some mem)
    (hid : idOf mem = sst.id) (flushToL0 : Bool) :
    s.installFlush idOf flushToL0 sst = .ok (s.flushedState flushToL0 sst) := by
  unfold installFlush
  rw [hlast]
  cases flushToL0 <;> simp [Outcome.ofOption, hid, flushedState, bind, Except.bind, pure, Except.pure]

/-- Exactly the table is new in the lists. -/
theorem LsmStorageState.listedIds_flushedState {M : Type} (flushToL0 : Bool) (sst : SsTable)
    (s : LsmStorageState M) :
    (s.flushedState flushToL0 sst).listedIds.Perm (sst.id :: s.listedIds) := by
  unfold listedIds flushedState
  cases flushToL0 with
  | true => exact List.Perm.refl _
  | false => exact List.perm_middle

/-- `LsmStorageInner`, with its directory. -/
structure LsmStorageInner where
  state : LsmStorageState MemTable
  disk : Disk
  nextSstId : ℕ
  latestCommitTs : UInt64
  options : LsmStorageOptions

namespace LsmStorageInner

/-- `open` makes the controller from the options. -/
def compactionController (e : LsmStorageInner) : CompactionController := e.options.compactionOptions

/-- `watermark` of `mvcc.rs`: the watermark of the readers, which is always `Some(0)`. -/
def watermark (e : LsmStorageInner) : UInt64 := (some 0 : Option UInt64).getD e.latestCommitTs

/-- The active memtable replaced. -/
def setMemtable (e : LsmStorageInner) (memtable : MemTable) : LsmStorageInner :=
  { e with state := { e.state with memtable } }

/-- A call on the engine, which keeps what it has changed when it fails. -/
abbrev EngineEffect (α : Type) := Effect Fault LsmStorageInner α

/-- A step on the directory. -/
def onDisk {α : Type} (a : DiskEffect α) : EngineEffect α :=
  Effect.zoom disk (fun disk e => { e with disk }) a

/-- A step on the active memtable and its log. -/
def onMemtable {α : Type} (a : Effect Fault (MemTable × Disk) α) : EngineEffect α :=
  Effect.zoom (fun e => (e.state.memtable, e.disk))
    (fun p e => { e.setMemtable p.1 with disk := p.2 }) a

/-- A step of a compaction, which writes files and takes ids. -/
def onCompact {α : Type} (a : CompactEffect α) : EngineEffect α :=
  Effect.zoom (fun e => (e.disk, e.nextSstId))
    (fun p e => { e with disk := p.1, nextSstId := p.2 }) a

/-- `next_sst_id`. -/
def takeSstId : EngineEffect ℕ := do
  let e ← get
  modify fun e => { e with nextSstId := e.nextSstId + 1 }
  return e.nextSstId

/-- The memtable that becomes active. -/
def newMemtable (id : ℕ) : EngineEffect MemTable := do
  if (← get).options.enableWal then onDisk (MemTable.createWithWal id)
  else return MemTable.create id

/-- `force_freeze_memtable`. -/
def forceFreezeMemtable : EngineEffect Unit := do
  let e ← get
  let state := { e.state with immMemtables := e.state.memtable :: e.state.immMemtables }
  let memtable ← newMemtable (← takeSstId)
  onDisk (Manifest.addRecord (.newMemtable memtable.id))
  modify fun e => { e with state := { state with memtable } }

/-- `try_freeze`. -/
def tryFreeze : EngineEffect Unit := do
  let e ← get
  if e.state.memtable.approximateSize ≥ e.options.targetSstSize then forceFreezeMemtable
  else pure ()

variable [Platform]

/-- `latest_commit_ts() + 1`. -/
def nextTs (ts : UInt64) : Outcome UInt64 :=
  if ts.toNat + 1 < 2 ^ 64 then .ok (ts + 1)
  else .error (.panic "attempt to add with overflow")

/-- `write_batch`. -/
def writeBatch (batch : List WriteBatchRecord) : EngineEffect Unit := do
  let e ← get
  let ts ← liftM (nextTs e.latestCommitTs)
  onMemtable (MemTable.putBatch (batch.map (WriteBatchRecord.entry ts)))
  tryFreeze
  modify fun e => { e with latestCommitTs := ts }

/-- `force_flush_next_imm_memtable`. -/
def forceFlushNextImmMemtable : EngineEffect Unit := do
  let e ← get
  match e.state.immMemtables.getLast? with
  | none => pure ()
  | some memtable => do
    let builder ← liftM (memtable.flush (SsTableBuilder.new e.options.blockSize))
    let sst := builder.build memtable.id
    onDisk (FileObject.create memtable.id sst.file)
    let e ← get
    let state ← liftM
      (e.state.installFlush MemTable.id e.compactionController.flushToL0 sst)
    modify fun e => { e with state }
    onDisk (Manifest.addRecord (.flush memtable.id))

/-- `for id in ids { remove_file(path_of_sst(id))? }`. -/
def removeFiles : List ℕ → EngineEffect Unit
  | [] => pure ()
  | id :: ids => do
    onDisk (FileObject.remove id)
    removeFiles ids

/-- `for id in ids { sstables.remove(id) }`. -/
def eraseTables (ids : List ℕ) (m : SstMap) : SstMap := ids.foldl (fun m id => m.erase id) m

/-- `for sst in ssts { sstables.insert(sst.sst_id(), sst) }`. -/
def insertTables (ssts : List SsTable) (m : SstMap) : SstMap :=
  ssts.foldl (fun m sst => m.insert sst.id sst) m

omit [Platform] in
theorem lookup_eraseTables (ids : List ℕ) (m : SstMap) (id : ℕ) :
    (eraseTables ids m).lookup id = if id ∈ ids then none else m.lookup id := by
  induction ids generalizing m with
  | nil => simp [eraseTables]
  | cons a ids ih =>
    rw [eraseTables, List.foldl_cons, ← eraseTables, ih]
    by_cases ha : id = a
    · subst ha
      simp [AList.lookup_erase]
    · simp [AList.lookup_erase_ne ha, ha]

omit [Platform] in
theorem lookup_insertTables_of_notMem {ssts : List SsTable} {id : ℕ}
    (h : id ∉ ssts.map SsTable.id) (m : SstMap) :
    (insertTables ssts m).lookup id = m.lookup id := by
  induction ssts generalizing m with
  | nil => rfl
  | cons t ssts ih =>
    rw [List.map_cons, List.mem_cons, not_or] at h
    rw [insertTables, List.foldl_cons, ← insertTables, ih h.2, AList.lookup_insert_ne h.1]

omit [Platform] in
theorem lookup_insertTables_of_mem {ssts : List SsTable} (h : (ssts.map SsTable.id).Nodup)
    {t : SsTable} (ht : t ∈ ssts) (m : SstMap) : (insertTables ssts m).lookup t.id = some t := by
  induction ssts generalizing m with
  | nil => cases ht
  | cons u ssts ih =>
    rw [List.map_cons, List.nodup_cons] at h
    rw [insertTables, List.foldl_cons, ← insertTables]
    rcases List.mem_cons.mp ht with rfl | ht
    · rw [lookup_insertTables_of_notMem h.1, AList.lookup_insert]
    · exact ih h.2 ht _

omit [Platform] in
/-- What is found was inserted or was there before. -/
theorem mem_or_lookup_of_insertTables {ssts : List SsTable} {m : SstMap} {id : ℕ} {t : SsTable}
    (h : (insertTables ssts m).lookup id = some t) : t ∈ ssts ∨ m.lookup id = some t := by
  induction ssts generalizing m with
  | nil => exact Or.inr h
  | cons u ssts ih =>
    rw [insertTables, List.foldl_cons, ← insertTables] at h
    rcases ih h with ht | hlookup
    · exact Or.inl (List.mem_cons_of_mem _ ht)
    · by_cases hid : id = u.id
      · subst hid
        rw [AList.lookup_insert] at hlookup
        exact Or.inl (by rw [Option.some.inj hlookup]; exact List.mem_cons_self)
      · rw [AList.lookup_insert_ne hid] at hlookup
        exact Or.inr hlookup

/-- `trigger_compaction`. -/
def triggerCompaction : EngineEffect Unit := do
  let e ← get
  match ← liftM (e.compactionController.generateCompactionTask e.state) with
  | none => pure ()
  | some task => do
    let output ← onCompact (compact e.options e.state task)
    let e ← get
    let state := { e.state with sstables := insertTables output e.state.sstables }
    let (state, removed) ← liftM
      (e.compactionController.applyCompactionResult state task (output.map SsTable.id) false)
    modify fun e => { e with state :=
      { state with sstables := eraseTables removed state.sstables } }
    removeFiles removed

/-- `force_full_compaction`. -/
def forceFullCompaction : EngineEffect Unit := do
  let e ← get
  let l0Sstables := e.state.l0Sstables
  let level1 ← liftM (index e.state.levels 0)
  let sstsToCompact := l0Sstables ++ level1.2
  let newSsts ← onCompact (compact e.options e.state (.forceFullCompaction l0Sstables level1.2))
  let e ← get
  let levels ← liftM (setIndex e.state.levels 0 (1, newSsts.map SsTable.id))
  modify fun e => { e with state := { e.state with
    l0Sstables := e.state.l0Sstables.filter fun id => id ∉ sstsToCompact
    sstables := insertTables newSsts (eraseTables sstsToCompact e.state.sstables)
    levels } }
  removeFiles sstsToCompact

/-- `get`. -/
protected def get (e : LsmStorageInner) (key : Bytes) : Outcome (Option Bytes) :=
  e.state.getWithTs key e.latestCommitTs

/-! ## What a successful call has done -/

section

variable {e e' : LsmStorageInner}

omit [Platform] in
theorem onDisk_eq_ok {α : Type} {a : DiskEffect α} {x : α} (h : (onDisk a).exec e = (.ok x, e')) :
    ∃ d, a.exec e.disk = (.ok x, d) ∧ e' = { e with disk := d } := by
  unfold onDisk at h
  rw [Effect.exec_zoom, Prod.mk.injEq] at h
  exact ⟨_, Prod.ext h.1 rfl, h.2.symm⟩

omit [Platform] in
theorem onCompact_eq_ok {α : Type} {a : CompactEffect α} {x : α}
    (h : (onCompact a).exec e = (.ok x, e')) :
    ∃ d next, a.exec (e.disk, e.nextSstId) = (.ok x, (d, next)) ∧
      e' = { e with disk := d, nextSstId := next } := by
  unfold onCompact at h
  rw [Effect.exec_zoom, Prod.mk.injEq] at h
  exact ⟨_, _, Prod.ext h.1 rfl, h.2.symm⟩

omit [Platform] in
theorem liftM_eq_ok {α : Type} {o : Outcome α} {x : α}
    (h : (liftM o : EngineEffect α).exec e = (.ok x, e')) : o = .ok x ∧ e = e' := by
  rwa [Effect.exec_lift, Prod.mk.injEq] at h

/-- What a freeze has done: the active memtable is the first immutable one, and a new memtable is
active. -/
structure Froze (e e' : LsmStorageInner) (memtable : MemTable) : Prop where
  empty : memtable.map = SkipMap.new
  id : memtable.id = e.nextSstId
  wal : memtable.wal = if e.options.enableWal then some ⟨e.nextSstId⟩ else none
  state : e'.state = { e.state with
    memtable
    immMemtables := e.state.memtable :: e.state.immMemtables }
  nextSstId : e'.nextSstId = e.nextSstId + 1
  latestCommitTs : e'.latestCommitTs = e.latestCommitTs
  options : e'.options = e.options
  manifest : e'.disk.manifest = e.disk.manifest.map (· ++ [.newMemtable e.nextSstId])
  ssts : e'.disk.ssts = e.disk.ssts
  wals : e'.disk.wals =
    if e.options.enableWal then e.disk.wals.insert e.nextSstId [] else e.disk.wals
  fresh : e.options.enableWal = true → e.disk.wals.lookup e.nextSstId = none

omit [Platform] in
/-- The logs that exist stay as they are. -/
theorem Froze.lookup_wals {m : MemTable} (h : Froze e e' m) {id : ℕ} {bytes : Bytes}
    (hlog : e.disk.wals.lookup id = some bytes) : e'.disk.wals.lookup id = some bytes := by
  rw [h.wals]
  split
  · rename_i hwal
    have hne : id ≠ e.nextSstId := by
      rintro rfl
      rw [h.fresh hwal] at hlog
      cases hlog
    rw [AList.lookup_insert_ne hne]
    exact hlog
  · exact hlog

omit [Platform] in
theorem forceFreezeMemtable_ok (h : forceFreezeMemtable.exec e = (.ok (), e')) :
    ∃ memtable, Froze e e' memtable := by
  unfold forceFreezeMemtable takeSstId newMemtable at h
  rw [Effect.exec_get_bind] at h
  simp only [bind_assoc, pure_bind] at h
  rw [Effect.exec_get_bind, Effect.exec_modify_bind, Effect.exec_get_bind,
    Effect.exec_bind_eq_ok_iff] at h
  obtain ⟨memtable, e₁, hnew, h⟩ := h
  rw [Effect.exec_bind_eq_ok_iff] at h
  obtain ⟨u, e₂, hrecord, h⟩ := h
  obtain ⟨d₂, hadd, rfl⟩ := onDisk_eq_ok hrecord
  obtain ⟨hmanifest, hssts, hwals⟩ := Manifest.addRecord_eq_ok hadd
  rw [Effect.exec_modify, Prod.mk.injEq] at h
  obtain ⟨-, rfl⟩ := h
  by_cases hwal : e.options.enableWal = true
  · rw [if_pos hwal] at hnew
    obtain ⟨d₁, hcreate, rfl⟩ := onDisk_eq_ok hnew
    obtain ⟨hmap, hid, hlog, hfresh, hwals₁, hssts₁, hmanifest₁⟩ := MemTable.createWithWal_eq_ok hcreate
    refine ⟨memtable, ⟨hmap, hid, ?_, rfl, rfl, rfl, rfl, ?_, ?_, ?_, fun _ => hfresh⟩⟩
    · rw [if_pos hwal, hlog]
    · rw [hmanifest, hmanifest₁, hid]
    · rw [hssts, hssts₁]
    · rw [if_pos hwal, hwals, hwals₁]
  · rw [if_neg hwal] at hnew
    cases hnew
    refine ⟨_, ⟨rfl, rfl, ?_, rfl, rfl, rfl, rfl, hmanifest, hssts, ?_, fun h => absurd h hwal⟩⟩
    · rw [if_neg hwal]
      rfl
    · rw [if_neg hwal, hwals]

omit [Platform] in
theorem tryFreeze_ok (h : tryFreeze.exec e = (.ok (), e')) :
    e' = e ∨ e.options.targetSstSize ≤ e.state.memtable.approximateSize ∧
      ∃ memtable, Froze e e' memtable := by
  unfold tryFreeze at h
  rw [Effect.exec_get_bind] at h
  split at h
  · rename_i hsize
    exact Or.inr ⟨hsize, forceFreezeMemtable_ok h⟩
  · cases h
    exact Or.inl rfl

/-- The engine after a batch went into the memtable. -/
def afterPut (e : LsmStorageInner) (data : List Entry) (d : Disk) : LsmStorageInner :=
  { e.setMemtable (e.state.memtable.insertAll data) with disk := d }

/-- What a write has done: the batch is in the memtable at the next timestamp, which is then
committed; in between the memtable may have been frozen. -/
theorem writeBatch_ok {batch : List WriteBatchRecord}
    (h : (writeBatch batch).exec e = (.ok (), e')) :
    ∃ ts d e₁, nextTs e.latestCommitTs = .ok ts ∧
      e.state.memtable.Logged e.disk d (batch.map (WriteBatchRecord.entry ts)) ∧
      tryFreeze.exec (e.afterPut (batch.map (WriteBatchRecord.entry ts)) d) = (.ok (), e₁) ∧
      e' = { e₁ with latestCommitTs := ts } := by
  unfold writeBatch at h
  rw [Effect.exec_get_bind, Effect.exec_bind_eq_ok_iff] at h
  obtain ⟨ts, e₀, hlift, h⟩ := h
  obtain ⟨hts, rfl⟩ := liftM_eq_ok hlift
  rw [Effect.exec_bind_eq_ok_iff] at h
  obtain ⟨u, e₁, hput, h⟩ := h
  rw [Effect.exec_bind_eq_ok_iff] at h
  obtain ⟨u', e₂, hfreeze, h⟩ := h
  cases h
  obtain ⟨o, d, n, hexec, hcase⟩ :=
    MemTable.putBatch_exec (batch.map (WriteBatchRecord.entry ts)) e.state.memtable e.disk
  unfold onMemtable at hput
  rw [Effect.exec_zoom, hexec, Prod.mk.injEq] at hput
  obtain ⟨rfl, rfl⟩ := hput
  rcases hcase with ⟨-, rfl, hlogged⟩ | ⟨⟨f, hf⟩, -⟩
  · rw [List.take_length] at hfreeze
    exact ⟨ts, d, e₂, hts, hlogged, hfreeze, rfl⟩
  · cases hf

/-- What a flush has done: the oldest immutable memtable has become a table. -/
structure Flushed (e e' : LsmStorageInner) (m : MemTable) (builder : SsTableBuilder) : Prop where
  imms : e.state.immMemtables = e'.state.immMemtables ++ [m]
  flush : m.flush (SsTableBuilder.new e.options.blockSize) = .ok builder
  memtable : e'.state.memtable = e.state.memtable
  l0Sstables : e'.state.l0Sstables =
    if e.compactionController.flushToL0 then m.id :: e.state.l0Sstables else e.state.l0Sstables
  levels : e'.state.levels =
    if e.compactionController.flushToL0 then e.state.levels
    else (m.id, [m.id]) :: e.state.levels
  sstables : e'.state.sstables = e.state.sstables.insert m.id (builder.build m.id)
  nextSstId : e'.nextSstId = e.nextSstId
  latestCommitTs : e'.latestCommitTs = e.latestCommitTs
  options : e'.options = e.options
  manifest : e'.disk.manifest = e.disk.manifest.map (· ++ [.flush m.id])
  ssts : e'.disk.ssts = e.disk.ssts.insert m.id (builder.build m.id).file
  wals : e'.disk.wals = e.disk.wals

omit [Platform] in
theorem installFlush_ok {M : Type} {idOf : M → ℕ} {flushToL0 : Bool} {sst : SsTable}
    {s s' : LsmStorageState M} (h : s.installFlush idOf flushToL0 sst = .ok s') :
    ∃ mem, s.immMemtables = s'.immMemtables ++ [mem] ∧ idOf mem = sst.id ∧
      s' = s.flushedState flushToL0 sst := by
  have hinstall := h
  unfold LsmStorageState.installFlush at h
  rw [Outcome.bind_eq_ok_iff] at h
  obtain ⟨mem, hlast, h⟩ := h
  rw [Outcome.ofOption_eq_ok_iff] at hlast
  split at h
  · rename_i hid
    rw [LsmStorageState.installFlush_eq hlast hid] at hinstall
    obtain rfl := Except.ok.inj hinstall
    exact ⟨mem, (List.dropLast_append_getLast? mem hlast).symm, hid, rfl⟩
  · cases h

theorem forceFlushNextImmMemtable_ok (h : forceFlushNextImmMemtable.exec e = (.ok (), e')) :
    e.state.immMemtables = [] ∧ e' = e ∨ ∃ memtable builder, Flushed e e' memtable builder := by
  unfold forceFlushNextImmMemtable at h
  rw [Effect.exec_get_bind] at h
  simp only at h
  cases hlast : e.state.immMemtables.getLast? with
  | none =>
    rw [hlast] at h
    cases h
    exact Or.inl ⟨List.getLast?_eq_none_iff.mp hlast, rfl⟩
  | some m =>
    rw [hlast] at h
    simp only at h
    rw [Effect.exec_bind_eq_ok_iff] at h
    obtain ⟨builder, e₁, hlift, h⟩ := h
    obtain ⟨hflush, rfl⟩ := liftM_eq_ok hlift
    rw [Effect.exec_bind_eq_ok_iff] at h
    obtain ⟨u, e₂, hdisk, h⟩ := h
    obtain ⟨d, hcreate, rfl⟩ := onDisk_eq_ok hdisk
    obtain ⟨hssts, hmanifest, hwals⟩ := FileObject.create_eq_ok hcreate
    rw [Effect.exec_get_bind, Effect.exec_bind_eq_ok_iff] at h
    obtain ⟨state, e₃, hlift, h⟩ := h
    obtain ⟨hinstall, rfl⟩ := liftM_eq_ok hlift
    rw [Effect.exec_modify_bind] at h
    obtain ⟨d', hrecord, rfl⟩ := onDisk_eq_ok h
    obtain ⟨hmanifest', hssts', hwals'⟩ := Manifest.addRecord_eq_ok hrecord
    obtain ⟨mem, himms, -, hstate⟩ := installFlush_ok hinstall
    have hmem : mem = m := by
      rw [himms, List.getLast?_concat] at hlast
      exact Option.some.inj hlast
    subst hmem
    refine Or.inr ⟨mem, builder, himms, hflush, ?_, ?_, ?_, ?_, rfl, rfl, rfl, ?_, ?_, ?_⟩
    · rw [hstate]
      rfl
    · rw [hstate]
      rfl
    · rw [hstate]
      rfl
    · rw [hstate]
      rfl
    · rw [hmanifest', hmanifest]
    · rw [hssts', hssts]
    · rw [hwals', hwals]

omit [Platform] in
/-- What removing files has done. -/
theorem removeFiles_ok {ids : List ℕ} (h : (removeFiles ids).exec e = (.ok (), e')) :
    ∃ d, e' = { e with disk := d } ∧ d.ssts = ids.foldl (fun m id => m.erase id) e.disk.ssts ∧
      d.manifest = e.disk.manifest ∧ d.wals = e.disk.wals := by
  induction ids generalizing e with
  | nil =>
    rw [removeFiles, Effect.exec_pure, Prod.mk.injEq] at h
    obtain ⟨-, rfl⟩ := h
    exact ⟨e.disk, rfl, rfl, rfl, rfl⟩
  | cons id ids ih =>
    rw [removeFiles, Effect.exec_bind_eq_ok_iff] at h
    obtain ⟨u, e₁, hremove, h⟩ := h
    obtain ⟨d₁, hfile, rfl⟩ := onDisk_eq_ok hremove
    obtain ⟨hssts₁, hmanifest₁, hwals₁⟩ := FileObject.remove_eq_ok hfile
    obtain ⟨d, rfl, hssts, hmanifest, hwals⟩ := ih h
    refine ⟨d, rfl, ?_, hmanifest.trans hmanifest₁, hwals.trans hwals₁⟩
    rw [hssts, hssts₁]
    rfl

/-- What a background compaction has done, when there was a task. -/
structure Compacted (e e' : LsmStorageInner) (task : CompactionTask) (output : List SsTable)
    (s : LsmStorageState MemTable) (removed : List ℕ) : Prop where
  generated : e.compactionController.generateCompactionTask e.state = .ok (some task)
  compact : ∃ d, (compact e.options e.state task).exec (e.disk, e.nextSstId) =
      (.ok output, (d, e'.nextSstId)) ∧
    e'.disk.ssts = removed.foldl (fun m id => m.erase id) d.ssts ∧
    e'.disk.manifest = d.manifest ∧ e'.disk.wals = d.wals
  apply : e.compactionController.applyCompactionResult
    { e.state with sstables := insertTables output e.state.sstables } task (output.map SsTable.id)
      false = .ok (s, removed)
  state : e'.state = { s with sstables := eraseTables removed s.sstables }
  latestCommitTs : e'.latestCommitTs = e.latestCommitTs
  options : e'.options = e.options

theorem triggerCompaction_ok (h : triggerCompaction.exec e = (.ok (), e')) :
    e.compactionController.generateCompactionTask e.state = .ok none ∧ e' = e ∨
      ∃ task output s removed, Compacted e e' task output s removed := by
  unfold triggerCompaction at h
  rw [Effect.exec_get_bind, Effect.exec_bind_eq_ok_iff] at h
  obtain ⟨task, e₁, hlift, h⟩ := h
  obtain ⟨htask, rfl⟩ := liftM_eq_ok hlift
  cases task with
  | none =>
    cases h
    exact Or.inl ⟨htask, rfl⟩
  | some task =>
    simp only at h
    rw [Effect.exec_bind_eq_ok_iff] at h
    obtain ⟨output, e₂, hon, h⟩ := h
    obtain ⟨d, next, hcompact, rfl⟩ := onCompact_eq_ok hon
    rw [Effect.exec_get_bind, Effect.exec_bind_eq_ok_iff] at h
    obtain ⟨⟨s, removed⟩, e₃, hlift, h⟩ := h
    obtain ⟨happly, rfl⟩ := liftM_eq_ok hlift
    rw [Effect.exec_modify_bind] at h
    obtain ⟨d', rfl, hssts, hmanifest, hwals⟩ := removeFiles_ok h
    exact Or.inr ⟨task, output, s, removed,
      ⟨htask, ⟨d, hcompact, hssts, hmanifest, hwals⟩, happly, rfl, rfl, rfl⟩⟩

/-- What a full compaction has done: `level₁` was the first level. -/
structure FullyCompacted (e e' : LsmStorageInner) (level₁ : ℕ × List ℕ) (newSsts : List SsTable) :
    Prop where
  level : e.state.levels[0]? = some level₁
  compact : ∃ d, (compact e.options e.state
      (.forceFullCompaction e.state.l0Sstables level₁.2)).exec (e.disk, e.nextSstId) =
        (.ok newSsts, (d, e'.nextSstId)) ∧
    e'.disk.ssts = (e.state.l0Sstables ++ level₁.2).foldl (fun m id => m.erase id) d.ssts ∧
    e'.disk.manifest = d.manifest ∧ e'.disk.wals = d.wals
  state : e'.state = { e.state with
    l0Sstables := []
    levels := e.state.levels.set 0 (1, newSsts.map SsTable.id)
    sstables := insertTables newSsts (eraseTables (e.state.l0Sstables ++ level₁.2) e.state.sstables) }
  latestCommitTs : e'.latestCommitTs = e.latestCommitTs
  options : e'.options = e.options

theorem forceFullCompaction_ok (h : forceFullCompaction.exec e = (.ok (), e')) :
    ∃ level₁ newSsts, FullyCompacted e e' level₁ newSsts := by
  unfold forceFullCompaction at h
  rw [Effect.exec_get_bind, Effect.exec_bind_eq_ok_iff] at h
  obtain ⟨level₁, e₁, hlift, h⟩ := h
  obtain ⟨hlevel, rfl⟩ := liftM_eq_ok hlift
  simp only at h
  rw [Effect.exec_bind_eq_ok_iff] at h
  obtain ⟨newSsts, e₂, hon, h⟩ := h
  obtain ⟨d, next, hcompact, rfl⟩ := onCompact_eq_ok hon
  rw [Effect.exec_get_bind, Effect.exec_bind_eq_ok_iff] at h
  obtain ⟨levels, e₃, hlift, h⟩ := h
  obtain ⟨hlevels, rfl⟩ := liftM_eq_ok hlift
  rw [Effect.exec_modify_bind] at h
  obtain ⟨d', rfl, hssts, hmanifest, hwals⟩ := removeFiles_ok h
  refine ⟨level₁, newSsts, ⟨index_eq_ok_iff.mp hlevel, ⟨d, hcompact, hssts, hmanifest, hwals⟩, ?_,
    rfl, rfl⟩⟩
  obtain ⟨-, rfl⟩ := setIndex_eq_ok_iff.mp hlevels
  have hl0 : (e.state.l0Sstables.filter fun id => id ∉ e.state.l0Sstables ++ level₁.2) = [] := by
    rw [List.filter_eq_nil_iff]
    intro id hid
    simp [hid]
  simp only [hl0]

end

/-! ## Runs -/

/-- A call to the engine. -/
inductive Op where
  | writeBatch (batch : List WriteBatchRecord)
  | freeze
  | flush
  | compact
  | fullCompact

/-- The function that a call runs. -/
def Op.call : Op → EngineEffect Unit
  | .writeBatch batch => LsmStorageInner.writeBatch batch
  | .freeze => forceFreezeMemtable
  | .flush => forceFlushNextImmMemtable
  | .compact => triggerCompaction
  | .fullCompact => forceFullCompaction

/-- The call returns `Ok` and leaves the engine `e'`. -/
def Step (e : LsmStorageInner) (op : Op) (e' : LsmStorageInner) : Prop :=
  op.call.exec e = (.ok (), e')

theorem Step.unique {op : Op} {e e₁ e₂ : LsmStorageInner} (h₁ : Step e op e₁) (h₂ : Step e op e₂) :
    e₁ = e₂ := (Prod.mk.inj (Eq.trans (Eq.symm h₁) h₂)).2

/-- Keys are not empty, and no empty memtable is frozen, also not by a write of nothing. -/
def Op.Proper (e : LsmStorageInner) : Op → Prop
  | .writeBatch batch => (∀ record ∈ batch, record.key ≠ []) ∧
      (batch = [] → e.state.memtable.map.entries = [] →
        e.state.memtable.approximateSize < e.options.targetSstSize)
  | .freeze => e.state.memtable.map.entries ≠ []
  | .flush => True
  | .compact => True
  | .fullCompact => True

instance (e : LsmStorageInner) (op : Op) : Decidable (op.Proper e) := by
  cases op <;> unfold Op.Proper <;> infer_instance

/-- Calls that return `Ok`, one after the other, each of which meets the condition `C` in the state
in which it is made. -/
abbrev RunOf (C : LsmStorageInner → Op → Prop) (e : LsmStorageInner) (ops : List Op)
    (e' : LsmStorageInner) : Prop :=
  Run (fun e op e' => C e op ∧ Step e op e') e ops e'

/-- The engine after a call, if that returns `Ok`. -/
def afterCall (e : LsmStorageInner) (op : Op) : Option LsmStorageInner :=
  match op.call.exec e with
  | (.ok (), e') => some e'
  | (.error _, _) => none

theorem step_of_afterCall {op : Op} {e e' : LsmStorageInner} (h : afterCall e op = some e') :
    Step e op e' := by
  unfold afterCall at h
  split at h
  · rename_i hexec
    rw [← Option.some.inj h]
    exact hexec
  · cases h

/-- The engine after some calls, if each of them is proper and returns `Ok`. -/
def afterCalls (ops : List Op) (e : LsmStorageInner) : Option LsmStorageInner :=
  execAll (fun e op => if op.Proper e then afterCall e op else none) ops e

theorem run_of_afterCalls {ops : List Op} {e e' : LsmStorageInner}
    (h : afterCalls ops e = some e') : RunOf (fun e op => op.Proper e) e ops e' := by
  refine run_of_execAll ?_ h
  intro e op e' hcall
  split at hcall
  · rename_i hproper
    exact ⟨hproper, step_of_afterCall hcall⟩
  · cases hcall

end LsmStorageInner

end TinyLsm

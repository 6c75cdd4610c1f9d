import TinyLsm.LsmStorage.Flushers
import TinyLsm.LsmStorage.Contents

/-!
# The threads of a store

Somebody writes, one thread flushes and one thread compacts.  `write_batch` and `trigger_compaction`
are cut here into the atomic steps that their locks delimit (`drive_writeStep`, `drive_compactStep`),
as freezes and flushes are in `Publish`, and `Threads.move` does one step of one thread.

`trigger_compaction` holds no lock between the state that it clones and the one that it writes back, so
what was published in between is gone; and a freeze that holds a clone at that moment will publish a state
without the output.  `Threads.Undisturbed` says that neither happens.
-/

namespace TinyLsm

namespace LsmStorageInner

/-- Where a call of `write_batch` stands.  It holds `write_lock`. -/
inductive WriteAt where
  | start (batch : List WriteBatchRecord)
  /-- The timestamp of the batch has been made. -/
  | stamped (ts : UInt64) (batch : List WriteBatchRecord)
  /-- The batch is in the memtable. -/
  | written (ts : UInt64)
  /-- In `force_freeze_memtable`; `state_lock` is held. -/
  | freezing (ts : UInt64) (place : FreezeAt)
  | committing (ts : UInt64)

/-- Where a call of `trigger_compaction` stands.  It holds no lock. -/
inductive CompactAt where
  | start
  | planned (task : CompactionTask)
  /-- The tables of the output are written. -/
  | merged (task : CompactionTask) (output : List SsTable)
  /-- The next state has been made from a clone. -/
  | applied (task : CompactionTask) (output : List ℕ) (state : LsmStorageState MemTable)
    (removed : List ℕ)
  /-- The next state has been written back. -/
  | installed (removed : List ℕ)

variable [Platform]

/-- `write_batch`, from one lock to the next. -/
def writeStep : WriteAt → EngineEffect (Option WriteAt)
  | .start batch => do
    let e ← get
    let ts ← liftM (nextTs e.latestCommitTs)
    return some (.stamped ts batch)
  | .stamped ts batch => do
    onMemtable (MemTable.putBatch (batch.map (WriteBatchRecord.entry ts)))
    return some (.written ts)
  | .written ts => do
    let e ← get
    if e.state.memtable.approximateSize ≥ e.options.targetSstSize then
      return some (.freezing ts .start)
    else return some (.committing ts)
  | .freezing ts place => do
    match ← freezeStep place with
    | some place => return some (.freezing ts place)
    | none => return some (.committing ts)
  | .committing ts => do
    modify fun e => { e with latestCommitTs := ts }
    return none

/-- A merge is one step: it reads the one state that it clones, and of what it does the others see only
that ids are used up. -/
def compactStep : CompactAt → EngineEffect (Option CompactAt)
  | .start => do
    let e ← get
    match ← liftM (e.compactionController.generateCompactionTask e.state) with
    | none => return none
    | some task => return some (.planned task)
  | .planned task => do
    let e ← get
    let output ← onCompact (compact e.options e.state task)
    return some (.merged task output)
  | .merged task output => do
    let e ← get
    let state := { e.state with sstables := insertTables output e.state.sstables }
    let (state, removed) ← liftM
      (e.compactionController.applyCompactionResult state task (output.map SsTable.id) false)
    return some (.applied task (output.map SsTable.id)
      { state with sstables := eraseTables removed state.sstables } removed)
  | .applied _ _ state removed => do
    modify fun e => { e with state }
    return some (.installed removed)
  | .installed removed => do
    removeFiles removed
    return none

/-- The steps of a freeze inside a write. -/
theorem drive_freezing (ts : UInt64) (e : LsmStorageInner) :
    (Effect.drive writeStep 4 (.freezing ts .start)).exec e =
      (forceFreezeMemtable >>= fun _ => modify fun e => { e with latestCommitTs := ts }).exec e := by
  simp only [Effect.drive, writeStep, freezeStep, forceFreezeMemtable, bind_assoc, pure_bind,
    Effect.exec_get_bind, bind_pure_unit]

/-- The steps of a write after its batch went into the memtable. -/
theorem drive_written (ts : UInt64) (e : LsmStorageInner) :
    (Effect.drive writeStep 5 (.written ts)).exec e =
      (tryFreeze >>= fun _ => modify fun e => { e with latestCommitTs := ts }).exec e := by
  rw [Effect.drive, writeStep, tryFreeze, bind_assoc, bind_assoc, Effect.exec_get_bind,
    Effect.exec_get_bind]
  split
  · rw [pure_bind]
    exact drive_freezing ts e
  · rfl

/-- **The steps of a write are the write.** -/
theorem drive_writeStep (batch : List WriteBatchRecord) (e : LsmStorageInner) :
    (Effect.drive writeStep 7 (.start batch)).exec e = (writeBatch batch).exec e := by
  rw [Effect.drive, writeStep, writeBatch, bind_assoc, Effect.exec_get_bind, Effect.exec_get_bind,
    bind_assoc]
  cases nextTs e.latestCommitTs with
  | error f => rfl
  | ok ts =>
    rw [Effect.exec_lift_bind, Effect.exec_lift_bind, pure_bind]
    simp only
    rw [Effect.drive, writeStep, bind_assoc]
    cases hput : (onMemtable (MemTable.putBatch (batch.map (WriteBatchRecord.entry ts)))).exec e with
    | mk o e₁ =>
      cases o with
      | error f => rw [Effect.exec_bind_of_error hput, Effect.exec_bind_of_error hput]
      | ok u =>
        rw [Effect.exec_bind_of_ok hput, Effect.exec_bind_of_ok hput, pure_bind]
        exact drive_written ts e₁

/-- **The steps of a compaction are the compaction.** -/
theorem drive_compactStep (e : LsmStorageInner) :
    (Effect.drive compactStep 5 .start).exec e = triggerCompaction.exec e := by
  rw [Effect.drive, compactStep, triggerCompaction, bind_assoc, Effect.exec_get_bind,
    Effect.exec_get_bind, bind_assoc]
  cases e.compactionController.generateCompactionTask e.state with
  | error f => rfl
  | ok task =>
    rw [Effect.exec_lift_bind, Effect.exec_lift_bind]
    cases task with
    | none => rfl
    | some task =>
      simp only [pure_bind]
      rw [Effect.drive, compactStep, bind_assoc, Effect.exec_get_bind, bind_assoc]
      cases hcompact : (onCompact (compact e.options e.state task)).exec e with
      | mk o e₁ =>
        cases o with
        | error f => rw [Effect.exec_bind_of_error hcompact, Effect.exec_bind_of_error hcompact]
        | ok output =>
          rw [Effect.exec_bind_of_ok hcompact, Effect.exec_bind_of_ok hcompact, pure_bind]
          simp only
          rw [Effect.drive, compactStep, bind_assoc, Effect.exec_get_bind, Effect.exec_get_bind,
            bind_assoc]
          cases e₁.compactionController.applyCompactionResult
              { e₁.state with sstables := insertTables output e₁.state.sstables } task
              (output.map SsTable.id) false with
          | error f => rfl
          | ok p =>
            rw [Effect.exec_lift_bind, Effect.exec_lift_bind, pure_bind]
            simp only [Effect.drive, compactStep, bind_assoc, pure_bind, bind_pure_unit]

/-! ## What the steps do -/

theorem compactStep_start (e : LsmStorageInner) : (compactStep .start).exec e =
    ((e.compactionController.generateCompactionTask e.state).map fun task => task.map .planned, e) := by
  rw [compactStep, Effect.exec_get_bind]
  generalize e.compactionController.generateCompactionTask e.state = o
  cases o with
  | error f => exact Effect.exec_bind_of_error (Effect.exec_lift _ e)
  | ok task =>
    rw [Effect.exec_lift_bind]
    cases task with
    | none => exact Effect.exec_pure _ e
    | some task => exact Effect.exec_pure _ e

theorem compactStep_planned (e : LsmStorageInner) (task : CompactionTask) :
    ∃ o d next, (compact e.options e.state task).exec (e.disk, e.nextSstId) = (o, (d, next)) ∧
      e.nextSstId ≤ next ∧ (compactStep (.planned task)).exec e =
        (o.map fun output => some (.merged task output), { e with disk := d, nextSstId := next }) := by
  have hnext := keeps_compact e.options e.state task (e.disk, e.nextSstId)
  rw [compactStep, Effect.exec_get_bind]
  generalize compact e.options e.state task = a at hnext
  cases hcompact : a.exec (e.disk, e.nextSstId) with
  | mk o q =>
    obtain ⟨d, next⟩ := q
    rw [hcompact] at hnext
    refine ⟨o, d, next, rfl, hnext, ?_⟩
    have hexec : (onCompact a).exec e = (o, { e with disk := d, nextSstId := next }) := by
      unfold onCompact
      rw [Effect.exec_zoom, hcompact]
    cases o with
    | error f => exact Effect.exec_bind_of_error hexec
    | ok output => exact (Effect.exec_bind_of_ok hexec).trans (Effect.exec_pure _ _)

theorem compactStep_merged (e : LsmStorageInner) (task : CompactionTask) (output : List SsTable) :
    (compactStep (.merged task output)).exec e =
      ((e.compactionController.applyCompactionResult
        { e.state with sstables := insertTables output e.state.sstables } task (output.map SsTable.id)
          false).map fun p => some (.applied task (output.map SsTable.id)
            { p.1 with sstables := eraseTables p.2 p.1.sstables } p.2), e) := by
  rw [compactStep, Effect.exec_get_bind]
  simp only
  generalize e.compactionController.applyCompactionResult
    { e.state with sstables := insertTables output e.state.sstables } task (output.map SsTable.id)
    false = o
  cases o with
  | error f => exact Effect.exec_bind_of_error (Effect.exec_lift _ e)
  | ok p =>
    rw [Effect.exec_lift_bind]
    exact Effect.exec_pure _ e

theorem compactStep_applied (e : LsmStorageInner) (task : CompactionTask) (output : List ℕ)
    (state : LsmStorageState MemTable) (removed : List ℕ) :
    (compactStep (.applied task output state removed)).exec e =
      (.ok (some (.installed removed)), { e with state }) := rfl

omit [Platform] in
theorem removeFiles_exec (ids : List ℕ) (e : LsmStorageInner) :
    ∃ o d, (removeFiles ids).exec e = (o, { e with disk := d }) := by
  induction ids generalizing e with
  | nil => exact ⟨_, e.disk, rfl⟩
  | cons id ids ih =>
    rw [removeFiles]
    obtain ⟨o, d, hremove⟩ : ∃ o d, (onDisk (FileObject.remove id)).exec e = (o, { e with disk := d }) :=
      ⟨_, _, Effect.exec_zoom _ _ _ _⟩
    cases o with
    | error f => exact ⟨_, d, Effect.exec_bind_of_error hremove⟩
    | ok u =>
      obtain ⟨o, d', hrest⟩ := ih { e with disk := d }
      exact ⟨o, d', (Effect.exec_bind_of_ok hremove).trans hrest⟩

/-- The call ends here, with an error or without. -/
theorem compactStep_installed (e : LsmStorageInner) (removed : List ℕ) :
    ∃ o : Outcome Unit, ∃ d, (compactStep (.installed removed)).exec e =
      (o.map fun _ => none, { e with disk := d }) := by
  obtain ⟨o, d, hremove⟩ := removeFiles_exec removed e
  refine ⟨o, d, ?_⟩
  rw [compactStep]
  cases o with
  | error f => exact Effect.exec_bind_of_error hremove
  | ok u => exact Effect.exec_bind_of_ok hremove

/-! ## What the steps of a write that goes on do -/

section

variable {e e' : LsmStorageInner} {ts : UInt64} {batch : List WriteBatchRecord} {next : Option WriteAt}
  {state : LsmStorageState MemTable}

theorem writeStep_start_ok (h : (writeStep (.start batch)).exec e = (.ok next, e')) :
    ∃ ts, nextTs e.latestCommitTs = .ok ts ∧ next = some (.stamped ts batch) ∧ e' = e := by
  rw [writeStep, Effect.exec_get_bind, Effect.exec_bind_eq_ok_iff] at h
  obtain ⟨ts, e₁, hlift, h⟩ := h
  obtain ⟨hts, rfl⟩ := liftM_eq_ok hlift
  cases h
  exact ⟨ts, hts, rfl, rfl⟩

theorem writeStep_stamped_ok (h : (writeStep (.stamped ts batch)).exec e = (.ok next, e')) :
    ∃ d, next = some (.written ts) ∧ e' = e.afterPut (batch.map (WriteBatchRecord.entry ts)) d := by
  rw [writeStep, Effect.exec_bind_eq_ok_iff] at h
  obtain ⟨u, e₁, hput, h⟩ := h
  obtain ⟨o, d, n, hexec, hcase⟩ :=
    MemTable.putBatch_exec (batch.map (WriteBatchRecord.entry ts)) e.state.memtable e.disk
  unfold onMemtable at hput
  rw [Effect.exec_zoom, hexec, Prod.mk.injEq] at hput
  obtain ⟨rfl, rfl⟩ := hput
  cases h
  rcases hcase with ⟨-, rfl, -⟩ | ⟨⟨f, hf⟩, -⟩
  · rw [List.take_length]
    exact ⟨d, rfl, rfl⟩
  · cases hf

theorem writeStep_written_ok (h : (writeStep (.written ts)).exec e = (.ok next, e')) :
    (next = some (.freezing ts .start) ∨ next = some (.committing ts)) ∧ e' = e := by
  rw [writeStep, Effect.exec_get_bind] at h
  split at h
  · cases h
    exact ⟨Or.inl rfl, rfl⟩
  · cases h
    exact ⟨Or.inr rfl, rfl⟩

omit [Platform] in
theorem newMemtable_ok {id : ℕ} {m : MemTable} (h : (newMemtable id).exec e = (.ok m, e')) :
    m.map = SkipMap.new ∧ m.id = id ∧ ∃ d, e' = { e with disk := d } := by
  unfold newMemtable at h
  rw [Effect.exec_get_bind] at h
  split at h
  · obtain ⟨d, hcreate, rfl⟩ := onDisk_eq_ok h
    obtain ⟨hmap, hid, -⟩ := MemTable.createWithWal_eq_ok hcreate
    exact ⟨hmap, hid, d, rfl⟩
  · cases h
    exact ⟨rfl, rfl, e.disk, rfl⟩

omit [Platform] in
theorem freezeStep_start_ok {next : Option FreezeAt} (h : (freezeStep .start).exec e = (.ok next, e')) :
    ∃ memtable d, memtable.map = SkipMap.new ∧ memtable.id = e.nextSstId ∧
      next = some (.created { e.state with
        memtable
        immMemtables := e.state.memtable :: e.state.immMemtables }) ∧
      e' = { e with nextSstId := e.nextSstId + 1, disk := d } := by
  have htake : takeSstId.exec e = (.ok e.nextSstId, { e with nextSstId := e.nextSstId + 1 }) := rfl
  simp only [freezeStep, Effect.exec_get_bind] at h
  rw [Effect.exec_bind_of_ok htake, Effect.exec_bind_eq_ok_iff] at h
  obtain ⟨memtable, e₁, hnew, h⟩ := h
  obtain ⟨hmap, hid, d, rfl⟩ := newMemtable_ok hnew
  cases h
  exact ⟨memtable, d, hmap, hid, rfl, rfl⟩

theorem writeStep_clone_ok (h : (writeStep (.freezing ts .start)).exec e = (.ok next, e')) :
    ∃ memtable d, memtable.map = SkipMap.new ∧ memtable.id = e.nextSstId ∧
      next = some (.freezing ts (.created { e.state with
        memtable
        immMemtables := e.state.memtable :: e.state.immMemtables })) ∧
      e' = { e with nextSstId := e.nextSstId + 1, disk := d } := by
  rw [writeStep, Effect.exec_bind_eq_ok_iff] at h
  obtain ⟨place, e₁, hfreeze, h⟩ := h
  obtain ⟨memtable, d, hmap, hid, rfl, rfl⟩ := freezeStep_start_ok hfreeze
  cases h
  exact ⟨memtable, d, hmap, hid, rfl, rfl⟩

theorem writeStep_created_ok (h : (writeStep (.freezing ts (.created state))).exec e = (.ok next, e')) :
    ∃ d, next = some (.freezing ts (.recorded state)) ∧ e' = { e with disk := d } := by
  rw [writeStep, Effect.exec_bind_eq_ok_iff] at h
  obtain ⟨place, e₁, hfreeze, h⟩ := h
  rw [freezeStep_created] at hfreeze
  split at hfreeze
  · cases hfreeze
  · cases hfreeze
    cases h
    exact ⟨_, rfl, rfl⟩

theorem writeStep_recorded (e : LsmStorageInner) (ts : UInt64) (state : LsmStorageState MemTable) :
    (writeStep (.freezing ts (.recorded state))).exec e =
      (.ok (some (.committing ts)), { e with state }) := rfl

theorem writeStep_committing (e : LsmStorageInner) (ts : UInt64) :
    (writeStep (.committing ts)).exec e = (.ok none, { e with latestCommitTs := ts }) := rfl

end

/-! ## The threads -/

/-- The `state_lock` is held. -/
def WriteAt.locksState : WriteAt → Bool
  | .freezing _ _ => true
  | _ => false

/-- The state that a freeze is about to publish. -/
def WriteAt.next : WriteAt → Option (LsmStorageState MemTable)
  | .freezing _ (.created state) => some state
  | .freezing _ (.recorded state) => some state
  | _ => none

/-- The timestamp of a batch that is in the memtable and not yet committed. -/
def WriteAt.stamp : WriteAt → Option UInt64
  | .written ts => some ts
  | .freezing ts _ => some ts
  | .committing ts => some ts
  | _ => none

/-- The batch that the next step puts into the memtable. -/
def WriteAt.puts : WriteAt → List (List WriteBatchRecord)
  | .stamped _ batch => [batch]
  | _ => []

/-- The next step publishes a state. -/
def WriteAt.publishes : WriteAt → Bool
  | .freezing _ (.recorded _) => true
  | _ => false

/-- The next step publishes a state. -/
def FlushAt.publishes : FlushAt → Bool
  | .built _ => true
  | _ => false

/-- The ids of the memtable and of the tables that a call has made and not yet published. -/
def WriteAt.taken (place : WriteAt) : List ℕ :=
  place.next.toList.map fun state => state.memtable.id

/-- The ids of the tables that a compaction has written and not yet published. -/
def CompactAt.taken : CompactAt → List ℕ
  | .merged _ output => output.map SsTable.id
  | .applied _ output _ _ => output
  | _ => []

/-- The task whose output the next step publishes. -/
def CompactAt.installs : CompactAt → List CompactionTask
  | .applied task _ _ _ => [task]
  | _ => []

end LsmStorageInner

/-- What is behind a handle of a memtable when the memtable with its id has become `m`. -/
def MemTable.through (m handle : MemTable) : MemTable := if handle.id = m.id then m else handle

/-- What is behind the handles of a state. -/
def LsmStorageState.through (s : LsmStorageState MemTable) (m : MemTable) : LsmStorageState MemTable :=
  { s with
    memtable := m.through s.memtable
    immMemtables := s.immMemtables.map m.through }

namespace LsmStorageInner

/-- The place of a flush when the memtable with its id has become `m`. -/
def FlushAt.through (place : FlushAt) (m : MemTable) : FlushAt :=
  match place with
  | .chosen memtable => .chosen (m.through memtable)
  | place => place

/-- The place of a compaction when the memtable with its id has become `m`. -/
def CompactAt.through (place : CompactAt) (m : MemTable) : CompactAt :=
  match place with
  | .applied task output state removed => .applied task output (state.through m) removed
  | place => place

end LsmStorageInner

/-- A thread that calls a function now and then; `P` are the places in the call. -/
inductive Worker (P : Type) where
  | outside
  | inside (place : P)
  | panicked

namespace Worker

variable {P : Type}

/-- Where a thread is after a step. -/
def after : Outcome (Option P) → Worker P
  | .ok (some place) => .inside place
  | .ok none => .outside
  | .error (.err _) => .outside
  | .error (.panic _) => .panicked

/-- Another place in the same call. -/
def map (f : P → P) : Worker P → Worker P
  | .inside place => .inside (f place)
  | thread => thread

/-- Where in a call the thread is. -/
def place : Worker P → Option P
  | .inside place => some place
  | _ => none

theorem place_map (f : P → P) (w : Worker P) : (w.map f).place = w.place.map f := by
  cases w <;> rfl

theorem place_after_error (f : Fault) : (after (.error f : Outcome (Option P))).place = none := by
  cases f <;> rfl

theorem place_after_ok (next : Option P) : (after (.ok next)).place = next := by
  cases next <;> rfl

end Worker

open LsmStorageInner

/-- The engine and its threads. -/
structure Threads where
  engine : LsmStorageInner
  writer : Worker WriteAt
  flusher : Worker FlushAt
  compactor : Worker CompactAt
  /-- How many states have been published, and how many had been when the compactor cloned one. -/
  published : ℕ
  cloned : ℕ
  /-- The batches that were put into memtables. -/
  batches : List (List WriteBatchRecord)
  /-- The tasks whose output was installed. -/
  tasks : List CompactionTask

/-- The next step of a thread. -/
inductive Move where
  /-- Somebody calls `write_batch`. -/
  | call (batch : List WriteBatchRecord)
  | write
  | flush
  | compact

namespace Threads

variable [Platform]

/-- Nobody is in a call. -/
def start (e : LsmStorageInner) : Threads := ⟨e, .outside, .outside, .outside, 0, 0, [], []⟩

/-- Those that have a handle of the active memtable see what the writer puts into it. -/
def stepWriter (T : Threads) (place : WriteAt) : Threads :=
  let r := (writeStep place).exec T.engine
  { T with
    engine := r.2
    writer := .after r.1
    flusher := T.flusher.map fun place => place.through r.2.state.memtable
    compactor := T.compactor.map fun place => place.through r.2.state.memtable
    published := T.published + if place.publishes then 1 else 0
    batches := T.batches ++ place.puts }

/-- A step of the flusher. -/
def stepFlusher (T : Threads) (place : FlushAt) : Threads :=
  let r := (atomicStep place).exec T.engine
  { T with
    engine := r.2
    flusher := .after r.1
    published := T.published + if place.publishes then 1 else 0 }

/-- A step of the compactor, which notes what was published when it clones the state. -/
def stepCompactor (T : Threads) (place : CompactAt) : Threads :=
  let r := (compactStep place).exec T.engine
  { T with
    engine := r.2
    compactor := .after r.1
    published := T.published + place.installs.length
    cloned := match place with
      | .merged _ _ => T.published
      | _ => T.cloned
    tasks := T.tasks ++ place.installs }

/-- The writer holds `state_lock`. -/
def stateLocked (T : Threads) : Bool := T.writer.place.any WriteAt.locksState

/-- The state that the writer has made from a clone and not yet published. -/
def frozen (T : Threads) : Option (LsmStorageState MemTable) := T.writer.place.bind WriteAt.next

/-- One step of one thread.  A flusher that needs `state_lock` waits for it. -/
def move (T : Threads) : Move → Threads
  | .call batch =>
    match T.writer with
    | .outside => { T with writer := .inside (.start batch) }
    | _ => T
  | .write =>
    match T.writer with
    | .inside place => T.stepWriter place
    | _ => T
  | .flush =>
    match T.flusher with
    | .outside => T.stepFlusher .start
    | .inside place => if place.publishes && T.stateLocked then T else T.stepFlusher place
    | .panicked => T
  | .compact =>
    match T.compactor with
    | .outside => T.stepCompactor .start
    | .inside place => T.stepCompactor place
    | .panicked => T

/-- The call of the writer goes on. -/
def Succeeds (T : Threads) : Move → Prop
  | .call batch => ∀ record ∈ batch, ∀ ts, Encodable (record.entry ts)
  | .write => ∀ place ∈ T.writer.place, ∃ next, ((writeStep place).exec T.engine).1 = .ok next
  | _ => True

/-- When the compactor replaces the state, nothing was published since it has cloned one, and no freeze
works on a clone. -/
def Undisturbed (T : Threads) : Move → Prop
  | .compact => ∀ place ∈ T.compactor.place, place.installs ≠ [] →
      T.published = T.cloned ∧ T.frozen = none
  | _ => True

/-- A step of a writer whose calls succeed and of a compactor that nobody disturbs. -/
def Turn (T : Threads) (m : Move) (T' : Threads) : Prop :=
  T.Succeeds m ∧ T.Undisturbed m ∧ T.move m = T'

/-- What a turn may do. -/
inductive Took (T : Threads) : Move → Threads → Prop where
  /-- The thread waits, or has panicked, or there is nothing to do for it. -/
  | nothing (m : Move) : Took T m T
  | call {batch : List WriteBatchRecord} (houtside : T.writer = .outside)
      (hfits : ∀ record ∈ batch, ∀ ts, Encodable (record.entry ts)) :
      Took T (.call batch) { T with writer := .inside (.start batch) }
  | write {place : WriteAt} (hplace : T.writer.place = some place)
      (hok : ∃ next, ((writeStep place).exec T.engine).1 = .ok next) : Took T .write (T.stepWriter place)
  | flush {place : FlushAt} (hplace : T.flusher.place = some place ∨ place = .start)
      (hunlocked : place.publishes = true → T.stateLocked = false) : Took T .flush (T.stepFlusher place)
  | compact {place : CompactAt} (hplace : T.compactor.place = some place ∨ place = .start)
      (hundisturbed : place.installs ≠ [] → T.published = T.cloned ∧ T.frozen = none) :
      Took T .compact (T.stepCompactor place)

theorem Turn.took {T T' : Threads} {m : Move} (h : Turn T m T') : Took T m T' := by
  obtain ⟨hsucceeds, hundisturbed, rfl⟩ := h
  cases m with
  | call batch =>
    cases hw : T.writer with
    | outside =>
      rw [move, hw]
      exact .call hw hsucceeds
    | inside place =>
      rw [move, hw]
      exact .nothing _
    | panicked =>
      rw [move, hw]
      exact .nothing _
  | write =>
    cases hw : T.writer with
    | inside place =>
      have hplace : T.writer.place = some place := congrArg Worker.place hw
      rw [move, hw]
      exact .write hplace (hsucceeds place hplace)
    | outside =>
      rw [move, hw]
      exact .nothing _
    | panicked =>
      rw [move, hw]
      exact .nothing _
  | flush =>
    cases hf : T.flusher with
    | outside =>
      rw [move, hf]
      exact .flush (Or.inr rfl) nofun
    | inside place =>
      rw [move, hf]
      simp only
      split
      · exact .nothing _
      · rename_i hlock
        refine .flush (Or.inl (congrArg Worker.place hf)) fun hpublishes => ?_
        rw [hpublishes, Bool.true_and, Bool.not_eq_true] at hlock
        exact hlock
    | panicked =>
      rw [move, hf]
      exact .nothing _
  | compact =>
    cases hc : T.compactor with
    | outside =>
      rw [move, hc]
      exact .compact (Or.inr rfl) fun hne => absurd rfl hne
    | inside place =>
      have hplace : T.compactor.place = some place := congrArg Worker.place hc
      rw [move, hc]
      exact .compact (Or.inl hplace) (hundisturbed place hplace)
    | panicked =>
      rw [move, hc]
      exact .nothing _

end Threads

end TinyLsm

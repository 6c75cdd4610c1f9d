import TinyLsm.LsmStorage.Engine
import TinyLsm.Lib.Stepwise

/-!
# Publishing a state and recording it

`force_freeze_memtable` and `force_flush_next_imm_memtable` each publish one new state and append one
record to the manifest.  Both are cut into their atomic steps here, between which they do I/O that may
fail (`drive_freezeStep`, `drive_flushStep`).

A freeze records first, so a freeze that fails has published nothing (`freeze_failsClean`).  A flush
publishes first: `failsClean_iff`.  `Recorded.run` is what that means for a run of calls.
-/

namespace TinyLsm

/-! ## Calls that may fail -/

namespace Disk

/-- The directory after one more call to the operating system. -/
def passed (d : Disk) : Disk := { d with faults := d.faults.tail }

/-- The next call to the operating system fails. -/
def FailsNext (d : Disk) : Prop := d.faults.head? = some true

instance (d : Disk) : Decidable d.FailsNext := inferInstanceAs (Decidable (_ = _))

theorem syscall_of_fails {d : Disk} (h : d.FailsNext) :
    Effect.exec (syscall : DiskEffect Unit) d = (.error (.err "I/O error"), d.passed) := by
  obtain ⟨manifest, ssts, wals, faults⟩ := d
  match faults, h with
  | true :: rest, _ => rfl

theorem syscall_of_not_fails {d : Disk} (h : ¬ d.FailsNext) :
    Effect.exec (syscall : DiskEffect Unit) d = (.ok (), d.passed) := by
  obtain ⟨manifest, ssts, wals, faults⟩ := d
  match faults, h with
  | [], _ => rfl
  | false :: rest, _ => rfl
  | true :: rest, h => exact absurd rfl h

end Disk

/-- The append fails without effect. -/
theorem Manifest.addRecord_of_fails {d : Disk} (h : d.FailsNext) (record : ManifestRecord) :
    (addRecord record).exec d = (.error (.err "I/O error"), d.passed) :=
  Effect.exec_bind_of_error (Disk.syscall_of_fails h)

theorem Manifest.addRecord_of_not_fails {d : Disk} (h : ¬ d.FailsNext) (record : ManifestRecord) :
    (addRecord record).exec d =
      (.ok (), { d.passed with manifest := d.manifest.map (· ++ [record]) }) :=
  Effect.exec_bind_of_ok (Disk.syscall_of_not_fails h)

theorem FileObject.create_of_fails {d : Disk} (h : d.FailsNext) (id : ℕ) (data : Bytes) :
    (create id data).exec d = (.error (.err "I/O error"), d.passed) :=
  Effect.exec_bind_of_error (Disk.syscall_of_fails h)

theorem FileObject.create_of_not_fails {d : Disk} (h : ¬ d.FailsNext) (id : ℕ) (data : Bytes) :
    (create id data).exec d = (.ok (), { d.passed with ssts := d.ssts.insert id data }) :=
  Effect.exec_bind_of_ok (Disk.syscall_of_not_fails h)

namespace LsmStorageInner

/-! ## The atomic steps -/

/-- Where a call of `force_freeze_memtable` stands. -/
inductive FreezeAt where
  | start
  /-- The next state has been made: its memtable, with its log, is new. -/
  | created (state : LsmStorageState MemTable)
  /-- The record of the new memtable is in the manifest. -/
  | recorded (state : LsmStorageState MemTable)

/-- `force_freeze_memtable`, cut where its locks are taken and its records written. -/
def freezeStep : FreezeAt → EngineEffect (Option FreezeAt)
  | .start => do
    let e ← get
    let state := { e.state with immMemtables := e.state.memtable :: e.state.immMemtables }
    let memtable ← newMemtable (← takeSstId)
    return some (.created { state with memtable })
  | .created state => do
    onDisk (Manifest.addRecord (.newMemtable state.memtable.id))
    return some (.recorded state)
  | .recorded state => do
    modify fun e => { e with state }
    return none

/-- Where a call of `force_flush_next_imm_memtable` stands. -/
inductive FlushAt where
  | start
  /-- The oldest immutable memtable has been read. -/
  | chosen (memtable : MemTable)
  /-- Its table has been built, and the file is written. -/
  | built (sst : SsTable)
  /-- The table is in the published state.  The write guard is held. -/
  | published (id : ℕ)

variable [Platform]

/-- `force_flush_next_imm_memtable`, cut where its locks are taken and its files written. -/
def flushStep : FlushAt → EngineEffect (Option FlushAt)
  | .start => do
    match (← get).state.immMemtables.getLast? with
    | none => return none
    | some memtable => return some (.chosen memtable)
  | .chosen memtable => do
    let e ← get
    let builder ← liftM (memtable.flush (SsTableBuilder.new e.options.blockSize))
    let sst := builder.build memtable.id
    onDisk (FileObject.create memtable.id sst.file)
    return some (.built sst)
  | .built sst => do
    let e ← get
    let state ← liftM (e.state.installFlush MemTable.id e.compactionController.flushToL0 sst)
    modify fun e => { e with state }
    return some (.published sst.id)
  | .published id => do
    onDisk (Manifest.addRecord (.flush id))
    return none

omit [Platform] in
/-- **The steps of a freeze are the freeze.** -/
theorem drive_freezeStep (e : LsmStorageInner) :
    (Effect.drive freezeStep 3 .start).exec e = forceFreezeMemtable.exec e := by
  simp only [Effect.drive, freezeStep, forceFreezeMemtable, bind_assoc, pure_bind,
    Effect.exec_get_bind, bind_pure_unit]

/-- **The steps of a flush are the flush.** -/
theorem drive_flushStep (e : LsmStorageInner) :
    (Effect.drive flushStep 4 .start).exec e = forceFlushNextImmMemtable.exec e := by
  simp only [Effect.drive, flushStep, forceFlushNextImmMemtable, bind_assoc, Effect.exec_get_bind]
  cases e.state.immMemtables.getLast? with
  | none => rfl
  | some m =>
    simp only [bind_assoc, pure_bind, Effect.exec_get_bind, bind_pure_unit, SsTableBuilder.build_id]

/-! ## What each step does -/

section

variable {e : LsmStorageInner} {m : MemTable} {builder : SsTableBuilder}

/-- The file of the table has been written. -/
def written (e : LsmStorageInner) (sst : SsTable) : LsmStorageInner :=
  { e with disk := { e.disk.passed with ssts := e.disk.ssts.insert sst.id sst.file } }

/-- The state with the table has been published. -/
def publish (e : LsmStorageInner) (sst : SsTable) : LsmStorageInner :=
  { e with state := e.state.flushedState e.compactionController.flushToL0 sst }

/-- A call to the operating system has failed. -/
def refused (e : LsmStorageInner) : LsmStorageInner := { e with disk := e.disk.passed }

/-- A record has been appended. -/
def recorded (e : LsmStorageInner) (record : ManifestRecord) : LsmStorageInner :=
  { e with disk := { e.disk.passed with manifest := e.disk.manifest.map (· ++ [record]) } }

omit [Platform] in
theorem onDisk_addRecord (e : LsmStorageInner) (record : ManifestRecord) :
    (onDisk (Manifest.addRecord record)).exec e =
      if e.disk.FailsNext then (.error (.err "I/O error"), e.refused)
      else (.ok (), e.recorded record) := by
  unfold onDisk
  rw [Effect.exec_zoom]
  split
  · rename_i h
    rw [Manifest.addRecord_of_fails h]
    rfl
  · rename_i h
    rw [Manifest.addRecord_of_not_fails h]
    rfl

theorem flushStep_start (e : LsmStorageInner) :
    (flushStep .start).exec e = (.ok (e.state.immMemtables.getLast?.map .chosen), e) := by
  simp only [flushStep, Effect.exec_get_bind]
  cases e.state.immMemtables.getLast? <;> rfl

theorem flushStep_chosen (hflush : m.flush (SsTableBuilder.new e.options.blockSize) = .ok builder) :
    (flushStep (.chosen m)).exec e =
      if e.disk.FailsNext then (.error (.err "I/O error"), e.refused)
      else (.ok (some (.built (builder.build m.id))), e.written (builder.build m.id)) := by
  simp only [flushStep, Effect.exec_get_bind, hflush, Effect.exec_lift_bind]
  split
  · rename_i h
    refine Effect.exec_bind_of_error ?_
    unfold onDisk
    rw [Effect.exec_zoom, FileObject.create_of_fails h]
    rfl
  · rename_i h
    have hcreate : (onDisk (FileObject.create m.id (builder.build m.id).file)).exec e =
        (.ok (), e.written (builder.build m.id)) := by
      unfold onDisk
      rw [Effect.exec_zoom, FileObject.create_of_not_fails h]
      rfl
    exact (Effect.exec_bind_of_ok hcreate).trans (Effect.exec_pure _ _)

theorem flushStep_built {sst : SsTable} (hlast : e.state.immMemtables.getLast? = some m)
    (hid : m.id = sst.id) :
    (flushStep (.built sst)).exec e = (.ok (some (.published sst.id)), e.publish sst) := by
  simp only [flushStep, Effect.exec_get_bind, LsmStorageState.installFlush_eq hlast hid,
    Effect.exec_lift_bind, Effect.exec_modify_bind, Effect.exec_pure]
  rfl

theorem flushStep_published (e : LsmStorageInner) (id : ℕ) :
    (flushStep (.published id)).exec e =
      if e.disk.FailsNext then (.error (.err "I/O error"), e.refused)
      else (.ok none, e.recorded (.flush id)) := by
  have hrecord := onDisk_addRecord e (.flush id)
  simp only [flushStep]
  split
  · rename_i h
    rw [if_pos h] at hrecord
    exact Effect.exec_bind_of_error hrecord
  · rename_i h
    rw [if_neg h] at hrecord
    exact (Effect.exec_bind_of_ok hrecord).trans (Effect.exec_pure _ _)

/-- The moments of a flush and how it ends. -/
inductive FlushRun (e : LsmStorageInner) :
    List (Option FlushAt × LsmStorageInner) → Outcome Unit × LsmStorageInner → Prop where
  | nothing (hnone : e.state.immMemtables = []) :
      FlushRun e [(some .start, e), (none, e)] (.ok (), e)
  | unwritten {m : MemTable} (hlast : e.state.immMemtables.getLast? = some m)
      (hfails : e.disk.FailsNext) :
      FlushRun e [(some .start, e), (some (.chosen m), e), (none, e.refused)]
        (.error (.err "I/O error"), e.refused)
  | unrecorded {m : MemTable} {sst : SsTable} (hlast : e.state.immMemtables.getLast? = some m)
      (hid : m.id = sst.id) (hwrites : ¬ e.disk.FailsNext) (hfails : e.disk.passed.FailsNext) :
      FlushRun e
        [(some .start, e), (some (.chosen m), e), (some (.built sst), e.written sst),
          (some (.published sst.id), (e.written sst).publish sst),
          (none, ((e.written sst).publish sst).refused)]
        (.error (.err "I/O error"), ((e.written sst).publish sst).refused)
  | flushed {m : MemTable} {sst : SsTable} (hlast : e.state.immMemtables.getLast? = some m)
      (hid : m.id = sst.id) (hwrites : ¬ e.disk.FailsNext) (hrecords : ¬ e.disk.passed.FailsNext) :
      FlushRun e
        [(some .start, e), (some (.chosen m), e), (some (.built sst), e.written sst),
          (some (.published sst.id), (e.written sst).publish sst),
          (none, ((e.written sst).publish sst).recorded (.flush sst.id))]
        (.ok (), ((e.written sst).publish sst).recorded (.flush sst.id))

theorem flush_run (e : LsmStorageInner) :
    FlushRun e (Effect.trace flushStep 4 .start e) (forceFlushNextImmMemtable.exec e) := by
  rw [← drive_flushStep]
  have hstart := flushStep_start e
  cases hlast : e.state.immMemtables.getLast? with
  | none =>
    rw [hlast] at hstart
    rw [Effect.trace_of_none hstart, Effect.drive_of_none hstart]
    exact .nothing (List.getLast?_eq_none_iff.mp hlast)
  | some m =>
    rw [hlast] at hstart
    rw [Effect.trace_of_some hstart, Effect.drive_of_some hstart]
    obtain ⟨builder, hflush⟩ := m.exists_flush e.options.blockSize
    have hchosen := flushStep_chosen hflush
    by_cases hfails : e.disk.FailsNext
    · rw [if_pos hfails] at hchosen
      rw [Effect.trace_of_error hchosen, Effect.drive_of_error hchosen]
      exact .unwritten hlast hfails
    · rw [if_neg hfails] at hchosen
      have hbuilt : (flushStep (.built (builder.build m.id))).exec (e.written (builder.build m.id)) =
          (.ok (some (.published m.id)),
            (e.written (builder.build m.id)).publish (builder.build m.id)) :=
        flushStep_built hlast rfl
      have hpublished := flushStep_published
        ((e.written (builder.build m.id)).publish (builder.build m.id)) m.id
      rw [Effect.trace_of_some hchosen, Effect.drive_of_some hchosen, Effect.trace_of_some hbuilt,
        Effect.drive_of_some hbuilt]
      by_cases hfails' : e.disk.passed.FailsNext
      · have hpublished := hpublished.trans (if_pos hfails')
        rw [Effect.trace_of_error hpublished, Effect.drive_of_error hpublished]
        exact .unrecorded hlast rfl hfails hfails'
      · have hpublished := hpublished.trans (if_neg hfails')
        rw [Effect.trace_of_none hpublished, Effect.drive_of_none hpublished]
        exact .flushed hlast rfl hfails hfails'

omit [Platform] in
/-- A new memtable changes only the directory, and there not the manifest. -/
theorem newMemtable_exec (e : LsmStorageInner) (id : ℕ) :
    ∃ d, ((newMemtable id).exec e).2 = { e with disk := d } ∧ d.manifest = e.disk.manifest := by
  unfold newMemtable
  rw [Effect.exec_get_bind]
  split
  · refine ⟨_, rfl, ?_⟩
    unfold MemTable.createWithWal Wal.create
    rw [bind_assoc]
    by_cases h : e.disk.FailsNext
    · rw [Effect.exec_bind_of_error (Disk.syscall_of_fails h)]
      rfl
    · rw [Effect.exec_bind_of_ok (Disk.syscall_of_not_fails h)]
      simp only [bind_assoc, Effect.exec_get_bind]
      split <;> rfl
  · exact ⟨e.disk, rfl, rfl⟩

omit [Platform] in
/-- The first step of a freeze takes an id, and publishes and records nothing. -/
theorem freezeStep_start (e : LsmStorageInner) :
    ∃ d, d.manifest = e.disk.manifest ∧
      ((∃ f, (freezeStep .start).exec e =
          (.error f, { e with nextSstId := e.nextSstId + 1, disk := d })) ∨
        ∃ memtable, (freezeStep .start).exec e = (.ok (some (.created { e.state with
          memtable
          immMemtables := e.state.memtable :: e.state.immMemtables })),
            { e with nextSstId := e.nextSstId + 1, disk := d })) := by
  have htake : takeSstId.exec e = (.ok e.nextSstId, { e with nextSstId := e.nextSstId + 1 }) := rfl
  obtain ⟨d, hd, hmanifest⟩ :=
    newMemtable_exec { e with nextSstId := e.nextSstId + 1 } e.nextSstId
  refine ⟨d, hmanifest, ?_⟩
  simp only [freezeStep, Effect.exec_get_bind]
  rw [Effect.exec_bind_of_ok htake]
  cases hnew : ((newMemtable e.nextSstId).exec { e with nextSstId := e.nextSstId + 1 }).1 with
  | error f => exact Or.inl ⟨f, Effect.exec_bind_of_error (Prod.ext hnew hd)⟩
  | ok memtable => exact Or.inr ⟨memtable, Effect.exec_bind_of_ok (Prod.ext hnew hd)⟩

omit [Platform] in
theorem freezeStep_created (e : LsmStorageInner) (state : LsmStorageState MemTable) :
    (freezeStep (.created state)).exec e =
      if e.disk.FailsNext then (.error (.err "I/O error"), e.refused)
      else (.ok (some (.recorded state)), e.recorded (.newMemtable state.memtable.id)) := by
  have hrecord := onDisk_addRecord e (.newMemtable state.memtable.id)
  simp only [freezeStep]
  split
  · rename_i h
    rw [if_pos h] at hrecord
    exact Effect.exec_bind_of_error hrecord
  · rename_i h
    rw [if_neg h] at hrecord
    exact (Effect.exec_bind_of_ok hrecord).trans (Effect.exec_pure _ _)

omit [Platform] in
theorem freezeStep_recorded (e : LsmStorageInner) (state : LsmStorageState MemTable) :
    (freezeStep (.recorded state)).exec e = (.ok none, { e with state }) := rfl

omit [Platform] in
/-- The moments of a freeze: it fails with the old state, or the next state comes after its record. -/
theorem freeze_run (e : LsmStorageInner) :
    (∃ f d, forceFreezeMemtable.exec e =
          (.error f, { e with nextSstId := e.nextSstId + 1, disk := d }) ∧
        d.manifest = e.disk.manifest ∧
        ∀ p ∈ Effect.trace freezeStep 3 .start e, p.2.state = e.state) ∨
      ∃ memtable e', forceFreezeMemtable.exec e = (.ok (), e') ∧ Froze e e' memtable ∧
        ∀ p ∈ Effect.trace freezeStep 3 .start e, p.2.state = e.state ∨ p.2 = e' := by
  obtain ⟨d, hmanifest, ⟨f, hstart⟩ | ⟨memtable, hstart⟩⟩ := freezeStep_start e
  · left
    rw [← drive_freezeStep, Effect.drive_of_error hstart, Effect.trace_of_error hstart]
    exact ⟨f, d, rfl, hmanifest, by simp⟩
  · have hcreated := freezeStep_created { e with nextSstId := e.nextSstId + 1, disk := d } { e.state with
      memtable
      immMemtables := e.state.memtable :: e.state.immMemtables }
    by_cases hfails : d.FailsNext
    · left
      have hcreated := hcreated.trans (if_pos hfails)
      rw [← drive_freezeStep, Effect.drive_of_some hstart, Effect.trace_of_some hstart,
        Effect.drive_of_error hcreated, Effect.trace_of_error hcreated]
      exact ⟨_, d.passed, rfl, hmanifest, by simp [refused]⟩
    · right
      have hcreated := hcreated.trans (if_neg hfails)
      have hend := freezeStep_recorded (recorded { e with nextSstId := e.nextSstId + 1, disk := d }
        (.newMemtable memtable.id)) { e.state with
          memtable
          immMemtables := e.state.memtable :: e.state.immMemtables }
      have hexec := (drive_freezeStep e).symm.trans ((Effect.drive_of_some hstart).trans
        ((Effect.drive_of_some hcreated).trans (Effect.drive_of_none hend)))
      rw [Effect.trace_of_some hstart, Effect.trace_of_some hcreated, Effect.trace_of_none hend]
      obtain ⟨memtable', hfroze⟩ := forceFreezeMemtable_ok hexec
      exact ⟨memtable', _, hexec, hfroze, by simp [recorded]⟩

end

/-! ## Failing cleanly -/

/-- What has been appended to the manifest since `e`. -/
def appendedSince (e e₁ : LsmStorageInner) : List ManifestRecord :=
  (e₁.disk.manifest.getD []).drop (e.disk.manifest.getD []).length

/-- What has come into the state since `e` has got its record. -/
structure RecordedSince (e e₁ : LsmStorageInner) : Prop where
  ssts : ∀ id, e.state.listedIds.count id < e₁.state.listedIds.count id →
    .flush id ∈ appendedSince e e₁
  memtables : ∀ m ∈ e₁.state.memtable :: e₁.state.immMemtables,
    m ∈ e.state.memtable :: e.state.immMemtables ∨ .newMemtable m.id ∈ appendedSince e e₁

/-- A call that fails leaves the state as it was, and at all these moments of the call everything it
has put into the state has got its record. -/
structure FailsClean (call : EngineEffect Unit) (moments : List LsmStorageInner)
    (e : LsmStorageInner) : Prop where
  kept : ∀ msg e', call.exec e = (.error (.err msg), e') → e'.state = e.state
  recorded : ∀ e₁ ∈ moments, RecordedSince e e₁

/-- The moments of a freeze. -/
def freezeMoments (e : LsmStorageInner) : List LsmStorageInner :=
  (Effect.trace freezeStep 3 .start e).map Prod.snd

/-- The moments of a flush. -/
def flushMoments (e : LsmStorageInner) : List LsmStorageInner :=
  (Effect.trace flushStep 4 .start e).map Prod.snd

/-- The call holds the write guard of the state. -/
def writing : Option FlushAt → Bool
  | some (.published _) => true
  | _ => false

/-- The moments of a flush in which another thread can read the state. -/
def flushMomentsSeen (e : LsmStorageInner) : List LsmStorageInner :=
  ((Effect.trace flushStep 4 .start e).filter fun p => !writing p.1).map Prod.snd

section

variable {e e₁ : LsmStorageInner}

omit [Platform] in
theorem RecordedSince.of_state_eq (h : e₁.state = e.state) : RecordedSince e e₁ := by
  refine ⟨fun id hid => ?_, fun m hm => ?_⟩
  · rw [h] at hid
    exact absurd hid (lt_irrefl _)
  · rw [h] at hm
    exact Or.inl hm

omit [Platform] in
/-- A call that changes no state fails cleanly. -/
theorem FailsClean.of_state_eq {call : EngineEffect Unit} {moments : List LsmStorageInner}
    (hend : (call.exec e).2.state = e.state) (hmoments : ∀ e₁ ∈ moments, e₁.state = e.state) :
    FailsClean call moments e := by
  refine ⟨fun msg e' herr => ?_, fun e₁ he₁ => .of_state_eq (hmoments e₁ he₁)⟩
  rw [herr] at hend
  exact hend

omit [Platform] in
/-- A record at the end of an open manifest has been appended. -/
theorem mem_appendedSince {record : ManifestRecord} (hopen : e.disk.manifest.isSome)
    (h : e₁.disk.manifest = e.disk.manifest.map (· ++ [record])) :
    record ∈ appendedSince e e₁ := by
  obtain ⟨records, hrecords⟩ := Option.isSome_iff_exists.mp hopen
  unfold appendedSince
  rw [h, hrecords]
  simp

omit [Platform] in
/-- **A freeze fails cleanly.** -/
theorem freeze_failsClean (hopen : e.disk.manifest.isSome) :
    FailsClean forceFreezeMemtable (freezeMoments e) e := by
  rcases freeze_run e with ⟨f, d, hexec, -, hmoments⟩ | ⟨memtable, e', hexec, hfroze, hmoments⟩
  · refine .of_state_eq (by rw [hexec]) fun e₁ he₁ => ?_
    obtain ⟨p, hp, rfl⟩ := List.mem_map.mp he₁
    exact hmoments p hp
  · refine ⟨fun msg e'' herr => ?_, fun e₁ he₁ => ?_⟩
    · rw [hexec] at herr
      cases herr
    · obtain ⟨p, hp, rfl⟩ := List.mem_map.mp he₁
      rcases hmoments p hp with hp | hp
      · exact .of_state_eq hp
      · rw [hp]
        refine ⟨fun id hid => ?_, fun m hm => ?_⟩
        · rw [hfroze.state] at hid
          exact absurd hid (lt_irrefl _)
        · rw [hfroze.state] at hm
          rcases List.mem_cons.mp hm with rfl | hm
          · exact Or.inr (mem_appendedSince hopen (hfroze.id ▸ hfroze.manifest))
          · exact Or.inl hm

omit [Platform] in
/-- A table that is published without a record is seen. -/
theorem not_recordedSince_publish {sst : SsTable} (hstate : e₁.state =
    e.state.flushedState e.compactionController.flushToL0 sst)
    (hmanifest : e₁.disk.manifest = e.disk.manifest) : ¬ RecordedSince e e₁ := by
  intro h
  have happended : appendedSince e e₁ = [] := by
    unfold appendedSince
    rw [hmanifest, List.drop_length]
  have hcount := (LsmStorageState.listedIds_flushedState e.compactionController.flushToL0 sst
    e.state).count_eq sst.id
  rw [List.count_cons_self, ← hstate] at hcount
  have hmem := h.ssts sst.id (by omega)
  rw [happended] at hmem
  cases hmem

omit [Platform] in
theorem recordedSince_flushed {sst : SsTable} (hopen : e.disk.manifest.isSome)
    (hstate : e₁.state = e.state.flushedState e.compactionController.flushToL0 sst)
    (hmanifest : e₁.disk.manifest = e.disk.manifest.map (· ++ [.flush sst.id])) :
    RecordedSince e e₁ := by
  refine ⟨fun id hid => ?_, fun m hm => Or.inl ?_⟩
  · rw [hstate, (LsmStorageState.listedIds_flushedState _ sst e.state).count_eq] at hid
    by_cases heq : sst.id = id
    · rw [← heq]
      exact mem_appendedSince hopen hmanifest
    · rw [List.count_cons_of_ne heq] at hid
      exact absurd hid (lt_irrefl _)
  · rw [hstate] at hm
    rcases List.mem_cons.mp hm with rfl | hm
    · exact List.mem_cons_self
    · exact List.mem_cons_of_mem _ (List.dropLast_subset _ hm)

/-! ## Runs in which every flush is recorded -/

/-- Every table and every memtable but the first one has got its record. -/
def Recorded (initial : ℕ) (e : LsmStorageInner) : Prop :=
  ∃ records, e.disk.manifest = some records ∧ (∀ id ∈ e.state.listedIds, .flush id ∈ records) ∧
    ∀ m ∈ e.state.memtable :: e.state.immMemtables, m.id = initial ∨ .newMemtable m.id ∈ records

omit [Platform] in
/-- What was recorded stays recorded when the manifest grows. -/
theorem Recorded.mono {initial : ℕ} (h : Recorded initial e) (more : List ManifestRecord)
    (hmanifest : e₁.disk.manifest = e.disk.manifest.map (· ++ more))
    (hids : ∀ id ∈ e₁.state.listedIds, id ∈ e.state.listedIds ∨ .flush id ∈ more)
    (hmemtables : ∀ m ∈ e₁.state.memtable :: e₁.state.immMemtables,
      (∃ m' ∈ e.state.memtable :: e.state.immMemtables, m'.id = m.id) ∨ .newMemtable m.id ∈ more) :
    Recorded initial e₁ := by
  obtain ⟨records, hrecords, hflush, hnew⟩ := h
  refine ⟨records ++ more, by rw [hmanifest, hrecords]; rfl, fun id hid => ?_, fun m hm => ?_⟩
  · rcases hids id hid with hid | hid
    · exact List.mem_append_left _ (hflush id hid)
    · exact List.mem_append_right _ hid
  · rcases hmemtables m hm with ⟨m', hm', hid⟩ | hm
    · rw [← hid]
      exact (hnew m' hm').imp_right (List.mem_append_left _)
    · exact Or.inr (List.mem_append_right _ hm)

omit [Platform] in
/-- A change of the rest of the engine. -/
theorem Recorded.congr {initial : ℕ} (h : Recorded initial e) (hstate : e₁.state = e.state)
    (hmanifest : e₁.disk.manifest = e.disk.manifest) : Recorded initial e₁ := by
  unfold Recorded
  rw [hstate, hmanifest]
  exact h

omit [Platform] in
theorem Recorded.freeze {initial : ℕ} (h : Recorded initial e) :
    Recorded initial (forceFreezeMemtable.exec e).2 := by
  rcases freeze_run e with ⟨f, d, hexec, hmanifest, -⟩ | ⟨memtable, e', hexec, hfroze, -⟩
  · rw [hexec]
    exact h.congr rfl hmanifest
  · rw [hexec]
    refine h.mono _ hfroze.manifest (fun id hid => Or.inl ?_) fun m hm => ?_
    · rw [hfroze.state] at hid
      exact hid
    · rw [hfroze.state] at hm
      rcases List.mem_cons.mp hm with rfl | hm
      · rw [hfroze.id]
        exact Or.inr (List.mem_singleton.mpr rfl)
      · exact Or.inl ⟨m, hm, rfl⟩

/-- The manifest append of a flush, if there is one, does not fail. -/
def FlushRecords (e : LsmStorageInner) : Prop :=
  e.state.immMemtables = [] ∨ e.disk.FailsNext ∨ ¬ e.disk.passed.FailsNext

theorem Recorded.flush {initial : ℕ} (h : Recorded initial e) (hrecords : e.FlushRecords) :
    Recorded initial (forceFlushNextImmMemtable.exec e).2 := by
  have hrun := flush_run e
  generalize Effect.trace flushStep 4 .start e = moments at hrun
  generalize forceFlushNextImmMemtable.exec e = result at hrun ⊢
  cases hrun with
  | nothing hnone => exact h
  | unwritten hlast hfails => exact h.congr rfl rfl
  | unrecorded hlast hid hwrites hfails =>
    rcases hrecords with hnil | hrecords | hrecords
    · rw [hnil] at hlast
      cases hlast
    · exact absurd hrecords hwrites
    · exact absurd hfails hrecords
  | @flushed m sst hlast hid hwrites hrecords =>
    refine h.mono [.flush sst.id] rfl (fun id hid => ?_) fun m' hm' => Or.inl ⟨m', ?_, rfl⟩
    · rcases List.mem_cons.mp ((LsmStorageState.listedIds_flushedState _ sst _).subset hid) with
        rfl | hid
      · exact Or.inr (List.mem_singleton.mpr rfl)
      · exact Or.inl hid
    · rcases List.mem_cons.mp hm' with rfl | hm'
      · exact List.mem_cons_self
      · exact List.mem_cons_of_mem _ (List.dropLast_subset _ hm')

omit [Platform] in
theorem Recorded.tryFreeze {initial : ℕ} (h : Recorded initial e) :
    Recorded initial (tryFreeze.exec e).2 := by
  unfold LsmStorageInner.tryFreeze
  rw [Effect.exec_get_bind]
  split
  · exact h.freeze
  · exact h

theorem Recorded.writeBatch {initial : ℕ} (h : Recorded initial e) (batch : List WriteBatchRecord) :
    Recorded initial ((writeBatch batch).exec e).2 := by
  unfold LsmStorageInner.writeBatch
  rw [Effect.exec_get_bind]
  cases hts : nextTs e.latestCommitTs with
  | error f => exact h
  | ok ts =>
    rw [Effect.exec_lift_bind]
    obtain ⟨o, d, n, hput, hcase⟩ :=
      MemTable.putBatch_exec (batch.map (WriteBatchRecord.entry ts)) e.state.memtable e.disk
    have hon : (onMemtable (MemTable.putBatch (batch.map (WriteBatchRecord.entry ts)))).exec e =
        (o, e.afterPut ((batch.map (WriteBatchRecord.entry ts)).take n) d) := by
      unfold onMemtable
      rw [Effect.exec_zoom, hput]
      rfl
    have hmanifest : d.manifest = e.disk.manifest := by
      rcases hcase with ⟨-, -, hlogged⟩ | ⟨-, -, -, -, hlogged⟩ <;> exact hlogged.manifest
    have hafter : Recorded initial (e.afterPut ((batch.map (WriteBatchRecord.entry ts)).take n) d) := by
      refine h.mono [] ?_ (fun id hid => Or.inl hid) fun m hm => Or.inl ?_
      · simp [afterPut, hmanifest]
      · rcases List.mem_cons.mp hm with rfl | hm
        · exact ⟨e.state.memtable, List.mem_cons_self, (MemTable.insertAll_id _ _).symm⟩
        · exact ⟨m, List.mem_cons_of_mem _ hm, rfl⟩
    cases o with
    | error f =>
      rw [Effect.exec_bind_of_error hon]
      exact hafter
    | ok u =>
      rw [Effect.exec_bind_of_ok hon]
      have htry := hafter.tryFreeze
      cases hfreeze : LsmStorageInner.tryFreeze.exec
        (e.afterPut ((batch.map (WriteBatchRecord.entry ts)).take n) d) with
      | mk o e₂ =>
        rw [hfreeze] at htry
        cases o with
        | error f =>
          rw [Effect.exec_bind_of_error hfreeze]
          exact htry
        | ok u =>
          rw [Effect.exec_bind_of_ok hfreeze]
          exact htry.congr rfl rfl

/-- The calls of a writer and of a flusher. -/
inductive Call where
  | write (batch : List WriteBatchRecord)
  | freeze
  | flush

/-- The function that a call runs. -/
def Call.run : Call → EngineEffect Unit
  | .write batch => LsmStorageInner.writeBatch batch
  | .freeze => forceFreezeMemtable
  | .flush => forceFlushNextImmMemtable

/-- The call leaves the engine `e'`, whether it returns `Ok` or not; a flush is recorded. -/
def CallLeaves (e : LsmStorageInner) (call : Call) (e' : LsmStorageInner) : Prop :=
  (call = .flush → e.FlushRecords) ∧ (call.run.exec e).2 = e'

/-- **Everything stays recorded** in a run in which no flush fails to append its record. -/
theorem Recorded.run {initial : ℕ} {calls : List Call} (hrun : Run CallLeaves e calls e₁)
    (h : Recorded initial e) : Recorded initial e₁ := by
  refine hrun.invariant (Recorded initial) (fun e call e' h hstep => ?_) h
  obtain ⟨hrecords, rfl⟩ := hstep
  cases call with
  | write batch => exact h.writeBatch batch
  | freeze => exact h.freeze
  | flush => exact h.flush (hrecords rfl)

/-- A flush fails cleanly when it publishes nothing, and, set aside the moment in which it holds the
write guard, when its record is appended. -/
theorem flush_failsClean_iff (hopen : e.disk.manifest.isSome) :
    (FailsClean forceFlushNextImmMemtable (flushMoments e) e ↔
        e.state.immMemtables = [] ∨ e.disk.FailsNext) ∧
      (FailsClean forceFlushNextImmMemtable (flushMomentsSeen e) e ↔ e.FlushRecords) := by
  unfold FlushRecords
  have hrun := flush_run e
  unfold flushMoments flushMomentsSeen
  generalize Effect.trace flushStep 4 .start e = moments at hrun ⊢
  generalize hexec : forceFlushNextImmMemtable.exec e = result at hrun
  cases hrun with
  | nothing hnone =>
    have hclean : ∀ moments, (∀ e₁ ∈ moments, e₁ = e) →
        FailsClean forceFlushNextImmMemtable moments e := fun moments hsame =>
      .of_state_eq (by rw [hexec]) fun e₁ he₁ => by rw [hsame e₁ he₁]
    exact ⟨iff_of_true (hclean _ (by simp)) (Or.inl hnone),
      iff_of_true (hclean _ (by simp [writing])) (Or.inl hnone)⟩
  | unwritten hlast hfails =>
    have hclean : ∀ moments, (∀ e₁ ∈ moments, e₁.state = e.state) →
        FailsClean forceFlushNextImmMemtable moments e := fun moments hsame =>
      .of_state_eq (by rw [hexec]; rfl) hsame
    exact ⟨iff_of_true (hclean _ (by simp [refused])) (Or.inr hfails),
      iff_of_true (hclean _ (by simp [writing, refused])) (Or.inr (Or.inl hfails))⟩
  | @unrecorded m sst hlast hid hwrites hfails =>
    have hnone : e.state.immMemtables ≠ [] := by
      intro hnil
      rw [hnil] at hlast
      cases hlast
    have hpublished : ¬ RecordedSince e ((e.written sst).publish sst) :=
      not_recordedSince_publish rfl rfl
    have hrefused : ¬ RecordedSince e ((e.written sst).publish sst).refused :=
      not_recordedSince_publish rfl rfl
    refine ⟨iff_of_false (fun hclean => ?_) (by tauto), iff_of_false (fun hclean => ?_) (by tauto)⟩
    · exact hpublished (hclean.recorded _ (by simp))
    · exact hrefused (hclean.recorded _ (by simp [writing]))
  | @flushed m sst hlast hid hwrites hrecords =>
    have hnone : e.state.immMemtables ≠ [] := by
      intro hnil
      rw [hnil] at hlast
      cases hlast
    have hpublished : ¬ RecordedSince e ((e.written sst).publish sst) :=
      not_recordedSince_publish rfl rfl
    have hself : RecordedSince e e := .of_state_eq rfl
    have hwritten : RecordedSince e (e.written sst) := .of_state_eq rfl
    have hfinal : RecordedSince e (((e.written sst).publish sst).recorded (.flush sst.id)) :=
      recordedSince_flushed hopen rfl rfl
    refine ⟨iff_of_false (fun hclean => ?_) (by tauto), iff_of_true ⟨?_, ?_⟩ (by tauto)⟩
    · exact hpublished (hclean.recorded _ (by simp))
    · intro msg e' herr
      rw [hexec] at herr
      cases herr
    · simp [writing, hself, hwritten, hfinal]

/-- **A freeze fails cleanly; a flush does when it publishes nothing or its record is appended.** In a
run of such calls everything in the state has got its record. -/
theorem failsClean_iff (hopen : e.disk.manifest.isSome) :
    FailsClean forceFreezeMemtable (freezeMoments e) e ∧
      (FailsClean forceFlushNextImmMemtable (flushMoments e) e ↔
        e.state.immMemtables = [] ∨ e.disk.FailsNext) ∧
      (FailsClean forceFlushNextImmMemtable (flushMomentsSeen e) e ↔ e.FlushRecords) ∧
      ∀ initial calls e', Recorded initial e → Run CallLeaves e calls e' → Recorded initial e' := by
  obtain ⟨hall, hseen⟩ := flush_failsClean_iff hopen
  exact ⟨freeze_failsClean hopen, hall, hseen, fun initial calls e' h hrun => h.run hrun⟩

end

end LsmStorageInner

section

attribute [local instance] shortKeyPlatform

namespace LsmStorageInner

/-- One immutable memtable, with one entry. -/
def oneImmutable : LsmStorageInner :=
  { state :=
      { memtable := MemTable.create 1
        immMemtables := [(MemTable.create 0).insertAll [(⟨[1], 1⟩, [7])]]
        l0Sstables := []
        levels := [(1, [])]
        sstables := ∅ }
    disk := { Disk.empty with manifest := some [.newMemtable 1] }
    nextSstId := 2
    latestCommitTs := 1
    options := ⟨4096, 4096, 2, .noCompaction, false⟩ }

/-- The disk takes the table but not the record. -/
def fullManifest : LsmStorageInner :=
  { oneImmutable with disk := { oneImmutable.disk with faults := [false, true] } }

theorem failsClean_fullManifest :
    FailsClean forceFreezeMemtable (freezeMoments fullManifest) fullManifest ∧
      ¬ FailsClean forceFlushNextImmMemtable (flushMomentsSeen fullManifest) fullManifest := by
  obtain ⟨hfreeze, -, hflush, -⟩ := failsClean_iff (e := fullManifest) rfl
  have hnot : ¬ fullManifest.FlushRecords := by
    rintro (hnone | hfails | hfails)
    · cases hnone
    · exact absurd hfails (by decide)
    · exact hfails (by decide)
  exact ⟨hfreeze, fun hclean => hnot (hflush.mp hclean)⟩

/-- The flush fails, and its table stays in the state. -/
theorem failed_flush_publishes :
    ¬ ∃ moments, FailsClean forceFlushNextImmMemtable moments fullManifest := by
  rintro ⟨moments, hclean⟩
  have hfails : (forceFlushNextImmMemtable.exec fullManifest).1 = .error (.err "I/O error") := by
    decide +kernel
  have hl0 : (forceFlushNextImmMemtable.exec fullManifest).2.state.l0Sstables = [0] := by
    decide +kernel
  obtain ⟨e', hexec⟩ := Effect.exists_exec hfails
  rw [hexec, hclean.kept _ e' hexec] at hl0
  cases hl0

end LsmStorageInner

end

end TinyLsm

import TinyLsm.LsmStorage.Invariant
import TinyLsm.LsmStorage.Open

/-!
# Closing a store (`MiniLsm`)

The operations of `MiniLsm` with the locks that their own thread takes: `state` is a `RwLock` and
`state_lock` a `Mutex`.  No other thread runs, so a request waits only for a guard of the thread
itself, and then it waits forever.

`forceFreezeMemtable_idle` and `forceFlushNextImmMemtable_idle`: a thread that holds nothing does
what the engine does.  `close` holds a read guard over its whole body, and `close_completes_iff`
says which states it can close.
-/

namespace TinyLsm

/-- Why a call has not returned `Ok`. -/
inductive Stop where
  | fault (f : Fault)
  /-- It waits for a lock that its own thread holds. -/
  | blocked
  /-- It has not ended within the rounds that were given to its loop. -/
  | running
  deriving DecidableEq

/-- The engine, and what the calling thread holds of its locks. -/
structure Thread where
  engine : LsmStorageInner
  /-- Read guards of `state`. -/
  readers : ℕ
  /-- A write guard of `state`. -/
  writing : Bool
  stateLock : Bool

/-- What a thread does that may wait for a lock for ever. -/
abbrev ThreadEffect (α : Type) := Effect Stop Thread α

namespace Thread

/-- A thread without guards. -/
def idle (e : LsmStorageInner) : Thread := ⟨e, 0, false, false⟩

/-- What needs no lock. -/
def onEngine {α : Type} (a : LsmStorageInner.EngineEffect α) : ThreadEffect α := fun s =>
  ((a.exec s.engine).1.mapError .fault, { s with engine := (a.exec s.engine).2 })

/-- `state.read()`; the guard lives until the end of the body. -/
def readState {α : Type} (body : LsmStorageState MemTable → ThreadEffect α) : ThreadEffect α :=
  fun s =>
    if s.writing then (.error .blocked, s)
    else
      let r := (body s.engine.state).exec { s with readers := s.readers + 1 }
      (r.1, { r.2 with readers := s.readers })

/-- `state.write()`. -/
def writeState {α : Type} (body : ThreadEffect α) : ThreadEffect α := fun s =>
  if s.writing = true ∨ 0 < s.readers then (.error .blocked, s)
  else
    let r := body.exec { s with writing := true }
    (r.1, { r.2 with writing := false })

/-- `state_lock.lock()`. -/
def lockState {α : Type} (body : ThreadEffect α) : ThreadEffect α := fun s =>
  if s.stateLock then (.error .blocked, s)
  else
    let r := body.exec { s with stateLock := true }
    (r.1, { r.2 with stateLock := false })

section

variable {α β : Type} {s : Thread}

theorem exec_onEngine (a : LsmStorageInner.EngineEffect α) (s : Thread) : (onEngine a).exec s =
    ((a.exec s.engine).1.mapError .fault, { s with engine := (a.exec s.engine).2 }) := rfl

/-- Steps of the engine one after the other are one step of the engine. -/
theorem exec_onEngine_bind {a : LsmStorageInner.EngineEffect α} {f : α → ThreadEffect β}
    {g : α → LsmStorageInner.EngineEffect β}
    (h : ∀ x e, (f x).exec { s with engine := e } = (onEngine (g x)).exec { s with engine := e }) :
    (onEngine a >>= f).exec s = (onEngine (a >>= g)).exec s := by
  cases ha : a.exec s.engine with
  | mk o e =>
    cases o with
    | ok x =>
      have hstep : (onEngine a).exec s = (.ok x, { s with engine := e }) := by
        rw [exec_onEngine, ha]
        rfl
      rw [Effect.exec_bind_of_ok hstep, h, exec_onEngine, exec_onEngine, Effect.exec_bind_of_ok ha]
    | error err =>
      have hstep : (onEngine a).exec s = (.error (.fault err), { s with engine := e }) := by
        rw [exec_onEngine, ha]
        rfl
      rw [Effect.exec_bind_of_error hstep, exec_onEngine, Effect.exec_bind_of_error ha]
      rfl

theorem exec_readState (body : LsmStorageState MemTable → ThreadEffect α)
    (h : s.writing = false) : (readState body).exec s =
      (((body s.engine.state).exec { s with readers := s.readers + 1 }).1,
        { ((body s.engine.state).exec { s with readers := s.readers + 1 }).2 with
          readers := s.readers }) := by
  change (if s.writing = true then _ else _) = _
  rw [if_neg (by simp [h])]

/-- A look at the state. -/
theorem exec_readState_bind (g : LsmStorageState MemTable → α) (f : α → ThreadEffect β)
    (h : s.writing = false) :
    ((readState fun state => return g state) >>= f).exec s = (f (g s.engine.state)).exec s := by
  refine Effect.exec_bind_of_ok ?_
  rw [exec_readState _ h]
  rfl

theorem exec_writeState_onEngine (a : LsmStorageInner.EngineEffect α) (hw : s.writing = false)
    (hr : s.readers = 0) : (writeState (onEngine a)).exec s = (onEngine a).exec s := by
  change (if s.writing = true ∨ 0 < s.readers then _ else _) = _
  rw [if_neg (by simp [hw, hr]), exec_onEngine, exec_onEngine, hw]

theorem onEngine_ne_blocked (a : LsmStorageInner.EngineEffect α) (s : Thread) :
    ((onEngine a).exec s).1 ≠ .error .blocked := by
  rw [exec_onEngine]
  cases (a.exec s.engine).1 <;> simp [Except.mapError]

theorem readers_of_onEngine {a : LsmStorageInner.EngineEffect α} {x : α} {s' : Thread}
    (h : (onEngine a).exec s = (.ok x, s')) : s'.readers = s.readers := by
  rw [exec_onEngine, Prod.mk.injEq] at h
  rw [← h.2]

/-- **A thread that reads the state waits forever for writing it.** -/
theorem exec_writeState_of_reading (body : ThreadEffect α) (h : 0 < s.readers) :
    (writeState body).exec s = (.error .blocked, s) := if_pos (Or.inr h)

theorem writeState_of_reading {body : ThreadEffect α} {x : α} {s' : Thread} (h : 0 < s.readers) :
    (writeState body).exec s ≠ (.ok x, s') := by
  intro hok
  rw [exec_writeState_of_reading body h] at hok
  cases hok

theorem exec_lockState_writeState_onEngine (a : LsmStorageInner.EngineEffect α)
    (hw : s.writing = false) (hr : s.readers = 0) (hl : s.stateLock = false) :
    (lockState (writeState (onEngine a))).exec s = (onEngine a).exec s := by
  change (if s.stateLock = true then _ else _) = _
  rw [if_neg (by simp [hl])]
  rw [exec_writeState_onEngine a (s := { s with stateLock := true }) hw hr, exec_onEngine,
    exec_onEngine, hl]

theorem exec_lockState (body : ThreadEffect α) (h : s.stateLock = false) :
    (lockState body).exec s = ((body.exec { s with stateLock := true }).1,
      { (body.exec { s with stateLock := true }).2 with stateLock := false }) := by
  change (if s.stateLock = true then _ else _) = _
  rw [if_neg (by simp [h])]

end

/-- `force_freeze_memtable`: the read guard is dropped before the new memtable is made. -/
def forceFreezeMemtable : ThreadEffect Unit := do
  let state ← readState fun state =>
    return { state with immMemtables := state.memtable :: state.immMemtables }
  let memtable ← onEngine do LsmStorageInner.newMemtable (← LsmStorageInner.takeSstId)
  onEngine (LsmStorageInner.onDisk (Manifest.addRecord (.newMemtable memtable.id)))
  writeState (onEngine (modify fun e => { e with state := { state with memtable } }))

/-- A thread that holds no guard of `state` freezes as the engine does. -/
theorem forceFreezeMemtable_idle {s : Thread} (hw : s.writing = false) (hr : s.readers = 0) :
    forceFreezeMemtable.exec s = (onEngine LsmStorageInner.forceFreezeMemtable).exec s := by
  unfold forceFreezeMemtable
  rw [exec_readState_bind _ _ hw]
  have hengine : (onEngine LsmStorageInner.forceFreezeMemtable).exec s =
      (onEngine ((do LsmStorageInner.newMemtable (← LsmStorageInner.takeSstId)) >>= fun memtable =>
        LsmStorageInner.onDisk (Manifest.addRecord (.newMemtable memtable.id)) >>= fun _ =>
        modify fun e => { e with state := { s.engine.state with
          immMemtables := s.engine.state.memtable :: s.engine.state.immMemtables, memtable } })).exec s := by
    rw [exec_onEngine, exec_onEngine]
    unfold LsmStorageInner.forceFreezeMemtable
    rw [Effect.exec_get_bind, bind_assoc]
  rw [hengine]
  refine exec_onEngine_bind fun memtable e => exec_onEngine_bind fun _ e => ?_
  exact exec_writeState_onEngine _ hw hr

/-- **A thread that reads the state cannot freeze.** -/
theorem forceFreezeMemtable_reading {s s' : Thread} (hw : s.writing = false) (hr : 0 < s.readers) :
    forceFreezeMemtable.exec s ≠ (.ok (), s') := by
  intro h
  unfold forceFreezeMemtable at h
  rw [exec_readState_bind _ _ hw, Effect.exec_bind_eq_ok_iff] at h
  obtain ⟨memtable, s₁, hnew, h⟩ := h
  rw [Effect.exec_bind_eq_ok_iff] at h
  obtain ⟨u, s₂, hrecord, h⟩ := h
  have hreaders : s₂.readers = s.readers :=
    (readers_of_onEngine hrecord).trans (readers_of_onEngine hnew)
  exact writeState_of_reading (by rw [hreaders]; exact hr) h

/-- Without a log and without a failure it is the write lock that it waits for. -/
theorem forceFreezeMemtable_blocked {s : Thread} (hw : s.writing = false) (hr : 0 < s.readers)
    (hwal : s.engine.options.enableWal = false) (hdisk : s.engine.disk.Reliable) :
    (forceFreezeMemtable.exec s).1 = .error .blocked := by
  unfold forceFreezeMemtable
  rw [exec_readState_bind _ _ hw]
  have hnew : (onEngine (do LsmStorageInner.newMemtable (← LsmStorageInner.takeSstId))).exec s =
      (.ok (MemTable.create s.engine.nextSstId),
        { s with engine := { s.engine with nextSstId := s.engine.nextSstId + 1 } }) := by
    have htake : (do LsmStorageInner.newMemtable (← LsmStorageInner.takeSstId)).exec s.engine =
        (.ok (MemTable.create s.engine.nextSstId),
          { s.engine with nextSstId := s.engine.nextSstId + 1 }) := by
      unfold LsmStorageInner.takeSstId LsmStorageInner.newMemtable
      simp only [bind_assoc, pure_bind]
      rw [Effect.exec_get_bind, Effect.exec_modify_bind, Effect.exec_get_bind,
        if_neg (by simp [hwal])]
      rfl
    rw [exec_onEngine, htake]
    rfl
  rw [Effect.exec_bind_of_ok hnew]
  have hrecord : ∀ record, ∃ s', (onEngine (LsmStorageInner.onDisk (Manifest.addRecord record))).exec
      { s with engine := { s.engine with nextSstId := s.engine.nextSstId + 1 } } = (.ok (), s') := by
    intro record
    refine Effect.exists_exec ?_
    rw [exec_onEngine]
    unfold LsmStorageInner.onDisk
    rw [Effect.exec_zoom]
    simp only [hdisk.addRecord record]
    rfl
  obtain ⟨s', hs'⟩ := hrecord (.newMemtable (MemTable.create s.engine.nextSstId).id)
  have hreaders := readers_of_onEngine hs'
  rw [Effect.exec_bind_of_ok hs', exec_writeState_of_reading _ (by rw [hreaders]; exact hr)]

variable [Platform]

/-- `force_flush_next_imm_memtable`: both locks are taken when the table has been written. -/
def forceFlushNextImmMemtable : ThreadEffect Unit := do
  match ← readState fun state => return state.immMemtables.getLast? with
  | none => pure ()
  | some memtable => do
    let builder ← onEngine do
      liftM (memtable.flush (SsTableBuilder.new (← get).options.blockSize))
    let sst := builder.build memtable.id
    onEngine (LsmStorageInner.onDisk (FileObject.create memtable.id sst.file))
    lockState (writeState (onEngine do
      let e ← get
      let state ← liftM
        (e.state.installFlush MemTable.id e.compactionController.flushToL0 sst)
      modify fun e => { e with state }
      LsmStorageInner.onDisk (Manifest.addRecord (.flush memtable.id))))

/-- A thread without guards flushes as the engine does. -/
theorem forceFlushNextImmMemtable_idle {s : Thread} (hw : s.writing = false) (hr : s.readers = 0)
    (hl : s.stateLock = false) : forceFlushNextImmMemtable.exec s =
      (onEngine LsmStorageInner.forceFlushNextImmMemtable).exec s := by
  unfold forceFlushNextImmMemtable
  rw [exec_readState_bind _ _ hw]
  cases hlast : s.engine.state.immMemtables.getLast? with
  | none =>
    rw [exec_onEngine]
    unfold LsmStorageInner.forceFlushNextImmMemtable
    rw [Effect.exec_get_bind, hlast]
    rfl
  | some memtable =>
    have hengine : (onEngine LsmStorageInner.forceFlushNextImmMemtable).exec s =
        (onEngine ((do liftM (memtable.flush (SsTableBuilder.new (← get).options.blockSize))) >>=
          fun builder => LsmStorageInner.onDisk
            (FileObject.create memtable.id (builder.build memtable.id).file) >>= fun _ => do
          let e ← get
          let state ← liftM (e.state.installFlush MemTable.id e.compactionController.flushToL0
            (builder.build memtable.id))
          modify fun e => { e with state }
          LsmStorageInner.onDisk (Manifest.addRecord (.flush memtable.id)))).exec s := by
      rw [exec_onEngine, exec_onEngine]
      unfold LsmStorageInner.forceFlushNextImmMemtable
      rw [Effect.exec_get_bind, hlast, bind_assoc, Effect.exec_get_bind]
    rw [hengine]
    refine exec_onEngine_bind fun builder e => exec_onEngine_bind fun _ e => ?_
    exact exec_lockState_writeState_onEngine _ hw hr hl

/-- **A thread that reads the state cannot flush.** -/
theorem forceFlushNextImmMemtable_reading {s s' : Thread} (hw : s.writing = false)
    (hr : 0 < s.readers) (himms : s.engine.state.immMemtables ≠ []) :
    forceFlushNextImmMemtable.exec s ≠ (.ok (), s') := by
  intro h
  unfold forceFlushNextImmMemtable at h
  rw [exec_readState_bind _ _ hw, List.getLast?_eq_some_getLast himms] at h
  simp only at h
  rw [Effect.exec_bind_eq_ok_iff] at h
  obtain ⟨builder, s₁, hbuild, h⟩ := h
  rw [Effect.exec_bind_eq_ok_iff] at h
  obtain ⟨u, s₂, hcreate, h⟩ := h
  have hreaders : s₂.readers = s.readers :=
    (readers_of_onEngine hcreate).trans (readers_of_onEngine hbuild)
  by_cases hl : s₂.stateLock = true
  · change (if s₂.stateLock = true then _ else _) = _ at h
    rw [if_pos hl] at h
    cases h
  · rw [exec_lockState _ (Bool.eq_false_iff.mpr hl), Prod.mk.injEq] at h
    exact writeState_of_reading (by rw [hreaders]; exact hr) (Prod.ext h.1 rfl)

end Thread

namespace MiniLsm

open Thread

/-- `sync` and `sync_dir`: the directory is opened and synced. -/
def sync : LsmStorageInner.EngineEffect Unit := LsmStorageInner.onDisk do
  Disk.syscall
  Disk.syscall

variable [Platform]

/-- The loop of `close`, for at most `n` rounds: it tests the snapshot. -/
def closeLoop (snapshot : LsmStorageState MemTable) : ℕ → ThreadEffect Unit
  | 0 => if snapshot.immMemtables.isEmpty then pure () else throw .running
  | n + 1 =>
    if snapshot.immMemtables.isEmpty then pure ()
    else do
      forceFlushNextImmMemtable
      closeLoop snapshot n

/-- `close`, when the background threads are joined: `snapshot` is a guard that lives to the end. -/
def close (n : ℕ) : ThreadEffect Unit := do
  if (← get).engine.options.enableWal then
    onEngine sync
    onEngine sync
  else
    readState fun snapshot => do
      if snapshot.memtable.isEmpty then pure () else lockState forceFreezeMemtable
      closeLoop snapshot n

/-- `force_flush`: the guards of its conditions are dropped before the branches run. -/
def forceFlush : ThreadEffect Unit := do
  if ← readState fun state => return !state.memtable.isEmpty then
    lockState forceFreezeMemtable
  if ← readState fun state => return !state.immMemtables.isEmpty then
    forceFlushNextImmMemtable

/-! ## Which states can be closed -/

variable {e : LsmStorageInner}

/-- How many memtables `close` has to flush. -/
def pending (e : LsmStorageInner) : ℕ :=
  e.state.immMemtables.length + if e.state.memtable.isEmpty then 0 else 1

/-- `close` returns `Ok` after as many rounds as there are memtables to flush and not before, and
leaves no memtable with an entry and no entry that is not in a table. -/
def CloseCompletes (e : LsmStorageInner) : Prop :=
  (∀ n, (∃ s, (close n).exec (idle e) = (.ok (), s)) ↔ pending e ≤ n) ∧
  ∀ n s, (close n).exec (idle e) = (.ok (), s) → s.engine.state.memtable.isEmpty = true ∧
    s.engine.state.immMemtables = [] ∧
    ∀ m ∈ e.state.memtables, ∀ x ∈ m.map.entries, ∃ id ∈ s.engine.state.listedIds, ∃ es,
      s.engine.state.TableHolds id es ∧ x ∈ es

/-- What is left to be read of a store that `close` has nothing to do for. -/
theorem close_empty (hwal : e.options.enableWal = false) (hmem : e.state.memtable.isEmpty = true)
    (himms : e.state.immMemtables = []) (n : ℕ) : (close n).exec (idle e) = (.ok (), idle e) := by
  have hloop : closeLoop e.state n = pure () := by
    cases n <;> rw [closeLoop, himms] <;> rfl
  unfold close
  rw [Effect.exec_get_bind, if_neg (by rw [show (idle e).engine = e from rfl, hwal]; simp),
    exec_readState _ rfl]
  simp only [show (idle e).engine = e from rfl, hmem, if_true, hloop]
  rfl

/-- The body of `close`, which runs under a read guard. -/
theorem exec_close (hwal : e.options.enableWal = false) (n : ℕ) :
    ((close n).exec (idle e)).1 =
      (((if e.state.memtable.isEmpty then pure () else lockState forceFreezeMemtable) >>= fun _ =>
        closeLoop e.state n).exec { idle e with readers := 1 }).1 := by
  unfold close
  rw [Effect.exec_get_bind, if_neg (by rw [show (idle e).engine = e from rfl, hwal]; simp),
    exec_readState _ rfl]
  simp only [show (idle e).engine = e from rfl]
  split <;> rfl

/-- **`close` never returns `Ok` when it has a memtable to freeze or to flush.** -/
theorem close_stops (hwal : e.options.enableWal = false)
    (h : e.state.memtable.isEmpty = false ∨ e.state.immMemtables ≠ []) (n : ℕ) (s : Thread) :
    (close n).exec (idle e) ≠ (.ok (), s) := by
  intro hok
  have hbody := exec_close hwal n
  rw [hok] at hbody
  obtain ⟨s', hbody⟩ := Effect.exists_exec hbody.symm
  obtain ⟨u, s₁, hfreeze, hloop⟩ := Effect.exec_bind_eq_ok_iff.mp hbody
  cases hmem : e.state.memtable.isEmpty with
  | false =>
    rw [hmem, if_neg (by simp), exec_lockState _ rfl, Prod.mk.injEq] at hfreeze
    exact forceFreezeMemtable_reading rfl Nat.one_pos (Prod.ext hfreeze.1 rfl)
  | true =>
    have himms : e.state.immMemtables ≠ [] := by
      rcases h with h | h
      · rw [hmem] at h
        cases h
      · exact h
    rw [hmem, if_pos rfl] at hfreeze
    cases hfreeze
    have hnot : e.state.immMemtables.isEmpty ≠ true := by
      rw [ne_eq, List.isEmpty_iff]
      exact himms
    cases n with
    | zero =>
      rw [closeLoop, if_neg hnot] at hloop
      cases hloop
    | succ n =>
      rw [closeLoop, if_neg hnot, Effect.exec_bind_eq_ok_iff] at hloop
      obtain ⟨u, s₁, hflush, -⟩ := hloop
      exact forceFlushNextImmMemtable_reading rfl Nat.one_pos himms hflush

/-- **The states that `close` can close are those without a memtable to write out.** -/
theorem close_completes_iff (hwal : e.options.enableWal = false) :
    CloseCompletes e ↔ e.state.memtable.isEmpty = true ∧ e.state.immMemtables = [] := by
  constructor
  · rintro ⟨hrounds, -⟩
    obtain ⟨s, hok⟩ := (hrounds (pending e)).mpr (Nat.le_refl _)
    by_contra hnot
    refine close_stops hwal ?_ _ s hok
    rw [not_and_or] at hnot
    exact hnot.imp_left (fun h => Bool.eq_false_iff.mpr h)
  · rintro ⟨hmem, himms⟩
    have hpending : pending e = 0 := by
      unfold pending
      rw [hmem, himms]
      rfl
    refine ⟨fun n => ⟨fun _ => by rw [hpending]; exact Nat.zero_le n, fun _ =>
      ⟨idle e, close_empty hwal hmem himms n⟩⟩, fun n s hok => ?_⟩
    rw [close_empty hwal hmem himms n] at hok
    cases hok
    refine ⟨hmem, himms, fun m hm x hx => ?_⟩
    unfold LsmStorageState.memtables at hm
    rw [himms, List.mem_singleton] at hm
    subst hm
    rw [List.isEmpty_iff.mp hmem] at hx
    cases hx

/-- Freezing blocks while the thread reads the state, if nothing else goes wrong before. -/
theorem close_blocked (hwal : e.options.enableWal = false) (hdisk : e.disk.Reliable)
    (hmem : e.state.memtable.isEmpty = false) (n : ℕ) :
    ((close n).exec (idle e)).1 = .error .blocked := by
  have hfreeze : ((lockState forceFreezeMemtable).exec { idle e with readers := 1 }).1 =
      .error .blocked := by
    rw [exec_lockState _ rfl]
    exact forceFreezeMemtable_blocked rfl Nat.one_pos hwal hdisk
  obtain ⟨s, hs⟩ := Effect.exists_exec hfreeze
  rw [exec_close hwal, hmem, if_neg (by simp), Effect.exec_bind_of_error hs]

/-- `force_flush`, which drops its guards first, never blocks itself. -/
theorem forceFlush_not_blocked (e : LsmStorageInner) :
    (forceFlush.exec (idle e)).1 ≠ .error .blocked := by
  have hflush : ∀ s : Thread, s.writing = false → s.readers = 0 → s.stateLock = false →
      ((do if ← readState fun state => return !state.immMemtables.isEmpty then
            forceFlushNextImmMemtable : ThreadEffect Unit).exec s).1 ≠ .error .blocked := by
    intro s hw hr hl
    rw [exec_readState_bind _ _ hw]
    split
    · rw [forceFlushNextImmMemtable_idle hw hr hl]
      exact onEngine_ne_blocked _ _
    · simp
  unfold forceFlush
  rw [exec_readState_bind _ _ rfl]
  simp only
  by_cases hmem : (!(idle e).engine.state.memtable.isEmpty) = true
  · rw [if_pos hmem]
    have hfreeze : (lockState forceFreezeMemtable).exec (idle e) =
        (onEngine LsmStorageInner.forceFreezeMemtable).exec (idle e) := by
      rw [exec_lockState _ rfl, forceFreezeMemtable_idle rfl rfl]
      rfl
    rw [exec_onEngine] at hfreeze
    cases hexec : LsmStorageInner.forceFreezeMemtable.exec e with
    | mk o e' =>
      rw [show (idle e).engine = e from rfl, hexec] at hfreeze
      cases o with
      | ok u =>
        rw [Effect.exec_bind_of_ok hfreeze]
        exact hflush _ rfl rfl rfl
      | error f =>
        rw [Effect.exec_bind_of_error hfreeze]
        simp
  · rw [if_neg hmem]
    exact hflush (idle e) rfl rfl rfl

end MiniLsm

section

attribute [local instance] shortKeyPlatform

namespace MiniLsm

open LsmStorageInner Thread

/-- A store without logs. -/
def plainOptions : LsmStorageOptions := ⟨4096, 2 ^ 20, 50, .noCompaction, false⟩

/-- What was written is in a table. -/
theorem close_completes_small : ∃ e,
    afterCalls [.writeBatch [.put [1] [7]], .freeze, .flush] (newStore plainOptions) = some e ∧
      e.state.listedIds = [0] ∧ e.get [1] = .ok (some [7]) ∧ CloseCompletes e := by
  have hfinal : (afterCalls [.writeBatch [.put [1] [7]], .freeze, .flush] (newStore plainOptions)).map
      (fun e => decide (e.state.listedIds = [0] ∧ e.get [1] = .ok (some [7]) ∧
        e.options.enableWal = false ∧ e.state.memtable.isEmpty = true ∧
        e.state.immMemtables.length = 0)) = some true := by
    decide +kernel
  obtain ⟨e, he, hsummary⟩ := Option.map_eq_some_iff.mp hfinal
  obtain ⟨hlisted, hget, hwal, hmem, himms⟩ := of_decide_eq_true hsummary
  exact ⟨e, he, hlisted, hget,
    (close_completes_iff hwal).mpr ⟨hmem, List.length_eq_zero_iff.mp himms⟩⟩

/-- After a put `close` waits for itself. -/
theorem close_after_put : ∃ e, Step (newStore plainOptions) (.writeBatch [.put [1] [7]]) e ∧
    ¬ CloseCompletes e ∧ ∀ n, ((close n).exec (idle e)).1 = .error .blocked := by
  have hfinal : (afterCall (newStore plainOptions) (.writeBatch [.put [1] [7]])).map (fun e =>
      (e.options.enableWal, e.disk.faults, e.state.memtable.isEmpty)) = some (false, [], false) := by
    decide +kernel
  obtain ⟨e, he, hsummary⟩ := Option.map_eq_some_iff.mp hfinal
  obtain ⟨hwal, hrest⟩ := Prod.mk.inj hsummary
  obtain ⟨hfaults, hmem⟩ := Prod.mk.inj hrest
  have hdisk : e.disk.Reliable := by
    unfold Disk.Reliable
    rw [hfaults]
    simp
  refine ⟨e, step_of_afterCall he, fun hcompletes => ?_, close_blocked hwal hdisk hmem⟩
  obtain ⟨s, hok⟩ := (hcompletes.1 (pending e)).mpr (Nat.le_refl _)
  exact close_stops hwal (Or.inl hmem) _ s hok

end MiniLsm

end

end TinyLsm

import TinyLsm.LsmStorage.Batch
import TinyLsm.LsmStorage.Close
import TinyLsm.LsmStorage.Layout

/-!
# What a sync makes durable

A log is written through a `BufWriter`.  Its bytes are in the buffer, in the file but not synced, or
synced.  `Wal::sync` moves all of them to the last place, and no operation of the engine calls it:
`MiniLsm::sync` and `close` sync the directory.

`Store` is the engine together with the places of the bytes of its logs.  `sync_durable` says when
the writes before a sync are durable: when no memtable has an entry, so that all of them are in
tables.
-/

namespace TinyLsm

/-! ## The bytes of a log -/

/-- Where the bytes of a log are. -/
structure WalBytes where
  /-- In the `BufWriter`. -/
  buffer : Bytes
  /-- In the file, not synced. -/
  written : Bytes
  synced : Bytes
  deriving DecidableEq

namespace WalBytes

/-- A log that was just created. -/
def new : WalBytes := ⟨[], [], []⟩

/-- The capacity of a `BufWriter`. -/
def capacity : ℕ := 8192

/-- `BufWriter::flush`, which also runs when the writer is dropped. -/
def flush (w : WalBytes) : WalBytes := { w with buffer := [], written := w.written ++ w.buffer }

/-- `BufWriter::write_all`: what does not fit the buffer empties it, and what would fill it goes past
it. -/
def writeAll (w : WalBytes) (buf : Bytes) : WalBytes :=
  if buf.length < capacity - w.buffer.length then { w with buffer := w.buffer ++ buf }
  else
    let w := if capacity - w.buffer.length < buf.length then w.flush else w
    if capacity ≤ buf.length then { w with written := w.written ++ buf }
    else { w with buffer := w.buffer ++ buf }

/-- `Wal::sync`. -/
def sync (w : WalBytes) : WalBytes := ⟨[], [], w.synced ++ w.flush.written⟩

/-- All bytes, in the order in which they were written. -/
def all (w : WalBytes) : Bytes := w.synced ++ (w.written ++ w.buffer)

@[simp] theorem all_new : new.all = [] := rfl

@[simp] theorem all_flush (w : WalBytes) : w.flush.all = w.all := by
  simp [flush, all]

@[simp] theorem all_sync (w : WalBytes) : w.sync.all = w.all := by
  simp [sync, flush, all]

@[simp] theorem synced_flush (w : WalBytes) : w.flush.synced = w.synced := rfl

/-- Nothing is lost or reordered on the way through the buffer. -/
theorem all_writeAll {w : WalBytes} (h : w.buffer.length ≤ capacity) (buf : Bytes) :
    (w.writeAll buf).all = w.all ++ buf := by
  unfold writeAll
  split
  · simp [all]
  · rename_i hfull
    by_cases hflush : capacity - w.buffer.length < buf.length
    · simp only [if_pos hflush]
      split <;> simp [all, flush]
    · simp only [if_neg hflush]
      split
      · rename_i hlong
        have hempty : w.buffer = [] := List.length_eq_zero_iff.mp (by omega)
        simp [all, hempty]
      · simp [all]

/-- The buffer does not overflow. -/
theorem length_writeAll {w : WalBytes} (h : w.buffer.length ≤ capacity) (buf : Bytes) :
    (w.writeAll buf).buffer.length ≤ capacity := by
  unfold writeAll
  split
  · simp only [List.length_append]
    omega
  · by_cases hflush : capacity - w.buffer.length < buf.length
    · simp only [if_pos hflush, flush]
      split
      · exact Nat.zero_le _
      · simp only [List.nil_append]
        omega
    · simp only [if_neg hflush]
      split
      · exact h
      · simp only [List.length_append]
        omega

@[simp] theorem synced_writeAll (w : WalBytes) (buf : Bytes) :
    (w.writeAll buf).synced = w.synced := by
  unfold writeAll
  split
  · rfl
  · by_cases hflush : capacity - w.buffer.length < buf.length
    · simp only [if_pos hflush]
      split <;> rfl
    · simp only [if_neg hflush]
      split <;> rfl

end WalBytes

/-! ## The engine with the bytes of its logs -/

/-- The engine, the bytes of its logs, and the writes that have returned, each with the memtable it
went to. -/
structure Store where
  engine : LsmStorageInner
  logs : ℕ → WalBytes
  writes : List (ℕ × List Entry)

namespace Store

open LsmStorageInner LsmStorageState

/-- A call of `MiniLsm`, or one of its background threads flushing. -/
inductive Call where
  | writeBatch (batch : List WriteBatchRecord)
  | freeze
  | flush
  | sync
  | close

variable [Platform]

/-- The records of a batch, one `Wal::put` each. -/
def putAll (data : List Entry) (w : WalBytes) : WalBytes :=
  data.foldl (fun w x => w.writeAll (Wal.record x.1 x.2)) w

/-- What a write puts into the memtable. -/
def dataOf (s : Store) (batch : List WriteBatchRecord) : List Entry :=
  batch.map (WriteBatchRecord.entry (s.engine.latestCommitTs + 1))

/-- The logs after a call: a write appends to the log of the active memtable, a flush drops the
writer of the memtable that became a table. -/
def logsAfter (s : Store) : Call → ℕ → WalBytes
  | .writeBatch batch =>
    match s.engine.state.memtable.wal with
    | some wal => Function.update s.logs wal.id (putAll (s.dataOf batch) (s.logs wal.id))
    | none => s.logs
  | .flush =>
    match s.engine.state.immMemtables.getLast? with
    | some m => Function.update s.logs m.id (s.logs m.id).flush
    | none => s.logs
  | .freeze | .sync | .close => s.logs

/-- The call returns `Ok` and leaves the engine `e'`. -/
def Returns (s : Store) : Call → LsmStorageInner → Prop
  | .writeBatch batch, e' => s.engine.Step (.writeBatch batch) e'
  | .freeze, e' => s.engine.Step .freeze e'
  | .flush, e' => s.engine.Step .flush e'
  | .sync, e' => MiniLsm.sync.exec s.engine = (.ok (), e')
  | .close, e' => ∃ n t, (MiniLsm.close n).exec (Thread.idle s.engine) = (.ok (), t) ∧ t.engine = e'

/-- The writes after a call. -/
def writesAfter (s : Store) : Call → List (ℕ × List Entry)
  | .writeBatch batch => s.writes ++ [(s.engine.state.memtable.id, s.dataOf batch)]
  | _ => s.writes

/-- A call that returns `Ok`. -/
structure Step (s : Store) (call : Call) (s' : Store) : Prop where
  returns : s.Returns call s'.engine
  logs : s'.logs = s.logsAfter call
  writes : s'.writes = s.writesAfter call

/-- A listed table has the entry. -/
def InTable (e : LsmStorageInner) (x : Entry) : Prop :=
  ∃ id ∈ e.state.listedIds, ∃ t es, e.state.sstables.lookup id = some t ∧
    SsTable.ofEntries e.options.blockSize id es = .ok t ∧ x ∈ es

/-- Every version that was written is synced, in the log of its memtable, or in a table. -/
def Durable (s : Store) : Prop :=
  ∀ w ∈ s.writes, ∀ x, LastIn w.2 x →
    Wal.record x.1 x.2 <:+: (s.logs w.1).synced ∨ InTable s.engine x

/-- Keys are not empty, and there is nothing in memory that a sync would have to save. -/
def Call.Saved (s : Store) : Call → Prop
  | .writeBatch batch => ∀ record ∈ batch, record.key ≠ []
  | .freeze => True
  | .flush => True
  | .sync => ∀ m ∈ s.engine.state.memtables, m.map.entries = []
  | .close => ∀ m ∈ s.engine.state.memtables, m.map.entries = []

/-- A new store. -/
def start (e : LsmStorageInner) : Store := ⟨e, fun _ => .new, []⟩

/-! ## What a run keeps -/

section

variable {options : LsmStorageOptions} {s s' : Store} {call : Call} {e e' : LsmStorageInner}

omit [Platform] in
/-- A sync of the directory changes no file. -/
theorem sync_ok (h : MiniLsm.sync.exec e = (.ok (), e')) :
    ∃ rest, e' = { e with disk := { e.disk with faults := rest } } := by
  unfold MiniLsm.sync at h
  obtain ⟨d, hd, rfl⟩ := onDisk_eq_ok h
  obtain ⟨rest, hd⟩ := Disk.exec_syscall_bind hd
  obtain ⟨rest', rfl⟩ := Disk.syscall_eq_ok hd
  exact ⟨rest', rfl⟩

/-- With logs, `close` syncs the directory twice. -/
theorem close_ok (hwal : e.options.enableWal = true) {n : ℕ} {t : Thread}
    (h : (MiniLsm.close n).exec (Thread.idle e) = (.ok (), t)) :
    ∃ rest, t.engine = { e with disk := { e.disk with faults := rest } } := by
  have hsync : ∀ {t t' : Thread}, (Thread.onEngine MiniLsm.sync).exec t = (.ok (), t') →
      ∃ rest, t'.engine = { t.engine with disk := { t.engine.disk with faults := rest } } := by
    intro t t' h
    rw [Thread.exec_onEngine] at h
    cases hexec : MiniLsm.sync.exec t.engine with
    | mk o e' =>
      rw [hexec, Prod.mk.injEq] at h
      obtain ⟨ho, rfl⟩ := h
      cases o with
      | error f => cases ho
      | ok u => exact sync_ok hexec
  unfold MiniLsm.close at h
  rw [Effect.exec_get_bind, if_pos (show (Thread.idle e).engine.options.enableWal = true from hwal),
    Effect.exec_bind_eq_ok_iff] at h
  obtain ⟨u, t₁, hfirst, hsecond⟩ := h
  obtain ⟨rest, hrest⟩ := hsync hfirst
  obtain ⟨rest', hrest'⟩ := hsync hsecond
  refine ⟨rest', ?_⟩
  rw [hrest', hrest]
  rfl

/-- Every version that was written is in a memtable or in a table. -/
structure Keeps (options : LsmStorageOptions) (s : Store) : Prop where
  laid : s.engine.Laid options
  keys : ∀ m ∈ s.engine.state.memtables, m.KeysNonempty
  stamps : ∀ w ∈ s.writes, ∀ x ∈ w.2, x.1.ts ≤ s.engine.latestCommitTs
  kept : ∀ w ∈ s.writes, ∀ x, LastIn w.2 x →
    (∃ m ∈ s.engine.state.memtables, x ∈ m.map.entries) ∨ InTable s.engine x

/-- Only the directory is new. -/
theorem Keeps.setDisk (h : s.Keeps options) {d : Disk}
    (hengine : s'.engine = { s.engine with disk := d }) (hwrites : s'.writes = s.writes) :
    s'.Keeps options := by
  refine ⟨?_, ?_, ?_, ?_⟩
  · rw [hengine]
    exact ⟨h.laid.opts, h.laid.nodup, h.laid.ids, h.laid.labels, h.laid.l0Sstables⟩
  · rw [hengine]
    exact h.keys
  · rw [hengine, hwrites]
    exact h.stamps
  · rw [hengine, hwrites]
    exact h.kept

theorem Keeps.freeze (h : s.Keeps options) {m : MemTable} (hfroze : Froze s.engine s'.engine m)
    (hwrites : s'.writes = s.writes) : s'.Keeps options := by
  have hmemtables : s'.engine.state.memtables = m :: s.engine.state.memtables := by
    unfold LsmStorageState.memtables
    rw [hfroze.state]
  refine ⟨h.laid.freeze hfroze, ?_, ?_, ?_⟩
  · rw [hmemtables]
    refine List.forall_mem_cons.mpr ⟨?_, h.keys⟩
    unfold MemTable.KeysNonempty
    rw [hfroze.empty]
    rintro x ⟨⟩
  · rw [hwrites, hfroze.latestCommitTs]
    exact h.stamps
  · intro w hw x hx
    rw [hwrites] at hw
    rw [hmemtables]
    rcases h.kept w hw x hx with ⟨m', hm', hmem⟩ | htable
    · exact Or.inl ⟨m', List.mem_cons_of_mem _ hm', hmem⟩
    · refine Or.inr ?_
      unfold InTable
      rw [hfroze.state, hfroze.options]
      exact htable

/-- The batch is in the memtable, and no older version has gone. -/
theorem Keeps.afterPut (h : s.Keeps options) {batch : List WriteBatchRecord} {d : Disk}
    (hnext : nextTs s.engine.latestCommitTs = .ok (s.engine.latestCommitTs + 1))
    (hkeys : ∀ record ∈ batch, record.key ≠ []) (logs : ℕ → WalBytes) :
    Keeps options ⟨{ s.engine.afterPut (s.dataOf batch) d with
      latestCommitTs := s.engine.latestCommitTs + 1 }, logs, s.writesAfter (.writeBatch batch)⟩ := by
  have hlt := lt_of_nextTs hnext
  have hdata : ∀ x ∈ s.dataOf batch, x.1.keyRef ≠ [] ∧ x.1.ts = s.engine.latestCommitTs + 1 := by
    intro x hx
    obtain ⟨record, hrecord, rfl⟩ := List.mem_map.mp hx
    exact ⟨hkeys record hrecord, rfl⟩
  have hmem_iff : ∀ x, x ∈ (s.engine.state.memtable.insertAll (s.dataOf batch)).map.entries ↔
      LastIn (s.dataOf batch) x ∨
        x.1 ∉ runKeys (s.dataOf batch) ∧ x ∈ s.engine.state.memtable.map.entries := by
    intro x
    rw [MemTable.insertAll_map]
    exact SkipMap.mem_insertAll
  have hput := h.laid.afterPut (s.dataOf batch) d
  refine ⟨⟨hput.opts, hput.nodup, hput.ids, hput.labels, hput.l0Sstables⟩, ?_, ?_, ?_⟩
  · obtain ⟨hmem, himms⟩ := List.forall_mem_cons.mp h.keys
    refine List.forall_mem_cons.mpr ⟨fun x hx => ?_, himms⟩
    rcases (hmem_iff x).mp hx with hx | ⟨-, hx⟩
    · exact (hdata x (LastIn.mem hx)).1
    · exact hmem x hx
  · intro w hw x hx
    rcases List.mem_append.mp hw with hw | hw
    · exact (h.stamps w hw x hx).trans hlt.le
    · obtain rfl := List.mem_singleton.mp hw
      exact (hdata x hx).2.le
  · intro w hw x hx
    rcases List.mem_append.mp hw with hw | hw
    · rcases h.kept w hw x hx with ⟨m, hm, hmem⟩ | htable
      · rcases List.mem_cons.mp hm with rfl | hm
        · refine Or.inl ⟨_, List.mem_cons_self, (hmem_iff x).mpr (Or.inr ⟨fun hkey => ?_, hmem⟩)⟩
          obtain ⟨v, hv⟩ := mem_runKeys.mp hkey
          have hle := h.stamps w hw x (LastIn.mem hx)
          rw [show x.1.ts = s.engine.latestCommitTs + 1 from (hdata _ hv).2] at hle
          exact absurd hlt (not_lt.mpr hle)
        · exact Or.inl ⟨m, List.mem_cons_of_mem _ hm, hmem⟩
      · exact Or.inr htable
    · obtain rfl := List.mem_singleton.mp hw
      exact Or.inl ⟨_, List.mem_cons_self, (hmem_iff x).mpr (Or.inl hx)⟩

theorem Keeps.flush (h : s.Keeps options) {m : MemTable} {builder : SsTableBuilder}
    (hflushed : Flushed s.engine s'.engine m builder) (hwrites : s'.writes = s.writes) :
    s'.Keeps options := by
  have hmemtables := hflushed.memtables
  have hkeys := h.keys
  rw [hmemtables, List.forall_mem_append] at hkeys
  have hbuilt := hflushed.built (hkeys.2 m (List.mem_singleton.mpr rfl))
  have hid := hflushed.id_notMem h.laid.nodup
  refine ⟨h.laid.flush hflushed, hkeys.1, ?_, ?_⟩
  · rw [hwrites, hflushed.latestCommitTs]
    exact h.stamps
  · intro w hw x hx
    rw [hwrites] at hw
    have hnew : x ∈ m.map.entries → InTable s'.engine x := by
      intro hmem
      refine ⟨m.id, hflushed.listed.mem_iff.mpr List.mem_cons_self, builder.build m.id, m.map.entries,
        ?_, ?_, hmem⟩
      · rw [hflushed.sstables]
        exact AList.lookup_insert _
      · rw [hflushed.options]
        exact hbuilt
    rcases h.kept w hw x hx with ⟨m', hm', hmem⟩ | ⟨id, hlisted, t, es, hlookup, hes, hmem⟩
    · rw [hmemtables] at hm'
      rcases List.mem_append.mp hm' with hm' | hm'
      · exact Or.inl ⟨m', hm', hmem⟩
      · obtain rfl := List.mem_singleton.mp hm'
        exact Or.inr (hnew hmem)
    · refine Or.inr ⟨id, hflushed.listed.mem_iff.mpr (List.mem_cons_of_mem _ hlisted), t, es, ?_, ?_,
        hmem⟩
      · rw [hflushed.sstables, AList.lookup_insert_ne]
        · exact hlookup
        · rintro rfl
          exact hid hlisted
      · rw [hflushed.options]
        exact hes

/-- **One call keeps every version in a memtable or in a table.** -/
theorem Keeps.step (h : s.Keeps options) (hwal : options.enableWal = true) (hsaved : call.Saved s)
    (hstep : s.Step call s') : s'.Keeps options := by
  have hreturns := hstep.returns
  have hwrites := hstep.writes
  cases call with
  | writeBatch batch =>
    obtain ⟨ts, d, e₁, hnext, -, hfreeze, heq⟩ := writeBatch_ok hreturns
    obtain rfl := nextTs_eq hnext
    have hput := h.afterPut (d := d) hnext hsaved s'.logs
    rcases tryFreeze_ok hfreeze with rfl | ⟨-, m, hfroze⟩
    · refine hput.setDisk (d := d) ?_ hwrites
      rw [heq]
      rfl
    · refine hput.freeze (m := m) ?_ hwrites
      rw [heq]
      exact hfroze.commit _
  | freeze =>
    obtain ⟨m, hfroze⟩ := forceFreezeMemtable_ok hreturns
    exact h.freeze hfroze hwrites
  | flush =>
    rcases forceFlushNextImmMemtable_ok hreturns with ⟨-, heq⟩ | ⟨m, builder, hflushed⟩
    · exact h.setDisk (d := s.engine.disk) (by rw [heq]) hwrites
    · exact h.flush hflushed hwrites
  | sync =>
    obtain ⟨rest, heq⟩ := sync_ok hreturns
    exact h.setDisk heq hwrites
  | close =>
    obtain ⟨n, t, hclose, heq⟩ := hreturns
    obtain ⟨rest, ht⟩ := close_ok (by rw [h.laid.opts]; exact hwal) hclose
    exact h.setDisk (heq.symm.trans ht) hwrites

theorem keeps_start (h : Fresh options e) : (start e).Keeps options := by
  obtain ⟨m, hnew⟩ := h.isNew
  refine ⟨h.laid, ?_, ?_, ?_⟩
  · intro m' hm'
    change m' ∈ e.state.memtables at hm'
    unfold LsmStorageState.memtables at hm'
    rw [hnew.state] at hm'
    obtain rfl := List.mem_singleton.mp hm'
    unfold MemTable.KeysNonempty
    rw [hnew.empty]
    rintro x ⟨⟩
  · rintro w ⟨⟩
  · rintro w ⟨⟩

/-- **What a sync makes durable.**  In a store with logs, a sync or a close that is called when no
memtable has an entry finds every version that was written in a table. -/
theorem sync_durable {calls : List Call} {e₀ : LsmStorageInner} (hwal : options.enableWal = true)
    (hfresh : Fresh options e₀)
    (hrun : Run (fun s call s' => call.Saved s ∧ s.Step call s') (start e₀) calls s)
    (hcall : call = .sync ∨ call = .close) (hsaved : call.Saved s) (hstep : s.Step call s') :
    s'.Durable := by
  have hkeeps := hrun.invariant (Keeps options)
    (fun _ _ _ h hstep => h.step hwal hstep.1 hstep.2) (keeps_start hfresh)
  have hempty : ∀ m ∈ s.engine.state.memtables, m.map.entries = [] := by
    rcases hcall with rfl | rfl <;> exact hsaved
  have hkeeps' := hkeeps.step hwal hsaved hstep
  have hmemtables : s'.engine.state.memtables = s.engine.state.memtables := by
    have hreturns := hstep.returns
    rcases hcall with rfl | rfl
    · obtain ⟨rest, heq⟩ := sync_ok hreturns
      rw [heq]
    · obtain ⟨n, t, hclose, heq⟩ := hreturns
      obtain ⟨rest, ht⟩ := close_ok (by rw [hkeeps.laid.opts]; exact hwal) hclose
      rw [← heq, ht]
  intro w hw x hx
  rcases hkeeps'.kept w hw x hx with ⟨m, hm, hmem⟩ | htable
  · rw [hmemtables] at hm
    rw [hempty m hm] at hmem
    cases hmem
  · exact Or.inr htable

theorem synced_putAll (data : List Entry) (w : WalBytes) : (putAll data w).synced = w.synced := by
  induction data generalizing w with
  | nil => rfl
  | cons x data ih => rw [putAll, List.foldl_cons, ← putAll, ih, WalBytes.synced_writeAll]

/-- **No call syncs a byte of a log.** -/
theorem synced_eq_nil {calls : List Call} {e₀ : LsmStorageInner}
    (hrun : Run Step (start e₀) calls s) (id : ℕ) : (s.logs id).synced = [] := by
  refine hrun.invariant (fun s => ∀ id, (s.logs id).synced = []) ?_ (fun _ => rfl) id
  intro s call s' h hstep id
  rw [hstep.logs]
  cases call with
  | writeBatch batch =>
    unfold logsAfter
    cases s.engine.state.memtable.wal with
    | none => exact h id
    | some wal =>
      simp only [Function.update_apply]
      split
      · rw [synced_putAll, h]
      · exact h id
  | flush =>
    unfold logsAfter
    cases s.engine.state.immMemtables.getLast? with
    | none => exact h id
    | some m =>
      simp only [Function.update_apply]
      split
      · rw [WalBytes.synced_flush, h]
      · exact h id
  | freeze => exact h id
  | sync => exact h id
  | close => exact h id

/-- Nothing of a write is durable before it is in a table. -/
theorem durable_iff {calls : List Call} {e₀ : LsmStorageInner} (hrun : Run Step (start e₀) calls s) :
    s.Durable ↔ ∀ w ∈ s.writes, ∀ x, LastIn w.2 x → InTable s.engine x := by
  refine forall₂_congr fun w _ => forall₂_congr fun x _ => or_iff_right fun hinfix => ?_
  rw [synced_eq_nil hrun, List.infix_nil] at hinfix
  exact Wal.record_ne_nil _ _ hinfix

/-! ## The bytes are those of the logs -/

/-- Every log of the engine is the bytes of its writer. -/
structure Accounts (options : LsmStorageOptions) (s : Store) : Prop where
  laid : s.engine.Laid options
  wal : ∀ m ∈ s.engine.state.memtables, m.wal = some ⟨m.id⟩ ∧
    ∃ data, s.engine.disk.wals.lookup m.id = some data
  log : ∀ id data, s.engine.disk.wals.lookup id = some data →
    (s.logs id).all = data ∧ (s.logs id).buffer.length ≤ WalBytes.capacity
  fresh : ∀ id, s.engine.nextSstId ≤ id → s.logs id = .new

theorem all_putAll (data : List Entry) {w : WalBytes} (h : w.buffer.length ≤ WalBytes.capacity) :
    (putAll data w).all = w.all ++ data.flatMap (fun x => Wal.record x.1 x.2) ∧
      (putAll data w).buffer.length ≤ WalBytes.capacity := by
  induction data generalizing w with
  | nil => exact ⟨(List.append_nil _).symm, h⟩
  | cons x data ih =>
    obtain ⟨hall, hlen⟩ := ih (WalBytes.length_writeAll h (Wal.record x.1 x.2))
    rw [putAll, List.foldl_cons, ← putAll]
    refine ⟨?_, hlen⟩
    rw [hall, WalBytes.all_writeAll h, List.flatMap_cons, List.append_assoc]

omit [Platform] in
theorem Accounts.id_lt (h : s.Accounts options) {m : MemTable} (hm : m ∈ s.engine.state.memtables) :
    m.id < s.engine.nextSstId :=
  h.laid.ids m.id (List.mem_append_left _ (List.mem_map_of_mem hm))

omit [Platform] in
theorem Accounts.freeze (h : s.Accounts options) (hwal : options.enableWal = true) {m : MemTable}
    (hfroze : Froze s.engine s'.engine m) (hlogs : s'.logs = s.logs) : s'.Accounts options := by
  have henable : s.engine.options.enableWal = true := by
    rw [h.laid.opts]
    exact hwal
  have hwals := hfroze.wals
  rw [if_pos henable] at hwals
  refine ⟨h.laid.freeze hfroze, ?_, ?_, ?_⟩
  · unfold LsmStorageState.memtables
    rw [hfroze.state, hwals]
    refine List.forall_mem_cons.mpr ⟨⟨?_, ?_⟩, fun m' hm' => ?_⟩
    · rw [hfroze.wal, if_pos henable, hfroze.id]
    · rw [hfroze.id]
      exact ⟨[], AList.lookup_insert _⟩
    · have hlt := h.id_lt hm'
      rw [AList.lookup_insert_ne hlt.ne]
      exact h.wal m' hm'
  · intro id data hdata
    rw [hwals] at hdata
    rw [hlogs]
    by_cases hid : id = s.engine.nextSstId
    · subst hid
      rw [AList.lookup_insert] at hdata
      cases hdata
      rw [h.fresh _ (Nat.le_refl _)]
      exact ⟨rfl, Nat.zero_le _⟩
    · rw [AList.lookup_insert_ne hid] at hdata
      exact h.log id data hdata
  · intro id hid
    rw [hfroze.nextSstId] at hid
    rw [hlogs]
    exact h.fresh id (by omega)

/-- The log of the active memtable grows by the records of the batch. -/
theorem Accounts.afterPut (h : s.Accounts options) {batch : List WriteBatchRecord} {d : Disk}
    {ts : UInt64}
    (hlogged : s.engine.state.memtable.Logged s.engine.disk d (s.dataOf batch))
    (hengine : s'.engine = { s.engine.afterPut (s.dataOf batch) d with latestCommitTs := ts })
    (hlogs : s'.logs = s.logsAfter (.writeBatch batch)) : s'.Accounts options := by
  have hput := h.laid.afterPut (s.dataOf batch) d
  obtain ⟨hactive, old, hold⟩ := h.wal _ List.mem_cons_self
  have hlt := h.id_lt (m := s.engine.state.memtable) List.mem_cons_self
  have hlogs' : s'.logs = Function.update s.logs s.engine.state.memtable.id
      (putAll (s.dataOf batch) (s.logs s.engine.state.memtable.id)) := by
    rw [hlogs]
    unfold logsAfter
    rw [hactive]
  have hwals : s'.engine.disk.wals = d.wals := by
    rw [hengine]
    rfl
  have hnew := hlogged.wal_some _ old hactive hold
  have hother : ∀ id, id ≠ s.engine.state.memtable.id →
      d.wals.lookup id = s.engine.disk.wals.lookup id := by
    intro id hid
    refine hlogged.wal_other id ?_
    rw [hactive]
    rintro heq
    cases heq
    exact hid rfl
  refine ⟨?_, ?_, ?_, ?_⟩
  · rw [hengine]
    exact ⟨hput.opts, hput.nodup, hput.ids, hput.labels, hput.l0Sstables⟩
  · have hall : ∀ m ∈ s.engine.state.memtables, m.wal = some ⟨m.id⟩ ∧
        ∃ data, d.wals.lookup m.id = some data := by
      intro m hm
      refine ⟨(h.wal m hm).1, ?_⟩
      by_cases hid : m.id = s.engine.state.memtable.id
      · rw [hid]
        exact ⟨_, hnew⟩
      · rw [hother _ hid]
        exact (h.wal m hm).2
    obtain ⟨hmem, himms⟩ := List.forall_mem_cons.mp hall
    rw [hwals, hengine]
    refine List.forall_mem_cons.mpr ⟨?_, himms⟩
    rw [← MemTable.insertAll_wal _ (s.dataOf batch), ← MemTable.insertAll_id _ (s.dataOf batch)]
      at hmem
    exact hmem
  · intro id data hdata
    rw [hwals] at hdata
    rw [hlogs']
    by_cases hid : id = s.engine.state.memtable.id
    · subst hid
      rw [hnew] at hdata
      obtain ⟨hall, hlen⟩ := h.log _ old hold
      obtain ⟨hall', hlen'⟩ := all_putAll (s.dataOf batch) hlen
      rw [Function.update_self, hall', hall]
      exact ⟨Option.some.inj hdata, hlen'⟩
    · rw [hother id hid] at hdata
      rw [Function.update_of_ne hid]
      exact h.log id data hdata
  · intro id hid
    rw [hengine] at hid
    have hne : id ≠ s.engine.state.memtable.id := (hlt.trans_le hid).ne'
    rw [hlogs', Function.update_of_ne hne]
    exact h.fresh id hid

omit [Platform] in
theorem Accounts.setDisk (h : s.Accounts options) {d : Disk} (hwals : d.wals = s.engine.disk.wals)
    (hengine : s'.engine = { s.engine with disk := d }) (hlogs : s'.logs = s.logs) :
    s'.Accounts options := by
  refine ⟨?_, ?_, ?_, ?_⟩
  · rw [hengine]
    exact ⟨h.laid.opts, h.laid.nodup, h.laid.ids, h.laid.labels, h.laid.l0Sstables⟩
  · rw [hengine, hwals]
    exact h.wal
  · rw [hengine, hwals, hlogs]
    exact h.log
  · rw [hengine, hlogs]
    exact h.fresh

theorem Accounts.flush (h : s.Accounts options) {m : MemTable} {builder : SsTableBuilder}
    (hflushed : Flushed s.engine s'.engine m builder) (hlogs : s'.logs = s.logsAfter .flush) :
    s'.Accounts options := by
  have hlast : s.engine.state.immMemtables.getLast? = some m := by
    rw [hflushed.imms, List.getLast?_concat]
  have hlogs' : s'.logs = Function.update s.logs m.id (s.logs m.id).flush := by
    rw [hlogs]
    unfold logsAfter
    rw [hlast]
  have hm : m ∈ s.engine.state.memtables := by
    rw [hflushed.memtables]
    exact List.mem_append_right _ (List.mem_singleton.mpr rfl)
  have hlt := h.id_lt hm
  refine ⟨h.laid.flush hflushed, ?_, ?_, ?_⟩
  · intro m' hm'
    rw [hflushed.wals]
    refine h.wal m' ?_
    rw [hflushed.memtables]
    exact List.mem_append_left _ hm'
  · intro id data hdata
    rw [hflushed.wals] at hdata
    obtain ⟨hall, hlen⟩ := h.log id data hdata
    rw [hlogs']
    by_cases hid : id = m.id
    · subst hid
      rw [Function.update_self, WalBytes.all_flush]
      exact ⟨hall, Nat.zero_le _⟩
    · rw [Function.update_of_ne hid]
      exact ⟨hall, hlen⟩
  · intro id hid
    rw [hflushed.nextSstId] at hid
    rw [hlogs', Function.update_of_ne (by omega)]
    exact h.fresh id hid

theorem Accounts.step (h : s.Accounts options) (hwal : options.enableWal = true)
    (hstep : s.Step call s') : s'.Accounts options := by
  have hreturns := hstep.returns
  have hlogs := hstep.logs
  cases call with
  | writeBatch batch =>
    obtain ⟨ts, d, e₁, hnext, hlogged, hfreeze, heq⟩ := writeBatch_ok hreturns
    obtain rfl := nextTs_eq hnext
    have hput : Accounts options ⟨{ s.engine.afterPut (s.dataOf batch) d with
        latestCommitTs := s.engine.latestCommitTs + 1 }, s'.logs, s'.writes⟩ :=
      h.afterPut hlogged rfl hlogs
    rcases tryFreeze_ok hfreeze with rfl | ⟨-, m, hfroze⟩
    · refine hput.setDisk (d := d) rfl ?_ rfl
      rw [heq]
      rfl
    · refine hput.freeze hwal (m := m) ?_ rfl
      rw [heq]
      exact hfroze.commit _
  | freeze =>
    obtain ⟨m, hfroze⟩ := forceFreezeMemtable_ok hreturns
    exact h.freeze hwal hfroze hlogs
  | flush =>
    rcases forceFlushNextImmMemtable_ok hreturns with ⟨himms, heq⟩ | ⟨m, builder, hflushed⟩
    · refine h.setDisk (d := s.engine.disk) rfl (by rw [heq]) ?_
      rw [hlogs]
      unfold logsAfter
      rw [himms]
      rfl
    · exact h.flush hflushed hlogs
  | sync =>
    obtain ⟨rest, heq⟩ := sync_ok hreturns
    exact h.setDisk (d := { s.engine.disk with faults := rest }) rfl heq hlogs
  | close =>
    obtain ⟨n, t, hclose, heq⟩ := hreturns
    obtain ⟨rest, ht⟩ := close_ok (by rw [h.laid.opts]; exact hwal) hclose
    exact h.setDisk (d := { s.engine.disk with faults := rest }) rfl (heq.symm.trans ht) hlogs

theorem accounts_start (hwal : options.enableWal = true) (h : Fresh options e) :
    (start e).Accounts options := by
  obtain ⟨m, hnew⟩ := h.isNew
  refine ⟨h.laid, ?_, ?_, fun _ _ => rfl⟩
  · intro m' hm'
    change m' ∈ e.state.memtables at hm'
    change _ ∧ ∃ data, e.disk.wals.lookup m'.id = some data
    unfold LsmStorageState.memtables at hm'
    rw [hnew.state] at hm'
    obtain rfl := List.mem_singleton.mp hm'
    constructor
    · exact hnew.wal.trans ((if_pos hwal).trans (by rw [← hnew.id]))
    · rw [hnew.wals, if_pos hwal]
      exact ⟨[], by rw [← hnew.id]; exact AList.lookup_insert _⟩
  · intro id data hdata
    change e.disk.wals.lookup id = some data at hdata
    rw [hnew.wals, if_pos hwal] at hdata
    by_cases hid : id = 0
    · subst hid
      rw [AList.lookup_insert] at hdata
      cases hdata
      exact ⟨rfl, Nat.zero_le _⟩
    · rw [AList.lookup_insert_ne hid] at hdata
      cases hdata

/-- **The bytes of a writer, in the order in which they were written, are the log.** -/
theorem logs_all {calls : List Call} {e₀ : LsmStorageInner} (hwal : options.enableWal = true)
    (hfresh : Fresh options e₀) (hrun : Run Step (start e₀) calls s) {id : ℕ} {data : Bytes}
    (hdata : s.engine.disk.wals.lookup id = some data) : (s.logs id).all = data :=
  ((hrun.invariant (Accounts options) (fun _ _ _ h hstep => h.step hwal hstep)
    (accounts_start hwal hfresh)).log id data hdata).1

/-! ## Playing calls -/

instance (s : Store) (call : Call) : Decidable (call.Saved s) := by
  cases call <;> unfold Call.Saved <;> infer_instance

/-- The engine after a call, if that returns `Ok`; `close` has its loop do nothing. -/
def engineAfter (s : Store) : Call → Option LsmStorageInner
  | .writeBatch batch => afterCall s.engine (.writeBatch batch)
  | .freeze => afterCall s.engine .freeze
  | .flush => afterCall s.engine .flush
  | .sync => (MiniLsm.sync.exec s.engine).1.toOption.map fun _ => (MiniLsm.sync.exec s.engine).2
  | .close =>
    ((MiniLsm.close 0).exec (Thread.idle s.engine)).1.toOption.map fun _ =>
      ((MiniLsm.close 0).exec (Thread.idle s.engine)).2.engine

theorem returns_of_engineAfter (h : s.engineAfter call = some e') : s.Returns call e' := by
  cases call with
  | writeBatch batch => exact step_of_afterCall h
  | freeze => exact step_of_afterCall h
  | flush => exact step_of_afterCall h
  | sync =>
    obtain ⟨u, hu, rfl⟩ := Option.map_eq_some_iff.mp h
    exact Prod.ext (eq_ok_of_toOption hu) rfl
  | close =>
    obtain ⟨u, hu, rfl⟩ := Option.map_eq_some_iff.mp h
    exact ⟨0, _, Prod.ext (eq_ok_of_toOption hu) rfl, rfl⟩

/-- The store after a call that is saved. -/
def after (s : Store) (call : Call) : Option Store :=
  if call.Saved s then
    (s.engineAfter call).map fun e => ⟨e, s.logsAfter call, s.writesAfter call⟩
  else none

theorem step_of_after (h : s.after call = some s') : call.Saved s ∧ s.Step call s' := by
  unfold after at h
  split at h
  · rename_i hsaved
    obtain ⟨e, he, rfl⟩ := Option.map_eq_some_iff.mp h
    exact ⟨hsaved, returns_of_engineAfter he, rfl, rfl⟩
  · cases h

end

end Store

section

attribute [local instance] shortKeyPlatform

namespace Store

open LsmStorageInner

/-- A put is flushed, and then the store is synced. -/
theorem sync_durable_small : ∃ s : Store,
    s.writes = [(0, [(⟨[1], 1⟩, [7])])] ∧ s.Durable := by
  have hfinal : (execAll after [.writeBatch [.put [1] [7]], .freeze, .flush]
      (start (newStore loggedOptions))).map (fun s =>
        (decide (s.writes = [(0, [(⟨[1], 1⟩, [7])])]), (s.after .sync).isSome)) =
        some (true, true) := by
    decide +kernel
  obtain ⟨s, hs, hsummary⟩ := Option.map_eq_some_iff.mp hfinal
  obtain ⟨hwrites, hsome⟩ := Prod.mk.inj hsummary
  obtain ⟨s', hs'⟩ := Option.isSome_iff_exists.mp hsome
  obtain ⟨hsaved, hstep⟩ := step_of_after hs'
  have hrun := run_of_execAll (fun _ _ _ => step_of_after) hs
  refine ⟨s', hstep.writes.trans (of_decide_eq_true hwrites), ?_⟩
  exact sync_durable (show loggedOptions.enableWal = true from rfl) (fresh_newStore loggedOptions)
    hrun (Or.inl rfl) hsaved hstep

/-- A put and a sync: no byte of the record is synced, and there is no table. -/
theorem sync_after_put : ∃ s : Store,
    Run Step (start (newStore loggedOptions)) [.writeBatch [.put [1] [7]], .sync] s ∧
    s.writes = [(0, [(⟨[1], 1⟩, [7])])] ∧ (s.logs 0).synced = [] ∧
    (s.logs 0).buffer = Wal.record ⟨[1], 1⟩ [7] ∧ ¬s.Durable := by
  have hfinal : ((start (newStore loggedOptions)).after (.writeBatch [.put [1] [7]])).bind (fun s =>
      (s.engineAfter .sync).map fun e => (decide (s.writes = [(0, [(⟨[1], 1⟩, [7])])]),
        (s.logs 0).synced, (s.logs 0).buffer, e.state.listedIds)) =
      some (true, [], Wal.record ⟨[1], 1⟩ [7], []) := by
    decide +kernel
  obtain ⟨s, hs, hsync⟩ := Option.bind_eq_some_iff.mp hfinal
  obtain ⟨e, he, hsummary⟩ := Option.map_eq_some_iff.mp hsync
  obtain ⟨hwrites, hrest⟩ := Prod.mk.inj hsummary
  have hwrites := of_decide_eq_true hwrites
  obtain ⟨hsynced, hrest⟩ := Prod.mk.inj hrest
  obtain ⟨hbuffer, hlisted⟩ := Prod.mk.inj hrest
  have hrun : Run Step (start (newStore loggedOptions)) [.writeBatch [.put [1] [7]], .sync]
      ⟨e, s.logsAfter .sync, s.writesAfter .sync⟩ :=
    (Run.single (step_of_after hs).2).snoc ⟨returns_of_engineAfter he, rfl, rfl⟩
  refine ⟨_, hrun, hwrites, hsynced, hbuffer, fun hdurable => ?_⟩
  rw [durable_iff hrun] at hdurable
  have hmem : (0, [((⟨[1], 1⟩, [7]) : Entry)]) ∈ s.writesAfter .sync := by
    change _ ∈ s.writes
    rw [hwrites]
    exact List.mem_singleton.mpr rfl
  obtain ⟨id, hid, -⟩ := hdurable _ hmem (⟨[1], 1⟩, [7]) (by unfold LastIn; decide)
  change id ∈ e.state.listedIds at hid
  rw [hlisted] at hid
  cases hid

end Store

end

end TinyLsm

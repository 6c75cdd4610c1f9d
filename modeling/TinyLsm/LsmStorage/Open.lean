import TinyLsm.LsmStorage.Engine

/-!
# Opening a store (`LsmStorageInner::open`)

On a directory without a manifest a store is created.  On one with a manifest the records are
replayed, the memtables that were not flushed are read from their logs, the tables are opened, and
the commit timestamp is the largest timestamp seen.
-/

namespace TinyLsm

/-- What the replay of the manifest accumulates. -/
structure Replay where
  state : LsmStorageState MemTable
  nextSstId : ℕ
  flushedMemtables : List ℕ
  /-- From latest to earliest. -/
  allMemtables : List ℕ

namespace Replay

/-- Before the first record. -/
def init (options : LsmStorageOptions) : Replay :=
  ⟨LsmStorageState.create options (MemTable.create 0), 0, [], []⟩

/-- One record. -/
def record (controller : CompactionController) (r : Replay) : ManifestRecord → Outcome Replay
  | .newMemtable id => .ok { r with
      nextSstId := max r.nextSstId (id + 1)
      allMemtables := id :: r.allMemtables }
  | .flush id => .ok { r with
      nextSstId := max r.nextSstId (id + 1)
      state := { r.state with l0Sstables := id :: r.state.l0Sstables }
      flushedMemtables := id :: r.flushedMemtables }
  | .compaction task output => do
    let (state, _) ← controller.applyCompactionResult r.state task output true
    return { r with
      nextSstId := max r.nextSstId (output.max?.getD 0 + 1)
      state }

/-- All of them, in order. -/
def records (controller : CompactionController) : Replay → List ManifestRecord → Outcome Replay
  | r, [] => .ok r
  | r, rec :: rest => do records controller (← r.record controller rec) rest

/-- The memtables that are not in a table, latest first. -/
def unflushed (r : Replay) : List ℕ := r.allMemtables.filter fun id => id ∉ r.flushedMemtables

end Replay

namespace LsmStorageInner

variable [Platform]

/-- The logs: the first memtable becomes active, the others immutable. -/
def recoverMemtables (s : LsmStorageState MemTable) (enableWal : Bool) :
    List ℕ → DiskEffect (LsmStorageState MemTable)
  | [] => return s
  | active :: imms =>
    if enableWal then do
      let memtable ← MemTable.recoverFromWal active
      let immMemtables ← imms.mapM MemTable.recoverFromWal
      return { s with memtable, immMemtables := s.immMemtables ++ immMemtables }
    else return s

/-- Open the files of some tables. -/
def openTables (sstables : SstMap) : List ℕ → DiskEffect SstMap
  | [] => return sstables
  | id :: ids => do
    let file ← FileObject.openFile id
    let sst ← liftM (SsTable.openFile id file)
    openTables (sstables.insert id sst) ids

/-- The loop over a memtable, for at most `n` entries. -/
def maxTsLoop : ℕ → MemTableIterator → UInt64 → Outcome UInt64
  | 0, it, maxTs =>
    if StorageIterator.isValid it then .error (.panic "iterator did not end") else .ok maxTs
  | n + 1, it, maxTs =>
    if StorageIterator.isValid it then
      match StorageIterator.next it with
      | (.ok (), it') => maxTsLoop n it' (max maxTs (StorageIterator.key it).ts)
      | (.error e, _) => .error e
    else .ok maxTs

/-- The largest timestamp of some memtables and `maxTs`. -/
def memtablesMaxTs : List MemTable → UInt64 → Outcome UInt64
  | [], maxTs => .ok maxTs
  | m :: ms, maxTs => do
    let it := m.scan .unbounded .unbounded
    memtablesMaxTs ms (← maxTsLoop (StorageIterator.remaining it) it maxTs)

/-- The commit timestamp of a recovered state. -/
def recoveredTs (s : LsmStorageState MemTable) : Outcome UInt64 :=
  memtablesMaxTs (s.memtable :: s.immMemtables)
    (s.sstables.entries.foldl (fun ts t => max ts t.2.maxTs) 0)

/-- `LsmStorageInner::open`. -/
def openStore (options : LsmStorageOptions) : DiskEffect LsmStorageInner := do
  Disk.syscall
  match (← get).manifest with
  | some _ => do
    let r ← liftM ((Replay.init options).records options.compactionOptions (← Manifest.recover))
    let state ← recoverMemtables r.state options.enableWal r.unflushed
    let sstables ← openTables state.sstables state.listedIds
    let state := { state with sstables }
    let latestCommitTs ← liftM (recoveredTs state)
    return { state, disk := ← get, nextSstId := r.nextSstId, latestCommitTs, options }
  | none => do
    Manifest.create
    let memtable ← if options.enableWal then do
        let memtable ← MemTable.createWithWal 0
        Manifest.addRecord (.newMemtable 0)
        pure memtable
      else pure (MemTable.create 0)
    return { state := LsmStorageState.create options memtable, disk := ← get, nextSstId := 1,
             latestCommitTs := 0, options }

/-! ## What opening an existing store does -/

omit [Platform] in
/-- The replay of the manifest moves ids only. -/
theorem Replay.record_frame {controller : CompactionController} {r r' : Replay}
    {rec : ManifestRecord} (h : r.record controller rec = .ok r') :
    r'.state = { r.state with l0Sstables := r'.state.l0Sstables, levels := r'.state.levels } := by
  cases rec with
  | newMemtable id =>
    cases h
    rfl
  | flush id =>
    cases h
    rfl
  | compaction task output =>
    obtain ⟨⟨state, removed⟩, happly, hret⟩ := Outcome.bind_eq_ok_iff.mp h
    cases hret
    exact CompactionController.applyCompactionResult_frame happly

omit [Platform] in
theorem Replay.records_frame {controller : CompactionController} {recs : List ManifestRecord}
    {r r' : Replay} (h : r.records controller recs = .ok r') :
    r'.state = { r.state with l0Sstables := r'.state.l0Sstables, levels := r'.state.levels } := by
  induction recs generalizing r with
  | nil =>
    cases h
    rfl
  | cons rec recs ih =>
    obtain ⟨r₁, hrec, hrest⟩ := Outcome.bind_eq_ok_iff.mp h
    rw [ih hrest, Replay.record_frame hrec]

/-- Every table of the map was there or was opened from its file. -/
theorem openTables_spec {ids : List ℕ} {m m' : SstMap} {d d' : Disk}
    (h : (openTables m ids).exec d = (.ok m', d')) {id : ℕ} {t : SsTable}
    (ht : m'.lookup id = some t) : m.lookup id = some t ∨
      ∃ file, d.ssts.lookup id = some file ∧ SsTable.openFile id file = .ok t := by
  induction ids generalizing m d with
  | nil =>
    cases h
    exact Or.inl ht
  | cons a ids ih =>
    rw [openTables, Effect.exec_bind_eq_ok_iff] at h
    obtain ⟨file, d₁, hfile, h⟩ := h
    obtain ⟨hlookup, rest, rfl⟩ := FileObject.openFile_eq_ok hfile
    rw [Effect.exec_bind_eq_ok_iff] at h
    obtain ⟨sst, d₂, hlift, h⟩ := h
    rw [Effect.exec_lift, Prod.mk.injEq] at hlift
    obtain ⟨hopen, rfl⟩ := hlift
    rcases ih h with hmem | hnew
    · by_cases hid : id = a
      · subst hid
        rw [AList.lookup_insert] at hmem
        obtain rfl := Option.some.inj hmem
        exact Or.inr ⟨file, hlookup, hopen⟩
      · rw [AList.lookup_insert_ne hid] at hmem
        exact Or.inl hmem
    · exact Or.inr hnew

/-! ### The commit timestamp -/

omit [Platform] in
theorem foldr_max_le_iff {l : List UInt64} {t : UInt64} : l.foldr max 0 ≤ t ↔ ∀ x ∈ l, x ≤ t := by
  induction l with
  | nil => simp
  | cons a l ih => rw [List.foldr_cons, max_le_iff, ih, List.forall_mem_cons]

omit [Platform] in
theorem foldr_max_mem {l : List UInt64} (hne : l ≠ []) : l.foldr max 0 ∈ l := by
  induction l with
  | nil => exact absurd rfl hne
  | cons a l ih =>
    rw [List.foldr_cons]
    rcases eq_or_ne l [] with rfl | hl
    · rw [List.foldr_nil, show max a 0 = a from max_eq_left (tsRangeEnd_le a)]
      exact List.mem_singleton_self a
    · rcases max_choice a (l.foldr max 0) with h | h
      · rw [h]
        exact List.mem_cons_self
      · rw [h]
        exact List.mem_cons_of_mem _ (ih hl)

/-- The timestamps that `open` looks at. -/
def seenStamps (s : LsmStorageState MemTable) : List UInt64 :=
  (s.sstables.entries.map fun t => t.2.maxTs) ++
    (s.memtable :: s.immMemtables).flatMap fun m => m.flushed.map fun x => x.1.ts

open StorageIterator

omit [Platform] in
theorem maxTsLoop_yields {it : MemTableIterator} {l : List Entry} (hl : Yields Drained it l) {n : ℕ}
    (hn : l.length ≤ n) (ts : UInt64) :
    maxTsLoop n it ts = .ok ((l.map fun x => x.1.ts).foldl max ts) := by
  induction hl generalizing n ts with
  | nil hvalid _ =>
    cases n <;> rw [maxTsLoop, if_neg (by rw [hvalid]; exact Bool.false_ne_true)] <;> rfl
  | @cons it it' l hvalid _ hnext _ ih =>
    rcases n with _ | n
    · simp at hn
    rw [maxTsLoop, if_pos hvalid, hnext]
    exact ih (Nat.le_of_succ_le_succ hn) _

omit [Platform] in
/-- The loop over a memtable sees what a flush would write. -/
theorem maxTsLoop_scan (m : MemTable) (ts : UInt64) :
    maxTsLoop (remaining (m.scan .unbounded .unbounded)) (m.scan .unbounded .unbounded) ts =
      .ok ((m.flushed.map fun x => x.1.ts).foldl max ts) := by
  by_cases h : m.KeysNonempty
  · have hscan := MemTable.scan_yields h .unbounded .unbounded
    rw [MemTable.filter_unbounded] at hscan
    rw [h.flushed_eq]
    exact maxTsLoop_yields hscan hscan.length_le ts
  · obtain ⟨hflushed, hinvalid⟩ := MemTable.scan_of_empty_key h
    rw [hflushed]
    cases remaining (m.scan .unbounded .unbounded) <;>
      rw [maxTsLoop, if_neg (by rw [hinvalid]; exact Bool.false_ne_true)] <;> rfl

omit [Platform] in
theorem memtablesMaxTs_eq (ms : List MemTable) (ts : UInt64) :
    memtablesMaxTs ms ts = .ok ((ms.flatMap fun m => m.flushed.map fun x => x.1.ts).foldl max ts) := by
  induction ms generalizing ts with
  | nil => rfl
  | cons m ms ih =>
    rw [memtablesMaxTs]
    simp only [maxTsLoop_scan, bind, Except.bind, ih]
    rw [List.flatMap_cons, List.foldl_append]

omit [Platform] in
/-- **The recovered timestamp is the largest one seen.** -/
theorem recoveredTs_eq (s : LsmStorageState MemTable) :
    recoveredTs s = .ok ((seenStamps s).foldr max 0) := by
  have htables : s.sstables.entries.foldl (fun ts t => max ts t.2.maxTs) 0 =
      (s.sstables.entries.map fun t => t.2.maxTs).foldl max 0 := List.foldl_map.symm
  rw [recoveredTs, memtablesMaxTs_eq, htables, ← List.foldl_append, List.foldl_eq_foldr]
  rfl

/-- **What opening a directory with a manifest has done.** -/
theorem openStore_some {options : LsmStorageOptions} {d d' : Disk} {e : LsmStorageInner}
    {recs : List ManifestRecord} (hmanifest : d.manifest = some recs)
    (h : (openStore options).exec d = (.ok e, d')) : ∃ r s d₁ d₂ sstables,
      (Replay.init options).records options.compactionOptions recs = .ok r ∧
      d₁.manifest = d.manifest ∧ d₁.wals = d.wals ∧ d₁.ssts = d.ssts ∧
      (recoverMemtables r.state options.enableWal r.unflushed).exec d₁ = (.ok s, d₂) ∧
      (openTables s.sstables s.listedIds).exec d₂ = (.ok sstables, d') ∧
      e = { state := { s with sstables }
            disk := d'
            nextSstId := r.nextSstId
            latestCommitTs := (seenStamps { s with sstables }).foldr max 0
            options } := by
  unfold openStore at h
  obtain ⟨rest, h⟩ := Disk.exec_syscall_bind h
  rw [Effect.exec_get_bind] at h
  simp only [hmanifest] at h
  rw [Effect.exec_bind_eq_ok_iff] at h
  obtain ⟨recs', d₁, hrecover, h⟩ := h
  obtain ⟨hrecs, hsame, hwals, hssts⟩ := Manifest.recover_eq_ok hrecover
  obtain rfl : recs = recs' := hrecs
  rw [Effect.exec_bind_eq_ok_iff] at h
  obtain ⟨r, d₂, hlift, h⟩ := h
  rw [Effect.exec_lift, Prod.mk.injEq] at hlift
  obtain ⟨hrecords, rfl⟩ := hlift
  rw [Effect.exec_bind_eq_ok_iff] at h
  obtain ⟨s, d₃, hmemtables, h⟩ := h
  rw [Effect.exec_bind_eq_ok_iff] at h
  obtain ⟨sstables, d₄, htables, h⟩ := h
  rw [Effect.exec_bind_eq_ok_iff] at h
  obtain ⟨ts, d₅, hlift, h⟩ := h
  rw [Effect.exec_lift, Prod.mk.injEq, recoveredTs_eq] at hlift
  obtain ⟨hts, rfl⟩ := hlift
  rw [Effect.exec_get_bind] at h
  cases h
  obtain rfl := Except.ok.inj hts
  exact ⟨r, s, d₁, d₃, sstables, hrecords, hsame.trans hmanifest.symm, hwals, hssts, hmemtables, htables, rfl⟩

/-! ## New stores -/

/-- A store that was opened on an empty directory. -/
def Fresh (options : LsmStorageOptions) (e : LsmStorageInner) : Prop :=
  ∃ d d', d.manifest = none ∧ d.ssts = ∅ ∧ d.wals = ∅ ∧ (openStore options).exec d = (.ok e, d')

/-- The store that is opened on an empty directory where no I/O fails. -/
def newStore (options : LsmStorageOptions) : LsmStorageInner :=
  { state := LsmStorageState.create options
      { map := SkipMap.new
        wal := if options.enableWal then some ⟨0⟩ else none
        id := 0
        approximateSize := 0 }
    disk :=
      { manifest := some (if options.enableWal then [.newMemtable 0] else [])
        ssts := ∅
        wals := if options.enableWal then AList.insert 0 ([] : Bytes) (∅ : FileMap) else ∅
        faults := [] }
    nextSstId := 1
    latestCommitTs := 0
    options }

theorem fresh_newStore (options : LsmStorageOptions) : Fresh options (newStore options) := by
  refine ⟨Disk.empty, (newStore options).disk, rfl, rfl, rfl, ?_⟩
  obtain ⟨blockSize, targetSstSize, numMemtableLimit, compactionOptions, enableWal⟩ := options
  cases enableWal <;> rfl

/-- What a new store is. -/
structure IsNew (options : LsmStorageOptions) (e : LsmStorageInner) (memtable : MemTable) : Prop where
  empty : memtable.map = SkipMap.new
  id : memtable.id = 0
  wal : memtable.wal = if options.enableWal then some ⟨0⟩ else none
  state : e.state = LsmStorageState.create options memtable
  nextSstId : e.nextSstId = 1
  latestCommitTs : e.latestCommitTs = 0
  manifest : e.disk.manifest = some (if options.enableWal then [.newMemtable 0] else [])
  ssts : e.disk.ssts = ∅
  wals : e.disk.wals = if options.enableWal then AList.insert 0 ([] : Bytes) (∅ : FileMap) else ∅
  options : e.options = options

/-- **What opening a directory without a manifest has done.** -/
theorem openStore_none {options : LsmStorageOptions} {d d' : Disk} {e : LsmStorageInner}
    (hmanifest : d.manifest = none) (h : (openStore options).exec d = (.ok e, d')) :
    ∃ memtable, memtable.map = SkipMap.new ∧ memtable.id = 0 ∧
      memtable.wal = (if options.enableWal then some ⟨0⟩ else none) ∧
      e = { state := LsmStorageState.create options memtable
            disk := d'
            nextSstId := 1
            latestCommitTs := 0
            options } ∧
      d'.manifest = some (if options.enableWal then [.newMemtable 0] else []) ∧ d'.ssts = d.ssts ∧
      d'.wals = (if options.enableWal then d.wals.insert 0 ([] : Bytes) else d.wals) := by
  unfold openStore at h
  obtain ⟨rest, h⟩ := Disk.exec_syscall_bind h
  rw [Effect.exec_get_bind] at h
  simp only [hmanifest] at h
  rw [Effect.exec_bind_eq_ok_iff] at h
  obtain ⟨u, d₁, hcreate, h⟩ := h
  obtain ⟨rest₁, hcreate⟩ := Disk.exec_syscall_bind (f := fun _ => _) hcreate
  cases hcreate
  by_cases hwal : options.enableWal = true
  · simp only [hwal, if_true, pure_bind] at h ⊢
    rw [Effect.exec_bind_eq_ok_iff] at h
    obtain ⟨memtable, d₂, hnew, h⟩ := h
    obtain ⟨hmap, hid, hlog, -, hwals₂, hssts₂, hmanifest₂⟩ := MemTable.createWithWal_eq_ok hnew
    rw [Effect.exec_bind_eq_ok_iff] at h
    obtain ⟨u', d₃, hadd, h⟩ := h
    obtain ⟨hmanifest₃, hssts₃, hwals₃⟩ := Manifest.addRecord_eq_ok hadd
    rw [Effect.exec_get_bind] at h
    cases h
    exact ⟨memtable, hmap, hid, hlog, rfl, by rw [hmanifest₃, hmanifest₂]; rfl,
      hssts₃.trans hssts₂, hwals₃.trans hwals₂⟩
  · simp only [hwal] at h ⊢
    rw [if_neg (by simp), pure_bind, Effect.exec_get_bind] at h
    cases h
    exact ⟨MemTable.create 0, rfl, rfl, rfl, rfl, rfl, rfl, rfl⟩

theorem Fresh.isNew {options : LsmStorageOptions} {e : LsmStorageInner} (h : Fresh options e) :
    ∃ memtable, IsNew options e memtable := by
  obtain ⟨d, d', hmanifest, hssts, hwals, hopen⟩ := h
  obtain ⟨memtable, hmap, hid, hlog, rfl, hmanifest', hssts', hwals'⟩ := openStore_none hmanifest hopen
  refine ⟨memtable, ⟨hmap, hid, hlog, rfl, rfl, rfl, hmanifest', hssts'.trans hssts, ?_, rfl⟩⟩
  rw [hwals', hwals]

end LsmStorageInner

end TinyLsm

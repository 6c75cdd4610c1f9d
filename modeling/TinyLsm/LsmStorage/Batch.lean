import TinyLsm.LsmStorage.Open
import TinyLsm.LsmStorage.Invariant

/-!
# Batches and crashes

The log has no mark where a batch ends: a batch is a record after the other.  After a crash that
left a prefix of the log, `recover_from_wal` reads whole records (`Wal.replay_prefix`), but the last
batch it reads from may have lost its end.

`recover_batches` is what holds: the memtable has all of some batches and the front of the next one,
and the commit timestamp that is recovered with it lets a reader see all of that.
-/

namespace TinyLsm

/-- A prefix of a flattening has some whole lists and the front of the next one. -/
theorem take_flatten {α : Type} (L : List (List α)) (k : ℕ) :
    ∃ i j, L.flatten.take k = (L.take i).flatten ++ (L.getD i []).take j := by
  induction L generalizing k with
  | nil => exact ⟨0, 0, by simp⟩
  | cons l L ih =>
    rcases le_total k l.length with hle | hle
    · refine ⟨0, k, ?_⟩
      rw [List.flatten_cons, List.take_append_of_le_length hle]
      rfl
    · obtain ⟨i, j, hij⟩ := ih (k - l.length)
      refine ⟨i + 1, j, ?_⟩
      rw [List.flatten_cons, List.take_append, List.take_of_length_le hle, hij, List.take_succ_cons,
        List.flatten_cons, List.append_assoc, List.getD_cons_succ]

/-- What consecutive writes put into the log, when `ts` was committed before. -/
def stamped : UInt64 → List (List WriteBatchRecord) → List (List Entry)
  | _, [] => []
  | ts, batch :: batches => batch.map (WriteBatchRecord.entry (ts + 1)) :: stamped (ts + 1) batches

theorem stamped_concat (ts : UInt64) (batches : List (List WriteBatchRecord))
    (batch : List WriteBatchRecord) : stamped ts (batches ++ [batch]) =
      stamped ts batches ++ [batch.map (WriteBatchRecord.entry (ts + UInt64.ofNat batches.length + 1))] := by
  induction batches generalizing ts with
  | nil => simp [stamped]
  | cons b batches ih =>
    have hts : ts + 1 + UInt64.ofNat batches.length = ts + UInt64.ofNat (batches.length + 1) := by
      rw [UInt64.ofNat_add, UInt64.add_assoc, UInt64.add_comm 1]
      rfl
    rw [List.cons_append, stamped, stamped, ih, hts]
    rfl

theorem mem_stamped {ts : UInt64} {batches : List (List WriteBatchRecord)} {x : Entry}
    (h : x ∈ (stamped ts batches).flatten) :
    ∃ batch ∈ batches, ∃ record ∈ batch, ∃ ts', x = record.entry ts' := by
  induction batches generalizing ts with
  | nil => cases h
  | cons batch batches ih =>
    rw [stamped, List.flatten_cons, List.mem_append] at h
    rcases h with h | h
    · obtain ⟨record, hrecord, rfl⟩ := List.mem_map.mp h
      exact ⟨batch, List.mem_cons_self, record, hrecord, _, rfl⟩
    · obtain ⟨batch', hbatch, hrest⟩ := ih h
      exact ⟨batch', List.mem_cons_of_mem _ hbatch, hrest⟩

/-- The key is not empty, and key and value fit the two-byte lengths of the log. -/
def WriteBatchRecord.Fits (record : WriteBatchRecord) : Prop :=
  record.key ≠ [] ∧ record.key.length ≤ 65535 ∧ record.value.length ≤ 65535

namespace LsmStorageInner

variable [Platform] {options : LsmStorageOptions} {e₀ e e' : LsmStorageInner} {id : ℕ}

/-! ## The log of a memtable -/

/-- The active memtable is new, and its log is empty. -/
structure StartsLog (id : ℕ) (e : LsmStorageInner) : Prop where
  enableWal : e.options.enableWal = true
  wal : e.state.memtable.wal = some ⟨id⟩
  log : e.disk.wals.lookup id = some []

/-- The writes of the batches are in the log of the memtable. -/
structure HasLog (id : ℕ) (ts : UInt64) (batches : List (List WriteBatchRecord))
    (e : LsmStorageInner) : Prop where
  enableWal : e.options.enableWal = true
  wal : e.state.memtable.id = id → e.state.memtable.wal = some ⟨id⟩
  log : e.disk.wals.lookup id =
    some ((stamped ts batches).flatten.flatMap fun x => Wal.record x.1 x.2)
  latestCommitTs : e.latestCommitTs = ts + UInt64.ofNat batches.length

/-- The call is a write into the memtable `id`. -/
def WritesInto (id : ℕ) (e : LsmStorageInner) (op : Op) : Prop :=
  e.state.memtable.id = id ∧ ∃ batch, op = .writeBatch batch

/-- A freeze leaves the log of the memtable alone. -/
theorem HasLog.freeze {ts : UInt64} {batches : List (List WriteBatchRecord)} {m : MemTable}
    (h : e.HasLog id ts batches) (hfroze : Froze e e' m) : e'.HasLog id ts batches := by
  have hne : e.nextSstId ≠ id := by
    intro heq
    have hfresh := hfroze.fresh h.enableWal
    rw [heq, h.log] at hfresh
    cases hfresh
  refine ⟨by rw [hfroze.options]; exact h.enableWal, fun hid => ?_, hfroze.lookup_wals h.log, ?_⟩
  · rw [hfroze.state] at hid
    exact absurd (hfroze.id.symm.trans hid) hne
  · rw [hfroze.latestCommitTs]
    exact h.latestCommitTs

/-- **A write appends its records.** -/
theorem HasLog.writeBatch {ts : UInt64} {batches : List (List WriteBatchRecord)}
    {batch : List WriteBatchRecord} (h : e.HasLog id ts batches) (hid : e.state.memtable.id = id)
    (hstep : Step e (.writeBatch batch) e') : e'.HasLog id ts (batches ++ [batch]) := by
  obtain ⟨ts', d, e₁, hnext, hlogged, hfreeze, rfl⟩ := writeBatch_ok hstep
  obtain rfl := nextTs_eq hnext
  have hlog := hlogged.wal_some ⟨id⟩ _ (h.wal hid) h.log
  have hput : HasLog id ts (batches ++ [batch])
      { e.afterPut (batch.map (WriteBatchRecord.entry (e.latestCommitTs + 1))) d with
        latestCommitTs := e.latestCommitTs + 1 } := by
    refine ⟨h.enableWal, fun _ => ?_, ?_, ?_⟩
    · exact (MemTable.insertAll_wal _ _).trans (h.wal hid)
    · change d.wals.lookup id = _
      rw [hlog, stamped_concat, List.flatten_append, List.flatMap_append, h.latestCommitTs]
      simp
    · change e.latestCommitTs + 1 = _
      rw [h.latestCommitTs, List.length_append, UInt64.ofNat_add, UInt64.add_assoc]
      rfl
  rcases tryFreeze_ok hfreeze with rfl | ⟨-, m, hfroze⟩
  · exact hput
  · exact hput.freeze (hfroze.commit (e.latestCommitTs + 1))

theorem hasLog_of_run {batches : List (List WriteBatchRecord)} (hstart : e₀.StartsLog id)
    (hrun : RunOf (WritesInto id) e₀ (batches.map Op.writeBatch) e) :
    e.HasLog id e₀.latestCommitTs batches := by
  have hrun' : ∃ batches', batches.map Op.writeBatch = batches'.map Op.writeBatch ∧
      e.HasLog id e₀.latestCommitTs batches' := by
    refine hrun.invariant_of_steps (fun ops e => ∃ batches', ops = batches'.map Op.writeBatch ∧
      e.HasLog id e₀.latestCommitTs batches') ⟨[], rfl, ?_⟩ ?_
    · refine ⟨hstart.enableWal, fun _ => hstart.wal, hstart.log, ?_⟩
      exact (UInt64.add_zero _).symm
    · rintro ops e op e' ⟨batches', rfl, hlog⟩ ⟨⟨hid, batch, rfl⟩, hstep⟩
      exact ⟨batches' ++ [batch], by simp, hlog.writeBatch hid hstep⟩
  obtain ⟨batches', heq, hlog⟩ := hrun'
  rwa [List.map_injective_iff.mpr (fun _ _ h => Op.writeBatch.inj h) heq]

/-! ## Reading the logs back -/

theorem recoverFromWal_eq_ok {d d' : Disk} {m : MemTable}
    (h : (MemTable.recoverFromWal id).exec d = (.ok m, d')) :
    ∃ data, d.wals.lookup id = some data ∧ Wal.replay data.length data SkipMap.new = .ok m.map ∧
      m.id = id ∧ d'.wals = d.wals := by
  unfold MemTable.recoverFromWal at h
  rw [Effect.exec_bind_eq_ok_iff] at h
  obtain ⟨⟨wal, map⟩, d₁, hrecover, hret⟩ := h
  cases hret
  obtain ⟨rest, hrecover⟩ := Disk.exec_syscall_bind hrecover
  rw [Effect.exec_get_bind] at hrecover
  simp only at hrecover
  cases hdata : d.wals.lookup id with
  | none =>
    rw [hdata] at hrecover
    cases hrecover
  | some data =>
    rw [hdata] at hrecover
    simp only at hrecover
    rw [Effect.exec_bind_eq_ok_iff] at hrecover
    obtain ⟨map', d₂, hlift, hret⟩ := hrecover
    rw [Effect.exec_lift, Prod.mk.injEq] at hlift
    obtain ⟨hreplay, rfl⟩ := hlift
    cases hret
    exact ⟨data, rfl, hreplay, rfl, rfl⟩

theorem mapM_recoverFromWal {ids : List ℕ} {d d' : Disk} {ms : List MemTable}
    (h : (ids.mapM MemTable.recoverFromWal : DiskEffect (List MemTable)).exec d = (.ok ms, d')) :
    ∀ m ∈ ms, ∃ data, d.wals.lookup m.id = some data ∧
      Wal.replay data.length data SkipMap.new = .ok m.map := by
  induction ids generalizing d ms with
  | nil =>
    cases h
    simp
  | cons id ids ih =>
    rw [List.mapM_cons, Effect.exec_bind_eq_ok_iff] at h
    obtain ⟨m, d₁, hm, h⟩ := h
    rw [Effect.exec_bind_eq_ok_iff] at h
    obtain ⟨ms', d₂, hms, hret⟩ := h
    cases hret
    obtain ⟨data, hdata, hreplay, hid, hwals⟩ := recoverFromWal_eq_ok hm
    refine List.forall_mem_cons.mpr ⟨⟨data, by rw [hid]; exact hdata, hreplay⟩, fun m' hm' => ?_⟩
    obtain ⟨data', hdata', hreplay'⟩ := ih hms m' hm'
    exact ⟨data', by rw [← hwals]; exact hdata', hreplay'⟩

/-- Every memtable was read from its log, or it is the empty one of a store without logs. -/
theorem recoverMemtables_eq_ok {s s' : LsmStorageState MemTable} {ids : List ℕ} {d d' : Disk}
    (h : (recoverMemtables s true ids).exec d = (.ok s', d')) (himms : s.immMemtables = []) :
    ∀ m ∈ s'.memtables, m = s.memtable ∨ ∃ data, d.wals.lookup m.id = some data ∧
      Wal.replay data.length data SkipMap.new = .ok m.map := by
  cases ids with
  | nil =>
    cases h
    unfold LsmStorageState.memtables
    rw [himms]
    simp
  | cons active imms =>
    rw [recoverMemtables, if_pos rfl, Effect.exec_bind_eq_ok_iff] at h
    obtain ⟨m, d₁, hm, h⟩ := h
    rw [Effect.exec_bind_eq_ok_iff] at h
    obtain ⟨ms, d₂, hms, hret⟩ := h
    cases hret
    obtain ⟨data, hdata, hreplay, hid, hwals⟩ := recoverFromWal_eq_ok hm
    unfold LsmStorageState.memtables
    rw [himms, List.nil_append]
    refine List.forall_mem_cons.mpr ⟨Or.inr ⟨data, by rw [hid]; exact hdata, hreplay⟩,
      fun m' hm' => Or.inr ?_⟩
    rw [← hwals]
    exact mapM_recoverFromWal hms m' hm'

/-! ## The recovered commit timestamp -/

open StorageIterator

/-- What opening an existing store with logs makes of its memtables. -/
theorem openStore_memtables {d d' : Disk} (hwal : options.enableWal = true)
    (hmanifest : d.manifest ≠ none) (h : (openStore options).exec d = (.ok e, d')) :
    (∀ m ∈ e.state.memtables, m.map = SkipMap.new ∨ ∃ data, d.wals.lookup m.id = some data ∧
        Wal.replay data.length data SkipMap.new = .ok m.map) ∧
      ∀ m ∈ e.state.memtables, m.KeysNonempty → ∀ x ∈ m.map.entries, x.1.ts ≤ e.latestCommitTs := by
  obtain ⟨recs, hrecs⟩ := Option.ne_none_iff_exists'.mp hmanifest
  obtain ⟨r, s, d₁, d₂, sstables, hreplay, -, hwals, -, hmemtables, -, rfl⟩ := openStore_some hrecs h
  rw [hwal] at hmemtables
  have hframe := Replay.records_frame hreplay
  have hmem : r.state.memtable = MemTable.create 0 := by
    rw [hframe]
    rfl
  have himms : r.state.immMemtables = [] := by
    rw [hframe]
    rfl
  refine ⟨fun m hm => ?_, fun m hm hkeys x hx => ?_⟩
  · rcases recoverMemtables_eq_ok hmemtables himms m hm with rfl | ⟨data, hdata, hreplay⟩
    · rw [hmem]
      exact Or.inl rfl
    · exact Or.inr ⟨data, hwals ▸ hdata, hreplay⟩
  · refine foldr_max_le_iff.mp le_rfl _
      (List.mem_append_right _ (List.mem_flatMap.mpr ⟨m, hm, ?_⟩))
    rw [hkeys.flushed_eq]
    exact List.mem_map_of_mem hx

/-! ## What a crash leaves of the batches -/

/-- The map has all of some batches and the front of the next one. -/
def HasFront (ts : UInt64) (batches : List (List WriteBatchRecord)) (map : SkipMap) : Prop :=
  ∃ i j, map = SkipMap.new.insertAll
    (((stamped ts batches).take i).flatten ++ ((stamped ts batches).getD i []).take j)

theorem hasFront_of_replay {ts : UInt64} {batches : List (List WriteBatchRecord)}
    (hfits : ∀ batch ∈ batches, ∀ record ∈ batch, record.Fits) {log data : Bytes} {map : SkipMap}
    {n : ℕ} (hlog : log = (stamped ts batches).flatten.flatMap fun x => Wal.record x.1 x.2)
    (hcut : data <+: log) (hreplay : Wal.replay n data SkipMap.new = .ok map) :
    HasFront ts batches map ∧ ∀ x ∈ map.entries, x.1.keyRef ≠ [] := by
  have hentry : ∀ x ∈ (stamped ts batches).flatten, LengthsFit x ∧ x.1.keyRef ≠ [] := by
    intro x hx
    obtain ⟨batch, hbatch, record, hrecord, ts', rfl⟩ := mem_stamped hx
    obtain ⟨hne, hkey, hvalue⟩ := hfits batch hbatch record hrecord
    exact ⟨⟨hkey, hvalue⟩, hne⟩
  rw [hlog] at hcut
  obtain ⟨k, -, hmap⟩ := Wal.replay_prefix (fun x hx => (hentry x hx).1) hcut hreplay
  refine ⟨?_, fun x hx => ?_⟩
  · obtain ⟨i, j, hij⟩ := take_flatten (stamped ts batches) k
    exact ⟨i, j, by rw [hmap, hij]⟩
  · rw [hmap] at hx
    rcases SkipMap.mem_insertAll.mp hx with hx | ⟨-, hx⟩
    · exact (hentry x (List.mem_of_mem_take (List.mem_of_mem_filter (List.mem_of_getLast? hx)))).2
    · cases hx

/-- **A crash cuts at most one batch.**  Of the batches that were written into a memtable a prefix
of its log gives back some whole ones and the front of the next one, and after `open` a reader at
the recovered commit timestamp sees all of that. -/
theorem recover_batches {batches : List (List WriteBatchRecord)} (hstart : e₀.StartsLog id)
    (hrun : RunOf (WritesInto id) e₀ (batches.map Op.writeBatch) e)
    (hfits : ∀ batch ∈ batches, ∀ record ∈ batch, record.Fits) {log data : Bytes}
    (hlog : e.disk.wals.lookup id = some log) (hcut : data <+: log) {d : Disk}
    (hcrash : d.wals.lookup id = some data) :
    (∀ m d', (MemTable.recoverFromWal id).exec d = (.ok m, d') →
      HasFront e₀.latestCommitTs batches m.map) ∧
    (∀ options e' d', options.enableWal = true → d.manifest ≠ none →
      (openStore options).exec d = (.ok e', d') →
      ∀ m ∈ e'.state.memtables, m.id = id → HasFront e₀.latestCommitTs batches m.map ∧
        ∀ x ∈ m.map.entries, x.1.ts ≤ e'.latestCommitTs) := by
  have hhas := hasLog_of_run hstart hrun
  rw [hhas.log] at hlog
  have hlog := (Option.some.inj hlog).symm
  refine ⟨fun m d' hm => ?_, fun options e' d' hwal hmanifest hopen m hm hid => ?_⟩
  · obtain ⟨data', hdata, hreplay, -, -⟩ := recoverFromWal_eq_ok hm
    rw [hcrash] at hdata
    cases hdata
    exact (hasFront_of_replay hfits hlog hcut hreplay).1
  · obtain ⟨hmaps, hts⟩ := openStore_memtables hwal hmanifest hopen
    have hfront : HasFront e₀.latestCommitTs batches m.map ∧ m.KeysNonempty := by
      rcases hmaps m hm with hnew | ⟨data', hdata, hreplay⟩
      · refine ⟨⟨0, 0, by rw [hnew]; rfl⟩, ?_⟩
        unfold MemTable.KeysNonempty
        rw [hnew]
        rintro x ⟨⟩
      · rw [hid, hcrash] at hdata
        cases hdata
        exact hasFront_of_replay hfits hlog hcut hreplay
    exact ⟨hfront.1, hts m hm hfront.2⟩

end LsmStorageInner

section

attribute [local instance] shortKeyPlatform

namespace LsmStorageInner

/-- A store with logs. -/
def loggedOptions : LsmStorageOptions := ⟨4096, 2 ^ 20, 50, .noCompaction, true⟩

/-- Two puts in one batch. -/
def twoPuts : List WriteBatchRecord := [.put [1] [7], .put [2] [8]]

/-- The directory after the batch, with a log that ends behind the first of its records. -/
def cutLog : Disk :=
  { (newStore loggedOptions).disk with wals := AList.insert 0 (Wal.record ⟨[1], 1⟩ [7]) ∅ }

theorem recover_batches_small : ∃ m d',
    (MemTable.recoverFromWal 0).exec cutLog = (.ok m, d') ∧ HasFront 0 [twoPuts] m.map := by
  have hfinal : (afterCall (newStore loggedOptions) (.writeBatch twoPuts)).map (fun e =>
      e.disk.wals.lookup 0) = some (some (Wal.record ⟨[1], 1⟩ [7] ++ Wal.record ⟨[2], 1⟩ [8])) := by
    decide +kernel
  obtain ⟨e, he, hlog⟩ := Option.map_eq_some_iff.mp hfinal
  have hstart : (newStore loggedOptions).StartsLog 0 := ⟨rfl, rfl, rfl⟩
  have hrun : RunOf (WritesInto 0) (newStore loggedOptions) ([twoPuts].map Op.writeBatch) e :=
    Run.single ⟨⟨rfl, twoPuts, rfl⟩, step_of_afterCall he⟩
  have hfits : ∀ batch ∈ [twoPuts], ∀ record ∈ batch, record.Fits := by
    unfold WriteBatchRecord.Fits
    decide
  have hok : ((MemTable.recoverFromWal 0).exec cutLog).1.isOk = true := by decide +kernel
  cases hrecover : (MemTable.recoverFromWal 0).exec cutLog with
  | mk o d' =>
    rw [hrecover] at hok
    cases o with
    | error f => cases hok
    | ok m =>
      have hfront := recover_batches hstart hrun hfits hlog (List.prefix_append _ _)
        (show cutLog.wals.lookup 0 = _ from AList.lookup_insert _)
      exact ⟨m, d', rfl, hfront.1 m d' hrecover⟩

/-- The log is cut between the records of a batch: the first put is there and the second one is
not. -/
theorem cut_batch_is_seen : ∃ e, Step (newStore loggedOptions) (.writeBatch twoPuts) e ∧
    e.disk.wals.lookup 0 = some (Wal.record ⟨[1], 1⟩ [7] ++ Wal.record ⟨[2], 1⟩ [8]) ∧
    cutLog.wals.lookup 0 = some (Wal.record ⟨[1], 1⟩ [7]) ∧
    (∃ m d', (MemTable.recoverFromWal 0).exec cutLog = (.ok m, d') ∧
      m.map.entries = [(⟨[1], 1⟩, [7])]) ∧
    ∃ e' d', (openStore loggedOptions).exec cutLog = (.ok e', d') ∧ e'.latestCommitTs = 1 ∧
      e'.get [1] = .ok (some [7]) ∧ e'.get [2] = .ok none := by
  have hfinal : (afterCall (newStore loggedOptions) (.writeBatch twoPuts)).map (fun e =>
      e.disk.wals.lookup 0) = some (some (Wal.record ⟨[1], 1⟩ [7] ++ Wal.record ⟨[2], 1⟩ [8])) := by
    decide +kernel
  obtain ⟨e, he, hlog⟩ := Option.map_eq_some_iff.mp hfinal
  refine ⟨e, step_of_afterCall he, hlog, AList.lookup_insert _, ?_, ?_⟩
  · have hmap : ((MemTable.recoverFromWal 0).exec cutLog).1.map (fun m => m.map.entries) =
        .ok [(⟨[1], 1⟩, [7])] := by decide +kernel
    cases hrecover : (MemTable.recoverFromWal 0).exec cutLog with
    | mk o d' =>
      rw [hrecover] at hmap
      cases o with
      | error f => cases hmap
      | ok m => exact ⟨m, d', rfl, Except.ok.inj hmap⟩
  · have hopen : ((openStore loggedOptions).exec cutLog).1.map (fun e' =>
        (e'.latestCommitTs, e'.get [1], e'.get [2])) = .ok (1, .ok (some [7]), .ok none) := by
      decide +kernel
    cases hstore : (openStore loggedOptions).exec cutLog with
    | mk o d' =>
      rw [hstore] at hopen
      cases o with
      | error f => cases hopen
      | ok e' =>
        obtain ⟨hts, hgets⟩ := Prod.mk.inj (Except.ok.inj hopen)
        obtain ⟨hone, htwo⟩ := Prod.mk.inj hgets
        exact ⟨e', d', rfl, hts, hone, htwo⟩

end LsmStorageInner

end

end TinyLsm

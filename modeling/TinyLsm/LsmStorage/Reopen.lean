import TinyLsm.LsmStorage.Preserved
import TinyLsm.LsmStorage.Replayed
import TinyLsm.LsmStorage.Logs

/-!
# Closing a store and opening it again

The manifest of a run has a record for each frozen and for each flushed memtable, and none for a
compaction.  `open` therefore looks for the file of every table that was ever flushed.

`reopens_iff`: the directory of a run can be opened exactly when no compaction of the run had an input.
`reopened_reads`: an opened store then reads as the old one at every timestamp, without logs as the
tables of the old one.
-/

namespace TinyLsm

/-! ## Directories on which nothing fails -/

/-- The same files, whatever is still to fail. -/
structure Disk.Like (d d' : Disk) : Prop where
  manifest : d'.manifest = d.manifest
  ssts : d'.ssts = d.ssts
  wals : d'.wals = d.wals

theorem Disk.Like.refl (d : Disk) : d.Like d := ⟨rfl, rfl, rfl⟩

theorem Disk.Like.trans {d d₁ d₂ : Disk} (h : d.Like d₁) (h' : d₁.Like d₂) : d.Like d₂ :=
  ⟨h'.manifest.trans h.manifest, h'.ssts.trans h.ssts, h'.wals.trans h.wals⟩

/-- A call to the operating system changes no file. -/
theorem Disk.Reliable.passes {d : Disk} (h : d.Reliable) :
    ∃ d', Effect.exec (Disk.syscall : DiskEffect Unit) d = (.ok (), d') ∧ d.Like d' ∧ d'.Reliable := by
  obtain ⟨rest, hsys, hrest⟩ := h.syscall
  exact ⟨_, hsys, ⟨rfl, rfl, rfl⟩, hrest⟩

theorem FileObject.openFile_reliable {d : Disk} (hd : d.Reliable) {id : ℕ} {data : Bytes}
    (hdata : d.ssts.lookup id = some data) :
    ∃ d', (FileObject.openFile id).exec d = (.ok data, d') ∧ d.Like d' ∧ d'.Reliable := by
  obtain ⟨d', hsys, hlike, hd'⟩ := hd.passes
  refine ⟨d', ?_, hlike, hd'⟩
  unfold FileObject.openFile
  rw [Effect.exec_bind_of_ok hsys, Effect.exec_get_bind, hlike.ssts]
  simp only [hdata]
  rfl

/-! ## The tables -/

namespace SsTable

variable [Platform]

/-- **The file of a table with entries opens**, and the opened table holds them, in the same blocks. -/
theorem openFile_built {blockSize id : ℕ} (hb : blockSize ≤ 65535) {es : List Entry} {t : SsTable}
    (hbuilt : ofEntries blockSize id es = .ok t) (hne : es ≠ []) (hs : SortedRun es)
    (hfits : ∀ x ∈ es, LengthsFit x) (hfile : t.file.length < 2 ^ 32) :
    ∃ u, openFile id t.file = .ok u ∧ u.HasEntries es ∧ u.BloomBuiltFrom es ∧
      u.blockMeta = t.blockMeta := by
  have hbuild := hbuilt
  unfold ofEntries at hbuild
  obtain ⟨b, hadd, hret⟩ := Outcome.bind_eq_ok_iff.mp hbuild
  have henc : ∀ x ∈ es, Encodable x := fun x hx =>
    ⟨SsTableBuilder.keys_ne_of_addAll hadd x hx, (hfits x hx).key_le, (hfits x hx).value_le⟩
  obtain ⟨t', hbuilt', ⟨bss, hholds, hflat⟩, hbloom⟩ := ofEntries_spec hb hne hs henc id
  obtain rfl := Except.ok.inj (hbuilt'.symm.trans hbuilt)
  obtain rfl := Except.ok.inj hret
  obtain ⟨b', done, cur, hadd', -, htracks, hdone, -⟩ :=
    SsTableBuilder.addAll_spec es (SsTableBuilder.new_tracks blockSize) fun e he => (henc e he).key_ne
  obtain rfl := Except.ok.inj (hadd'.symm.trans hadd)
  simp only [List.flatten_nil, List.append_nil, List.nil_append] at hdone
  have hcur : cur ≠ [] := by
    intro hnil
    rw [hnil, (htracks.empty hnil).1] at hdone
    exact hne hdone.symm
  refine ⟨_, SsTableBuilder.openFile_build htracks hcur (fun e he => (henc e ?_).key_le) hfile,
    ⟨bss, hholds.congr rfl rfl rfl rfl rfl, hflat⟩, hbloom, rfl⟩
  rw [← hdone]
  exact he

end SsTable

namespace LsmStorageInner

open LsmStorageState

variable [Platform] {options : LsmStorageOptions} {e₀ e e' : LsmStorageInner} {d d' : Disk}
  {contents : ℕ → List Entry} {task : CompactionTask} {op : Op} {ops : List Op}

/-- Tables whose files open are opened. -/
theorem openTables_reliable (hd : d.Reliable) {ids : List ℕ} (m : SstMap)
    (h : ∀ id ∈ ids, ∃ file t, d.ssts.lookup id = some file ∧ SsTable.openFile id file = .ok t) :
    ∃ m' d', (openTables m ids).exec d = (.ok m', d') := by
  induction ids generalizing m d with
  | nil => exact ⟨m, d, rfl⟩
  | cons id ids ih =>
    obtain ⟨⟨file, t, hfile, hopen⟩, hids⟩ := List.forall_mem_cons.mp h
    obtain ⟨d₁, hexec, hlike, hd₁⟩ := FileObject.openFile_reliable hd hfile
    obtain ⟨m', d', hrest⟩ := ih hd₁ (m.insert id t) fun a ha => by
      rw [hlike.ssts]
      exact hids a ha
    refine ⟨m', d', ?_⟩
    rw [openTables, Effect.exec_bind_of_ok hexec, hopen, Effect.exec_lift_bind, hrest]

/-- What was opened: every table of the list, from its file. -/
theorem openTables_all {ids : List ℕ} {m m' : SstMap} (h : (openTables m ids).exec d = (.ok m', d')) :
    (∀ id, id ∉ ids → m'.lookup id = m.lookup id) ∧ ∀ id ∈ ids, ∃ file t,
      d.ssts.lookup id = some file ∧ SsTable.openFile id file = .ok t ∧ m'.lookup id = some t := by
  induction ids generalizing m d with
  | nil =>
    cases h
    exact ⟨fun _ _ => rfl, by simp⟩
  | cons a ids ih =>
    rw [openTables, Effect.exec_bind_eq_ok_iff] at h
    obtain ⟨file, d₁, hfile, h⟩ := h
    obtain ⟨hlookup, rest, rfl⟩ := FileObject.openFile_eq_ok hfile
    rw [Effect.exec_bind_eq_ok_iff] at h
    obtain ⟨t, d₂, hlift, h⟩ := h
    rw [Effect.exec_lift, Prod.mk.injEq] at hlift
    obtain ⟨hopen, rfl⟩ := hlift
    obtain ⟨hother, hall⟩ := ih h
    refine ⟨fun id hid => ?_, fun id hid => ?_⟩
    · rw [List.mem_cons, not_or] at hid
      rw [hother id hid.2, AList.lookup_insert_ne hid.1]
    · by_cases hmem : id ∈ ids
      · exact hall id hmem
      · obtain rfl := (List.mem_cons.mp hid).resolve_right hmem
        exact ⟨file, t, hlookup, hopen, by rw [hother id hmem, AList.lookup_insert]⟩

/-! ## The memtables -/

/-- The log of the memtable is there and replays to its map. -/
structure LoggedAt (m : MemTable) (d : Disk) : Prop where
  wal : m.wal = some ⟨m.id⟩
  log : ∃ es, d.wals.lookup m.id = some (Wal.records es) ∧ (∀ x ∈ es, LengthsFit x) ∧
    m.map = SkipMap.new.insertAll es

theorem LoggedAt.congr {m : MemTable} (h : LoggedAt m d) (hlog : d'.wals.lookup m.id = d.wals.lookup m.id) :
    LoggedAt m d' := by
  refine ⟨h.wal, ?_⟩
  rw [hlog]
  exact h.log

/-- What is read from the log of the memtable. -/
theorem LoggedAt.recovered {m : MemTable} (h : LoggedAt m d) {data : Bytes}
    (hdata : d.wals.lookup m.id = some data) :
    Wal.replay data.length data SkipMap.new = .ok m.map := by
  obtain ⟨es, hlog, hfits, hmap⟩ := h.log
  obtain rfl := Option.some.inj (hlog.symm.trans hdata)
  rw [hmap]
  exact Wal.replay_records hfits SkipMap.new (Wal.length_le_records es)

theorem recoverFromWal_reliable (hd : d.Reliable) {m : MemTable} (h : LoggedAt m d) :
    ∃ m' d', (MemTable.recoverFromWal m.id).exec d = (.ok m', d') ∧ d.Like d' ∧ d'.Reliable := by
  obtain ⟨d', hsys, hlike, hd'⟩ := hd.passes
  obtain ⟨es, hlog, -⟩ := h.log
  have hrecover : (Wal.recover m.id).exec d = (.ok (⟨m.id⟩, m.map), d') := by
    unfold Wal.recover
    rw [Effect.exec_bind_of_ok hsys, Effect.exec_get_bind, hlike.wals]
    simp only [hlog, h.recovered hlog, Effect.exec_lift_bind]
    rfl
  have hexec : (MemTable.recoverFromWal m.id).exec d = (.ok ⟨m.map, some ⟨m.id⟩, m.id,
      (m.map.entries.map fun e => e.1.rawLen + e.2.length).sum⟩, d') := by
    unfold MemTable.recoverFromWal
    rw [Effect.exec_bind_of_ok hrecover]
    rfl
  exact ⟨_, d', hexec, hlike, hd'⟩

theorem mapM_recoverFromWal_reliable (hd : d.Reliable) {ms : List MemTable}
    (h : ∀ m ∈ ms, LoggedAt m d) : ∃ ms' d',
      ((ms.map MemTable.id).mapM MemTable.recoverFromWal : DiskEffect (List MemTable)).exec d =
        (.ok ms', d') ∧ d.Like d' ∧ d'.Reliable := by
  induction ms generalizing d with
  | nil => exact ⟨[], d, rfl, .refl d, hd⟩
  | cons m ms ih =>
    obtain ⟨hm, hms⟩ := List.forall_mem_cons.mp h
    obtain ⟨m', d₁, hexec, hlike, hd₁⟩ := recoverFromWal_reliable hd hm
    obtain ⟨ms', d', hrest, hlike', hd'⟩ := ih hd₁ fun a ha => (hms a ha).congr (by rw [hlike.wals])
    refine ⟨m' :: ms', d', ?_, hlike.trans hlike', hd'⟩
    rw [List.map_cons, List.mapM_cons, Effect.exec_bind_of_ok hexec, Effect.exec_bind_of_ok hrest]
    rfl

/-- A recovered memtable is the old one, but for the size that it believes to have. -/
def SameMemTable (m m' : MemTable) : Prop := m'.map = m.map ∧ m'.id = m.id

/-- Reading a log changes no file. -/
theorem recoverFromWal_like {id : ℕ} {m : MemTable}
    (h : (MemTable.recoverFromWal id).exec d = (.ok m, d')) : d.Like d' := by
  unfold MemTable.recoverFromWal at h
  rw [Effect.exec_bind_eq_ok_iff] at h
  obtain ⟨⟨wal, map⟩, d₁, hrecover, hret⟩ := h
  cases hret
  obtain ⟨rest, hrecover⟩ := Disk.exec_syscall_bind hrecover
  rw [Effect.exec_get_bind] at hrecover
  cases hdata : d.wals.lookup id with
  | none =>
    simp only [hdata] at hrecover
    cases hrecover
  | some data =>
    simp only [hdata] at hrecover
    rw [Effect.exec_bind_eq_ok_iff] at hrecover
    obtain ⟨map', d₂, hlift, hret⟩ := hrecover
    rw [Effect.exec_lift, Prod.mk.injEq] at hlift
    obtain ⟨-, rfl⟩ := hlift
    cases hret
    exact ⟨rfl, rfl, rfl⟩

theorem LoggedAt.same {m m' : MemTable} (h : LoggedAt m d)
    (hexec : (MemTable.recoverFromWal m.id).exec d = (.ok m', d')) : SameMemTable m m' := by
  obtain ⟨data, hdata, hreplay, hid, -⟩ := recoverFromWal_eq_ok hexec
  exact ⟨(Except.ok.inj ((h.recovered hdata).symm.trans hreplay)).symm, hid⟩

theorem mapM_recoverFromWal_same {ms ms' : List MemTable} (h : ∀ m ∈ ms, LoggedAt m d)
    (hexec : ((ms.map MemTable.id).mapM MemTable.recoverFromWal : DiskEffect (List MemTable)).exec d =
      (.ok ms', d')) : List.Forall₂ SameMemTable ms ms' ∧ d.Like d' := by
  induction ms generalizing d ms' with
  | nil =>
    cases hexec
    exact ⟨.nil, .refl _⟩
  | cons m ms ih =>
    obtain ⟨hm, hms⟩ := List.forall_mem_cons.mp h
    rw [List.map_cons, List.mapM_cons, Effect.exec_bind_eq_ok_iff] at hexec
    obtain ⟨m', d₁, hone, hexec⟩ := hexec
    rw [Effect.exec_bind_eq_ok_iff] at hexec
    obtain ⟨ms'', d₂, hrest, hret⟩ := hexec
    cases hret
    have hlike := recoverFromWal_like hone
    obtain ⟨hsame, hlike'⟩ := ih (fun a ha => (hms a ha).congr (by rw [hlike.wals])) hrest
    exact ⟨.cons (hm.same hone) hsame, hlike.trans hlike'⟩

/-- What the recovery of the memtables of a state may do to another one. -/
structure Remembers (enableWal : Bool) (old s s' : LsmStorageState MemTable) : Prop where
  frame : s' = { s with memtable := s'.memtable, immMemtables := s'.immMemtables }
  logged : enableWal = true → List.Forall₂ SameMemTable old.memtables s'.memtables
  unlogged : enableWal = false → s'.memtables = s.memtables

theorem recoverMemtables_same {old s s' : LsmStorageState MemTable} {enableWal : Bool} {ids : List ℕ}
    (hids : enableWal = true → ids = old.memtables.map MemTable.id)
    (hlogs : enableWal = true → ∀ m ∈ old.memtables, LoggedAt m d) (himms : s.immMemtables = [])
    (h : (recoverMemtables s enableWal ids).exec d = (.ok s', d')) :
    Remembers enableWal old s s' ∧ d.Like d' := by
  cases enableWal with
  | false =>
    have hexec : s' = s ∧ d' = d := by
      cases ids <;> cases h <;> exact ⟨rfl, rfl⟩
    obtain ⟨rfl, rfl⟩ := hexec
    exact ⟨⟨rfl, by simp, fun _ => rfl⟩, .refl d'⟩
  | true =>
    obtain ⟨hm, hms⟩ := List.forall_mem_cons.mp (hlogs rfl)
    rw [hids rfl, LsmStorageState.memtables, List.map_cons, recoverMemtables, if_pos rfl,
      Effect.exec_bind_eq_ok_iff] at h
    obtain ⟨m, d₁, hone, h⟩ := h
    rw [Effect.exec_bind_eq_ok_iff] at h
    obtain ⟨ms, d₂, hrest, hret⟩ := h
    cases hret
    have hlike := recoverFromWal_like hone
    obtain ⟨hsame, hlike'⟩ := mapM_recoverFromWal_same
      (fun a ha => (hms a ha).congr (by rw [hlike.wals])) hrest
    refine ⟨⟨rfl, fun _ => ?_, by simp⟩, hlike.trans hlike'⟩
    unfold LsmStorageState.memtables
    rw [himms, List.nil_append]
    exact .cons (hm.same hone) hsame

theorem recoverMemtables_reliable {old : LsmStorageState MemTable} (s : LsmStorageState MemTable)
    {enableWal : Bool} {ids : List ℕ} (hids : enableWal = true → ids = old.memtables.map MemTable.id)
    (hlogs : enableWal = true → ∀ m ∈ old.memtables, LoggedAt m d) (hd : d.Reliable) :
    ∃ s' d', (recoverMemtables s enableWal ids).exec d = (.ok s', d') ∧ d.Like d' ∧ d'.Reliable := by
  cases enableWal with
  | false => exact ⟨s, d, by cases ids <;> rfl, .refl d, hd⟩
  | true =>
    obtain ⟨hm, hms⟩ := List.forall_mem_cons.mp (hlogs rfl)
    obtain ⟨m, d₁, hone, hlike, hd₁⟩ := recoverFromWal_reliable hd hm
    obtain ⟨ms, d', hrest, hlike', hd'⟩ := mapM_recoverFromWal_reliable hd₁ fun a ha =>
      (hms a ha).congr (by rw [hlike.wals])
    refine ⟨{ s with memtable := m, immMemtables := s.immMemtables ++ ms }, d', ?_,
      hlike.trans hlike', hd'⟩
    rw [hids rfl, LsmStorageState.memtables, List.map_cons, recoverMemtables, if_pos rfl,
      Effect.exec_bind_of_ok hone, Effect.exec_bind_of_ok hrest]
    rfl

/-- Every memtable has its log. -/
def Logs (options : LsmStorageOptions) (e : LsmStorageInner) : Prop :=
  options.enableWal = true → ∀ m ∈ e.state.memtables, LoggedAt m e.disk

theorem Logs.freeze {m : MemTable} (h : e.Logs options) (hfroze : Froze e e' m)
    (hoptions : e.options = options) : e'.Logs options := by
  intro hwal
  have hwal' : e.options.enableWal = true := by rw [hoptions]; exact hwal
  have hlog := hfroze.wal
  have hwals := hfroze.wals
  rw [if_pos hwal'] at hlog hwals
  unfold LsmStorageState.memtables
  rw [hfroze.state]
  refine List.forall_mem_cons.mpr ⟨⟨by rw [hlog, hfroze.id], [], ?_, by simp, hfroze.empty⟩, ?_⟩
  · rw [hwals, hfroze.id, AList.lookup_insert]
    rfl
  · intro m' hm'
    obtain ⟨es, hes, -⟩ := (h hwal m' hm').log
    exact (h hwal m' hm').congr (by rw [hfroze.lookup_wals hes, hes])

theorem Logs.afterPut {data : List Entry} (h : e.Logs options) (hnodup : e.state.ids.Nodup)
    (hfits : ∀ x ∈ data, LengthsFit x) (hlogged : e.state.memtable.Logged e.disk d data) :
    (e.afterPut data d).Logs options := by
  intro hwal
  have hall := h hwal
  obtain ⟨hactive, himms⟩ := List.forall_mem_cons.mp hall
  obtain ⟨es, hes, hold, hmap⟩ := hactive.log
  refine List.forall_mem_cons.mpr ⟨⟨?_, es ++ data, ?_, ?_, ?_⟩, fun m hm => ?_⟩
  · change (e.state.memtable.insertAll data).wal = some ⟨(e.state.memtable.insertAll data).id⟩
    rw [MemTable.insertAll_wal, MemTable.insertAll_id]
    exact hactive.wal
  · change d.wals.lookup (e.state.memtable.insertAll data).id = _
    rw [MemTable.insertAll_id, hlogged.wal_some _ _ hactive.wal hes, Wal.records_append]
  · exact List.forall_mem_append.mpr ⟨hold, hfits⟩
  · change (e.state.memtable.insertAll data).map = _
    rw [MemTable.insertAll_map, hmap, SkipMap.insertAll_append]
  · refine (himms m hm).congr (hlogged.wal_other m.id ?_)
    rw [hactive.wal]
    intro heq
    -- the ids of the memtables are distinct
    have hids : (e.state.memtables.map MemTable.id).Nodup := (List.nodup_append.mp hnodup).1
    refine (List.nodup_cons.mp hids).1 ?_
    rw [Wal.mk.inj (Option.some.inj heq)]
    exact List.mem_map_of_mem hm

theorem Logs.writeBatch {batch : List WriteBatchRecord} (h : e.Logs options) (hlaid : e.Laid options)
    (hfits : (Op.writeBatch batch).Fits) (hstep : Step e (.writeBatch batch) e') :
    e'.Logs options := by
  obtain ⟨ts, d, e₁, -, hlogged, hfreeze, rfl⟩ := writeBatch_ok hstep
  have hdata : ∀ x ∈ batch.map (WriteBatchRecord.entry ts), LengthsFit x :=
    List.forall_mem_map.mpr fun record hrecord => ⟨(hfits record hrecord).1, (hfits record hrecord).2⟩
  have hput := h.afterPut hlaid.nodup hdata hlogged
  rcases tryFreeze_ok hfreeze with rfl | ⟨-, m, hfroze⟩
  · exact hput
  · exact (hput.freeze hfroze hlaid.opts : e₁.Logs options)

/-- A step that leaves the logs alone and makes no memtable. -/
theorem Logs.congr (h : e.Logs options) (hwals : e'.disk.wals = e.disk.wals)
    (hmem : e'.state.memtables ⊆ e.state.memtables) : e'.Logs options := fun hwal m hm =>
  (h hwal m (hmem hm)).congr (by rw [hwals])

/-! ## The manifest of a run -/

/-- The manifest of the engine replays to `r`, which has no compaction; with logs what it takes to be
unflushed are the memtables. -/
structure Replays (options : LsmStorageOptions) (e : LsmStorageInner) (r : Replay) : Prop where
  manifest : ∃ recs, e.disk.manifest = some recs ∧
    (Replay.init options).records options.compactionOptions recs = .ok r
  levels : r.state.levels = initialLevels options.compactionOptions
  flushed : r.state.l0Sstables = r.flushedMemtables
  flushed_lt : ∀ id ∈ r.flushedMemtables, id < e.nextSstId
  unflushed : options.enableWal = true → r.unflushed = e.state.memtables.map MemTable.id

variable {r r' : Replay}

omit [Platform] in
/-- A step that records nothing. -/
theorem Replays.congr (h : e.Replays options r) (hmanifest : e'.disk.manifest = e.disk.manifest)
    (hnext : e.nextSstId ≤ e'.nextSstId)
    (hids : e'.state.memtables.map MemTable.id = e.state.memtables.map MemTable.id) :
    e'.Replays options r where
  manifest := by
    rw [hmanifest]
    exact h.manifest
  levels := h.levels
  flushed := h.flushed
  flushed_lt id hid := (h.flushed_lt id hid).trans_le hnext
  unflushed hwal := (h.unflushed hwal).trans hids.symm

omit [Platform] in
/-- One more record is replayed last. -/
theorem Replays.manifest_snoc {rec : ManifestRecord} (h : e.Replays options r)
    (hrec : r.record options.compactionOptions rec = .ok r')
    (hmanifest : e'.disk.manifest = e.disk.manifest.map (· ++ [rec])) :
    ∃ recs, e'.disk.manifest = some recs ∧
      (Replay.init options).records options.compactionOptions recs = .ok r' := by
  obtain ⟨recs, hrecs, hreplay⟩ := h.manifest
  refine ⟨recs ++ [rec], by rw [hmanifest, hrecs]; rfl, ?_⟩
  rw [Replay.records_append, hreplay]
  change r.records options.compactionOptions [rec] = _
  rw [Replay.records, hrec]
  rfl

omit [Platform] in
theorem Replays.freeze {m : MemTable} (h : e.Replays options r) (hfroze : Froze e e' m) :
    ∃ r', e'.Replays options r' ∧ r'.flushedMemtables = r.flushedMemtables := by
  refine ⟨{ r with
    nextSstId := max r.nextSstId (e.nextSstId + 1)
    allMemtables := e.nextSstId :: r.allMemtables },
    ⟨h.manifest_snoc rfl hfroze.manifest, h.levels, h.flushed, fun id hid => ?_, fun hwal => ?_⟩, rfl⟩
  · rw [hfroze.nextSstId]
    exact (h.flushed_lt id hid).trans (Nat.lt_succ_self _)
  · have hnew : e.nextSstId ∉ r.flushedMemtables := fun hmem => lt_irrefl _ (h.flushed_lt _ hmem)
    have hmemtables : e'.state.memtables.map MemTable.id =
        e.nextSstId :: e.state.memtables.map MemTable.id := by
      unfold LsmStorageState.memtables
      rw [hfroze.state, ← hfroze.id]
      rfl
    rw [hmemtables, ← h.unflushed hwal]
    exact List.filter_cons_of_pos (decide_eq_true hnew)

theorem Replays.flush {m : MemTable} {builder : SsTableBuilder} (h : e.Replays options r)
    (hflushed : Flushed e e' m builder) (hlaid : e.Laid options) :
    ∃ r', e'.Replays options r' ∧ r'.flushedMemtables = m.id :: r.flushedMemtables := by
  have hmem : m.id ∈ e.state.memtables.map MemTable.id := by
    rw [hflushed.memtables, List.map_append]
    exact List.mem_append_right _ (List.mem_singleton_self _)
  refine ⟨{ r with
    nextSstId := max r.nextSstId (m.id + 1)
    state := { r.state with l0Sstables := m.id :: r.state.l0Sstables }
    flushedMemtables := m.id :: r.flushedMemtables },
    ⟨h.manifest_snoc rfl hflushed.manifest, h.levels, congrArg _ h.flushed, ?_, fun hwal => ?_⟩, rfl⟩
  · rw [hflushed.nextSstId]
    exact List.forall_mem_cons.mpr ⟨hlaid.ids _ (List.mem_append_left _ hmem), h.flushed_lt⟩
  · have hunflushed := h.unflushed hwal
    have hnodup : (e.state.memtables.map MemTable.id).Nodup := (List.nodup_append.mp hlaid.nodup).1
    rw [hflushed.memtables, List.map_append] at hunflushed hnodup
    have hnot : ∀ id ∈ e'.state.memtables.map MemTable.id, id ≠ m.id := fun id hid =>
      (List.nodup_append.mp hnodup).2.2 id hid m.id (List.mem_singleton_self _)
    change r.allMemtables.filter (fun id => id ∉ m.id :: r.flushedMemtables) = _
    have hfilter : r.allMemtables.filter (fun id => id ∉ m.id :: r.flushedMemtables) =
        r.unflushed.filter fun id => id ≠ m.id := by
      unfold Replay.unflushed
      rw [List.filter_filter]
      refine List.filter_congr fun id _ => ?_
      simp [not_or]
    rw [hfilter, hunflushed, List.filter_append, List.filter_eq_self.mpr fun id hid => by
      simpa using hnot id hid]
    simp

/-- The task has no input. -/
def Op.Idle (e : LsmStorageInner) (op : Op) : Prop := ∀ task, op.Runs e task → task.inputIds = []

/-- Every flushed table is still listed, or one of them is gone for ever. -/
structure Chronicled (options : LsmStorageOptions) (idle : Prop) (e : LsmStorageInner) (r : Replay) :
    Prop where
  replays : e.Replays options r
  kept : idle → r.flushedMemtables.Perm e.state.listedIds
  lost : ¬idle → ∃ id ∈ r.flushedMemtables, id ∉ e.state.ids

variable {idle : Prop}

omit [Platform] in
/-- A step that lists no other table and does not hand out an old id. -/
theorem Chronicled.congr (h : e.Chronicled options idle r) (hreplays : e'.Replays options r')
    (hflushed : r'.flushedMemtables = r.flushedMemtables)
    (hlisted : e'.state.listedIds = e.state.listedIds)
    (hids : ∀ id ∈ e'.state.ids, id ∈ e.state.ids ∨ e.nextSstId ≤ id) :
    e'.Chronicled options idle r' where
  replays := hreplays
  kept hidle := by
    rw [hflushed, hlisted]
    exact h.kept hidle
  lost hidle := by
    obtain ⟨id, hid, hgone⟩ := h.lost hidle
    refine ⟨id, by rwa [hflushed], fun hmem => ?_⟩
    exact (hids id hmem).elim hgone fun hle => absurd (h.replays.flushed_lt id hid) (not_lt.mpr hle)

omit [Platform] in
theorem Chronicled.freeze {m : MemTable} (h : e.Chronicled options idle r) (hfroze : Froze e e' m) :
    ∃ r', e'.Chronicled options idle r' := by
  obtain ⟨r', hreplays, hflushed⟩ := h.replays.freeze hfroze
  refine ⟨r', h.congr hreplays hflushed (by rw [hfroze.state]; rfl) fun id hid => ?_⟩
  rw [hfroze.ids_eq] at hid
  exact (List.mem_cons.mp hid).elim (fun heq => Or.inr heq.ge) Or.inl

theorem Chronicled.writeBatch {batch : List WriteBatchRecord} (h : e.Chronicled options idle r)
    (hstep : Step e (.writeBatch batch) e') : ∃ r', e'.Chronicled options idle r' := by
  obtain ⟨ts, d, e₁, -, hlogged, hfreeze, rfl⟩ := writeBatch_ok hstep
  have hmemtables := memtable_ids_afterPut e (batch.map (WriteBatchRecord.entry ts)) d
  have hput : (e.afterPut (batch.map (WriteBatchRecord.entry ts)) d).Chronicled options idle r := by
    refine h.congr (h.replays.congr hlogged.manifest le_rfl hmemtables) rfl rfl fun id hid => Or.inl ?_
    unfold LsmStorageState.ids at hid ⊢
    rwa [hmemtables] at hid
  rcases tryFreeze_ok hfreeze with rfl | ⟨-, m, hfroze⟩
  · exact ⟨r, ⟨hput.replays.manifest, hput.replays.levels, hput.replays.flushed,
      hput.replays.flushed_lt, hput.replays.unflushed⟩, hput.kept, hput.lost⟩
  · obtain ⟨r', h'⟩ := hput.freeze hfroze
    exact ⟨r', ⟨h'.replays.manifest, h'.replays.levels, h'.replays.flushed,
      h'.replays.flushed_lt, h'.replays.unflushed⟩, h'.kept, h'.lost⟩

theorem Chronicled.flush {m : MemTable} {builder : SsTableBuilder} (h : e.Chronicled options idle r)
    (hflushed : Flushed e e' m builder) (hlaid : e.Laid options) :
    ∃ r', e'.Chronicled options idle r' := by
  obtain ⟨r', hreplays, heq⟩ := h.replays.flush hflushed hlaid
  refine ⟨r', hreplays, fun hidle => ?_, fun hidle => ?_⟩
  · rw [heq]
    exact ((h.kept hidle).cons m.id).trans hflushed.listed.symm
  · obtain ⟨id, hid, hgone⟩ := h.lost hidle
    refine ⟨id, ?_, fun hmem => hgone (hflushed.ids_perm.mem_iff.mp hmem)⟩
    rw [heq]
    exact List.mem_cons_of_mem _ hid

/-- **A compaction records nothing**: its inputs are still in the manifest. -/
theorem Chronicled.swap {ssts : List SsTable} {cs : List (List Entry)}
    (h : e.Chronicled options idle r) (hs : e.Settled options contents)
    (hrep : Replaced e e' task ssts cs) (hswap : Swapped e e' task ssts) :
    e'.Chronicled options (idle ∧ task.inputIds = []) r := by
  have hnext : e.nextSstId ≤ e'.nextSstId := by
    rw [hrep.nextSstId]
    exact Nat.le_add_right _ _
  have hnew : ∀ id ∈ ssts.map SsTable.id, e.nextSstId ≤ id := by
    intro id hid
    rw [hrep.ids] at hid
    exact List.left_le_of_mem_range' hid
  have hmem : ∀ {id}, id ∈ e'.state.ids → id < e.nextSstId →
      id ∈ e.state.memtables.map MemTable.id ∨ id ∈ e.state.listedIds ∧ id ∉ task.inputIds := by
    intro id hid hlt
    unfold LsmStorageState.ids at hid
    rw [hrep.memtables] at hid
    refine (List.mem_append.mp hid).imp_right fun hid => ?_
    rcases List.mem_append.mp (hrep.listed.mem_iff.mp hid) with hid | hid
    · rwa [List.mem_filter, decide_eq_true_iff] at hid
    · exact absurd hlt (not_lt.mpr (hnew id hid))
  refine ⟨h.replays.congr hswap.manifest hnext (by rw [hrep.memtables]), ?_, fun hlost => ?_⟩
  · rintro ⟨hidle, hnil⟩
    -- nothing in, nothing out
    have hssts : ssts = [] := by
      have hunion : unionAll (task.runs contents) = [] := by
        refine List.eq_nil_iff_forall_not_mem.mpr fun x hx => ?_
        obtain ⟨id, hid, -⟩ := (mem_union hrep.taken hrep.inputs hs.steady.state).mp hx
        rw [hnil] at hid
        cases hid
      have hcs := hrep.chunks_eq hs.steady.state
      rw [hunion] at hcs
      have hids := hrep.ids
      rw [hcs] at hids
      exact List.map_eq_nil_iff.mp hids
    refine (h.kept hidle).trans (List.Perm.symm ?_)
    have hlisted := hrep.listed
    rw [hnil, hssts] at hlisted
    simpa using hlisted
  · by_cases hidle : idle
    · -- the first input
      obtain ⟨id, hid⟩ := List.exists_mem_of_ne_nil _ fun hnil => hlost ⟨hidle, hnil⟩
      have hlisted := hrep.inputs.subset hid
      refine ⟨id, (h.kept hidle).mem_iff.mpr hlisted, fun hgone => ?_⟩
      rcases hmem hgone (hs.laid.ids id (List.mem_append_right _ hlisted)) with hin | ⟨-, hout⟩
      · exact (List.nodup_append.mp hs.laid.nodup).2.2 id hin id hlisted rfl
      · exact hout hid
    · obtain ⟨id, hid, hgone⟩ := h.lost hidle
      refine ⟨id, hid, fun hback => hgone ?_⟩
      rcases hmem hback (h.replays.flushed_lt id hid) with hin | ⟨hin, -⟩
      · exact List.mem_append_left _ hin
      · exact List.mem_append_right _ hin

/-! ## Opening -/

/-- Opening succeeds when memtables and tables can be read. -/
theorem openStore_reliable (hd : d.Reliable) {recs : List ManifestRecord}
    (hmanifest : d.manifest = some recs)
    (hreplay : (Replay.init options).records options.compactionOptions recs = .ok r)
    (hmemtables : ∀ d₁, d.Like d₁ → d₁.Reliable → ∃ s d₂,
      (recoverMemtables r.state options.enableWal r.unflushed).exec d₁ = (.ok s, d₂) ∧
        d₁.Like d₂ ∧ d₂.Reliable)
    (htables : ∀ s d₁ d₂, d.Like d₁ →
      (recoverMemtables r.state options.enableWal r.unflushed).exec d₁ = (.ok s, d₂) →
        d₂.Reliable → ∃ m d', (openTables s.sstables s.listedIds).exec d₂ = (.ok m, d')) :
    ∃ e' d', (openStore options).exec d = (.ok e', d') := by
  obtain ⟨d₁, hsys, hlike₁, hd₁⟩ := hd.passes
  obtain ⟨d₂, hsys', hlike₂, hd₂⟩ := hd₁.passes
  have hrecover : Manifest.recover.exec d₁ = (.ok recs, d₂) := by
    unfold Manifest.recover
    rw [Effect.exec_bind_of_ok hsys', Effect.exec_get_bind, hlike₂.manifest, hlike₁.manifest, hmanifest]
    rfl
  obtain ⟨s, d₃, hs, -, hd₃⟩ := hmemtables d₂ (hlike₁.trans hlike₂) hd₂
  obtain ⟨m, d₄, hm⟩ := htables s d₂ d₃ (hlike₁.trans hlike₂) hs hd₃
  have hopen : (openStore options).exec d = (.ok ⟨{ s with sstables := m }, d₄, r.nextSstId,
      (seenStamps { s with sstables := m }).foldr max 0, options⟩, d₄) := by
    unfold openStore
    rw [Effect.exec_bind_of_ok hsys, Effect.exec_get_bind]
    simp only [hlike₁.manifest, hmanifest]
    rw [Effect.exec_bind_of_ok hrecover, hreplay, Effect.exec_lift_bind, Effect.exec_bind_of_ok hs,
      Effect.exec_bind_of_ok hm, recoveredTs_eq, Effect.exec_lift_bind, Effect.exec_get_bind]
    rfl
  exact ⟨_, _, hopen⟩

/-! ## The run -/

theorem Fresh.chronicled (hfresh : Fresh options e) (hidle : idle) :
    e.Logs options ∧ ∃ r, e.Chronicled options idle r := by
  obtain ⟨m, hnew⟩ := hfresh.isNew
  have hmemtables : e.state.memtables = [m] := by
    rw [hnew.state]
    rfl
  have hlisted : e.state.listedIds = [] := by
    rw [hnew.state]
    exact listedIds_create options m
  have hchron : ∀ r : Replay, e.Replays options r → r.flushedMemtables = [] →
      e.Chronicled options idle r := fun r hreplays hnil =>
    ⟨hreplays, fun _ => by rw [hnil, hlisted], fun h => absurd hidle h⟩
  have hmanifest := hnew.manifest
  have hwals := hnew.wals
  have hlog := hnew.wal
  refine ⟨fun hwal m' hm' => ?_, ?_⟩
  · rw [hmemtables, List.mem_singleton] at hm'
    subst hm'
    rw [if_pos hwal] at hwals hlog
    refine ⟨by rw [hlog, hnew.id], [], ?_, by simp, hnew.empty⟩
    rw [hwals, hnew.id, AList.lookup_insert]
    rfl
  · cases hwal : options.enableWal with
    | false =>
      rw [hwal, if_neg Bool.false_ne_true] at hmanifest
      refine ⟨Replay.init options, hchron _ ⟨⟨_, hmanifest, rfl⟩, rfl, rfl, ?_, fun h => ?_⟩ rfl⟩
      · rintro id ⟨⟩
      · rw [hwal] at h
        cases h
    | true =>
      rw [hwal, if_pos rfl] at hmanifest
      refine ⟨{ Replay.init options with nextSstId := max 0 1, allMemtables := [0] },
        hchron _ ⟨⟨_, hmanifest, rfl⟩, rfl, rfl, ?_, fun _ => ?_⟩ rfl⟩
      · rintro id ⟨⟩
      · rw [hmemtables, List.map_singleton, hnew.id]
        rfl

/-- **One call** records what it freezes and flushes, and nothing of a compaction. -/
theorem Chronicled.step (h : e.Chronicled options idle r) (hs : e.Settled options contents)
    (hlogs : e.Logs options) (hfits : op.Fits) (hstep : Step e op e') :
    e'.Logs options ∧ ∃ r', e'.Chronicled options (idle ∧ op.Idle e) r' := by
  have hruns : ∀ task, op.Runs e task → (∀ task', op.Runs e task' → task' = task) →
      e'.Logs options ∧ ∃ r', e'.Chronicled options (idle ∧ op.Idle e) r' := by
    intro task hruns hunique
    obtain ⟨ssts, cs, hrep, hswap, -⟩ := hs.replaced hruns hstep
    have hidle : op.Idle e ↔ task.inputIds = [] :=
      ⟨fun h => h task hruns, fun h task' htask' => by rw [hunique task' htask', h]⟩
    rw [propext hidle]
    exact ⟨hlogs.congr hswap.wals (by rw [hrep.memtables]; exact List.Subset.refl _), r,
      h.swap hs hrep hswap⟩
  have hquiet : op.Idle e → (e'.Logs options ∧ ∃ r', e'.Chronicled options idle r') →
      e'.Logs options ∧ ∃ r', e'.Chronicled options (idle ∧ op.Idle e) r' := by
    intro hidle hall
    rwa [propext (and_iff_left hidle)]
  have hlaid := hs.laid
  cases op with
  | writeBatch batch =>
    exact hquiet (fun _ => False.elim) ⟨hlogs.writeBatch hlaid hfits hstep, h.writeBatch hstep⟩
  | freeze =>
    obtain ⟨m, hfroze⟩ := forceFreezeMemtable_ok hstep
    exact hquiet (fun _ => False.elim) ⟨hlogs.freeze hfroze hlaid.opts, h.freeze hfroze⟩
  | flush =>
    refine hquiet (fun _ => False.elim) ?_
    rcases forceFlushNextImmMemtable_ok hstep with ⟨-, rfl⟩ | ⟨m, builder, hflushed⟩
    · exact ⟨hlogs, r, h⟩
    · refine ⟨hlogs.congr hflushed.wals ?_, h.flush hflushed hlaid⟩
      rw [hflushed.memtables]
      exact List.subset_append_left _ _
  | compact =>
    rcases triggerCompaction_ok hstep with ⟨hnone, rfl⟩ | ⟨task, output, s, removed, hcompacted⟩
    · refine hquiet (fun task (htask : _ = _) => ?_) ⟨hlogs, r, h⟩
      rw [hnone] at htask
      cases htask
    · refine hruns task hcompacted.generated fun task' (htask' : _ = _) => ?_
      exact Option.some.inj (Except.ok.inj (htask'.symm.trans hcompacted.generated))
  | fullCompact =>
    obtain ⟨level₁, newSsts, hcompacted⟩ := forceFullCompaction_ok hstep
    refine hruns _ ⟨level₁, hcompacted.level, rfl⟩ ?_
    rintro _ ⟨level, hlevel, rfl⟩
    obtain rfl := Option.some.inj (hlevel.symm.trans hcompacted.level)
    rfl

theorem RunOf.chronicled {C : LsmStorageInner → Op → Prop} (hblock : options.blockSize ≤ 65535)
    (hfresh : Fresh options e₀) (hC : ∀ e op, C e op → op.Fits) (hrun : RunOf C e₀ ops e) :
    ∃ contents r, e.Housed options contents ∧ e.Logs options ∧
      e.Chronicled options (RunOf (fun e op => C e op ∧ op.Idle e) e₀ ops e) r := by
  induction hrun with
  | nil =>
    obtain ⟨hlogs, r, hchron⟩ := hfresh.chronicled (show RunOf _ e₀ [] e₀ from .nil)
    exact ⟨_, r, hfresh.housed hblock, hlogs, hchron⟩
  | @snoc ops op e e' hrun hstep ih =>
    obtain ⟨contents, r, h, hlogs, hchron⟩ := ih
    obtain ⟨hlogs', r', hchron'⟩ := hchron.step h.settled hlogs (hC _ _ hstep.1) hstep.2
    obtain ⟨contents', h', -⟩ := h.step (hC _ _ hstep.1) hstep.2
    refine ⟨contents', r', h', hlogs', ?_⟩
    -- an idle run is an idle run and an idle call
    have hidle : RunOf (fun e op => C e op ∧ op.Idle e) e₀ (ops ++ [op]) e' ↔
        RunOf (fun e op => C e op ∧ op.Idle e) e₀ ops e ∧ op.Idle e := by
      refine ⟨fun hall => ?_, fun hall => hall.1.snoc ⟨⟨hstep.1, hall.2⟩, hstep.2⟩⟩
      obtain ⟨t, ht, ⟨-, hlast⟩, -⟩ := hall.exists_last
      have htC : RunOf C e₀ ops t := ht.mono fun _ _ _ h => ⟨h.1.1, h.2⟩
      obtain rfl := htC.unique (fun _ _ _ _ h h' => h.2.unique h'.2) hrun
      exact ⟨ht, hlast⟩
    rw [propext hidle]
    exact hchron'

/-! ## Reopening -/

/-- What an opened directory has of the engine that left it. -/
structure Reopened (options : LsmStorageOptions) (e e' : LsmStorageInner) : Prop where
  l0Sstables : e'.state.l0Sstables.Perm e.state.listedIds
  levels : e'.state.levels = initialLevels options.compactionOptions
  tables : ∀ id ∈ e.state.listedIds, ∃ file t, e.disk.ssts.lookup id = some file ∧
    SsTable.openFile id file = .ok t ∧ e'.state.sstables.lookup id = some t
  listed_of_lookup : ∀ id t, e'.state.sstables.lookup id = some t → id ∈ e.state.listedIds
  logged : options.enableWal = true → List.Forall₂ SameMemTable e.state.memtables e'.state.memtables
  unlogged : options.enableWal = false → e'.state.memtables = [MemTable.create 0]
  latestCommitTs : e'.latestCommitTs = (seenStamps e'.state).foldr max 0

/-- **Opening finds what was left**, and has failed when a flushed table is gone. -/
theorem Chronicled.reopened (h : e.Chronicled options idle r) (hhoused : e.Housed options contents)
    (hlogs : e.Logs options) (hlike : e.disk.Like d)
    (hopen : (openStore options).exec d = (.ok e', d')) : idle ∧ Reopened options e e' := by
  obtain ⟨recs, hrecs, hreplay⟩ := h.replays.manifest
  rw [← hlike.manifest] at hrecs
  obtain ⟨r', s, d₁, d₂, sstables, hreplay', -, hwals, hssts, hmemtables, htables, rfl⟩ :=
    openStore_some hrecs hopen
  obtain rfl := Except.ok.inj (hreplay.symm.trans hreplay')
  have hframe := Replay.records_frame hreplay
  have himms : r.state.immMemtables = [] := by
    rw [hframe]
    rfl
  obtain ⟨hsame, hlike₂⟩ := recoverMemtables_same h.replays.unflushed
    (fun hwal m hm => (hlogs hwal m hm).congr (by rw [hwals, hlike.wals])) himms hmemtables
  have hl0 : s.l0Sstables = r.flushedMemtables := by
    rw [hsame.frame]
    exact h.replays.flushed
  have hlevels : s.levels = initialLevels options.compactionOptions := by
    rw [hsame.frame]
    exact h.replays.levels
  obtain ⟨hother, hall⟩ := openTables_all htables
  have hfiles : ∀ id ∈ r.flushedMemtables, ∃ file t, e.disk.ssts.lookup id = some file ∧
      SsTable.openFile id file = .ok t ∧ sstables.lookup id = some t := by
    intro id hid
    have hmem : id ∈ s.listedIds := mem_listedIds.mpr (Or.inl (by rw [hl0]; exact hid))
    rw [← hlike.ssts, ← hssts, ← hlike₂.ssts]
    exact hall id hmem
  have hidle : idle := by
    by_contra hlost
    obtain ⟨id, hid, hgone⟩ := h.lost hlost
    obtain ⟨file, -, hfile, -⟩ := hfiles id hid
    refine hgone (List.mem_append_right _ ((hhoused.listed id).mp ?_))
    have hthere := hhoused.files id
    rw [hfile] at hthere
    rw [← Option.isSome_map (f := SsTable.file), ← hthere]
    rfl
  have hperm := h.kept hidle
  refine ⟨hidle, by rw [← hl0] at hperm; exact hperm, hlevels, fun id hid => ?_, fun id t ht => ?_,
    hsame.logged, fun hwal => ?_, rfl⟩
  · exact hfiles id (hperm.mem_iff.mpr hid)
  · by_contra hnot
    have hempty : s.sstables = ∅ := by
      rw [hsame.frame, hframe]
      rfl
    have hunlisted : id ∉ s.listedIds := by
      intro hmem
      rcases mem_listedIds.mp hmem with hin | ⟨level, hlevel, hin⟩
      · rw [hl0] at hin
        exact hnot (hperm.mem_iff.mp hin)
      · rw [hlevels] at hlevel
        rw [eq_nil_of_mem_initialLevels hlevel] at hin
        cases hin
    rw [hother id hunlisted, hempty] at ht
    cases ht
  · refine (hsame.unlogged hwal).trans ?_
    rw [hframe]
    rfl

/-- Opening succeeds when no table was replaced. -/
theorem Chronicled.opens (h : e.Chronicled options idle r) (hidle : idle)
    (hhoused : e.Housed options contents) (hnone : e.NoEmptyTable) (hlogs : e.Logs options)
    (hsize : ∀ id t, e.state.sstables.lookup id = some t → t.file.length < 2 ^ 32)
    (hlike : e.disk.Like d) (hd : d.Reliable) :
    ∃ e' d', (openStore options).exec d = (.ok e', d') := by
  obtain ⟨recs, hrecs, hreplay⟩ := h.replays.manifest
  have hlogs' : ∀ {d₁}, d.Like d₁ → options.enableWal = true → ∀ m ∈ e.state.memtables,
      LoggedAt m d₁ := fun hlike₁ hwal m hm =>
    (hlogs hwal m hm).congr (by rw [hlike₁.wals, hlike.wals])
  have himms : r.state.immMemtables = [] := by
    rw [Replay.records_frame hreplay]
    rfl
  refine openStore_reliable hd (hlike.manifest.trans hrecs) hreplay
    (fun d₁ hlike₁ hd₁ => recoverMemtables_reliable r.state h.replays.unflushed (hlogs' hlike₁) hd₁)
    fun s d₁ d₂ hlike₁ hs hd₂ => openTables_reliable hd₂ _ fun id hid => ?_
  obtain ⟨hsame, hlike₂⟩ := recoverMemtables_same h.replays.unflushed (hlogs' hlike₁) himms hs
  have hflushed : id ∈ r.flushedMemtables := by
    rw [hsame.frame] at hid
    rcases mem_listedIds.mp hid with hid | ⟨level, hlevel, hid⟩
    · rw [← h.replays.flushed]
      exact hid
    · change level ∈ r.state.levels at hlevel
      rw [h.replays.levels] at hlevel
      rw [eq_nil_of_mem_initialLevels hlevel] at hid
      cases hid
  have hlisted := (h.kept hidle).mem_iff.mp hflushed
  obtain ⟨t, ht⟩ := Option.isSome_iff_exists.mp ((hhoused.listed id).mpr hlisted)
  have hsound := hhoused.settled.sound hnone
  have hmem : contents id ∈ e.state.containers contents :=
    List.mem_append_right _ (List.mem_map_of_mem hlisted)
  obtain ⟨u, hu, -⟩ := SsTable.openFile_built hsound.blockSize (hhoused.built id t ht)
    (hsound.state.table_ne_nil hlisted) (hhoused.settled.steady.state.containers_sorted _ hmem)
    (hhoused.settled.steady.state.fits _ hmem) (hsize id t ht)
  refine ⟨t.file, u, ?_, hu⟩
  rw [hlike₂.ssts, hlike₁.ssts, hlike.ssts, hhoused.files, ht]
  rfl

/-- **When the directory of a run opens again**: exactly when no compaction of the run had an input. -/
theorem reopens_iff (hblock : options.blockSize ≤ 65535) (hfresh : Fresh options e₀)
    (hrun : RunOf (fun e op => op.KeepsReadable e) e₀ ops e)
    (hsize : ∀ id t, e.state.sstables.lookup id = some t → t.file.length < 2 ^ 32)
    (hlike : e.disk.Like d) (hd : d.Reliable) :
    (∃ e' d', (openStore options).exec d = (.ok e', d')) ↔
      RunOf (fun e op => op.KeepsReadable e ∧ op.Idle e) e₀ ops e := by
  obtain ⟨contents, r, h, hlogs, hchron⟩ :=
    RunOf.chronicled hblock hfresh (fun _ _ h => h.2.1.fits) hrun
  constructor
  · rintro ⟨e', d', hopen⟩
    exact (hchron.reopened h hlogs hlike hopen).1
  · intro hidle
    exact hchron.opens hidle h (RunOf.readable hrun hfresh.noEmptyTable) hlogs hsize hlike hd

/-! ## Reading the opened store -/

end LsmStorageInner

namespace LsmStorageState

variable [Platform] {s s' : LsmStorageState MemTable} {contents : ℕ → List Entry} {r r' : UInt64}

/-- What the directory keeps of a state: without logs the memtables are lost. -/
def durable (s : LsmStorageState MemTable) (enableWal : Bool) : LsmStorageState MemTable :=
  if enableWal then s else { s with memtable := MemTable.create 0, immMemtables := [] }

theorem WellFormed.durable (h : s.WellFormed contents) (enableWal : Bool) :
    (s.durable enableWal).Readable contents := by
  cases enableWal with
  | true => exact h.readable
  | false =>
    refine ⟨⟨?_, h.holds.tables, h.holds.valid⟩, h.bloom, ?_⟩
    · rintro m hm x hx
      rw [show m = MemTable.create 0 from List.mem_singleton.mp hm] at hx
      cases hx
    · refine List.pairwise_cons.mpr ⟨fun l _ => ?_,
        h.disjoint.sublist (List.sublist_append_right _ _)⟩
      rintro k ⟨⟩

/-- Two readers above everything that is stored find the same. -/
theorem Readable.getWithTs_congr (h : s.Readable contents)
    (hr : ∀ x, s.HasVersion contents x → x.1.ts ≤ r) (hr' : ∀ x, s.HasVersion contents x → x.1.ts ≤ r')
    (k : Bytes) : s.getWithTs k r = s.getWithTs k r' :=
  (h.getWithTs_eq_iff h).mpr fun _ _ => Newest.reader_congr hr hr'

end LsmStorageState

namespace LsmStorageInner

open LsmStorageState

variable [Platform] {options : LsmStorageOptions} {e₀ e e' : LsmStorageInner} {d d' : Disk}
  {contents : ℕ → List Entry} {ops : List Op}

omit [Platform] in
theorem sameMemTables {ms ms' : List MemTable} (h : List.Forall₂ SameMemTable ms ms') :
    ms'.map (fun m => m.map.entries) = ms.map fun m => m.map.entries := by
  induction h with
  | nil => rfl
  | cons h _ ih => rw [List.map_cons, List.map_cons, ih, h.1]

theorem Reopened.listed (h : Reopened options e e') : e'.state.listedIds.Perm e.state.listedIds := by
  have hlevels : (e'.state.levels.map Prod.snd).flatten = [] := by
    rw [h.levels, List.flatten_eq_nil_iff]
    rintro l hl
    obtain ⟨level, hlevel, rfl⟩ := List.mem_map.mp hl
    exact eq_nil_of_mem_initialLevels hlevel
  unfold LsmStorageState.listedIds
  rw [hlevels, List.append_nil]
  exact h.l0Sstables

/-- The containers are those that the directory has kept. -/
theorem Reopened.containers (h : Reopened options e e') (contents : ℕ → List Entry) :
    (e'.state.containers contents).Perm ((e.state.durable options.enableWal).containers contents) := by
  have hlisted : (e.state.durable options.enableWal).listedIds = e.state.listedIds := by
    unfold durable
    split <;> rfl
  unfold LsmStorageState.containers
  rw [hlisted]
  refine List.Perm.append (List.Perm.of_eq ?_) (h.listed.map contents)
  unfold durable
  cases hwal : options.enableWal with
  | true => exact sameMemTables (h.logged hwal)
  | false =>
    rw [h.unlogged hwal]
    rfl

/-- **The opened store is readable**, with the contents of the old one. -/
theorem Reopened.readable (h : Reopened options e e') (hhoused : e.Housed options contents)
    (hnone : e.NoEmptyTable)
    (hsize : ∀ id t, e.state.sstables.lookup id = some t → t.file.length < 2 ^ 32) :
    e'.state.Readable contents := by
  have hsound := hhoused.settled.sound hnone
  have hdurable := hsound.state.durable options.enableWal
  have hopened : ∀ id ∈ e'.state.listedIds, ∃ u, e'.state.sstables.lookup id = some u ∧
      u.HasEntries (contents id) ∧ u.BloomBuiltFrom (contents id) := by
    intro id hid
    have hlisted := h.listed.mem_iff.mp hid
    obtain ⟨file, u, hfile, hopen, hlookup⟩ := h.tables id hlisted
    obtain ⟨t, ht⟩ := Option.isSome_iff_exists.mp ((hhoused.listed id).mpr hlisted)
    rw [hhoused.files, ht] at hfile
    obtain rfl := Option.some.inj hfile
    have hmem : contents id ∈ e.state.containers contents :=
      List.mem_append_right _ (List.mem_map_of_mem hlisted)
    obtain ⟨u', hu', hent, hbloom, -⟩ := SsTable.openFile_built hsound.blockSize (hhoused.built id t ht)
      (hsound.state.table_ne_nil hlisted) (hhoused.settled.steady.state.containers_sorted _ hmem)
      (hhoused.settled.steady.state.fits _ hmem) (hsize id t ht)
    obtain rfl := Except.ok.inj (hopen.symm.trans hu')
    exact ⟨u, hlookup, hent, hbloom⟩
  refine ⟨⟨?_, fun id hid => ?_, ?_⟩, fun id hid t ht => ?_, ?_⟩
  · intro m hm x hx
    have hmem : m.map.entries ∈ (e.state.durable options.enableWal).containers contents :=
      (h.containers contents).mem_iff.mp (List.mem_append_left _ (List.mem_map_of_mem hm))
    obtain ⟨m', hm', heq⟩ | hlisted : (∃ m' ∈ (e.state.durable options.enableWal).memtables,
        m'.map.entries = m.map.entries) ∨ ∃ id ∈ e.state.listedIds, contents id = m.map.entries := by
      rcases List.mem_append.mp hmem with hmem | hmem
      · exact Or.inl (List.mem_map.mp hmem)
      · refine Or.inr ?_
        obtain ⟨id, hid, heq⟩ := List.mem_map.mp hmem
        refine ⟨id, ?_, heq⟩
        unfold durable at hid
        split at hid <;> exact hid
    · exact hdurable.holds.memtables m' hm' x (by rw [heq]; exact hx)
    · obtain ⟨id, hid, heq⟩ := hlisted
      rw [← heq] at hx
      exact (hsound.state.table_encodable hid hx).key_ne
  · obtain ⟨u, hu, hent, -⟩ := hopened id hid
    exact ⟨u, hu, hent⟩
  · intro level hlevel ssts hssts
    rw [h.levels] at hlevel
    rw [eq_nil_of_mem_initialLevels hlevel] at hssts
    cases hssts
    exact ⟨by simp, .nil⟩
  · obtain ⟨u, hu, -, hbloom⟩ := hopened id hid
    obtain rfl := Option.some.inj (hu.symm.trans ht)
    exact hbloom
  · exact hdurable.disjoint.perm (h.containers contents).symm

theorem Reopened.sameReads (h : Reopened options e e') (hhoused : e.Housed options contents)
    (hnone : e.NoEmptyTable)
    (hsize : ∀ id t, e.state.sstables.lookup id = some t → t.file.length < 2 ^ 32) :
    (e.state.durable options.enableWal).SameReads e'.state := by
  have hdurable := (hhoused.settled.sound hnone).state.durable options.enableWal
  refine (hdurable.sameReads_iff (h.readable hhoused hnone hsize)).mpr ?_
  have hversions : e'.state.HasVersion contents =
      (e.state.durable options.enableWal).HasVersion contents := by
    funext x
    unfold HasVersion
    simp only [(h.containers contents).mem_iff]
  rw [hversions]
  exact SeesSame.refl _

/-- A recovered timestamp that bounds what is stored is as good as the old one. -/
theorem Reopened.get_eq (h : Reopened options e e') (hhoused : e.Housed options contents)
    (hnone : e.NoEmptyTable)
    (hsize : ∀ id t, e.state.sstables.lookup id = some t → t.file.length < 2 ^ 32)
    (hstamps : ∀ x, e.state.Has x → x.1.ts ≤ e'.latestCommitTs) (k : Bytes) :
    e'.get k = (e.state.durable options.enableWal).getWithTs k e.latestCommitTs := by
  have hsteady := hhoused.settled.steady
  have hold : ∀ x, (e.state.durable options.enableWal).HasVersion contents x →
      e.state.HasVersion contents x := by
    rintro x ⟨l, hl, hx⟩
    unfold durable at hl
    split at hl
    · exact ⟨l, hl, hx⟩
    · rcases List.mem_cons.mp hl with rfl | hl
      · cases hx
      · exact ⟨l, List.mem_append_right _ hl, hx⟩
  rw [LsmStorageInner.get, (h.sameReads hhoused hnone hsize).1 k]
  exact ((hhoused.settled.sound hnone).state.durable options.enableWal).getWithTs_congr
    (fun x hx => hstamps x (hsteady.state.has_iff.mpr (hold x hx))) (fun x hx => hsteady.stamps x (hold x hx)) k

/-- **A store that is opened again reads as it was left**, at every timestamp: as the whole old state
with logs, as its tables without.  A `get` is the same when no stored timestamp is above the recovered
one. -/
theorem reopened_reads (hblock : options.blockSize ≤ 65535) (hfresh : Fresh options e₀)
    (hrun : RunOf (fun e op => op.KeepsReadable e) e₀ ops e)
    (hsize : ∀ id t, e.state.sstables.lookup id = some t → t.file.length < 2 ^ 32)
    (hlike : e.disk.Like d) (hopen : (openStore options).exec d = (.ok e', d')) :
    (e.state.durable options.enableWal).SameReads e'.state ∧
      ((∀ x, e.state.Has x → x.1.ts ≤ e'.latestCommitTs) →
        ∀ k, e'.get k = (e.state.durable options.enableWal).getWithTs k e.latestCommitTs) := by
  obtain ⟨contents, r, h, hlogs, hchron⟩ :=
    RunOf.chronicled hblock hfresh (fun _ _ h => h.2.1.fits) hrun
  have hnone := RunOf.readable hrun hfresh.noEmptyTable
  have hreopened := (hchron.reopened h hlogs hlike hopen).2
  exact ⟨hreopened.sameReads h hnone hsize, fun hstamps => hreopened.get_eq h hnone hsize hstamps⟩

end LsmStorageInner

section

attribute [local instance] shortKeyPlatform

namespace LsmStorageInner

theorem Op.Plain.idle {e : LsmStorageInner} {op : Op} (h : op.Plain e) : op.Idle e := by
  cases op with
  | writeBatch batch => exact fun _ => False.elim
  | freeze => exact fun _ => False.elim
  | flush => exact fun _ => False.elim
  | compact => exact h.elim
  | fullCompact => exact h.elim

/-- A run that leaves a table and a write that only its log holds, and the opened directory. -/
theorem exists_reopened : let options := { smallOptions with enableWal := true }
    ∃ e e' d', RunOf (fun e op => op.KeepsReadable e ∧ op.Idle e) (newStore options)
        (oneTable ++ [.writeBatch [.put [2] [9]]]) e ∧
      (∀ id t, e.state.sstables.lookup id = some t → t.file.length < 2 ^ 32) ∧ e.disk.Reliable ∧
      (openStore options).exec e.disk = (.ok e', d') ∧ e.latestCommitTs = 2 ∧ e'.latestCommitTs = 2 ∧
      e.get [1] = .ok (some [7]) ∧ e.get [2] = .ok (some [9]) ∧
      e.state.memtable.flushed.map (fun x => x.1.ts) = [2] := by
  intro options
  let ops : List Op := oneTable ++ [.writeBatch [.put [2] [9]]]
  let opened (e : LsmStorageInner) : Option UInt64 :=
    ((openStore options).exec e.disk).1.toOption.map fun e' => e'.latestCommitTs
  have hfinal : (afterCalls ops (newStore options)).map (fun e =>
      e.disk.faults.isEmpty && (e.state.sstables.entries.all fun p => p.2.file.length < 2 ^ 32) &&
        decide (e.latestCommitTs = 2 ∧ opened e = some 2 ∧ (e.get [1]).toOption = some (some [7]) ∧
          (e.get [2]).toOption = some (some [9]) ∧
          e.state.memtable.flushed.map (fun x => x.1.ts) = [2])) = some true := by
    decide +kernel
  obtain ⟨e, he, hsummary⟩ := Option.map_eq_some_iff.mp hfinal
  simp only [Bool.and_eq_true, decide_eq_true_eq, List.isEmpty_iff, List.all_eq_true] at hsummary
  obtain ⟨⟨hfaults, hsize⟩, hts, hopened, hget, hget', hstamps⟩ := hsummary
  have hrun : RunOf (fun e op => op.KeepsReadable e ∧ op.Idle e) (newStore options) ops e :=
    (run_plain_of_afterCalls he (by decide)).mono fun _ _ _ h => ⟨⟨h.1.keepsReadable.1, h.1.idle⟩, h.2⟩
  obtain ⟨e', hopen, hts'⟩ := Option.map_eq_some_iff.mp hopened
  refine ⟨e, e', _, hrun, fun id t ht => ?_, ?_, Prod.ext (eq_ok_of_toOption hopen) rfl,
    hts, hts', eq_ok_of_toOption hget, eq_ok_of_toOption hget', hstamps⟩
  · exact hsize ⟨id, t⟩ (AList.mem_lookup_iff.mp ht)
  · unfold Disk.Reliable
    rw [hfaults]
    exact List.forall_mem_nil _

theorem reopens_iff_small : ∃ (e e' : LsmStorageInner) (d' : Disk),
    e.latestCommitTs = 2 ∧
      (openStore { smallOptions with enableWal := true }).exec e.disk = (.ok e', d') := by
  obtain ⟨e, -, -, hrun, hsize, hdisk, -, hts, -⟩ := exists_reopened
  have hblock : ({ smallOptions with enableWal := true } : LsmStorageOptions).blockSize ≤ 65535 := by
    decide
  obtain ⟨e', d', hopen⟩ := (reopens_iff hblock (fresh_newStore _)
    (hrun.mono fun _ _ _ h => ⟨h.1.1, h.2⟩) hsize (Disk.Like.refl _) hdisk).mpr hrun
  exact ⟨e, e', d', hts, hopen⟩

theorem reopened_reads_small : ∃ (e e' : LsmStorageInner) (d' : Disk),
    (openStore { smallOptions with enableWal := true }).exec e.disk = (.ok e', d') ∧
      e'.get [1] = .ok (some [7]) ∧ e'.get [2] = .ok (some [9]) := by
  obtain ⟨e, e', d', hrun, hsize, -, hopen, hts, hts', hget, hget', -⟩ := exists_reopened
  have hreadable : RunOf (fun e op => op.KeepsReadable e) (newStore { smallOptions with enableWal := true })
      (oneTable ++ [.writeBatch [.put [2] [9]]]) e := hrun.mono fun _ _ _ h => ⟨h.1.1, h.2⟩
  obtain ⟨contents, h⟩ := RunOf.settled (by decide) (fresh_newStore _) (fun _ _ h => h.2.1.fits) hreadable
  have hreads := (reopened_reads (by decide) (fresh_newStore _) hreadable hsize (Disk.Like.refl _)
    hopen).2 ?_
  · exact ⟨e, e', d', hopen, (hreads [1]).trans hget, (hreads [2]).trans hget'⟩
  · intro x hx
    rw [hts', ← hts]
    exact h.steady.stamps x (h.steady.state.has_iff.mp hx)

end LsmStorageInner

end

end TinyLsm

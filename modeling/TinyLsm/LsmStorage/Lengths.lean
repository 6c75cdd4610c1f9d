import TinyLsm.LsmStorage.Batch
import TinyLsm.Table.Casts

/-!
# Lengths of accepted keys and values

`write_batch` checks no length.  `keepsLengths_iff` says when none of the lengths and offsets that
are written for a batch is truncated, in the log or in the table of its memtable, and with them when
the batch reads back: keys and values of at most 65535 bytes for the log, and for the table the
condition `TableFits` on the blocks.
-/

namespace TinyLsm

namespace Wal

/-- The casts of `put`. -/
def casts (key : Key) (value : Bytes) : List Cast := [⟨key.keyLen, 2⟩, ⟨value.length, 2⟩]

theorem casts_preserve_iff {e : Entry} : (∀ c ∈ casts e.1 e.2, c.Preserves) ↔ LengthsFit e := by
  simp only [casts, List.forall_mem_cons, Cast.preserves_iff]
  constructor
  · rintro ⟨hkey, hvalue, -⟩
    exact ⟨Nat.le_of_lt_succ hkey, Nat.le_of_lt_succ hvalue⟩
  · rintro ⟨hkey, hvalue⟩
    exact ⟨Nat.lt_succ_of_le hkey, Nat.lt_succ_of_le hvalue, by simp⟩

end Wal

namespace MemTable

/-- The casts of logging some entries. -/
def logCasts (m : MemTable) (data : List Entry) : List Cast :=
  match m.wal with
  | some _ => data.flatMap fun e => Wal.casts e.1 e.2
  | none => []

/-- The casts of flushing the memtable into a table. -/
def flushCasts [Platform] (m : MemTable) (blockSize : ℕ) : List Cast :=
  (SsTableBuilder.new blockSize).casts m.flushed

theorem logCasts_preserve_iff {m : MemTable} {data : List Entry} :
    (∀ c ∈ m.logCasts data, c.Preserves) ↔ (m.wal ≠ none → ∀ e ∈ data, LengthsFit e) := by
  unfold logCasts
  cases m.wal with
  | none => simp
  | some w =>
    rw [List.forall_mem_flatMap]
    constructor
    · exact fun h _ e he => Wal.casts_preserve_iff.mp (h e he)
    · exact fun h e he => Wal.casts_preserve_iff.mpr (h (Option.some_ne_none w) e he)

theorem flushCasts_preserve_iff [Platform] {m : MemTable} {blockSize : ℕ} :
    (∀ c ∈ m.flushCasts blockSize, c.Preserves) ↔ TableFits blockSize m.flushed :=
  SsTableBuilder.casts_preserve_iff fun _ he => key_ne_of_mem_flushed he

end MemTable

namespace LsmStorageInner

variable [Platform] {e e' : LsmStorageInner}

/-- The memtable that the batch `data` goes into, with what later batches put there. -/
def memtableWith (e : LsmStorageInner) (data later : List Entry) : MemTable :=
  (e.state.memtable.insertAll data).insertAll later

/-- No cast truncates when the batch `data` is logged by the call that leads from `e` to `e'`, and
when its memtable is flushed; the log and the table read back. -/
structure KeepsLengths (e e' : LsmStorageInner) (data later : List Entry) : Prop where
  log : ∀ c ∈ e.state.memtable.logCasts data, c.Preserves
  table : ∀ c ∈ (e.memtableWith data later).flushCasts e.options.blockSize, c.Preserves
  recovers : ∀ w old, e.state.memtable.wal = some w → e.disk.wals.lookup w.id = some old →
    ∃ bytes, e'.disk.wals.lookup w.id = some (old ++ bytes) ∧
      ∀ map, Wal.replay bytes.length bytes map = .ok (map.insertAll data)
  readsBack : (e.memtableWith data later).flushed ≠ [] → ∃ builder,
    (e.memtableWith data later).flush (SsTableBuilder.new e.options.blockSize) = .ok builder ∧
      builder.ReadsBack (e.memtableWith data later).flushed

/-- The call appends the records of the batch to the log. -/
theorem log_of_writeBatch {batch : List WriteBatchRecord} (h : Step e (.writeBatch batch) e')
    {w : Wal} {old : Bytes} (hwal : e.state.memtable.wal = some w)
    (hold : e.disk.wals.lookup w.id = some old) :
    e'.disk.wals.lookup w.id = some (old ++
      (batch.map (WriteBatchRecord.entry e'.latestCommitTs)).flatMap fun x => Wal.record x.1 x.2) := by
  obtain ⟨ts, d, e₁, -, hlogged, hfreeze, rfl⟩ := writeBatch_ok h
  have hlog := hlogged.wal_some w old hwal hold
  rcases tryFreeze_ok hfreeze with rfl | ⟨-, m, hfroze⟩
  · exact hlog
  · exact hfroze.lookup_wals hlog

/-- **Exactly when no length is truncated.** -/
theorem keepsLengths_iff {batch : List WriteBatchRecord} (h : Step e (.writeBatch batch) e')
    (later : List Entry) :
    KeepsLengths e e' (batch.map (WriteBatchRecord.entry e'.latestCommitTs)) later ↔
      (e.state.memtable.wal ≠ none →
        ∀ record ∈ batch, record.key.length ≤ 65535 ∧ record.value.length ≤ 65535) ∧
      TableFits e.options.blockSize
        (e.memtableWith (batch.map (WriteBatchRecord.entry e'.latestCommitTs)) later).flushed := by
  have hfits : (∀ x ∈ batch.map (WriteBatchRecord.entry e'.latestCommitTs), LengthsFit x) ↔
      ∀ record ∈ batch, record.key.length ≤ 65535 ∧ record.value.length ≤ 65535 := by
    rw [List.forall_mem_map]
    exact forall₂_congr fun record _ => ⟨fun hx => ⟨hx.key_le, hx.value_le⟩, fun hx => ⟨hx.1, hx.2⟩⟩
  rw [← MemTable.flushCasts_preserve_iff, ← hfits, ← MemTable.logCasts_preserve_iff]
  constructor
  · exact fun hkeeps => ⟨hkeeps.log, hkeeps.table⟩
  · rintro ⟨hlog, htable⟩
    refine ⟨hlog, htable, fun w old hwal hold => ⟨_, log_of_writeBatch h hwal hold, fun map => ?_⟩,
      fun hne => ?_⟩
    · have hrecords := MemTable.logCasts_preserve_iff.mp hlog (by rw [hwal]; exact Option.some_ne_none w)
      exact Wal.replay_records hrecords map (Wal.length_le_records _)
    · rw [MemTable.flush_eq_flushed]
      exact SsTableBuilder.readsBack_of_casts (fun _ he => MemTable.key_ne_of_mem_flushed he) hne
        ((SkipMap.sorted _).sublist (MemTable.flushed_sublist _)) htable

end LsmStorageInner

section

attribute [local instance] shortKeyPlatform

namespace LsmStorageInner

theorem keepsLengths_twoPuts : ∃ e', Step (newStore loggedOptions) (.writeBatch twoPuts) e' ∧
    KeepsLengths (newStore loggedOptions) e'
      (twoPuts.map (WriteBatchRecord.entry e'.latestCommitTs)) [] := by
  have hfinal : (afterCall (newStore loggedOptions) (.writeBatch twoPuts)).map (fun e' =>
      (e'.latestCommitTs, e'.state.memtable.flushed)) =
        some (1, [(⟨[1], 1⟩, [7]), (⟨[2], 1⟩, [8])]) := by
    decide +kernel
  obtain ⟨e', he', hsummary⟩ := Option.map_eq_some_iff.mp hfinal
  refine ⟨e', step_of_afterCall he', (keepsLengths_iff (step_of_afterCall he') []).mpr ⟨?_, ?_⟩⟩
  · intro _
    decide
  · have hflushed : ((newStore loggedOptions).memtableWith
        (twoPuts.map (WriteBatchRecord.entry e'.latestCommitTs)) []).flushed =
          [(⟨[1], 1⟩, [7]), (⟨[2], 1⟩, [8])] := by
      rw [(Prod.mk.inj hsummary).1]
      decide +kernel
    rw [hflushed]
    refine tableFits_of_le (by decide) ?_ (by decide +kernel) (by decide +kernel)
    intro x hx
    fin_cases hx <;> exact ⟨by simp, by simp, by simp⟩

/-- The store returns `Ok` for a put of any length below the size at which it freezes. -/
theorem exists_put {key value : Bytes} (h : key.length + 8 + value.length < 2 ^ 20) :
    ∃ e', Step (newStore loggedOptions) (.writeBatch [.put key value]) e' ∧
      e'.latestCommitTs = 1 := by
  let e₁ := (newStore loggedOptions).afterPut [WriteBatchRecord.entry 1 (.put key value)]
    { (newStore loggedOptions).disk with
      wals := AList.insert 0 ([] ++ Wal.record ⟨key, 1⟩ value) (AList.insert 0 [] ∅) }
  refine ⟨{ e₁ with latestCommitTs := 1 }, ?_, rfl⟩
  have hts : (liftM (nextTs (newStore loggedOptions).latestCommitTs) : EngineEffect UInt64).exec
      (newStore loggedOptions) = (.ok 1, newStore loggedOptions) := rfl
  have hput : (onMemtable (MemTable.putBatch [WriteBatchRecord.entry 1 (.put key value)])).exec
      (newStore loggedOptions) = (.ok (), e₁) := rfl
  have hfreeze : tryFreeze.exec e₁ = (.ok (), e₁) := by
    have hsize : ¬ e₁.state.memtable.approximateSize ≥ e₁.options.targetSstSize := by
      change ¬ 0 + (key.length + 8 + value.length) ≥ 2 ^ 20
      omega
    unfold tryFreeze
    rw [Effect.exec_get_bind, if_neg hsize]
    rfl
  unfold Step Op.call writeBatch
  rw [Effect.exec_get_bind, Effect.exec_bind_of_ok hts, List.map_singleton,
    Effect.exec_bind_of_ok hput, Effect.exec_bind_of_ok hfreeze]
  rfl

/-- One byte more than a key length can say. -/
def longKey : Bytes := List.replicate 65536 1

theorem length_longKey : longKey.length = 65536 := List.length_replicate

/-- The write is accepted, and the length of its key is logged as zero. -/
theorem long_key_truncated : ∃ e', Step (newStore loggedOptions) (.writeBatch [.put longKey [7]]) e' ∧
    (∃ c ∈ (newStore loggedOptions).state.memtable.logCasts
        ([.put longKey [7]].map (WriteBatchRecord.entry e'.latestCommitTs)),
      c.arg = 65536 ∧ c.arg % 256 ^ c.bytes = 0) ∧
    ¬ KeepsLengths (newStore loggedOptions) e'
      ([.put longKey [7]].map (WriteBatchRecord.entry e'.latestCommitTs)) [] := by
  have hlen := length_longKey
  obtain ⟨e', hstep, -⟩ := exists_put (show longKey.length + 8 + [7].length < 2 ^ 20 by
    rw [hlen]
    decide)
  have hcast : (⟨longKey.length, 2⟩ : Cast) ∈ (newStore loggedOptions).state.memtable.logCasts
      ([.put longKey [7]].map (WriteBatchRecord.entry e'.latestCommitTs)) := List.mem_cons_self
  refine ⟨e', hstep, ⟨_, hcast, hlen, by rw [hlen]; rfl⟩, fun hkeeps => ?_⟩
  have hlt := Cast.preserves_iff.mp (hkeeps.log _ hcast)
  rw [hlen] at hlt
  exact absurd hlt (by decide)

end LsmStorageInner

end

end TinyLsm

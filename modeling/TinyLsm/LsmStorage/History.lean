import TinyLsm.LsmStorage.Open
import TinyLsm.LsmStorage.Invariant

/-!
# The engine is a multi-version map

`History.get batches k` is what a map holds at `k` after some batches: the value of the last record
of `k`, unless it is a deletion.  Without compaction an engine `Represents` the batches that were
written to it, however they are spread over memtables and tables, and so a read at the commit
timestamp of batch `m` returns what the first `m` batches leave (`reads_history`).
-/

namespace TinyLsm

/-! ## The map -/

namespace History

/-- The last record of a key. -/
def last (batches : List (List WriteBatchRecord)) (k : Bytes) : Option Bytes :=
  ((batches.flatten.filter fun record => record.key = k).getLast?).map WriteBatchRecord.value

/-- The contents of the map; the empty value stands for a deletion. -/
def get (batches : List (List WriteBatchRecord)) (k : Bytes) : Option Bytes :=
  (last batches k).filter fun v => v ≠ []

theorem get_eq_some_iff {batches : List (List WriteBatchRecord)} {k v : Bytes} :
    get batches k = some v ↔ v ≠ [] ∧ last batches k = some v := by
  rw [get, Option.filter_eq_some_iff, and_comm, decide_eq_true_iff]

@[simp] theorem last_nil (k : Bytes) : last [] k = none := rfl

/-- A batch hides what was written before. -/
theorem last_concat (batches : List (List WriteBatchRecord)) (batch : List WriteBatchRecord)
    (k : Bytes) : last (batches ++ [batch]) k = (last [batch] k).or (last batches k) := by
  unfold last
  rw [List.flatten_append, List.filter_append, List.getLast?_append, Option.map_or]

end History

namespace LsmStorageInner

open LsmStorageState

variable [Platform] {options : LsmStorageOptions} {e₀ e e' : LsmStorageInner}
  {contents : ℕ → List Entry} {batches : List (List WriteBatchRecord)}

/-! ## What the engine represents -/

/-- The commit timestamp of the `m`-th batch. -/
def commitTs (m : ℕ) : UInt64 := UInt64.ofNat m

/-- The entry `x` was written by one of the batches, and by the last record of its key there. -/
def WrittenBy (batches : List (List WriteBatchRecord)) (x : Entry) : Prop :=
  ∃ i batch, batches[i]? = some batch ∧ x.1.ts = commitTs (i + 1) ∧
    History.last [batch] x.1.keyRef = some x.2

/-- The engine holds exactly what the batches wrote. -/
structure Represents (e : LsmStorageInner) (contents : ℕ → List Entry)
    (batches : List (List WriteBatchRecord)) : Prop where
  sound : e.Sound contents
  latest : e.latestCommitTs.toNat = batches.length
  versions : ∀ x, e.state.HasVersion contents x ↔ WrittenBy batches x

omit [Platform] in
theorem lastIn_entry_iff {batch : List WriteBatchRecord} {ts : UInt64} {x : Entry} :
    LastIn (batch.map (WriteBatchRecord.entry ts)) x ↔
      x.1.ts = ts ∧ History.last [batch] x.1.keyRef = some x.2 := by
  obtain ⟨⟨k, t⟩, v⟩ := x
  unfold LastIn History.last
  rw [List.filter_map, List.getLast?_map, List.flatten_singleton]
  by_cases hts : t = ts
  · subst hts
    have hfilter : (batch.filter ((fun y : Entry => decide (y.1 = ⟨k, t⟩)) ∘
        WriteBatchRecord.entry t)) = batch.filter fun record => record.key = k := by
      refine List.filter_congr fun record _ => ?_
      simp [WriteBatchRecord.entry]
    rw [hfilter, Option.map_eq_some_iff, Option.map_eq_some_iff, and_iff_right rfl]
    refine exists_congr fun record => and_congr_right fun hlast => ?_
    have hkey : record.key = k := by
      simpa using (List.mem_filter.mp (List.mem_of_getLast? hlast)).2
    simp [WriteBatchRecord.entry, hkey]
  · refine iff_of_false (fun hlast => ?_) fun h => hts h.1
    obtain ⟨record, hrecord, heq⟩ := Option.map_eq_some_iff.mp hlast
    exact hts (congrArg (fun y : Entry => y.1.ts) heq).symm

omit [Platform] in
theorem writtenBy_concat {batch : List WriteBatchRecord} {x : Entry} :
    WrittenBy (batches ++ [batch]) x ↔ WrittenBy batches x ∨
      LastIn (batch.map (WriteBatchRecord.entry (commitTs (batches.length + 1)))) x := by
  rw [lastIn_entry_iff]
  constructor
  · rintro ⟨i, b, hb, hx⟩
    rcases lt_trichotomy i batches.length with hi | rfl | hi
    · rw [List.getElem?_append_left hi] at hb
      exact Or.inl ⟨i, b, hb, hx⟩
    · rw [List.getElem?_concat_length] at hb
      obtain rfl := Option.some.inj hb
      exact Or.inr hx
    · rw [List.getElem?_eq_none (by rw [List.length_append, List.length_singleton]; omega)] at hb
      cases hb
  · rintro (⟨i, b, hb, hx⟩ | hx)
    · refine ⟨i, b, ?_, hx⟩
      rw [List.getElem?_append_left (List.getElem?_eq_some_iff.mp hb).1]
      exact hb
    · exact ⟨batches.length, batch, List.getElem?_concat_length, hx⟩

omit [Platform] in
theorem toNat_of_nextTs {ts ts' : UInt64} (h : nextTs ts = .ok ts') : ts'.toNat = ts.toNat + 1 := by
  unfold nextTs at h
  split at h
  · rename_i hlt
    rw [← Except.ok.inj h, UInt64.toNat_add]
    exact Nat.mod_eq_of_lt hlt
  · cases h

/-- **A write adds its batch.** -/
theorem Represents.writeBatch {batch : List WriteBatchRecord} (h : e.Represents contents batches)
    (henc : (Op.writeBatch batch).Encodable) (hproper : (Op.writeBatch batch).Proper e)
    (hstep : Step e (.writeBatch batch) e') : e'.Represents contents (batches ++ [batch]) := by
  obtain ⟨hsound, hversions⟩ := h.sound.writeBatch henc hproper hstep
  obtain ⟨ts, d, e₁, hnext, -, -, rfl⟩ := writeBatch_ok hstep
  have hts := toNat_of_nextTs hnext
  rw [h.latest] at hts
  have hcommit : e.latestCommitTs + 1 = commitTs (batches.length + 1) := by
    rw [← nextTs_eq hnext, commitTs, ← hts, UInt64.ofNat_toNat]
  refine ⟨hsound, ?_, fun x => ?_⟩
  · rw [List.length_append, List.length_singleton]
    exact hts
  · rw [hversions, writtenBy_concat, h.versions, Op.Writes, hcommit, or_comm]

theorem Represents.freeze {m : MemTable} (h : e.Represents contents batches) (hfroze : Froze e e' m)
    (hne : e.state.memtable.map.entries ≠ []) : e'.Represents contents batches where
  sound := h.sound.freeze hfroze hne
  latest := by
    rw [hfroze.latestCommitTs]
    exact h.latest
  versions x := hfroze.hasVersion_iff.trans (h.versions x)

theorem Represents.flush {m : MemTable} {builder : SsTableBuilder} (h : e.Represents contents batches)
    (hflushed : Flushed e e' m builder) : e'.Represents (withTable contents m) batches where
  sound := h.sound.flush hflushed
  latest := by
    rw [hflushed.latestCommitTs]
    exact h.latest
  versions x := by
    have himm : m ∈ e.state.immMemtables := by
      rw [hflushed.imms]
      exact List.mem_append_right _ (List.mem_singleton_self m)
    have hkeys : m.KeysNonempty := fun x hx =>
      (h.sound.state.memtable_encodable (List.mem_cons_of_mem _ himm) hx).key_ne
    have hid := hflushed.id_notMem h.sound.state.nodup
    exact (hflushed.hasVersion_iff hkeys hid).trans (h.versions x)

/-! ## Runs without compaction -/

/-- Writes, freezes and flushes, of keys and values that fit the format. -/
def Op.Plain (e : LsmStorageInner) : Op → Prop
  | .compact => False
  | .fullCompact => False
  | op => op.Proper e ∧ op.Encodable

/-- The batch of a write. -/
def Op.batch : Op → Option (List WriteBatchRecord)
  | .writeBatch batch => some batch
  | _ => none

/-- The step lemma. -/
theorem Represents.step {op : Op} (h : e.Represents contents batches) (hplain : op.Plain e)
    (hstep : Step e op e') : ∃ contents', e'.Represents contents' (batches ++ op.batch.toList) := by
  cases op with
  | writeBatch batch => exact ⟨contents, h.writeBatch hplain.2 hplain.1 hstep⟩
  | freeze =>
    obtain ⟨m, hfroze⟩ := forceFreezeMemtable_ok hstep
    refine ⟨contents, ?_⟩
    rw [show Op.freeze.batch.toList = [] from rfl, List.append_nil]
    exact h.freeze hfroze hplain.1
  | flush =>
    rw [show Op.flush.batch.toList = [] from rfl, List.append_nil]
    rcases forceFlushNextImmMemtable_ok hstep with ⟨-, rfl⟩ | ⟨m, builder, hflushed⟩
    · exact ⟨contents, h⟩
    · exact ⟨_, h.flush hflushed⟩
  | compact => exact hplain.elim
  | fullCompact => exact hplain.elim

/-- A new store represents nothing. -/
theorem Fresh.represents (hblock : options.blockSize ≤ 65535) (hfresh : Fresh options e) :
    e.Represents (fun _ => []) [] := by
  obtain ⟨memtable, hnew⟩ := hfresh.isNew
  have hlisted : e.state.listedIds = [] := by
    rw [hnew.state]
    exact listedIds_create options memtable
  have hmemtables : e.state.memtables = [memtable] := by
    rw [hnew.state]
    rfl
  have hcontainers : e.state.containers (fun _ => []) = [[]] := by
    unfold containers
    rw [hlisted, hmemtables, List.map_singleton, hnew.empty]
    rfl
  have hids : e.state.ids = [0] := by
    unfold LsmStorageState.ids
    rw [hlisted, hmemtables, List.map_singleton, hnew.id]
    rfl
  have hversions : ∀ x, ¬ e.state.HasVersion (fun _ => []) x := by
    rintro x ⟨l, hl, hx⟩
    rw [hcontainers, List.mem_singleton] at hl
    rw [hl] at hx
    cases hx
  refine ⟨⟨⟨?_, ?_, ?_, ?_, ?_, ?_, ?_⟩, ?_, ?_, ?_⟩, ?_, ?_⟩
  · simp [hlisted]
  · simp [hlisted]
  · simp [hcontainers]
  · intro level _
    rw [CompactionTask.levelRun]
    have hflat : (level.2.map fun _ => ([] : List Entry)).flatten = [] := by simp
    rw [hflat]
    exact SortedRun.nil
  · rw [hnew.state]
    rintro m ⟨⟩
  · rw [hcontainers]
    exact List.pairwise_singleton _ _
  · rw [hids]
    exact List.nodup_singleton 0
  · rw [hnew.options]
    exact hblock
  · rw [hids, hnew.nextSstId]
    simp
  · exact fun x hx => absurd hx (hversions x)
  · rw [hnew.latestCommitTs]
    rfl
  · intro x
    refine iff_of_false (hversions x) ?_
    rintro ⟨i, batch, hbatch, -⟩
    simp at hbatch

/-- **The run lemma.** -/
theorem RunOf.represents {ops : List Op} (hblock : options.blockSize ≤ 65535)
    (hfresh : Fresh options e₀) (hrun : RunOf (fun e op => op.Plain e) e₀ ops e) :
    ∃ contents, e.Represents contents (ops.filterMap Op.batch) := by
  refine hrun.invariant_of_steps
    (fun ops e => ∃ contents, e.Represents contents (ops.filterMap Op.batch))
    ⟨_, hfresh.represents hblock⟩ ?_
  rintro ops e op e' ⟨contents, h⟩ ⟨hplain, hstep⟩
  obtain ⟨contents', h'⟩ := h.step hplain hstep
  refine ⟨contents', ?_⟩
  rw [List.filterMap_append]
  cases op <;> exact h'

/-! ## Reading -/

omit [Platform] in
theorem toNat_commitTs {m : ℕ} (h : m < 2 ^ 64) : (commitTs m).toNat = m :=
  Nat.mod_eq_of_lt h

theorem Represents.length_lt (h : e.Represents contents batches) : batches.length < 2 ^ 64 := by
  rw [← h.latest]
  exact e.latestCommitTs.toNat_lt

omit [Platform] in
/-- The newest version that the first `m` batches wrote. -/
theorem newest_writtenBy_iff {k v : Bytes} {m : ℕ} (hlt : batches.length < 2 ^ 64)
    (hm : m ≤ batches.length) :
    Newest (WrittenBy batches) k (commitTs m) v ↔ History.last (batches.take m) k = some v := by
  have hstamp : ∀ x, WrittenBy batches x → ∃ i, i < batches.length ∧ x.1.ts.toNat = i + 1 := by
    rintro x ⟨i, batch, hbatch, hts, -⟩
    obtain ⟨hi, -⟩ := List.getElem?_eq_some_iff.mp hbatch
    refine ⟨i, hi, ?_⟩
    rw [hts, toNat_commitTs (by omega)]
  induction m with
  | zero =>
    refine iff_of_false ?_ (by simp)
    rintro ⟨a, ha, -, hle, -⟩
    obtain ⟨i, -, hi⟩ := hstamp _ ha
    rw [Key.stamp_eq, UInt64.le_iff_toNat_le, hi, toNat_commitTs (by omega)] at hle
    omega
  | succ m ih =>
    have hbatch : batches[m]? = some batches[m] := List.getElem?_eq_getElem hm
    rw [List.take_add_one, hbatch, Option.toList_some, History.last_concat]
    have hnext : (commitTs (m + 1)).toNat = m + 1 := toNat_commitTs (by omega)
    have hprev : (commitTs m).toNat = m := toNat_commitTs (by omega)
    have hat : ∀ a w, WrittenBy batches (a, w) → a.keyRef = k → a.ts = commitTs (m + 1) →
        History.last [batches[m]] k = some w := by
      rintro a w hw rfl hts
      obtain ⟨i, batch, hget, hi, hlast⟩ := id hw
      have heq : i = m := by
        have hi' := congrArg UInt64.toNat (hi.symm.trans hts)
        rw [hnext, toNat_commitTs (by have := (List.getElem?_eq_some_iff.mp hget).1; omega)] at hi'
        omega
      subst heq
      rw [(List.getElem?_eq_some_iff.mp hget).2]
      exact hlast
    cases hcase : History.last [batches[m]] k with
    | some w =>
      -- batch `m` has a record of the key, which is the newest version
      have hwritten : WrittenBy batches (⟨k, commitTs (m + 1)⟩, w) :=
        ⟨m, batches[m], hbatch, rfl, hcase⟩
      rw [Option.some_or, Option.some.injEq]
      constructor
      · rintro ⟨a, ha, hk, hle, hmax⟩
        have hge := hmax ⟨k, commitTs (m + 1)⟩ w hwritten rfl (le_refl (commitTs (m + 1)))
        have hlast' := hat a v ha hk (le_antisymm hle hge)
        rw [hcase] at hlast'
        exact Option.some.inj hlast'
      · rintro rfl
        exact ⟨⟨k, commitTs (m + 1)⟩, hwritten, rfl, le_refl (commitTs (m + 1)), fun b w _ _ hb => hb⟩
    | none =>
      -- otherwise nothing of the key has the timestamp of batch `m`
      rw [Option.none_or]
      refine Iff.trans ?_ (ih (Nat.le_of_succ_le hm))
      have hle : ∀ a w, WrittenBy batches (a, w) → a.keyRef = k →
          (a.ts ≤ commitTs (m + 1) ↔ a.ts ≤ commitTs m) := by
        intro a w ha hk
        have hne : a.ts.toNat ≠ m + 1 := by
          intro heq
          have hts : a.ts = commitTs (m + 1) := UInt64.toNat_inj.mp (heq.trans hnext.symm)
          rw [hat a w ha hk hts] at hcase
          cases hcase
        rw [UInt64.le_iff_toNat_le, UInt64.le_iff_toNat_le, hnext, hprev]
        omega
      constructor
      · rintro ⟨a, ha, hk, hts, hmax⟩
        exact ⟨a, ha, hk, (hle a v ha hk).mp hts,
          fun b w hb hbk hbt => hmax b w hb hbk ((hle b w hb hbk).mpr hbt)⟩
      · rintro ⟨a, ha, hk, hts, hmax⟩
        exact ⟨a, ha, hk, (hle a v ha hk).mpr hts,
          fun b w hb hbk hbt => hmax b w hb hbk ((hle b w hb hbk).mp hbt)⟩

/-- What a reader at the commit timestamp of batch `m` sees. -/
theorem Represents.sees_iff (h : e.Represents contents batches) {m : ℕ} (hm : m ≤ batches.length)
    {k v : Bytes} : e.state.Sees contents (commitTs m) k v ↔
      History.get (batches.take m) k = some v := by
  rw [History.get_eq_some_iff, ← newest_writtenBy_iff h.length_lt hm, Sees,
    h.sound.state.newest_iff]
  refine and_congr_right fun _ => Newest.congr fun a w _ _ => h.versions (a, w)

/-- **Without compaction the engine is a multi-version map.**  Whatever the freezes and flushes are,
a read at the commit timestamp of batch `m` returns what the first `m` batches leave, and a read at
the latest one what all of them leave. -/
theorem reads_history {ops : List Op} (hblock : options.blockSize ≤ 65535)
    (hfresh : Fresh options e₀) (hrun : RunOf (fun e op => op.Plain e) e₀ ops e) :
    e.latestCommitTs.toNat = (ops.filterMap Op.batch).length ∧
    (∀ k, e.get k = .ok (History.get (ops.filterMap Op.batch) k)) ∧
    ∀ m ≤ (ops.filterMap Op.batch).length,
      (∀ k, e.state.getWithTs k (commitTs m) =
        .ok (History.get ((ops.filterMap Op.batch).take m) k)) ∧
      ∀ lower upper, ∃ it out, e.state.scanWithTs lower upper (commitTs m) = .ok it ∧
        (∀ n, out.length ≤ n → StorageIterator.collect n it = some out) ∧
        (out.Pairwise fun x y => x.1 < y.1) ∧
        ∀ k v, (k, v) ∈ out ↔ (lower.AboveLower k ∧ upper.BelowUpper k) ∧
          History.get ((ops.filterMap Op.batch).take m) k = some v := by
  obtain ⟨contents, h⟩ := RunOf.represents hblock hfresh hrun
  have hget : ∀ m ≤ (ops.filterMap Op.batch).length, ∀ k, e.state.getWithTs k (commitTs m) =
      .ok (History.get ((ops.filterMap Op.batch).take m) k) := by
    intro m hm k
    obtain ⟨o, hget, hsees⟩ := getWithTs_eq h.sound.state.holds h.sound.state.bloom k (commitTs m)
    rw [hget, Except.ok.injEq]
    ext v
    rw [hsees, h.sees_iff hm]
  refine ⟨h.latest, fun k => ?_, fun m hm => ⟨hget m hm, fun lower upper => ?_⟩⟩
  · have hlatest : e.latestCommitTs = commitTs (ops.filterMap Op.batch).length := by
      rw [commitTs, ← h.latest, UInt64.ofNat_toNat]
    have hall := hget _ le_rfl k
    rw [List.take_length] at hall
    rw [LsmStorageInner.get, hlatest]
    exact hall
  · obtain ⟨it, out, hscan, hit, hsorted, hmem⟩ :=
      scanWithTs_yields h.sound.state.holds lower upper (commitTs m)
    refine ⟨it, out, hscan, fun n hn => hit.collect hn, hsorted, fun k v => ?_⟩
    rw [hmem, h.sees_iff hm]

end LsmStorageInner

section

attribute [local instance] shortKeyPlatform

namespace LsmStorageInner

/-- The part of `Plain` that does not depend on the state. -/
def Op.isPlain : Op → Bool
  | .writeBatch batch => batch.all fun record =>
      record.key ≠ [] ∧ record.key.length ≤ 65535 ∧ record.value.length ≤ 65535
  | .freeze => true
  | .flush => true
  | .compact => false
  | .fullCompact => false

theorem Op.plain_of_isPlain {e : LsmStorageInner} {op : Op} (hproper : op.Proper e)
    (h : op.isPlain = true) : op.Plain e := by
  cases op with
  | writeBatch batch =>
    refine ⟨hproper, fun record hrecord ts => ?_⟩
    obtain ⟨hne, hkey, hvalue⟩ := decide_eq_true_iff.mp (List.all_eq_true.mp h record hrecord)
    exact ⟨hne, hkey, hvalue⟩
  | freeze => exact ⟨hproper, trivial⟩
  | flush => exact ⟨hproper, trivial⟩
  | compact => cases h
  | fullCompact => cases h

/-- A run of plain calls. -/
theorem run_plain_of_afterCalls {ops : List Op} {e e' : LsmStorageInner} (h : afterCalls ops e = some e')
    (hplain : ∀ op ∈ ops, op.isPlain = true) : RunOf (fun e op => op.Plain e) e ops e' :=
  (run_of_afterCalls h).mono_of_mem fun op hop _ _ hcall =>
    ⟨Op.plain_of_isPlain hcall.1 (hplain op hop), hcall.2⟩

/-- Two batches, of which the first one is in a tier. -/
def twoBatches : List Op :=
  [.writeBatch [.put [1] [7], .put [2] [8], .put [2] [6]], .freeze, .flush,
    .writeBatch [.put [1] [9], .del [2]]]

theorem reads_history_small : ∃ e : LsmStorageInner, e.state.levels = [(0, [0])] ∧
    e.get [1] = .ok (some [9]) ∧ e.get [2] = .ok none ∧
    e.state.getWithTs [1] (commitTs 1) = .ok (some [7]) ∧
    e.state.getWithTs [2] (commitTs 1) = .ok (some [6]) := by
  let options : LsmStorageOptions := ⟨4096, 2 ^ 20, 50, .tiered ⟨3, 200, 1, 2, none⟩, false⟩
  have hfinal : (afterCalls twoBatches (newStore options)).map (fun e => e.state.levels) =
      some [(0, [0])] := by
    decide +kernel
  obtain ⟨e, he, hlevels⟩ := Option.map_eq_some_iff.mp hfinal
  obtain ⟨-, hget, hreads⟩ := reads_history (by decide) (fresh_newStore options)
    (run_plain_of_afterCalls he (by decide))
  obtain ⟨hone, -⟩ := hreads 1 (by decide)
  exact ⟨e, hlevels, hget [1], hget [2], hone [1], hone [2]⟩

end LsmStorageInner

end

end TinyLsm

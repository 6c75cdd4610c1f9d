import TinyLsm.LsmStorage.Files

/-!
# What a compaction changes for readers

A compaction to the bottom leaves its tombstones out.  `stored_after_compaction` says which versions
are stored afterwards in any run, and `compaction_preserves_reads_iff` when no reader can tell: exactly
when no tombstone is left out that stands directly above a live version.

`reads_history_compacted` puts this together over a run: as long as every compaction meets that
condition the engine is still the multi-version map of the batches that were written.
-/

namespace TinyLsm

open StorageIterator

/-- A table has one list of entries. -/
theorem SsTable.HasEntries.unique [Platform] {t : SsTable} {es es' : List Entry}
    (h : t.HasEntries es) (h' : t.HasEntries es') : es = es' := by
  obtain ⟨bss, hholds, rfl⟩ := h
  obtain ⟨bss', hholds', rfl⟩ := h'
  obtain ⟨it, hit, hyields⟩ := SsTableIterator.createAndSeekToFirst_yields hholds
  obtain ⟨it', hit', hyields'⟩ := SsTableIterator.createAndSeekToFirst_yields hholds'
  obtain rfl := Except.ok.inj (hit.symm.trans hit')
  exact hyields.unique hyields'

namespace LsmStorageState

variable [Platform] {s s' : LsmStorageState MemTable} {contents contents' : ℕ → List Entry}

/-- The table `id` has the entry. -/
def TableHas (s : LsmStorageState MemTable) (id : ℕ) (x : Entry) : Prop :=
  ∃ t es, s.sstables.lookup id = some t ∧ t.HasEntries es ∧ x ∈ es

/-- Some memtable or some listed table has the version. -/
def Has (s : LsmStorageState MemTable) (x : Entry) : Prop :=
  (∃ m ∈ s.memtables, x ∈ m.map.entries) ∨ ∃ id ∈ s.listedIds, s.TableHas id x

theorem Consistent.tableHas_iff (h : s.Consistent contents) {id : ℕ} (hid : id ∈ s.listedIds)
    {x : Entry} : s.TableHas id x ↔ x ∈ contents id := by
  obtain ⟨t, ht, hmade⟩ := h.tables id hid
  constructor
  · rintro ⟨t', es, ht', hes, hx⟩
    obtain rfl := Option.some.inj (ht.symm.trans ht')
    rcases hmade with ⟨hent, -⟩ | ⟨-, hblank⟩
    · rwa [hent.unique hes]
    · obtain ⟨bss, hholds, rfl⟩ := hes
      have hmetas := hholds.metas
      rw [hblank] at hmetas
      cases hmetas
      cases hx
  · intro hx
    exact ⟨t, contents id, ht, (hmade.hasEntries (List.ne_nil_of_mem hx)).1, hx⟩

theorem Consistent.has_iff (h : s.Consistent contents) {x : Entry} :
    s.Has x ↔ s.HasVersion contents x := by
  unfold Has HasVersion containers
  simp only [List.mem_append, or_and_right, exists_or, List.mem_map, exists_exists_and_eq_and]
  exact or_congr_right (exists_congr fun id => and_congr_right fun hid => h.tableHas_iff hid)

theorem Consistent.containers_sorted (h : s.Consistent contents) :
    ∀ l ∈ s.containers contents, SortedRun l := by
  refine List.forall_mem_append.mpr ⟨List.forall_mem_map.mpr fun m _ => m.map.sorted,
    List.forall_mem_map.mpr fun id hid => ?_⟩
  obtain ⟨t, -, hent | hblank⟩ := h.tables id hid
  · exact hent.1.sorted
  · rw [hblank.1]
    exact SortedRun.nil

/-- A versioned key is stored with one value. -/
theorem Consistent.inj (h : s.Consistent contents) {k : Key} {v w : Bytes}
    (hv : s.HasVersion contents (k, v)) (hw : s.HasVersion contents (k, w)) : v = w :=
  EarliestIn.inj h.containers_sorted (h.disjoint.earliestIn_iff.mpr hv)
    (h.disjoint.earliestIn_iff.mpr hw)

/-- Lookups and scans find what is stored: no two containers have a versioned key, whatever the ids of
the memtables are. -/
structure Readable (s : LsmStorageState MemTable) (contents : ℕ → List Entry) : Prop where
  holds : s.Holds contents
  bloom : ∀ id ∈ s.listedIds, ∀ t, s.sstables.lookup id = some t → t.BloomBuiltFrom (contents id)
  disjoint : DisjointKeys (s.containers contents)

theorem WellFormed.readable (h : s.WellFormed contents) : s.Readable contents :=
  ⟨h.holds, h.bloom, h.disjoint⟩

theorem Readable.newest_iff (h : s.Readable contents) {k : Bytes} {r : UInt64} {v : Bytes} :
    Newest (s.Stored contents) k r v ↔ Newest (s.HasVersion contents) k r v :=
  Newest.congr fun _ _ _ _ => stored_iff h.disjoint

/-- Readers at `r` find the map `f`. -/
def ReadsAs (s : LsmStorageState MemTable) (r : UInt64) (f : Bytes → Option Bytes) : Prop :=
  (∀ k, s.getWithTs k r = .ok (f k)) ∧
  ∀ lower upper, ∃ it out, s.scanWithTs lower upper r = .ok it ∧
    (∀ n, out.length ≤ n → collect n it = some out) ∧ (out.Pairwise fun x y => x.1 < y.1) ∧
    ∀ k v, (k, v) ∈ out ↔ (lower.AboveLower k ∧ upper.BelowUpper k) ∧ f k = some v

theorem Readable.readsAs (h : s.Readable contents) {r : UInt64} {f : Bytes → Option Bytes}
    (hf : ∀ k v, s.Sees contents r k v ↔ f k = some v) : s.ReadsAs r f := by
  refine ⟨fun k => ?_, fun lower upper => ?_⟩
  · obtain ⟨o, hget, hsees⟩ := getWithTs_eq h.holds h.bloom k r
    rw [hget, Except.ok.injEq]
    ext v
    rw [hsees, hf]
  · obtain ⟨it, out, hscan, hit, hsorted, hmem⟩ := scanWithTs_yields h.holds lower upper r
    refine ⟨it, out, hscan, fun n hn => hit.collect hn, hsorted, fun k v => ?_⟩
    rw [hmem, hf]

/-- Every lookup and every scan has the same result. -/
def SameReads (s s' : LsmStorageState MemTable) : Prop :=
  (∀ k r, s'.getWithTs k r = s.getWithTs k r) ∧
  ∀ lower upper r, ∃ it it' out, s.scanWithTs lower upper r = .ok it ∧
    s'.scanWithTs lower upper r = .ok it' ∧
    ∀ n, out.length ≤ n → collect n it = some out ∧ collect n it' = some out

omit [Platform] in
theorem isTombstone_eq_false_iff {v : Bytes} : isTombstone v = false ↔ v ≠ [] := by
  rw [Ne, ← List.isEmpty_iff, Bool.not_eq_true]

theorem Readable.sees_iff (h : s.Readable contents) {r : UInt64} {k v : Bytes} :
    s.Sees contents r k v ↔ v ≠ [] ∧ Newest (s.HasVersion contents) k r v :=
  and_congr_right fun _ => h.newest_iff

/-- Two lookups of a key find the same when they see the same live value. -/
theorem Readable.getWithTs_eq_iff (h : s.Readable contents) (h' : s'.Readable contents') {k : Bytes}
    {r r' : UInt64} : s'.getWithTs k r' = s.getWithTs k r ↔ ∀ v, isTombstone v = false →
      (Newest (s'.HasVersion contents') k r' v ↔ Newest (s.HasVersion contents) k r v) := by
  obtain ⟨o, ho, hsees⟩ := getWithTs_eq h.holds h.bloom k r
  obtain ⟨o', ho', hsees'⟩ := getWithTs_eq h'.holds h'.bloom k r'
  have hsame : o' = o ↔ ∀ v, s'.Sees contents' r' k v ↔ s.Sees contents r k v := by
    constructor
    · rintro rfl v
      rw [← hsees, hsees']
    · intro hall
      ext v
      rw [hsees, hsees', hall]
  rw [ho, ho', Except.ok.injEq, hsame]
  refine forall_congr' fun v => ?_
  rw [h.sees_iff, h'.sees_iff, and_congr_right_iff, isTombstone_eq_false_iff]

/-- Two scans hand out the same. -/
def SameScan (s s' : LsmStorageState MemTable) (lower upper : Bound Bytes) (r : UInt64) : Prop :=
  ∃ it it' out, s.scanWithTs lower upper r = .ok it ∧ s'.scanWithTs lower upper r = .ok it' ∧
    ∀ n, out.length ≤ n → collect n it = some out ∧ collect n it' = some out

/-- Two scans hand out the same when they see the same live values of the keys in the range. -/
theorem Readable.sameScan_iff (h : s.Readable contents) (h' : s'.Readable contents')
    {lower upper : Bound Bytes} {r : UInt64} : SameScan s s' lower upper r ↔
      ∀ k, lower.AboveLower k → upper.BelowUpper k → ∀ v, isTombstone v = false →
        (Newest (s'.HasVersion contents') k r v ↔ Newest (s.HasVersion contents) k r v) := by
  obtain ⟨it, out, hscan, hit, hsorted, hmem⟩ := scanWithTs_yields h.holds lower upper r
  obtain ⟨it', out', hscan', hit', hsorted', hmem'⟩ := scanWithTs_yields h'.holds lower upper r
  have hsame : SameScan s s' lower upper r ↔ out' = out := by
    constructor
    · rintro ⟨j, j', l, hj, hj', hcollect⟩
      obtain rfl := Except.ok.inj (hscan.symm.trans hj)
      obtain rfl := Except.ok.inj (hscan'.symm.trans hj')
      have hn := hcollect (max l.length (max out.length out'.length)) (le_max_left _ _)
      have hout := hit.collect ((le_max_left out.length out'.length).trans (le_max_right l.length _))
      have hout' := hit'.collect ((le_max_right out.length out'.length).trans (le_max_right l.length _))
      rw [hn.1] at hout
      rw [hn.2] at hout'
      exact Option.some.inj (hout'.symm.trans hout)
    · rintro rfl
      exact ⟨it, it', out', hscan, hscan', fun n hn => ⟨hit.collect hn, hit'.collect hn⟩⟩
  rw [hsame]
  constructor
  · rintro rfl k hlower hupper v hv
    have hboth := (hmem' k v).symm.trans (hmem k v)
    rw [and_iff_right ⟨hlower, hupper⟩, and_iff_right ⟨hlower, hupper⟩, h.sees_iff, h'.sees_iff] at hboth
    have hne := isTombstone_eq_false_iff.mp hv
    rwa [and_iff_right hne, and_iff_right hne] at hboth
  · intro hall
    refine hsorted'.eq_of_mem_iff hsorted fun ⟨k, v⟩ => ?_
    rw [hmem', hmem, h.sees_iff, h'.sees_iff]
    exact and_congr_right fun hk => and_congr_right fun hne =>
      hall k hk.1 hk.2 v (isTombstone_eq_false_iff.mpr hne)

/-- Reads are the same when the same live values are seen. -/
theorem Readable.sameReads_iff (h : s.Readable contents) (h' : s'.Readable contents') :
    SameReads s s' ↔ SeesSame isTombstone (s'.HasVersion contents') (s.HasVersion contents) := by
  constructor
  · rintro ⟨hget, -⟩ k r v hv
    exact (h.getWithTs_eq_iff h').mp (hget k r) v hv
  · intro hsame
    refine ⟨fun k r => (h.getWithTs_eq_iff h').mpr (hsame k r), fun lower upper r => ?_⟩
    exact (h.sameScan_iff h').mpr fun k _ _ => hsame k r

end LsmStorageState

/-! ## The step -/

/-- The entry is a tombstone of an input, and the task leaves tombstones out. -/
def CompactionTask.Drops [Platform] (s : LsmStorageState MemTable) (task : CompactionTask)
    (x : Entry) : Prop :=
  task.compactToBottomLevel = true ∧ isTombstone x.2 = true ∧ ∃ id ∈ task.inputIds, s.TableHas id x

/-- No tombstone that the task leaves out stands directly above a live version. -/
def CompactionTask.HidesNothing [Platform] (s : LsmStorageState MemTable) (task : CompactionTask) :
    Prop :=
  ∀ x y, task.Drops s x → NextOlder s.Has x y → isTombstone y.2 = true

namespace LsmStorageInner

open LsmStorageState

variable [Platform] {options : LsmStorageOptions} {e₀ e e' : LsmStorageInner}
  {contents : ℕ → List Entry} {task : CompactionTask} {op : Op} {ops : List Op}

/-- What is left out, in terms of the contents. -/
theorem Settled.drops_iff (h : e.Settled options contents)
    (hinputs : task.inputIds.Sublist e.state.listedIds) {x : Entry} : task.Drops e.state x ↔
      task.compactToBottomLevel = true ∧ isTombstone x.2 = true ∧
        ∃ id ∈ task.inputIds, x ∈ contents id :=
  and_congr_right fun _ => and_congr_right fun _ => exists_congr fun _ => and_congr_right fun hid =>
    h.steady.state.tableHas_iff (hinputs.subset hid)

/-- **What is stored after a compaction**, in every run: what was, without the tombstones that the task
leaves out. -/
theorem stored_after_compaction (hblock : options.blockSize ≤ 65535) (hfresh : Fresh options e₀)
    (hrun : RunOf (fun _ op => op.Fits) e₀ ops e) (hruns : op.Runs e task) (hstep : Step e op e')
    (x : Entry) : e'.state.Has x ↔ e.state.Has x ∧ ¬task.Drops e.state x := by
  obtain ⟨contents, h⟩ := RunOf.settled hblock hfresh (fun _ _ => id) hrun
  obtain ⟨ssts, cs, hrep, -, h'⟩ := h.replaced hruns hstep
  rw [h'.steady.state.has_iff, hrep.hasVersion_iff h.steady, h.steady.state.has_iff,
    h.drops_iff hrep.inputs]

/-- **What every run keeps**: every listed id is a table in the map, made of entries that were written;
each level is one sorted run; no versioned key is in two places; ids are distinct and below the next
one; and no timestamp is above the committed one. -/
theorem run_keeps_contents (hblock : options.blockSize ≤ 65535) (hfresh : Fresh options e₀)
    (hrun : RunOf (fun _ op => op.Fits) e₀ ops e) : ∃ contents : ℕ → List Entry,
    (∀ id ∈ e.state.listedIds, ∃ t, e.state.sstables.lookup id = some t ∧ MadeOf t (contents id)) ∧
    (∀ level ∈ e.state.levels, SortedRun (CompactionTask.levelRun contents level.2)) ∧
    DisjointKeys (e.state.containers contents) ∧
    e.state.ids.Nodup ∧ (∀ id ∈ e.state.ids, id < e.nextSstId) ∧
    ∀ l ∈ e.state.containers contents, SortedRun l ∧ ∀ x ∈ l, LengthsFit x ∧ x.1.ts ≤ e.latestCommitTs := by
  obtain ⟨contents, h⟩ := RunOf.settled hblock hfresh (fun _ _ => id) hrun
  have hc := h.steady.state
  exact ⟨contents, hc.tables, hc.levels, hc.disjoint, hc.nodup, h.laid.ids, fun l hl =>
    ⟨hc.containers_sorted l hl, fun x hx => ⟨hc.fits l hl x hx, h.steady.stamps x ⟨l, hl, hx⟩⟩⟩⟩

/-! ## Readers -/

/-- Every listed table can still be read after the call. -/
def Op.KeepsReadable (e : LsmStorageInner) (op : Op) : Prop :=
  op.Proper e ∧ op.Encodable ∧ op.KeepsSome e

/-- A state without empty keys and tables. -/
theorem Settled.sound (h : e.Settled options contents) (hnone : e.NoEmptyTable) : e.Sound contents := by
  have hc := h.steady.state
  refine h.steady.sound (hc.wellFormed ?_ (fun id hid hnil => ?_) hnone.imms)
  · refine List.forall_mem_append.mpr ⟨List.forall_mem_map.mpr hnone.keys,
      List.forall_mem_map.mpr fun id hid x hx => ?_⟩
    obtain ⟨t, ht, hmade⟩ := hc.tables id hid
    exact (hmade.hasEntries (List.ne_nil_of_mem hx)).1.key_ne hx
  · obtain ⟨t, ht, ⟨hent, -⟩ | ⟨-, hblank⟩⟩ := hc.tables id hid
    · exact hent.ne_nil hnil
    · exact hnone.tables id t ht hblank

theorem RunOf.readable (hrun : RunOf (fun e op => op.KeepsReadable e) e₀ ops e)
    (hnone : e₀.NoEmptyTable) : e.NoEmptyTable :=
  RunOf.noEmptyTable (hrun.mono fun _ _ _ h => ⟨⟨h.1.1, h.1.2.2⟩, h.2⟩) hnone

/-- What the tables hold after a compaction. -/
theorem Settled.compacted (h : e.Settled options contents) (hruns : op.Runs e task) (hstep : Step e op e')
    (hnone' : e'.NoEmptyTable) : ∃ contents', e'.state.Readable contents' ∧
      (e'.state.HasVersion contents' = fun x => e.state.Has x ∧ ¬task.Drops e.state x) ∧
      ∀ x, task.Drops e.state x → e.state.Has x ∧ isTombstone x.2 = true := by
  obtain ⟨ssts, cs, hrep, -, h'⟩ := h.replaced hruns hstep
  refine ⟨_, (h'.sound hnone').state.readable, funext fun x => ?_, fun x hx => ⟨?_, hx.2.1⟩⟩
  · rw [hrep.hasVersion_iff h.steady, h.drops_iff hrep.inputs, h.steady.state.has_iff]
  · obtain ⟨id, hid, hx⟩ := hx.2.2
    exact Or.inr ⟨id, hrep.inputs.subset hid, hx⟩

/-- What a reader sees before and after a compaction. -/
theorem Settled.sameReads_iff (h : e.Settled options contents) (hnone : e.NoEmptyTable)
    (hruns : op.Runs e task) (hstep : Step e op e') (hnone' : e'.NoEmptyTable) :
    SameReads e.state e'.state ↔ task.HidesNothing e.state := by
  obtain ⟨contents', hreadable, hset, hdrops⟩ := h.compacted hruns hstep hnone'
  have hc := h.steady.state
  rw [(h.sound hnone).state.readable.sameReads_iff hreadable, hset,
    show e.state.HasVersion contents = e.state.Has from funext fun x => propext hc.has_iff.symm]
  exact SeesSame.diff_iff (fun a v w hv hw => hc.inj (hc.has_iff.mp hv) (hc.has_iff.mp hw)) hdrops

/-- **When no reader can tell that a compaction has run**: exactly when no tombstone is left out that
stands directly above a live version of its key. -/
theorem compaction_preserves_reads_iff (hblock : options.blockSize ≤ 65535)
    (hfresh : Fresh options e₀) (hrun : RunOf (fun e op => op.KeepsReadable e) e₀ ops e)
    (hop : op.KeepsReadable e) (hruns : op.Runs e task) (hstep : Step e op e') :
    SameReads e.state e'.state ↔ task.HidesNothing e.state := by
  obtain ⟨contents, h⟩ := RunOf.settled hblock hfresh (fun _ _ h => h.2.1.fits) hrun
  have hnone := RunOf.readable hrun hfresh.noEmptyTable
  exact h.sameReads_iff hnone hruns hstep (RunOf.readable (Run.single ⟨hop, hstep⟩) hnone)

/-! ## The history -/

/-- The compactions of the call hide nothing. -/
def Op.HidesNothing (e : LsmStorageInner) (op : Op) : Prop :=
  ∀ task, op.Runs e task → task.HidesNothing e.state

/-- Readers see of the engine what they see of the batches. -/
structure Shows (options : LsmStorageOptions) (contents : ℕ → List Entry)
    (batches : List (List WriteBatchRecord)) (e : LsmStorageInner) : Prop where
  settled : e.Settled options contents
  nonempty : e.NoEmptyTable
  latest : e.latestCommitTs.toNat = batches.length
  same : SeesSame isTombstone (e.state.HasVersion contents) (WrittenBy batches)

variable {batches : List (List WriteBatchRecord)}

theorem Shows.length_lt (h : e.Shows options contents batches) : batches.length < 2 ^ 64 := by
  rw [← h.latest]
  exact e.latestCommitTs.toNat_lt

/-- What was written before the next batch has smaller timestamps. -/
theorem Shows.writtenBy_lt (h : e.Shows options contents batches) {ts : UInt64}
    (hts : nextTs e.latestCommitTs = .ok ts) {x : Entry} (hx : WrittenBy batches x) : x.1.ts < ts := by
  obtain ⟨i, batch, hbatch, hstamp, -⟩ := hx
  have hi := (List.getElem?_eq_some_iff.mp hbatch).1
  have hlt := h.length_lt
  have hnext := toNat_of_nextTs hts
  rw [UInt64.lt_iff_toNat_lt, hstamp, toNat_commitTs (by omega), hnext, h.latest]
  omega

theorem Shows.writeBatch {batch : List WriteBatchRecord} (h : e.Shows options contents batches)
    (hfits : (Op.writeBatch batch).Fits) (hproper : (Op.writeBatch batch).Proper e)
    (hstep : Step e (.writeBatch batch) e') : e'.Shows options contents (batches ++ [batch]) := by
  obtain ⟨-, hversions⟩ := h.settled.steady.writeBatch hfits hstep
  obtain ⟨ts, d, e₁, hnext, -, -, heq⟩ := writeBatch_ok hstep
  have hts := toNat_of_nextTs hnext
  rw [h.latest] at hts
  have hcommit : e.latestCommitTs + 1 = commitTs (batches.length + 1) := by
    rw [← nextTs_eq hnext, commitTs, ← hts, UInt64.ofNat_toNat]
  have hstamp : ∀ x, (Op.writeBatch batch).Writes e x → x.1.ts = ts := by
    intro x hx
    obtain ⟨record, -, rfl⟩ := List.mem_map.mp (LastIn.mem hx)
    exact (nextTs_eq hnext).symm
  refine ⟨h.settled.writeBatch hfits hstep, h.nonempty.writeBatch hproper hstep, ?_, ?_⟩
  · rw [List.length_append, List.length_singleton, ← hts, heq]
  · have hunion := h.same.union (T := (Op.writeBatch batch).Writes e)
      (fun x y hx hy => by
        rw [Key.stamp_eq, Key.stamp_eq, hstamp y hy]
        exact h.settled.steady.lt_of_nextTs hnext hx)
      (fun x y hx hy => by
        rw [Key.stamp_eq, Key.stamp_eq, hstamp y hy]
        exact h.writtenBy_lt hnext hx)
    rw [show e'.state.HasVersion contents = _ from funext fun x => propext (hversions x)]
    refine hunion.trans fun k r v _ => Newest.congr fun a w _ _ => ?_
    rw [writtenBy_concat, ← hcommit, or_comm]
    exact Iff.rfl

/-- **One call.** -/
theorem Shows.step (h : e.Shows options contents batches) (hop : op.KeepsReadable e)
    (hhides : op.HidesNothing e) (hstep : Step e op e') (hnone : e'.NoEmptyTable) :
    ∃ contents', e'.Shows options contents' (batches ++ op.batch.toList) := by
  have hruns : ∀ task, op.Runs e task →
      ∃ contents', e'.Shows options contents' (batches ++ []) := by
    intro task hruns
    obtain ⟨ssts, cs, hrep, -, h'⟩ := h.settled.replaced hruns hstep
    have hsame := (h.settled.sameReads_iff h.nonempty hruns hstep hnone).mpr (hhides task hruns)
    rw [(h.settled.sound h.nonempty).state.readable.sameReads_iff
      (h'.sound hnone).state.readable] at hsame
    refine ⟨_, h', hnone, ?_, ?_⟩
    · rw [hrep.latestCommitTs, List.append_nil]
      exact h.latest
    · rw [List.append_nil]
      exact hsame.trans h.same
  have hquiet : e' = e → ∃ contents', e'.Shows options contents' (batches ++ []) := by
    rintro rfl
    exact ⟨contents, by rwa [List.append_nil]⟩
  cases op with
  | writeBatch batch => exact ⟨contents, h.writeBatch hop.2.1.fits hop.1 hstep⟩
  | freeze =>
    obtain ⟨m, hfroze⟩ := forceFreezeMemtable_ok hstep
    refine ⟨contents, h.settled.freeze hfroze, hnone, ?_, ?_⟩
    · rw [hfroze.latestCommitTs]
      exact h.latest.trans (by simp [Op.batch])
    · rw [show e'.state.HasVersion contents = e.state.HasVersion contents from
        funext fun x => propext hfroze.hasVersion_iff]
      simpa [Op.batch] using h.same
  | flush =>
    rcases forceFlushNextImmMemtable_ok hstep with ⟨-, heq⟩ | ⟨m, builder, hflushed⟩
    · exact hquiet heq
    · have himm : m ∈ e.state.immMemtables := by
        rw [hflushed.imms]
        exact List.mem_append_right _ (List.mem_singleton_self m)
      have hkeys := h.nonempty.keys m (List.mem_cons_of_mem _ himm)
      have hid := hflushed.id_notMem h.settled.steady.state.nodup
      refine ⟨_, h.settled.flush hflushed, hnone, ?_, ?_⟩
      · rw [hflushed.latestCommitTs]
        exact h.latest.trans (by simp [Op.batch])
      · rw [show e'.state.HasVersion (withTable contents m) = e.state.HasVersion contents from
          funext fun x => propext (hflushed.hasVersion_iff hkeys hid)]
        simpa [Op.batch] using h.same
  | compact =>
    rcases triggerCompaction_ok hstep with ⟨-, heq⟩ | ⟨task, output, s, removed, hcompacted⟩
    · exact hquiet heq
    · exact hruns task hcompacted.generated
  | fullCompact =>
    obtain ⟨level₁, newSsts, hcompacted⟩ := forceFullCompaction_ok hstep
    exact hruns _ ⟨level₁, hcompacted.level, rfl⟩

/-- **The run lemma.** -/
theorem RunOf.shows (hblock : options.blockSize ≤ 65535) (hfresh : Fresh options e₀)
    (hrun : RunOf (fun e op => op.KeepsReadable e ∧ op.HidesNothing e) e₀ ops e) :
    ∃ contents, e.Shows options contents (ops.filterMap Op.batch) := by
  have hnew : ∃ contents, e₀.Shows options contents [] := by
    have hrep := hfresh.represents hblock
    refine ⟨_, hfresh.settled hblock, hfresh.noEmptyTable, hrep.latest, ?_⟩
    rw [show e₀.state.HasVersion (fun _ => []) = WrittenBy [] from
      funext fun x => propext (hrep.versions x)]
    exact SeesSame.refl _
  refine hrun.invariant_of_steps
    (fun ops e => ∃ contents, e.Shows options contents (ops.filterMap Op.batch)) hnew ?_
  rintro ops e op e' ⟨contents, h⟩ ⟨⟨hop, hhides⟩, hstep⟩
  obtain ⟨contents', h'⟩ := h.step hop hhides hstep
    (RunOf.readable (Run.single ⟨hop, hstep⟩) h.nonempty)
  refine ⟨contents', ?_⟩
  rw [List.filterMap_append]
  cases op <;> exact h'

/-- What a reader at the commit timestamp of batch `m` sees. -/
theorem Shows.sees_iff (h : e.Shows options contents batches) {m : ℕ} (hm : m ≤ batches.length)
    {k v : Bytes} : e.state.Sees contents (commitTs m) k v ↔
      History.get (batches.take m) k = some v := by
  rw [History.get_eq_some_iff, ← newest_writtenBy_iff h.length_lt hm, Sees,
    (h.settled.sound h.nonempty).state.newest_iff]
  exact and_congr_right fun hne => h.same k _ v (isTombstone_eq_false_iff.mpr hne)

/-- **With compactions that hide nothing the engine is a multi-version map**: a read at the commit
timestamp of batch `m` returns what the first `m` batches leave, whatever was frozen, flushed and
compacted since. -/
theorem reads_history_compacted (hblock : options.blockSize ≤ 65535) (hfresh : Fresh options e₀)
    (hrun : RunOf (fun e op => op.KeepsReadable e ∧ op.HidesNothing e) e₀ ops e) :
    e.latestCommitTs.toNat = (ops.filterMap Op.batch).length ∧
    (∀ k, e.get k = .ok (History.get (ops.filterMap Op.batch) k)) ∧
    ∀ m ≤ (ops.filterMap Op.batch).length,
      e.state.ReadsAs (commitTs m) (History.get ((ops.filterMap Op.batch).take m)) := by
  obtain ⟨contents, h⟩ := RunOf.shows hblock hfresh hrun
  have hreads : ∀ m ≤ (ops.filterMap Op.batch).length,
      e.state.ReadsAs (commitTs m) (History.get ((ops.filterMap Op.batch).take m)) := fun m hm =>
    (h.settled.sound h.nonempty).state.readable.readsAs fun k v => h.sees_iff hm
  refine ⟨h.latest, fun k => ?_, hreads⟩
  have hall := (hreads _ le_rfl).1 k
  rw [List.take_length, commitTs, ← h.latest, UInt64.ofNat_toNat] at hall
  exact hall

/-! ### A small run

Key 2 is deleted before it was ever written, and its tombstone goes in a full compaction. -/

omit [Platform] in
theorem Op.Plain.keepsReadable [Platform] (h : op.Plain e) :
    op.KeepsReadable e ∧ op.HidesNothing e := by
  cases op with
  | writeBatch batch => exact ⟨⟨h.1, h.2, trivial⟩, fun _ => False.elim⟩
  | freeze => exact ⟨⟨h.1, h.2, trivial⟩, fun _ => False.elim⟩
  | flush => exact ⟨⟨h.1, h.2, trivial⟩, fun _ => False.elim⟩
  | compact => exact h.elim
  | fullCompact => exact h.elim

/-- When everything was written by one batch there is nothing older. -/
theorem Represents.hidesNothing {batch : List WriteBatchRecord} (h : e.Represents contents [batch])
    (task : CompactionTask) (hinputs : ∀ id ∈ task.inputIds, id ∈ e.state.listedIds) :
    task.HidesNothing e.state := by
  have hstamp : ∀ x, e.state.Has x → x.1.ts = commitTs 1 := by
    intro x hx
    obtain ⟨i, b, hb, hts, -⟩ := (h.versions x).mp (h.sound.state.consistent.has_iff.mp hx)
    have hi := (List.getElem?_eq_some_iff.mp hb).1
    rw [List.length_singleton, Nat.lt_one_iff] at hi
    rw [hts, hi]
  rintro x y ⟨-, -, id, hid, hx⟩ ⟨hy, -, hlt, -⟩
  rw [Key.stamp_eq, Key.stamp_eq, hstamp y hy, hstamp x (Or.inr ⟨id, hinputs id hid, hx⟩)] at hlt
  exact absurd hlt (lt_irrefl _)

end LsmStorageInner

section

attribute [local instance] shortKeyPlatform

namespace LsmStorageInner

/-- The store with that table, after a full compaction, and after one more write. -/
theorem exists_compacted : ∃ e e' e'' task,
    RunOf (fun e op => op.Plain e) (newStore smallOptions) oneTable e ∧
      Step e .fullCompact e' ∧ Step e' (.writeBatch [.put [2] [8]]) e'' ∧
      Op.fullCompact.Runs e task ∧ task.compactToBottomLevel = true ∧
      Op.fullCompact.KeepsReadable e ∧ task.HidesNothing e.state ∧ e'.state.listedIds = [2] := by
  have hfinal : ((afterCalls oneTable (newStore smallOptions)).bind fun e =>
      (afterCall e .fullCompact).bind fun e' =>
        (afterCall e' (.writeBatch [.put [2] [8]])).map fun _ => (e.state.levels[0]?,
          e'.state.listedIds, Op.fullCompact.writesBlocks e)) =
      some (some (1, []), [2], true) := by
    decide +kernel
  obtain ⟨e, he, hrest⟩ := Option.bind_eq_some_iff.mp hfinal
  obtain ⟨e', he', hrest⟩ := Option.bind_eq_some_iff.mp hrest
  obtain ⟨e'', he'', hsummary⟩ := Option.map_eq_some_iff.mp hrest
  obtain ⟨hlevel, hsummary⟩ := Prod.mk.inj hsummary
  obtain ⟨hlisted, hblocks⟩ := Prod.mk.inj hsummary
  have hrun : RunOf (fun e op => op.Plain e) (newStore smallOptions) oneTable e :=
    run_plain_of_afterCalls he (by decide)
  have hruns : Op.fullCompact.Runs e (.forceFullCompaction e.state.l0Sstables []) := ⟨_, hlevel, rfl⟩
  obtain ⟨contents', hrep⟩ := RunOf.represents (by decide) (fresh_newStore smallOptions) hrun
  refine ⟨e, e', e'', _, hrun, step_of_afterCall he', step_of_afterCall he'', hruns, rfl,
    ⟨trivial, trivial, Op.keepsSome_of_writesBlocks hblocks⟩,
    hrep.hidesNothing _ fun id hid => LsmStorageState.mem_listedIds.mpr (Or.inl ?_), hlisted⟩
  rwa [show (CompactionTask.forceFullCompaction e.state.l0Sstables []).inputIds =
    e.state.l0Sstables ++ [] from rfl, List.append_nil] at hid

theorem run_keeps_contents_small : ∃ (e : LsmStorageInner) (contents : ℕ → List Entry),
    e.state.listedIds = [2] ∧ ∃ t, e.state.sstables.lookup 2 = some t ∧
      LsmStorageState.MadeOf t (contents 2) := by
  obtain ⟨e, e', -, -, hrun, hstep, -, -, -, -, -, hlisted⟩ := exists_compacted
  have hrun' : RunOf (fun _ op => op.Fits) (newStore smallOptions) (oneTable ++ [.fullCompact]) e' :=
    (hrun.mono fun _ _ _ h => ⟨h.1.keepsReadable.1.2.1.fits, h.2⟩).snoc ⟨trivial, hstep⟩
  obtain ⟨contents, htables, -⟩ := run_keeps_contents (by decide) (fresh_newStore smallOptions) hrun'
  exact ⟨e', contents, hlisted, htables 2 (by rw [hlisted]; exact List.mem_singleton_self 2)⟩

theorem stored_after_compaction_small : ∃ e e' task, Step e .fullCompact e' ∧
    Op.fullCompact.Runs e task ∧ task.compactToBottomLevel = true ∧
    ∀ x, e'.state.Has x ↔ e.state.Has x ∧ ¬task.Drops e.state x := by
  obtain ⟨e, e', -, task, hrun, hstep, -, hruns, hbottom, -⟩ := exists_compacted
  exact ⟨e, e', task, hstep, hruns, hbottom, stored_after_compaction (by decide)
    (fresh_newStore smallOptions) (hrun.mono fun _ _ _ h => ⟨h.1.keepsReadable.1.2.1.fits, h.2⟩)
    hruns hstep⟩

/-- A put and its deletion, in two tables. -/
def putThenDelete : List Op :=
  [.writeBatch [.put [1] [7]], .freeze, .flush, .writeBatch [.del [1]], .freeze, .flush]

/-- The deletion of a key that was never written may go; that of a key that was may not. -/
theorem compaction_preserves_reads_small :
    (∃ e e' task, Step e .fullCompact e' ∧ Op.fullCompact.Runs e task ∧
      task.compactToBottomLevel = true ∧ e.state.SameReads e'.state) ∧
    ∃ e e' task, Step e .fullCompact e' ∧ Op.fullCompact.Runs e task ∧
      e.state.getWithTs [1] 2 = .ok none ∧ e'.state.getWithTs [1] 2 = .ok (some [7]) ∧
      ¬task.HidesNothing e.state := by
  constructor
  · obtain ⟨e, e', -, task, hrun, hstep, -, hruns, hbottom, hreadable, hhides, -⟩ := exists_compacted
    exact ⟨e, e', task, hstep, hruns, hbottom, (compaction_preserves_reads_iff (by decide)
      (fresh_newStore smallOptions) (hrun.mono fun _ _ _ h => ⟨h.1.keepsReadable.1, h.2⟩) hreadable
      hruns hstep).mpr hhides⟩
  · have hfinal : ((afterCalls putThenDelete (newStore smallOptions)).bind fun e =>
        (afterCall e .fullCompact).map fun e' => decide (e.state.levels[0]? = some (1, []) ∧
          Op.fullCompact.writesBlocks e = true ∧ e.state.getWithTs [1] 2 = .ok none ∧
          e'.state.getWithTs [1] 2 = .ok (some [7]))) = some true := by
      decide +kernel
    obtain ⟨e, he, hrest⟩ := Option.bind_eq_some_iff.mp hfinal
    obtain ⟨e', he', hsummary⟩ := Option.map_eq_some_iff.mp hrest
    obtain ⟨hlevel, hblocks, hbefore, hafter⟩ := of_decide_eq_true hsummary
    have hrun : RunOf (fun e op => op.KeepsReadable e) (newStore smallOptions) putThenDelete e :=
      (run_plain_of_afterCalls he (by decide)).mono fun _ _ _ h => ⟨h.1.keepsReadable.1, h.2⟩
    have hruns : Op.fullCompact.Runs e (.forceFullCompaction e.state.l0Sstables []) := ⟨_, hlevel, rfl⟩
    have hreadable : Op.fullCompact.KeepsReadable e :=
      ⟨trivial, trivial, Op.keepsSome_of_writesBlocks hblocks⟩
    refine ⟨e, e', _, step_of_afterCall he', hruns, hbefore, hafter, fun hhides => ?_⟩
    have hsame := (compaction_preserves_reads_iff (by decide) (fresh_newStore smallOptions) hrun
      hreadable hruns (step_of_afterCall he')).mpr hhides
    have hread := hsame.1 [1] 2
    rw [hbefore, hafter] at hread
    cases hread

theorem reads_history_compacted_small : ∃ e : LsmStorageInner,
    e.get [1] = .ok (some [7]) ∧ e.get [2] = .ok (some [8]) ∧ e.state.getWithTs [2] (commitTs 1) = .ok none := by
  obtain ⟨e, e', e'', task, hrun, hstep, hwrite, hruns, -, hreadable, hhides, -⟩ := exists_compacted
  have hbefore : RunOf (fun e op => op.KeepsReadable e ∧ op.HidesNothing e) (newStore smallOptions)
      oneTable e := hrun.mono fun _ _ _ h => ⟨h.1.keepsReadable, h.2⟩
  have hcompacted : Op.fullCompact.KeepsReadable e ∧ Op.fullCompact.HidesNothing e := by
    refine ⟨hreadable, ?_⟩
    rintro _ ⟨level, hlevel, rfl⟩
    obtain ⟨level', hlevel', rfl⟩ := hruns
    obtain rfl := Option.some.inj (hlevel.symm.trans hlevel')
    exact hhides
  have hproper : (Op.writeBatch [.put [2] [8]]).Proper e' :=
    ⟨by simp [WriteBatchRecord.key], fun hnil => absurd hnil (List.cons_ne_nil _ _)⟩
  have hwritten := (Op.plain_of_isPlain hproper rfl).keepsReadable
  obtain ⟨-, hget, hreads⟩ := reads_history_compacted (by decide) (fresh_newStore smallOptions)
    ((hbefore.snoc ⟨hcompacted, hstep⟩).snoc ⟨hwritten, hwrite⟩)
  exact ⟨e'', hget [1], hget [2], (hreads 1 (by decide)).1 [2]⟩

end LsmStorageInner

end

end TinyLsm

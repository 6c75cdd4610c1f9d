import TinyLsm.LsmStorage.Preserved

/-!
# Which reads a compaction changes

A tombstone that a compaction leaves out changes exactly the reads for which it was the last thing above a
live version (`compacted_reads_iff`).  So a key that was deleted may come back (`deleted_key_returns`).
-/

namespace TinyLsm

open StorageIterator

/-- A live version that a reader of the key at `r` sees once the task has left its tombstones out, and does
not see before. -/
def CompactionTask.Uncovers [Platform] (s : LsmStorageState MemTable) (task : CompactionTask) (k : Bytes)
    (r : UInt64) : Prop :=
  ∃ y : Entry, UncoveredAt isTombstone s.Has (task.Drops s) k r y

namespace LsmStorageInner

open LsmStorageState

variable [Platform] {options : LsmStorageOptions} {e₀ e e' : LsmStorageInner}
  {contents : ℕ → List Entry} {task : CompactionTask} {op : Op} {ops : List Op}

/-- **Which reads a compaction changes**: a lookup of `k` exactly when all that stands above some live
version of `k`, for its reader, is left out, and something is; and a scan exactly when there is such a key
in its range. -/
theorem compacted_reads_iff (hblock : options.blockSize ≤ 65535) (hfresh : Fresh options e₀)
    (hrun : RunOf (fun e op => op.KeepsReadable e) e₀ ops e) (hop : op.KeepsReadable e)
    (hruns : op.Runs e task) (hstep : Step e op e') :
    (∀ k r, e'.state.getWithTs k r = e.state.getWithTs k r ↔ ¬task.Uncovers e.state k r) ∧
      ∀ lower upper r, SameScan e.state e'.state lower upper r ↔
        ∀ k, lower.AboveLower k → upper.BelowUpper k → ¬task.Uncovers e.state k r := by
  obtain ⟨contents, h⟩ := RunOf.settled hblock hfresh (fun _ _ h => h.2.1.fits) hrun
  have hnone := RunOf.readable hrun hfresh.noEmptyTable
  have hnone' := RunOf.readable (Run.single ⟨hop, hstep⟩) hnone
  obtain ⟨contents', hreadable', hset, hdrops⟩ := h.compacted hruns hstep hnone'
  have hreadable := (h.sound hnone).state.readable
  have hhas : e.state.HasVersion contents = e.state.Has :=
    funext fun x => propext h.steady.state.has_iff.symm
  have hsame : ∀ k r, (∀ v, isTombstone v = false → (Newest (e'.state.HasVersion contents') k r v ↔
      Newest (e.state.HasVersion contents) k r v)) ↔ ¬task.Uncovers e.state k r := by
    intro k r
    rw [hset, hhas]
    exact newest_diff_iff hdrops
  refine ⟨fun k r => (hreadable.getWithTs_eq_iff hreadable').trans (hsame k r), fun lower upper r => ?_⟩
  rw [hreadable.sameScan_iff hreadable']
  exact forall_congr' fun k => forall₂_congr fun _ _ => hsame k r

end LsmStorageInner

section

attribute [local instance] shortKeyPlatform

namespace LsmStorageInner

/-- A put and its deletion, in two tables, and then a full compaction. -/
theorem exists_deleted : ∃ e e' task,
    RunOf (fun e op => op.KeepsReadable e) (newStore smallOptions) putThenDelete e ∧
      Step e .fullCompact e' ∧ Op.fullCompact.Runs e task ∧ Op.fullCompact.KeepsReadable e ∧
      e.get [1] = .ok none ∧ e'.get [1] = .ok (some [7]) ∧
      e.state.getWithTs [1] 1 = .ok (some [7]) ∧ e'.state.getWithTs [1] 1 = .ok (some [7]) ∧
      e.latestCommitTs = 2 ∧ e'.latestCommitTs = 2 := by
  have hfinal : ((afterCalls putThenDelete (newStore smallOptions)).bind fun e =>
      (afterCall e .fullCompact).map fun e' => decide (e.state.levels[0]? = some (1, []) ∧
        Op.fullCompact.writesBlocks e = true ∧ e.get [1] = .ok none ∧ e'.get [1] = .ok (some [7]) ∧
        e.state.getWithTs [1] 1 = .ok (some [7]) ∧ e'.state.getWithTs [1] 1 = .ok (some [7]) ∧
        e.latestCommitTs = 2 ∧ e'.latestCommitTs = 2)) = some true := by
    decide +kernel
  obtain ⟨e, he, hrest⟩ := Option.bind_eq_some_iff.mp hfinal
  obtain ⟨e', he', hsummary⟩ := Option.map_eq_some_iff.mp hrest
  obtain ⟨hlevel, hblocks, hreads⟩ := of_decide_eq_true hsummary
  exact ⟨e, e', _, (run_plain_of_afterCalls he (by decide)).mono fun _ _ _ h => ⟨h.1.keepsReadable.1, h.2⟩,
    step_of_afterCall he', ⟨_, hlevel, rfl⟩, ⟨trivial, trivial, Op.keepsSome_of_writesBlocks hblocks⟩, hreads⟩

/-- The reader at the deletion sees the put again, and the reader before it sees what it saw. -/
theorem compacted_reads_iff_small : ∃ e e' task,
    RunOf (fun e op => op.KeepsReadable e) (newStore smallOptions) putThenDelete e ∧
      Step e .fullCompact e' ∧ Op.fullCompact.Runs e task ∧
      task.Uncovers e.state [1] 2 ∧ ¬task.Uncovers e.state [1] 1 := by
  obtain ⟨e, e', task, hrun, hstep, hruns, hreadable, hget, hget', hold, hold', hts, hts'⟩ := exists_deleted
  obtain ⟨hiff, -⟩ := compacted_reads_iff (by decide) (fresh_newStore smallOptions) hrun hreadable hruns hstep
  refine ⟨e, e', task, hrun, hstep, hruns, ?_, (hiff [1] 1).mp (hold'.trans hold.symm)⟩
  by_contra hnot
  have hsame := (hiff [1] 2).mpr hnot
  unfold LsmStorageInner.get at hget hget'
  rw [hts] at hget
  rw [hts', hsame, hget] at hget'
  cases hget'

/-- **A deleted key returns**: a full compaction merges a put and its deletion, and leaves only the
deletion out. -/
theorem deleted_key_returns : ∃ e e' : LsmStorageInner,
    RunOf (fun e op => op.KeepsReadable e) (newStore smallOptions) putThenDelete e ∧
      Step e .fullCompact e' ∧ e.get [1] = .ok none ∧ e'.get [1] = .ok (some [7]) := by
  obtain ⟨e, e', -, hrun, hstep, -, -, hget, hget', -⟩ := exists_deleted
  exact ⟨e, e', hrun, hstep, hget, hget'⟩

end LsmStorageInner

end

end TinyLsm

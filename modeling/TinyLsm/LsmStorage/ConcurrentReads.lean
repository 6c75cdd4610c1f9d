import TinyLsm.LsmStorage.LostUpdate

/-!
# What readers see while threads interleave

A batch becomes visible in one step, the one that commits it: until then no reader has a timestamp at
which its versions count (`Threads.Stamped`).  So as long as the tombstones that were written are still
stored, whatever the writer, the flusher and the compactor are in the middle of, a reader finds what the
committed batches leave (`Threads.interleaved_reads`).
-/

namespace TinyLsm

namespace Threads

open LsmStorageInner

variable [Platform] {options : LsmStorageOptions} {contents : ℕ → List Entry} {T T' : Threads}

/-! ## The commit timestamp -/

theorem latest_stepFlusher {place : FlushAt} (hcurrent : Current T.engine place) :
    (T.stepFlusher place).engine.latestCommitTs = T.engine.latestCommitTs := by
  obtain ⟨o, d, hexec | ⟨m, builder, -, -, hexec⟩⟩ := atomicStep_exec hcurrent
  · unfold Threads.stepFlusher
    rw [hexec]
  · unfold Threads.stepFlusher
    rw [hexec]
    rfl

theorem latest_stepCompactor (place : CompactAt) :
    (T.stepCompactor place).engine.latestCommitTs = T.engine.latestCommitTs := by
  change ((compactStep place).exec T.engine).2.latestCommitTs = T.engine.latestCommitTs
  cases place with
  | start => rw [compactStep_start]
  | planned task =>
    obtain ⟨o, d, next, -, -, hexec⟩ := compactStep_planned T.engine task
    rw [hexec]
  | merged task output => rw [compactStep_merged]
  | applied task output state removed => rw [compactStep_applied]
  | installed removed =>
    obtain ⟨o, d, hexec⟩ := compactStep_installed T.engine removed
    rw [hexec]

/-- The batch that is in the memtable and not committed has the next timestamp. -/
def Stamped (T : Threads) : Prop :=
  ∀ ts ∈ T.writer.place.bind WriteAt.stamp, nextTs T.engine.latestCommitTs = .ok ts

theorem Kept.stamped_stepWriter (h : T.Kept options contents) {place : WriteAt}
    (hplace : T.writer.place = some place) (hstamped : T.Stamped)
    (hok : ∃ next, ((writeStep place).exec T.engine).1 = .ok next) : (T.stepWriter place).Stamped := by
  obtain ⟨next, hok⟩ := hok
  obtain ⟨e', hexec⟩ := Effect.exists_exec hok
  have hwriting := h.writer place hplace
  unfold Stamped at hstamped ⊢
  rw [hplace, Option.bind_some] at hstamped
  have hgoal : (∀ ts ∈ next.bind WriteAt.stamp, nextTs e'.latestCommitTs = .ok ts) →
      ∀ ts ∈ (T.stepWriter place).writer.place.bind WriteAt.stamp,
        nextTs (T.stepWriter place).engine.latestCommitTs = .ok ts := by
    unfold Threads.stepWriter
    rw [hexec]
    simp only [Worker.place_after_ok]
    exact id
  apply hgoal
  cases place with
  | start batch =>
    obtain ⟨ts, -, rfl, rfl⟩ := writeStep_start_ok hexec
    rintro ts' ⟨⟩
  | stamped ts batch =>
    obtain ⟨d, rfl, rfl⟩ := writeStep_stamped_ok hexec
    rintro ts' ⟨⟩
    exact hwriting.2
  | written ts =>
    obtain ⟨rfl | rfl, rfl⟩ := writeStep_written_ok hexec
    · exact hstamped
    · exact hstamped
  | committing ts =>
    rw [writeStep_committing] at hexec
    cases hexec
    rintro ts' ⟨⟩
  | freezing ts place =>
    cases place with
    | start =>
      obtain ⟨memtable, d, -, -, rfl, rfl⟩ := writeStep_clone_ok hexec
      exact hstamped
    | created state =>
      obtain ⟨d, rfl, rfl⟩ := writeStep_created_ok hexec
      exact hstamped
    | recorded state =>
      rw [writeStep_recorded] at hexec
      cases hexec
      exact hstamped

omit [Platform] in
/-- The writer and the commit timestamp stay. -/
theorem Stamped.idle (h : T.Stamped) (hwriter : T'.writer = T.writer)
    (hlatest : T'.engine.latestCommitTs = T.engine.latestCommitTs) : T'.Stamped := by
  unfold Stamped at h ⊢
  rwa [hwriter, hlatest]

/-- **A step of any thread.** -/
theorem Kept.stamped {m : Move} (h : T.Kept options contents) (hturn : Turn T m T')
    (hstamped : T.Stamped) : T'.Stamped := by
  cases hturn.took with
  | nothing => exact hstamped
  | call => exact nofun
  | write hplace hok => exact h.stamped_stepWriter hplace hstamped hok
  | flush hplace => exact hstamped.idle rfl (latest_stepFlusher (h.current hplace))
  | compact => exact hstamped.idle rfl (latest_stepCompactor _)

/-- All batches are committed, but for the one that is being written. -/
theorem Kept.length_batches (h : T.Kept options contents) (hstamped : T.Stamped) :
    T.batches.length =
      T.engine.latestCommitTs.toNat + (T.writer.place.bind WriteAt.stamp).toList.length := by
  have hlatest := h.latest
  unfold ahead at hlatest
  unfold Stamped at hstamped
  cases hstamp : T.writer.place.bind WriteAt.stamp with
  | none =>
    rw [hstamp] at hlatest
    exact hlatest.symm
  | some ts =>
    rw [hstamp] at hlatest
    rw [← hlatest]
    exact toNat_of_nextTs (hstamped ts hstamp)

/-! ## The reads -/

variable {e₀ : LsmStorageInner} {moves : List Move}

/-- **The run lemma.** -/
theorem stamped_of_run (hblock : options.blockSize ≤ 65535) (hfresh : Fresh options e₀)
    (hrun : Run Turn (start e₀) moves T) : T.Stamped := by
  refine (hrun.invariant (fun T => (∃ contents, T.Kept options contents) ∧ T.Stamped)
    (fun T m T' ⟨⟨contents, h⟩, hstamped⟩ hturn => ?_) ⟨⟨_, .start hblock hfresh⟩, nofun⟩).2
  exact ⟨h.turn hturn, h.stamped hturn hstamped⟩

/-- **Reads while threads interleave.**  When nothing is blank and every tombstone that was written is
stored, the batches that are committed are all but the one that the writer has in hand, a lookup returns
what they leave, and a lookup or a scan at the commit timestamp of batch `m` what the first `m` of them
leave. -/
theorem interleaved_reads (hblock : options.blockSize ≤ 65535) (hfresh : Fresh options e₀)
    (hrun : Run Turn (start e₀) moves T)
    (htables : ∀ id t, T.engine.state.sstables.lookup id = some t → t.blockMeta ≠ [])
    (himms : ∀ m ∈ T.engine.state.immMemtables, m.map.entries ≠ [])
    (htombstones : ∀ x, WrittenBy T.batches x → isTombstone x.2 = true → T.engine.state.Has x) :
    T.batches.length =
        T.engine.latestCommitTs.toNat + (T.writer.place.bind WriteAt.stamp).toList.length ∧
      (∀ k, T.engine.get k =
        .ok (History.get (T.batches.take T.engine.latestCommitTs.toNat) k)) ∧
      ∀ m ≤ T.batches.length, T.engine.state.ReadsAs (commitTs m) (History.get (T.batches.take m)) := by
  obtain ⟨contents, h⟩ := kept_of_run hblock hfresh hrun
  have hlength := h.length_batches (stamped_of_run hblock hfresh hrun)
  have hc : T.engine.state.Consistent contents := h.settled.steady.state
  have hrep : T.ahead.Represents contents T.batches := by
    refine ⟨h.settled.sound ⟨htables, himms, h.keys⟩, h.latest, fun x => ⟨h.written x, fun hx => ?_⟩⟩
    rcases h.kept x hx with hstored | hdropped
    · exact hstored
    · exact hc.has_iff.mp (htombstones x hx hdropped.1)
  have hreads : ∀ m ≤ T.batches.length,
      T.engine.state.ReadsAs (commitTs m) (History.get (T.batches.take m)) := fun m hm =>
    hrep.sound.state.readable.readsAs fun k v => hrep.sees_iff hm
  refine ⟨hlength, fun k => ?_, hreads⟩
  have hle : T.engine.latestCommitTs.toNat ≤ T.batches.length := by
    rw [hlength]
    exact Nat.le_add_right _ _
  have hget := (hreads _ hle).1 k
  rw [commitTs, UInt64.ofNat_toNat] at hget
  exact hget

end Threads

section

attribute [local instance] shortKeyPlatform

namespace Threads

open LsmStorageInner

/-- A put is frozen, flushed and compacted twice, to the bottom level at last, and then its key is
deleted. -/
def deleteAfterBottom : List Move :=
  wholeWrite [.put [1] [7]] ++ List.replicate 3 .flush ++ List.replicate 10 .compact ++
    [.call [.del [1]], .write, .write]

/-- The deletion is in the memtable and not yet committed. -/
theorem interleaved_reads_small : ∃ T : Threads,
    Run Turn (start (newStore eagerOptions)) deleteAfterBottom T ∧
      T.tasks.map CompactionTask.compactToBottomLevel = [false, true] ∧
      T.engine.latestCommitTs = commitTs 1 ∧ T.engine.get [1] = .ok (some [7]) ∧
      T.engine.state.getWithTs [1] (commitTs 2) = .ok none := by
  have hfinal : (execAll afterTurn deleteAfterBottom (start (newStore eagerOptions))).map (fun T =>
      decide ((∀ p ∈ T.engine.state.sstables.entries, p.2.blockMeta.isEmpty = false) ∧
        T.engine.state.immMemtables.length = 0 ∧
        T.tasks.map CompactionTask.compactToBottomLevel = [false, true] ∧
        T.engine.latestCommitTs = commitTs 1 ∧ T.batches = [[.put [1] [7]], [.del [1]]] ∧
        T.engine.state.memtable.map.entries = [(⟨[1], commitTs 2⟩, [])])) = some true := by
    decide +kernel
  obtain ⟨T, hT, hsummary⟩ := Option.map_eq_some_iff.mp hfinal
  obtain ⟨hblank, hlength, htasks, hts, hbatches, hmemtable⟩ := of_decide_eq_true hsummary
  have hrun := run_of_execAll (fun _ _ _ => turn_of_afterTurn) hT
  have htables : ∀ id t, T.engine.state.sstables.lookup id = some t → t.blockMeta ≠ [] := by
    intro id t ht hnil
    have hmem := hblank ⟨id, t⟩ (AList.mem_lookup_iff.mp ht)
    rw [hnil] at hmem
    cases hmem
  have himms : ∀ m ∈ T.engine.state.immMemtables, m.map.entries ≠ [] := by
    rw [List.length_eq_zero_iff.mp hlength]
    exact List.forall_mem_nil _
  have htombstones : ∀ x, WrittenBy T.batches x → isTombstone x.2 = true → T.engine.state.Has x := by
    intro x hx htombstone
    rw [hbatches] at hx
    have hx : WrittenBy (([] ++ [[.put [1] [7]]]) ++ [[.del [1]]]) x := hx
    rw [writtenBy_concat, writtenBy_concat] at hx
    rcases hx with (⟨i, batch, hi, -⟩ | hput) | hdel
    · cases hi
    · obtain rfl := List.mem_singleton.mp hput.mem
      cases htombstone
    · obtain rfl := List.mem_singleton.mp hdel.mem
      refine Or.inl ⟨T.engine.state.memtable, List.mem_cons_self, ?_⟩
      rw [hmemtable]
      exact List.mem_singleton_self _
  obtain ⟨-, hget, hreads⟩ :=
    interleaved_reads (by decide) (fresh_newStore eagerOptions) hrun htables himms htombstones
  rw [hbatches, hts] at hget
  rw [hbatches] at hreads
  exact ⟨T, hrun, htasks, hts, hget [1], (hreads 2 le_rfl).1 [1]⟩

end Threads

end

end TinyLsm

import TinyLsm.LsmStorage.Reopen
import TinyLsm.LsmStorage.CommitTs

/-!
# What a reopened store answers

A process ends cleanly when every log is written, or, without logs, every memtable is flushed.  The store
that is opened on what it left answers every `get` as before exactly when no compaction replaced a table
and no version that is newer than all that `open` looks at matters (`reopened_gets_iff`).  Otherwise `open`
fails or takes an older commit timestamp (`reopening_fails`).
-/

namespace TinyLsm

open LsmStorageState

namespace LsmStorageInner

variable [Platform] {options : LsmStorageOptions} {e₀ e e' : LsmStorageInner} {d d' : Disk}
  {contents : ℕ → List Entry} {ops : List Op}

omit [Platform] in
/-- Without logs nothing is left in memory. -/
def EndedCleanly (options : LsmStorageOptions) (e : LsmStorageInner) : Prop :=
  options.enableWal = false → ∀ m ∈ e.state.memtables, m.map.entries = []

omit [Platform] in
theorem SameMemTable.flushed {m m' : MemTable} (h : SameMemTable m m') : m'.flushed = m.flushed := by
  unfold MemTable.flushed
  rw [h.1]

/-- `open` looks at what was there when the process ended. -/
theorem Reopened.seenAtOpen_iff (h : Reopened options e e') (hhoused : e.Housed options contents)
    (hnone : e.NoEmptyTable) (hclean : EndedCleanly options e)
    (hsize : ∀ id t, e.state.sstables.lookup id = some t → t.file.length < 2 ^ 32) {ts : UInt64} :
    e'.SeenAtOpen ts ↔ e.SeenAtOpen ts := by
  have hsound := hhoused.settled.sound hnone
  -- A table is opened with the blocks that it had.
  have hopened : ∀ id t, e.state.sstables.lookup id = some t → ∃ u,
      e'.state.sstables.lookup id = some u ∧ u.blockMeta = t.blockMeta := by
    intro id t ht
    have hlisted : id ∈ e.state.listedIds := (hhoused.listed id).mp (by rw [ht]; rfl)
    obtain ⟨file, u, hfile, hopen, hlookup⟩ := h.tables id hlisted
    rw [hhoused.files, ht] at hfile
    obtain rfl := Option.some.inj hfile
    have hmem : contents id ∈ e.state.containers contents :=
      List.mem_append_right _ (List.mem_map_of_mem hlisted)
    obtain ⟨u', hu', -, -, hmetas⟩ := SsTable.openFile_built hsound.blockSize (hhoused.built id t ht)
      (hsound.state.table_ne_nil hlisted) (hhoused.settled.steady.state.containers_sorted _ hmem)
      (hhoused.settled.steady.state.fits _ hmem) (hsize id t ht)
    obtain rfl := Except.ok.inj (hopen.symm.trans hu')
    exact ⟨u, hlookup, hmetas⟩
  refine or_congr ⟨?_, ?_⟩ ?_
  · rintro ⟨⟨id, u⟩, hp, block, hblock, hts⟩
    have hu := AList.mem_lookup_iff.mpr hp
    obtain ⟨t, ht⟩ := Option.isSome_iff_exists.mp ((hhoused.listed id).mpr (h.listed_of_lookup id u hu))
    obtain ⟨u', hu', hmetas⟩ := hopened id t ht
    obtain rfl := Option.some.inj (hu.symm.trans hu')
    exact ⟨⟨id, t⟩, AList.mem_lookup_iff.mp ht, block, hmetas ▸ hblock, hts⟩
  · rintro ⟨⟨id, t⟩, hp, block, hblock, hts⟩
    obtain ⟨u, hu, hmetas⟩ := hopened id t (AList.mem_lookup_iff.mpr hp)
    exact ⟨⟨id, u⟩, AList.mem_lookup_iff.mp hu, block, hmetas ▸ hblock, hts⟩
  · cases hwal : options.enableWal with
    | true =>
      constructor
      · rintro ⟨m', hm', x, hx, hts⟩
        obtain ⟨m, hm, hsame⟩ := exists_of_mem_right (h.logged hwal) hm'
        exact ⟨m, hm, x, hsame.flushed ▸ hx, hts⟩
      · rintro ⟨m, hm, x, hx, hts⟩
        obtain ⟨m', hm', hsame⟩ := exists_of_mem_left (h.logged hwal) hm
        exact ⟨m', hm', x, hsame.flushed ▸ hx, hts⟩
    | false =>
      constructor
      · rintro ⟨m', hm', x, hx, -⟩
        rw [h.unlogged hwal] at hm'
        obtain rfl := List.mem_singleton.mp hm'
        cases hx
      · rintro ⟨m, hm, x, hx, -⟩
        have hmem := m.flushed_sublist.subset hx
        rw [hclean hwal m hm] at hmem
        cases hmem

omit [Platform] in
/-- The largest timestamp that `open` looks at. -/
def OpensAt (e : LsmStorageInner) (r : UInt64) : Prop :=
  (∀ ts, e.SeenAtOpen ts → ts ≤ r) ∧ (r = 0 ∨ e.SeenAtOpen r)

omit [Platform] in
theorem OpensAt.unique {r r' : UInt64} (h : e.OpensAt r) (h' : e.OpensAt r') : r = r' := by
  have hle : ∀ {r r'}, e.OpensAt r → e.OpensAt r' → r ≤ r' := by
    intro r r' h h'
    rcases h.2 with rfl | hseen
    · exact tsRangeEnd_le _
    · exact h'.1 r hseen
  exact le_antisymm (hle h h') (hle h' h)

/-- No version above `r` changes what a lookup of a key finds. -/
def SettledAt (e : LsmStorageInner) (r : UInt64) : Prop :=
  ∀ k v, isTombstone v = false → (Newest e.state.Has k r v ↔ Newest e.state.Has k e.latestCommitTs v)

/-- Nothing is lost of a store that ended cleanly. -/
theorem EndedCleanly.getWithTs (hclean : EndedCleanly options e) (hs : e.state.WellFormed contents)
    (k : Bytes) (r : UInt64) :
    (e.state.durable options.enableWal).getWithTs k r = e.state.getWithTs k r := by
  cases hwal : options.enableWal with
  | true => rfl
  | false =>
    have hversions : (e.state.durable false).HasVersion contents = e.state.HasVersion contents := by
      have hempty := hclean hwal
      funext x
      refine propext ⟨?_, ?_⟩
      · rintro ⟨l, hl, hx⟩
        rcases List.mem_append.mp hl with hl | hl
        · obtain ⟨m, hm, rfl⟩ := List.mem_map.mp hl
          obtain rfl := List.mem_singleton.mp hm
          cases hx
        · exact ⟨l, List.mem_append_right _ hl, hx⟩
      · rintro ⟨l, hl, hx⟩
        rcases List.mem_append.mp hl with hl | hl
        · obtain ⟨m, hm, rfl⟩ := List.mem_map.mp hl
          rw [hempty m hm] at hx
          cases hx
        · exact ⟨l, List.mem_append_right _ hl, hx⟩
    refine ((hs.readable.sameReads_iff (hs.durable false)).mpr ?_).1 k r
    rw [hversions]
    exact SeesSame.refl _

/-- **When a reopened store answers as before**, after a run that ended cleanly: exactly when no compaction
of the run had an input, and no version above all that `open` looks at changes the answer for its key. -/
theorem reopened_gets_iff (hblock : options.blockSize ≤ 65535) (hfresh : Fresh options e₀)
    (hrun : RunOf (fun e op => op.KeepsReadable e) e₀ ops e)
    (hsize : ∀ id t, e.state.sstables.lookup id = some t → t.file.length < 2 ^ 32)
    (hclean : EndedCleanly options e) (hlike : e.disk.Like d) (hd : d.Reliable) :
    (∃ e' d', (openStore options).exec d = (.ok e', d') ∧ ∀ k, e'.get k = e.get k) ↔
      RunOf (fun e op => op.KeepsReadable e ∧ op.Idle e) e₀ ops e ∧ ∀ r, e.OpensAt r → e.SettledAt r := by
  obtain ⟨contents, r, h, hlogs, hchron⟩ :=
    RunOf.chronicled hblock hfresh (fun _ _ h => h.2.1.fits) hrun
  have hnone := RunOf.readable hrun hfresh.noEmptyTable
  have hstate := (h.settled.sound hnone).state
  have hhas : e.state.HasVersion contents = e.state.Has :=
    funext fun x => propext h.settled.steady.state.has_iff.symm
  -- The opened store answers from the old state, at another timestamp.
  have hanswers : ∀ {e' d'}, (openStore options).exec d = (.ok e', d') →
      e.OpensAt e'.latestCommitTs ∧ ((∀ k, e'.get k = e.get k) ↔ e.SettledAt e'.latestCommitTs) := by
    intro e' d' hopen
    have hreopened := (hchron.reopened h hlogs hlike hopen).2
    have hseen := openStore_seen hopen
    simp only [hreopened.seenAtOpen_iff h hnone hclean hsize] at hseen
    refine ⟨hseen, forall_congr' fun k => ?_⟩
    have hget : e'.get k = e.state.getWithTs k e'.latestCommitTs := by
      rw [LsmStorageInner.get, (hreopened.sameReads h hnone hsize).1 k, hclean.getWithTs hstate]
    rw [hget, LsmStorageInner.get, hstate.readable.getWithTs_eq_iff hstate.readable, hhas]
  constructor
  · rintro ⟨e', d', hopen, hsame⟩
    obtain ⟨hat, hiff⟩ := hanswers hopen
    refine ⟨(hchron.reopened h hlogs hlike hopen).1, fun r hr => ?_⟩
    rw [hr.unique hat]
    exact hiff.mp hsame
  · rintro ⟨hidle, hsettled⟩
    obtain ⟨e', d', hopen⟩ := hchron.opens hidle h hnone hlogs hsize hlike hd
    obtain ⟨hat, hiff⟩ := hanswers hopen
    exact ⟨e', d', hopen, hiff.mpr (hsettled _ hat)⟩

end LsmStorageInner

section

attribute [local instance] shortKeyPlatform

namespace LsmStorageInner

theorem reopened_gets_iff_small : ∃ (e e' : LsmStorageInner) (d' : Disk),
    (openStore { smallOptions with enableWal := true }).exec e.disk = (.ok e', d') ∧
      e'.get [1] = .ok (some [7]) ∧ e'.get [2] = .ok (some [9]) := by
  obtain ⟨e, -, -, hrun, hsize, hdisk, -, hts, -, hget, hget', hstamps⟩ := exists_reopened
  have hblock : ({ smallOptions with enableWal := true } : LsmStorageOptions).blockSize ≤ 65535 := by
    decide
  have hreadable : RunOf (fun e op => op.KeepsReadable e) (newStore { smallOptions with enableWal := true })
      (oneTable ++ [.writeBatch [.put [2] [9]]]) e := hrun.mono fun _ _ _ h => ⟨h.1.1, h.2⟩
  obtain ⟨contents, h⟩ := RunOf.settled hblock (fresh_newStore _) (fun _ _ h => h.2.1.fits) hreadable
  have hstamp : ∀ x, e.state.Has x → x.1.ts ≤ e.latestCommitTs := fun x hx =>
    h.steady.stamps x (h.steady.state.has_iff.mp hx)
  -- The newest write is in the memtable, and so `open` sees its timestamp.
  have hsettled : ∀ r, e.OpensAt r → e.SettledAt r := by
    intro r hr
    obtain ⟨y, hy, hts'⟩ := List.map_eq_singleton_iff.mp hstamps
    have hseen : e.SeenAtOpen e.latestCommitTs := by
      refine Or.inr ⟨_, List.mem_cons_self, y, ?_, hts.trans hts'.symm⟩
      rw [hy]
      exact List.mem_singleton_self y
    exact fun k v _ => Newest.reader_congr (fun x hx => (hstamp x hx).trans (hr.1 _ hseen)) hstamp
  obtain ⟨e', d', hopen, hgets⟩ := (reopened_gets_iff hblock (fresh_newStore _) hreadable hsize nofun
    (Disk.Like.refl _) hdisk).mpr ⟨hrun, hsettled⟩
  exact ⟨e, e', d', hopen, (hgets [1]).trans hget, (hgets [2]).trans hget'⟩

/-- Two tables, and a full compaction of them. -/
def compactedCalls : List Op :=
  [.writeBatch [.put [1] [7]], .freeze, .flush, .writeBatch [.put [2] [9]], .freeze, .flush]

/-- After a compaction the directory does not open, and after `newestInsideCalls` it opens with an older
commit timestamp. -/
theorem reopening_fails :
    (∃ e e', RunOf (fun e op => op.KeepsReadable e) (newStore smallOptions) compactedCalls e ∧
      Op.fullCompact.KeepsReadable e ∧ Step e .fullCompact e' ∧ EndedCleanly smallOptions e' ∧
      e'.get [1] = .ok (some [7]) ∧
      ∀ e'' d', (openStore smallOptions).exec e'.disk ≠ (.ok e'', d')) ∧
    ∃ e e' d', RunOf (fun e op => op.KeepsReadable e) (newStore MiniLsm.plainOptions) newestInsideCalls e ∧
      EndedCleanly MiniLsm.plainOptions e ∧ e.get [2] = .ok (some [9]) ∧
      (openStore MiniLsm.plainOptions).exec e.disk = (.ok e', d') ∧ e'.get [2] = .ok none := by
  constructor
  · have hfinal : ((afterCalls compactedCalls (newStore smallOptions)).bind fun e =>
        (afterCall e .fullCompact).map fun e' => decide (Op.fullCompact.writesBlocks e = true ∧
          (∀ m ∈ e'.state.memtables, m.map.entries = []) ∧ e'.get [1] = .ok (some [7]) ∧
          ((openStore smallOptions).exec e'.disk).1.toOption.isNone)) = some true := by
      decide +kernel
    obtain ⟨e, he, hrest⟩ := Option.bind_eq_some_iff.mp hfinal
    obtain ⟨e', he', hsummary⟩ := Option.map_eq_some_iff.mp hrest
    obtain ⟨hblocks, hempty, hget, hfails⟩ := of_decide_eq_true hsummary
    refine ⟨e, e', (run_plain_of_afterCalls he (by decide)).mono fun _ _ _ h => ⟨h.1.keepsReadable.1, h.2⟩,
      ⟨trivial, trivial, Op.keepsSome_of_writesBlocks hblocks⟩, step_of_afterCall he', fun _ => hempty, hget,
      fun e'' d' hopen => ?_⟩
    rw [hopen] at hfails
    cases hfails
  · have hfinal : ((afterCalls newestInsideCalls (newStore MiniLsm.plainOptions)).bind fun e =>
        ((openStore MiniLsm.plainOptions).exec e.disk).1.toOption.map fun e' =>
          decide ((∀ m ∈ e.state.memtables, m.map.entries = []) ∧ e.get [2] = .ok (some [9]) ∧
            e'.get [2] = .ok none)) = some true := by
      decide +kernel
    obtain ⟨e, e', d', he, hopen, hsummary⟩ := exists_opened hfinal
    obtain ⟨hempty, hbefore, hget⟩ := of_decide_eq_true hsummary
    exact ⟨e, e', d', (run_plain_of_afterCalls he (by decide)).mono fun _ _ _ h => ⟨h.1.keepsReadable.1, h.2⟩,
      fun _ => hempty, hbefore, hopen, hget⟩

end LsmStorageInner

end

end TinyLsm

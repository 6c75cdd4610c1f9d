import TinyLsm.LsmStorage.Invariant
import TinyLsm.LsmStorage.Open
import TinyLsm.Compact.Output

/-!
# No table is empty

Every iterator over a table starts by reading a block, and indexes the block metadata to find it.  On
a table without blocks that is a panic.

A flush of a memtable that is not empty builds a table that is not empty.  A compaction does so
unless its stream `LeavesEmpty`, which a compaction to the bottom level meets as soon as the last
entries of its stream are tombstones that start a table.  In a run without such a compaction no table
of the engine is ever empty (`RunOf.noEmptyTable`).
-/

namespace TinyLsm

open StorageIterator

/-! ## Opening an iterator -/

/-- The call does not panic at an index. -/
def InBounds {α : Type} (o : Outcome α) : Prop := o ≠ .error (.panic "index out of bounds")

namespace InBounds

variable {α β : Type}

theorem ok (a : α) : InBounds (.ok a : Outcome α) := by
  rintro ⟨⟩

theorem err (msg : String) : InBounds (.error (.err msg) : Outcome α) := by
  rintro ⟨⟩

theorem panic {msg : String} (h : msg ≠ "index out of bounds") :
    InBounds (.error (.panic msg) : Outcome α) := by
  intro heq
  cases heq
  exact h rfl

theorem bind {x : Outcome α} {f : α → Outcome β} (hx : InBounds x) (hf : ∀ a, InBounds (f a)) :
    InBounds (x >>= f) := by
  cases x with
  | error e =>
    intro h
    exact hx (congrArg Except.error (Except.error.inj h))
  | ok a => exact hf a

theorem ofOption {f : Fault} (hf : f ≠ .panic "index out of bounds") (o : Option α) :
    InBounds (Outcome.ofOption f o) := by
  cases o with
  | none =>
    intro h
    exact hf (Except.error.inj h)
  | some a => exact ok a

theorem ite {p : Prop} [Decidable p] {x y : Outcome α} (hx : InBounds x) (hy : InBounds y) :
    InBounds (if p then x else y) := by
  split
  · exact hx
  · exact hy

theorem getUint (w : ℕ) (bs : Bytes) : InBounds (getUint w bs) := ofOption (by decide) _

theorem getSlice (n : ℕ) (bs : Bytes) : InBounds (getSlice n bs) := ofOption (by decide) _

theorem sliceFrom (start : ℕ) (data : Bytes) : InBounds (sliceFrom start data) :=
  ite (ok _) (panic (by decide))

theorem slice (data : Bytes) (start stop : ℕ) : InBounds (slice data start stop) :=
  ite (ok _) (panic (by decide))

theorem usizeSub (a b : ℕ) : InBounds (usizeSub a b) := ite (ok _) (panic (by decide))

theorem fileRead (file : Bytes) (offset len : ℕ) : InBounds (fileRead file offset len) :=
  ite (ok _) (err _)

theorem verifyChecksum [Platform] (msg : String) (buf : Bytes) :
    InBounds (verifyChecksum msg buf) := by
  refine bind (usizeSub _ _) fun dataLen => bind (slice _ _ _) fun data => ?_
  refine bind (sliceFrom _ _) fun tail => bind (getUint _ _) fun p => ?_
  exact ite (ok _) (err _)

theorem decode (data : Bytes) : InBounds (Block.decode data) := by
  refine bind (usizeSub _ _) fun offsetEnd => bind (sliceFrom _ _) fun tail => ?_
  refine bind (getUint _ _) fun p => bind (usizeSub _ _) fun offsetStart => ?_
  exact bind (slice _ _ _) fun tmp => bind (usizeSub _ _) fun dataEnd => ok _

theorem seekTo (it : BlockIterator) (idx : ℕ) : InBounds (it.seekTo idx) := by
  unfold BlockIterator.seekTo
  split
  · exact ok _
  · refine bind (bind ?_ fun r => ok _) fun it => ok _
    unfold readEntry
    refine bind (sliceFrom _ _) fun entry => bind (getUint _ _) fun p => ?_
    refine bind (getUint _ _) fun p => bind (getSlice _ _) fun p => bind (getSlice _ _) fun q => ?_
    exact bind (getUint _ _) fun p => bind (getUint _ _) fun q => ok _

theorem seekLoop (target : Key) (n start stop : ℕ) (it : BlockIterator) :
    InBounds (BlockIterator.seekLoop target n start stop it) := by
  induction n generalizing start stop it with
  | zero => exact seekTo it start
  | succ n ih =>
    rw [BlockIterator.seekLoop]
    refine ite ?_ (seekTo it start)
    exact bind (seekTo it _) fun it' => ite (ih _ _ _) (ite (ih _ _ _) (ok _))

theorem newBlockIterator (b : Block) : InBounds (BlockIterator.new b) := by
  refine bind ?_ fun k => ok _
  refine bind (getUint _ _) fun p => bind (getUint _ _) fun p => bind (getSlice _ _) fun p => ?_
  exact bind (getUint _ _) fun p => ok _

variable [Platform] {t : SsTable}

/-- Block `i` is there. -/
theorem readBlock {i : ℕ} (hi : i < t.blockMeta.length) : InBounds (t.readBlock i) := by
  unfold SsTable.readBlock
  rw [List.getElem?_eq_getElem hi]
  refine bind (ok _) fun m => bind (usizeSub _ _) fun len => bind (fileRead _ _ _) fun raw => ?_
  exact bind (verifyChecksum _ _) fun data => decode data

theorem readBlockFirst {i : ℕ} (hi : i < t.blockMeta.length) :
    InBounds (SsTableIterator.readBlockFirst t i) :=
  bind (readBlock hi) fun b => bind (newBlockIterator b) fun it => seekTo it 0

theorem tableFirst (h : t.blockMeta ≠ []) : InBounds (SsTableIterator.createAndSeekToFirst t) :=
  bind (readBlockFirst (List.length_pos_of_ne_nil h)) fun _ => ok _

/-- Without a block the first read panics. -/
theorem tableFirst_of_empty (h : t.blockMeta = []) :
    SsTableIterator.createAndSeekToFirst t = .error (.panic "index out of bounds") := by
  simp only [SsTableIterator.createAndSeekToFirst, SsTableIterator.readBlockFirst,
    SsTable.readBlock, h, List.getElem?_nil, Outcome.ofOption_none]
  rfl

theorem tableSeek (h : t.blockMeta ≠ []) (key : Key) :
    InBounds (SsTableIterator.createAndSeekToKey t key) := by
  have hidx : t.findBlockIdx key < t.blockMeta.length := by
    have hpos := List.length_pos_of_ne_nil h
    have hle := partitionPoint_le (fun m : BlockMeta => decide (m.firstKey ≤ key)) t.blockMeta
    unfold SsTable.findBlockIdx
    omega
  refine bind (readBlock hidx) fun b => bind (bind (newBlockIterator b) fun it => seekLoop _ _ _ _ it)
    fun it => ite (ok _) ?_
  split
  · rename_i hlt
    exact bind (readBlockFirst hlt) fun it => ok _
  · exact ok _

/-- The tables after the current one are opened on the way to an entry. -/
theorem moveLoop {ssts : List SsTable} (h : ∀ t ∈ ssts, t.blockMeta ≠ []) (it : SstConcatIterator) :
    InBounds (SstConcatIterator.moveLoop ssts it).1 := by
  induction ssts generalizing it with
  | nil => exact ok _
  | cons t ssts ih =>
    obtain ⟨ht, hssts⟩ := List.forall_mem_cons.mp h
    rw [SstConcatIterator.moveLoop]
    split
    · have hopen := tableFirst ht
      split
      · rename_i e he
        rw [he] at hopen
        intro herr
        exact hopen (congrArg Except.error (Except.error.inj herr))
      · exact ih hssts _
    · exact ok _

omit [Platform] in
theorem result {I : Type} {r : Stepped I} (h : InBounds r.1) : InBounds r.result := by
  obtain ⟨o, it⟩ := r
  cases o with
  | ok u => exact ok it
  | error e =>
    intro herr
    exact h (congrArg Except.error (Except.error.inj herr))

/-- **Opening a list of tables that are not empty stays within their blocks.** -/
theorem concat {ssts : List SsTable} (h : ∀ t ∈ ssts, t.blockMeta ≠ []) :
    InBounds (SstConcatIterator.createAndSeekToFirst ssts) ∧
      ∀ key, InBounds (SstConcatIterator.createAndSeekToKey ssts key) := by
  have hmove : ∀ it : SstConcatIterator, it.sstables = ssts →
      InBounds (SstConcatIterator.moveUntilValid it).result := by
    intro it hit
    refine result (moveLoop (fun t ht => h t ?_) it)
    rw [← hit]
    exact List.mem_of_mem_drop ht
  refine ⟨?_, fun key => ?_⟩
  · unfold SstConcatIterator.createAndSeekToFirst
    refine ite ?_ (panic (by decide))
    split
    · exact ok _
    · rename_i t ht
      exact bind (tableFirst (h t (List.mem_of_getElem? ht))) fun it => hmove _ rfl
  · unfold SstConcatIterator.createAndSeekToKey
    refine ite ?_ (panic (by decide))
    dsimp only
    split
    · exact ok _
    · rename_i t ht
      exact bind (tableSeek (h t (List.mem_of_getElem? ht)) key) fun it => hmove _ rfl

end InBounds

/-! ## What a compaction writes -/

/-- The table has a block, and its keys are those of its first and its last entry. -/
structure SsTable.NonemptyTable (t : SsTable) : Prop where
  blocks : t.blockMeta ≠ []
  firstKey : t.firstKey.keyRef ≠ []
  keys : t.firstKey ≤ t.lastKey

section

variable [Platform] {options : LsmStorageOptions} {compactToBottom : Bool}

/-- No chunk is empty, unless the stream leaves one. -/
theorem chunk_ne_nil_iff (l : List Entry) :
    (∀ c ∈ chunks options compactToBottom none l, c ≠ []) ↔
      ¬LeavesEmpty options compactToBottom l := by
  cases compactToBottom with
  | false =>
    refine iff_of_true (chunks_ne_nil (by simp) l) ?_
    rintro ⟨hfalse, -⟩
    cases hfalse
  | true =>
    rw [← nil_mem_chunks_iff]
    constructor
    · intro h hnil
      exact h [] hnil rfl
    · rintro h c hc rfl
      exact h hc

theorem blockMeta_of_built {ssts : List SsTable} {cs : List (List Entry)}
    (h : List.Forall₂ (fun t c => SsTable.ofEntries options.blockSize t.id c = .ok t) ssts cs) :
    (∀ t ∈ ssts, t.blockMeta ≠ []) ↔ ∀ c ∈ cs, c ≠ [] := by
  constructor
  · rintro hssts c hc rfl
    obtain ⟨t, ht, hbuild⟩ := exists_of_mem_right h hc
    exact hssts t ht (SsTable.ofEntries_nil hbuild)
  · intro hcs t ht
    obtain ⟨c, hc, hbuild⟩ := exists_of_mem_left h ht
    exact (SsTable.ofEntries_ne_nil (hcs c hc) hbuild).1

/-- The tables of a sorted stream are not empty, unless the stream leaves one. -/
theorem generate_nonempty_iff {I : Type} [StorageIterator I Key] {iter : I} {l : List Entry}
    (h : Visits iter l) (hs : SortedRun l) {p p' : Disk × ℕ} {ssts : List SsTable}
    (hok : (compactGenerateSstFromIter options iter compactToBottom).exec p = (.ok ssts, p')) :
    (∀ t ∈ ssts, t.NonemptyTable) ↔ ¬LeavesEmpty options compactToBottom l := by
  obtain ⟨l', hl', hwrote⟩ := generate_visits hok
  rw [← h.unique hl'] at hwrote
  rw [← chunk_ne_nil_iff, ← blockMeta_of_built hwrote.built]
  constructor
  · intro hssts t ht
    exact (hssts t ht).blocks
  · intro hssts t ht
    obtain ⟨c, hc, hbuild⟩ := exists_of_mem_left hwrote.built ht
    have hne := (blockMeta_of_built hwrote.built).mp hssts c hc
    obtain ⟨-, ⟨a, ha, hfirst⟩, z, hz, hlast⟩ := SsTable.ofEntries_ne_nil hne hbuild
    have hsorted : SortedRun c := by
      refine hs.sublist ((List.sublist_flatten_of_mem hc).trans ?_)
      rw [flatten_chunks]
      exact List.filter_sublist
    have hkey : a.1.keyRef ≠ [] := by
      unfold SsTable.ofEntries at hbuild
      rw [Outcome.bind_eq_ok_iff] at hbuild
      obtain ⟨b, hadd, -⟩ := hbuild
      exact SsTableBuilder.keys_ne_of_addAll hadd a (List.mem_of_mem_head? ha)
    refine ⟨hssts t ht, by rwa [hfirst], ?_⟩
    rw [hfirst, hlast]
    cases c with
    | nil => exact absurd rfl hne
    | cons x c =>
      cases ha
      exact hsorted.head_le (List.mem_of_getLast? hz)

end

/-! ## Runs -/

namespace LsmStorageInner

open LsmStorageState

variable [Platform] {e e' : LsmStorageInner}

/-- No compaction closes an empty table. -/
def Op.KeepsSome (e : LsmStorageInner) : Op → Prop
  | .compact => ∀ task l, e.compactionController.generateCompactionTask e.state = .ok (some task) →
      Streams e.state task l → ¬LeavesEmpty e.options task.compactToBottomLevel l
  | .fullCompact => ∀ level₁ l, e.state.levels[0]? = some level₁ →
      Streams e.state (.forceFullCompaction e.state.l0Sstables level₁.2) l →
        ¬LeavesEmpty e.options true l
  | _ => True

/-- No table is empty, and no flush can make one that is. -/
structure NoEmptyTable (e : LsmStorageInner) : Prop where
  tables : ∀ id t, e.state.sstables.lookup id = some t → t.blockMeta ≠ []
  imms : ∀ m ∈ e.state.immMemtables, m.map.entries ≠ []
  keys : ∀ m ∈ e.state.memtables, m.KeysNonempty

omit [Platform] in
theorem NoEmptyTable.freeze (h : e.NoEmptyTable) (hne : e.state.memtable.map.entries ≠ [])
    {m : MemTable} (hfroze : Froze e e' m) : e'.NoEmptyTable := by
  refine ⟨?_, ?_, ?_⟩
  · rw [hfroze.state]
    exact h.tables
  · rw [hfroze.state]
    exact List.forall_mem_cons.mpr ⟨hne, h.imms⟩
  · unfold LsmStorageState.memtables
    rw [hfroze.state]
    refine List.forall_mem_cons.mpr ⟨?_, h.keys⟩
    unfold MemTable.KeysNonempty
    rw [hfroze.empty]
    rintro x ⟨⟩

omit [Platform] in
theorem NoEmptyTable.afterPut (h : e.NoEmptyTable) {data : List Entry}
    (hdata : ∀ x ∈ data, x.1.keyRef ≠ []) (d : Disk) : (e.afterPut data d).NoEmptyTable := by
  refine ⟨h.tables, h.imms, ?_⟩
  obtain ⟨hmem, himms⟩ := List.forall_mem_cons.mp h.keys
  refine List.forall_mem_cons.mpr ⟨?_, himms⟩
  intro x hx
  change x ∈ (e.state.memtable.insertAll data).map.entries at hx
  rw [MemTable.insertAll_map] at hx
  rcases SkipMap.mem_insertAll.mp hx with hlast | ⟨-, hold⟩
  · exact hdata x (LastIn.mem hlast)
  · exact hmem x hold

theorem NoEmptyTable.writeBatch (h : e.NoEmptyTable) {batch : List WriteBatchRecord}
    (hproper : (Op.writeBatch batch).Proper e) (hstep : Step e (.writeBatch batch) e') :
    e'.NoEmptyTable := by
  obtain ⟨ts, d, e₁, -, -, hfreeze, rfl⟩ := writeBatch_ok hstep
  have hput : (e.afterPut (batch.map (WriteBatchRecord.entry ts)) d).NoEmptyTable := by
    refine h.afterPut ?_ d
    intro x hx
    obtain ⟨record, hrecord, rfl⟩ := List.mem_map.mp hx
    exact hproper.1 record hrecord
  suffices hafter : e₁.NoEmptyTable from ⟨hafter.tables, hafter.imms, hafter.keys⟩
  rcases tryFreeze_ok hfreeze with rfl | ⟨hsize, m, hfroze⟩
  · exact hput
  · refine hput.freeze ?_ hfroze
    change (e.state.memtable.insertAll _).map.entries ≠ []
    rw [MemTable.insertAll_map, Ne, SkipMap.insertAll_eq_nil_iff, List.map_eq_nil_iff]
    rintro ⟨rfl, hempty⟩
    exact absurd (hproper.2 rfl hempty) (not_lt.mpr hsize)

/-- A flush builds its table from a memtable that is not empty. -/
theorem NoEmptyTable.flush (h : e.NoEmptyTable) (hstep : Step e .flush e') : e'.NoEmptyTable := by
  rcases forceFlushNextImmMemtable_ok hstep with ⟨-, rfl⟩ | ⟨m, builder, hflushed⟩
  · exact h
  have hm : m ∈ e.state.immMemtables := by
    rw [hflushed.imms]
    exact List.mem_append_right _ (List.mem_singleton.mpr rfl)
  have himms : ∀ m' ∈ e'.state.immMemtables, m' ∈ e.state.immMemtables := by
    intro m' hm'
    rw [hflushed.imms]
    exact List.mem_append_left _ hm'
  have hbuild := hflushed.built (h.keys m (List.mem_cons_of_mem _ hm))
  refine ⟨?_, fun m' hm' => h.imms m' (himms m' hm'), ?_⟩
  · intro id t ht
    rw [hflushed.sstables] at ht
    by_cases hid : id = m.id
    · subst hid
      rw [AList.lookup_insert] at ht
      rw [← Option.some.inj ht]
      exact (SsTable.ofEntries_ne_nil (h.imms m hm) hbuild).1
    · rw [AList.lookup_insert_ne hid] at ht
      exact h.tables id t ht
  · unfold LsmStorageState.memtables
    rw [hflushed.memtable]
    obtain ⟨hmem, hkeys⟩ := List.forall_mem_cons.mp h.keys
    exact List.forall_mem_cons.mpr ⟨hmem, fun m' hm' => hkeys m' (himms m' hm')⟩

/-- What a compaction wrote is not empty exactly when its stream leaves no table empty. -/
theorem output_nonempty_iff {s : LsmStorageState MemTable} {options : LsmStorageOptions}
    {task : CompactionTask} {p p' : Disk × ℕ} {ssts : List SsTable}
    (hok : (compact options s task).exec p = (.ok ssts, p')) :
    (∀ t ∈ ssts, t.blockMeta ≠ []) ↔
      ∀ l, Streams s task l → ¬LeavesEmpty options task.compactToBottomLevel l := by
  obtain ⟨l, hl, hwrote⟩ := compact_streams hok
  rw [blockMeta_of_built hwrote.built, chunk_ne_nil_iff l]
  constructor
  · intro h l' hl'
    obtain rfl := hl.unique hl'
    exact h
  · exact fun h => h l hl

theorem NoEmptyTable.compact (h : e.NoEmptyTable) (hsome : Op.compact.KeepsSome e)
    (hstep : Step e .compact e') : e'.NoEmptyTable := by
  rcases triggerCompaction_ok hstep with ⟨-, rfl⟩ | ⟨task, output, s, removed, hcompacted⟩
  · exact h
  obtain ⟨d, hcompact, -⟩ := hcompacted.compact
  have hout := (output_nonempty_iff hcompact).mpr fun l hl => hsome task l hcompacted.generated hl
  have hframe := CompactionController.applyCompactionResult_frame hcompacted.apply
  refine ⟨?_, ?_, ?_⟩
  · intro id t ht
    rw [hcompacted.state] at ht
    simp only [lookup_eraseTables] at ht
    split at ht
    · cases ht
    · rw [hframe] at ht
      rcases mem_or_lookup_of_insertTables ht with ht | ht
      · exact hout t ht
      · exact h.tables id t ht
  · rw [hcompacted.state, hframe]
    exact h.imms
  · unfold LsmStorageState.memtables
    rw [hcompacted.state, hframe]
    exact h.keys

theorem NoEmptyTable.fullCompact (h : e.NoEmptyTable) (hsome : Op.fullCompact.KeepsSome e)
    (hstep : Step e .fullCompact e') : e'.NoEmptyTable := by
  obtain ⟨level₁, newSsts, hcompacted⟩ := forceFullCompaction_ok hstep
  obtain ⟨d, hcompact, -⟩ := hcompacted.compact
  have hout := (output_nonempty_iff hcompact).mpr fun l hl => hsome level₁ l hcompacted.level hl
  refine ⟨?_, ?_, ?_⟩
  · intro id t ht
    rw [hcompacted.state] at ht
    rcases mem_or_lookup_of_insertTables ht with ht | ht
    · exact hout t ht
    · rw [lookup_eraseTables] at ht
      split at ht
      · cases ht
      · exact h.tables id t ht
  · rw [hcompacted.state]
    exact h.imms
  · unfold LsmStorageState.memtables
    rw [hcompacted.state]
    exact h.keys

theorem Fresh.noEmptyTable {options : LsmStorageOptions} (h : Fresh options e) : e.NoEmptyTable := by
  obtain ⟨m, hnew⟩ := h.isNew
  refine ⟨?_, ?_, ?_⟩
  · rw [hnew.state]
    rintro id t ⟨⟩
  · rw [hnew.state]
    rintro m' ⟨⟩
  · rw [hnew.state]
    refine List.forall_mem_cons.mpr ⟨?_, ?_⟩
    · unfold MemTable.KeysNonempty
      rw [show (LsmStorageState.create options m).memtable = m from rfl, hnew.empty]
      rintro x ⟨⟩
    · rintro m' ⟨⟩

/-- **In a run without a compaction that closes an empty table, no table is empty.** -/
theorem RunOf.noEmptyTable {ops : List Op}
    (hrun : RunOf (fun e op => op.Proper e ∧ op.KeepsSome e) e ops e') (h : e.NoEmptyTable) :
    e'.NoEmptyTable := by
  refine hrun.invariant NoEmptyTable ?_ h
  rintro e op e' h ⟨⟨hproper, hsome⟩, hstep⟩
  cases op with
  | writeBatch batch => exact h.writeBatch hproper hstep
  | freeze =>
    obtain ⟨m, hfroze⟩ := forceFreezeMemtable_ok hstep
    exact h.freeze hproper hfroze
  | flush => exact h.flush hstep
  | compact => exact h.compact hsome hstep
  | fullCompact => exact h.fullCompact hsome hstep

/-- **Compaction and flush install no empty table**, exactly as long as no compaction closes one: the
tables of a sorted stream are not empty if and only if the stream does not leave an empty one, and
in a run without such a compaction opening an iterator over listed tables stays within their
blocks. -/
theorem no_empty_table_iff :
    (∀ (options : LsmStorageOptions) (compactToBottom : Bool) (I : Type) [StorageIterator I Key]
      (iter : I) (l : List Entry) (p : Disk × ℕ), Yields Drained iter l → SortedRun l →
      (∀ x ∈ l, x.1.keyRef ≠ []) →
      (p.1.Reliable → ∃ ssts p',
        (compactGenerateSstFromIter options iter compactToBottom).exec p = (.ok ssts, p')) ∧
      ∀ ssts p', (compactGenerateSstFromIter options iter compactToBottom).exec p = (.ok ssts, p') →
        ((∀ t ∈ ssts, t.NonemptyTable) ↔ ¬LeavesEmpty options compactToBottom l)) ∧
    ∀ options e₀ ops e, Fresh options e₀ →
      RunOf (fun e op => op.Proper e ∧ op.KeepsSome e) e₀ ops e →
      ∀ ssts : List SsTable,
        (∀ t ∈ ssts, ∃ id ∈ e.state.listedIds, e.state.sstables.lookup id = some t) →
        (∀ t ∈ ssts, t.blockMeta ≠ [] ∧ InBounds (SsTableIterator.createAndSeekToFirst t) ∧
          ∀ key, InBounds (SsTableIterator.createAndSeekToKey t key)) ∧
        InBounds (SstConcatIterator.createAndSeekToFirst ssts) ∧
        ∀ key, InBounds (SstConcatIterator.createAndSeekToKey ssts key) := by
  refine ⟨?_, ?_⟩
  · intro options compactToBottom I _ iter l p hyields hs hkeys
    refine ⟨fun hp => ?_, fun ssts p' hok => generate_nonempty_iff hyields.visits hs hok⟩
    obtain ⟨ssts, p', hok, -⟩ := compactLoop_reliable hyields hkeys hyields.length_le none hp
    exact ⟨ssts, p', hok⟩
  · intro options e₀ ops e hfresh hrun ssts hssts
    have hnone := RunOf.noEmptyTable hrun hfresh.noEmptyTable
    have hne : ∀ t ∈ ssts, t.blockMeta ≠ [] := by
      intro t ht
      obtain ⟨id, -, hlookup⟩ := hssts t ht
      exact hnone.tables id t hlookup
    refine ⟨?_, InBounds.concat hne⟩
    intro t ht
    exact ⟨hne t ht, InBounds.tableFirst (hne t ht), InBounds.tableSeek (hne t ht)⟩

/-- A test for a task whose output has no empty table. -/
def writesBlocks (e : LsmStorageInner) (task : CompactionTask) : Bool :=
  match (compact e.options e.state task).exec (e.disk, e.nextSstId) with
  | (.ok ssts, _) => ssts.all fun t => !t.blockMeta.isEmpty
  | (.error _, _) => false

theorem not_leavesEmpty_of_writesBlocks {task : CompactionTask} {l : List Entry}
    (h : e.writesBlocks task = true) (hl : Streams e.state task l) :
    ¬LeavesEmpty e.options task.compactToBottomLevel l := by
  unfold writesBlocks at h
  split at h
  · rename_i ssts p' hok
    refine (output_nonempty_iff hok).mp (fun t ht hnil => ?_) l hl
    have hmem := List.all_eq_true.mp h t ht
    rw [hnil] at hmem
    cases hmem
  · cases h

/-- A test for `Op.KeepsSome`. -/
def Op.writesBlocks (e : LsmStorageInner) : Op → Bool
  | .compact =>
    match e.compactionController.generateCompactionTask e.state with
    | .ok (some task) => e.writesBlocks task
    | _ => true
  | .fullCompact =>
    match e.state.levels[0]? with
    | some level₁ => e.writesBlocks (.forceFullCompaction e.state.l0Sstables level₁.2)
    | none => true
  | _ => true

theorem Op.keepsSome_of_writesBlocks {op : Op} (h : op.writesBlocks e = true) : op.KeepsSome e := by
  cases op with
  | compact =>
    intro task l htask hl
    unfold writesBlocks at h
    rw [htask] at h
    exact not_leavesEmpty_of_writesBlocks h hl
  | fullCompact =>
    intro level₁ l hlevel hl
    unfold writesBlocks at h
    rw [hlevel] at h
    exact not_leavesEmpty_of_writesBlocks h hl
  | writeBatch batch => trivial
  | freeze => trivial
  | flush => trivial

end LsmStorageInner

namespace LsmStorageInner

section

attribute [local instance] shortKeyPlatform

/-- Two keys are written and flushed, and one of them is deleted.  A compaction to the bottom leaves the
deletion out and keeps the other key. -/
theorem no_empty_table_small : ∃ e : LsmStorageInner,
    (e.state.listedIds = [3] ∧ ∃ t, e.state.sstables.lookup 3 = some t ∧
      (∀ t' ∈ [t], t'.blockMeta ≠ [] ∧ InBounds (SsTableIterator.createAndSeekToFirst t') ∧
        ∀ key, InBounds (SsTableIterator.createAndSeekToKey t' key)) ∧
      InBounds (SstConcatIterator.createAndSeekToFirst [t]) ∧
      ∀ key, InBounds (SstConcatIterator.createAndSeekToKey [t] key)) := by
  let options : LsmStorageOptions := ⟨4096, 2 ^ 20, 50, .noCompaction, false⟩
  let ops : List Op := [.writeBatch [.put [1] [7], .put [2] [9]], .freeze, .flush,
    .writeBatch [.del [1]], .freeze, .flush, .fullCompact]
  let call (e : LsmStorageInner) (op : Op) : Option LsmStorageInner :=
    if op.Proper e ∧ op.writesBlocks e = true then afterCall e op else none
  have hcall : ∀ e op e', call e op = some e' →
      (op.Proper e ∧ op.KeepsSome e) ∧ Step e op e' := by
    intro e op e' h
    by_cases hop : op.Proper e ∧ op.writesBlocks e = true
    · refine ⟨⟨hop.1, Op.keepsSome_of_writesBlocks hop.2⟩, step_of_afterCall ?_⟩
      rw [← h]
      exact (if_pos hop).symm
    · rw [show call e op = none from if_neg hop] at h
      cases h
  have hfinal : (execAll call ops (newStore options)).map (fun e =>
      (e.state.listedIds, (e.state.sstables.lookup 3).isSome)) = some ([3], true) := by
    decide +kernel
  obtain ⟨e, he, hsummary⟩ := Option.map_eq_some_iff.mp hfinal
  obtain ⟨hlisted, hsome⟩ := Prod.mk.inj hsummary
  obtain ⟨t, ht⟩ := Option.isSome_iff_exists.mp hsome
  refine ⟨e, hlisted, t, ht, ?_⟩
  refine no_empty_table_iff.2 options (newStore options) ops e (fresh_newStore options)
    (run_of_execAll hcall he) [t] ?_
  intro t' ht'
  rw [List.mem_singleton.mp ht', hlisted]
  exact ⟨3, List.mem_singleton.mpr rfl, ht⟩

/-- A key is deleted and everything is compacted: the new table has no block. -/
theorem fullCompact_leaves_empty : ∃ e t,
    RunOf (fun e op => op.Proper e) (newStore ⟨4096, 2 ^ 20, 50, .noCompaction, false⟩)
      [.writeBatch [.del [1]], .freeze, .flush, .fullCompact] e ∧
    2 ∈ e.state.listedIds ∧ e.state.sstables.lookup 2 = some t ∧ t.blockMeta = [] ∧
    SsTableIterator.createAndSeekToFirst t = .error (.panic "index out of bounds") := by
  have hfinal : (afterCalls [.writeBatch [.del [1]], .freeze, .flush, .fullCompact]
      (newStore ⟨4096, 2 ^ 20, 50, .noCompaction, false⟩)).map (fun e =>
        (e.state.listedIds, (e.state.sstables.lookup 2).map SsTable.blockMeta)) =
      some ([2], some []) := by
    decide +kernel
  obtain ⟨e, he, hsummary⟩ := Option.map_eq_some_iff.mp hfinal
  obtain ⟨hlisted, hblocks⟩ := Prod.mk.inj hsummary
  obtain ⟨t, ht, hempty⟩ := Option.map_eq_some_iff.mp hblocks
  refine ⟨e, t, run_of_afterCalls he, ?_, ht, hempty, InBounds.tableFirst_of_empty hempty⟩
  rw [hlisted]
  exact List.mem_singleton.mpr rfl

end

end LsmStorageInner

end TinyLsm

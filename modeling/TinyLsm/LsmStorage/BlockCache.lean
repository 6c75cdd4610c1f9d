import TinyLsm.Lib.Memo
import TinyLsm.LsmStorage.Files

/-!
# The block cache

All tables of a store read their blocks through one cache, which is keyed by the id of the table and
the index of the block and may forget anything at any time.  The blocks of a removed table stay in it,
and iterators go on reading that table.

`cached_reads`: a block that comes through the cache is the block that is in the file, in every run,
for every table that there has been.  What makes it true is that no id is used for two tables.
-/

namespace TinyLsm

/-- `BlockCache`, a `moka` cache. -/
abbrev BlockCache := Memo (ℕ × ℕ) Block

/-- `read_block_cached`, for a table with a cache. -/
def SsTable.readBlockCached [Platform] (t : SsTable) (blockIdx : ℕ) : Effect Fault BlockCache Block :=
  Memo.through (t.id, blockIdx) (t.readBlock blockIdx)

/-- A store, the tables that there have been in it, and its cache. -/
structure CachedStore where
  engine : LsmStorageInner
  tables : List SsTable
  cache : BlockCache

namespace CachedStore

open LsmStorageInner

/-- A call of the engine, a read by the holder of a table, or an eviction. -/
inductive Act where
  | call (op : Op)
  | readBlock (t : SsTable) (blockIdx : ℕ)
  | evict (cache : BlockCache)

/-- The block of a table that there has been. -/
def BlockOf [Platform] (tables : List SsTable) (k : ℕ × ℕ) (block : Block) : Prop :=
  ∃ t ∈ tables, t.id = k.1 ∧ t.readBlock k.2 = .ok block

variable [Platform]

/-- One act: a call on the engine that returns `Ok`, a read of a block by whoever holds a table, or an
eviction. -/
def Acts (s : CachedStore) : Act → CachedStore → Prop
  | .call op, t => op.Fits ∧ Step s.engine op t.engine ∧ t.cache = s.cache ∧
    t.tables = t.engine.state.sstables.entries.map Sigma.snd ++ s.tables
  | .readBlock table blockIdx, t => table ∈ s.tables ∧
    t = { s with cache := ((table.readBlockCached blockIdx).exec s.cache).2 }
  | .evict cache, t => cache.Within s.cache ∧ t = { s with cache }

/-- A table that there has been: it was built from the contents of its id, which is not given away
again. -/
structure Past (options : LsmStorageOptions) (contents : ℕ → List Entry) (e : LsmStorageInner)
    (t : SsTable) : Prop where
  built : SsTable.ofEntries options.blockSize t.id (contents t.id) = .ok t
  old : t.id < e.nextSstId
  free : t.id ∉ e.state.memtables.map MemTable.id

/-- What is in the cache is what is in the files of the tables that ever were. -/
structure Coherent (options : LsmStorageOptions) (contents : ℕ → List Entry) (s : CachedStore) :
    Prop where
  housed : s.engine.Housed options contents
  past : ∀ t ∈ s.tables, Past options contents s.engine t
  present : ∀ id t, s.engine.state.sstables.lookup id = some t → t ∈ s.tables
  sound : s.cache.Sound (BlockOf s.tables)

variable {options : LsmStorageOptions} {contents contents' : ℕ → List Entry} {e e' : LsmStorageInner}
  {s t : CachedStore} {a : Act} {acts : List Act}

/-- What was stays what it was. -/
theorem Past.step {u : SsTable} (h : Past options contents e u) (hold : KeepsOld e e' contents contents') :
    Past options contents' e' u where
  built := by
    rw [hold.contents u.id h.old h.free]
    exact h.built
  old := h.old.trans_le hold.nextSstId
  free := hold.memtables u.id h.old h.free

/-- The tables of the map. -/
theorem past_of_housed (h : e.Housed options contents) {id : ℕ} {u : SsTable}
    (hu : e.state.sstables.lookup id = some u) : Past options contents e u := by
  have hbuilt := h.built id u hu
  rw [h.settled.laid.opts] at hbuilt
  have hid : u.id = id := SsTable.ofEntries_id hbuilt
  have hlisted : id ∈ e.state.listedIds := (h.listed id).mp (by rw [hu]; rfl)
  rw [← hid] at hbuilt hlisted
  refine ⟨hbuilt, h.settled.laid.ids u.id (List.mem_append_right _ hlisted), fun hmem => ?_⟩
  exact (List.nodup_append.mp h.settled.laid.nodup).2.2 _ hmem _ hlisted rfl

/-- An id names one table. -/
theorem Coherent.unique (h : Coherent options contents s) {u u' : SsTable} (hu : u ∈ s.tables)
    (hu' : u' ∈ s.tables) (hid : u.id = u'.id) : u = u' := by
  have hbuilt := (h.past u hu).built
  rw [hid] at hbuilt
  exact Except.ok.inj (hbuilt.symm.trans (h.past u' hu').built)

/-- **A read through a coherent cache.** -/
theorem Coherent.read (h : Coherent options contents s) {u : SsTable} (hu : u ∈ s.tables)
    (blockIdx : ℕ) : ∃ cache, (u.readBlockCached blockIdx).exec s.cache = (u.readBlock blockIdx, cache) ∧
      cache.Sound (BlockOf s.tables) := by
  refine Memo.exec_through h.sound ?_ fun block hblock => ⟨u, hu, rfl, hblock⟩
  rintro block ⟨u', hu', hid, hblock⟩
  rwa [h.unique hu hu' hid.symm]

/-- **One act.** -/
theorem Coherent.step (h : Coherent options contents s) (hstep : Acts s a t) :
    ∃ contents', Coherent options contents' t := by
  cases a with
  | call op =>
    obtain ⟨hfits, hcall, hcache, htables⟩ := hstep
    obtain ⟨contents', hhoused, hold⟩ := h.housed.step hfits hcall
    refine ⟨contents', hhoused, fun u hu => ?_, fun id u hu => ?_, ?_⟩
    · rw [htables, List.mem_append] at hu
      rcases hu with hu | hu
      · obtain ⟨⟨id, u⟩, hentry, rfl⟩ := List.mem_map.mp hu
        exact past_of_housed hhoused (AList.mem_lookup_iff.mpr hentry)
      · exact (h.past u hu).step hold
    · rw [htables]
      exact List.mem_append_left _ (List.mem_map.mpr ⟨⟨id, u⟩, AList.mem_lookup_iff.mp hu, rfl⟩)
    · rw [hcache, htables]
      refine h.sound.mono ?_
      rintro k block ⟨u, hu, hblock⟩
      exact ⟨u, List.mem_append_right _ hu, hblock⟩
  | readBlock u blockIdx =>
    obtain ⟨hu, rfl⟩ := hstep
    obtain ⟨cache, hread, hsound⟩ := h.read hu blockIdx
    refine ⟨contents, h.housed, h.past, h.present, ?_⟩
    rw [hread]
    exact hsound
  | evict cache =>
    obtain ⟨hwithin, rfl⟩ := hstep
    exact ⟨contents, h.housed, h.past, h.present, h.sound.within hwithin⟩

theorem coherent_of_run {e₀ : LsmStorageInner} (hblock : options.blockSize ≤ 65535)
    (hfresh : Fresh options e₀) (hrun : Run Acts ⟨e₀, [], ∅⟩ acts s) :
    ∃ contents, Coherent options contents s := by
  refine hrun.invariant (fun s => ∃ contents, Coherent options contents s) ?_ ?_
  · rintro s a t ⟨contents, h⟩ hstep
    exact h.step hstep
  · have hhoused := hfresh.housed hblock
    refine ⟨_, hhoused, fun _ hu => absurd hu List.not_mem_nil, fun id u hu => ?_, Memo.sound_empty⟩
    obtain ⟨m, hnew⟩ := hfresh.isNew
    rw [hnew.state] at hu
    cases hu

/-- **The cache is transparent**: in every run, a block that any table that there has been reads through
the cache is the one in its file, whatever was evicted, and the tables of the map are among these. -/
theorem cached_reads {e₀ : LsmStorageInner} (hblock : options.blockSize ≤ 65535)
    (hfresh : Fresh options e₀) (hrun : Run Acts ⟨e₀, [], ∅⟩ acts s) :
    (∀ id t, s.engine.state.sstables.lookup id = some t → t ∈ s.tables) ∧
      ∀ t ∈ s.tables, ∀ blockIdx,
        ((t.readBlockCached blockIdx).exec s.cache).1 = t.readBlock blockIdx := by
  obtain ⟨contents, h⟩ := coherent_of_run hblock hfresh hrun
  refine ⟨h.present, fun t ht blockIdx => ?_⟩
  obtain ⟨cache, hread, -⟩ := h.read ht blockIdx
  rw [hread]

/-- Calls alone are acts. -/
theorem acts_of_calls {ops : List Op} (hrun : RunOf (fun _ op => op.Fits) s.engine ops e) :
    ∃ tables, Run Acts s (ops.map .call) ⟨e, tables, s.cache⟩ := by
  induction hrun with
  | nil => exact ⟨s.tables, .nil⟩
  | @snoc ops op e e' _ hstep ih =>
    obtain ⟨tables, htables⟩ := ih
    rw [List.map_append]
    exact ⟨e'.state.sstables.entries.map Sigma.snd ++ tables,
      htables.snoc ⟨hstep.1, hstep.2, rfl, rfl⟩⟩

end CachedStore

section

attribute [local instance] shortKeyPlatform

namespace CachedStore

open LsmStorageInner

/-- A removed table whose block is still in the cache. -/
theorem cached_reads_small : ∃ (s : CachedStore) (t : SsTable) (block : Block), t ∈ s.tables ∧
    s.engine.state.sstables.lookup t.id = none ∧ s.cache.lookup (t.id, 0) = some block ∧
    t.readBlock 0 = .ok block ∧ ((t.readBlockCached 0).exec s.cache).1 = .ok block := by
  have hfinal : ((afterCalls oneTable (newStore smallOptions)).bind fun e =>
      (afterCall e .fullCompact).map fun e' => ((e.state.sstables.lookup 0).map fun t =>
        (t.id, (t.readBlock 0).toOption.isSome), (e'.state.sstables.lookup 0).isNone)) =
      some (some (0, true), true) := by
    decide +kernel
  obtain ⟨e, he, hrest⟩ := Option.bind_eq_some_iff.mp hfinal
  obtain ⟨e', he', hsummary⟩ := Option.map_eq_some_iff.mp hrest
  obtain ⟨htable, hgone⟩ := Prod.mk.inj hsummary
  obtain ⟨t, ht, htable⟩ := Option.map_eq_some_iff.mp htable
  obtain ⟨hid, hsome⟩ := Prod.mk.inj htable
  have hfits : ∀ op ∈ oneTable, op.Fits := by
    simp [oneTable, Op.Fits, WriteBatchRecord.key, WriteBatchRecord.value]
  let s₀ : CachedStore := ⟨newStore smallOptions, [], ∅⟩
  obtain ⟨tables, hcalls⟩ := acts_of_calls (s := s₀)
    ((run_of_afterCalls he).mono_of_mem fun op hop _ _ h => ⟨hfits op hop, h.2⟩)
  let s₁ : CachedStore := ⟨e, tables, s₀.cache⟩
  obtain ⟨hpresent, hreads⟩ := cached_reads (by decide) (fresh_newStore smallOptions) hcalls
  have hmem : t ∈ s₁.tables := hpresent 0 t ht
  obtain ⟨block, hblock⟩ : ∃ block, t.readBlock 0 = .ok block := by
    cases hread : t.readBlock 0 with
    | ok block => exact ⟨block, rfl⟩
    | error f =>
      rw [hread] at hsome
      cases hsome
  let s₂ : CachedStore := { s₁ with cache := ((t.readBlockCached 0).exec s₁.cache).2 }
  have h₂ : Acts s₁ (.readBlock t 0) s₂ := ⟨hmem, rfl⟩
  let s₃ : CachedStore := ⟨e', e'.state.sstables.entries.map Sigma.snd ++ tables, s₂.cache⟩
  have h₃ : Acts s₂ (.call .fullCompact) s₃ := ⟨trivial, step_of_afterCall he', rfl, rfl⟩
  have hmem' : t ∈ s₃.tables := List.mem_append_right _ hmem
  refine ⟨s₃, t, block, hmem', ?_, ?_, hblock, ?_⟩
  · rw [hid]
    exact Option.isNone_iff_eq_none.mp hgone
  · change (((Memo.through (t.id, 0) (t.readBlock 0)).exec ∅).2.lookup (t.id, 0)) = _
    rw [hblock]
    exact AList.lookup_insert _
  · rw [(cached_reads (by decide) (fresh_newStore smallOptions) ((hcalls.snoc h₂).snoc h₃)).2 t hmem' 0]
    exact hblock

end CachedStore

end

end TinyLsm

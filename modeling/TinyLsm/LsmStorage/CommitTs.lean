import TinyLsm.LsmStorage.Batch
import TinyLsm.LsmStorage.Close
import TinyLsm.Table.Casts

/-!
# The recovered commit timestamp

A table that is opened knows the first and the last key of each block only, and takes the largest
timestamp among these.  Keys are sorted by user key first, so the newest version may be anywhere in a
block.  A memtable that is read back from its log is scanned, and the scan ends at an empty key.
`recovered_ts_iff` says when the opened table knows its newest version nevertheless, and when the commit
timestamp of a reopened store bounds all versions in its tables and memtables.
-/

namespace TinyLsm

open LsmStorageInner

/-! ## One table -/

/-- A newest entry is the first or the last one of its block. -/
def NewestAtEdge (blockSize : ℕ) (es : List Entry) : Prop :=
  ∃ block ∈ packs blockSize [] es,
    (firstKeyOf block).ts = maxTsOf es ∨ (lastKeyOf block).ts = maxTsOf es

instance (blockSize : ℕ) (es : List Entry) : Decidable (NewestAtEdge blockSize es) := by
  unfold NewestAtEdge
  infer_instance

/-- The timestamps that an opened table looks at. -/
def edgeStamps (blocks : List (List Entry)) : List UInt64 :=
  blocks.flatMap fun es => [(firstKeyOf es).ts, (lastKeyOf es).ts]

theorem metaMaxTs_eq {metas : List BlockMeta} {blocks : List (List Entry)}
    (h : List.Forall₂ BlockMeta.Describes metas blocks) :
    SsTable.metaMaxTs metas = (edgeStamps blocks).foldr max 0 := by
  have hstamps : (metas.flatMap fun m => [m.firstKey.ts, m.lastKey.ts]) = edgeStamps blocks := by
    induction h with
    | nil => rfl
    | cons hd _ ih =>
      rw [List.flatMap_cons, ih, hd.keys.1, hd.keys.2]
      rfl
  rw [SsTable.metaMaxTs, hstamps]

theorem edge_mem {es : List Entry} (hne : es ≠ []) :
    (∃ a ∈ es, firstKeyOf es = a.1) ∧ ∃ z ∈ es, lastKeyOf es = z.1 := by
  refine ⟨⟨es.head hne, List.head_mem hne, ?_⟩, es.getLast hne, List.getLast_mem hne, ?_⟩
  · rw [firstKeyOf, List.head?_eq_some_head hne]
    rfl
  · rw [lastKeyOf, List.getLast?_eq_getLast_of_ne_nil hne]
    rfl

/-- The edges have the largest timestamp exactly when a newest entry is there. -/
theorem edgeStamps_eq_iff {blockSize : ℕ} {es : List Entry} (hne : es ≠ [])
    (hblocks : ∀ block ∈ packs blockSize [] es, block ≠ []) :
    (edgeStamps (packs blockSize [] es)).foldr max 0 = maxTsOf es ↔ NewestAtEdge blockSize es := by
  have hflat : (packs blockSize [] es).flatten = es := flatten_packs _ _ _
  have hmem : ∀ ts ∈ edgeStamps (packs blockSize [] es), ts ≤ maxTsOf es := by
    intro ts hts
    obtain ⟨block, hblock, hts⟩ := List.mem_flatMap.mp hts
    obtain ⟨⟨a, ha, hfirst⟩, z, hz, hlast⟩ := edge_mem (hblocks block hblock)
    have hin : ∀ x ∈ block, x.1.ts ≤ maxTsOf es := by
      intro x hx
      refine le_maxTsOf ?_
      rw [← hflat]
      exact List.mem_flatten.mpr ⟨block, hblock, hx⟩
    rw [List.mem_cons, List.mem_singleton, hfirst, hlast] at hts
    rcases hts with rfl | rfl
    · exact hin a ha
    · exact hin z hz
  constructor
  · intro h
    have hedges : edgeStamps (packs blockSize [] es) ≠ [] := by
      intro hnil
      cases hp : packs blockSize [] es with
      | nil =>
        rw [hp] at hflat
        exact hne hflat.symm
      | cons block rest =>
        rw [hp] at hnil
        cases hnil
    have hmax := foldr_max_mem hedges
    rw [h] at hmax
    obtain ⟨block, hblock, hts⟩ := List.mem_flatMap.mp hmax
    rw [List.mem_cons, List.mem_singleton] at hts
    exact ⟨block, hblock, hts.imp Eq.symm Eq.symm⟩
  · rintro ⟨block, hblock, hts⟩
    refine le_antisymm (foldr_max_le_iff.mpr hmem) ?_
    refine foldr_max_le_iff.mp le_rfl _ (List.mem_flatMap.mpr ⟨block, hblock, ?_⟩)
    rw [List.mem_cons, List.mem_singleton]
    exact hts.imp Eq.symm Eq.symm

namespace SsTableBuilder

variable [Platform]

/-- The table that is opened from the file, when there is one, takes its timestamp from the edges. -/
theorem openFile_maxTs {blockSize : ℕ} {es : List Entry} {b : SsTableBuilder}
    (h : (new blockSize).addAll es = .ok b) (hfits : MetaFits (packs blockSize [] es)) (id id' : ℕ) :
    (b.build id).maxTs = maxTsOf es ∧
      ((∃ t, SsTable.openFile id' (b.build id).file = .ok t ∧ t.maxTs = (b.build id).maxTs) ↔
        NewestAtEdge blockSize es) := by
  obtain ⟨b', done, cur, hadd, htracks, hsized, hpacks, -⟩ :=
    (new_sized blockSize).addAll es (new_tracks blockSize) (keys_ne_of_addAll h)
  obtain rfl := Except.ok.inj (h.symm.trans hadd)
  have hpacks : done ++ packs b.blockSize cur [] = packs blockSize [] es := hpacks
  have hflat : done.flatten ++ cur = es := by
    have hcongr := congrArg List.flatten hpacks
    rwa [List.flatten_append, flatten_packs, flatten_packs, List.append_nil, List.nil_append] at hcongr
  have hbuilt : (b.build id).maxTs = maxTsOf es := by rw [build_maxTs htracks, hflat]
  obtain ⟨⟨-, hmetas⟩, -, hbloom, hpos⟩ := hsized.trailer htracks (by rwa [hpacks])
  obtain ⟨-, hdesc⟩ := hsized.closed htracks
  rw [hpacks] at hdesc
  refine ⟨hbuilt, ?_⟩
  rcases eq_or_ne es [] with rfl | hne
  · -- a table without blocks does not open
    have hnil : b.closed.metas = [] := List.forall₂_nil_right_iff.mp hdesc
    refine iff_of_false ?_ (by rintro ⟨block, hblock, -⟩; cases hblock)
    rintro ⟨t, ht, -⟩
    have hopen := SsTable.openFile_sections id' (show (b.build id).file = _ from rfl) hpos hbloom
      (BlockMeta.decode_encodeBlockMeta hmetas (by rw [hnil]; exact Nat.zero_lt_succ _))
      (Bloom.decode_encode _)
    rw [hopen, hnil] at ht
    cases ht
  · have hcur := ne_nil_of_packs htracks hpacks hne
    rw [openFile_build_of_fits htracks hcur hmetas hpos hbloom id id', hbuilt,
      ← edgeStamps_eq_iff hne fun block => ne_nil_of_mem_packs es, ← metaMaxTs_eq hdesc]
    constructor
    · rintro ⟨t, ht, hts⟩
      obtain rfl := Except.ok.inj ht
      exact hts
    · exact fun hts => ⟨_, rfl, hts⟩

end SsTableBuilder

/-! ## The store -/

namespace LsmStorageInner

variable [Platform] {options : LsmStorageOptions} {e : LsmStorageInner} {d d' : Disk}

omit [Platform] in
/-- The timestamps in the metadata of the tables, and those that the scans of the memtables reach. -/
def SeenAtOpen (e : LsmStorageInner) (ts : UInt64) : Prop :=
  (∃ p ∈ e.state.sstables.entries, ∃ m ∈ p.2.blockMeta, ts = m.firstKey.ts ∨ ts = m.lastKey.ts) ∨
    ∃ m ∈ e.state.memtables, ∃ x ∈ m.flushed, ts = x.1.ts

/-- The version is in a table or in a memtable. -/
def Recovered (e : LsmStorageInner) (x : Entry) : Prop :=
  (∃ p ∈ e.state.sstables.entries, ∃ es, p.2.HasEntries es ∧ x ∈ es) ∨
    ∃ m ∈ e.state.memtables, x ∈ m.map.entries

/-- Every recovered version is visible at the commit timestamp, and the next write is newer. -/
def BoundsVersions (e : LsmStorageInner) : Prop :=
  ∀ x, e.Recovered x → x.1.ts ≤ e.latestCommitTs ∧ ∀ ts, nextTs e.latestCommitTs = .ok ts → x.1.ts < ts

theorem recoverMemtables_sstables {s s' : LsmStorageState MemTable} {enableWal : Bool} {ids : List ℕ}
    (h : (recoverMemtables s enableWal ids).exec d = (.ok s', d')) : s'.sstables = s.sstables := by
  cases ids with
  | nil =>
    cases h
    rfl
  | cons active imms =>
    cases enableWal with
    | false =>
      cases h
      rfl
    | true =>
      rw [recoverMemtables, if_pos rfl, Effect.exec_bind_eq_ok_iff] at h
      obtain ⟨m, d₁, -, h⟩ := h
      rw [Effect.exec_bind_eq_ok_iff] at h
      obtain ⟨ms, d₂, -, hret⟩ := h
      cases hret
      rfl

/-- The tables of an opened store were opened from their files. -/
theorem openStore_tables (h : (openStore options).exec d = (.ok e, d')) :
    e.latestCommitTs = (seenStamps e.state).foldr max 0 ∧
      ∀ p ∈ e.state.sstables.entries, p.2.maxTs = SsTable.metaMaxTs p.2.blockMeta := by
  cases hmanifest : d.manifest with
  | none =>
    obtain ⟨memtable, hmap, -, -, rfl, -⟩ := openStore_none hmanifest h
    refine ⟨?_, fun p hp => by cases hp⟩
    have hflushed : memtable.flushed = [] := by
      rw [MemTable.flushed, hmap]
      rfl
    change (0 : UInt64) = (([] : List UInt64) ++ [memtable].flatMap _).foldr max 0
    rw [List.flatMap_singleton, hflushed]
    rfl
  | some recs =>
    obtain ⟨r, s, d₁, d₂, sstables, hreplay, -, -, -, hmemtables, htables, rfl⟩ :=
      openStore_some hmanifest h
    refine ⟨rfl, fun p hp => ?_⟩
    have hempty : s.sstables = ∅ := by
      rw [recoverMemtables_sstables hmemtables, Replay.records_frame hreplay]
      rfl
    rcases openTables_spec htables (AList.mem_lookup_iff.mpr hp) with hold | ⟨file, -, hopen⟩
    · rw [hempty] at hold
      cases hold
    · exact (SsTable.openFile_eq_ok hopen).2.2

/-- The commit timestamp is the largest one that `open` has seen. -/
theorem openStore_seen (h : (openStore options).exec d = (.ok e, d')) :
    (∀ ts, e.SeenAtOpen ts → ts ≤ e.latestCommitTs) ∧
      (e.latestCommitTs = 0 ∨ e.SeenAtOpen e.latestCommitTs) := by
  obtain ⟨hlatest, htables⟩ := openStore_tables h
  have hle : ∀ ts ∈ seenStamps e.state, ts ≤ e.latestCommitTs := by
    rw [hlatest]
    exact foldr_max_le_iff.mp le_rfl
  have hmemtable : ∀ {ts}, (∃ m ∈ e.state.memtables, ∃ x ∈ m.flushed, ts = x.1.ts) ↔
      ts ∈ e.state.memtables.flatMap fun m => m.flushed.map fun x => x.1.ts := by
    intro ts
    simp only [List.mem_flatMap, List.mem_map, eq_comm]
  constructor
  · rintro ts (⟨p, hp, m, hm, hts⟩ | hseen)
    · refine le_trans ?_ (hle p.2.maxTs (List.mem_append_left _ (List.mem_map_of_mem hp)))
      rw [htables p hp]
      refine foldr_max_le_iff.mp le_rfl _ (List.mem_flatMap.mpr ⟨m, hm, ?_⟩)
      rw [List.mem_cons, List.mem_singleton]
      exact hts
    · exact hle ts (List.mem_append_right _ (hmemtable.mp hseen))
  · rcases eq_or_ne (seenStamps e.state) [] with hnil | hne
    · rw [hlatest, hnil]
      exact Or.inl rfl
    · have hmem := foldr_max_mem hne
      rw [← hlatest] at hmem
      rcases List.mem_append.mp hmem with hmem | hmem
      · obtain ⟨p, hp, hts⟩ := List.mem_map.mp hmem
        rw [htables p hp] at hts
        rw [← hts]
        rcases eq_or_ne p.2.blockMeta [] with hblocks | hblocks
        · rw [hblocks]
          exact Or.inl rfl
        · have hstamps : (p.2.blockMeta.flatMap fun m => [m.firstKey.ts, m.lastKey.ts]) ≠ [] := by
            cases hp' : p.2.blockMeta with
            | nil => exact absurd hp' hblocks
            | cons m ms => exact List.cons_ne_nil _ _
          obtain ⟨m, hm, hts'⟩ := List.mem_flatMap.mp (foldr_max_mem hstamps)
          rw [List.mem_cons, List.mem_singleton] at hts'
          exact Or.inr (Or.inl ⟨p, hp, m, hm, hts'⟩)
      · exact Or.inr (Or.inr (hmemtable.mpr hmem))

/-- **When the recovered timestamp bounds every recovered version.** -/
theorem boundsVersions_iff (h : (openStore options).exec d = (.ok e, d')) :
    e.BoundsVersions ↔ ∀ x, e.Recovered x → x.1.ts = 0 ∨ ∃ ts, e.SeenAtOpen ts ∧ x.1.ts ≤ ts := by
  obtain ⟨hle, hattained⟩ := openStore_seen h
  refine forall₂_congr fun x _ => ⟨?_, fun hx => ?_⟩
  · rintro ⟨hbound, -⟩
    rcases hattained with hzero | hseen
    · rw [hzero] at hbound
      exact Or.inl (le_antisymm hbound (tsRangeEnd_le _))
    · exact Or.inr ⟨_, hseen, hbound⟩
  · have hbound : x.1.ts ≤ e.latestCommitTs := by
      rcases hx with hzero | ⟨ts, hseen, hx⟩
      · rw [hzero]
        exact tsRangeEnd_le _
      · exact hx.trans (hle ts hseen)
    exact ⟨hbound, fun next hnext => hbound.trans_lt (lt_of_nextTs hnext)⟩

/-- **Exactly when the recovered timestamps are the largest ones**: for a table that is written and
opened, and for the store. -/
theorem recovered_ts_iff :
    (∀ (blockSize : ℕ) (es : List Entry) (b : SsTableBuilder),
      (SsTableBuilder.new blockSize).addAll es = .ok b → MetaFits (packs blockSize [] es) →
        ∀ id id', (b.build id).maxTs = maxTsOf es ∧
          ((∃ t, SsTable.openFile id' (b.build id).file = .ok t ∧ t.maxTs = (b.build id).maxTs) ↔
            NewestAtEdge blockSize es)) ∧
      ∀ (options : LsmStorageOptions) (d d' : Disk) (e : LsmStorageInner),
        (openStore options).exec d = (.ok e, d') →
          (e.BoundsVersions ↔
            ∀ x, e.Recovered x → x.1.ts = 0 ∨ ∃ ts, e.SeenAtOpen ts ∧ x.1.ts ≤ ts) :=
  ⟨fun _ _ _ h hfits id id' => SsTableBuilder.openFile_maxTs h hfits id id',
    fun _ _ _ _ h => boundsVersions_iff h⟩

end LsmStorageInner

section

attribute [local instance] shortKeyPlatform

namespace LsmStorageInner

/-- The newest version is the second of three. -/
def newestInside : List Entry := [(⟨[1], 1⟩, [7]), (⟨[2], 2⟩, [9]), (⟨[3], 1⟩, [8])]

/-- What one evaluation says about a store and about the store that is opened from its directory. -/
theorem exists_opened {options : LsmStorageOptions} {o : Option LsmStorageInner}
    {p : LsmStorageInner → LsmStorageInner → Bool}
    (h : (o.bind fun e => ((openStore options).exec e.disk).1.toOption.map (p e)) = some true) :
    ∃ e e' d', o = some e ∧ (openStore options).exec e.disk = (.ok e', d') ∧ p e e' = true := by
  obtain ⟨e, he, hsummary⟩ := Option.bind_eq_some_iff.mp h
  obtain ⟨e', hopen, hp⟩ := Option.map_eq_some_iff.mp hsummary
  exact ⟨e, e', _, he, Prod.ext (eq_ok_of_toOption hopen) rfl, hp⟩

/-- A put that goes into a table, and one that only its log holds. -/
def putBeforeAndAfterFlush : List Op :=
  [.writeBatch [.put [1] [7]], .freeze, .flush, .writeBatch [.put [2] [9]]]

/-- The entries of `newestInside` in small blocks, and a store with a table of one entry and another entry
in a log. -/
theorem recovered_ts_small :
    (∃ b, (SsTableBuilder.new 40).addAll newestInside = .ok b ∧ (b.build 0).maxTs = 2 ∧
      ∃ t, SsTable.openFile 0 (b.build 0).file = .ok t ∧ t.maxTs = (b.build 0).maxTs) ∧
    ∃ e e' d', afterCalls putBeforeAndAfterFlush (newStore loggedOptions) = some e ∧
      (openStore loggedOptions).exec e.disk = (.ok e', d') ∧ e'.latestCommitTs = 2 ∧
      e'.state.sstables.entries.length = 1 ∧ e'.Recovered (⟨[2], 2⟩, [9]) ∧ e'.BoundsVersions := by
  constructor
  · have hok : ((SsTableBuilder.new 40).addAll newestInside).isOk = true := by decide +kernel
    cases hadd : (SsTableBuilder.new 40).addAll newestInside with
    | error f =>
      rw [hadd] at hok
      cases hok
    | ok b =>
      have hfits : MetaFits (packs 40 [] newestInside) :=
        ⟨⟨by decide +kernel, by decide +kernel, by decide +kernel⟩, by decide +kernel⟩
      obtain ⟨hmax, hopen⟩ := recovered_ts_iff.1 40 newestInside b hadd hfits 0 0
      refine ⟨b, rfl, hmax.trans ?_, hopen.mpr ?_⟩
      · decide +kernel
      · decide +kernel
  · have hfinal : ((afterCalls putBeforeAndAfterFlush (newStore loggedOptions)).bind fun e =>
        ((openStore loggedOptions).exec e.disk).1.toOption.map fun e' =>
          decide (e'.latestCommitTs = 2 ∧
            e'.state.memtables.map (fun m => m.map.entries) = [[(⟨[2], 2⟩, [9])]] ∧
            (∀ m ∈ e'.state.memtables, m.flushed = m.map.entries) ∧
            e'.state.sstables.entries.map (fun p => ((p.2.firstKey, p.2.lastKey), p.2.blockMeta)) =
              [((⟨[1], 1⟩, ⟨[1], 1⟩), [⟨0, ⟨[1], 1⟩, ⟨[1], 1⟩⟩])])) = some true := by
      decide +kernel
    obtain ⟨e, e', d', he, hopen, hsummary⟩ := exists_opened hfinal
    obtain ⟨hlatest, hmemtables, hscanned, htables⟩ := of_decide_eq_true hsummary
    obtain ⟨m, hm, hentries⟩ := List.map_eq_singleton_iff.mp hmemtables
    obtain ⟨p, hp, htable⟩ := List.map_eq_singleton_iff.mp htables
    obtain ⟨hkeys, hmetas⟩ := Prod.mk.inj htable
    obtain ⟨hfirst, hlast⟩ := Prod.mk.inj hkeys
    refine ⟨e, e', _, he, hopen, hlatest, by rw [hp]; rfl,
      Or.inr ⟨m, by rw [hm]; exact List.mem_singleton_self m, ?_⟩,
      (recovered_ts_iff.2 _ _ _ _ hopen).mpr ?_⟩
    · rw [hentries]
      exact List.mem_singleton_self _
    · rintro x (⟨q, hq, es, hes, hx⟩ | ⟨m', hm', hx⟩)
      · -- the only key of the table is the first one of its block
        obtain rfl : q = p := List.mem_singleton.mp (hp ▸ hq)
        refine Or.inr ⟨1, Or.inl ⟨q, hq, ⟨0, ⟨[1], 1⟩, ⟨[1], 1⟩⟩, ?_, Or.inl rfl⟩, ?_⟩
        · rw [hmetas]
          exact List.mem_singleton_self _
        · have hkey : x.1 = ⟨[1], 1⟩ :=
            le_antisymm (hlast ▸ hes.le_lastKey hx) (hfirst ▸ hes.firstKey_le hx)
          rw [hkey]
      · obtain rfl : m' = m := List.mem_singleton.mp (hm ▸ hm')
        refine Or.inr ⟨x.1.ts, Or.inr ⟨m', hm', x, ?_, rfl⟩, le_rfl⟩
        rw [hscanned m' hm']
        exact hx

/-- The calls that write `newestInside` into a table. -/
def newestInsideCalls : List Op :=
  [.writeBatch [.put [1] [7], .put [3] [8]], .writeBatch [.put [2] [9]], .freeze, .flush]

/-- The table knows the timestamp when it is built and not when it is opened.  After the store is
reopened the version is there and invisible, and its timestamp is given out again.  The same happens to
a version that is behind an empty key in a log. -/
theorem newest_lost_by_open :
    (∃ b t, (SsTableBuilder.new 4096).addAll newestInside = .ok b ∧
      SsTable.openFile 0 (b.build 0).file = .ok t ∧ (b.build 0).maxTs = 2 ∧ t.maxTs = 1) ∧
    (∃ e e' d', afterCalls newestInsideCalls (newStore MiniLsm.plainOptions) = some e ∧
      e.get [2] = .ok (some [9]) ∧ (openStore MiniLsm.plainOptions).exec e.disk = (.ok e', d') ∧
      e'.latestCommitTs = 1 ∧ e'.get [2] = .ok none ∧ e'.state.getWithTs [2] 2 = .ok (some [9]) ∧
      nextTs e'.latestCommitTs = .ok 2) ∧
    ∃ e e' d', afterCall (newStore loggedOptions) (.writeBatch [.put [] [7], .put [1] [8]]) = some e ∧
      e.get [1] = .ok (some [8]) ∧ (openStore loggedOptions).exec e.disk = (.ok e', d') ∧
      e'.latestCommitTs = 0 ∧ e'.get [1] = .ok none ∧ e'.state.getWithTs [1] 1 = .ok (some [8]) ∧
      nextTs e'.latestCommitTs = .ok 1 := by
  refine ⟨?_, ?_, ?_⟩
  · have hfinal : ((SsTableBuilder.new 4096).addAll newestInside).map (fun b =>
        ((b.build 0).maxTs, (SsTable.openFile 0 (b.build 0).file).map SsTable.maxTs)) =
        .ok (2, .ok 1) := by
      decide +kernel
    obtain ⟨b, hb, hmax⟩ := Outcome.map_eq_ok_iff.mp hfinal
    obtain ⟨hbuilt, hopened⟩ := Prod.mk.inj hmax
    obtain ⟨t, ht, hts⟩ := Outcome.map_eq_ok_iff.mp hopened
    exact ⟨b, t, hb, ht, hbuilt, hts⟩
  · have hfinal : ((afterCalls newestInsideCalls (newStore MiniLsm.plainOptions)).bind fun e =>
        ((openStore MiniLsm.plainOptions).exec e.disk).1.toOption.map fun e' =>
          decide (e'.latestCommitTs = 1 ∧ e.get [2] = .ok (some [9]) ∧ e'.get [2] = .ok none ∧
            e'.state.getWithTs [2] 2 = .ok (some [9]))) = some true := by
      decide +kernel
    obtain ⟨e, e', d', he, hopen, hsummary⟩ := exists_opened hfinal
    obtain ⟨hlatest, hbefore, hget, hversion⟩ := of_decide_eq_true hsummary
    refine ⟨e, e', d', he, hbefore, hopen, hlatest, hget, hversion, ?_⟩
    rw [hlatest]
    rfl
  · have hfinal : ((afterCall (newStore loggedOptions) (.writeBatch [.put [] [7], .put [1] [8]])).bind
        fun e => ((openStore loggedOptions).exec e.disk).1.toOption.map fun e' =>
          decide (e'.latestCommitTs = 0 ∧ e.get [1] = .ok (some [8]) ∧ e'.get [1] = .ok none ∧
            e'.state.getWithTs [1] 1 = .ok (some [8]))) = some true := by
      decide +kernel
    obtain ⟨e, e', d', he, hopen, hsummary⟩ := exists_opened hfinal
    obtain ⟨hlatest, hbefore, hget, hversion⟩ := of_decide_eq_true hsummary
    refine ⟨e, e', d', he, hbefore, hopen, hlatest, hget, hversion, ?_⟩
    rw [hlatest]
    rfl

end LsmStorageInner

end

end TinyLsm

import TinyLsm.Table.Casts
import TinyLsm.Block.RoundTrip
import TinyLsm.Iterators.ConcatIterator

/-!
# Seeks in tables and in levels (`table/iterator.rs`, `iterators/concat_iterator.rs`)

A seek searches three times, for the table, for the block and for the entry, and each search may run
off the end of what it looks into.  `ConcatIterator` and `Table.Iterator` follow a table that holds
its entries; here the tables are those that `SsTableBuilder` writes and `SsTable::open` reads
(`SsTable.BuiltFrom`), with blocks of any size whose entries fit their two-byte fields.
-/

namespace TinyLsm

open StorageIterator

section

variable [Platform]

/-- A table written from the entries, or opened from the file of such a table. -/
inductive SsTable.BuiltFrom (es : List Entry) : SsTable → Prop where
  | built {blockSize : ℕ} {b : SsTableBuilder} (hadd : (SsTableBuilder.new blockSize).addAll es = .ok b)
      (hentered : ∀ block ∈ packs blockSize [] es, Entered block) (id : ℕ) :
      BuiltFrom es (b.build id)
  | opened {blockSize id id' : ℕ} {b : SsTableBuilder} {t : SsTable}
      (hadd : (SsTableBuilder.new blockSize).addAll es = .ok b)
      (hfits : TableFits blockSize es)
      (hopen : SsTable.openFile id' (b.build id).file = .ok t) : BuiltFrom es t

theorem SsTable.BuiltFrom.hasEntries {es : List Entry} {t : SsTable} (h : BuiltFrom es t)
    (hne : es ≠ []) (hs : SortedRun es) : t.HasEntries es := by
  cases h with
  | built hadd hentered id => exact SsTableBuilder.build_hasEntries hne hs hadd hentered id
  | @opened _ id id' b _ hadd hfits hopen =>
    have hkeys := SsTableBuilder.keys_ne_of_addAll hadd
    obtain ⟨b', hadd', hreads⟩ :=
      SsTableBuilder.readsBack_of_casts hkeys hne hs ((SsTableBuilder.casts_preserve_iff hkeys).mpr hfits)
    cases hadd.symm.trans hadd'
    obtain ⟨t', hopen', hentries⟩ := (hreads id).2 id'
    cases hopen.symm.trans hopen'
    exact hentries

namespace SsTableIterator

variable {t : SsTable} {it : SsTableIterator}

theorem createAndSeekToFirst_table (h : createAndSeekToFirst t = .ok it) : it.table = t := by
  obtain ⟨blkIter, -, h⟩ := Outcome.bind_eq_ok_iff.mp h
  cases h
  rfl

theorem createAndSeekToKey_table {key : Key} (h : createAndSeekToKey t key = .ok it) : it.table = t := by
  obtain ⟨block, -, h⟩ := Outcome.bind_eq_ok_iff.mp h
  obtain ⟨blkIter, -, h⟩ := Outcome.bind_eq_ok_iff.mp h
  split at h
  · cases h
    rfl
  · split at h
    · obtain ⟨first, -, h⟩ := Outcome.bind_eq_ok_iff.mp h
      cases h
      rfl
    · cases h
      rfl

/-- A seek leaves the iterator that a new seek would make, wherever it stood before. -/
theorem seekToFirst_eq {found : SsTableIterator} (h : createAndSeekToFirst it.table = .ok found) :
    it.seekToFirst = (.ok (), found) := by
  have htable := createAndSeekToFirst_table h
  unfold seekToFirst
  rw [h, ← htable]

theorem seekToKey_eq {key : Key} {found : SsTableIterator}
    (h : createAndSeekToKey it.table key = .ok found) : it.seekToKey key = (.ok (), found) := by
  have htable := createAndSeekToKey_table h
  unfold seekToKey
  rw [h, ← htable]

end SsTableIterator

/-- **A seek in a table gives the suffix**, on a new iterator and on one that stands anywhere. -/
theorem SsTable.HasEntries.seek_suffix {t : SsTable} {es : List Entry} (h : t.HasEntries es) (key : Key) :
    (∃ found, SsTableIterator.createAndSeekToKey t key = .ok found ∧
      Yields Drained found (es.filter fun e => key ≤ e.1) ∧
      ∀ it : SsTableIterator, it.table = t → it.seekToKey key = (.ok (), found)) ∧
    ∃ found, SsTableIterator.createAndSeekToFirst t = .ok found ∧ Yields Drained found es ∧
      ∀ it : SsTableIterator, it.table = t → it.seekToFirst = (.ok (), found) := by
  obtain ⟨found, hseek, hyields⟩ := SstConcatIterator.table_seek h key
  obtain ⟨first, hfirst, hall⟩ := SstConcatIterator.table_first h
  rw [h.sorted.dropWhile_eq_filter] at hyields
  refine ⟨⟨found, hseek, hyields, fun it hit => ?_⟩, first, hfirst, hall, fun it hit => ?_⟩
  · subst hit
    exact SsTableIterator.seekToKey_eq hseek
  · subst hit
    exact SsTableIterator.seekToFirst_eq hfirst

/-- **A seek in a level gives the suffix of its tables, and so does a seek in each table.** -/
theorem SstConcatIterator.seeks {ssts : List SsTable} {ess : List (List Entry)}
    (h : List.Forall₂ (fun t es => SsTable.BuiltFrom es t) ssts ess)
    (hess : ∀ es ∈ ess, es ≠ [] ∧ SortedRun es) (hv : SstsValid ssts) (key : Key) :
    (∃ it, createAndSeekToKey ssts key = .ok it ∧
      Yields Drained it (ess.flatten.filter fun e => key ≤ e.1)) ∧
    (∃ it, createAndSeekToFirst ssts = .ok it ∧ Yields Drained it ess.flatten) ∧
    List.Forall₂ (fun t es =>
      (∃ found, SsTableIterator.createAndSeekToKey t key = .ok found ∧
        Yields Drained found (es.filter fun e => key ≤ e.1) ∧
        ∀ it : SsTableIterator, it.table = t → it.seekToKey key = (.ok (), found)) ∧
      ∃ found, SsTableIterator.createAndSeekToFirst t = .ok found ∧ Yields Drained found es ∧
        ∀ it : SsTableIterator, it.table = t → it.seekToFirst = (.ok (), found)) ssts ess := by
  have hentries : List.Forall₂ SsTable.HasEntries ssts ess := by
    refine List.forall₂_iff_get.mpr ⟨h.length_eq, fun i hi hi' => ?_⟩
    obtain ⟨hne, hs⟩ := hess _ (List.getElem_mem hi')
    exact ((List.forall₂_iff_get.mp h).2 i hi hi').hasEntries hne hs
  obtain ⟨it, hseek, hyields⟩ := createAndSeekToKey_yields hentries hv key
  rw [(sortedRun_flatten hentries hv.pairwise).dropWhile_eq_filter] at hyields
  exact ⟨⟨it, hseek, hyields⟩, createAndSeekToFirst_yields hentries hv,
    hentries.imp fun t es ht => ht.seek_suffix key⟩

end

section

attribute [local instance] shortKeyPlatform

open BlockBuilder (smallBlock)

/-- What comes after `smallBlock`. -/
def laterBlock : List Entry := [(⟨[3], 2⟩, [5]), (⟨[4], 8⟩, [6])]

/-- A table in small blocks. -/
theorem SsTable.exists_builtFrom {es : List Entry} (hne : es ≠ []) (hencodable : ∀ e ∈ es, Encodable e) :
    ∃ t, SsTable.BuiltFrom es t := by
  have hsize : 40 ≤ 65554 := by decide
  have hentered : ∀ block ∈ packs 40 [] es, Entered block :=
    entered_packs hsize es hencodable entered_nil
  obtain ⟨b, -, -, hadd, -⟩ :=
    SsTableBuilder.written_of_entered (fun e he => (hencodable e he).key_ne) hne hentered
  exact ⟨_, .built hadd hentered 1⟩

/-- A level of two tables: a key between two versions of one user key, and a key between the tables. -/
theorem SstConcatIterator.seeks_small : ∃ t u, SsTable.BuiltFrom smallBlock t ∧
    SsTable.BuiltFrom laterBlock u ∧
    (∃ it, createAndSeekToKey [t, u] ⟨[1], 4⟩ = .ok it ∧
      Yields Drained it ([(⟨[1], 3⟩, []), (⟨[1, 2], 9⟩, [8, 8])] ++ laterBlock)) ∧
    ∃ it, createAndSeekToKey [t, u] ⟨[2], 1⟩ = .ok it ∧ Yields Drained it laterBlock := by
  have hne : smallBlock ≠ [] := by decide
  have hne' : laterBlock ≠ [] := by decide
  have hs : SortedRun [smallBlock, laterBlock].flatten := by
    unfold SortedRun
    decide
  have hs' : SortedRun laterBlock := by
    unfold SortedRun
    decide
  have hencodable : ∀ e ∈ laterBlock, Encodable e := by
    intro e he
    have hall : ∀ e ∈ laterBlock, e.1.keyRef ≠ [] ∧ e.1.keyRef.length ≤ 65535 ∧ e.2.length ≤ 65535 := by
      decide
    obtain ⟨hkey, hlength, hvalue⟩ := hall e he
    exact ⟨hkey, hlength, hvalue⟩
  obtain ⟨t, ht⟩ := SsTable.exists_builtFrom hne BlockBuilder.encodable_smallBlock
  obtain ⟨u, hu⟩ := SsTable.exists_builtFrom hne' hencodable
  have hvalid : SstsValid [t, u] :=
    .of_sortedRun (.cons (ht.hasEntries hne BlockBuilder.sorted_smallBlock)
      (.cons (hu.hasEntries hne' hs') .nil)) hs
  have hess : ∀ es ∈ [smallBlock, laterBlock], es ≠ [] ∧ SortedRun es := by
    rintro _ (_ | ⟨_, _ | ⟨_, ⟨⟩⟩⟩)
    · exact ⟨hne, BlockBuilder.sorted_smallBlock⟩
    · exact ⟨hne', hs'⟩
  exact ⟨t, u, ht, hu, (seeks (.cons ht (.cons hu .nil)) hess hvalid ⟨[1], 4⟩).1,
    (seeks (.cons ht (.cons hu .nil)) hess hvalid ⟨[2], 1⟩).1⟩

end

end TinyLsm

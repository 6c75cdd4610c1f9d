import TinyLsm.LsmStorage.Nonempty
import TinyLsm.LsmStorage.Layout
import TinyLsm.Iterators.Endless

/-!
# What a compaction does to what is stored

`Replaced` is what all compactions have in common: the inputs of the task have left, and tables
built from the chunks of their union have come with the next ids.  `Replaced.hasVersion_iff` says
which versions are stored then: all that were, except the tombstones a compaction to the bottom
leaves out.

How the levels are rearranged differs between the strategies.  `Moved` describes the two leveled
ones, and a tiered compaction puts one tier in the place of the newest ones.
-/

namespace TinyLsm

open StorageIterator

/-! ## A compaction that returns has opened its inputs -/

section Openable

variable [Platform] {M : Type} {s : LsmStorageState M} {ids : List ℕ} {id : ℕ} {t : SsTable}

omit [Platform] in
theorem endless_false {I κ : Type} [StorageIterator I κ] : EndlessUnder fun _ : I => False :=
  ⟨fun _ h => h.elim, fun _ _ h _ => h⟩

omit [Platform] in
/-- A merge of two sides that was read to its end. -/
theorem not_of_visits_two {A B : Type} [StorageIterator A Key] [StorageIterator B Key] {R : A → Prop}
    {S : B → Prop} (hR : EndlessUnder R) (hS : EndlessUnder S) {upper : Outcome A} {lower : Outcome B}
    {it : MergedIterator} {l : List Entry} (hit : MergedIterator.two upper lower = .ok it)
    (h : Visits it.iter l) : ∃ a b, upper = .ok a ∧ lower = .ok b ∧ ¬R a ∧ ¬S b := by
  cases upper with
  | error e => cases hit
  | ok a =>
    cases lower with
    | error e => cases hit
    | ok b =>
      cases hit
      have hnot := (TwoMergeIterator.endless hR hS).not_visits h
      exact ⟨a, b, rfl, rfl, fun ha => hnot (Or.inl ha), fun hb => hnot (Or.inr hb)⟩

theorem levelIter_blocked {it : SstConcatIterator} (h : levelIter s ids = .ok it) (hid : id ∈ ids)
    (ht : s.sstables.lookup id = some t) (hun : t.Unopenable) : it.Blocked := by
  obtain ⟨ssts, hssts, hcreate⟩ := Outcome.bind_eq_ok_iff.mp h
  obtain ⟨t', ht', hlookup⟩ := exists_of_mem_left (mapM_eq_ok_iff.mp hssts) hid
  rw [LsmStorageState.table_eq_ok_iff, ht] at hlookup
  cases hlookup
  exact SstConcatIterator.blocked_of_create ⟨t, ht', hun⟩ hcreate

theorem l0Iter_openable {it : MergeIterator SsTableIterator} (h : l0Iter s ids = .ok it)
    (hid : id ∈ ids) (ht : s.sstables.lookup id = some t) : ¬t.Unopenable := by
  obtain ⟨iters, hiters, -⟩ := Outcome.bind_eq_ok_iff.mp h
  obtain ⟨cur, -, hopen⟩ := exists_of_mem_left (mapM_eq_ok_iff.mp hiters) hid
  obtain ⟨t', hlookup, hcreate⟩ := Outcome.bind_eq_ok_iff.mp hopen
  rw [LsmStorageState.table_eq_ok_iff, ht] at hlookup
  cases hlookup
  exact fun hun => hun cur hcreate

/-- **Every input was opened.** -/
theorem Streams.openable {task : CompactionTask} {l : List Entry} (h : Streams s task l)
    (hid : id ∈ task.inputIds) (ht : s.sstables.lookup id = some t) : ¬t.Unopenable := by
  obtain ⟨it, hit, hvisits⟩ := h
  -- L0 tables over a level, and a level over a level.
  have hl0 : ∀ {upper lower : List ℕ},
      MergedIterator.two (l0Iter s upper) (levelIter s lower) = .ok it → id ∈ upper ++ lower →
        ¬t.Unopenable := by
    intro upper lower hit hid hun
    obtain ⟨a, b, ha, hb, -, hnot⟩ :=
      not_of_visits_two endless_false SstConcatIterator.endless_blocked hit hvisits
    rcases List.mem_append.mp hid with hid | hid
    · exact l0Iter_openable ha hid ht hun
    · exact hnot (levelIter_blocked hb hid ht hun)
  have hlevel : ∀ {upper lower : List ℕ},
      MergedIterator.two (levelIter s upper) (levelIter s lower) = .ok it → id ∈ upper ++ lower →
        ¬t.Unopenable := by
    intro upper lower hit hid hun
    obtain ⟨a, b, ha, hb, hnot, hnot'⟩ := not_of_visits_two SstConcatIterator.endless_blocked
      SstConcatIterator.endless_blocked hit hvisits
    rcases List.mem_append.mp hid with hid | hid
    · exact hnot (levelIter_blocked ha hid ht hun)
    · exact hnot' (levelIter_blocked hb hid ht hun)
  cases task with
  | forceFullCompaction l0 l1 => exact hl0 hit hid
  | simple u =>
    cases hu : u.upperLevel with
    | none =>
      simp only [mergedIter, hu] at hit
      exact hl0 hit hid
    | some _ =>
      simp only [mergedIter, hu] at hit
      exact hlevel hit hid
  | leveled u =>
    cases hlower : levelIter s u.lowerLevelSstIds with
    | error e =>
      simp only [mergedIter, hlower] at hit
      cases hit
    | ok lower =>
      cases hu : u.upperLevel with
      | none =>
        simp only [mergedIter, hlower, hu] at hit
        rw [← hlower] at hit
        exact hl0 hit hid
      | some _ =>
        simp only [mergedIter, hlower, hu] at hit
        rw [← hlower] at hit
        exact hlevel hit hid
  | tiered u =>
    intro hun
    obtain ⟨ids, hids, hmem⟩ := List.mem_flatten.mp hid
    obtain ⟨tier, htier, rfl⟩ := List.mem_map.mp hids
    cases hiters : u.tiers.mapM fun tier => levelIter s tier.2 with
    | error e =>
      simp only [mergedIter, hiters] at hit
      cases hit
    | ok iters =>
      simp only [mergedIter, hiters] at hit
      cases hit
      obtain ⟨cur, hcur, hlevelIter⟩ := exists_of_mem_left (mapM_eq_ok_iff.mp hiters) htier
      have hblocked := MergeIterator.blocked_of_create SstConcatIterator.endless_blocked
        ⟨cur, hcur, levelIter_blocked hlevelIter hmem ht hun⟩
      exact (MergeIterator.endless SstConcatIterator.endless_blocked).not_visits hvisits hblocked

theorem unopenable_of_blank (h : t.blockMeta = []) : t.Unopenable := by
  intro cur hcur
  rw [InBounds.tableFirst_of_empty h] at hcur
  cases hcur

end Openable

/-! ## The contents of new tables -/

/-- The contents of the tables with those of the tables `next`, `next + 1`, … -/
def withChunks (contents : ℕ → List Entry) (next : ℕ) (cs : List (List Entry)) : ℕ → List Entry :=
  fun id => if id < next then contents id else cs.getD (id - next) []

section WithChunks

variable {contents : ℕ → List Entry} {next : ℕ} {ids : List ℕ}

theorem map_withChunks (h : ∀ id ∈ ids, id < next) (cs : List (List Entry)) :
    ids.map (withChunks contents next cs) = ids.map contents :=
  List.map_congr_left fun id hid => if_pos (h id hid)

theorem levelRun_withChunks (h : ∀ id ∈ ids, id < next) (cs : List (List Entry)) :
    CompactionTask.levelRun (withChunks contents next cs) ids = CompactionTask.levelRun contents ids := by
  unfold CompactionTask.levelRun
  rw [map_withChunks h]

theorem map_withChunks_range (contents : ℕ → List Entry) (next : ℕ) (cs : List (List Entry)) :
    (List.range' next cs.length).map (withChunks contents next cs) = cs := by
  refine List.ext_getElem (by simp) fun i hi hi' => ?_
  rw [List.getElem_map, List.getElem_range', withChunks, if_neg (by omega)]
  rw [show next + 1 * i - next = i by omega, List.getD_eq_getElem _ _ hi']

end WithChunks

/-- The ids of a list are those of a part and the others. -/
theorem perm_filter_append {l ins : List ℕ} (hl : l.Nodup) (hsub : ins.Sublist l) :
    l.Perm (l.filter (· ∉ ins) ++ ins) := by
  have hins : (l.filter (· ∈ ins)).Perm ins := by
    refine (List.perm_ext_iff_of_nodup (hl.filter _) (hl.sublist hsub)).mpr fun id => ?_
    rw [List.mem_filter, decide_eq_true_iff]
    exact ⟨fun h => h.2, fun h => ⟨hsub.subset h, h⟩⟩
  have hsplit := List.filter_append_perm (fun id => decide (id ∉ ins)) l
  refine hsplit.symm.trans (List.Perm.append_left _ (List.Perm.trans (List.Perm.of_eq ?_) hins))
  refine List.filter_congr fun id _ => ?_
  simp

namespace CompactionTask

/-- The runs are tables, or levels of tables. -/
theorem runs_eq_map_flatten (contents : ℕ → List Entry) (task : CompactionTask) :
    ∃ gs : List (List (List Entry)), gs.flatten = task.inputIds.map contents ∧
      gs.map List.flatten = task.runs contents := by
  have hsingle : ∀ ids : List ℕ, (ids.map fun id => [contents id]).flatten = ids.map contents := by
    intro ids
    induction ids with
    | nil => rfl
    | cons id ids ih => simpa using ih
  have hl0 : ∀ upper lower : List ℕ, ∃ gs : List (List (List Entry)),
      gs.flatten = (upper ++ lower).map contents ∧
      gs.map List.flatten = upper.map contents ++ [levelRun contents lower] := by
    intro upper lower
    refine ⟨upper.map (fun id => [contents id]) ++ [lower.map contents], ?_, ?_⟩
    · rw [List.flatten_append, hsingle, List.flatten_singleton, List.map_append]
    · rw [List.map_append, List.map_map]
      simp only [Function.comp_def, List.flatten_singleton]
      rfl
  have hlevel : ∀ upper lower : List ℕ, ∃ gs : List (List (List Entry)),
      gs.flatten = (upper ++ lower).map contents ∧
      gs.map List.flatten = [levelRun contents upper] ++ [levelRun contents lower] := by
    intro upper lower
    exact ⟨[upper.map contents, lower.map contents], by simp, rfl⟩
  cases task with
  | forceFullCompaction l0 l1 => exact hl0 l0 l1
  | simple t =>
    cases hu : t.upperLevel <;> simp only [inputIds, runs, hu]
    · exact hl0 _ _
    · exact hlevel _ _
  | leveled t =>
    cases hu : t.upperLevel <;> simp only [inputIds, runs, hu]
    · exact hl0 _ _
    · exact hlevel _ _
  | tiered t =>
    refine ⟨t.tiers.map fun tier => tier.2.map contents, ?_, ?_⟩
    · rw [show (tiered t).inputIds = (t.tiers.map Prod.snd).flatten from rfl, List.map_flatten,
        List.map_map]
      rfl
    · rw [List.map_map]
      rfl

theorem levelRun_congr {contents contents' : ℕ → List Entry} {ids : List ℕ}
    (h : ∀ id ∈ ids, contents' id = contents id) : levelRun contents' ids = levelRun contents ids := by
  unfold levelRun
  rw [List.map_congr_left h]

theorem runs_congr {contents contents' : ℕ → List Entry} {task : CompactionTask}
    (h : ∀ id ∈ task.inputIds, contents' id = contents id) :
    task.runs contents' = task.runs contents := by
  have hl0 : ∀ {upper lower : List ℕ}, (∀ id ∈ upper ++ lower, contents' id = contents id) →
      upper.map contents' ++ [levelRun contents' lower] =
        upper.map contents ++ [levelRun contents lower] := by
    intro upper lower h
    obtain ⟨hupper, hlower⟩ := List.forall_mem_append.mp h
    rw [List.map_congr_left hupper, levelRun_congr hlower]
  have hlevel : ∀ {upper lower : List ℕ}, (∀ id ∈ upper ++ lower, contents' id = contents id) →
      [levelRun contents' upper] ++ [levelRun contents' lower] =
        [levelRun contents upper] ++ [levelRun contents lower] := by
    intro upper lower h
    obtain ⟨hupper, hlower⟩ := List.forall_mem_append.mp h
    rw [levelRun_congr hupper, levelRun_congr hlower]
  cases task with
  | forceFullCompaction l0 l1 => exact hl0 h
  | simple t =>
    cases hu : t.upperLevel <;> simp only [runs, hu]
    · exact hl0 h
    · exact hlevel h
  | leveled t =>
    cases hu : t.upperLevel <;> simp only [runs, hu]
    · exact hl0 h
    · exact hlevel h
  | tiered t =>
    refine List.map_congr_left fun tier htier => levelRun_congr fun id hid => h id ?_
    exact List.mem_flatten.mpr ⟨tier.2, List.mem_map_of_mem htier, hid⟩

end CompactionTask

/-! ## Merging and installing -/

theorem LsmStorageState.containers_congr {s : LsmStorageState MemTable}
    {contents contents' : ℕ → List Entry} (h : ∀ id ∈ s.listedIds, contents' id = contents id) :
    s.containers contents' = s.containers contents := by
  unfold containers
  rw [List.map_congr_left h]

namespace LsmStorageInner

open LsmStorageState

variable [Platform] {options : LsmStorageOptions} {e e' : LsmStorageInner} {contents : ℕ → List Entry}
  {task : CompactionTask} {ssts : List SsTable} {cs : List (List Entry)}

/-- Other contents of tables that are not listed. -/
theorem Steady.congr {contents' : ℕ → List Entry} (h : e.Steady contents)
    (hsame : ∀ id ∈ e.state.listedIds, contents' id = contents id) : e.Steady contents' := by
  have hcontainers := containers_congr hsame
  refine ⟨⟨fun id hid => ?_, ?_, fun level hlevel => ?_, ?_, h.state.nodup⟩, h.blockSize, h.ids, ?_⟩
  · rw [hsame id hid]
    exact h.state.tables id hid
  · rw [hcontainers]
    exact h.state.fits
  · rw [CompactionTask.levelRun_congr fun id hid =>
      hsame id (mem_listedIds.mpr (Or.inr ⟨level, hlevel, hid⟩))]
    exact h.state.levels level hlevel
  · rw [hcontainers]
    exact h.state.disjoint
  · unfold HasVersion
    rw [hcontainers]
    exact h.stamps

theorem runs_sorted (htaken : task.TakenFrom e.state) (hc : e.state.Consistent contents) :
    ∀ run ∈ task.runs contents, SortedRun run := by
  refine htaken.sorted (fun id hid => ?_) hc.levels
  obtain ⟨t, -, hmade⟩ := hc.tables id hid
  rcases hmade with ⟨hent, -⟩ | ⟨hnil, -⟩
  · exact hent.sorted
  · rw [hnil]
    exact SortedRun.nil

/-- **The inputs can be read**: a merge that returned has opened every one of them. -/
theorem inputs_hold {l : List Entry} (hl : Streams e.state task l)
    (hinputs : task.inputIds.Sublist e.state.listedIds) (hc : e.state.Consistent contents) :
    ∀ id ∈ task.inputIds, e.state.TableHolds id (contents id) := by
  intro id hid
  obtain ⟨t, ht, hmade⟩ := hc.tables id (hinputs.subset hid)
  rcases hmade with ⟨hent, -⟩ | ⟨-, hblank⟩
  · exact ⟨t, ht, hent⟩
  · exact absurd (unopenable_of_blank hblank) (hl.openable hid ht)

/-- The merged runs hold what the inputs hold. -/
theorem mem_union (htaken : task.TakenFrom e.state) (hinputs : task.inputIds.Sublist e.state.listedIds)
    (hc : e.state.Consistent contents) {x : Entry} :
    x ∈ unionAll (task.runs contents) ↔ ∃ id ∈ task.inputIds, x ∈ contents id := by
  have hdis : DisjointKeys (task.inputIds.map contents) := by
    refine List.Pairwise.sublist ?_ hc.disjoint
    exact (hinputs.map contents).trans (List.sublist_append_right _ _)
  obtain ⟨gs, hflat, hmap⟩ := task.runs_eq_map_flatten contents
  rw [← hflat] at hdis
  have hruns := hdis.flatten
  rw [hmap] at hruns
  rw [mem_unionAll_of_disjoint (runs_sorted htaken hc) hruns, CompactionTask.mem_runs]

/-- What a merge has made: tables of what the inputs of the task hold.  The contents are those of the
old and of the new tables. -/
structure Merged (contents : ℕ → List Entry) (e : LsmStorageInner) (task : CompactionTask)
    (ssts : List SsTable) : Prop where
  holds : ∀ id ∈ task.inputIds, e.state.TableHolds id (contents id)
  nil : task.inputIds = [] → ssts = []
  entries : CompactionTask.levelRun contents (ssts.map SsTable.id) =
    kept task.compactToBottomLevel (unionAll (task.runs contents))
  built : ∀ t ∈ ssts, SsTable.ofEntries e.options.blockSize t.id (contents t.id) = .ok t

/-- The tables built from the chunks of the stream, with the next ids. -/
theorem merged_of_streams {l : List Entry} (hs : e.Steady contents) (htaken : task.TakenFrom e.state)
    (hinputs : task.inputIds.Sublist e.state.listedIds) (hl : Streams e.state task l)
    (hcs : cs = chunks e.options task.compactToBottomLevel none l)
    (hbuilt : List.Forall₂ (fun t c => SsTable.ofEntries e.options.blockSize t.id c = .ok t) ssts cs)
    (hids : ssts.map SsTable.id = List.range' e.nextSstId cs.length) :
    Merged (withChunks contents e.nextSstId cs) e task ssts := by
  have hold : ∀ id ∈ task.inputIds, withChunks contents e.nextSstId cs id = contents id := fun id hid =>
    if_pos (hs.ids id (List.mem_append_right _ (hinputs.subset hid)))
  have hholds := inputs_hold hl hinputs hs.state
  have hmap : ssts.map (withChunks contents e.nextSstId cs ∘ SsTable.id) = cs := by
    rw [← List.map_map, hids, map_withChunks_range]
  have hunion := hl.unique (streams_runs hholds (runs_sorted htaken hs.state))
  refine ⟨fun id hid => ?_, fun hnil => ?_, ?_, ?_⟩
  · rw [hold id hid]
    exact hholds id hid
  · have hempty : l = [] := by
      rw [hunion]
      refine List.eq_nil_iff_forall_not_mem.mpr fun x hx => ?_
      obtain ⟨id, hid, -⟩ := (mem_union htaken hinputs hs.state).mp hx
      rw [hnil] at hid
      cases hid
    rw [hempty, chunks] at hcs
    rw [hcs] at hids
    exact List.map_eq_nil_iff.mp hids
  · unfold CompactionTask.levelRun
    rw [List.map_map, hmap, CompactionTask.runs_congr hold, hcs, flatten_chunks, hunion]
    rfl
  · rw [← hmap] at hbuilt
    exact List.forall₂_same.mp (List.forall₂_map_right_iff.mp hbuilt)

/-- What an install has done: the inputs of the task have left, and the tables that were merged from
them have come. -/
structure Exchanged (contents : ℕ → List Entry) (e e' : LsmStorageInner) (task : CompactionTask)
    (ssts : List SsTable) : Prop where
  memtables : e'.state.memtables = e.state.memtables
  taken : task.TakenFrom e.state
  inputs : task.inputIds.Sublist e.state.listedIds
  merged : Merged contents e task ssts
  listed : e'.state.listedIds.Perm
    (e.state.listedIds.filter (· ∉ task.inputIds) ++ ssts.map SsTable.id)
  old : ∀ id ∈ e.state.listedIds, id ∉ task.inputIds →
    e'.state.sstables.lookup id = e.state.sstables.lookup id
  new : ∀ t ∈ ssts, e'.state.sstables.lookup t.id = some t
  latestCommitTs : e'.latestCommitTs = e.latestCommitTs
  options : e'.options = e.options

namespace Exchanged

theorem sorted_output (h : Exchanged contents e e' task ssts) (hc : e.state.Consistent contents) :
    SortedRun (CompactionTask.levelRun contents (ssts.map SsTable.id)) := by
  rw [h.merged.entries]
  exact (sortedRun_unionAll (runs_sorted h.taken hc)).filter _

/-- **What is in the new tables**: what was in the inputs, without the tombstones that are left out. -/
theorem mem_output (h : Exchanged contents e e' task ssts) (hc : e.state.Consistent contents) {x : Entry} :
    (∃ id ∈ ssts.map SsTable.id, x ∈ contents id) ↔
      (∃ id ∈ task.inputIds, x ∈ contents id) ∧
        ¬(task.compactToBottomLevel = true ∧ isTombstone x.2 = true) := by
  have hrun : (∃ id ∈ ssts.map SsTable.id, x ∈ contents id) ↔
      x ∈ CompactionTask.levelRun contents (ssts.map SsTable.id) := by
    unfold CompactionTask.levelRun
    simp only [List.mem_flatten, List.mem_map, exists_exists_and_eq_and]
  rw [hrun, h.merged.entries, kept, List.mem_filter, mem_union h.taken h.inputs hc]
  refine and_congr_right fun _ => ?_
  cases task.compactToBottomLevel <;> simp

/-- What is in a new table was in an input. -/
theorem exists_input (h : Exchanged contents e e' task ssts) (hc : e.state.Consistent contents)
    {t : SsTable} (ht : t ∈ ssts) {x : Entry} (hx : x ∈ contents t.id) :
    ∃ id ∈ task.inputIds, x ∈ contents id :=
  ((h.mem_output hc).mp ⟨_, List.mem_map_of_mem ht, hx⟩).1

/-- The containers that stay, and those that are exchanged. -/
theorem containers (h : Exchanged contents e e' task ssts) (hnodup : e.state.listedIds.Nodup) :
    ∃ rest, (e.state.containers contents).Perm (rest ++ task.inputIds.map contents) ∧
      (e'.state.containers contents).Perm (rest ++ (ssts.map SsTable.id).map contents) := by
  refine ⟨e.state.memtables.map (fun m => m.map.entries) ++
    (e.state.listedIds.filter (· ∉ task.inputIds)).map contents, ?_, ?_⟩
  · unfold LsmStorageState.containers
    rw [List.append_assoc, ← List.map_append]
    exact ((perm_filter_append hnodup h.inputs).map contents).append_left _
  · unfold LsmStorageState.containers
    rw [h.memtables, List.append_assoc, ← List.map_append]
    exact (h.listed.map _).append_left _

/-- **What is stored after an install.** -/
theorem hasVersion_iff (h : Exchanged contents e e' task ssts) (hc : e.state.Consistent contents)
    {x : Entry} : e'.state.HasVersion contents x ↔
      e.state.HasVersion contents x ∧ ¬(task.compactToBottomLevel = true ∧ isTombstone x.2 = true ∧
        ∃ id ∈ task.inputIds, x ∈ contents id) := by
  obtain ⟨rest, hold, hnew⟩ := h.containers (List.nodup_append.mp hc.nodup).2.1
  have houtput : (∃ c ∈ (ssts.map SsTable.id).map contents, x ∈ c) ↔
      (∃ id ∈ task.inputIds, x ∈ contents id) ∧
        ¬(task.compactToBottomLevel = true ∧ isTombstone x.2 = true) := by
    rw [← h.mem_output hc]
    simp only [List.mem_map, exists_exists_and_eq_and]
  have hdis := hc.disjoint.perm hold
  have hrest : ∀ l ∈ rest, x ∈ l → ¬∃ id ∈ task.inputIds, x ∈ contents id := by
    rintro l hl hx ⟨id, hid, hx'⟩
    exact (List.pairwise_append.mp hdis).2.2 l hl _ (List.mem_map_of_mem hid) x.1
      (fst_mem_runKeys hx) (fst_mem_runKeys hx')
  have hstored : e.state.HasVersion contents x ↔
      (∃ l ∈ rest, x ∈ l) ∨ ∃ id ∈ task.inputIds, x ∈ contents id := by
    unfold HasVersion
    simp only [hold.mem_iff, List.mem_append, or_and_right, exists_or, List.mem_map,
      exists_exists_and_eq_and]
  have hstored' : e'.state.HasVersion contents x ↔
      (∃ l ∈ rest, x ∈ l) ∨ ∃ c ∈ (ssts.map SsTable.id).map contents, x ∈ c := by
    unfold HasVersion
    simp only [hnew.mem_iff, List.mem_append, or_and_right, exists_or]
  rw [hstored, hstored', houtput]
  constructor
  · rintro (⟨l, hl, hx⟩ | ⟨hx, hkept⟩)
    · exact ⟨Or.inl ⟨l, hl, hx⟩, fun hdrop => hrest l hl hx hdrop.2.2⟩
    · exact ⟨Or.inr hx, fun hdrop => hkept ⟨hdrop.1, hdrop.2.1⟩⟩
  · rintro ⟨hx | hx, hdrop⟩
    · exact Or.inl hx
    · exact Or.inr ⟨hx, fun hkept => hdrop ⟨hkept.1, hkept.2, hx⟩⟩

/-- The new tables hold what was merged. -/
theorem madeOf (h : Exchanged contents e e' task ssts) (hs : e.Steady contents) {t : SsTable}
    (ht : t ∈ ssts) : MadeOf t (contents t.id) := by
  refine madeOf_of_built hs.blockSize (h.merged.built t ht)
    ((h.sorted_output hs.state).sublist (List.sublist_flatten_of_mem
      (List.mem_map_of_mem (List.mem_map_of_mem ht)))) fun x hx => ?_
  obtain ⟨id, hid, hx⟩ := h.exists_input hs.state ht hx
  exact hs.state.fits (contents id)
    (List.mem_append_right _ (List.mem_map_of_mem (h.inputs.subset hid))) x hx

/-- **An install keeps the state consistent**, when it leaves the levels sorted. -/
theorem consistent (h : Exchanged contents e e' task ssts) (hs : e.Steady contents)
    (hlevels : ∀ level ∈ e'.state.levels, SortedRun (CompactionTask.levelRun contents level.2))
    (hnodup : e'.state.ids.Nodup) : e'.state.Consistent contents := by
  have hc := hs.state
  obtain ⟨rest, hold, hnew⟩ := h.containers (List.nodup_append.mp hc.nodup).2.1
  have hinput : ∀ l ∈ (ssts.map SsTable.id).map contents, ∀ x ∈ l, ∃ id ∈ task.inputIds,
      x ∈ contents id := by
    intro l hl x hx
    obtain ⟨id, hid, rfl⟩ := List.mem_map.mp hl
    obtain ⟨t, ht, rfl⟩ := List.mem_map.mp hid
    exact h.exists_input hc ht hx
  refine ⟨fun id hid => ?_, fun l hl x hx => ?_, hlevels, ?_, hnodup⟩
  · rcases List.mem_append.mp (h.listed.mem_iff.mp hid) with hid | hid
    · rw [List.mem_filter, decide_eq_true_iff] at hid
      rw [h.old id hid.1 hid.2]
      exact hc.tables id hid.1
    · obtain ⟨t, ht, rfl⟩ := List.mem_map.mp hid
      exact ⟨t, h.new t ht, h.madeOf hs ht⟩
  · rcases List.mem_append.mp (hnew.mem_iff.mp hl) with hl | hl
    · exact hc.fits l (hold.mem_iff.mpr (List.mem_append_left _ hl)) x hx
    · obtain ⟨id, hid, hx⟩ := hinput l hl x hx
      exact hc.fits (contents id)
        (hold.mem_iff.mpr (List.mem_append_right _ (List.mem_map_of_mem hid))) x hx
  · refine DisjointKeys.perm ?_ hnew.symm
    have hdis := hc.disjoint.perm hold
    obtain ⟨hrest, -, hcross⟩ := List.pairwise_append.mp hdis
    refine List.pairwise_append.mpr ⟨hrest, (h.sorted_output hc).disjointKeys,
      fun l hl c hmem k hk hk' => ?_⟩
    obtain ⟨v, hv⟩ := mem_runKeys.mp hk'
    obtain ⟨id, hid, hx⟩ := hinput c hmem _ hv
    exact hcross l hl _ (List.mem_map_of_mem hid) k hk (fst_mem_runKeys hx)

/-- **An install keeps the engine steady**, when it leaves the levels sorted. -/
theorem steady (h : Exchanged contents e e' task ssts) (hs : e.Steady contents)
    (hlaid : e'.Laid options)
    (hlevels : ∀ level ∈ e'.state.levels, SortedRun (CompactionTask.levelRun contents level.2)) :
    e'.Steady contents where
  state := h.consistent hs hlevels hlaid.nodup
  blockSize := by
    rw [h.options]
    exact hs.blockSize
  ids := hlaid.ids
  stamps x hx := by
    rw [h.latestCommitTs]
    exact hs.stamps x ((h.hasVersion_iff hs.state).mp hx).1

end Exchanged

/-! ### In one call -/

/-- What a call has done that merges and installs: the inputs of the task have left, and tables built
from the chunks of what was merged have come. -/
structure Replaced (e e' : LsmStorageInner) (task : CompactionTask) (ssts : List SsTable)
    (cs : List (List Entry)) : Prop where
  memtable : e'.state.memtable = e.state.memtable
  imms : e'.state.immMemtables = e.state.immMemtables
  taken : task.TakenFrom e.state
  inputs : task.inputIds.Sublist e.state.listedIds
  streams : ∃ l, Streams e.state task l ∧ cs = chunks e.options task.compactToBottomLevel none l
  built : List.Forall₂ (fun t c => SsTable.ofEntries e.options.blockSize t.id c = .ok t) ssts cs
  ids : ssts.map SsTable.id = List.range' e.nextSstId cs.length
  nextSstId : e'.nextSstId = e.nextSstId + cs.length
  listed : e'.state.listedIds.Perm
    (e.state.listedIds.filter (· ∉ task.inputIds) ++ ssts.map SsTable.id)
  old : ∀ id ∈ e.state.listedIds, id ∉ task.inputIds →
    e'.state.sstables.lookup id = e.state.sstables.lookup id
  new : ∀ t ∈ ssts, e'.state.sstables.lookup t.id = some t
  latestCommitTs : e'.latestCommitTs = e.latestCommitTs
  options : e'.options = e.options

namespace Replaced

theorem memtables (h : Replaced e e' task ssts cs) : e'.state.memtables = e.state.memtables := by
  unfold LsmStorageState.memtables
  rw [h.memtable, h.imms]

theorem inputs_hold (h : Replaced e e' task ssts cs) (hc : e.state.Consistent contents) :
    ∀ id ∈ task.inputIds, e.state.TableHolds id (contents id) := by
  obtain ⟨l, hl, -⟩ := h.streams
  exact LsmStorageInner.inputs_hold hl h.inputs hc

/-- The chunks are those of the left-biased union of the runs. -/
theorem chunks_eq (h : Replaced e e' task ssts cs) (hc : e.state.Consistent contents) :
    cs = chunks e.options task.compactToBottomLevel none (unionAll (task.runs contents)) := by
  obtain ⟨l, hl, hcs⟩ := h.streams
  rw [hcs, hl.unique (streams_runs (h.inputs_hold hc) (runs_sorted h.taken hc))]

/-- Tables that are listed keep their contents. -/
theorem withChunks_eq (hs : e.Steady contents) (cs : List (List Entry)) :
    ∀ id ∈ e.state.listedIds, withChunks contents e.nextSstId cs id = contents id :=
  fun id hid => if_pos (hs.ids id (List.mem_append_right _ hid))

theorem exchanged (h : Replaced e e' task ssts cs) (hs : e.Steady contents) :
    Exchanged (withChunks contents e.nextSstId cs) e e' task ssts := by
  obtain ⟨l, hl, hcs⟩ := h.streams
  exact ⟨h.memtables, h.taken, h.inputs,
    merged_of_streams hs h.taken h.inputs hl hcs h.built h.ids, h.listed, h.old, h.new,
    h.latestCommitTs, h.options⟩

/-- **What is stored after a compaction.** -/
theorem hasVersion_iff (h : Replaced e e' task ssts cs) (hs : e.Steady contents) {x : Entry} :
    e'.state.HasVersion (withChunks contents e.nextSstId cs) x ↔
      e.state.HasVersion contents x ∧ ¬(task.compactToBottomLevel = true ∧ isTombstone x.2 = true ∧
        ∃ id ∈ task.inputIds, x ∈ contents id) := by
  have hsame := withChunks_eq hs cs
  have hcontents : (∃ id ∈ task.inputIds, x ∈ withChunks contents e.nextSstId cs id) ↔
      ∃ id ∈ task.inputIds, x ∈ contents id :=
    exists_congr fun id => and_congr_right fun hid => by rw [hsame id (h.inputs.subset hid)]
  rw [(h.exchanged hs).hasVersion_iff (hs.congr hsame).state, hcontents]
  unfold HasVersion
  rw [containers_congr hsame]

end Replaced

/-! ## A full compaction -/

section FullCompaction

variable {level₁ : ℕ × List ℕ} {newSsts : List SsTable}

/-- The first level is the head of the levels. -/
theorem FullyCompacted.levels_eq (h : FullyCompacted e e' level₁ newSsts) : ∃ below,
    e.state.levels = level₁ :: below ∧ e'.state.levels = (1, newSsts.map SsTable.id) :: below := by
  obtain ⟨above, below, hlevels, habove⟩ := split_of_getElem? h.level
  obtain rfl := List.length_eq_zero_iff.mp habove
  refine ⟨below, hlevels, ?_⟩
  rw [h.state]
  simp only [hlevels, List.nil_append, List.set_cons_zero]

theorem FullyCompacted.replaced (h : FullyCompacted e e' level₁ newSsts) (hlaid : e.Laid options) :
    ∃ cs, Replaced e e' (.forceFullCompaction e.state.l0Sstables level₁.2) newSsts cs := by
  obtain ⟨d, hcompact, -⟩ := h.compact
  obtain ⟨l, hl, hwrote⟩ := compact_streams hcompact
  obtain ⟨below, hlevels, hlevels'⟩ := h.levels_eq
  obtain ⟨hids, hnext⟩ := hwrote.ids
  have hmem : level₁ ∈ e.state.levels := by
    rw [hlevels]
    exact List.mem_cons_self
  have hlisted : e.state.listedIds =
      (e.state.l0Sstables ++ level₁.2) ++ (below.map Prod.snd).flatten := by
    unfold LsmStorageState.listedIds
    rw [hlevels, List.map_cons, List.flatten_cons, List.append_assoc]
  have hnew : ∀ id ∈ newSsts.map SsTable.id, e.nextSstId ≤ id := by
    intro id hid
    rw [hids] at hid
    exact List.left_le_of_mem_range' hid
  have hnodup : (newSsts.map SsTable.id).Nodup := by
    rw [hids]
    exact List.nodup_range'
  have hlt : ∀ id ∈ e.state.listedIds, id < e.nextSstId := fun id hid =>
    hlaid.ids id (List.mem_append_right _ hid)
  refine ⟨_, ⟨by rw [h.state], by rw [h.state], ⟨List.Sublist.refl _, level₁, hmem, List.Sublist.refl _⟩,
    ?_, ⟨l, hl, rfl⟩, hwrote.built, hids, hnext, ?_, ?_, ?_, h.latestCommitTs, h.options⟩⟩
  · rw [hlisted]
    exact List.sublist_append_left _ _
  · have hdis := hlaid.listed_nodup
    rw [hlisted, List.nodup_append] at hdis
    have hfilter : e.state.listedIds.filter (· ∉ e.state.l0Sstables ++ level₁.2) =
        (below.map Prod.snd).flatten := by
      rw [hlisted, List.filter_append, filter_notMem_self, List.nil_append,
        List.filter_eq_self.mpr]
      intro id hid
      rw [decide_eq_true_iff]
      exact fun hin => hdis.2.2 id hin id hid rfl
    rw [show (CompactionTask.forceFullCompaction e.state.l0Sstables level₁.2).inputIds =
      e.state.l0Sstables ++ level₁.2 from rfl, hfilter]
    unfold LsmStorageState.listedIds
    have hl0 : e'.state.l0Sstables = [] := by rw [h.state]
    rw [hlevels', hl0, List.nil_append, List.map_cons, List.flatten_cons]
    exact List.perm_append_comm
  · intro id hid hout
    rw [h.state]
    change (insertTables newSsts _).lookup id = _
    rw [lookup_insertTables_of_notMem fun hin => absurd (hnew id hin) (not_le.mpr (hlt id hid)),
      lookup_eraseTables]
    exact if_neg hout
  · intro t ht
    rw [h.state]
    exact lookup_insertTables_of_mem hnodup ht _

/-- **A full compaction keeps the engine steady.** -/
theorem FullyCompacted.steady (h : FullyCompacted e e' level₁ newSsts) (hs : e.Steady contents)
    (hlaid : e.Laid options) (hrep : Replaced e e'
      (.forceFullCompaction e.state.l0Sstables level₁.2) newSsts cs) :
    e'.Steady (withChunks contents e.nextSstId cs) := by
  have hs' := hs.congr (Replaced.withChunks_eq hs cs)
  have hex := hrep.exchanged hs
  refine hex.steady hs' (hlaid.fullCompact h) ?_
  obtain ⟨below, hlevels, hlevels'⟩ := h.levels_eq
  have hold := hs'.state.levels
  rw [hlevels] at hold
  rw [hlevels']
  exact List.forall_mem_cons.mpr ⟨hex.sorted_output hs'.state, (List.forall_mem_cons.mp hold).2⟩

end FullCompaction

/-! ## A background compaction -/

section BackgroundCompaction

variable {output : List SsTable} {s : LsmStorageState MemTable} {removed : List ℕ}

/-- The tables are where the installed state looks for them. -/
theorem Compacted.replaced (h : Compacted e e' task output s removed) (hlaid : e.Laid options)
    (htaken : task.TakenFrom e.state) (hinputs : task.inputIds.Sublist e.state.listedIds)
    (hremoved : removed = task.inputIds)
    (hlisted : s.listedIds.Perm
      (e.state.listedIds.filter (· ∉ task.inputIds) ++ output.map SsTable.id)) :
    ∃ cs, Replaced e e' task output cs := by
  obtain ⟨d, hcompact, -⟩ := h.compact
  obtain ⟨l, hl, hwrote⟩ := compact_streams hcompact
  obtain ⟨hids, hnext⟩ := hwrote.ids
  have hframe := CompactionController.applyCompactionResult_frame h.apply
  have hnew : ∀ id ∈ output.map SsTable.id, e.nextSstId ≤ id := by
    intro id hid
    rw [hids] at hid
    exact List.left_le_of_mem_range' hid
  have hnodup : (output.map SsTable.id).Nodup := by
    rw [hids]
    exact List.nodup_range'
  have hlt : ∀ id ∈ e.state.listedIds, id < e.nextSstId := fun id hid =>
    hlaid.ids id (List.mem_append_right _ hid)
  subst hremoved
  refine ⟨_, ⟨by rw [h.state, hframe], by rw [h.state, hframe], htaken, hinputs, ⟨l, hl, rfl⟩,
    hwrote.built, hids, hnext, ?_, ?_, ?_, h.latestCommitTs, h.options⟩⟩
  · rw [h.state]
    exact hlisted
  · intro id hid hout
    rw [h.state]
    change (eraseTables _ s.sstables).lookup id = _
    rw [lookup_eraseTables, if_neg hout, hframe]
    exact lookup_insertTables_of_notMem
      (fun hin => absurd (hnew id hin) (not_le.mpr (hlt id hid))) _
  · intro t ht
    rw [h.state]
    change (eraseTables _ s.sstables).lookup t.id = _
    have hout : t.id ∉ task.inputIds := fun hin =>
      absurd (hnew _ (List.mem_map_of_mem ht)) (not_le.mpr (hlt _ (hinputs.subset hin)))
    rw [lookup_eraseTables, if_neg hout, hframe]
    exact lookup_insertTables_of_mem hnodup ht _

/-! ### Where a planned task finds its inputs -/

/-- The task was planned for `s₀`, and since then tables were flushed at most. -/
structure Planned (e : LsmStorageInner) (task : CompactionTask) (s₀ : LsmStorageState MemTable)
    (flushed : List ℕ) : Prop where
  generated : e.compactionController.generateCompactionTask s₀ = .ok (some task)
  grown : CompactionController.Grown e.compactionController flushed s₀ e.state
  tables : ∀ id ∈ s₀.listedIds, e.state.sstables.lookup id = s₀.sstables.lookup id

theorem planned_self (h : e.compactionController.generateCompactionTask e.state = .ok (some task)) :
    Planned e task e.state [] := by
  refine ⟨h, ⟨?_, ?_, fun _ => id⟩, fun _ _ => rfl⟩ <;> split <;> rfl

/-- The inputs of a leveled strategy: tables of L0 or of the upper level, and of the lower level. -/
structure Picks (s : LsmStorageState MemTable) (upperLevel : Option ℕ) (upperIds lowerIds : List ℕ)
    (lowerLevel : ℕ) : Prop where
  labels : Labelled s.levels
  picks : PicksFrom List.Sublist s.levels upperLevel upperIds lowerLevel lowerIds
  l0 : upperLevel = none → upperIds.Sublist s.l0Sstables

section

variable {upperLevel : Option ℕ} {upperIds lowerIds : List ℕ} {lowerLevel : ℕ}

omit [Platform] in
theorem Picks.sublist (h : Picks s upperLevel upperIds lowerIds lowerLevel) :
    (upperIds ++ lowerIds).Sublist s.listedIds := by
  obtain ⟨above, lower, below, hlevels, hlower, hupper⟩ := h.picks
  have hlow : lowerIds.Sublist (((lowerLevel, lower) :: below).map Prod.snd).flatten :=
    hlower.trans (List.sublist_append_left _ _)
  unfold LsmStorageState.listedIds
  rw [hlevels, List.map_append, List.flatten_append]
  cases upperLevel with
  | none => exact (h.l0 rfl).append (hlow.trans (List.sublist_append_right _ _))
  | some u =>
    obtain ⟨above', upper, rfl, hids⟩ := hupper u rfl
    refine List.Sublist.trans ?_ (List.sublist_append_right _ _)
    refine List.Sublist.append ?_ hlow
    rw [List.map_append, List.flatten_append]
    refine hids.trans (List.Sublist.trans ?_ (List.sublist_append_right _ _))
    simp

omit [Platform] in
theorem Picks.upperFrom (h : Picks s upperLevel upperIds lowerIds lowerLevel) :
    CompactionTask.UpperFrom s upperLevel upperIds ∧ CompactionTask.LevelFrom s lowerIds := by
  obtain ⟨above, lower, below, hlevels, hlower, hupper⟩ := h.picks
  refine ⟨?_, (lowerLevel, lower), by rw [hlevels]; simp, hlower⟩
  cases upperLevel with
  | none => exact h.l0 rfl
  | some u =>
    obtain ⟨above', upper, rfl, hids⟩ := hupper u rfl
    exact ⟨(u, upper), by rw [hlevels]; simp, hids⟩

end

/-- The task of a controller is one of its strategy. -/
theorem generated_cases {M : Type} {s : LsmStorageState M} {controller : CompactionController}
    (h : controller.generateCompactionTask s = .ok (some task)) :
    (∃ o t, controller = .simple o ∧ task = .simple t ∧
        SimpleLeveledCompactionController.generateCompactionTask o s = .ok (some t)) ∨
      (∃ o t, controller = .leveled o ∧ task = .leveled t ∧
        LeveledCompactionController.generateCompactionTask o s = .ok (some t)) ∨
      ∃ o t, controller = .tiered o ∧ task = .tiered t ∧
        TieredCompactionController.generateCompactionTask o s = .ok (some t) := by
  cases controller with
  | noCompaction => cases h
  | simple o =>
    obtain ⟨t, ht, htask⟩ := Outcome.bind_eq_ok_iff.mp h
    obtain ⟨t, rfl, rfl⟩ := Option.map_eq_some_iff.mp (Except.ok.inj htask)
    exact Or.inl ⟨o, t, rfl, rfl, ht⟩
  | leveled o =>
    obtain ⟨t, ht, htask⟩ := Outcome.bind_eq_ok_iff.mp h
    obtain ⟨t, rfl, rfl⟩ := Option.map_eq_some_iff.mp (Except.ok.inj htask)
    exact Or.inr (Or.inl ⟨o, t, rfl, rfl, ht⟩)
  | tiered o =>
    obtain ⟨t, ht, htask⟩ := Outcome.bind_eq_ok_iff.mp h
    obtain ⟨t, rfl, rfl⟩ := Option.map_eq_some_iff.mp (Except.ok.inj htask)
    exact Or.inr (Or.inr ⟨o, t, rfl, rfl, ht⟩)

namespace Planned

variable {s₀ : LsmStorageState MemTable} {flushed : List ℕ}

/-- With L0 the flushed tables are in front of it, and the levels stay. -/
theorem of_l0 (h : Planned e task s₀ flushed) (hlaid : e.Laid options)
    (hflush : e.compactionController.flushToL0 = true) : e.state.levels = s₀.levels ∧
      e.state.l0Sstables = flushed ++ s₀.l0Sstables ∧ Labelled s₀.levels := by
  have hl0 := h.grown.l0Sstables
  have hlevels := h.grown.levels
  rw [if_pos hflush] at hl0 hlevels
  rw [hlaid.controller] at hflush
  exact ⟨hlevels, hl0, hlevels ▸ (hlaid.layout hflush).labelled hflush⟩

theorem simple {t : SimpleLeveledCompactionTask} (h : Planned e (.simple t) s₀ flushed)
    (hlaid : e.Laid options) :
    ∃ o, e.compactionController = .simple o ∧
      SimpleLeveledCompactionController.Picked s₀.l0Sstables e.state.levels t ∧
      (∀ id ∈ s₀.l0Sstables, id ∈ e.state.l0Sstables) ∧
      Picks e.state t.upperLevel t.upperLevelSstIds t.lowerLevelSstIds t.lowerLevel := by
  obtain ⟨o, _, ho, heq, ht⟩ | ⟨o, _, ho, heq, ht⟩ | ⟨o, _, ho, heq, ht⟩ :=
    generated_cases h.generated <;> cases heq
  obtain ⟨hlevels, hl0, hlabels⟩ := h.of_l0 hlaid (by rw [ho]; rfl)
  have hpicked := (SimpleLeveledCompactionController.generateCompactionTask_spec hlabels ht).1
  rw [← hlevels] at hlabels hpicked
  have hsub : s₀.l0Sstables.Sublist e.state.l0Sstables := by
    rw [hl0]
    exact List.sublist_append_right _ _
  refine ⟨o, ho, hpicked, hsub.subset, hlabels, hpicked.1.mono fun ids ids' heq => ?_, fun hu => ?_⟩
  · rw [heq]
  · rw [(hpicked.2 hu).2]
    exact hsub

theorem leveled {t : LeveledCompactionTask} (h : Planned e (.leveled t) s₀ flushed)
    (hlaid : e.Laid options) :
    ∃ o, e.compactionController = .leveled o ∧
      LeveledCompactionController.Picked s₀.l0Sstables e.state.levels t ∧
      (∀ id ∈ s₀.l0Sstables, id ∈ e.state.l0Sstables) ∧
      Picks e.state t.upperLevel t.upperLevelSstIds t.lowerLevelSstIds t.lowerLevel ∧
      LeveledCompactionController.findOverlappingSsts e.state t.upperLevelSstIds t.lowerLevel =
        .ok t.lowerLevelSstIds := by
  obtain ⟨o, _, ho, heq, ht⟩ | ⟨o, _, ho, heq, ht⟩ | ⟨o, _, ho, heq, ht⟩ :=
    generated_cases h.generated <;> cases heq
  obtain ⟨hlevels, hl0, hlabels⟩ := h.of_l0 hlaid (by rw [ho]; rfl)
  obtain ⟨hpicked, -, hoverlap⟩ :=
    LeveledCompactionController.generateCompactionTask_spec hlabels ht
  have hpicks₀ : Picks s₀ t.upperLevel t.upperLevelSstIds t.lowerLevelSstIds t.lowerLevel :=
    ⟨hlabels, hpicked.1, fun hu => by rw [hpicked.2.1 hu]⟩
  have hsub : s₀.l0Sstables.Sublist e.state.l0Sstables := by
    rw [hl0]
    exact List.sublist_append_right _ _
  rw [← LeveledCompactionController.findOverlappingSsts_congr hlevels h.tables fun id hid =>
    hpicks₀.sublist.subset (List.mem_append_left _ hid)] at hoverlap
  rw [← hlevels] at hlabels hpicked
  refine ⟨o, ho, hpicked, hsub.subset, ⟨hlabels, hpicked.1, fun hu => ?_⟩, hoverlap⟩
  rw [hpicked.2.1 hu]
  exact hsub

/-- The flushed tiers are in front of those of the task. -/
theorem tiered {t : TieredCompactionTask} (h : Planned e (.tiered t) s₀ flushed) :
    ∃ o older, e.compactionController = .tiered o ∧ e.state.l0Sstables = [] ∧
      t.tiers ++ older ≠ [] ∧
      e.state.levels = flushed.map (fun id => (id, [id])) ++ (t.tiers ++ older) := by
  obtain ⟨o, _, ho, heq, ht⟩ | ⟨o, _, ho, heq, ht⟩ | ⟨o, _, ho, heq, ht⟩ :=
    generated_cases h.generated <;> cases heq
  have hfalse : e.compactionController.flushToL0 = false := by rw [ho]; rfl
  have hl0 := h.grown.l0Sstables
  have hlevels := h.grown.levels
  rw [hfalse, if_neg Bool.false_ne_true] at hl0 hlevels
  obtain ⟨hl0', hne, older, holder, -⟩ :=
    TieredCompactionController.generateCompactionTask_spec ht
  have hsplit : s₀.levels = t.tiers ++ older := holder
  rw [hsplit] at hne
  exact ⟨o, older, ho, hl0.trans hl0', hne, by rw [hlevels, hsplit]⟩

theorem taken (h : Planned e task s₀ flushed) (hlaid : e.Laid options) :
    task.TakenFrom e.state ∧ task.inputIds.Sublist e.state.listedIds := by
  cases task with
  | forceFullCompaction l0 l1 =>
    obtain ⟨_, _, -, heq, -⟩ | ⟨_, _, -, heq, -⟩ | ⟨_, _, -, heq, -⟩ :=
      generated_cases h.generated <;> cases heq
  | simple t =>
    obtain ⟨-, -, -, -, hpicks⟩ := h.simple hlaid
    exact ⟨hpicks.upperFrom, hpicks.sublist⟩
  | leveled t =>
    obtain ⟨-, -, -, -, hpicks, -⟩ := h.leveled hlaid
    exact ⟨hpicks.upperFrom, hpicks.sublist⟩
  | tiered t =>
    obtain ⟨-, older, -, -, -, hlevels⟩ := h.tiered
    have hsub : t.tiers.Sublist e.state.levels := by
      rw [hlevels]
      exact (List.sublist_append_left _ _).trans (List.sublist_append_right _ _)
    exact ⟨hsub, ((hsub.map Prod.snd).flatten).trans (List.sublist_append_right _ _)⟩

end Planned

/-! ### Installing the result -/

section Installing

variable {s₀ : LsmStorageState MemTable} {flushed outputIds : List ℕ} {m : SstMap}

/-- A leveled strategy: the inputs have left L0 or the upper level, and the lower level, which has
the output. -/
structure Moved (s s' : LsmStorageState MemTable) (upperIds lowerIds : List ℕ) (lowerLevel : ℕ)
    (output : List ℕ) : Prop where
  l0Sstables : s'.l0Sstables = s.l0Sstables.filter (· ∉ upperIds ++ lowerIds)
  installed : Installed (upperIds ++ lowerIds) output lowerLevel s.levels s'.levels
  thinned : Thinned lowerLevel s.levels s'.levels

omit [Platform] in
theorem Moved.listed {s s' : LsmStorageState MemTable} {upperLevel : Option ℕ}
    {upperIds lowerIds : List ℕ} {lowerLevel : ℕ}
    (h : Moved s s' upperIds lowerIds lowerLevel outputIds)
    (hpicks : Picks s upperLevel upperIds lowerIds lowerLevel) :
    s'.listedIds.Perm (s.listedIds.filter (· ∉ upperIds ++ lowerIds) ++ outputIds) := by
  have hperm := h.installed.perm hpicks.labels.nodup
  obtain ⟨above, lower, below, hlevels, -, -⟩ := hpicks.picks
  rw [if_pos (by rw [hlevels]; simp)] at hperm
  unfold LsmStorageState.listedIds
  rw [h.l0Sstables, List.filter_append, List.append_assoc]
  exact hperm.append_left _

/-- **Simple**: whole levels are merged, and the lower one is the output. -/
theorem Planned.apply_simple {t : SimpleLeveledCompactionTask} (h : Planned e (.simple t) s₀ flushed)
    (hlaid : e.Laid options) (happly : e.compactionController.applyCompactionResult
      { e.state with sstables := m } (.simple t) outputIds false = .ok (s, removed)) :
    removed = (CompactionTask.simple t).inputIds ∧
    Moved e.state s t.upperLevelSstIds t.lowerLevelSstIds t.lowerLevel outputIds ∧
    ∀ level ∈ s.levels, level.1 = t.lowerLevel → level.2 = outputIds := by
  obtain ⟨o, ho, hpicked, hl0, hpicks⟩ := h.simple hlaid
  rw [ho] at happly
  obtain ⟨levels', heq, hinstalled, hthinned, houtput⟩ :=
    SimpleLeveledCompactionController.applyCompactionResult_spec
      (show Labelled ({ e.state with sstables := m } : LsmStorageState MemTable).levels from
        hpicks.labels) hlaid.listed_nodup hpicked hl0 outputIds
  rw [show SimpleLeveledCompactionController.applyCompactionResult _ _ _ = .ok (s, removed) from
    happly] at heq
  obtain ⟨rfl, rfl⟩ := Prod.mk.inj (Except.ok.inj heq)
  exact ⟨rfl, ⟨rfl, hinstalled, hthinned⟩, houtput⟩

/-- **Leveled**: tables of a level and the tables below that they overlap are merged, and the lower
level is sorted by first key. -/
theorem Planned.apply_leveled {t : LeveledCompactionTask} (h : Planned e (.leveled t) s₀ flushed)
    (hlaid : e.Laid options) (htables : ∀ level ∈ e.state.levels, ∀ id ∈ level.2, ∃ u, m.lookup id = some u)
    (houtput : ∀ id ∈ outputIds, ∃ u, m.lookup id = some u)
    (happly : e.compactionController.applyCompactionResult
      { e.state with sstables := m } (.leveled t) outputIds false = .ok (s, removed)) :
    removed = (CompactionTask.leveled t).inputIds ∧
    Moved e.state s t.upperLevelSstIds t.lowerLevelSstIds t.lowerLevel outputIds ∧
    ∀ level ∈ s.levels, level.1 = t.lowerLevel → level.2.Pairwise
      (LeveledCompactionController.FirstKeyLe { e.state with sstables := m }) := by
  obtain ⟨o, ho, hpicked, hl0, hpicks, -⟩ := h.leveled hlaid
  rw [ho] at happly
  obtain ⟨levels', heq, hinstalled, hthinned, hsorted⟩ :=
    LeveledCompactionController.applyCompactionResult_spec outputIds false
      (show Labelled ({ e.state with sstables := m } : LsmStorageState MemTable).levels from
        hpicks.labels) hlaid.listed_nodup hpicked hl0 (fun _ => htables) fun _ => houtput
  rw [show LeveledCompactionController.applyCompactionResult _ _ _ _ = .ok (s, removed) from
    happly] at heq
  obtain ⟨rfl, rfl⟩ := Prod.mk.inj (Except.ok.inj heq)
  exact ⟨rfl, ⟨rfl, hinstalled, hthinned⟩, hsorted rfl⟩

/-- **Tiered**: the tiers of the task have become one tier, which is not empty. -/
theorem Planned.apply_tiered {t : TieredCompactionTask} (h : Planned e (.tiered t) s₀ flushed)
    (hlaid : e.Laid options) (htiers : ∀ tier ∈ e.state.levels, tier.2 ≠ [])
    (hnil : t.tiers = [] → outputIds = [])
    (happly : e.compactionController.applyCompactionResult
      { e.state with sstables := m } (.tiered t) outputIds false = .ok (s, removed)) :
    removed = (CompactionTask.tiered t).inputIds ∧ e.state.l0Sstables = [] ∧ s.l0Sstables = [] ∧
    ∃ o os newer older, outputIds = o :: os ∧ t.tiers ≠ [] ∧
      e.state.levels = newer ++ (t.tiers ++ older) ∧ s.levels = newer ++ (o, outputIds) :: older := by
  obtain ⟨o, older, ho, hl0, hne, hlevels⟩ := h.tiered
  rw [ho] at happly
  have hlisted := (List.nodup_append.mp hlaid.listed_nodup).2.1
  have hfiles : e.state.levels.Pairwise fun a b => a.2 ≠ b.2 := by
    have hdis := (List.nodup_flatten.mp hlisted).2
    rw [List.pairwise_map] at hdis
    refine hdis.imp_of_mem fun {a b} ha _ hab heq => ?_
    obtain ⟨id, hid⟩ := List.exists_mem_of_ne_nil a.2 (htiers a ha)
    exact hab hid (heq ▸ hid)
  have hlabels : ((flushed.map fun id => (id, [id])).map Prod.fst).Nodup := by
    rw [hlevels, List.map_append, List.flatten_append] at hlisted
    have hflushed := (List.nodup_append.mp hlisted).1
    rw [List.map_map] at hflushed ⊢
    have hflat : (flushed.map (Prod.snd ∘ fun id => (id, [id]))).flatten = flushed :=
      List.flatMap_singleton' flushed
    rw [hflat] at hflushed
    simpa [Function.comp_def] using hflushed
  obtain ⟨o', os, rfl, htask', -, rfl, rfl⟩ := TieredCompactionController.applyCompactionResult_ok
    (s := { e.state with sstables := m }) happly hlevels
    (by rw [show ({ e.state with sstables := m } : LsmStorageState MemTable).levels = _ from hlevels]
        exact List.append_ne_nil_of_right_ne_nil _ hne) hlabels hfiles hnil
  exact ⟨rfl, hl0, hl0, o', os, _, older, rfl, htask', hlevels, rfl⟩

end Installing

end BackgroundCompaction

end LsmStorageInner

end TinyLsm

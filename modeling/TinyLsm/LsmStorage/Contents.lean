import TinyLsm.LsmStorage.Compacted
import TinyLsm.LsmStorage.History
import TinyLsm.Compact.LeveledSorted

/-!
# The contents of the tables in every run

`RunOf.settled`: after every run there are `contents` that the listed tables hold, whatever the writes,
freezes, flushes and compactions were and whatever tables are empty.

The work is in the leveled compactions, which put tables of the lower level and new ones into the order
of their first keys: `Replaced.sorted_arranged`.  Tables without entries may stand anywhere in a level, so
only the others are compared.
-/

namespace TinyLsm

open CompactionTask

/-! ## Levels as runs -/

/-- Everything in the one table lies before everything in the other one. -/
def Before (contents : ℕ → List Entry) (id₁ id₂ : ℕ) : Prop :=
  ∀ x ∈ contents id₁, ∀ y ∈ contents id₂, x.1 < y.1

theorem sortedRun_levelRun_iff {contents : ℕ → List Entry} {ids : List ℕ} :
    SortedRun (levelRun contents ids) ↔
      (∀ id ∈ ids, SortedRun (contents id)) ∧ ids.Pairwise (Before contents) := by
  unfold levelRun SortedRun Before
  rw [List.pairwise_flatten, List.pairwise_map, List.forall_mem_map]

variable [Platform] {contents : ℕ → List Entry} {t₁ t₂ : SsTable} {id₁ id₂ : ℕ}

/-- Tables with entries that follow each other. -/
theorem lt_of_before (h₁ : t₁.HasEntries (contents id₁)) (h₂ : t₂.HasEntries (contents id₂))
    (h : Before contents id₁ id₂) : t₁.lastKey < t₂.firstKey := by
  obtain ⟨x, hx, hlast⟩ := h₁.lastKey_eq
  obtain ⟨y, hy, hfirst⟩ := h₂.firstKey_eq
  rw [hlast, hfirst]
  exact h x (List.mem_of_getLast? hx) y (List.mem_of_mem_head? hy)

theorem before_of_lt (h₁ : t₁.HasEntries (contents id₁)) (h₂ : t₂.HasEntries (contents id₂))
    (h : t₁.lastKey < t₂.firstKey) : Before contents id₁ id₂ := fun _ hx _ hy =>
  (h₁.le_lastKey hx).trans_lt (h.trans_le (h₂.firstKey_le hy))

/-- Two tables with entries of a sorted level are apart. -/
theorem apart_of_sorted {ids : List ℕ} (h : SortedRun (levelRun contents ids)) (hid₁ : id₁ ∈ ids)
    (hid₂ : id₂ ∈ ids) (hne : id₁ ≠ id₂) (h₁ : t₁.HasEntries (contents id₁))
    (h₂ : t₂.HasEntries (contents id₂)) : Intervals.Apart SsTable.firstKey SsTable.lastKey t₁ t₂ := by
  have hpair : ids.Pairwise fun a b => Before contents a b ∨ Before contents b a :=
    (sortedRun_levelRun_iff.mp h).2.imp Or.inl
  have : Std.Symm fun a b => Before contents a b ∨ Before contents b a := ⟨fun _ _ => Or.symm⟩
  exact (hpair.forall hid₁ hid₂ hne).imp (lt_of_before h₁ h₂) (lt_of_before h₂ h₁)

/-- The tables with entries of a level, in order. -/
theorem LsmStorageState.Consistent.exists_ascending {state : LsmStorageState MemTable}
    (hc : state.Consistent contents) {level : ℕ × List ℕ} (hlevel : level ∈ state.levels) :
    ∃ tables, SstsValid tables ∧ ∀ id ∈ level.2, contents id ≠ [] →
      ∃ t ∈ tables, state.sstables.lookup id = some t ∧ t.HasEntries (contents id) := by
  have hholds : ∀ id ∈ level.2.filter (fun id => contents id ≠ []),
      state.TableHolds id (contents id) := by
    intro id hid
    rw [List.mem_filter, decide_eq_true_iff] at hid
    obtain ⟨t, ht, hmade⟩ :=
      hc.tables id (LsmStorageState.mem_listedIds.mpr (Or.inr ⟨level, hlevel, hid.1⟩))
    exact ⟨t, ht, (hmade.hasEntries hid.2).1⟩
  obtain ⟨tables, htables, hents⟩ := mapM_table hholds
  refine ⟨tables, .of_sortedRun hents ?_, fun id hid hne => ?_⟩
  · exact (hc.levels level hlevel).sublist (List.filter_sublist.map contents).flatten
  · have hmem : id ∈ level.2.filter (fun id => contents id ≠ []) :=
      List.mem_filter.mpr ⟨hid, decide_eq_true hne⟩
    obtain ⟨t, ht, hlookup⟩ := exists_of_mem_left (mapM_eq_ok_iff.mp htables) hmem
    rw [LsmStorageState.table_eq_ok_iff] at hlookup
    obtain ⟨u, hu, hent⟩ := hholds id hmem
    rw [hlookup] at hu
    obtain rfl := Option.some.inj hu
    exact ⟨t, ht, hlookup, hent⟩

namespace LsmStorageInner

open LsmStorageState

variable {options : LsmStorageOptions} {e e' : LsmStorageInner} {task : CompactionTask}
  {ssts : List SsTable} {cs : List (List Entry)}

/-! ## Leveled compactions -/

/-- New tables with entries lie between the first and the last key of the inputs. -/
theorem Exchanged.withinInputs (h : Exchanged contents e e' task ssts) (hs : e.Steady contents)
    (hnodup : (ssts.map SsTable.id).Nodup) :
    LeveledCompactionController.WithinInputs e.state
      { e.state with sstables := insertTables ssts e.state.sstables } task.inputIds
      ((ssts.map SsTable.id).filter fun id => contents id ≠ []) := by
  intro id hid
  obtain ⟨hmem, hne⟩ := List.mem_filter.mp hid
  obtain ⟨t, ht, rfl⟩ := List.mem_map.mp hmem
  have hent := ((h.madeOf hs ht).hasEntries (of_decide_eq_true hne)).1
  -- The table of the input in which an entry was.
  have hinput : ∀ x ∈ contents t.id, ∃ i ∈ task.inputIds, ∃ u,
      e.state.sstables.lookup i = some u ∧ u.firstKey ≤ x.1 ∧ x.1 ≤ u.lastKey := by
    intro x hx
    obtain ⟨i, hi, hxi⟩ := h.exists_input hs.state ht hx
    obtain ⟨u, hu, hholds⟩ := h.merged.holds i hi
    exact ⟨i, hi, u, hu, hholds.firstKey_le hxi, hholds.le_lastKey hxi⟩
  obtain ⟨x, hx, hfirst⟩ := hent.firstKey_eq
  obtain ⟨y, hy, hlast⟩ := hent.lastKey_eq
  refine ⟨t, lookup_insertTables_of_mem hnodup ht _, ?_, ?_⟩
  · obtain ⟨i, hi, u, hu, hle, -⟩ := hinput x (List.mem_of_mem_head? hx)
    exact ⟨i, hi, u, hu, by rw [hfirst]; exact hle⟩
  · obtain ⟨i, hi, u, hu, -, hle⟩ := hinput y (List.mem_of_getLast? hy)
    exact ⟨i, hi, u, hu, by rw [hlast]; exact hle⟩

/-- **The new lower level is sorted**: what is left of it and the new tables, in the order of their
first keys. -/
theorem Exchanged.sorted_arranged {t : LeveledCompactionTask}
    (h : Exchanged contents e e' (.leveled t) ssts) (hs : e.Steady contents)
    (hnodup : (ssts.map SsTable.id).Nodup)
    (hfresh : ∀ id ∈ ssts.map SsTable.id, id ∉ e.state.listedIds)
    (hoverlap : LeveledCompactionController.findOverlappingSsts e.state t.upperLevelSstIds
      t.lowerLevel = .ok t.lowerLevelSstIds) {level : ℕ × List ℕ}
    (hlevel : e.state.levels[t.lowerLevel - 1]? = some level) {ids : List ℕ}
    (hperm : ids.Perm (level.2.filter (· ∉ (CompactionTask.leveled t).inputIds) ++
      ssts.map SsTable.id))
    (hfirst : ids.Pairwise (LeveledCompactionController.FirstKeyLe
      { e.state with sstables := insertTables ssts e.state.sstables })) :
    SortedRun (levelRun contents ids) := by
  have hmem : level ∈ e.state.levels := List.mem_of_getElem? hlevel
  have hc := hs.state
  have hlisted : ∀ id ∈ level.2, id ∈ e.state.listedIds := fun id hid =>
    mem_listedIds.mpr (Or.inr ⟨level, hmem, hid⟩)
  have hlookup : ∀ id ∈ level.2,
      (insertTables ssts e.state.sstables).lookup id = e.state.sstables.lookup id := fun id hid =>
    lookup_insertTables_of_notMem (fun hin => hfresh id hin (hlisted id hid)) _
  have hdisjoint : ∀ a ∈ level.2, ∀ b ∈ ssts.map SsTable.id, a ≠ b := by
    rintro a ha b hb rfl
    exact hfresh a hb (hlisted a ha)
  obtain ⟨tables, hvalid, htables⟩ := hc.exists_ascending hmem
  obtain ⟨_, _, level', -, hlevel', -, hsub, -⟩ :=
    LeveledCompactionController.findOverlappingSsts_spec hoverlap
  obtain rfl : level = level' := Option.some.inj (hlevel.symm.trans hlevel')
  -- A table that stays or is new holds its contents.
  have hkept : ∀ {id}, id ∈ level.2.filter (· ∉ (CompactionTask.leveled t).inputIds) →
      id ∈ level.2 ∧ id ∉ t.lowerLevelSstIds := by
    intro id hid
    obtain ⟨hid, hnot⟩ := List.mem_filter.mp hid
    exact ⟨hid, fun hin => of_decide_eq_true hnot (List.mem_append_right _ hin)⟩
  have hent : ∀ id ∈ ids, contents id ≠ [] → ∃ u,
      (insertTables ssts e.state.sstables).lookup id = some u ∧ u.HasEntries (contents id) := by
    intro id hid hne
    rcases List.mem_append.mp (hperm.subset hid) with hid | hid
    · obtain ⟨hid, -⟩ := hkept hid
      obtain ⟨u, -, hu, hent⟩ := htables id hid hne
      exact ⟨u, (hlookup id hid).trans hu, hent⟩
    · obtain ⟨u, hu, rfl⟩ := List.mem_map.mp hid
      exact ⟨u, lookup_insertTables_of_mem hnodup hu _, ((h.madeOf hs hu).hasEntries hne).1⟩
  have hwithin := h.withinInputs hs hnodup
  -- A table that stays and a new one.
  have hcross : ∀ {a b ta tb}, a ∈ level.2.filter (· ∉ (CompactionTask.leveled t).inputIds) →
      b ∈ ssts.map SsTable.id → contents a ≠ [] → contents b ≠ [] →
      (insertTables ssts e.state.sstables).lookup a = some ta →
      (insertTables ssts e.state.sstables).lookup b = some tb →
      Intervals.Apart SsTable.firstKey SsTable.lastKey ta tb := by
    intro a b ta tb ha hb hne hne' hta htb
    obtain ⟨ha, hnot⟩ := hkept ha
    obtain ⟨u, hu, hlook, -⟩ := htables a ha hne
    have hlower : ∀ id ∈ t.lowerLevelSstIds, ∀ v, e.state.sstables.lookup id = some v →
        v ∈ tables := by
      intro id hid v hv
      obtain ⟨w, -, hw⟩ := h.merged.holds id (List.mem_append_right _ hid)
      obtain ⟨w', hw', hlook', -⟩ := htables id (hsub.subset hid) hw.ne_nil
      obtain rfl : w' = v := Option.some.inj (hlook'.symm.trans hv)
      exact hw'
    obtain ⟨ta', tb', hta', htb', hapart⟩ := LeveledCompactionController.apart_output hlevel hvalid
      hlower hoverlap hwithin ha hnot hlook hu (hlookup a ha)
      (List.mem_filter.mpr ⟨hb, decide_eq_true hne'⟩)
    obtain rfl : ta' = ta := Option.some.inj (hta'.symm.trans hta)
    obtain rfl : tb' = tb := Option.some.inj (htb'.symm.trans htb)
    exact hapart
  have hids : ids.Nodup := by
    refine hperm.nodup_iff.mpr (List.nodup_append.mpr ⟨?_, hnodup, ?_⟩)
    · exact (nodup_level (List.nodup_append.mp hc.nodup).2.1 hmem).filter _
    · exact fun a ha b hb => hdisjoint a (hkept ha).1 b hb
  refine sortedRun_levelRun_iff.mpr ⟨fun id hid => ?_, ?_⟩
  · by_cases hne : contents id = []
    · rw [hne]
      exact SortedRun.nil
    · obtain ⟨u, -, hu⟩ := hent id hid hne
      exact hu.sorted
  refine (hids.and hfirst).imp_of_mem fun {a b} ha hb ⟨hab, hle⟩ => ?_
  by_cases hnea : contents a = []
  · unfold Before
    rw [hnea]
    simp
  by_cases hneb : contents b = []
  · unfold Before
    rw [hneb]
    simp
  obtain ⟨ta, hta, henta⟩ := hent a ha hnea
  obtain ⟨tb, htb, hentb⟩ := hent b hb hneb
  have hapart : Intervals.Apart SsTable.firstKey SsTable.lastKey ta tb := by
    rcases List.mem_append.mp (hperm.subset ha) with ha' | ha' <;>
      rcases List.mem_append.mp (hperm.subset hb) with hb' | hb'
    · exact apart_of_sorted (hc.levels level hmem) (hkept ha').1 (hkept hb').1 hab henta hentb
    · exact hcross ha' hb' hnea hneb hta htb
    · exact (hcross hb' ha' hneb hnea htb hta).symm
    · exact apart_of_sorted (h.sorted_output hc) ha' hb' hab henta hentb
  obtain ⟨ta', tb', hta', htb', hle⟩ := hle
  obtain rfl : ta' = ta := Option.some.inj (hta'.symm.trans hta)
  obtain rfl : tb' = tb := Option.some.inj (htb'.symm.trans htb)
  exact before_of_lt henta hentb (hapart.lt_of_le hle hentb.firstKey_le_lastKey)

/-! ## Every background compaction -/

/-- Every tier has a table. -/
def HasNoEmptyTier (e : LsmStorageInner) : Prop :=
  e.compactionController.flushToL0 = false → ∀ tier ∈ e.state.levels, tier.2 ≠ []

/-- A compaction of the leveled strategies: the levels but the lower one are parts of old levels. -/
theorem sorted_of_thinned {s s' : LsmStorageState MemTable} (hc : s.Consistent contents) {lowerLevel : ℕ}
    (hthinned : Thinned lowerLevel s.levels s'.levels)
    (hlower : ∀ level ∈ s'.levels, level.1 = lowerLevel → SortedRun (levelRun contents level.2)) :
    ∀ level ∈ s'.levels, SortedRun (levelRun contents level.2) := by
  intro level hlevel
  by_cases hlabel : level.1 = lowerLevel
  · exact hlower level hlevel hlabel
  · obtain ⟨old, hold, hsub⟩ := hthinned level hlevel hlabel
    exact (hc.levels old hold).sublist (hsub.map contents).flatten

/-- The task is of the kind of the controller. -/
def OfKind (controller : CompactionController) : CompactionTask → Prop
  | .leveled _ => ∃ o, controller = .leveled o
  | .simple _ => ∃ o, controller = .simple o
  | .tiered _ => ∃ o, controller = .tiered o
  | .forceFullCompaction _ _ => False

theorem ofKind_of_generated {M : Type} {s : LsmStorageState M} {controller : CompactionController}
    (h : controller.generateCompactionTask s = .ok (some task)) : OfKind controller task := by
  rcases generated_cases h with ⟨o, t, rfl, rfl, -⟩ | ⟨o, t, rfl, rfl, -⟩ | ⟨o, t, rfl, rfl, -⟩ <;>
    exact ⟨o, rfl⟩

section

variable {output : List SsTable} {s s₀ : LsmStorageState MemTable} {removed flushed : List ℕ}

/-- The output of a merge is installed. -/
structure Installs (e e' : LsmStorageInner) (task : CompactionTask) (output : List SsTable)
    (s : LsmStorageState MemTable) (removed : List ℕ) : Prop where
  nodup : (output.map SsTable.id).Nodup
  fresh : ∀ id ∈ output.map SsTable.id, id ∉ e.state.ids ∧ id < e'.nextSstId
  apply : e.compactionController.applyCompactionResult
    { e.state with sstables := insertTables output e.state.sstables } task (output.map SsTable.id)
      false = .ok (s, removed)
  state : e'.state = { s with sstables := eraseTables removed s.sstables }
  nextSstId : e.nextSstId ≤ e'.nextSstId
  latestCommitTs : e'.latestCommitTs = e.latestCommitTs
  options : e'.options = e.options

namespace Installs

omit [Platform] in
theorem memtables (h : Installs e e' task output s removed) :
    e'.state.memtables = e.state.memtables := by
  rw [h.state, CompactionController.applyCompactionResult_frame h.apply]
  rfl

omit [Platform] in
theorem notListed (h : Installs e e' task output s removed) :
    ∀ id ∈ output.map SsTable.id, id ∉ e.state.listedIds := fun id hid hlisted =>
  (h.fresh id hid).1 (List.mem_append_right _ hlisted)

/-- The tables are where the installed state looks for them. -/
theorem exchanged (h : Installs e e' task output s removed) (hmerged : Merged contents e task output)
    (htaken : task.TakenFrom e.state ∧ task.inputIds.Sublist e.state.listedIds)
    (hremoved : removed = task.inputIds)
    (hlisted : s.listedIds.Perm
      (e.state.listedIds.filter (· ∉ task.inputIds) ++ output.map SsTable.id)) :
    Exchanged contents e e' task output := by
  have hframe := CompactionController.applyCompactionResult_frame h.apply
  subst hremoved
  refine ⟨h.memtables, htaken.1, htaken.2, hmerged, ?_, fun id hid hout => ?_, fun t ht => ?_,
    h.latestCommitTs, h.options⟩
  · rw [h.state]
    exact hlisted
  · rw [h.state]
    change (eraseTables _ s.sstables).lookup id = _
    rw [lookup_eraseTables, if_neg hout, hframe]
    exact lookup_insertTables_of_notMem (fun hin => h.notListed id hin hid) _
  · rw [h.state]
    change (eraseTables _ s.sstables).lookup t.id = _
    have hout : t.id ∉ task.inputIds := fun hin =>
      h.notListed _ (List.mem_map_of_mem ht) (htaken.2.subset hin)
    rw [lookup_eraseTables, if_neg hout, hframe]
    exact lookup_insertTables_of_mem h.nodup ht _

omit [Platform] in
theorem laid (h : Installs e e' task output s removed) (hlaid : e.Laid options)
    (hlisted : s.listedIds.Perm
      (e.state.listedIds.filter (· ∉ task.inputIds) ++ output.map SsTable.id))
    (hlabels : e.compactionController.flushToL0 = true →
      s.levels.map Prod.fst = e.state.levels.map Prod.fst)
    (hl0 : e.compactionController.flushToL0 = false → s.l0Sstables = []) : e'.Laid options := by
  have hids : e'.state.ids.Perm (e.state.memtables.map MemTable.id ++
      (e.state.listedIds.filter (· ∉ task.inputIds) ++ output.map SsTable.id)) := by
    unfold LsmStorageState.ids
    rw [h.memtables, h.state]
    exact hlisted.append_left _
  rw [← List.append_assoc] at hids
  have hold : (e.state.memtables.map MemTable.id ++
      e.state.listedIds.filter (· ∉ task.inputIds)).Sublist e.state.ids :=
    List.filter_sublist.append_left _
  rw [hlaid.controller] at hlabels hl0
  refine ⟨h.options.trans hlaid.opts, ?_, fun id hid => ?_, fun hflush => ?_, fun hflush => ?_⟩
  · rw [hids.nodup_iff, List.nodup_append]
    exact ⟨hlaid.nodup.sublist hold, h.nodup,
      fun id hid other hother heq => (h.fresh other hother).1 (heq ▸ hold.subset hid)⟩
  · rcases List.mem_append.mp (hids.subset hid) with hid | hid
    · exact (hlaid.ids id (hold.subset hid)).trans_le h.nextSstId
    · exact (h.fresh id hid).2
  · rw [h.state]
    exact (hlabels hflush).trans (hlaid.labels hflush)
  · rw [h.state]
    exact hl0 hflush

end Installs

/-- A leveled strategy finds the tables of the levels and the new ones in the map. -/
theorem Planned.moves_leveled {t : LeveledCompactionTask} (hplan : Planned e (.leveled t) s₀ flushed)
    (hs : e.Steady contents) (hlaid : e.Laid options) (h : Installs e e' (.leveled t) output s removed) :
    removed = (CompactionTask.leveled t).inputIds ∧
    Moved e.state s t.upperLevelSstIds t.lowerLevelSstIds t.lowerLevel (output.map SsTable.id) ∧
    ∀ level ∈ s.levels, level.1 = t.lowerLevel → level.2.Pairwise (LeveledCompactionController.FirstKeyLe
      { e.state with sstables := insertTables output e.state.sstables }) := by
  refine hplan.apply_leveled hlaid (fun level hlevel id hid => ?_) (fun id hid => ?_) h.apply
  · have hid := mem_listedIds.mpr (Or.inr ⟨level, hlevel, hid⟩)
    obtain ⟨u, hu, -⟩ := hs.state.tables id hid
    exact ⟨u, (lookup_insertTables_of_notMem (fun hin => h.notListed id hin hid) _).trans hu⟩
  · obtain ⟨u, hu, rfl⟩ := List.mem_map.mp hid
    exact ⟨u, lookup_insertTables_of_mem h.nodup hu _⟩

/-- A tiered strategy finds the tiers of the task by their labels and tables. -/
theorem Planned.merges_tiers {t : TieredCompactionTask} (hplan : Planned e (.tiered t) s₀ flushed)
    (hlaid : e.Laid options) (htiers : e.HasNoEmptyTier) (hmerged : Merged contents e (.tiered t) output)
    (h : Installs e e' (.tiered t) output s removed) :
    removed = (CompactionTask.tiered t).inputIds ∧ e.state.l0Sstables = [] ∧ s.l0Sstables = [] ∧
    ∃ o os newer older, output.map SsTable.id = o :: os ∧ t.tiers ≠ [] ∧
      e.state.levels = newer ++ (t.tiers ++ older) ∧
      s.levels = newer ++ (o, output.map SsTable.id) :: older := by
  obtain ⟨o, -, ho, -⟩ := hplan.tiered
  refine hplan.apply_tiered hlaid (htiers (by rw [ho]; rfl)) (fun hnil => ?_) h.apply
  have hinputs : (CompactionTask.tiered t).inputIds = [] := by
    rw [show (CompactionTask.tiered t).inputIds = (t.tiers.map Prod.snd).flatten from rfl, hnil]
    rfl
  rw [hmerged.nil hinputs]
  rfl

/-- **Installing the output of a planned task keeps the engine steady**, whatever was flushed since the
task was planned. -/
theorem Planned.steady (hplan : Planned e task s₀ flushed) (hs : e.Steady contents)
    (hlaid : e.Laid options) (htiers : e.HasNoEmptyTier) (hmerged : Merged contents e task output)
    (h : Installs e e' task output s removed) :
    removed = task.inputIds ∧ Exchanged contents e e' task output ∧ e'.Laid options ∧
      e'.Steady contents ∧ e'.HasNoEmptyTier := by
  have htaken := hplan.taken hlaid
  have hcontroller : e'.compactionController = e.compactionController := by
    unfold compactionController
    rw [h.options]
  have hlevels : e'.state.levels = s.levels := by rw [h.state]
  unfold HasNoEmptyTier at htiers ⊢
  rw [hcontroller]
  cases task with
  | forceFullCompaction l0 l1 => exact (ofKind_of_generated hplan.generated).elim
  | simple t =>
    obtain ⟨o, ho, -, -, hpicks⟩ := hplan.simple hlaid
    obtain ⟨hremoved, hmoved, houtput⟩ := hplan.apply_simple hlaid h.apply
    have hlisted := hmoved.listed hpicks
    have hex := h.exchanged hmerged htaken hremoved hlisted
    have hlaid' := h.laid hlaid hlisted (fun _ => hmoved.installed.labels) (by rw [ho]; rintro ⟨⟩)
    refine ⟨hremoved, hex, hlaid', hex.steady hs hlaid' ?_, by rw [ho]; rintro ⟨⟩⟩
    rw [hlevels]
    refine sorted_of_thinned hs.state hmoved.thinned fun level hlevel hlabel => ?_
    rw [houtput level hlevel hlabel]
    exact hex.sorted_output hs.state
  | leveled t =>
    obtain ⟨o, ho, -, -, hpicks, hoverlap⟩ := hplan.leveled hlaid
    obtain ⟨hremoved, hmoved, hfirst⟩ := hplan.moves_leveled hs hlaid h
    have hlisted := hmoved.listed hpicks
    have hex := h.exchanged hmerged htaken hremoved hlisted
    have hlaid' := h.laid hlaid hlisted (fun _ => hmoved.installed.labels) (by rw [ho]; rintro ⟨⟩)
    refine ⟨hremoved, hex, hlaid', hex.steady hs hlaid' ?_, by rw [ho]; rintro ⟨⟩⟩
    rw [hlevels]
    refine sorted_of_thinned hs.state hmoved.thinned fun level' hlevel' hlabel => ?_
    -- The lower level before and after.
    obtain ⟨_, _, level, hone, hget, -, -, -⟩ :=
      LeveledCompactionController.findOverlappingSsts_spec hoverlap
    obtain ⟨old, hold, hlabel', hperm⟩ := exists_of_mem_right hmoved.installed hlevel'
    obtain ⟨heq, above, below, hsplit⟩ := hpicks.labels.split hone hget
    have hsame : old = level := by
      have hlabels := hpicks.labels
      rw [hsplit] at hlabels hold
      exact hlabels.eq_of_label hold (hlabel'.symm.trans (hlabel.trans heq.symm))
    subst hsame
    rw [if_pos heq] at hperm
    exact hex.sorted_arranged hs h.nodup h.notListed hoverlap hget hperm (hfirst level' hlevel' hlabel)
  | tiered t =>
    obtain ⟨o, -, ho, -⟩ := hplan.tiered
    have hne := htiers (by rw [ho]; rfl)
    obtain ⟨hremoved, hl0, hl0', o', os, newer, older, houtput, htask, hold, hnew⟩ :=
      hplan.merges_tiers hlaid htiers hmerged h
    have hlisted : s.listedIds.Perm (e.state.listedIds.filter
        (· ∉ (CompactionTask.tiered t).inputIds) ++ output.map SsTable.id) := by
      have hdis := hlaid.listed_nodup
      unfold LsmStorageState.listedIds at hdis ⊢
      rw [hl0, hold] at hdis
      rw [hl0, hl0', hnew, hold]
      simp only [List.nil_append, List.map_cons, List.map_append, List.flatten_cons,
        List.flatten_append, List.filter_append] at hdis ⊢
      rw [List.nodup_append, List.nodup_append] at hdis
      obtain ⟨-, ⟨-, -, holder⟩, hnewer⟩ := hdis
      rw [show (CompactionTask.tiered t).inputIds = (t.tiers.map Prod.snd).flatten from rfl,
        filter_notMem_self, List.nil_append, List.filter_eq_self.mpr, List.filter_eq_self.mpr,
        List.append_assoc]
      · exact List.perm_append_comm.append_left _
      · intro id hid
        rw [decide_eq_true_iff]
        exact fun hin => holder id hin id hid rfl
      · intro id hid
        rw [decide_eq_true_iff]
        exact fun hin => hnewer id hid id (List.mem_append_left _ hin) rfl
    have hex := h.exchanged hmerged htaken hremoved hlisted
    have hlaid' := h.laid hlaid hlisted (by rw [ho]; rintro ⟨⟩) fun _ => hl0'
    have hkept : ∀ tier ∈ e'.state.levels, tier = (o', output.map SsTable.id) ∨ tier ∈ e.state.levels := by
      rw [hlevels, hnew, hold]
      intro tier htier
      simp only [List.mem_append, List.mem_cons] at htier ⊢
      tauto
    refine ⟨hremoved, hex, hlaid', hex.steady hs hlaid' fun tier htier => ?_, fun _ tier htier => ?_⟩
    · rcases hkept tier htier with rfl | hmem
      · exact hex.sorted_output hs.state
      · exact hs.state.levels tier hmem
    · rcases hkept tier htier with rfl | hmem
      · rw [houtput]
        exact List.cons_ne_nil _ _
      · exact hne tier hmem

/-- A background compaction in one call is an install. -/
theorem Compacted.installs (h : Compacted e e' task output s removed) (hlaid : e.Laid options) :
    Installs e e' task output s removed := by
  obtain ⟨d, hcompact, -⟩ := h.compact
  obtain ⟨hnodup, hnew, hnext⟩ := output_ids hcompact
  refine ⟨hnodup, fun id hid => ⟨fun hin => ?_, (hnew id hid).2⟩, h.apply, h.state, hnext,
    h.latestCommitTs, h.options⟩
  exact absurd (hnew id hid).1 (not_le.mpr (hlaid.ids id hin))

/-- The output of a background compaction is what the merge of its inputs gives. -/
theorem Compacted.merged (h : Compacted e e' task output s removed) (hs : e.Steady contents)
    (hlaid : e.Laid options) :
    ∃ contents', e.Steady contents' ∧ Merged contents' e task output := by
  obtain ⟨htaken, hinputs⟩ := (planned_self h.generated).taken hlaid
  obtain ⟨d, hcompact, -⟩ := h.compact
  obtain ⟨l, hl, hwrote⟩ := compact_streams hcompact
  obtain ⟨hids, -⟩ := hwrote.ids
  exact ⟨_, hs.congr (Replaced.withChunks_eq hs _),
    merged_of_streams hs htaken hinputs hl rfl hwrote.built hids⟩

/-- A background compaction removes exactly its inputs. -/
theorem Compacted.removed_eq (h : Compacted e e' task output s removed) (hs : e.Steady contents)
    (hlaid : e.Laid options) (htiers : e.HasNoEmptyTier) : removed = task.inputIds := by
  obtain ⟨contents', hs', hmerged⟩ := h.merged hs hlaid
  exact ((planned_self h.generated).steady hs' hlaid htiers hmerged (h.installs hlaid)).1

/-- **A background compaction keeps the engine steady.** -/
theorem Compacted.steady (h : Compacted e e' task output s removed) (hs : e.Steady contents)
    (hlaid : e.Laid options) (htiers : e.HasNoEmptyTier) :
    ∃ cs, Replaced e e' task output cs ∧ e'.Steady (withChunks contents e.nextSstId cs) ∧
      e'.HasNoEmptyTier := by
  have hplan := planned_self h.generated
  have hinstalls := h.installs hlaid
  obtain ⟨htaken, hinputs⟩ := hplan.taken hlaid
  obtain ⟨contents', hs', hmerged⟩ := h.merged hs hlaid
  obtain ⟨hremoved, hex, -⟩ := hplan.steady hs' hlaid htiers hmerged hinstalls
  have hlisted := hex.listed
  rw [h.state] at hlisted
  obtain ⟨cs, hrep⟩ := h.replaced hlaid htaken hinputs hremoved hlisted
  -- The same again, for the contents that the chunks have.
  obtain ⟨-, -, -, hsteady, htiers'⟩ := hplan.steady (hs.congr (Replaced.withChunks_eq hs cs)) hlaid
    htiers (hrep.exchanged hs).merged hinstalls
  exact ⟨cs, hrep, hsteady, htiers'⟩

end

/-- **A full compaction keeps the engine steady.** -/
theorem FullyCompacted.steadied {level₁ : ℕ × List ℕ} {newSsts : List SsTable}
    (h : FullyCompacted e e' level₁ newSsts) (hs : e.Steady contents) (hlaid : e.Laid options)
    (htiers : e.HasNoEmptyTier) :
    ∃ cs, Replaced e e' (.forceFullCompaction e.state.l0Sstables level₁.2) newSsts cs ∧
      e'.Steady (withChunks contents e.nextSstId cs) ∧ e'.HasNoEmptyTier := by
  obtain ⟨cs, hrep⟩ := h.replaced hlaid
  refine ⟨cs, hrep, h.steady hs hlaid hrep, ?_⟩
  have hcontroller : e'.compactionController = e.compactionController := by
    unfold compactionController
    rw [h.options]
  unfold HasNoEmptyTier at htiers ⊢
  rw [hcontroller]
  intro hflush tier htier
  obtain ⟨below, hlevels, hlevels'⟩ := h.levels_eq
  have hold := htiers hflush
  rw [hlevels, List.forall_mem_cons] at hold
  rw [hlevels'] at htier
  rcases List.mem_cons.mp htier with rfl | htier
  · -- The first tier has a table, and the tables that were opened have entries.
    obtain ⟨id, hid⟩ := List.exists_mem_of_ne_nil _ hold.1
    have hinput : id ∈ (CompactionTask.forceFullCompaction e.state.l0Sstables level₁.2).inputIds :=
      List.mem_append_right _ hid
    obtain ⟨t, -, ht⟩ := hrep.inputs_hold hs.state id hinput
    obtain ⟨x, hx⟩ := List.exists_mem_of_ne_nil _ ht.ne_nil
    have hunion := (mem_union hrep.taken hrep.inputs hs.state).mpr ⟨id, hinput, hx⟩
    have hcs : cs ≠ [] := by
      rw [hrep.chunks_eq hs.state, Ne, chunks_eq_nil_iff]
      exact fun hnil => List.ne_nil_of_mem hunion hnil.2
    have hlen : newSsts.length = cs.length := by simpa using congrArg List.length hrep.ids
    simpa [← List.length_pos_iff, hlen] using hcs
  · exact hold.2 tier htier

/-! ## The run -/

/-- The invariant of every run: the engine is steady for some contents. -/
structure Settled (options : LsmStorageOptions) (contents : ℕ → List Entry) (e : LsmStorageInner) :
    Prop where
  laid : e.Laid options
  steady : e.Steady contents
  tiers : e.HasNoEmptyTier

theorem Fresh.settled (hblock : options.blockSize ≤ 65535) (hfresh : Fresh options e) :
    e.Settled options fun _ => [] := by
  refine ⟨hfresh.laid, (hfresh.represents hblock).sound.steady, fun hflush tier htier => ?_⟩
  obtain ⟨m, hnew⟩ := hfresh.isNew
  have hcontroller : e.compactionController = options.compactionOptions := hfresh.laid.controller
  rw [hcontroller] at hflush
  rw [hnew.state] at htier
  revert hflush htier
  unfold LsmStorageState.create initialLevels
  cases options.compactionOptions with
  | tiered o => exact fun _ htier => absurd htier List.not_mem_nil
  | leveled o => rintro ⟨⟩
  | simple o => rintro ⟨⟩
  | noCompaction => rintro ⟨⟩

theorem Settled.writeBatch {batch : List WriteBatchRecord} (h : e.Settled options contents)
    (hfits : (Op.writeBatch batch).Fits) (hstep : Step e (.writeBatch batch) e') :
    e'.Settled options contents := by
  refine ⟨h.laid.step hstep, (h.steady.writeBatch hfits hstep).1, ?_⟩
  obtain ⟨ts, d, e₁, -, -, hfreeze, rfl⟩ := writeBatch_ok hstep
  rcases tryFreeze_ok hfreeze with rfl | ⟨-, m, hfroze⟩
  · exact h.tiers
  · unfold HasNoEmptyTier compactionController
    rw [hfroze.options, hfroze.state]
    exact h.tiers

theorem Settled.freeze {m : MemTable} (h : e.Settled options contents) (hfroze : Froze e e' m) :
    e'.Settled options contents := by
  refine ⟨h.laid.freeze hfroze, h.steady.freeze hfroze, ?_⟩
  unfold HasNoEmptyTier compactionController
  rw [hfroze.options, hfroze.state]
  exact h.tiers

theorem Settled.flush {m : MemTable} {builder : SsTableBuilder} (h : e.Settled options contents)
    (hflushed : Flushed e e' m builder) : e'.Settled options (withTable contents m) := by
  refine ⟨h.laid.flush hflushed, h.steady.flush hflushed, fun hflush => ?_⟩
  have hflush' : e.compactionController.flushToL0 = false := by
    unfold compactionController at hflush ⊢
    rwa [hflushed.options] at hflush
  rw [hflushed.levels, hflush', if_neg Bool.false_ne_true]
  exact List.forall_mem_cons.mpr ⟨List.cons_ne_nil _ _, h.tiers hflush'⟩

/-- **One call.** -/
theorem Settled.step {op : Op} (h : e.Settled options contents) (hfits : op.Fits)
    (hstep : Step e op e') : ∃ contents', e'.Settled options contents' := by
  have hlaid := h.laid.step hstep
  cases op with
  | writeBatch batch => exact ⟨contents, h.writeBatch hfits hstep⟩
  | freeze =>
    obtain ⟨m, hfroze⟩ := forceFreezeMemtable_ok hstep
    exact ⟨contents, h.freeze hfroze⟩
  | flush =>
    rcases forceFlushNextImmMemtable_ok hstep with ⟨-, rfl⟩ | ⟨m, builder, hflushed⟩
    · exact ⟨contents, h⟩
    · exact ⟨_, h.flush hflushed⟩
  | compact =>
    rcases triggerCompaction_ok hstep with ⟨-, rfl⟩ | ⟨task, output, s, removed, hcompacted⟩
    · exact ⟨contents, h⟩
    · obtain ⟨cs, -, hsteady, htiers⟩ := hcompacted.steady h.steady h.laid h.tiers
      exact ⟨_, hlaid, hsteady, htiers⟩
  | fullCompact =>
    obtain ⟨level₁, newSsts, hcompacted⟩ := forceFullCompaction_ok hstep
    obtain ⟨cs, -, hsteady, htiers⟩ := hcompacted.steadied h.steady h.laid h.tiers
    exact ⟨_, hlaid, hsteady, htiers⟩

/-- **Every run has contents.** -/
theorem RunOf.settled {C : LsmStorageInner → Op → Prop} {e₀ : LsmStorageInner} {ops : List Op}
    (hblock : options.blockSize ≤ 65535) (hfresh : Fresh options e₀) (hC : ∀ e op, C e op → op.Fits)
    (hrun : RunOf C e₀ ops e) : ∃ contents, e.Settled options contents := by
  refine hrun.invariant (fun e => ∃ contents, e.Settled options contents) ?_ ⟨_, hfresh.settled hblock⟩
  rintro e op e' ⟨contents, h⟩ ⟨hop, hstep⟩
  exact h.step (hC e op hop) hstep

end LsmStorageInner

end TinyLsm

import TinyLsm.Compact.Leveled
import TinyLsm.Iterators.ConcatIterator

/-!
# Leveled compaction keeps the levels sorted

A level is read by one `SstConcatIterator`, which asserts that its tables are sorted and disjoint:
`SortedLevel`.  A compaction takes the tables of the lower level that overlap its other inputs.  What
it leaves there misses the hull of all inputs (`Ascending.apart_of_outside`), so it does not touch the
output, and the sort by first key puts the two together: `applyCompactionResult_sorted`.
-/

namespace TinyLsm

variable {M : Type} {s s' : LsmStorageState M} {ids ids' : List ℕ} {id₁ id₂ : ℕ}

/-! ## Sorted levels -/

/-- The tables of a level pass `check_sst_valid`. -/
def LsmStorageState.SortedLevel (s : LsmStorageState M) (ids : List ℕ) : Prop :=
  ∃ tables, ids.mapM s.table = .ok tables ∧ SstsValid tables

instance (s : LsmStorageState M) (ids : List ℕ) : Decidable (s.SortedLevel ids) :=
  match h : ids.mapM s.table with
  | .ok tables => decidable_of_iff (SstsValid tables) (by simp [LsmStorageState.SortedLevel, h])
  | .error e => isFalse (by simp [LsmStorageState.SortedLevel, h])

/-- The two ids are those of tables that `R` relates. -/
def LsmStorageState.TablesAre (s : LsmStorageState M) (R : SsTable → SsTable → Prop) (id₁ id₂ : ℕ) :
    Prop :=
  ∃ t₁ t₂, s.sstables.lookup id₁ = some t₁ ∧ s.sstables.lookup id₂ = some t₂ ∧ R t₁ t₂

/-- The id is that of a table whose first key is not after its last key. -/
def LsmStorageState.ProperTable (s : LsmStorageState M) (id : ℕ) : Prop :=
  ∃ t, s.sstables.lookup id = some t ∧ t.firstKey ≤ t.lastKey

namespace LsmStorageState

theorem TablesAre.congr {R : SsTable → SsTable → Prop}
    (h₁ : s'.sstables.lookup id₁ = s.sstables.lookup id₁)
    (h₂ : s'.sstables.lookup id₂ = s.sstables.lookup id₂) (h : s.TablesAre R id₁ id₂) :
    s'.TablesAre R id₁ id₂ := by
  obtain ⟨t₁, t₂, ht₁, ht₂, hR⟩ := h
  exact ⟨t₁, t₂, h₁.trans ht₁, h₂.trans ht₂, hR⟩

/-- What is known of the tables of two ids is known of the same two tables. -/
theorem TablesAre.and {R R' : SsTable → SsTable → Prop} (h : s.TablesAre R id₁ id₂)
    (h' : s.TablesAre R' id₁ id₂) : s.TablesAre (fun t₁ t₂ => R t₁ t₂ ∧ R' t₁ t₂) id₁ id₂ := by
  obtain ⟨t₁, t₂, ht₁, ht₂, hR⟩ := h
  obtain ⟨u₁, u₂, hu₁, hu₂, hR'⟩ := h'
  obtain rfl : t₁ = u₁ := Option.some.inj (ht₁.symm.trans hu₁)
  obtain rfl : t₂ = u₂ := Option.some.inj (ht₂.symm.trans hu₂)
  exact ⟨t₁, t₂, ht₁, ht₂, hR, hR'⟩

theorem TablesAre.mono {R R' : SsTable → SsTable → Prop} (hR : ∀ t₁ t₂, R t₁ t₂ → R' t₁ t₂)
    (h : s.TablesAre R id₁ id₂) : s.TablesAre R' id₁ id₂ := by
  obtain ⟨t₁, t₂, ht₁, ht₂, h⟩ := h
  exact ⟨t₁, t₂, ht₁, ht₂, hR t₁ t₂ h⟩

theorem sortedLevel_iff : s.SortedLevel ids ↔ (∀ id ∈ ids, s.ProperTable id) ∧
    ids.Pairwise (s.TablesAre fun t₁ t₂ => t₁.lastKey < t₂.firstKey) := by
  constructor
  · rintro ⟨tables, htables, hvalid⟩
    rw [mapM_eq_ok_iff] at htables
    refine ⟨fun id hid => ?_, ?_⟩
    · obtain ⟨t, ht, hlookup⟩ := exists_of_mem_left htables hid
      exact ⟨t, table_eq_ok_iff.mp hlookup, hvalid.1 t ht⟩
    · have hpair := hvalid.pairwise
      clear hvalid
      induction htables with
      | nil => exact .nil
      | @cons id t ids tables ht htables ih =>
        rw [List.pairwise_cons] at hpair
        refine List.pairwise_cons.mpr ⟨fun id' hid' => ?_, ih hpair.2⟩
        obtain ⟨u, hu, hlookup⟩ := exists_of_mem_left htables hid'
        exact ⟨t, u, table_eq_ok_iff.mp ht, table_eq_ok_iff.mp hlookup, hpair.1 u hu⟩
  · rintro ⟨hproper, hpair⟩
    obtain ⟨tables, htables⟩ := exists_mapM_table fun id hid => (hproper id hid).imp fun _ h => h.1
    refine ⟨tables, htables, ?_⟩
    rw [mapM_eq_ok_iff] at htables
    induction htables with
    | nil => exact ⟨by simp, .nil⟩
    | @cons id t ids tables ht htables ih =>
      rw [table_eq_ok_iff] at ht
      rw [List.pairwise_cons] at hpair
      obtain ⟨⟨t', ht', hid⟩, hrest⟩ := List.forall_mem_cons.mp hproper
      obtain rfl : t' = t := Option.some.inj (ht'.symm.trans ht)
      have hvalid := ih hrest hpair.2
      refine .of_pairwise (List.forall_mem_cons.mpr ⟨hid, hvalid.1⟩)
        (List.pairwise_cons.mpr ⟨fun u hu => ?_, hvalid.pairwise⟩)
      obtain ⟨id', hid', hlookup⟩ := exists_of_mem_right htables hu
      obtain ⟨t₁, t₂, h₁, h₂, hlt⟩ := hpair.1 id' hid'
      rw [ht] at h₁
      rw [table_eq_ok_iff.mp hlookup] at h₂
      cases h₁
      cases h₂
      exact hlt

namespace SortedLevel

theorem sublist (h : s.SortedLevel ids) (hs : ids'.Sublist ids) : s.SortedLevel ids' := by
  rw [sortedLevel_iff] at h ⊢
  exact ⟨fun id hid => h.1 id (hs.subset hid), h.2.sublist hs⟩

theorem congr (h : s.SortedLevel ids)
    (heq : ∀ id ∈ ids, s'.sstables.lookup id = s.sstables.lookup id) : s'.SortedLevel ids := by
  rw [sortedLevel_iff] at h ⊢
  refine ⟨fun id hid => ?_, h.2.imp_of_mem fun {_ _} h₁ h₂ hlt => hlt.congr (heq _ h₁) (heq _ h₂)⟩
  obtain ⟨t, ht, hle⟩ := h.1 id hid
  exact ⟨t, (heq id hid).trans ht, hle⟩

/-- No table is twice in a sorted level. -/
theorem nodup (h : s.SortedLevel ids) : ids.Nodup := by
  rw [sortedLevel_iff] at h
  refine h.2.imp_of_mem fun {id₁ id₂} hid _ hlt heq => ?_
  subst heq
  obtain ⟨t, u, ht, hu, hlt⟩ := hlt
  obtain ⟨t', ht', hle⟩ := h.1 id₁ hid
  rw [ht] at hu ht'
  cases hu
  cases ht'
  exact absurd hle (not_le_of_gt hlt)

/-- **Disjoint tables in the order of their first keys are sorted.** -/
theorem of_perm {apart : List ℕ} (hperm : ids.Perm apart) (hproper : ∀ id ∈ apart, s.ProperTable id)
    (hapart : apart.Pairwise (s.TablesAre (Intervals.Apart SsTable.firstKey SsTable.lastKey)))
    (hle : ids.Pairwise (LeveledCompactionController.FirstKeyLe s)) : s.SortedLevel ids := by
  have hproper' : ∀ id ∈ ids, s.ProperTable id := fun id hid => hproper id (hperm.subset hid)
  have hapart' := hapart.perm hperm.symm fun {id₁ id₂} h => by
    obtain ⟨t₁, t₂, ht₁, ht₂, hapart⟩ := h
    exact ⟨t₂, t₁, ht₂, ht₁, hapart.symm⟩
  refine sortedLevel_iff.mpr ⟨hproper', ?_⟩
  refine (hapart'.and hle).imp_of_mem fun {id₁ id₂} _ hid₂ h => ?_
  obtain ⟨t₁, t₂, ht₁, ht₂, hapart, hfirst⟩ := TablesAre.and h.1 h.2
  obtain ⟨t, ht, hle⟩ := hproper' id₂ hid₂
  obtain rfl : t₂ = t := Option.some.inj (ht₂.symm.trans ht)
  exact ⟨t₁, t₂, ht₁, ht₂, hapart.lt_of_le hfirst hle⟩

end SortedLevel

end LsmStorageState

/-! ## What a compaction leaves in the lower level -/

namespace LeveledCompactionController

open LsmStorageState

/-- The tables of the ids lie between the first and the last key of all inputs. -/
def WithinInputs (s s' : LsmStorageState M) (inputs output : List ℕ) : Prop :=
  ∀ id ∈ output, ∃ t, s'.sstables.lookup id = some t ∧
    (∃ i ∈ inputs, ∃ u, s.sstables.lookup i = some u ∧ u.firstKey ≤ t.firstKey) ∧
    ∃ i ∈ inputs, ∃ u, s.sstables.lookup i = some u ∧ t.lastKey ≤ u.lastKey

instance (s s' : LsmStorageState M) (inputs output : List ℕ) :
    Decidable (WithinInputs s s' inputs output) :=
  decidable_of_iff (∀ id ∈ output, ∃ t ∈ s'.sstables.lookup id,
    (∃ i ∈ inputs, ∃ u ∈ s.sstables.lookup i, u.firstKey ≤ t.firstKey) ∧
      ∃ i ∈ inputs, ∃ u ∈ s.sstables.lookup i, t.lastKey ≤ u.lastKey) (by simp [WithinInputs])

/-- `s'` is `s` with more L0 tables. -/
structure AddsL0 (s s' : LsmStorageState M) : Prop where
  levels : s'.levels = s.levels
  l0Sstables : ∃ added, s'.l0Sstables = added ++ s.l0Sstables
  tables : ∀ id ∈ s.listedIds, s'.sstables.lookup id = s.sstables.lookup id

/-- A table of the lower level that is no input does not overlap the output.  `tables` are ascending
tables of the level, the lower inputs among them. -/
theorem apart_output {upperIds lowerIds output : List ℕ} {lowerLevel : ℕ} {level : ℕ × List ℕ}
    {tables : List SsTable} {t : SsTable} (hlevel : s.levels[lowerLevel - 1]? = some level)
    (hvalid : SstsValid tables)
    (hlower : ∀ id ∈ lowerIds, ∀ u, s.sstables.lookup id = some u → u ∈ tables)
    (hoverlap : findOverlappingSsts s upperIds lowerLevel = .ok lowerIds)
    (hwithin : WithinInputs s s' (upperIds ++ lowerIds) output)
    (hid₁ : id₁ ∈ level.2) (hnot : id₁ ∉ lowerIds) (ht : s.sstables.lookup id₁ = some t)
    (hmem : t ∈ tables) (heq : s'.sstables.lookup id₁ = s.sstables.lookup id₁) (hid₂ : id₂ ∈ output) :
    s'.TablesAre (Intervals.Apart SsTable.firstKey SsTable.lastKey) id₁ id₂ := by
  obtain ⟨beginKey, endKey, level', -, hlevel', hupper, hsub, hmeets⟩ :=
    findOverlappingSsts_spec hoverlap
  obtain rfl : level = level' := Option.some.inj (hlevel.symm.trans hlevel')
  obtain ⟨t', ht', hout⟩ := hmeets id₁ hid₁
  obtain rfl : t = t' := Option.some.inj (ht.symm.trans ht')
  obtain ⟨u, hu, hfirst, hlast⟩ := hwithin id₂ hid₂
  refine ⟨t, u, heq.trans ht, hu, ?_⟩
  -- The inputs: the upper ones are in the window, the lower ones meet it.
  have hinput : ∀ {i v}, i ∈ upperIds ++ lowerIds → s.sstables.lookup i = some v →
      beginKey ≤ v.firstKey ∧ v.lastKey ≤ endKey ∨
        v ∈ tables ∧ ¬ (v.lastKey < beginKey ∨ endKey < v.firstKey) := by
    intro i v hi hv
    rcases List.mem_append.mp hi with hi | hi
    · obtain ⟨w, hw, hle⟩ := hupper i hi
      obtain rfl : w = v := Option.some.inj (hw.symm.trans hv)
      exact Or.inl hle
    · obtain ⟨w, hw, hiff⟩ := hmeets i (hsub.subset hi)
      obtain rfl : w = v := Option.some.inj (hw.symm.trans hv)
      exact Or.inr ⟨hlower i hi w hw, fun hmiss => hiff.mpr hmiss hi⟩
  obtain ⟨i, hi, v, hv, hle⟩ := hfirst
  obtain ⟨j, hj, w, hw, hle'⟩ := hlast
  have hinputs : ∀ x ∈ [v, w], beginKey ≤ x.firstKey ∧ x.lastKey ≤ endKey ∨
      x ∈ tables ∧ ¬ (x.lastKey < beginKey ∨ endKey < x.firstKey) := by
    rintro x hx
    rcases List.mem_pair.mp hx with rfl | rfl
    · exact hinput hi hv
    · exact hinput hj hw
  exact Intervals.Ascending.apart_of_outside hvalid hinputs hmem (hout.mp hnot)
    ⟨⟨v, by simp, hle⟩, w, by simp, hle'⟩

/-- The upper tables leave a level that stays sorted, and the lower level is not touched. -/
theorem takeUpper_sorted [Platform] {options : LeveledCompactionOptions}
    {task : LeveledCompactionTask} {level : ℕ × List ℕ}
    (hsorted : ∀ level ∈ s'.levels, s'.SortedLevel level.2) (hadds : AddsL0 s s')
    (htask : generateCompactionTask options s = .ok (some task))
    (hlevel : s'.levels[task.lowerLevel - 1]? = some level) :
    ∃ s₁, takeUpper s' task = .ok s₁ ∧ s₁.sstables = s'.sstables ∧
      (∀ level ∈ s₁.levels, s'.SortedLevel level.2) ∧
      s₁.levels[task.lowerLevel - 1]? = some level := by
  obtain ⟨-, -, hinputs⟩ := generateCompactionTask_cases htask
  unfold takeUpper
  rcases hinputs with ⟨hnone, hids⟩ | ⟨u, upper, id, hu, hupper, hid, hsome, hids, hlower⟩
  · obtain ⟨added, hl0⟩ := hadds.l0Sstables
    have hmem : ∀ id ∈ task.upperLevelSstIds, id ∈ s'.l0Sstables := by
      intro id hid
      rw [hl0, ← hids]
      exact List.mem_append_right added hid
    rw [hnone]
    simp only [takeOutAll_of_mem hmem]
    exact ⟨_, rfl, rfl, hsorted, hlevel⟩
  · have hmem : ∀ id ∈ task.upperLevelSstIds, id ∈ upper.2 := by
      rw [hids]
      simpa using hid
    have hupper' : index s'.levels (u - 1) = .ok upper := by
      rw [index_eq_ok_iff, hadds.levels]
      exact hupper
    rw [hsome]
    simp only [usizeSub_of_le hu, bind, Except.bind, hupper', takeOutAll_of_mem hmem]
    refine ⟨_, rfl, rfl, fun level' hlevel' => ?_, ?_⟩
    · rcases List.mem_or_eq_of_mem_set hlevel' with hold | rfl
      · exact hsorted level' hold
      · exact (hsorted upper (List.mem_of_getElem? (index_eq_ok_iff.mp hupper'))).sublist
          (takeOut_sublist _ _)
    · rw [List.getElem?_set_ne (by omega)]
      exact hlevel

/-- **The new lower level is sorted**: what is left of it and the output, in the order of the first
keys. -/
theorem arrange_sorted {upperIds lowerIds output : List ℕ} {lowerLevel : ℕ} {level : ℕ × List ℕ}
    (hlevel : s.levels[lowerLevel - 1]? = some level) (hsorted : s.SortedLevel level.2)
    (hoverlap : findOverlappingSsts s upperIds lowerLevel = .ok lowerIds)
    (hlookup : ∀ id ∈ level.2, s'.sstables.lookup id = s.sstables.lookup id)
    (houtput : s'.SortedLevel output) (hwithin : WithinInputs s s' (upperIds ++ lowerIds) output)
    {s₁ : LsmStorageState M} (htables : s₁.sstables = s'.sstables) :
    ∃ ids, arrange s₁ (level.2.filter (· ∉ lowerIds) ++ output) false = .ok ids ∧
      s'.SortedLevel ids := by
  have hkept : s'.SortedLevel (level.2.filter (· ∉ lowerIds)) :=
    (hsorted.congr hlookup).sublist List.filter_sublist
  have hproper : ∀ id ∈ level.2.filter (· ∉ lowerIds) ++ output, s'.ProperTable id := by
    intro id hid
    rcases List.mem_append.mp hid with hid | hid
    · exact (sortedLevel_iff.mp hkept).1 id hid
    · exact (sortedLevel_iff.mp houtput).1 id hid
  obtain ⟨ids, hids, hperm, hfirst⟩ := arrange_spec s₁
    (level.2.filter (· ∉ lowerIds) ++ output) false fun _ id hid => by
      obtain ⟨t, ht, -⟩ := hproper id hid
      exact ⟨t, by rw [htables]; exact ht⟩
  obtain ⟨tables, htable, hvalid⟩ := hsorted
  rw [mapM_eq_ok_iff] at htable
  have hmem : ∀ id ∈ level.2, ∀ t, s.sstables.lookup id = some t → t ∈ tables := by
    intro id hid t ht
    obtain ⟨u, hu, hfound⟩ := exists_of_mem_left htable hid
    rw [table_eq_ok_iff, ht] at hfound
    exact Option.some.inj hfound ▸ hu
  obtain ⟨_, _, level', -, hlevel', -, hsub, -⟩ := findOverlappingSsts_spec hoverlap
  obtain rfl : level = level' := Option.some.inj (hlevel.symm.trans hlevel')
  have hapart : (level.2.filter (· ∉ lowerIds) ++ output).Pairwise
      (s'.TablesAre (Intervals.Apart SsTable.firstKey SsTable.lastKey)) := by
    refine List.pairwise_append.mpr ⟨?_, ?_, fun id₁ hid₁ id₂ hid₂ => ?_⟩
    · exact (sortedLevel_iff.mp hkept).2.imp fun h => h.mono fun _ _ => Or.inl
    · exact (sortedLevel_iff.mp houtput).2.imp fun h => h.mono fun _ _ => Or.inl
    · obtain ⟨hid, hnot⟩ := List.mem_filter.mp hid₁
      obtain ⟨t, -, ht⟩ := exists_of_mem_left htable hid
      rw [table_eq_ok_iff] at ht
      exact apart_output hlevel hvalid (fun id hid => hmem id (hsub.subset hid)) hoverlap hwithin hid
        (by simpa using hnot) ht (hmem id₁ hid t ht) (hlookup id₁ hid) hid₂
  refine ⟨ids, hids, .of_perm hperm hproper hapart ((hfirst rfl).imp fun {id₁ id₂} h => ?_)⟩
  exact TablesAre.congr (by rw [htables]) (by rw [htables]) h

/-- The call returns, and every level it leaves is sorted. -/
theorem applied_levels [Platform] {options : LeveledCompactionOptions}
    {task : LeveledCompactionTask} {output : List ℕ}
    (hsorted : ∀ level ∈ s.levels, s.SortedLevel level.2)
    (htask : generateCompactionTask options s = .ok (some task)) (hadds : AddsL0 s s')
    (houtput : s'.SortedLevel output)
    (hwithin : WithinInputs s s' (task.upperLevelSstIds ++ task.lowerLevelSstIds) output) :
    ∃ u, applyCompactionResult s' task output false =
        .ok (u, task.upperLevelSstIds ++ task.lowerLevelSstIds) ∧
      u.sstables = s'.sstables ∧ ∀ level ∈ u.levels, s'.SortedLevel level.2 := by
  obtain ⟨-, hoverlap, -⟩ := generateCompactionTask_cases htask
  obtain ⟨_, _, level, hone, hlevel, -, hsub, -⟩ := findOverlappingSsts_spec hoverlap
  have hmem : level ∈ s.levels := List.mem_of_getElem? hlevel
  have hlookup : ∀ level ∈ s.levels, ∀ id ∈ level.2,
      s'.sstables.lookup id = s.sstables.lookup id := fun level hl id hid =>
    hadds.tables id (mem_listedIds.mpr (Or.inr ⟨level, hl, hid⟩))
  have hsorted' : ∀ level ∈ s'.levels, s'.SortedLevel level.2 := by
    rw [hadds.levels]
    exact fun level hl => (hsorted level hl).congr (hlookup level hl)
  obtain ⟨s₁, hs₁, htables, hlevels, hlower⟩ :=
    takeUpper_sorted hsorted' hadds htask (by rw [hadds.levels]; exact hlevel)
  have hkept : takeOutAll level.2 task.lowerLevelSstIds =
      .ok (level.2.filter (· ∉ task.lowerLevelSstIds)) :=
    takeOutAll_eq (hsorted level hmem).nodup hsub.subset
  obtain ⟨ids, hids, hnew⟩ := arrange_sorted hlevel (hsorted level hmem) hoverlap
    (hlookup level hmem) houtput hwithin htables
  have happly : applyCompactionResult s' task output false =
      .ok ({ s₁ with levels := s₁.levels.set (task.lowerLevel - 1) (level.1, ids) },
        task.upperLevelSstIds ++ task.lowerLevelSstIds) := by
    simp only [applyCompactionResult, hs₁, usizeSub_of_le hone, bind, Except.bind, pure, Except.pure,
      index_eq_ok_iff.mpr hlower, hkept, hids]
  refine ⟨_, happly, htables, fun level' hlevel' => ?_⟩
  rcases List.mem_or_eq_of_mem_set hlevel' with hold | rfl
  · exact hlevels level' hold
  · exact hnew

/-- **Leveled compaction keeps the levels sorted and disjoint**, whatever came into L0 since the task
was made. -/
theorem applyCompactionResult_sorted [Platform] {options : LeveledCompactionOptions}
    {task : LeveledCompactionTask} {output : List ℕ}
    (hsorted : ∀ level ∈ s.levels, s.SortedLevel level.2)
    (htask : generateCompactionTask options s = .ok (some task)) (hadds : AddsL0 s s')
    (houtput : s'.SortedLevel output)
    (hwithin : WithinInputs s s' (task.upperLevelSstIds ++ task.lowerLevelSstIds) output) :
    ∃ u removed, applyCompactionResult s' task output false = .ok (u, removed) ∧
      ∀ level ∈ u.levels, u.SortedLevel level.2 := by
  obtain ⟨u, happly, htables, hlevels⟩ := applied_levels hsorted htask hadds houtput hwithin
  exact ⟨u, _, happly, fun level hlevel => (hlevels level hlevel).congr fun id _ => by rw [htables]⟩

end LeveledCompactionController

section

attribute [local instance] shortKeyPlatform

namespace LeveledCompactionController

/-- A table that ranges over the keys from `firstKey` to `lastKey`. -/
def spanTable (id : ℕ) (firstKey lastKey : Bytes) : SsTable :=
  { file := []
    blockMeta := []
    blockMetaOffset := 0
    id
    firstKey := ⟨firstKey, 0⟩
    lastKey := ⟨lastKey, 0⟩
    bloom := none
    maxTs := 0 }

/-- Two tables in L1 and one in L0 that overlaps the first of them. -/
def beforeFlush : LsmStorageState ℕ :=
  { memtable := 9
    immMemtables := [5]
    l0Sstables := [3]
    levels := [(1, [1, 2])]
    sstables := (((∅ : SstMap).insert 1 (spanTable 1 [10] [20])).insert 2
      (spanTable 2 [50] [60])).insert 3 (spanTable 3 [20] [30]) }

/-- The memtable has been flushed, and the table `4` is the result of a compaction. -/
def afterFlush : LsmStorageState ℕ :=
  { memtable := 9
    immMemtables := []
    l0Sstables := [5, 3]
    levels := [(1, [1, 2])]
    sstables := (beforeFlush.sstables.insert 5 (spanTable 5 [0] [99])).insert 4
      (spanTable 4 [10] [30]) }

theorem applyCompactionResult_sorted_small :
    ∃ u removed, applyCompactionResult afterFlush ⟨none, [3], 1, [1], true⟩ [4] false =
        .ok (u, removed) ∧ ∀ level ∈ u.levels, u.SortedLevel level.2 := by
  have hsorted : ∀ level ∈ beforeFlush.levels, beforeFlush.SortedLevel level.2 := by
    rintro level hlevel
    obtain rfl := List.mem_singleton.mp hlevel
    exact ⟨[spanTable 1 [10] [20], spanTable 2 [50] [60]], rfl, by decide⟩
  have hadds : AddsL0 beforeFlush afterFlush := ⟨rfl, ⟨[5], rfl⟩, by decide⟩
  have hwithin : WithinInputs beforeFlush afterFlush ([3] ++ [1]) [4] := by
    rintro id hid
    obtain rfl := List.mem_singleton.mp hid
    exact ⟨spanTable 4 [10] [30], rfl, ⟨1, by decide, spanTable 1 [10] [20], rfl, by decide⟩,
      ⟨3, by decide, spanTable 3 [20] [30], rfl, by decide⟩⟩
  have htask : generateCompactionTask ⟨2, 0, 1, 128⟩ beforeFlush =
      .ok (some ⟨none, [3], 1, [1], true⟩) := by decide +kernel
  exact applyCompactionResult_sorted hsorted htask hadds ⟨[spanTable 4 [10] [30]], rfl, by decide⟩
    hwithin

end LeveledCompactionController

end

end TinyLsm

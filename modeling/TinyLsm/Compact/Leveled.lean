import TinyLsm.Compact.Levels

/-!
# Leveled compaction (`compact/leveled.rs`)

The controller keeps the levels near target sizes.  A task takes all of L0 or one table of a level
and, from the level below, the tables that overlap it: `generateCompactionTask_spec`.  Applying it
takes the inputs out one by one and sorts the lower level: `applyCompactionResult_spec`.
-/

namespace TinyLsm

namespace LeveledCompactionController

variable {M : Type}

/-- `find_overlapping_ssts`. -/
def findOverlappingSsts (s : LsmStorageState M) (sstIds : List ℕ) (inLevel : ℕ) :
    Outcome (List ℕ) := do
  let tables ← sstIds.mapM s.table
  let beginKey ← Outcome.ofOption (.panic "called `Option::unwrap()` on a `None` value")
    (tables.map SsTable.firstKey).min?
  let endKey ← Outcome.ofOption (.panic "called `Option::unwrap()` on a `None` value")
    (tables.map SsTable.lastKey).max?
  let level ← index s.levels (← usizeSub inLevel 1)
  level.2.filterM fun id => do
    let sst ← s.table id
    return !(decide (sst.lastKey < beginKey) || decide (sst.firstKey > endKey))

/-- The sizes of the levels. -/
def realLevelSize (s : LsmStorageState M) : Outcome (List ℕ) :=
  s.levels.mapM fun level => do return (← level.2.mapM fun id => do return (← s.table id).tableSize).sum

/-- The loop that sets the target sizes of the `n` upper levels, given the targets below and the
base level so far. -/
def targetLoop (options : LeveledCompactionOptions) : ℕ → List ℕ → ℕ → Outcome (List ℕ × ℕ)
  | 0, targets, baseLevel => .ok (targets, baseLevel)
  | n + 1, targets, baseLevel => do
    let nextLevelSize ← index targets 0
    if options.levelSizeMultiplier = 0 then .error (.panic "attempt to divide by zero")
    else
      let target :=
        if nextLevelSize > options.baseLevelSizeMb * 1024 * 1024 then
          nextLevelSize / options.levelSizeMultiplier
        else 0
      targetLoop options n (target :: targets) (if target > 0 then n + 1 else baseLevel)

/-- `target_level_size` and `base_level`. -/
def targetLevelSize (options : LeveledCompactionOptions) (realLevelSize : List ℕ) :
    Outcome (List ℕ × ℕ) := do
  let lastLevel ← usizeSub options.maxLevels 1
  let real ← index realLevelSize lastLevel
  targetLoop options lastLevel [max real (options.baseLevelSizeMb * 1024 * 1024)] options.maxLevels

section

variable [Platform]

/-- The levels above their target size, by priority. -/
def priorities (realLevelSize targetLevelSize : List ℕ) : List (ℚ × ℕ) :=
  let all := (realLevelSize.zip targetLevelSize).zipIdx.filterMap fun p =>
    if p.1.2 = 0 then none
    else
      let priority := Platform.levelPriority p.1.1 p.1.2
      if priority > 1 then some (priority, p.2 + 1) else none
  all.insertionSort fun a b => b.1 < a.1 ∨ b.1 = a.1 ∧ b.2 ≤ a.2

/-- `generate_compaction_task`. -/
def generateCompactionTask (options : LeveledCompactionOptions) (s : LsmStorageState M) :
    Outcome (Option LeveledCompactionTask) := do
  let real ← realLevelSize s
  let (target, baseLevel) ← targetLevelSize options real
  if s.l0Sstables.length > options.level0FileNumCompactionTrigger then
    return some
      { upperLevel := none
        upperLevelSstIds := s.l0Sstables
        lowerLevel := baseLevel
        lowerLevelSstIds := ← findOverlappingSsts s s.l0Sstables baseLevel
        isLowerLevelBottomLevel := baseLevel == options.maxLevels }
  else
    match priorities real target with
    | [] => return none
    | (_, level) :: _ =>
      let upper ← index s.levels (level - 1)
      let selectedSst ← Outcome.ofOption (.panic "called `Option::unwrap()` on a `None` value")
        upper.2.min?
      return some
        { upperLevel := some level
          upperLevelSstIds := [selectedSst]
          lowerLevel := level + 1
          lowerLevelSstIds := ← findOverlappingSsts s [selectedSst] (level + 1)
          isLowerLevelBottomLevel := level + 1 == options.maxLevels }

end

/-- `filter_map` with `HashSet::remove`: every id of the set is taken out once. -/
def takeOut : List ℕ → Finset ℕ → List ℕ × Finset ℕ
  | [], set => ([], set)
  | x :: xs, set =>
    if x ∈ set then takeOut xs (set.erase x)
    else
      let (rest, left) := takeOut xs set
      (x :: rest, left)

/-- A level without the ids of the task, all of which have to be there. -/
def takeOutAll (level taskIds : List ℕ) : Outcome (List ℕ) :=
  let (rest, left) := takeOut level taskIds.toFinset
  if left = ∅ then .ok rest else .error (.panic "assertion failed: set.is_empty()")

/-- The sort by first key.  The tables are only looked up when there is something to compare. -/
def sortByFirstKey (s : LsmStorageState M) (ids : List ℕ) : Outcome (List ℕ) :=
  if ids.length < 2 then .ok ids
  else do
    let tables ← ids.mapM s.table
    return ((ids.zip tables).insertionSort fun a b => a.2.firstKey ≤ b.2.firstKey).map Prod.fst

/-- The state without the upper tables of the task. -/
def takeUpper (s : LsmStorageState M) (task : LeveledCompactionTask) :
    Outcome (LsmStorageState M) :=
  match task.upperLevel with
  | some upperLevel => do
    let i ← usizeSub upperLevel 1
    let level ← index s.levels i
    let ids ← takeOutAll level.2 task.upperLevelSstIds
    return { s with levels := s.levels.set i (level.1, ids) }
  | none => do
    let ids ← takeOutAll s.l0Sstables task.upperLevelSstIds
    return { s with l0Sstables := ids }

/-- The new level: the replay of the manifest, which has opened no table, does not sort it. -/
def arrange (s : LsmStorageState M) (ids : List ℕ) (inRecovery : Bool) : Outcome (List ℕ) :=
  if inRecovery then .ok ids else sortByFirstKey s ids

/-- `apply_compaction_result`. -/
def applyCompactionResult (s : LsmStorageState M) (task : LeveledCompactionTask)
    (output : List ℕ) (inRecovery : Bool) : Outcome (LsmStorageState M × List ℕ) := do
  let s ← takeUpper s task
  let i ← usizeSub task.lowerLevel 1
  let level ← index s.levels i
  let kept ← takeOutAll level.2 task.lowerLevelSstIds
  let ids ← arrange s (kept ++ output) inRecovery
  return ({ s with levels := s.levels.set i (level.1, ids) },
    task.upperLevelSstIds ++ task.lowerLevelSstIds)

/-! ## What the tasks are -/

/-- **What overlaps**: the tables of the level that neither end before the inputs begin nor begin
after they end. -/
theorem findOverlappingSsts_spec {s : LsmStorageState M} {sstIds overlapSsts : List ℕ} {inLevel : ℕ}
    (h : findOverlappingSsts s sstIds inLevel = .ok overlapSsts) :
    ∃ beginKey endKey level, 1 ≤ inLevel ∧ s.levels[inLevel - 1]? = some level ∧
      (∀ id ∈ sstIds, ∃ t, s.sstables.lookup id = some t ∧ beginKey ≤ t.firstKey ∧
        t.lastKey ≤ endKey) ∧
      overlapSsts.Sublist level.2 ∧
      ∀ id ∈ level.2, ∃ t, s.sstables.lookup id = some t ∧
        (id ∉ overlapSsts ↔ t.lastKey < beginKey ∨ endKey < t.firstKey) := by
  unfold findOverlappingSsts at h
  simp only [Outcome.bind_eq_ok_iff, Outcome.ofOption_eq_ok_iff, mapM_eq_ok_iff, index_eq_ok_iff]
    at h
  obtain ⟨tables, htables, beginKey, hbegin, endKey, hend, i, hi, level, hlevel, hfilter⟩ := h
  obtain ⟨hle, rfl⟩ := usizeSub_eq_ok_iff.mp hi
  obtain ⟨hok, rfl⟩ := filterM_eq_ok hfilter
  refine ⟨beginKey, endKey, level, hle, hlevel, fun id hid => ?_, List.filter_sublist,
    fun id hid => ?_⟩
  · obtain ⟨t, ht, hlookup⟩ := exists_of_mem_left htables hid
    rw [LsmStorageState.table_eq_ok_iff] at hlookup
    exact ⟨t, hlookup, (List.min?_eq_some_iff.mp hbegin).2 _ (List.mem_map_of_mem ht),
      (List.max?_eq_some_iff.mp hend).2 _ (List.mem_map_of_mem ht)⟩
  · obtain ⟨b, hb⟩ := hok id hid
    obtain ⟨t, ht, hb'⟩ := Outcome.bind_eq_ok_iff.mp hb
    refine ⟨t, LsmStorageState.table_eq_ok_iff.mp ht, ?_⟩
    rw [List.mem_filter, and_iff_right hid, hb, ← Except.ok.inj hb']
    simp [Except.toOption, imp_iff_not_or]

/-- Only the tables of the ids and of the level are looked up. -/
theorem findOverlappingSsts_congr {s s' : LsmStorageState M} {sstIds : List ℕ} {inLevel : ℕ}
    (hlevels : s'.levels = s.levels)
    (htables : ∀ id ∈ s.listedIds, s'.sstables.lookup id = s.sstables.lookup id)
    (hids : ∀ id ∈ sstIds, id ∈ s.listedIds) :
    findOverlappingSsts s' sstIds inLevel = findOverlappingSsts s sstIds inLevel := by
  have htable : ∀ id ∈ s.listedIds, s'.table id = s.table id := by
    intro id hid
    unfold LsmStorageState.table
    rw [htables id hid]
  unfold findOverlappingSsts
  rw [mapM_congr fun id hid => htable id (hids id hid), hlevels]
  refine bind_congr fun tables => bind_congr fun beginKey => bind_congr fun endKey =>
    bind_congr fun i => ?_
  cases hlevel : index s.levels i with
  | error f => rfl
  | ok level =>
    refine filterM_congr fun id hid => ?_
    rw [htable id (LsmStorageState.mem_listedIds.mpr
      (Or.inr ⟨level, List.mem_of_getElem? (index_eq_ok_iff.mp hlevel), hid⟩))]

/-- A level with a priority is the one of some position. -/
theorem one_le_of_mem_priorities [Platform] {real target : List ℕ} {p : ℚ × ℕ}
    (h : p ∈ priorities real target) : 1 ≤ p.2 := by
  unfold priorities at h
  rw [List.mem_insertionSort, List.mem_filterMap] at h
  obtain ⟨q, -, hq⟩ := h
  split at hq
  · cases hq
  · dsimp only at hq
    split at hq
    · cases hq
      exact Nat.le_add_left 1 q.2
    · cases hq

/-- A task takes all of L0, or the oldest table of a level into the level below it. -/
theorem generateCompactionTask_cases [Platform] {options : LeveledCompactionOptions}
    {s : LsmStorageState M} {task : LeveledCompactionTask}
    (h : generateCompactionTask options s = .ok (some task)) :
    task.isLowerLevelBottomLevel = (task.lowerLevel == options.maxLevels) ∧
      findOverlappingSsts s task.upperLevelSstIds task.lowerLevel = .ok task.lowerLevelSstIds ∧
      (task.upperLevel = none ∧ task.upperLevelSstIds = s.l0Sstables ∨
        ∃ u upper id, 1 ≤ u ∧ s.levels[u - 1]? = some upper ∧ id ∈ upper.2 ∧
          task.upperLevel = some u ∧ task.upperLevelSstIds = [id] ∧ task.lowerLevel = u + 1) := by
  unfold generateCompactionTask at h
  rw [Outcome.bind_eq_ok_iff] at h
  obtain ⟨real, hreal, h⟩ := h
  rw [Outcome.bind_eq_ok_iff] at h
  obtain ⟨⟨target, baseLevel⟩, htarget, h⟩ := h
  simp only at h
  split at h
  · -- All of L0 into the base level.
    obtain ⟨lowerIds, hoverlap, htask⟩ := Outcome.bind_eq_ok_iff.mp h
    cases htask
    exact ⟨rfl, hoverlap, Or.inl ⟨rfl, rfl⟩⟩
  · split at h
    · cases h
    · -- One table of a level that is too large.
      rename_i priority u rest hpriorities
      simp only [Outcome.bind_eq_ok_iff, Outcome.ofOption_eq_ok_iff, index_eq_ok_iff] at h
      obtain ⟨upper, hupper, selectedSst, hmin, lowerIds, hoverlap, htask⟩ := h
      cases htask
      have hu : 1 ≤ u := one_le_of_mem_priorities (p := (priority, u))
        (by rw [hpriorities]; exact List.mem_cons_self)
      exact ⟨rfl, hoverlap, Or.inr ⟨u, upper, selectedSst, hu, hupper, List.min?_mem hmin, rfl, rfl,
        rfl⟩⟩

/-- A task of the controller, up to its flag and the choice of the lower tables: all of L0 or one
table of a level, and tables of the level below. -/
def Picked (l0Sstables : List ℕ) (levels : List (ℕ × List ℕ)) (task : LeveledCompactionTask) : Prop :=
  PicksFrom List.Sublist levels task.upperLevel task.upperLevelSstIds task.lowerLevel
      task.lowerLevelSstIds ∧
    (task.upperLevel = none → task.upperLevelSstIds = l0Sstables) ∧
    ∀ u ∈ task.upperLevel, task.lowerLevel = u + 1

/-- **What the tasks are.** -/
theorem generateCompactionTask_spec [Platform] {options : LeveledCompactionOptions}
    {s : LsmStorageState M} {task : LeveledCompactionTask} (hlabels : Labelled s.levels)
    (h : generateCompactionTask options s = .ok (some task)) :
    Picked s.l0Sstables s.levels task ∧
      task.isLowerLevelBottomLevel = (task.lowerLevel == options.maxLevels) ∧
      findOverlappingSsts s task.upperLevelSstIds task.lowerLevel = .ok task.lowerLevelSstIds := by
  obtain ⟨hflag, hoverlap, hinputs⟩ := generateCompactionTask_cases h
  obtain ⟨_, _, level, hone, hget, -, hsub, -⟩ := findOverlappingSsts_spec hoverlap
  obtain ⟨hlabel, above, below, hlevels⟩ := hlabels.split hone hget
  have hsplit : s.levels = above ++ (task.lowerLevel, level.2) :: below := by
    rw [hlevels, ← hlabel]
  refine ⟨?_, hflag, hoverlap⟩
  rcases hinputs with ⟨hnone, hids⟩ | ⟨u, upper, id, hu, hupper, hid, hsome, hids, hlower⟩
  · refine ⟨⟨above, level.2, below, hsplit, hsub, ?_⟩, fun _ => hids, ?_⟩ <;> simp [hnone]
  · refine ⟨⟨above, level.2, below, hsplit, hsub, ?_⟩, by simp [hsome], by simp [hsome, hlower]⟩
    intro u' hu'
    obtain rfl : u = u' := Option.some.inj (hsome.symm.trans hu')
    have hlen := (show Labelled (above ++ level :: below) from hlevels ▸ hlabels).eq_length
    obtain ⟨rfl, -⟩ := hlabels.split hu hupper
    rw [hlevels, List.getElem?_append_left (by omega)] at hupper
    obtain ⟨hlt, hget'⟩ := List.getElem?_eq_some_iff.mp hupper
    refine ⟨above.take (upper.1 - 1), upper.2, ?_, ?_⟩
    · have hlast : above = above.take (upper.1 - 1) ++ above.drop (upper.1 - 1) :=
        (List.take_append_drop _ _).symm
      rwa [List.drop_eq_getElem_cons hlt, hget', List.drop_eq_nil_of_le (by omega)] at hlast
    · rw [hids]
      exact List.singleton_sublist.mpr hid

/-! ## What applying a task changes -/

/-- The order that is left is that of the list. -/
theorem takeOut_sublist (l : List ℕ) (set : Finset ℕ) : (takeOut l set).1.Sublist l := by
  induction l generalizing set with
  | nil => exact List.Sublist.refl _
  | cons x l ih =>
    rw [takeOut]
    split
    · exact (ih _).trans (List.sublist_cons_self x l)
    · exact (ih _).cons_cons x

theorem takeOutAll_sublist {level taskIds ids : List ℕ} (h : takeOutAll level taskIds = .ok ids) :
    ids.Sublist level := by
  unfold takeOutAll at h
  simp only at h
  split at h
  · cases h
    exact takeOut_sublist _ _
  · cases h

/-- What is left of the set does not depend on how often an id is in the list. -/
theorem takeOut_left (l : List ℕ) (set : Finset ℕ) : (takeOut l set).2 = set \ l.toFinset := by
  induction l generalizing set with
  | nil => simp [takeOut]
  | cons x l ih =>
    rw [takeOut]
    split
    · rw [ih]
      ext y
      simp only [Finset.mem_sdiff, Finset.mem_erase, List.toFinset_cons, Finset.mem_insert]
      tauto
    · rename_i hx
      rw [ih]
      ext y
      simp only [Finset.mem_sdiff, List.toFinset_cons, Finset.mem_insert]
      refine and_congr_right fun hy => not_congr (or_iff_right ?_).symm
      rintro rfl
      exact hx hy

/-- Every id that leaves the set leaves the list. -/
theorem length_takeOut (l : List ℕ) (set : Finset ℕ) :
    (takeOut l set).1.length + set.card = l.length + (takeOut l set).2.card := by
  induction l generalizing set with
  | nil => simp [takeOut]
  | cons x l ih =>
    rw [takeOut]
    split
    · rename_i hx
      have hcard := Finset.card_erase_add_one hx
      have hlen := ih (set.erase x)
      rw [List.length_cons]
      omega
    · have hlen := ih set
      show (x :: (takeOut l set).1).length + set.card = (x :: l).length + (takeOut l set).2.card
      rw [List.length_cons, List.length_cons]
      omega

/-- A level gets smaller. -/
theorem length_takeOutAll_lt {level taskIds ids : List ℕ} (hne : taskIds ≠ [])
    (h : takeOutAll level taskIds = .ok ids) : ids.length < level.length := by
  have hlen := length_takeOut level taskIds.toFinset
  have hpos : 0 < taskIds.toFinset.card := by
    rw [Finset.card_pos, List.toFinset_nonempty_iff]
    exact hne
  unfold takeOutAll at h
  simp only at h
  split at h
  · rename_i hleft
    cases h
    rw [hleft, Finset.card_empty] at hlen
    omega
  · cases h

theorem takeOut_rest {l : List ℕ} (h : l.Nodup) (set : Finset ℕ) :
    (takeOut l set).1 = l.filter (· ∉ set) := by
  induction l generalizing set with
  | nil => rfl
  | cons x l ih =>
    rw [List.nodup_cons] at h
    rw [takeOut]
    split
    · rename_i hx
      rw [ih h.2, List.filter_cons_of_neg (by simpa using hx)]
      refine List.filter_congr fun y hy => ?_
      have hyx : y ≠ x := fun heq => h.1 (heq ▸ hy)
      simp [hyx]
    · rename_i hx
      rw [List.filter_cons_of_pos (by simpa using hx), ← ih h.2]

/-- The assertion holds when the ids of the task are there. -/
theorem takeOutAll_of_mem {level taskIds : List ℕ} (hsub : ∀ id ∈ taskIds, id ∈ level) :
    takeOutAll level taskIds = .ok (takeOut level taskIds.toFinset).1 := by
  have hempty : taskIds.toFinset \ level.toFinset = ∅ := by
    rw [Finset.sdiff_eq_empty_iff_subset]
    intro id hid
    exact List.mem_toFinset.mpr (hsub id (List.mem_toFinset.mp hid))
  unfold takeOutAll
  simp only [takeOut_left, hempty, if_pos]

/-- The ids of the task are taken out, when they are there. -/
theorem takeOutAll_eq {level taskIds : List ℕ} (h : level.Nodup) (hsub : ∀ id ∈ taskIds, id ∈ level) :
    takeOutAll level taskIds = .ok (level.filter (· ∉ taskIds)) := by
  rw [takeOutAll_of_mem hsub, takeOut_rest h]
  simp only [List.mem_toFinset]

/-- What is left when the call returns. -/
theorem eq_of_takeOutAll {level taskIds ids : List ℕ} (h : level.Nodup)
    (hok : takeOutAll level taskIds = .ok ids) : ids = level.filter (· ∉ taskIds) := by
  unfold takeOutAll at hok
  simp only at hok
  split at hok
  · cases hok
    rw [takeOut_rest h]
    simp only [List.mem_toFinset]
  · cases hok

/-- `id₁` may stand before `id₂` in a level. -/
def FirstKeyLe (s : LsmStorageState M) (id₁ id₂ : ℕ) : Prop :=
  ∃ t₁ t₂, s.sstables.lookup id₁ = some t₁ ∧ s.sstables.lookup id₂ = some t₂ ∧
    t₁.firstKey ≤ t₂.firstKey

instance (s : LsmStorageState M) (id₁ id₂ : ℕ) : Decidable (FirstKeyLe s id₁ id₂) :=
  decidable_of_iff (∃ t₁ ∈ s.sstables.lookup id₁, ∃ t₂ ∈ s.sstables.lookup id₂,
    t₁.firstKey ≤ t₂.firstKey) (by simp [FirstKeyLe])

/-- The sort puts tables of the map in the order of their first keys. -/
theorem sortByFirstKey_spec {s : LsmStorageState M} {ids : List ℕ}
    (h : ∀ id ∈ ids, ∃ t, s.sstables.lookup id = some t) :
    ∃ ids', sortByFirstKey s ids = .ok ids' ∧ ids'.Perm ids ∧ ids'.Pairwise (FirstKeyLe s) := by
  unfold sortByFirstKey
  split
  · rename_i hshort
    refine ⟨ids, rfl, List.Perm.refl _, ?_⟩
    match ids, hshort with
    | [], _ => exact .nil
    | [_], _ => exact List.pairwise_singleton _ _
  · obtain ⟨tables, htables⟩ := LsmStorageState.exists_mapM_table h
    rw [htables]
    rw [mapM_eq_ok_iff] at htables
    refine ⟨_, rfl, ?_, ?_⟩
    · have hfst : (ids.zip tables).map Prod.fst = ids :=
        List.map_fst_zip htables.length_eq.le
      exact ((List.perm_insertionSort _ _).map _).trans (List.Perm.of_eq hfst)
    · have hsorted := List.pairwise_insertionSort
        (fun a b : ℕ × SsTable => a.2.firstKey ≤ b.2.firstKey) (ids.zip tables)
      rw [List.pairwise_map]
      refine hsorted.imp_of_mem fun {a b} ha hb hab => ?_
      have hlookup : ∀ p ∈ (ids.zip tables).insertionSort
          (fun a b => a.2.firstKey ≤ b.2.firstKey), s.sstables.lookup p.1 = some p.2 := by
        intro p hp
        rw [List.mem_insertionSort] at hp
        exact LsmStorageState.table_eq_ok_iff.mp (List.forall₂_iff_zip.mp htables |>.2 hp)
      exact ⟨a.2, b.2, hlookup a ha, hlookup b hb, hab⟩

/-- The order of a level after `arrange`: the replay of the manifest leaves it as it is. -/
theorem arrange_spec (s : LsmStorageState M) (ids : List ℕ) (inRecovery : Bool)
    (h : inRecovery = false → ∀ id ∈ ids, ∃ t, s.sstables.lookup id = some t) :
    ∃ ids', arrange s ids inRecovery = .ok ids' ∧ ids'.Perm ids ∧
      (inRecovery = false → ids'.Pairwise (FirstKeyLe s)) := by
  cases inRecovery with
  | true => exact ⟨ids, rfl, List.Perm.refl _, by simp⟩
  | false =>
    obtain ⟨ids', hsort, hperm, hpair⟩ := sortByFirstKey_spec (h rfl)
    exact ⟨ids', hsort, hperm, fun _ => hpair⟩

/-- **What applying a task does**, on a state with the levels for which it was made. -/
theorem applyCompactionResult_spec {s : LsmStorageState M} {task : LeveledCompactionTask}
    {l0Sstables : List ℕ} (output : List ℕ) (inRecovery : Bool) (hlabels : Labelled s.levels)
    (hnodup : s.listedIds.Nodup) (htask : Picked l0Sstables s.levels task)
    (hl0 : ∀ id ∈ l0Sstables, id ∈ s.l0Sstables)
    (hlevel : inRecovery = false →
      ∀ level ∈ s.levels, ∀ id ∈ level.2, ∃ t, s.sstables.lookup id = some t)
    (houtput : inRecovery = false → ∀ id ∈ output, ∃ t, s.sstables.lookup id = some t) :
    ∃ levels', applyCompactionResult s task output inRecovery =
        .ok ({ s with
          l0Sstables := s.l0Sstables.filter
            (· ∉ task.upperLevelSstIds ++ task.lowerLevelSstIds)
          levels := levels' }, task.upperLevelSstIds ++ task.lowerLevelSstIds) ∧
      Installed (task.upperLevelSstIds ++ task.lowerLevelSstIds) output task.lowerLevel s.levels
        levels' ∧
      Thinned task.lowerLevel s.levels levels' ∧
      (inRecovery = false →
        ∀ level ∈ levels', level.1 = task.lowerLevel → level.2.Pairwise (FirstKeyLe s)) := by
  obtain ⟨upperLevel, upperIds, lowerLevel, lowerIds, flag⟩ := task
  obtain ⟨⟨above, lower, below, hlevels, hlower, hupper⟩, hnone, -⟩ := htask
  simp only at hlevels hlower hupper hnone ⊢
  have hlabels₁ : Labelled (above ++ (lowerLevel, lower) :: below) := hlevels ▸ hlabels
  have hlen : lowerLevel = above.length + 1 := hlabels₁.eq_length
  have hmem : (lowerLevel, lower) ∈ s.levels := by rw [hlevels]; simp
  have hkept : takeOutAll lower lowerIds = .ok (lower.filter (· ∉ lowerIds)) :=
    takeOutAll_eq (nodup_level hnodup hmem) hlower.subset
  -- The lower level after the call: only the state that `arrange` looks tables up in differs.
  obtain ⟨ids, hids, hperm, hsorted⟩ := arrange_spec s
    (lower.filter (· ∉ lowerIds) ++ output) inRecovery fun hr id hid =>
      (List.mem_append.mp hid).elim (fun h => hlevel hr _ hmem id (List.mem_of_mem_filter h))
        (houtput hr id)
  have hpair : ∀ (pre : List (ℕ × List ℕ)), (∀ level ∈ pre, level.1 ≠ lowerLevel) →
      inRecovery = false → ∀ level ∈ pre ++ (lowerLevel, ids) :: below, level.1 = lowerLevel →
        level.2.Pairwise (FirstKeyLe s) := by
    intro pre hpre hr level hl heq
    rcases List.mem_append.mp hl with hl | hl
    · exact absurd heq (hpre level hl)
    · rcases List.mem_cons.mp hl with rfl | hl
      · exact hsorted hr
      · exact absurd heq (hlabels₁.ne_of_mem (List.mem_append_right _ hl))
  cases upperLevel with
  | none =>
    obtain rfl := hnone rfl
    obtain ⟨hfilter, hinstalled⟩ := installed_l0 hlabels hnodup hlevels hl0 hlower.subset hperm
    refine ⟨_, ?_, hinstalled, by rw [hlevels]; exact thinned_l0 lower ids,
      hpair above fun level hl => hlabels₁.ne_of_mem (List.mem_append_left _ hl)⟩
    have hupperOut : takeOutAll s.l0Sstables upperIds = .ok (s.l0Sstables.filter (· ∉ upperIds)) :=
      takeOutAll_eq (List.nodup_append.mp hnodup).1 hl0
    have hindex : index s.levels (lowerLevel - 1) = .ok (lowerLevel, lower) := by
      rw [index_eq_ok_iff, hlevels, hlen]
      simp
    have hset : s.levels.set (lowerLevel - 1) (lowerLevel, ids) =
        above ++ (lowerLevel, ids) :: below := by
      rw [hlevels, hlen]
      simp
    have harrange : arrange { s with l0Sstables := s.l0Sstables.filter (· ∉ upperIds) }
        (lower.filter (· ∉ lowerIds) ++ output) inRecovery = .ok ids := hids
    simp only [applyCompactionResult, takeUpper, usizeSub_of_le (show 1 ≤ lowerLevel by omega),
      hfilter, bind, Except.bind, pure, Except.pure, hupperOut, hindex, hkept, harrange, hset]
  | some u =>
    obtain ⟨above', upper, rfl, hsub⟩ := hupper u rfl
    have hlevels' : s.levels = above' ++ (u, upper) :: (lowerLevel, lower) :: below := by
      rw [hlevels, List.append_assoc]
      rfl
    rw [List.length_append, List.length_singleton] at hlen
    have hu : u = above'.length + 1 :=
      (show Labelled (above' ++ (u, upper) :: (lowerLevel, lower) :: below) from
        hlevels' ▸ hlabels).eq_length
    obtain ⟨hfilter, hinstalled⟩ :=
      installed_level hlabels hnodup hlevels' hsub.subset hlower.subset hperm
    refine ⟨_, ?_, hinstalled, by rw [hlevels']; exact thinned_level List.filter_sublist lower ids, ?_⟩
    · have hupperOut : takeOutAll upper upperIds = .ok (upper.filter (· ∉ upperIds)) :=
        takeOutAll_eq (nodup_level hnodup (show (u, upper) ∈ s.levels by rw [hlevels']; simp)) hsub.subset
      have hindex : index s.levels (u - 1) = .ok (u, upper) := by
        rw [index_eq_ok_iff, hlevels', hu]
        simp
      have hset : s.levels.set (u - 1) (u, upper.filter (· ∉ upperIds)) =
          above' ++ (u, upper.filter (· ∉ upperIds)) :: (lowerLevel, lower) :: below := by
        rw [hlevels', hu]
        simp
      have hindex' : index (above' ++ (u, upper.filter (· ∉ upperIds)) :: (lowerLevel, lower) :: below)
          (lowerLevel - 1) = .ok (lowerLevel, lower) := by
        rw [index_eq_ok_iff, hlen]
        simp
      have hset' : (above' ++ (u, upper.filter (· ∉ upperIds)) :: (lowerLevel, lower) :: below).set
          (lowerLevel - 1) (lowerLevel, ids) =
            above' ++ (u, upper.filter (· ∉ upperIds)) :: (lowerLevel, ids) :: below := by
        rw [hlen]
        simp
      have harrange : arrange { s with levels := above' ++ (u, upper.filter (· ∉ upperIds)) ::
          (lowerLevel, lower) :: below } (lower.filter (· ∉ lowerIds) ++ output) inRecovery =
            .ok ids := hids
      simp only [applyCompactionResult, takeUpper, usizeSub_of_le (show 1 ≤ u by omega),
        usizeSub_of_le (show 1 ≤ lowerLevel by omega), hfilter, bind, Except.bind, pure, Except.pure,
        hupperOut, hindex, hset, hindex', hkept, harrange, hset']
    · intro hr level hl
      rw [← List.singleton_append, ← List.append_assoc] at hl
      refine hpair (above' ++ [(u, upper.filter (· ∉ upperIds))]) (fun level' hl' => ?_) hr level hl
      rcases List.mem_append.mp hl' with hl' | hl'
      · exact hlabels₁.ne_of_mem (by simp [hl'])
      · rw [List.mem_singleton.mp hl']
        show u ≠ lowerLevel
        omega

/-- The controller changes L0 and the levels only. -/
theorem applyCompactionResult_frame {s s' : LsmStorageState M} {task : LeveledCompactionTask}
    {output removed : List ℕ} {inRecovery : Bool}
    (h : applyCompactionResult s task output inRecovery = .ok (s', removed)) :
    s' = { s with l0Sstables := s'.l0Sstables, levels := s'.levels } := by
  simp only [applyCompactionResult, Outcome.bind_eq_ok_iff] at h
  obtain ⟨s₁, hupper, i, -, level, -, kept, -, ids, -, h⟩ := h
  have hframe : s₁ = { s with l0Sstables := s₁.l0Sstables, levels := s₁.levels } := by
    cases hu : task.upperLevel with
    | none =>
      simp only [takeUpper, hu, Outcome.bind_eq_ok_iff] at hupper
      obtain ⟨ids, -, hupper⟩ := hupper
      cases hupper
      rfl
    | some upperLevel =>
      simp only [takeUpper, hu, Outcome.bind_eq_ok_iff] at hupper
      obtain ⟨i, -, level, -, ids, -, hupper⟩ := hupper
      cases hupper
      rfl
  cases h
  rw [hframe]

/-- The memtables play no part. -/
theorem applyCompactionResult_congr {s s' t : LsmStorageState M} {task : LeveledCompactionTask}
    {output removed : List ℕ} {inRecovery : Bool}
    (h : applyCompactionResult s task output inRecovery = .ok (s', removed))
    (hl0 : t.l0Sstables = s.l0Sstables) (hlevels : t.levels = s.levels)
    (htables : t.sstables = s.sstables) : applyCompactionResult t task output inRecovery =
      .ok ({ t with l0Sstables := s'.l0Sstables, levels := s'.levels }, removed) := by
  simp only [applyCompactionResult, Outcome.bind_eq_ok_iff] at h ⊢
  obtain ⟨s₁, hupper, i, hi, level, hlevel, kept, hkept, ids, hids, h⟩ := h
  cases h
  have htake : takeUpper t task =
      .ok { t with l0Sstables := s₁.l0Sstables, levels := s₁.levels } ∧ s₁.sstables = s.sstables := by
    unfold takeUpper at hupper ⊢
    rw [hl0, hlevels]
    cases hu : task.upperLevel with
    | none =>
      simp only [hu, Outcome.bind_eq_ok_iff] at hupper ⊢
      obtain ⟨ids', hids', hupper⟩ := hupper
      cases hupper
      refine ⟨⟨ids', hids', ?_⟩, rfl⟩
      rw [← hlevels]
      rfl
    | some upperLevel =>
      simp only [hu, Outcome.bind_eq_ok_iff] at hupper ⊢
      obtain ⟨j, hj, level', hlevel', ids', hids', hupper⟩ := hupper
      cases hupper
      refine ⟨⟨j, hj, level', hlevel', ids', hids', ?_⟩, rfl⟩
      rw [← hl0]
      rfl
  refine ⟨_, htake.1, i, hi, level, hlevel, kept, hkept, ids, ?_, rfl⟩
  rw [← hids]
  unfold arrange sortByFirstKey LsmStorageState.table
  rw [htake.2, ← htables]

end LeveledCompactionController

end TinyLsm

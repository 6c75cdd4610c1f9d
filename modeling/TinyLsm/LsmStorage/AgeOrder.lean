import TinyLsm.LsmStorage.Preserved

/-!
# The order of the containers by age

`AgeOrdered`: going through the memtables, L0 and the levels or tiers, the versions of each key get older.
Writes, freezes and flushes keep this, and so do compactions that merge whole neighbours: the tiered and the
simple ones, and a full one.

A leveled compaction takes single tables of a level, or all of L0 past levels that are not the base level
any more.  `age_ordered_iff`: the order is kept exactly when nothing older than what moves down stays in the
levels above.
-/

namespace TinyLsm

namespace LsmStorageState

variable [Platform] {s s' : LsmStorageState MemTable}

/-- One of the tables has the version. -/
def LevelHas (s : LsmStorageState MemTable) (ids : List ℕ) (x : Entry) : Prop := ∃ id ∈ ids, s.TableHas id x

theorem tableHas_congr {id : ℕ} (h : s'.sstables.lookup id = s.sstables.lookup id) :
    s'.TableHas id = s.TableHas id := by
  unfold TableHas
  rw [h]

theorem levelHas_congr {ids : List ℕ} (h : ∀ id ∈ ids, s'.TableHas id = s.TableHas id) :
    s'.LevelHas ids = s.LevelHas ids :=
  funext fun x => propext <| exists_congr fun id => and_congr_right fun hid => by rw [h id hid]

/-- What is in the memtables, in the tables of L0, and in the levels or tiers. -/
def versions (s : LsmStorageState MemTable) : List (Entry → Prop) :=
  (s.memtables.map fun m x => x ∈ m.map.entries) ++
    (s.l0Sstables.map s.TableHas ++ s.levels.map fun level => s.LevelHas level.2)

/-- **Every version of a key in a container is newer than those in the containers after it.** -/
def AgeOrdered (s : LsmStorageState MemTable) : Prop := ByAge s.versions

/-- The order by age, part by part. -/
structure OrderedParts (s : LsmStorageState MemTable) : Prop where
  memtables : ByAge (s.memtables.map fun m x => x ∈ m.map.entries)
  listed : ∀ m ∈ s.memtables, ∀ id ∈ s.listedIds, NewerThan (fun x => x ∈ m.map.entries) (s.TableHas id)
  l0 : s.l0Sstables.Pairwise fun id id' => NewerThan (s.TableHas id) (s.TableHas id')
  l0Levels : ∀ id ∈ s.l0Sstables, ∀ level ∈ s.levels, NewerThan (s.TableHas id) (s.LevelHas level.2)
  levels : s.levels.Pairwise fun a b => NewerThan (s.LevelHas a.2) (s.LevelHas b.2)

theorem ageOrdered_iff : s.AgeOrdered ↔ s.OrderedParts := by
  unfold AgeOrdered versions ByAge
  simp only [List.pairwise_append, List.mem_append, List.pairwise_map, List.forall_mem_map]
  constructor
  · rintro ⟨hmems, ⟨hl0, hlevels, hcross⟩, hlisted⟩
    refine ⟨List.pairwise_map.mpr hmems, fun m hm id hid x y hx hy => ?_, hl0, hcross, hlevels⟩
    rcases mem_listedIds.mp hid with hid | ⟨level, hlevel, hid⟩
    · exact hlisted m hm _ (Or.inl (List.mem_map_of_mem hid)) x y hx hy
    · exact hlisted m hm _ (Or.inr (List.mem_map_of_mem hlevel)) x y hx ⟨id, hid, hy⟩
  · rintro ⟨hmems, hlisted, hl0, hcross, hlevels⟩
    refine ⟨List.pairwise_map.mp hmems, ⟨hl0, hlevels, hcross⟩, ?_⟩
    rintro m hm T (hT | hT)
    · obtain ⟨id, hid, rfl⟩ := List.mem_map.mp hT
      exact hlisted m hm id (mem_listedIds.mpr (Or.inl hid))
    · obtain ⟨level, hlevel, rfl⟩ := List.mem_map.mp hT
      rintro x y hx ⟨id, hid, hy⟩
      exact hlisted m hm id (mem_listedIds.mpr (Or.inr ⟨level, hlevel, hid⟩)) x y hx hy

/-! ## What a task does -/

/-- A task has been carried out: its inputs have left, and the versions that it does not leave out are in
the output. -/
structure Rewritten (s s' : LsmStorageState MemTable) (task : CompactionTask) (output : List ℕ) : Prop where
  memtables : s'.memtables = s.memtables
  inputs : ∀ id ∈ task.inputIds, id ∈ s.listedIds
  listed : ∀ id ∈ s'.listedIds, (id ∈ s.listedIds ∧ id ∉ task.inputIds) ∨ id ∈ output
  kept : ∀ id ∈ s.listedIds, id ∉ task.inputIds → s'.TableHas id = s.TableHas id
  output : ∀ x, s'.LevelHas output x ↔ s.LevelHas task.inputIds x ∧ ¬task.Drops s x

namespace Rewritten

variable {task : CompactionTask} {outputIds : List ℕ}

/-- Levels without inputs stay as they are. -/
theorem levelHas (h : Rewritten s s' task outputIds) {ids : List ℕ}
    (hids : ∀ id ∈ ids, id ∈ s.listedIds ∧ id ∉ task.inputIds) : s'.LevelHas ids = s.LevelHas ids :=
  levelHas_congr fun id hid => h.kept id (hids id hid).1 (hids id hid).2

/-- **A merge of neighbours keeps the order.** -/
theorem merge (h : Rewritten s s' task outputIds) (hage : s.AgeOrdered)
    {P C Q : List (Entry → Prop)} (hold : s.versions = P ++ (C ++ Q))
    (hnew : s'.versions = P ++ (s'.LevelHas outputIds :: Q))
    (hinputs : ∀ x, s.LevelHas task.inputIds x → ∃ S ∈ C, S x) : s'.AgeOrdered := by
  unfold AgeOrdered at hage ⊢
  rw [hold] at hage
  rw [hnew]
  exact hage.merge fun x hx => hinputs x ((h.output x).mp hx).1

/-- A tiered compaction makes one tier of neighbours. -/
theorem ageOrdered_tiers {newer tiers older : List (ℕ × List ℕ)} {o : ℕ}
    (hrew : Rewritten s s' task outputIds) (hnodup : s.listedIds.Nodup) (hage : s.AgeOrdered)
    (hinputs : task.inputIds = (tiers.map Prod.snd).flatten) (hl0 : s'.l0Sstables = s.l0Sstables)
    (hl0Ids : s.l0Sstables = []) (hlevels : s.levels = newer ++ (tiers ++ older))
    (hlevels' : s'.levels = newer ++ (o, outputIds) :: older) : s'.AgeOrdered := by
  have hlisted : s.listedIds = (newer.map Prod.snd).flatten ++ (task.inputIds ++ (older.map Prod.snd).flatten) := by
    unfold listedIds
    rw [hl0Ids, hlevels, hinputs, List.nil_append, List.map_append, List.map_append, List.flatten_append,
      List.flatten_append]
  rw [hlisted, List.nodup_append] at hnodup
  obtain ⟨-, hrest, hnewer⟩ := hnodup
  have holder := (List.nodup_append.mp hrest).2.2
  -- The other tiers stay.
  have hkept : ∀ tier ∈ newer ++ older, s'.LevelHas tier.2 = s.LevelHas tier.2 := by
    intro tier htier
    refine hrew.levelHas fun id hid => ⟨?_, fun hin => ?_⟩
    · refine mem_listedIds.mpr (Or.inr ⟨tier, ?_, hid⟩)
      rw [hlevels]
      rcases List.mem_append.mp htier with htier | htier
      · exact List.mem_append_left _ htier
      · exact List.mem_append_right _ (List.mem_append_right _ htier)
    · have hflat : ∀ {l : List (ℕ × List ℕ)}, tier ∈ l → id ∈ (l.map Prod.snd).flatten := fun hmem =>
        List.mem_flatten.mpr ⟨tier.2, List.mem_map_of_mem hmem, hid⟩
      rcases List.mem_append.mp htier with htier | htier
      · exact hnewer id (hflat htier) id (List.mem_append_left _ hin) rfl
      · exact holder id hin id (hflat htier) rfl
  refine hrew.merge hage (P := (s.memtables.map fun m x => x ∈ m.map.entries) ++
      newer.map fun tier => s.LevelHas tier.2) (C := tiers.map fun tier => s.LevelHas tier.2)
    (Q := older.map fun tier => s.LevelHas tier.2) ?_ ?_ ?_
  · unfold versions
    rw [hl0Ids, hlevels, List.map_append, List.map_append, List.append_assoc]
    rfl
  · unfold versions
    rw [hrew.memtables, hl0, hl0Ids, hlevels', List.map_append, List.map_cons,
      List.map_congr_left fun tier htier => hkept tier (List.mem_append_left _ htier),
      List.map_congr_left fun tier htier => hkept tier (List.mem_append_right _ htier), List.append_assoc]
    rfl
  · rintro x ⟨id, hid, hx⟩
    rw [hinputs] at hid
    obtain ⟨ids, hids, hid⟩ := List.mem_flatten.mp hid
    obtain ⟨tier, htier, rfl⟩ := List.mem_map.mp hids
    exact ⟨_, List.mem_map_of_mem htier, id, hid, hx⟩

end Rewritten

/-- **Nothing older stays above what the task moves down**: in the levels above the lower one, only newer
versions of the keys stay. -/
def LeavesNoneOlder (s : LsmStorageState MemTable) (task : CompactionTask) (upperIds : List ℕ)
    (lowerLevel : ℕ) : Prop :=
  ∀ level ∈ s.levels, level.1 < lowerLevel → NewerThan (s.LevelHas (level.2.filter (· ∉ upperIds)))
    fun x => s.LevelHas upperIds x ∧ ¬task.Drops s x

end LsmStorageState

namespace LsmStorageInner

open LsmStorageState

variable [Platform] {s s' : LsmStorageState MemTable} {upperLevel : Option ℕ}
  {upperIds lowerIds outputIds : List ℕ} {lowerLevel : ℕ} {task : CompactionTask}

omit [Platform] in
/-- Where the inputs of a leveled strategy are. -/
theorem Picks.upper (h : Picks s upperLevel upperIds lowerIds lowerLevel) {id : ℕ} (hid : id ∈ upperIds) :
    upperLevel = none ∧ id ∈ s.l0Sstables ∨ ∃ level ∈ s.levels, level.1 < lowerLevel ∧ id ∈ level.2 := by
  cases upperLevel with
  | none => exact Or.inl ⟨rfl, (h.l0 rfl).subset hid⟩
  | some u =>
    obtain ⟨above, lower, below, hlevels, -, hupper⟩ := h.picks
    obtain ⟨above', upper, rfl, hids⟩ := hupper u rfl
    have hlabels := h.labels
    rw [hlevels] at hlabels
    have hlower := hlabels.eq_length
    rw [List.append_assoc, List.singleton_append] at hlabels
    have hu := hlabels.eq_length
    rw [List.length_append, List.length_singleton] at hlower
    refine Or.inr ⟨(u, upper), by rw [hlevels]; simp, ?_, hids.subset hid⟩
    omega

omit [Platform] in
theorem Picks.lower (h : Picks s upperLevel upperIds lowerIds lowerLevel) :
    ∃ level ∈ s.levels, level.1 = lowerLevel ∧ ∀ id ∈ lowerIds, id ∈ level.2 := by
  obtain ⟨above, lower, below, hlevels, hlower, -⟩ := h.picks
  exact ⟨(lowerLevel, lower), by rw [hlevels]; simp, rfl, hlower.subset⟩

/-- A leveled strategy has moved tables of L0 or of one level into the level below. -/
structure MovedDown (s s' : LsmStorageState MemTable) (task : CompactionTask) (upperLevel : Option ℕ)
    (upperIds lowerIds : List ℕ) (lowerLevel : ℕ) (outputIds : List ℕ) : Prop where
  nodup : s.listedIds.Nodup
  picks : Picks s upperLevel upperIds lowerIds lowerLevel
  inputs : task.inputIds = upperIds ++ lowerIds
  all : upperLevel = none → upperIds = s.l0Sstables
  moved : Moved s s' upperIds lowerIds lowerLevel outputIds
  rewritten : Rewritten s s' task outputIds

namespace MovedDown

variable {level level' : ℕ × List ℕ} {x : Entry}

theorem labels (h : MovedDown s s' task upperLevel upperIds lowerIds lowerLevel outputIds) : Labelled s.levels ∧ Labelled s'.levels := by
  exact ⟨h.picks.labels, h.picks.labels.congr h.moved.installed.labels⟩

theorem memtables (h : MovedDown s s' task upperLevel upperIds lowerIds lowerLevel outputIds) : s'.memtables = s.memtables := by
  exact h.rewritten.memtables

/-- What a listed table has afterwards was in a listed table. -/
theorem listed (h : MovedDown s s' task upperLevel upperIds lowerIds lowerLevel outputIds) {id : ℕ} (hid : id ∈ s'.listedIds)
    (hx : s'.TableHas id x) : ∃ other ∈ s.listedIds, s.TableHas other x := by
  rcases h.rewritten.listed id hid with ⟨hid, hnot⟩ | hid
  · exact ⟨id, hid, h.rewritten.kept id hid hnot ▸ hx⟩
  · obtain ⟨⟨other, hother, hx⟩, -⟩ := (h.rewritten.output x).mp ⟨id, hid, hx⟩
    exact ⟨other, h.rewritten.inputs other hother, hx⟩

/-- The tables that stay in L0. -/
theorem l0 (h : MovedDown s s' task upperLevel upperIds lowerIds lowerLevel outputIds) : s'.l0Sstables.Sublist s.l0Sstables ∧
    ∀ id ∈ s'.l0Sstables, s'.TableHas id = s.TableHas id ∧
      ∀ x, s.LevelHas upperIds x → ∃ level ∈ s.levels, s.LevelHas level.2 x := by
  rw [h.moved.l0Sstables]
  refine ⟨List.filter_sublist, fun id hid => ?_⟩
  obtain ⟨hid, hnot⟩ := List.mem_filter.mp hid
  have hnot := of_decide_eq_true hnot
  refine ⟨h.rewritten.kept id (mem_listedIds.mpr (Or.inl hid)) (h.inputs ▸ hnot), ?_⟩
  rintro x ⟨input, hinput, hx⟩
  rcases h.picks.upper hinput with ⟨hupper, -⟩ | ⟨level, hlevel, -, hin⟩
  · -- A compaction of L0 takes all its tables.
    exact absurd (List.mem_append_left _ (h.all hupper ▸ hid)) hnot
  · exact ⟨level, hlevel, input, hin, hx⟩

/-- **What a level has afterwards**: what it had, but for the inputs of the level above, and in the lower
level what has been moved down. -/
theorem levelHas (h : MovedDown s s' task upperLevel upperIds lowerIds lowerLevel outputIds) (hlevel : level' ∈ s'.levels)
    (hx : s'.LevelHas level'.2 x) : ∃ level ∈ s.levels, level.1 = level'.1 ∧
      (s.LevelHas (level.2.filter (· ∉ upperIds)) x ∨
        level.1 = lowerLevel ∧ s.LevelHas upperIds x ∧ ¬task.Drops s x) := by
  obtain ⟨level, hmem, hlabel, hfrom⟩ := h.moved.installed.source hlevel
  refine ⟨level, hmem, hlabel.symm, ?_⟩
  obtain ⟨id, hid, hx⟩ := hx
  rcases hfrom id hid with ⟨hid, hnot⟩ | ⟨hlower, hid⟩
  · rw [h.rewritten.kept id (mem_listedIds.mpr (Or.inr ⟨level, hmem, hid⟩)) (h.inputs ▸ hnot)] at hx
    refine Or.inl ⟨id, List.mem_filter.mpr ⟨hid, decide_eq_true fun hin => ?_⟩, hx⟩
    exact hnot (List.mem_append_left _ hin)
  · obtain ⟨⟨input, hinput, hx⟩, hdrop⟩ := (h.rewritten.output x).mp ⟨id, hid, hx⟩
    rw [h.inputs] at hinput
    rcases List.mem_append.mp hinput with hinput | hinput
    · exact Or.inr ⟨hlower, ⟨input, hinput, hx⟩, hdrop⟩
    · -- An input of the lower level stays in its level.
      obtain ⟨lower, hmem', hlabel', hids⟩ := h.picks.lower
      obtain rfl : level = lower := by
        obtain ⟨above, below, hsplit⟩ := List.append_of_mem hmem'
        have hlabels := h.picks.labels
        rw [hsplit] at hlabels hmem
        exact hlabels.eq_of_label hmem (hlower.trans hlabel'.symm)
      refine Or.inl ⟨input, List.mem_filter.mpr ⟨hids input hinput, decide_eq_true fun hin => ?_⟩, hx⟩
      exact (List.nodup_append.mp (h.nodup.sublist h.picks.sublist)).2.2 input hin input hinput rfl

/-- What stays in a level above the lower one. -/
theorem stays (h : MovedDown s s' task upperLevel upperIds lowerIds lowerLevel outputIds) (hlevel : level ∈ s.levels)
    (hlt : level.1 < lowerLevel) (hx : s.LevelHas (level.2.filter (· ∉ upperIds)) x) :
    ∃ level' ∈ s'.levels, level'.1 = level.1 ∧ s'.LevelHas level'.2 x := by
  obtain ⟨id, hid, hx⟩ := hx
  obtain ⟨hid, hnot⟩ := List.mem_filter.mp hid
  obtain ⟨lower, hlower, hlabel, hids⟩ := h.picks.lower
  have hdis := (List.nodup_flatten.mp (List.nodup_append.mp h.nodup).2.1).2
  have hnotLower : id ∉ lowerIds := fun hin => h.picks.labels.pairwise_iff.mp (List.pairwise_map.mp hdis)
    level hlevel lower hlower (hlabel.symm ▸ hlt) hid (hids id hin)
  have hstays := List.not_mem_append (of_decide_eq_true hnot) hnotLower
  obtain ⟨level', hlevel', hlabel', hto, -⟩ := h.moved.installed.target hlevel
  refine ⟨level', hlevel', hlabel', id, hto id hid hstays, ?_⟩
  rw [h.rewritten.kept id (mem_listedIds.mpr (Or.inr ⟨level, hlevel, hid⟩)) (h.inputs ▸ hstays)]
  exact hx

/-- What comes into the lower level. -/
theorem comes (h : MovedDown s s' task upperLevel upperIds lowerIds lowerLevel outputIds) (hx : s.LevelHas upperIds x)
    (hdrop : ¬task.Drops s x) : ∃ level' ∈ s'.levels, level'.1 = lowerLevel ∧ s'.LevelHas level'.2 x := by
  obtain ⟨lower, hlower, hlabel, -⟩ := h.picks.lower
  obtain ⟨level', hlevel', hlabel', -, hto⟩ := h.moved.installed.target hlower
  obtain ⟨input, hinput, hx⟩ := hx
  obtain ⟨out, hout, hx⟩ := (h.rewritten.output x).mpr ⟨⟨input, h.inputs ▸ List.mem_append_left _ hinput, hx⟩, hdrop⟩
  exact ⟨level', hlevel', hlabel'.trans hlabel, out, hto hlabel out hout, hx⟩

/-- The inputs of the level above are newer than the levels below the lower one. -/
theorem newer_below (h : MovedDown s s' task upperLevel upperIds lowerIds lowerLevel outputIds) (hparts : s.OrderedParts)
    (hlevel : level ∈ s.levels) (hlt : lowerLevel < level.1) :
    NewerThan (s.LevelHas upperIds) (s.LevelHas level.2) := by
  rintro x y ⟨input, hinput, hx⟩ hy hk
  rcases h.picks.upper hinput with ⟨-, hin⟩ | ⟨upper, hupper, hltu, hin⟩
  · exact hparts.l0Levels input hin level hlevel x y hx hy hk
  · exact h.labels.1.pairwise_iff.mp hparts.levels upper hupper level hlevel (hltu.trans hlt) x y
      ⟨input, hin, hx⟩ hy hk

/-- **A leveled strategy keeps the order** exactly when nothing older stays above what it moves down. -/
theorem ageOrdered_iff (h : MovedDown s s' task upperLevel upperIds lowerIds lowerLevel outputIds) (hage : s.AgeOrdered) :
    s'.AgeOrdered ↔ LeavesNoneOlder s task upperIds lowerLevel := by
  have hparts := LsmStorageState.ageOrdered_iff.mp hage
  obtain ⟨hlabels, hlabels'⟩ := h.labels
  have hold := hlabels.pairwise_iff.mp hparts.levels
  have hpart : ∀ {ids : List ℕ} {x}, s.LevelHas (ids.filter (· ∉ upperIds)) x → s.LevelHas ids x :=
    fun ⟨id, hid, hx⟩ => ⟨id, List.mem_of_mem_filter hid, hx⟩
  constructor
  · intro hage' level hlevel hlt x y hx hy hk
    obtain ⟨level', hlevel', hlabel, hx'⟩ := h.stays hlevel hlt hx
    obtain ⟨lower', hlower', hlabel', hy'⟩ := h.comes hy.1 hy.2
    exact hlabels'.pairwise_iff.mp (LsmStorageState.ageOrdered_iff.mp hage').levels level' hlevel' lower'
      hlower' (hlabel ▸ hlabel' ▸ hlt) x y hx' hy' hk
  · intro hnone
    refine LsmStorageState.ageOrdered_iff.mpr ⟨?_, ?_, ?_, ?_, ?_⟩
    · rw [h.memtables]
      exact hparts.memtables
    · intro m hm id hid x y hx hy hk
      obtain ⟨other, hother, hy⟩ := h.listed hid hy
      exact hparts.listed m (h.memtables ▸ hm) other hother x y hx hy hk
    · refine (hparts.l0.sublist h.l0.1).imp_of_mem fun {a b} ha hb hnewer => ?_
      rwa [(h.l0.2 a ha).1, (h.l0.2 b hb).1]
    · intro id hid level' hlevel' x y hx hy hk
      obtain ⟨hsame, hupper⟩ := h.l0.2 id hid
      rw [hsame] at hx
      have hl0 := hparts.l0Levels id (h.l0.1.subset hid)
      obtain ⟨level, hlevel, -, hy | ⟨-, hy, -⟩⟩ := h.levelHas hlevel' hy
      · exact hl0 level hlevel x y hx (hpart hy) hk
      · obtain ⟨upper, hmem, hy⟩ := hupper y hy
        exact hl0 upper hmem x y hx hy hk
    · refine hlabels'.pairwise_iff.mpr fun a' ha' b' hb' hlt x y hx hy hk => ?_
      obtain ⟨a, ha, halabel, hx⟩ := h.levelHas ha' hx
      obtain ⟨b, hb, hblabel, hy⟩ := h.levelHas hb' hy
      rw [← halabel, ← hblabel] at hlt
      rcases hx with hx | ⟨halower, hx, -⟩ <;> rcases hy with hy | ⟨hblower, hy⟩
      · exact hold a ha b hb hlt x y (hpart hx) (hpart hy) hk
      · -- Moved down past what stays in a level above.
        exact hnone a ha (hblower ▸ hlt) x y hx hy hk
      · exact h.newer_below hparts hb (halower ▸ hlt) x y hx (hpart hy) hk
      · exact absurd hlt (by rw [halower, hblower]; exact lt_irrefl _)

end MovedDown

/-! ## The calls -/

variable {options : LsmStorageOptions} {e₀ e e' : LsmStorageInner} {contents : ℕ → List Entry}
  {output : List SsTable} {cs : List (List Entry)} {op : Op} {ops : List Op}

theorem has_of_mem_versions {S : Entry → Prop} (hS : S ∈ s.versions) {x : Entry} (hx : S x) : s.Has x := by
  unfold versions at hS
  rcases List.mem_append.mp hS with hS | hS
  · obtain ⟨m, hm, rfl⟩ := List.mem_map.mp hS
    exact Or.inl ⟨m, hm, hx⟩
  · rcases List.mem_append.mp hS with hS | hS
    · obtain ⟨id, hid, rfl⟩ := List.mem_map.mp hS
      exact Or.inr ⟨id, mem_listedIds.mpr (Or.inl hid), hx⟩
    · obtain ⟨level, hlevel, rfl⟩ := List.mem_map.mp hS
      obtain ⟨id, hid, hx⟩ := hx
      exact Or.inr ⟨id, mem_listedIds.mpr (Or.inr ⟨level, hlevel, hid⟩), hx⟩

theorem Froze.ageOrdered {m : MemTable} (hfroze : Froze e e' m) (h : e.state.AgeOrdered) :
    e'.state.AgeOrdered := by
  have hversions : e'.state.versions = (fun x => x ∈ m.map.entries) :: e.state.versions := by
    rw [hfroze.state]
    rfl
  unfold AgeOrdered
  rw [hversions]
  refine ByAge.cons_empty h fun x hx => ?_
  rw [hfroze.empty] at hx
  cases hx

/-- A write is newer than all that is there. -/
theorem Settled.ageOrdered_put {ts : UInt64} {data : List Entry} {d : Disk} (h : e.Settled options contents)
    (hage : e.state.AgeOrdered) (hts : e.latestCommitTs < ts) (hdata : ∀ x ∈ data, x.1.ts = ts) :
    (e.afterPut data d).state.AgeOrdered := by
  obtain ⟨rest, hold, hnew⟩ : ∃ rest, e.state.versions = (fun x => x ∈ e.state.memtable.map.entries) :: rest ∧
      (e.afterPut data d).state.versions =
        (fun x => x ∈ (e.state.memtable.insertAll data).map.entries) :: rest := ⟨_, rfl, rfl⟩
  unfold AgeOrdered at hage ⊢
  rw [hold] at hage
  rw [hnew]
  refine hage.cons_newer fun x hx => ?_
  rw [MemTable.insertAll_map, SkipMap.mem_insertAll] at hx
  rcases hx with hx | ⟨-, hx⟩
  · refine Or.inr fun S hS y hy => ?_
    have hhas : e.state.Has y := has_of_mem_versions (hold ▸ List.mem_cons_of_mem _ hS) hy
    have hle := h.steady.stamps y (h.steady.state.has_iff.mp hhas)
    rw [Key.stamp_eq, Key.stamp_eq, hdata x (LastIn.mem hx)]
    exact hle.trans_lt hts
  · exact Or.inl hx

/-- The tables but the new one are as they were. -/
theorem Flushed.tableHas {m : MemTable} {builder : SsTableBuilder} (h : Flushed e e' m builder) {id : ℕ}
    (hid : id ≠ m.id) : e'.state.TableHas id = e.state.TableHas id :=
  tableHas_congr (by rw [h.sstables, AList.lookup_insert_ne hid])

/-- The new table, or tier, stands where the memtable was. -/
theorem Settled.versions_flush {m : MemTable} {builder : SsTableBuilder} (h : e.Settled options contents)
    (hflushed : Flushed e e' m builder) : ∃ S : Entry → Prop, (∀ x, S x → e'.state.TableHas m.id x) ∧
      e'.state.versions = (e'.state.memtables.map fun m x => x ∈ m.map.entries) ++
        (S :: (e.state.l0Sstables.map e.state.TableHas ++
          e.state.levels.map fun level => e.state.LevelHas level.2)) := by
  have hid := hflushed.id_notMem h.steady.state.nodup
  have hsame : ∀ id ∈ e.state.listedIds, e'.state.TableHas id = e.state.TableHas id := fun id hmem =>
    hflushed.tableHas fun heq => hid (heq ▸ hmem)
  have hl0 : e.state.l0Sstables.map e'.state.TableHas = e.state.l0Sstables.map e.state.TableHas :=
    List.map_congr_left fun id hmem => hsame id (mem_listedIds.mpr (Or.inl hmem))
  have hlevels : ∀ level ∈ e.state.levels, e'.state.LevelHas level.2 = e.state.LevelHas level.2 :=
    fun level hlevel => levelHas_congr fun id hmem =>
      hsame id (mem_listedIds.mpr (Or.inr ⟨level, hlevel, hmem⟩))
  unfold versions
  rw [hflushed.l0Sstables, hflushed.levels]
  split
  · refine ⟨_, fun _ => id, ?_⟩
    rw [List.map_cons, hl0, List.map_congr_left hlevels]
    rfl
  · rename_i hflush
    have hempty : e.state.l0Sstables = [] :=
      h.laid.l0Sstables (by rw [← h.laid.controller]; exact Bool.eq_false_iff.mpr hflush)
    refine ⟨e'.state.LevelHas [m.id], fun x ⟨id, hmem, hx⟩ => List.mem_singleton.mp hmem ▸ hx, ?_⟩
    rw [List.map_cons, hl0, List.map_congr_left hlevels, hempty]
    rfl

theorem Settled.ageOrdered_flush {m : MemTable} {builder : SsTableBuilder} (h : e.Settled options contents)
    (hage : e.state.AgeOrdered) (hflushed : Flushed e e' m builder) : e'.state.AgeOrdered := by
  obtain ⟨S, hS, hnew⟩ := h.versions_flush hflushed
  have hold : e.state.versions = (e'.state.memtables.map fun m x => x ∈ m.map.entries) ++
      ([fun x => x ∈ m.map.entries] ++ (e.state.l0Sstables.map e.state.TableHas ++
        e.state.levels.map fun level => e.state.LevelHas level.2)) := by
    unfold versions
    rw [hflushed.memtables, List.map_append, List.append_assoc]
    rfl
  have hsub : ∀ x, e'.state.TableHas m.id x → x ∈ m.map.entries := by
    intro x hx
    have hlisted : m.id ∈ e'.state.listedIds := hflushed.listed.symm.subset List.mem_cons_self
    rw [(h.flush hflushed).steady.state.tableHas_iff hlisted, withTable_self] at hx
    exact m.flushed_sublist.subset hx
  unfold AgeOrdered at hage ⊢
  rw [hold] at hage
  rw [hnew]
  exact hage.merge fun x hx => ⟨_, List.mem_singleton_self _, hsub x (hS x hx)⟩

/-! ## Compactions -/

theorem Replaced.rewritten (hrep : Replaced e e' task output cs) (h : e.Settled options contents)
    (h' : e'.Settled options (withChunks contents e.nextSstId cs)) :
    Rewritten e.state e'.state task (output.map SsTable.id) := by
  have hex := hrep.exchanged h.steady
  have hsame := Replaced.withChunks_eq h.steady cs
  have hc := (h.steady.congr hsame).state
  have hlisted : ∀ id ∈ output.map SsTable.id, id ∈ e'.state.listedIds := fun id hid =>
    hrep.listed.symm.subset (List.mem_append_right _ hid)
  refine ⟨hrep.memtables, hrep.inputs.subset, fun id hid => ?_, fun id hid hnot => ?_, fun x => ?_⟩
  · rcases List.mem_append.mp (hrep.listed.subset hid) with hid | hid
    · obtain ⟨hid, hnot⟩ := List.mem_filter.mp hid
      exact Or.inl ⟨hid, of_decide_eq_true hnot⟩
    · exact Or.inr hid
  · exact tableHas_congr (hrep.old id hid hnot)
  · have hinputs : e.state.LevelHas task.inputIds x ↔
        ∃ id ∈ task.inputIds, x ∈ withChunks contents e.nextSstId cs id :=
      exists_congr fun id => and_congr_right fun hid => hc.tableHas_iff (hrep.inputs.subset hid)
    have hnew : e'.state.LevelHas (output.map SsTable.id) x ↔
        ∃ id ∈ output.map SsTable.id, x ∈ withChunks contents e.nextSstId cs id :=
      exists_congr fun id => and_congr_right fun hid => h'.steady.state.tableHas_iff (hlisted id hid)
    rw [hnew, hex.mem_output hc, ← hinputs]
    refine and_congr_right fun hin => not_congr ⟨fun hdrop => ⟨hdrop.1, hdrop.2, hin⟩, fun hdrop => ?_⟩
    exact ⟨hdrop.1, hdrop.2.1⟩

theorem Settled.ageOrdered_fullCompact (h : e.Settled options contents) (hage : e.state.AgeOrdered)
    (hstep : Step e .fullCompact e') : e'.state.AgeOrdered := by
  obtain ⟨level₁, output, hfull⟩ := forceFullCompaction_ok hstep
  obtain ⟨cs, hrep, hsteady, htiers⟩ := hfull.steadied h.steady h.laid h.tiers
  have hrew := hrep.rewritten h ⟨h.laid.step hstep, hsteady, htiers⟩
  obtain ⟨below, hlevels, hlevels'⟩ := hfull.levels_eq
  have hnodup := h.laid.listed_nodup
  unfold listedIds at hnodup
  rw [hlevels, List.map_cons, List.flatten_cons, ← List.append_assoc] at hnodup
  have hbelow : ∀ level ∈ below, e'.state.LevelHas level.2 = e.state.LevelHas level.2 := by
    intro level hlevel
    refine hrew.levelHas fun id hid => ⟨mem_listedIds.mpr (Or.inr ⟨level, ?_, hid⟩), fun hin => ?_⟩
    · rw [hlevels]
      exact List.mem_cons_of_mem _ hlevel
    · exact (List.nodup_append.mp hnodup).2.2 id hin id
        (List.mem_flatten.mpr ⟨level.2, List.mem_map_of_mem hlevel, hid⟩) rfl
  refine hrew.merge hage (P := e.state.memtables.map fun m x => x ∈ m.map.entries)
    (C := e.state.l0Sstables.map e.state.TableHas ++ [e.state.LevelHas level₁.2])
    (Q := below.map fun level => e.state.LevelHas level.2) ?_ ?_ ?_
  · unfold versions
    rw [hlevels, List.map_cons, List.append_assoc]
    rfl
  · have hl0 : e'.state.l0Sstables = [] := by rw [hfull.state]
    unfold versions
    rw [hrew.memtables, hlevels', hl0, List.map_cons, List.map_congr_left hbelow]
    rfl
  · rintro x ⟨id, hid, hx⟩
    rcases List.mem_append.mp hid with hid | hid
    · exact ⟨_, List.mem_append_left _ (List.mem_map_of_mem hid), hx⟩
    · exact ⟨_, List.mem_append_right _ (List.mem_singleton_self _), id, hid, hx⟩

/-- The simple strategy merges whole levels, so nothing stays that is older. -/
theorem leavesNoneOlder_simple {t : SimpleLeveledCompactionTask} (hage : s.AgeOrdered)
    (hpicked : SimpleLeveledCompactionController.Picked s.l0Sstables s.levels t)
    (hlabels : Labelled s.levels) :
    LeavesNoneOlder s (.simple t) t.upperLevelSstIds t.lowerLevel := by
  have hold := hlabels.pairwise_iff.mp (LsmStorageState.ageOrdered_iff.mp hage).levels
  obtain ⟨⟨above, lower, below, hlevels, -, hupper⟩, hl0⟩ := hpicked
  have hlower := (hlevels ▸ hlabels).eq_length
  intro level hlevel hlt x y hx hy hk
  obtain ⟨before, after, hsplit⟩ := List.append_of_mem hlevel
  have hlabel := (hsplit ▸ hlabels).eq_length
  obtain ⟨id, hid, hx⟩ := hx
  obtain ⟨hid, hnot⟩ := List.mem_filter.mp hid
  cases hu : t.upperLevel with
  | none =>
    have hone := (hl0 hu).1
    omega
  | some u =>
    obtain ⟨above', upper, rfl, hids⟩ := hupper u hu
    rw [List.length_append, List.length_singleton] at hlower
    rw [List.append_assoc, List.singleton_append] at hlevels
    have hmem : (u, upper) ∈ s.levels := by
      rw [hlevels]
      exact List.mem_append_right _ List.mem_cons_self
    have hulabel := (hlevels ▸ hlabels).eq_length
    rcases Nat.lt_or_ge level.1 u with hltu | hge
    · obtain ⟨⟨other, hother, hy⟩, -⟩ := hy
      exact hold level hlevel (u, upper) hmem hltu x y ⟨id, hid, hx⟩ ⟨other, hids ▸ hother, hy⟩ hk
    · obtain rfl : level = (u, upper) :=
        (hlevels ▸ hlabels).eq_of_label (hlevels ▸ hlevel) (by simp only at hulabel ⊢; omega)
      exact absurd (hids ▸ hid) (of_decide_eq_true hnot)

/-- The call leaves nothing older above what it moves down. -/
def Op.KeepsOrder (e : LsmStorageInner) : Op → Prop
  | .compact => ∀ t, e.compactionController.generateCompactionTask e.state = .ok (some (.leveled t)) →
      LeavesNoneOlder e.state (.leveled t) t.upperLevelSstIds t.lowerLevel
  | _ => True

/-- The tables that leave the map do not matter to the levels. -/
theorem Compacted.moved {s₁ : LsmStorageState MemTable} {removed : List ℕ}
    (h : Compacted e e' task output s₁ removed)
    (hmoved : Moved e.state s₁ upperIds lowerIds lowerLevel outputIds) :
    Moved e.state e'.state upperIds lowerIds lowerLevel outputIds := by
  rw [h.state]
  exact ⟨hmoved.l0Sstables, hmoved.installed, hmoved.thinned⟩

theorem Settled.ageOrdered_compact_iff (h : e.Settled options contents) (hage : e.state.AgeOrdered)
    (hstep : Step e .compact e') : e'.state.AgeOrdered ↔ Op.compact.KeepsOrder e := by
  have hlaid' := h.laid.step hstep
  rcases triggerCompaction_ok hstep with ⟨hnone, rfl⟩ | ⟨task, output, s, removed, hcompacted⟩
  · refine iff_of_true hage fun t ht => ?_
    rw [hnone] at ht
    cases ht
  obtain ⟨cs, hrep, hsteady, htiers⟩ := hcompacted.steady h.steady h.laid h.tiers
  have hrew := hrep.rewritten h ⟨hlaid', hsteady, htiers⟩
  have hplan := planned_self hcompacted.generated
  have hinstalls := hcompacted.installs h.laid
  have hgenerated := hcompacted.generated
  have hnodup := h.laid.listed_nodup
  cases task with
  | forceFullCompaction l0 l1 => exact (ofKind_of_generated hplan.generated).elim
  | simple t =>
    obtain ⟨o, ho, hpicked, -, hpicks⟩ := hplan.simple h.laid
    obtain ⟨-, hmoved, -⟩ := hplan.apply_simple h.laid hinstalls.apply
    have hdown : MovedDown e.state e'.state (.simple t) t.upperLevel t.upperLevelSstIds t.lowerLevelSstIds
        t.lowerLevel (output.map SsTable.id) :=
      ⟨hnodup, hpicks, rfl, fun hu => (hpicked.2 hu).2, hcompacted.moved hmoved, hrew⟩
    refine iff_of_true ((hdown.ageOrdered_iff hage).mpr
      (leavesNoneOlder_simple hage hpicked hpicks.labels)) fun t' ht' => ?_
    rw [hgenerated] at ht'
    cases ht'
  | leveled t =>
    obtain ⟨o, ho, hpicked, -, hpicks, -⟩ := hplan.leveled h.laid
    obtain ⟨-, hmoved, -⟩ := hplan.moves_leveled h.steady h.laid hinstalls
    have hdown : MovedDown e.state e'.state (.leveled t) t.upperLevel t.upperLevelSstIds t.lowerLevelSstIds
        t.lowerLevel (output.map SsTable.id) :=
      ⟨hnodup, hpicks, rfl, hpicked.2.1, hcompacted.moved hmoved, hrew⟩
    rw [hdown.ageOrdered_iff hage]
    refine ⟨fun hnone t' ht' => ?_, fun hall => hall t hgenerated⟩
    rw [hgenerated] at ht'
    cases ht'
    exact hnone
  | tiered t =>
    obtain ⟨contents', -, hmerged⟩ := hcompacted.merged h.steady h.laid
    obtain ⟨-, hl0, hl0', o, -, newer, older, -, -, hold, hnew⟩ :=
      hplan.merges_tiers h.laid h.tiers hmerged hinstalls
    have hl0'' : e'.state.l0Sstables = e.state.l0Sstables := by
      rw [hcompacted.state, hl0]
      exact hl0'
    have hnew' : e'.state.levels = newer ++ (o, output.map SsTable.id) :: older := by
      rw [hcompacted.state]
      exact hnew
    refine iff_of_true (hrew.ageOrdered_tiers hnodup hage rfl hl0'' hl0 hold hnew') fun t' ht' => ?_
    rw [hgenerated] at ht'
    cases ht'

theorem Settled.ageOrdered_iff (h : e.Settled options contents) (hage : e.state.AgeOrdered) (hfits : op.Fits)
    (hstep : Step e op e') : e'.state.AgeOrdered ↔ op.KeepsOrder e := by
  cases op with
  | writeBatch batch =>
    refine iff_of_true ?_ trivial
    obtain ⟨ts, d, e₁, hnext, -, hfreeze, rfl⟩ := writeBatch_ok hstep
    have hput : (e.afterPut (batch.map (WriteBatchRecord.entry ts)) d).state.AgeOrdered :=
      h.ageOrdered_put hage (lt_of_nextTs hnext) fun x hx => by
        obtain ⟨record, -, rfl⟩ := List.mem_map.mp hx
        rfl
    rcases tryFreeze_ok hfreeze with rfl | ⟨-, m, hfroze⟩
    · exact hput
    · exact hfroze.ageOrdered hput
  | freeze =>
    obtain ⟨m, hfroze⟩ := forceFreezeMemtable_ok hstep
    exact iff_of_true (hfroze.ageOrdered hage) trivial
  | flush =>
    refine iff_of_true ?_ trivial
    rcases forceFlushNextImmMemtable_ok hstep with ⟨-, rfl⟩ | ⟨m, builder, hflushed⟩
    · exact hage
    · exact h.ageOrdered_flush hage hflushed
  | compact => exact h.ageOrdered_compact_iff hage hstep
  | fullCompact => exact iff_of_true (h.ageOrdered_fullCompact hage hstep) trivial

theorem Fresh.ageOrdered (hfresh : Fresh options e) : e.state.AgeOrdered := by
  obtain ⟨m, hnew⟩ := hfresh.isNew
  have hnone : ∀ x, ¬e.state.Has x := by
    intro x hx
    rw [hnew.state] at hx
    rcases hx with ⟨m', hm', hx⟩ | ⟨id, hid, -⟩
    · obtain rfl := List.mem_singleton.mp hm'
      rw [hnew.empty] at hx
      cases hx
    · rw [listedIds_create] at hid
      cases hid
  exact List.pairwise_of_forall_mem_list fun S hS _ _ x _ hx => absurd (has_of_mem_versions hS hx) (hnone x)

/-- **When the containers stay in the order of their age**, for every strategy: in all states of a run they
are exactly when each leveled compaction of it leaves nothing older above what it moves down. -/
theorem age_ordered_iff (hblock : options.blockSize ≤ 65535) (hfresh : Fresh options e₀)
    (hrun : RunOf (fun _ op => op.Fits) e₀ ops e) :
    (∀ before after t, ops = before ++ after → RunOf (fun _ op => op.Fits) e₀ before t →
        t.state.AgeOrdered) ↔ RunOf (fun e op => op.Fits ∧ op.KeepsOrder e) e₀ ops e := by
  rw [hrun.forall_states_iff (fun t => ∃ contents, t.Settled options contents) (fun t => t.state.AgeOrdered)
    (fun t op => op.KeepsOrder t) (fun _ _ _ _ h h' => h.2.unique h'.2) ?_
    ⟨_, hfresh.settled hblock⟩ hfresh.ageOrdered]
  · exact ⟨fun h => h.mono fun _ _ _ h => ⟨⟨h.2.1, h.1⟩, h.2.2⟩,
      fun h => h.mono fun _ _ _ h => ⟨h.1.2, h.1.1, h.2⟩⟩
  · rintro t op u ⟨contents, hsettled⟩ hage ⟨hfits, hstep⟩
    exact ⟨hsettled.ageOrdered_iff hage hfits hstep, fun _ => hsettled.step hfits hstep⟩

/-- All tables above the lower level of a leveled task are taken. -/
def Op.takesAbove (e : LsmStorageInner) : Op → Bool
  | .compact => match e.compactionController.generateCompactionTask e.state with
    | .ok (some (.leveled t)) => e.state.levels.all fun level =>
        !decide (level.1 < t.lowerLevel) || level.2.all (· ∈ t.upperLevelSstIds)
    | _ => true
  | _ => true

theorem Op.keepsOrder_of_takesAbove (h : op.takesAbove e = true) : op.KeepsOrder e := by
  cases op with
  | compact =>
    intro t ht level hlevel hlt x y hx
    simp only [takesAbove, ht, List.all_eq_true, Bool.or_eq_true, Bool.not_eq_true', decide_eq_false_iff_not,
      decide_eq_true_eq] at h
    obtain ⟨id, hid, -⟩ := hx
    obtain ⟨hid, hnot⟩ := List.mem_filter.mp hid
    exact absurd ((h level hlevel).resolve_left (not_not_intro hlt) id hid) (of_decide_eq_true hnot)
  | writeBatch batch => trivial
  | freeze => trivial
  | flush => trivial
  | fullCompact => trivial

/-- The table that was built from some entries has them. -/
theorem tableHas_of_ofEntries {blockSize id : ℕ} {es : List Entry} {x : Entry} (hblock : blockSize ≤ 65535)
    (hs : SortedRun es) (henc : ∀ x ∈ es, Encodable x)
    (hlookup : s.sstables.lookup id = (SsTable.ofEntries blockSize id es).toOption) (hx : x ∈ es) :
    s.TableHas id x := by
  obtain ⟨t, ht, hent, -⟩ := SsTable.ofEntries_spec hblock (List.ne_nil_of_mem hx) hs henc id
  rw [ht] at hlookup
  exact ⟨t, es, hlookup, hent, hx⟩

end LsmStorageInner

section

attribute [local instance] shortKeyPlatform

namespace LsmStorageInner

/-- Leveled compaction into two levels, with tables of one or two entries. -/
def twoLevels : LsmStorageOptions := ⟨30, 10, 50, .leveled ⟨2, 0, 2, 0⟩, false⟩

/-- A table in the lowest level, and then versions of another key in a table of the level above it. -/
def versionsAbove (values : List Bytes) : List Op :=
  [.writeBatch [.put [9] [9]], .flush, .compact] ++ values.map (fun v => .writeBatch [.put [1] v]) ++
    values.map (fun _ => .flush) ++ [.compact]

/-- Two versions that are in one table. -/
theorem age_ordered_iff_small : ∃ e : LsmStorageInner, e.state.levels = [(1, []), (2, [6, 2])] ∧
    RunOf (fun _ op => op.Fits) (newStore twoLevels) (versionsAbove [[7], [8]] ++ [.compact]) e ∧
    ∀ before after t, versionsAbove [[7], [8]] ++ [.compact] = before ++ after →
      RunOf (fun _ op => op.Fits) (newStore twoLevels) before t → t.state.AgeOrdered := by
  have hfinal : (execAll (fun e op => if op.takesAbove e then afterCall e op else none)
      (versionsAbove [[7], [8]] ++ [.compact]) (newStore twoLevels)).map
        (fun e => decide (e.state.levels = [(1, []), (2, [6, 2])])) = some true := by
    decide +kernel
  obtain ⟨e, he, hlevels⟩ := Option.map_eq_some_iff.mp hfinal
  have hfits : ∀ op ∈ versionsAbove [[7], [8]] ++ [.compact], op.Fits := by
    simp [versionsAbove, Op.Fits, WriteBatchRecord.key, WriteBatchRecord.value]
  have hrun : RunOf (fun e op => op.KeepsOrder e) (newStore twoLevels)
      (versionsAbove [[7], [8]] ++ [.compact]) e := by
    refine run_of_execAll (fun e op e' hcall => ?_) he
    split at hcall
    · exact ⟨Op.keepsOrder_of_takesAbove ‹_›, step_of_afterCall hcall⟩
    · cases hcall
  have hrun' : RunOf (fun e op => op.Fits ∧ op.KeepsOrder e) (newStore twoLevels)
      (versionsAbove [[7], [8]] ++ [.compact]) e :=
    hrun.mono_of_mem fun op hop _ _ h => ⟨⟨hfits op hop, h.1⟩, h.2⟩
  have hrun'' : RunOf (fun _ op => op.Fits) (newStore twoLevels) (versionsAbove [[7], [8]] ++ [.compact]) e :=
    hrun'.mono fun _ _ _ h => ⟨h.1.1, h.2⟩
  exact ⟨e, of_decide_eq_true hlevels, hrun'',
    (age_ordered_iff (by decide) (fresh_newStore twoLevels) hrun'').mpr hrun'⟩

/-- **A leveled compaction leaves an older version above newer ones**: of three versions the oldest one is in
a table of its own, which stays in the first level when the other two move down. -/
theorem older_version_stays_above : ∃ e : LsmStorageInner,
    RunOf (fun _ op => op.Fits) (newStore twoLevels) (versionsAbove [[7], [8], [6]] ++ [.compact]) e ∧
      e.state.levels = [(1, [7]), (2, [8, 2])] ∧ e.state.TableHas 7 (⟨[1], 2⟩, [7]) ∧
      e.state.TableHas 8 (⟨[1], 4⟩, [6]) ∧ ¬e.state.AgeOrdered := by
  have hfinal : (afterCalls (versionsAbove [[7], [8], [6]] ++ [.compact]) (newStore twoLevels)).map
      (fun e => decide (e.state.levels = [(1, [7]), (2, [8, 2])] ∧
        e.state.sstables.lookup 7 = (SsTable.ofEntries 30 7 [(⟨[1], 2⟩, [7])]).toOption ∧
        e.state.sstables.lookup 8 =
          (SsTable.ofEntries 30 8 [(⟨[1], 4⟩, [6]), (⟨[1], 3⟩, [8])]).toOption)) = some true := by
    decide +kernel
  obtain ⟨e, he, hsummary⟩ := Option.map_eq_some_iff.mp hfinal
  obtain ⟨hlevels, hupper, hlower⟩ := of_decide_eq_true hsummary
  have hfits : ∀ op ∈ versionsAbove [[7], [8], [6]] ++ [.compact], op.Fits := by
    simp [versionsAbove, Op.Fits, WriteBatchRecord.key, WriteBatchRecord.value]
  have hold : e.state.TableHas 7 (⟨[1], 2⟩, [7]) :=
    tableHas_of_ofEntries (by decide) (List.pairwise_singleton _ _)
      (List.forall_mem_singleton.mpr ⟨by decide, by decide, by decide⟩) hupper (List.mem_singleton_self _)
  have hnew : e.state.TableHas 8 (⟨[1], 4⟩, [6]) :=
    tableHas_of_ofEntries (by decide) (by unfold SortedRun; decide) (List.forall_mem_cons.mpr
      ⟨⟨by decide, by decide, by decide⟩, List.forall_mem_singleton.mpr ⟨by decide, by decide, by decide⟩⟩)
      hlower List.mem_cons_self
  refine ⟨e, (run_of_afterCalls he).mono_of_mem fun op hop _ _ h => ⟨hfits op hop, h.2⟩, hlevels, hold, hnew,
    fun hage => ?_⟩
  have hordered := (LsmStorageState.ageOrdered_iff.mp hage).levels
  rw [hlevels] at hordered
  have hlt := (List.pairwise_cons.mp hordered).1 _ (List.mem_singleton_self _) _ _
    ⟨7, List.mem_singleton_self 7, hold⟩ ⟨8, List.mem_cons_self, hnew⟩ rfl
  exact absurd hlt (by decide)

end LsmStorageInner

end

end TinyLsm

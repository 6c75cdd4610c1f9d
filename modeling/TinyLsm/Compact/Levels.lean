import TinyLsm.LsmStorage.State
import TinyLsm.Compact.Task

/-!
# The level list of a leveled tree

`Labelled levels`: level `i` carries the label `i + 1`.

The two leveled controllers take tables of one level and of the level above it, or of L0, which
`PicksFrom` describes.  `Installed` says what the levels are when the inputs have left and the output
is in the lower level: every other id stays in its level.
-/

namespace TinyLsm

variable {M : Type} {s : LsmStorageState M} {levels levels' above below : List (ℕ × List ℕ)}
  {level : ℕ × List ℕ}

/-! ## Labels -/

/-- The labels are `1`, `2`, … -/
def Labelled (levels : List (ℕ × List ℕ)) : Prop := levels.map Prod.fst = List.range' 1 levels.length

theorem Labelled.congr (h : Labelled levels) (hlabels : levels'.map Prod.fst = levels.map Prod.fst) :
    Labelled levels' := by
  have hlen : levels'.length = levels.length := by simpa using congrArg List.length hlabels
  unfold Labelled
  rw [hlabels, hlen]
  exact h

theorem labelled_range (n : ℕ) : Labelled ((List.range n).map fun level => (level + 1, [])) := by
  unfold Labelled
  rw [List.map_map, List.length_map, List.length_range, List.range'_eq_map_range]
  refine List.map_congr_left fun i _ => ?_
  exact Nat.add_comm i 1

theorem Labelled.eq_length (h : Labelled (above ++ level :: below)) : level.1 = above.length + 1 := by
  have hget : ((above ++ level :: below).map Prod.fst)[above.length]? = some level.1 := by simp
  rw [h, List.getElem?_range' (by simp)] at hget
  have heq := Option.some.inj hget
  omega

theorem split_of_getElem? {α : Type} {l : List α} {i : ℕ} {a : α} (h : l[i]? = some a) :
    ∃ pre post, l = pre ++ a :: post ∧ pre.length = i := by
  obtain ⟨hlt, rfl⟩ := List.getElem?_eq_some_iff.mp h
  refine ⟨l.take i, l.drop (i + 1), ?_, ?_⟩
  · rw [← List.drop_eq_getElem_cons, List.take_append_drop]
  · rw [List.length_take]
    omega

/-- The level with the label `n`. -/
theorem Labelled.split (h : Labelled levels) {n : ℕ} (hn : 1 ≤ n) (hget : levels[n - 1]? = some level) :
    level.1 = n ∧ ∃ above below, levels = above ++ level :: below := by
  obtain ⟨above, below, rfl, hlen⟩ := split_of_getElem? hget
  refine ⟨?_, above, below, rfl⟩
  rw [h.eq_length]
  omega

/-- A relation between the levels, from the upper ones to the lower ones. -/
theorem Labelled.pairwise_iff (h : Labelled levels)
    {R : ℕ × List ℕ → ℕ × List ℕ → Prop} :
    levels.Pairwise R ↔ ∀ a ∈ levels, ∀ b ∈ levels, a.1 < b.1 → R a b := by
  have hlt : levels.Pairwise fun a b => a.1 < b.1 := by
    have hsorted : (levels.map Prod.fst).Pairwise (· < ·) := by
      rw [h]
      exact List.pairwise_lt_range'
    exact List.pairwise_map.mp hsorted
  constructor
  · intro hR a ha b hb hab
    have hpair : levels.Pairwise fun a b => (a.1 < b.1 → R a b) ∧ (b.1 < a.1 → R b a) :=
      hR.imp₂ (fun a b hR hlt => ⟨fun _ => hR, fun hgt => absurd hlt hgt.not_gt⟩) hlt
    have : Std.Symm fun a b : ℕ × List ℕ => (a.1 < b.1 → R a b) ∧ (b.1 < a.1 → R b a) :=
      ⟨fun _ _ h => h.symm⟩
    exact (hpair.forall ha hb fun heq => hab.ne (congrArg Prod.fst heq)).1 hab
  · intro hR
    exact hlt.imp_of_mem fun {a b} ha hb hab => hR a ha b hb hab

theorem Labelled.nodup (h : Labelled levels) : (levels.map Prod.fst).Nodup := by
  rw [h]
  exact List.nodup_range'

theorem Labelled.ne_of_mem (h : Labelled (above ++ level :: below)) {other : ℕ × List ℕ}
    (hother : other ∈ above ++ below) : other.1 ≠ level.1 := by
  have hnodup := h.nodup
  rw [List.map_append, List.map_cons, List.nodup_middle, List.nodup_cons, ← List.map_append] at hnodup
  intro heq
  exact hnodup.1 (heq ▸ List.mem_map_of_mem hother)

/-! ## Distinct ids -/

/-- An id of one level is nowhere else. -/
theorem notMem_other (h : s.listedIds.Nodup) (hlevels : s.levels = above ++ level :: below) {id : ℕ}
    (hid : id ∈ level.2) : id ∉ s.l0Sstables ∧ ∀ other ∈ above ++ below, id ∉ other.2 := by
  unfold LsmStorageState.listedIds at h
  rw [hlevels, List.map_append, List.map_cons, List.nodup_append, List.nodup_flatten,
    List.pairwise_middle (fun hd => hd.symm), List.pairwise_cons] at h
  obtain ⟨-, ⟨-, hdis, -⟩, hl0⟩ := h
  refine ⟨fun hmem => ?_, ?_⟩
  · exact hl0 id hmem id (List.mem_flatten.mpr ⟨level.2, by simp, hid⟩) rfl
  · intro other hother hmem
    rw [← List.map_append] at hdis
    exact hdis other.2 (List.mem_map_of_mem hother) hid hmem

theorem nodup_level (h : s.listedIds.Nodup) (hlevel : level ∈ s.levels) : level.2.Nodup :=
  (List.nodup_flatten.mp (List.nodup_append.mp h).2.1).1 _ (List.mem_map_of_mem hlevel)

theorem notMem_level_of_mem_l0 (h : s.listedIds.Nodup) {id : ℕ} (hid : id ∈ s.l0Sstables)
    (hlevel : level ∈ s.levels) : id ∉ level.2 := by
  intro hmem
  exact (List.nodup_append.mp h).2.2 id hid id
    (List.mem_flatten.mpr ⟨level.2, List.mem_map_of_mem hlevel, hmem⟩) rfl

/-! ## Picking inputs -/

/-- The inputs of a task are tables of one level and of the level above it, if the task names one. -/
def PicksFrom (R : List ℕ → List ℕ → Prop) (levels : List (ℕ × List ℕ)) (upperLevel : Option ℕ)
    (upperIds : List ℕ) (lowerLevel : ℕ) (lowerIds : List ℕ) : Prop :=
  ∃ above lower below, levels = above ++ (lowerLevel, lower) :: below ∧ R lowerIds lower ∧
    ∀ u ∈ upperLevel, ∃ above' upper, above = above' ++ [(u, upper)] ∧ R upperIds upper

theorem PicksFrom.mono {R R' : List ℕ → List ℕ → Prop} (hR : ∀ ids ids', R ids ids' → R' ids ids')
    {upperLevel : Option ℕ} {upperIds lowerIds : List ℕ} {lowerLevel : ℕ}
    (h : PicksFrom R levels upperLevel upperIds lowerLevel lowerIds) :
    PicksFrom R' levels upperLevel upperIds lowerLevel lowerIds := by
  obtain ⟨above, lower, below, hlevels, hlower, hupper⟩ := h
  refine ⟨above, lower, below, hlevels, hR _ _ hlower, fun u hu => ?_⟩
  obtain ⟨above', upper, habove, hids⟩ := hupper u hu
  exact ⟨above', upper, habove, hR _ _ hids⟩

/-! ## Installing the output -/

/-- The inputs have left their levels and the output is in the lower level. -/
def Installed (inputs output : List ℕ) (lowerLevel : ℕ) : List (ℕ × List ℕ) → List (ℕ × List ℕ) → Prop :=
  List.Forall₂ fun level level' => level'.1 = level.1 ∧
    level'.2.Perm (level.2.filter (· ∉ inputs) ++ if level.1 = lowerLevel then output else [])

variable {inputs output : List ℕ} {lowerLevel : ℕ}

theorem Installed.labels (h : Installed inputs output lowerLevel levels levels') :
    levels'.map Prod.fst = levels.map Prod.fst := by
  induction h with
  | nil => rfl
  | cons hlevel _ ih => rw [List.map_cons, List.map_cons, hlevel.1, ih]

/-- Where the ids of a level come from. -/
theorem Installed.source {level' : ℕ × List ℕ} (h : Installed inputs output lowerLevel levels levels')
    (hlevel : level' ∈ levels') : ∃ level ∈ levels, level'.1 = level.1 ∧ ∀ id ∈ level'.2,
      (id ∈ level.2 ∧ id ∉ inputs) ∨ (level.1 = lowerLevel ∧ id ∈ output) := by
  obtain ⟨level, hmem, hlabel, hperm⟩ := exists_of_mem_right h hlevel
  refine ⟨level, hmem, hlabel, fun id hid => ?_⟩
  rcases List.mem_append.mp (hperm.subset hid) with hid | hid
  · obtain ⟨hid, hnot⟩ := List.mem_filter.mp hid
    exact Or.inl ⟨hid, of_decide_eq_true hnot⟩
  · split at hid
    · exact Or.inr ⟨‹_›, hid⟩
    · cases hid

/-- Where the ids of a level go. -/
theorem Installed.target {level : ℕ × List ℕ} (h : Installed inputs output lowerLevel levels levels')
    (hlevel : level ∈ levels) : ∃ level' ∈ levels', level'.1 = level.1 ∧
      (∀ id ∈ level.2, id ∉ inputs → id ∈ level'.2) ∧ (level.1 = lowerLevel → ∀ id ∈ output, id ∈ level'.2) := by
  obtain ⟨level', hmem, hlabel, hperm⟩ := exists_of_mem_left h hlevel
  refine ⟨level', hmem, hlabel, fun id hid hnot => ?_, fun heq id hid => ?_⟩
  · exact hperm.symm.subset (List.mem_append_left _ (List.mem_filter.mpr ⟨hid, decide_eq_true hnot⟩))
  · refine hperm.symm.subset (List.mem_append_right _ ?_)
    rwa [if_pos heq]

/-- Levels without inputs stay as they are. -/
theorem Installed.refl (h : ∀ level ∈ levels, level.1 ≠ lowerLevel ∧ ∀ id ∈ level.2, id ∉ inputs) :
    Installed inputs output lowerLevel levels levels := by
  refine List.forall₂_same.mpr fun level hlevel => ⟨rfl, ?_⟩
  obtain ⟨hne, hids⟩ := h level hlevel
  rw [if_neg hne, List.append_nil, List.filter_eq_self.mpr (by simpa using hids)]

theorem Installed.append {above' below' : List (ℕ × List ℕ)}
    (h : Installed inputs output lowerLevel above above')
    (h' : Installed inputs output lowerLevel below below') :
    Installed inputs output lowerLevel (above ++ below) (above' ++ below') := List.rel_append h h'

/-- A level that is not the lower one loses the inputs. -/
theorem Installed.upper {label : ℕ} {ids : List ℕ} (hne : label ≠ lowerLevel)
    (h : Installed inputs output lowerLevel levels levels') :
    Installed inputs output lowerLevel ((label, ids) :: levels)
      ((label, ids.filter (· ∉ inputs)) :: levels') := by
  refine .cons ⟨rfl, ?_⟩ h
  rw [if_neg hne, List.append_nil]

theorem Installed.lower {ids ids' : List ℕ} (hids : ids'.Perm (ids.filter (· ∉ inputs) ++ output))
    (h : Installed inputs output lowerLevel levels levels') :
    Installed inputs output lowerLevel ((lowerLevel, ids) :: levels)
      ((lowerLevel, ids') :: levels') := by
  refine .cons ⟨rfl, ?_⟩ h
  rw [if_pos rfl]
  exact hids

/-- **All ids but the inputs stay, and the output comes in.** -/
theorem Installed.perm (h : Installed inputs output lowerLevel levels levels')
    (hnodup : (levels.map Prod.fst).Nodup) :
    (levels'.map Prod.snd).flatten.Perm ((levels.map Prod.snd).flatten.filter (· ∉ inputs) ++
      if lowerLevel ∈ levels.map Prod.fst then output else []) := by
  induction h with
  | nil => simp
  | @cons level level' levels levels' hlevel hrest ih =>
    rw [List.map_cons, List.nodup_cons] at hnodup
    have hperm := hlevel.2.append (ih hnodup.2)
    rw [List.map_cons, List.map_cons, List.map_cons, List.flatten_cons, List.flatten_cons,
      List.filter_append]
    refine hperm.trans ?_
    by_cases heq : level.1 = lowerLevel
    · have hnot : lowerLevel ∉ levels.map Prod.fst := heq ▸ hnodup.1
      rw [if_pos heq, if_neg hnot, if_pos (by rw [heq]; exact List.mem_cons_self), List.append_nil,
        List.append_assoc, List.append_assoc]
      exact List.perm_append_comm.append_left _
    · have hiff : lowerLevel ∈ level.1 :: levels.map Prod.fst ↔ lowerLevel ∈ levels.map Prod.fst := by
        rw [List.mem_cons]
        exact or_iff_right (Ne.symm heq)
      simp only [if_neg heq, List.append_nil, hiff, List.append_assoc, List.Perm.refl]

/-- The same for the listed ids, when the inputs have left L0 too. -/
theorem Installed.listed_perm {s' : LsmStorageState M}
    (h : Installed inputs output lowerLevel s.levels s'.levels)
    (hl0 : s'.l0Sstables = s.l0Sstables.filter (· ∉ inputs)) (hnodup : (s.levels.map Prod.fst).Nodup)
    (hmem : lowerLevel ∈ s.levels.map Prod.fst) :
    s'.listedIds.Perm (s.listedIds.filter (· ∉ inputs) ++ output) := by
  have hperm := h.perm hnodup
  rw [if_pos hmem] at hperm
  unfold LsmStorageState.listedIds
  rw [hl0, List.filter_append, List.append_assoc]
  exact hperm.append_left _

/-- The levels but the lower one are parts of levels that were there. -/
def Thinned (lowerLevel : ℕ) (levels levels' : List (ℕ × List ℕ)) : Prop :=
  ∀ level' ∈ levels', level'.1 ≠ lowerLevel → ∃ level ∈ levels, level'.2.Sublist level.2

theorem thinned_l0 (ids ids' : List ℕ) : Thinned lowerLevel (above ++ (lowerLevel, ids) :: below)
    (above ++ (lowerLevel, ids') :: below) := by
  intro level' hlevel hne
  refine ⟨level', ?_, List.Sublist.refl _⟩
  rcases List.mem_append.mp hlevel with hlevel | hlevel
  · exact List.mem_append_left _ hlevel
  · rcases List.mem_cons.mp hlevel with rfl | hlevel
    · exact absurd rfl hne
    · exact List.mem_append_right _ (List.mem_cons_of_mem _ hlevel)

theorem thinned_level {u : ℕ} {upper upper' : List ℕ} (hsub : upper'.Sublist upper) (ids ids' : List ℕ) :
    Thinned lowerLevel (above ++ (u, upper) :: (lowerLevel, ids) :: below)
      (above ++ (u, upper') :: (lowerLevel, ids') :: below) := by
  intro level' hlevel hne
  rcases List.mem_append.mp hlevel with hlevel | hlevel
  · exact ⟨level', List.mem_append_left _ hlevel, List.Sublist.refl _⟩
  · rcases List.mem_cons.mp hlevel with rfl | hlevel
    · exact ⟨(u, upper), List.mem_append_right _ List.mem_cons_self, hsub⟩
    · rcases List.mem_cons.mp hlevel with rfl | hlevel
      · exact absurd rfl hne
      · refine ⟨level', ?_, List.Sublist.refl _⟩
        exact List.mem_append_right _ (List.mem_cons_of_mem _ (List.mem_cons_of_mem _ hlevel))

/-- Of the levels with distinct labels only one is the lower one. -/
theorem Labelled.eq_of_label (h : Labelled (above ++ level :: below)) {level' : ℕ × List ℕ}
    (hlevel : level' ∈ above ++ level :: below) (hlabel : level'.1 = level.1) : level' = level := by
  by_contra hne
  have hother : level' ∈ above ++ below := by
    rcases List.mem_append.mp hlevel with hlevel | hlevel
    · exact List.mem_append_left _ hlevel
    · rcases List.mem_cons.mp hlevel with heq | hlevel
      · exact absurd heq hne
      · exact List.mem_append_right _ hlevel
  exact h.ne_of_mem hother hlabel

/-! ## Where the inputs are -/

section Inputs

variable {u lowerLevel : ℕ} {upper lower upperIds lowerIds output ids' : List ℕ}

/-- Taking ids out of a list that has none of the others. -/
theorem filter_append_right {ids : List ℕ} (h : ∀ id ∈ ids, id ∉ lowerIds) :
    ids.filter (· ∉ upperIds ++ lowerIds) = ids.filter (· ∉ upperIds) := by
  refine List.filter_congr fun id hid => ?_
  simp [h id hid]

theorem filter_append_left {ids : List ℕ} (h : ∀ id ∈ ids, id ∉ upperIds) :
    ids.filter (· ∉ upperIds ++ lowerIds) = ids.filter (· ∉ lowerIds) := by
  refine List.filter_congr fun id hid => ?_
  simp [h id hid]

theorem filter_notMem_self (ids : List ℕ) : ids.filter (· ∉ ids) = [] := by
  rw [List.filter_eq_nil_iff]
  intro id hid
  simp [hid]

/-- **A compaction of L0 and one level.** -/
theorem installed_l0 (hlabels : Labelled s.levels) (hnodup : s.listedIds.Nodup)
    (hlevels : s.levels = above ++ (lowerLevel, lower) :: below)
    (hupper : ∀ id ∈ upperIds, id ∈ s.l0Sstables) (hlower : ∀ id ∈ lowerIds, id ∈ lower)
    (hids : ids'.Perm (lower.filter (· ∉ lowerIds) ++ output)) :
    s.l0Sstables.filter (· ∉ upperIds ++ lowerIds) = s.l0Sstables.filter (· ∉ upperIds) ∧
      Installed (upperIds ++ lowerIds) output lowerLevel s.levels
        (above ++ (lowerLevel, ids') :: below) := by
  have hlow := fun id hid => notMem_other hnodup hlevels (hlower id hid)
  have hmem : (lowerLevel, lower) ∈ s.levels := by
    rw [hlevels]
    exact List.mem_append_right _ List.mem_cons_self
  refine ⟨filter_append_right fun id hid hlowid => (hlow id hlowid).1 hid, ?_⟩
  have hother : ∀ level ∈ above ++ below, level.1 ≠ lowerLevel ∧
      ∀ id ∈ level.2, id ∉ upperIds ++ lowerIds := by
    intro level hlevel
    have hlevel' : level ∈ s.levels := by
      rw [hlevels]
      exact (List.sublist_append_right [_] below).append_left above |>.subset hlevel
    rw [hlevels] at hlabels
    refine ⟨hlabels.ne_of_mem hlevel, fun id hid hin => ?_⟩
    rcases List.mem_append.mp hin with hin | hin
    · exact notMem_level_of_mem_l0 hnodup (hupper id hin) hlevel' hid
    · exact (hlow id hin).2 level hlevel hid
  have hsame : lower.filter (· ∉ upperIds ++ lowerIds) = lower.filter (· ∉ lowerIds) :=
    filter_append_left fun id hid hin => notMem_level_of_mem_l0 hnodup (hupper id hin) hmem hid
  rw [← hsame] at hids
  rw [hlevels]
  exact (Installed.refl fun level hlevel => hother level (List.mem_append_left _ hlevel)).append
    (.lower hids (Installed.refl fun level hlevel => hother level (List.mem_append_right _ hlevel)))

/-- **A compaction of two adjacent levels.** -/
theorem installed_level (hlabels : Labelled s.levels) (hnodup : s.listedIds.Nodup)
    (hlevels : s.levels = above ++ (u, upper) :: (lowerLevel, lower) :: below)
    (hupper : ∀ id ∈ upperIds, id ∈ upper) (hlower : ∀ id ∈ lowerIds, id ∈ lower)
    (hids : ids'.Perm (lower.filter (· ∉ lowerIds) ++ output)) :
    s.l0Sstables.filter (· ∉ upperIds ++ lowerIds) = s.l0Sstables ∧
      Installed (upperIds ++ lowerIds) output lowerLevel s.levels
        (above ++ (u, upper.filter (· ∉ upperIds)) :: (lowerLevel, ids') :: below) := by
  have hlevels' : s.levels = (above ++ [(u, upper)]) ++ (lowerLevel, lower) :: below := by
    rw [hlevels, List.append_assoc]
    rfl
  have hup := fun id hid => notMem_other hnodup hlevels (hupper id hid)
  have hlow := fun id hid => notMem_other hnodup hlevels' (hlower id hid)
  refine ⟨List.filter_eq_self.mpr fun id hid => ?_, ?_⟩
  · have hnot : id ∉ upperIds := fun hin => (hup id hin).1 hid
    have hnot' : id ∉ lowerIds := fun hin => (hlow id hin).1 hid
    simp [hnot, hnot']
  have hother : ∀ level ∈ above ++ below, level.1 ≠ lowerLevel ∧
      ∀ id ∈ level.2, id ∉ upperIds ++ lowerIds := by
    intro level hlevel
    have hmem : level ∈ above ++ [(u, upper)] ++ below :=
      ((List.sublist_append_left above [(u, upper)]).append_right below).subset hlevel
    have hmem' : level ∈ above ++ (lowerLevel, lower) :: below :=
      ((List.sublist_append_right [_] below).append_left above).subset hlevel
    have hlabels' := hlabels
    rw [hlevels'] at hlabels'
    refine ⟨hlabels'.ne_of_mem hmem, fun id hid hin => ?_⟩
    rcases List.mem_append.mp hin with hin | hin
    · exact (hup id hin).2 level hmem' hid
    · exact (hlow id hin).2 level hmem hid
  have hupmem : (u, upper) ∈ above ++ [(u, upper)] ++ below := by simp
  have hlowmem : (lowerLevel, lower) ∈ above ++ (lowerLevel, lower) :: below := by simp
  have hupfilter : upper.filter (· ∉ upperIds ++ lowerIds) = upper.filter (· ∉ upperIds) :=
    filter_append_right fun id hid hin => (hlow id hin).2 _ hupmem hid
  have hlowfilter : lower.filter (· ∉ upperIds ++ lowerIds) = lower.filter (· ∉ lowerIds) :=
    filter_append_left fun id hid hin => (hup id hin).2 _ hlowmem hid
  have hne : u ≠ lowerLevel := by
    rw [hlevels'] at hlabels
    exact hlabels.ne_of_mem hupmem
  rw [← hlowfilter] at hids
  rw [← hupfilter, hlevels]
  exact (Installed.refl fun level hlevel => hother level (List.mem_append_left _ hlevel)).append
    (.upper hne (.lower hids
      (Installed.refl fun level hlevel => hother level (List.mem_append_right _ hlevel))))

end Inputs

end TinyLsm

import TinyLsm.Compact.Leveled

/-!
# The target sizes of leveled compaction

The targets are set from the bottom level upwards.  The levels with a target are the lowest ones, and
of these all but the topmost are above the base level size (`Shaped`).  The bottom level is never
above its target, so it is never picked.

The results about priorities are for exact quotients: `ExactPriority`.
-/

namespace TinyLsm

namespace LeveledCompactionController

variable {M : Type} {options : LeveledCompactionOptions}

/-! ## The shape of the targets -/

/-- `base_level_size_bytes`. -/
def baseLevelSizeBytes (options : LeveledCompactionOptions) : ℕ := options.baseLevelSizeMb * 1024 * 1024

/-- The levels with a target are a suffix, in which all but the topmost are above the base level size. -/
def Shaped (options : LeveledCompactionOptions) (targets : List ℕ) : Prop :=
  ∃ k sizes, targets = List.replicate k 0 ++ sizes ∧ (∀ t ∈ sizes, t ≠ 0) ∧
    ∀ t ∈ sizes.tail, baseLevelSizeBytes options < t

theorem shaped_singleton (options : LeveledCompactionOptions) (t : ℕ) : Shaped options [t] := by
  by_cases ht : t = 0
  · exact ⟨1, [], by rw [ht]; rfl, by simp, by simp⟩
  · exact ⟨0, [t], rfl, by simpa using ht, by simp⟩

/-- One more level: without a target, or above a level that is larger than the base level size. -/
theorem Shaped.cons {next : ℕ} {targets : List ℕ} (h : Shaped options (next :: targets)) (t : ℕ) :
    Shaped options
      ((if next > baseLevelSizeBytes options then t else 0) :: next :: targets) := by
  obtain ⟨k, sizes, htargets, hne, htail⟩ := h
  by_cases hnew : (if next > baseLevelSizeBytes options then t else 0) = 0
  · refine ⟨k + 1, sizes, ?_, hne, htail⟩
    rw [hnew, htargets]
    rfl
  · have hnext : next > baseLevelSizeBytes options := by
      by_contra hle
      exact hnew (if_neg hle)
    have hk : k = 0 := by
      by_contra hk
      obtain ⟨k, rfl⟩ := Nat.exists_eq_succ_of_ne_zero hk
      rw [List.replicate_succ, List.cons_append] at htargets
      have hzero := (List.cons.inj htargets).1
      omega
    subst hk
    rw [List.replicate_zero, List.nil_append] at htargets
    subst htargets
    refine ⟨0, _, rfl, ?_, ?_⟩
    · rintro u (_ | ⟨_, hu⟩)
      · exact hnew
      · exact hne u hu
    · rintro u (_ | ⟨_, hu⟩)
      · exact hnext
      · exact htail u hu

/-- **What the loop sets**: a target for every level above, and the base level. -/
theorem targetLoop_spec {n baseLevel baseLevel' : ℕ} {next : ℕ} {targets targets' : List ℕ}
    (hshaped : Shaped options (next :: targets))
    (h : targetLoop options n (next :: targets) baseLevel = .ok (targets', baseLevel')) :
    (∃ upper, targets' = upper ++ next :: targets ∧ upper.length = n) ∧ Shaped options targets' ∧
      (baseLevel' = baseLevel ∨ 1 ≤ baseLevel' ∧ baseLevel' ≤ n) := by
  induction n generalizing next targets baseLevel with
  | zero =>
    cases h
    exact ⟨⟨[], rfl, rfl⟩, hshaped, Or.inl rfl⟩
  | succ n ih =>
    have hindex : index (next :: targets) 0 = .ok next := rfl
    rw [targetLoop, hindex] at h
    simp only [bind, Except.bind] at h
    split at h
    · cases h
    · obtain ⟨⟨upper, rfl, hlen⟩, hshaped', hbase⟩ := ih (hshaped.cons _) h
      refine ⟨⟨_, List.append_cons upper _ _, ?_⟩, hshaped', ?_⟩
      · rw [List.length_append, List.length_singleton, hlen]
      · rcases hbase with hbase | hbase
        · split_ifs at hbase <;> omega
        · exact Or.inr ⟨hbase.1, by omega⟩

theorem exists_targetLoop (hmultiplier : 1 ≤ options.levelSizeMultiplier) (n next baseLevel : ℕ)
    (targets : List ℕ) :
    ∃ r, targetLoop options n (next :: targets) baseLevel = .ok r := by
  induction n generalizing next targets baseLevel with
  | zero => exact ⟨_, rfl⟩
  | succ n ih =>
    have hindex : index (next :: targets) 0 = .ok next := rfl
    rw [targetLoop, hindex]
    simp only [bind, Except.bind, if_neg (show ¬ options.levelSizeMultiplier = 0 by omega)]
    exact ih _ _ _

/-- **What the targets are**: one for every level, of which the last is not below the size of the
bottom level, and a base level of the tree. -/
theorem targetLevelSize_spec {real targets : List ℕ} {baseLevel : ℕ}
    (h : targetLevelSize options real = .ok (targets, baseLevel)) :
    1 ≤ options.maxLevels ∧ targets.length = options.maxLevels ∧ Shaped options targets ∧
      1 ≤ baseLevel ∧ baseLevel ≤ options.maxLevels ∧
      ∃ r t, real[options.maxLevels - 1]? = some r ∧ targets[options.maxLevels - 1]? = some t ∧
        r ≤ t := by
  simp only [targetLevelSize, Outcome.bind_eq_ok_iff, index_eq_ok_iff] at h
  obtain ⟨lastLevel, hlast, r, hr, hloop⟩ := h
  obtain ⟨hmax, rfl⟩ := usizeSub_eq_ok_iff.mp hlast
  obtain ⟨⟨upper, rfl, hlen⟩, hshaped, hbase⟩ := targetLoop_spec (shaped_singleton options _) hloop
  refine ⟨hmax, ?_, hshaped, by omega, by omega, r, max r (options.baseLevelSizeMb * 1024 * 1024), hr,
    ?_, le_max_left _ _⟩
  · rw [List.length_append, List.length_singleton]
    omega
  · rw [← hlen, List.getElem?_append_right le_rfl, Nat.sub_self]
    rfl

theorem exists_targetLevelSize (hmax : 1 ≤ options.maxLevels)
    (hmultiplier : 1 ≤ options.levelSizeMultiplier) {real : List ℕ}
    (hreal : options.maxLevels ≤ real.length) :
    ∃ targets baseLevel, targetLevelSize options real = .ok (targets, baseLevel) := by
  have hindex : index real (options.maxLevels - 1) = .ok real[options.maxLevels - 1] :=
    index_eq_ok_iff.mpr (List.getElem?_eq_getElem _)
  obtain ⟨⟨targets, baseLevel⟩, hloop⟩ := exists_targetLoop hmultiplier (options.maxLevels - 1)
    (max real[options.maxLevels - 1] (options.baseLevelSizeMb * 1024 * 1024)) options.maxLevels []
  refine ⟨targets, baseLevel, ?_⟩
  simp only [targetLevelSize, usizeSub_of_le hmax, bind, Except.bind, hindex]
  exact hloop

/-! ## Priorities -/

/-- Priorities are quotients, without rounding. -/
def ExactPriority [Platform] : Prop :=
  ∀ real target : ℕ, Platform.levelPriority real target = real / target

/-- **Which levels have a priority**: those above a target. -/
theorem mem_priorities_iff [Platform] (hexact : ExactPriority) {real targets : List ℕ} {p : ℚ × ℕ} :
    p ∈ priorities real targets ↔ ∃ i r t : ℕ, real[i]? = some r ∧ targets[i]? = some t ∧ t ≠ 0 ∧
      t < r ∧ p = ((r : ℚ) / t, i + 1) := by
  have hgt : ∀ r t : ℕ, t ≠ 0 → ((r : ℚ) / t > 1 ↔ t < r) := by
    intro r t ht
    rw [gt_iff_lt, one_lt_div (by exact_mod_cast Nat.pos_of_ne_zero ht)]
    exact Nat.cast_lt
  unfold priorities
  rw [List.mem_insertionSort, List.mem_filterMap]
  constructor
  · rintro ⟨⟨⟨r, t⟩, i⟩, hmem, hp⟩
    rw [List.mem_zipIdx_iff_getElem?, List.getElem?_zip_eq_some] at hmem
    simp only [hexact r t] at hp
    split at hp
    · cases hp
    · rename_i ht
      split at hp
      · rename_i hpriority
        exact ⟨i, r, t, hmem.1, hmem.2, ht, (hgt r t ht).mp hpriority, (Option.some.inj hp).symm⟩
      · cases hp
  · rintro ⟨i, r, t, hr, ht, hne, hlt, rfl⟩
    refine ⟨⟨⟨r, t⟩, i⟩, ?_, ?_⟩
    · rw [List.mem_zipIdx_iff_getElem?, List.getElem?_zip_eq_some]
      exact ⟨hr, ht⟩
    · simp only [hexact r t]
      rw [if_neg hne, if_pos ((hgt r t hne).mpr hlt)]

/-- No level has a priority: every level with a target is within it. -/
theorem priorities_eq_nil_iff [Platform] (hexact : ExactPriority) {real targets : List ℕ} :
    priorities real targets = [] ↔
      ∀ i r t : ℕ, real[i]? = some r → targets[i]? = some t → t ≠ 0 → r ≤ t := by
  rw [List.eq_nil_iff_forall_not_mem]
  constructor
  · intro h i r t hr ht hne
    by_contra hlt
    exact h _ ((mem_priorities_iff hexact).mpr ⟨i, r, t, hr, ht, hne, by omega, rfl⟩)
  · rintro h p hp
    obtain ⟨i, r, t, hr, ht, hne, hlt, -⟩ := (mem_priorities_iff hexact).mp hp
    have hle := h i r t hr ht hne
    omega

/-- **When there is no task**: L0 is not above the trigger and no level has a priority. -/
theorem generateCompactionTask_eq_none_iff [Platform] {s : LsmStorageState M} :
    generateCompactionTask options s = .ok none ↔
      s.l0Sstables.length ≤ options.level0FileNumCompactionTrigger ∧
        ∃ real targets baseLevel, realLevelSize s = .ok real ∧
          targetLevelSize options real = .ok (targets, baseLevel) ∧ priorities real targets = [] := by
  unfold generateCompactionTask
  rw [Outcome.bind_eq_ok_iff]
  constructor
  · rintro ⟨real, hreal, h⟩
    obtain ⟨⟨targets, baseLevel⟩, htargets, h⟩ := Outcome.bind_eq_ok_iff.mp h
    simp only at h
    split at h
    · obtain ⟨lowerIds, -, h⟩ := Outcome.bind_eq_ok_iff.mp h
      cases h
    · rename_i hl0
      split at h
      · rename_i hpriorities
        exact ⟨by omega, real, targets, baseLevel, hreal, htargets, hpriorities⟩
      · simp only [Outcome.bind_eq_ok_iff] at h
        obtain ⟨upper, -, selectedSst, -, lowerIds, -, h⟩ := h
        cases h
  · rintro ⟨hl0, real, targets, baseLevel, hreal, htargets, hpriorities⟩
    refine ⟨real, hreal, Outcome.bind_eq_ok_iff.mpr ⟨_, htargets, ?_⟩⟩
    simp only
    rw [if_neg (by omega), hpriorities]
    rfl

end LeveledCompactionController

end TinyLsm

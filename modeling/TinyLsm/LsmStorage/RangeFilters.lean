import TinyLsm.LsmStorage.Read

/-!
# The two range filters (`table/iterator.rs`, `lsm_storage.rs`)

A scan leaves out a table that ends before the range or starts after it.  `lsm_storage::range_overlap`
compares user keys.  `SsTableIterator::range_overlap` compares versioned keys, and gives the bounds
the timestamp `TS_DEFAULT`, which makes them the last version of their user key.  A table whose last
key is an older version of an included lower bound then seems to end before the range.

`rangeOverlap_iff` says of each filter when it keeps a table, and `rangeFilters_agree_iff` compares them.
-/

namespace TinyLsm

/-- `KeyBytes::for_testing_from_bytes_no_ts`. -/
def Key.noTs (bound : Bytes) : Key := ⟨bound, tsDefault⟩

namespace SsTableIterator

/-- The first `match` of `range_overlap`: the table ends before the range. -/
def endsBefore (tableUpper : Key) : Bound Bytes → Bool
  | .excluded bound => Key.noTs bound ≥ tableUpper
  | .included bound => Key.noTs bound > tableUpper
  | .unbounded => false

/-- The second `match`: the table starts after the range. -/
def startsAfter (tableLower : Key) : Bound Bytes → Bool
  | .excluded bound => Key.noTs bound ≤ tableLower
  | .included bound => Key.noTs bound < tableLower
  | .unbounded => false

/-- `SsTableIterator::range_overlap`. -/
def rangeOverlap (table : SsTable) (lower upper : Bound Bytes) : Bool :=
  if endsBefore table.lastKey lower then false
  else if startsAfter table.firstKey upper then false
  else true

end SsTableIterator

variable {t : SsTable} {lower upper : Bound Bytes} {first last : Key}

/-- Bounds on user keys: the table reaches into the range. -/
theorem rangeOverlap_iff : rangeOverlap lower upper first last = true ↔
    lower.AboveLower last.keyRef ∧ upper.BelowUpper first.keyRef := by
  unfold rangeOverlap
  rw [Bool.and_eq_true, and_comm]
  refine and_congr ?_ ?_
  · cases lower <;> simp [Bound.AboveLower]
  · cases upper <;> simp [Bound.BelowUpper]

theorem Key.lt_noTs_iff {k : Bytes} {a : Key} :
    a < noTs k ↔ a.keyRef < k ∨ a.keyRef = k ∧ a.ts ≠ 0 := by
  rw [lt_def]
  exact or_congr_right (and_congr_right' UInt64.pos_iff_ne_zero)

theorem Key.noTs_le_iff {k : Bytes} {a : Key} :
    noTs k ≤ a ↔ k < a.keyRef ∨ k = a.keyRef ∧ a.ts = 0 := by
  rw [le_def]
  refine or_congr_right (and_congr_right' ?_)
  show a.ts ≤ 0 ↔ a.ts = 0
  rw [le_iff_eq_or_lt, or_iff_left (by simp)]

namespace SsTableIterator

/-- An included lower bound misses the versions of its user key with a timestamp. -/
theorem endsBefore_eq_false_iff : endsBefore last lower = false ↔
    lower.AboveLower last.keyRef ∧ (lower = .included last.keyRef → last.ts = 0) := by
  cases lower with
  | unbounded => simp [endsBefore, Bound.AboveLower]
  | excluded b =>
    rw [endsBefore, decide_eq_false_iff_not]
    change ¬ last ≤ ⟨b, tsRangeEnd⟩ ↔ b < last.keyRef ∧ _
    rw [Key.le_rangeEnd_iff, not_le]
    simp
  | included b =>
    rw [endsBefore, decide_eq_false_iff_not, gt_iff_lt, Key.lt_noTs_iff, not_or, not_lt, not_and,
      not_not, Bound.included.injEq, eq_comm]
    rfl

/-- An excluded upper bound keeps the versions of its user key with a timestamp. -/
theorem startsAfter_eq_false_iff : startsAfter first upper = false ↔
    upper.BelowUpper first.keyRef ∨ upper = .excluded first.keyRef ∧ first.ts ≠ 0 := by
  cases upper with
  | unbounded => simp [startsAfter, Bound.BelowUpper]
  | included b =>
    rw [startsAfter, decide_eq_false_iff_not]
    change ¬ (⟨b, tsRangeEnd⟩ : Key) < first ↔ first.keyRef ≤ b ∨ _
    rw [Key.rangeEnd_lt_iff, not_lt]
    simp
  | excluded b =>
    rw [startsAfter, decide_eq_false_iff_not, Key.noTs_le_iff, Bound.excluded.injEq]
    change _ ↔ first.keyRef < b ∨ _
    rcases lt_trichotomy b first.keyRef with h | h | h
    · simp [h, h.not_gt, h.ne]
    · simp [h]
    · simp [h, h.not_gt, h.ne']

theorem rangeOverlap_iff : rangeOverlap t lower upper = true ↔
    (lower.AboveLower t.lastKey.keyRef ∧ (lower = .included t.lastKey.keyRef → t.lastKey.ts = 0)) ∧
      (upper.BelowUpper t.firstKey.keyRef ∨
        upper = .excluded t.firstKey.keyRef ∧ t.firstKey.ts ≠ 0) := by
  rw [← endsBefore_eq_false_iff, ← startsAfter_eq_false_iff, rangeOverlap]
  cases endsBefore t.lastKey lower <;> cases startsAfter t.firstKey upper <;> simp

end SsTableIterator

/-- **When the two filters agree and are sound.**  They part only at the user keys of the first and
last key of a table whose versions there have timestamps. -/
theorem rangeFilters_agree_iff {es : List Entry} (hes : ∀ e ∈ es, t.firstKey ≤ e.1 ∧ e.1 ≤ t.lastKey)
    (lower upper : Bound Bytes) :
    (SsTableIterator.rangeOverlap t lower upper = rangeOverlap lower upper t.firstKey t.lastKey ∧
      ∀ e ∈ es, lower.AboveLower e.1.keyRef → upper.BelowUpper e.1.keyRef →
        SsTableIterator.rangeOverlap t lower upper = true ∧
          rangeOverlap lower upper t.firstKey t.lastKey = true) ↔
      (lower = .included t.lastKey.keyRef → t.lastKey.ts ≠ 0 →
        ¬ upper.BelowUpper t.firstKey.keyRef) ∧
      (upper = .excluded t.firstKey.keyRef → t.firstKey.ts ≠ 0 → lower.AboveLower t.lastKey.keyRef →
        lower = .included t.lastKey.keyRef ∧ t.lastKey.ts ≠ 0) := by
  have hsound : ∀ e ∈ es, lower.AboveLower e.1.keyRef → upper.BelowUpper e.1.keyRef →
      rangeOverlap lower upper t.firstKey t.lastKey = true := fun e he =>
    LsmStorageState.rangeOverlap_of_mem (Key.keyRef_le_of_le (hes e he).1) (Key.keyRef_le_of_le (hes e he).2)
  have hagree : (SsTableIterator.rangeOverlap t lower upper =
        rangeOverlap lower upper t.firstKey t.lastKey ∧
      ∀ e ∈ es, lower.AboveLower e.1.keyRef → upper.BelowUpper e.1.keyRef →
        SsTableIterator.rangeOverlap t lower upper = true ∧
          rangeOverlap lower upper t.firstKey t.lastKey = true) ↔
      (SsTableIterator.rangeOverlap t lower upper = true ↔
        rangeOverlap lower upper t.firstKey t.lastKey = true) := by
    rw [← Bool.eq_iff_iff]
    refine and_iff_left_of_imp fun heq e he hl hu => ?_
    rw [heq]
    exact ⟨hsound e he hl hu, hsound e he hl hu⟩
  rw [hagree, SsTableIterator.rangeOverlap_iff, rangeOverlap_iff]
  -- the bounds themselves are on their own side of the range
  have hincluded : lower = .included t.lastKey.keyRef → lower.AboveLower t.lastKey.keyRef := by
    rintro rfl
    exact le_rfl
  have hexcluded : upper = .excluded t.firstKey.keyRef → ¬ upper.BelowUpper t.firstKey.keyRef := by
    rintro rfl
    exact lt_irrefl t.firstKey.keyRef
  constructor
  · intro h
    refine ⟨fun hl hts hu => ?_, fun hu hts hl => ?_⟩
    · exact hts ((h.mpr ⟨hincluded hl, hu⟩).1.2 hl)
    · by_contra hnot
      have hlast : lower = .included t.lastKey.keyRef → t.lastKey.ts = 0 := fun hl =>
        by_contra fun hts => hnot ⟨hl, hts⟩
      exact hexcluded hu (h.mp ⟨⟨hl, hlast⟩, Or.inr ⟨hu, hts⟩⟩).2
  · rintro ⟨hlower, hupper⟩
    constructor
    · rintro ⟨⟨hl, hlast⟩, hu | ⟨hu, hts⟩⟩
      · exact ⟨hl, hu⟩
      · obtain ⟨hl', hts'⟩ := hupper hu hts hl
        exact absurd (hlast hl') hts'
    · rintro ⟨hl, hu⟩
      exact ⟨⟨hl, fun hl' => by_contra fun hts => hlower hl' hts hu⟩, Or.inl hu⟩

section

attribute [local instance] shortKeyPlatform

/-- The table of the key `a` at timestamp 1. -/
def oneKeyTable : Outcome SsTable := SsTable.ofEntries 4096 1 [(⟨[97], 1⟩, [7])]

/-- A scan from `a` on, its bound excluded: the filters agree. -/
theorem rangeFilters_agree_oneKeyTable : ∃ t, oneKeyTable = .ok t ∧
    SsTableIterator.rangeOverlap t (.excluded [97]) .unbounded =
      rangeOverlap (.excluded [97]) .unbounded t.firstKey t.lastKey := by
  have hkeys : oneKeyTable.toOption.map (fun t => (t.firstKey, t.lastKey)) =
      some (⟨[97], 1⟩, ⟨[97], 1⟩) := by
    decide +kernel
  rcases htable : oneKeyTable with e | t
  · rw [htable] at hkeys
    cases hkeys
  rw [htable] at hkeys
  obtain ⟨hfirst, hlast⟩ := Prod.mk.inj (Option.some.inj hkeys)
  have hes : ∀ e ∈ [((⟨[97], 1⟩ : Key), ([7] : Bytes))], t.firstKey ≤ e.1 ∧ e.1 ≤ t.lastKey := by
    rw [hfirst, hlast]
    decide
  exact ⟨t, rfl, ((rangeFilters_agree_iff hes (.excluded [97]) .unbounded).mpr
    ⟨by rintro ⟨⟩, by rintro ⟨⟩⟩).1⟩

/-- With the bound included the table is left out of a scan that asks for its only entry. -/
theorem rangeFilters_differ : ∃ t, oneKeyTable = .ok t ∧
    ¬ (SsTableIterator.rangeOverlap t (.included [97]) .unbounded =
        rangeOverlap (.included [97]) .unbounded t.firstKey t.lastKey ∧
      ∀ e ∈ [((⟨[97], 1⟩ : Key), ([7] : Bytes))], (Bound.included ([97] : Bytes)).AboveLower e.1.keyRef →
        (Bound.unbounded : Bound Bytes).BelowUpper e.1.keyRef →
          SsTableIterator.rangeOverlap t (.included [97]) .unbounded = true ∧
            rangeOverlap (.included [97]) .unbounded t.firstKey t.lastKey = true) := by
  have hanswers : oneKeyTable.toOption.map (fun t =>
      (SsTableIterator.rangeOverlap t (.included [97]) .unbounded,
        rangeOverlap (.included [97]) .unbounded t.firstKey t.lastKey)) = some (false, true) := by
    decide +kernel
  rcases htable : oneKeyTable with e | t
  · rw [htable] at hanswers
    cases hanswers
  rw [htable] at hanswers
  obtain ⟨hsst, hlsm⟩ := Prod.mk.inj (Option.some.inj hanswers)
  refine ⟨t, rfl, fun h => ?_⟩
  rw [hsst, hlsm] at h
  exact Bool.false_ne_true h.1

end

end TinyLsm

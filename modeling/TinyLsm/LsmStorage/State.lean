import TinyLsm.MemTable

/-!
# The state of the engine (`lsm_storage.rs`)

`LsmStorageState` is generic in the type `M` of its memtables.  Where only one call runs at a time
`M` is `MemTable`; where calls interleave it is a reference to a memtable that several states share.
-/

namespace TinyLsm

/-! ## Options -/

/-- When a level is small enough in comparison with the one below it. -/
structure SimpleLeveledCompactionOptions where
  sizeRatioPercent : ℕ
  level0FileNumCompactionTrigger : ℕ
  maxLevels : ℕ
  deriving DecidableEq, Repr

/-- How much larger every level may be than the one above it. -/
structure LeveledCompactionOptions where
  levelSizeMultiplier : ℕ
  level0FileNumCompactionTrigger : ℕ
  maxLevels : ℕ
  baseLevelSizeMb : ℕ
  deriving DecidableEq, Repr

/-- How many tiers there may be and which of them are merged. -/
structure TieredCompactionOptions where
  numTiers : ℕ
  maxSizeAmplificationPercent : ℕ
  sizeRatio : ℕ
  minMergeWidth : ℕ
  maxMergeWidth : Option ℕ
  deriving DecidableEq, Repr

/-- Which controller is used, and its options. -/
inductive CompactionOptions where
  | leveled (options : LeveledCompactionOptions)
  | tiered (options : TieredCompactionOptions)
  | simple (options : SimpleLeveledCompactionOptions)
  | noCompaction
  deriving DecidableEq, Repr

/-- The options of a store. -/
structure LsmStorageOptions where
  blockSize : ℕ
  targetSstSize : ℕ
  numMemtableLimit : ℕ
  compactionOptions : CompactionOptions
  enableWal : Bool
  deriving DecidableEq, Repr

/-! ## The state -/

/-- `HashMap<usize, Arc<SsTable>>`. -/
abbrev SstMap := AList fun _ : ℕ => SsTable

/-- The memtables, the ids of the tables in L0 and the levels, and the tables themselves. -/
structure LsmStorageState (M : Type) where
  memtable : M
  /-- From latest to earliest. -/
  immMemtables : List M
  /-- From latest to earliest. -/
  l0Sstables : List ℕ
  /-- L1 to the last level, or the tiers, latest first. -/
  levels : List (ℕ × List ℕ)
  sstables : SstMap

namespace LsmStorageState

variable {M : Type}

/-- The levels of a new store. -/
def initialLevels : CompactionOptions → List (ℕ × List ℕ)
  | .leveled options => (List.range options.maxLevels).map fun level => (level + 1, [])
  | .simple options => (List.range options.maxLevels).map fun level => (level + 1, [])
  | .tiered _ => []
  | .noCompaction => [(1, [])]

/-- `LsmStorageState::create`, around the first memtable. -/
def create (options : LsmStorageOptions) (memtable : M) : LsmStorageState M :=
  { memtable
    immMemtables := []
    l0Sstables := []
    levels := initialLevels options.compactionOptions
    sstables := ∅ }

/-- The ids in `l0_sstables` and `levels`. -/
def listedIds (s : LsmStorageState M) : List ℕ := s.l0Sstables ++ (s.levels.map Prod.snd).flatten

/-- `sstables[id]`. -/
def table (s : LsmStorageState M) (id : ℕ) : Outcome SsTable :=
  Outcome.ofOption (.panic "no entry found for key") (s.sstables.lookup id)

theorem table_eq {s : LsmStorageState M} {id : ℕ} {t : SsTable} (h : s.sstables.lookup id = some t) :
    s.table id = .ok t := by
  rw [table, h]
  rfl

theorem table_eq_ok_iff {s : LsmStorageState M} {id : ℕ} {t : SsTable} :
    s.table id = .ok t ↔ s.sstables.lookup id = some t := Outcome.ofOption_eq_ok_iff

/-- Tables of the map can be looked up together. -/
theorem exists_mapM_table {s : LsmStorageState M} {ids : List ℕ}
    (h : ∀ id ∈ ids, ∃ t, s.sstables.lookup id = some t) : ∃ tables, ids.mapM s.table = .ok tables :=
  exists_mapM fun id hid => (h id hid).imp fun _ ht => table_eq ht

/-- The table `id` is in the map and holds the entries `es`. -/
def TableHolds [Platform] (s : LsmStorageState M) (id : ℕ) (es : List Entry) : Prop :=
  ∃ t, s.sstables.lookup id = some t ∧ t.HasEntries es

theorem mem_listedIds {s : LsmStorageState M} {id : ℕ} :
    id ∈ s.listedIds ↔ id ∈ s.l0Sstables ∨ ∃ level ∈ s.levels, id ∈ level.2 := by
  simp only [listedIds, List.mem_append, List.mem_flatten, List.mem_map, exists_exists_and_eq_and]

/-- A new store has levels without tables. -/
theorem eq_nil_of_mem_initialLevels {options : CompactionOptions} {level : ℕ × List ℕ}
    (h : level ∈ initialLevels options) : level.2 = [] := by
  cases options with
  | leveled options =>
    obtain ⟨i, -, rfl⟩ := List.mem_map.mp h
    rfl
  | tiered options => cases h
  | simple options =>
    obtain ⟨i, -, rfl⟩ := List.mem_map.mp h
    rfl
  | noCompaction =>
    rw [List.mem_singleton.mp h]

theorem listedIds_create (options : LsmStorageOptions) (memtable : M) :
    (create options memtable).listedIds = [] := by
  rw [List.eq_nil_iff_forall_not_mem]
  intro id hid
  rcases mem_listedIds.mp hid with hid | ⟨level, hlevel, hid⟩
  · cases hid
  · rw [eq_nil_of_mem_initialLevels hlevel] at hid
    cases hid

end LsmStorageState

end TinyLsm

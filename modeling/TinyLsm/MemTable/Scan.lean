import TinyLsm.MemTable

/-!
# What a memtable enumerates

`put` and `put_batch` take any key.  The iterator of a scan marks its end by an item with the empty
key, which is the smallest one: a stored version of the empty key comes first in every range that
has it, and ends the scan before it starts.

`enumerates_iff`: a scan hands out all stored versions of its range, and a flush adds all of them to
the builder, exactly when none of these versions has the empty key.
-/

namespace TinyLsm

namespace MemTable

open StorageIterator

/-- A call that writes to a memtable. -/
inductive Call where
  | put (key : Key) (value : Bytes)
  | putBatch (data : List Entry)

/-- The entries that a call is given. -/
def Call.entries : Call → List Entry
  | .put key value => [(key, value)]
  | .putBatch data => data

/-- The stored versions whose user key lies in the bounds. -/
def versionsIn (m : MemTable) (lower upper : Bound Bytes) : List Entry :=
  m.map.entries.filter fun e => lower.AboveLower e.1.keyRef ∧ upper.BelowUpper e.1.keyRef

/-- The scan hands out the stored versions in the bounds, in the order of their keys. -/
def ScansExactly (m : MemTable) (lower upper : Bound Bytes) : Prop :=
  ∀ n, (m.versionsIn lower upper).length ≤ n →
    collect n (m.scan lower upper) = some (m.versionsIn lower upper)

section

variable [Platform]

/-- The function that a call runs. -/
def Call.run : Call → Effect Fault (MemTable × Disk) Unit
  | .put key value => MemTable.put key value
  | .putBatch data => MemTable.putBatch data

/-- The memtable after some calls, whatever they return. -/
def afterCalls (calls : List Call) (m : MemTable) (d : Disk) : MemTable :=
  (calls.foldl (fun p call => (call.run.exec p).2) (m, d)).1

/-- The flush adds every stored version to the builder. -/
def FlushesAll (m : MemTable) : Prop := ∀ builder, m.flush builder = builder.addAll m.map.entries

end

variable {m : MemTable} {lower upper : Bound Bytes}

/-! ## Scanning -/

theorem range_eq_versionsIn (m : MemTable) (lower upper : Bound Bytes) :
    m.map.range (mapBoundLower lower) (mapBoundUpper upper) = m.versionsIn lower upper := by
  unfold SkipMap.range versionsIn
  refine List.filter_congr fun e _ => ?_
  rw [decide_eq_decide, aboveLower_mapBoundLower, belowUpper_mapBoundUpper]

theorem sorted_versionsIn (m : MemTable) (lower upper : Bound Bytes) :
    SortedRun (m.versionsIn lower upper) := m.map.sorted.filter _

/-- The empty key is the smallest one. -/
theorem head_key_eq_nil {l : List Entry} {a e : Entry} (hs : SortedRun (a :: l)) (he : e ∈ a :: l)
    (hkey : e.1.keyRef = []) : a.1.keyRef = [] := by
  have hle := Key.keyRef_le_of_le (hs.head_le he)
  rw [hkey] at hle
  cases ha : a.1.keyRef with
  | nil => rfl
  | cons b bs =>
    rw [ha] at hle
    exact absurd hle (not_le.mpr (List.nil_lt_cons b bs))

/-- **A scan is exact if and only if no version in its bounds has the empty key.** -/
theorem scansExactly_iff : m.ScansExactly lower upper ↔
    ∀ e ∈ m.versionsIn lower upper, e.1.keyRef ≠ [] := by
  have hscan : m.scan lower upper =
      (MemTableIterator.next ⟨m.versionsIn lower upper, (Key.new, [])⟩).2 := by
    unfold scan
    rw [range_eq_versionsIn]
  constructor
  · intro hexact e he hkey
    have hs := sorted_versionsIn m lower upper
    unfold ScansExactly at hexact
    rw [hscan] at hexact
    cases hversions : m.versionsIn lower upper with
    | nil =>
      rw [hversions] at he
      cases he
    | cons a l =>
      rw [hversions] at he hs hexact
      have hinvalid : isValid (⟨l, a⟩ : MemTableIterator) = false := by
        change (!a.1.keyRef.isEmpty) = false
        rw [head_key_eq_nil hs he hkey]
        rfl
      have hcollect := hexact (l.length + 1) (Nat.le_refl _)
      rw [show (MemTableIterator.next ⟨a :: l, (Key.new, [])⟩).2 = ⟨l, a⟩ from rfl, collect,
        if_neg (by rw [hinvalid]; exact Bool.false_ne_true)] at hcollect
      cases hcollect
  · intro hkeys n hn
    rw [hscan]
    exact (MemTableIterator.yields_next hkeys _).collect hn

/-! ## Flushing -/

variable [Platform]

/-- **A flush is complete if and only if no stored version has the empty key.** -/
theorem flushesAll_iff : m.FlushesAll ↔ ∀ e ∈ m.map.entries, e.1.keyRef ≠ [] := by
  constructor
  · intro hflush
    have hadd := hflush (SsTableBuilder.new 0)
    rw [flush_eq_flushed] at hadd
    obtain ⟨b, -, -, hb, -⟩ := SsTableBuilder.addAll_spec m.flushed (SsTableBuilder.new_tracks 0)
      fun e he => key_ne_of_mem_flushed he
    rw [hb] at hadd
    exact SsTableBuilder.keys_ne_of_addAll hadd.symm
  · intro hkeys builder
    exact flush_eq hkeys builder

/-! ## Any calls -/

/-- What some calls have stored was given to them. -/
theorem exists_afterCalls (calls : List Call) (m : MemTable) (d : Disk) :
    ∃ es, (afterCalls calls m d).map = m.map.insertAll es ∧
      ∀ e ∈ es, ∃ call ∈ calls, e ∈ call.entries := by
  unfold afterCalls
  induction calls generalizing m d with
  | nil => exact ⟨[], rfl, by simp⟩
  | cons call calls ih =>
    obtain ⟨es, d₁, hrun, hes⟩ : ∃ es d₁, (call.run.exec (m, d)).2 = (m.insertAll es, d₁) ∧
        ∀ e ∈ es, e ∈ call.entries := by
      cases call with
      | put key value =>
        obtain ⟨o, d₁, hput, -⟩ := put_exec key value m d
        refine ⟨[(key, value)], d₁, ?_, fun e he => he⟩
        rw [Call.run, hput]
        rfl
      | putBatch data =>
        obtain ⟨o, d₁, n, hput, -⟩ := putBatch_exec data m d
        refine ⟨data.take n, d₁, ?_, fun e he => List.mem_of_mem_take he⟩
        rw [Call.run, hput]
    obtain ⟨es', hmap, hes'⟩ := ih (m.insertAll es) d₁
    refine ⟨es ++ es', ?_, fun e he => ?_⟩
    · rw [List.foldl_cons, hrun, hmap, insertAll_map, SkipMap.insertAll_append]
    · rcases List.mem_append.mp he with he | he
      · exact ⟨call, List.mem_cons_self, hes e he⟩
      · obtain ⟨call', hcall, hmem⟩ := hes' e he
        exact ⟨call', List.mem_cons_of_mem _ hcall, hmem⟩

/-- Calls with non-empty keys store no empty key. -/
theorem keysNonempty_afterCalls {calls : List Call} (hm : m.KeysNonempty)
    (hcalls : ∀ call ∈ calls, ∀ e ∈ call.entries, e.1.keyRef ≠ []) (d : Disk) :
    (afterCalls calls m d).KeysNonempty := by
  obtain ⟨es, hmap, hes⟩ := exists_afterCalls calls m d
  intro x hx
  rw [hmap] at hx
  rcases SkipMap.mem_insertAll.mp hx with hlast | ⟨-, hx⟩
  · obtain ⟨call, hcall, hmem⟩ := hes x (List.mem_filter.mp (List.mem_of_getLast? hlast)).1
    exact hcalls call hcall x hmem
  · exact hm x hx

/-- **What a memtable enumerates after any calls**: all stored versions, unless one of them has the
empty key. -/
theorem enumerates_iff (calls : List Call) (m : MemTable) (d : Disk) :
    (∀ lower upper, (afterCalls calls m d).ScansExactly lower upper ↔
      ∀ e ∈ (afterCalls calls m d).map.entries, lower.AboveLower e.1.keyRef →
        upper.BelowUpper e.1.keyRef → e.1.keyRef ≠ []) ∧
    ((afterCalls calls m d).FlushesAll ↔
      ∀ e ∈ (afterCalls calls m d).map.entries, e.1.keyRef ≠ []) := by
  refine ⟨fun lower upper => ?_, flushesAll_iff⟩
  rw [scansExactly_iff]
  simp only [versionsIn, List.mem_filter, decide_eq_true_eq, and_imp]

end MemTable

section

attribute [local instance] shortKeyPlatform

namespace MemTable

/-- The empty key hides the key `[1]`, from a scan and from a flush. -/
theorem empty_key_ends_scan :
    ¬ (afterCalls [.put ⟨[], 1⟩ [7], .put ⟨[1], 2⟩ [8]] (create 0) Disk.empty).ScansExactly .unbounded
      .unbounded ∧
    ¬ (afterCalls [.put ⟨[], 1⟩ [7], .put ⟨[1], 2⟩ [8]] (create 0) Disk.empty).FlushesAll := by
  have hentries : (afterCalls [.put ⟨[], 1⟩ [7], .put ⟨[1], 2⟩ [8]] (create 0) Disk.empty).map.entries =
      [(⟨[], 1⟩, [7]), (⟨[1], 2⟩, [8])] := by
    decide +kernel
  refine ⟨fun hscan => ?_, fun hflush => ?_⟩
  · refine scansExactly_iff.mp hscan (⟨[], 1⟩, [7]) ?_ rfl
    unfold versionsIn
    rw [hentries]
    decide
  · refine flushesAll_iff.mp hflush (⟨[], 1⟩, [7]) ?_ rfl
    rw [hentries]
    exact List.mem_cons_self

end MemTable

end

end TinyLsm

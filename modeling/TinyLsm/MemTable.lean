import TinyLsm.Wal
import TinyLsm.Iterators.StorageIterator
import TinyLsm.Table.Builder

/-!
# Memtables (`mem_table.rs`)

A memtable is a sorted map with an optional log.  `put` inserts into the map first and appends to
the log afterwards, so a failed append leaves the entry in the map.

The iterator of a scan marks its end by an item with an empty key.  As long as no stored key is
empty it hands out the entries of the range (`scan_yields`), and `flush` adds exactly the entries
of the map to the builder (`flush_eq`).
-/

namespace TinyLsm

/-- `map_bound_lower`: a bound on user keys as a bound on versioned keys. -/
def mapBoundLower : Bound Bytes → Bound Key
  | .included k => .included ⟨k, tsRangeBegin⟩
  | .excluded k => .excluded ⟨k, tsRangeEnd⟩
  | .unbounded => .unbounded

/-- An upper bound on keys as one on versioned keys. -/
def mapBoundUpper : Bound Bytes → Bound Key
  | .included k => .included ⟨k, tsRangeEnd⟩
  | .excluded k => .excluded ⟨k, tsRangeBegin⟩
  | .unbounded => .unbounded

theorem aboveLower_mapBoundLower {b : Bound Bytes} {a : Key} :
    (mapBoundLower b).AboveLower a ↔ b.AboveLower a.keyRef := by
  cases b with
  | included k => exact Key.rangeBegin_le_iff
  | excluded k => exact Key.rangeEnd_lt_iff
  | unbounded => exact Iff.rfl

theorem belowUpper_mapBoundUpper {b : Bound Bytes} {a : Key} :
    (mapBoundUpper b).BelowUpper a ↔ b.BelowUpper a.keyRef := by
  cases b with
  | included k => exact Key.le_rangeEnd_iff
  | excluded k => exact Key.lt_rangeBegin_iff
  | unbounded => exact Iff.rfl

/-! ## The iterator -/

/-- What is left of the range, and the item shown; an empty key marks the end. -/
structure MemTableIterator where
  iter : List Entry
  item : Entry
  deriving DecidableEq

namespace MemTableIterator

/-- Show the next entry of the range. -/
def next (it : MemTableIterator) : Stepped MemTableIterator :=
  match it.iter with
  | [] => (.ok (), ⟨[], (Key.new, [])⟩)
  | e :: rest => (.ok (), ⟨rest, e⟩)

instance : StorageIterator MemTableIterator Key where
  value it := it.item.2
  key it := it.item.1
  isValid it := !it.item.1.isEmpty
  next := next
  remaining it := it.iter.length + 1

open StorageIterator

theorem showsItems : ShowsItems MemTableIterator.mk Key.isEmpty (Key.new, []) where
  shows _ _ := ⟨rfl, rfl, rfl⟩
  remaining _ _ := Nat.lt_succ_self _
  next_nil _ := rfl
  next_cons _ _ _ := rfl
  last_isEnd := rfl

/-- Entries with non-empty keys are all handed out. -/
theorem yields_next {l : List Entry} (h : ∀ e ∈ l, e.1.keyRef ≠ []) (item : Entry) :
    Yields Drained (next ⟨l, item⟩).2 l :=
  showsItems.yields_next (fun e he => List.isEmpty_eq_false_iff.mpr (h e he)) item

end MemTableIterator

/-! ## The memtable -/

/-- A memtable; `wal` is its log, if it has one. -/
structure MemTable where
  map : SkipMap
  wal : Option Wal
  id : ℕ
  approximateSize : ℕ

namespace MemTable

/-- An empty memtable without a log. -/
def create (id : ℕ) : MemTable := ⟨SkipMap.new, none, id, 0⟩

/-- Nothing was put. -/
def isEmpty (m : MemTable) : Bool := m.map.isEmpty

/-- The part of `put` that needs no log. -/
def insert (m : MemTable) (key : Key) (value : Bytes) : MemTable :=
  { m with
    map := m.map.insert key value
    approximateSize := m.approximateSize + (key.rawLen + value.length) }

/-- `scan`: an iterator at the first entry in the range. -/
def scan (m : MemTable) (lower upper : Bound Bytes) : MemTableIterator :=
  (MemTableIterator.next
    ⟨m.map.range (mapBoundLower lower) (mapBoundUpper upper), (Key.new, [])⟩).2

section

variable [Platform]

/-- An empty memtable with a new log. -/
def createWithWal (id : ℕ) : DiskEffect MemTable := do
  let wal ← Wal.create id
  return ⟨SkipMap.new, some wal, id, 0⟩

omit [Platform] in
theorem createWithWal_eq_ok {id : ℕ} {d d' : Disk} {m : MemTable}
    (h : (createWithWal id).exec d = (.ok m, d')) :
    m.map = SkipMap.new ∧ m.id = id ∧ m.wal = some ⟨id⟩ ∧ d.wals.lookup id = none ∧
      d'.wals = d.wals.insert id [] ∧ d'.ssts = d.ssts ∧ d'.manifest = d.manifest := by
  unfold createWithWal at h
  rw [Effect.exec_bind_eq_ok_iff] at h
  obtain ⟨w, d₁, hcreate, hret⟩ := h
  cases hret
  obtain ⟨rfl, hrest⟩ := Wal.create_eq_ok hcreate
  exact ⟨rfl, rfl, rfl, hrest⟩

/-- The memtable that a log describes. -/
def recoverFromWal (id : ℕ) : DiskEffect MemTable := do
  let (wal, map) ← Wal.recover id
  return ⟨map, some wal, id, (map.entries.map fun e => e.1.rawLen + e.2.length).sum⟩

/-- `put`, on the memtable and the directory of its log. -/
def put (key : Key) (value : Bytes) : Effect Fault (MemTable × Disk) Unit := do
  modify fun p => (p.1.insert key value, p.2)
  match (← get).1.wal with
  | some wal => Effect.zoom Prod.snd (fun d p => (p.1, d)) (wal.put key value)
  | none => pure ()

/-- `put_batch`, entry by entry: what comes before an entry that fails stays. -/
def putBatch : List Entry → Effect Fault (MemTable × Disk) Unit
  | [] => pure ()
  | e :: data => do
    put e.1 e.2
    putBatch data

/-- The loop of `flush`, for at most `n` entries. -/
def flushLoop : ℕ → MemTableIterator → SsTableBuilder → Outcome SsTableBuilder
  | 0, it, builder =>
    if StorageIterator.isValid it then .error (.panic "iterator did not end") else .ok builder
  | n + 1, it, builder =>
    if StorageIterator.isValid it then do
      let builder ← builder.add (StorageIterator.key it) (StorageIterator.value it)
      match StorageIterator.next it with
      | (.ok (), it) => flushLoop n it builder
      | (.error e, _) => .error e
    else .ok builder

/-- `flush`: add what a scan shows to a builder. -/
def flush (m : MemTable) (builder : SsTableBuilder) : Outcome SsTableBuilder :=
  let it := m.scan .unbounded .unbounded
  flushLoop (StorageIterator.remaining it) it builder

end

/-! ## Scanning and flushing -/

open StorageIterator

/-- No stored key is empty: the condition under which iterators see the whole map. -/
def KeysNonempty (m : MemTable) : Prop := ∀ e ∈ m.map.entries, e.1.keyRef ≠ []

/-- **A scan hands out the entries of the range.** -/
theorem scan_yields {m : MemTable} (h : m.KeysNonempty) (lower upper : Bound Bytes) :
    Yields Drained (m.scan lower upper) (m.map.entries.filter fun e =>
      lower.AboveLower e.1.keyRef ∧ upper.BelowUpper e.1.keyRef) := by
  have hrange : m.map.range (mapBoundLower lower) (mapBoundUpper upper) =
      m.map.entries.filter fun e => lower.AboveLower e.1.keyRef ∧ upper.BelowUpper e.1.keyRef := by
    unfold SkipMap.range
    refine List.filter_congr fun e _ => ?_
    rw [decide_eq_decide, aboveLower_mapBoundLower, belowUpper_mapBoundUpper]
  unfold scan
  rw [hrange]
  exact MemTableIterator.yields_next (fun e he => h e (List.mem_of_mem_filter he)) _

theorem filter_unbounded (l : List Entry) :
    l.filter (fun e => (Bound.unbounded : Bound Bytes).AboveLower e.1.keyRef ∧
      (Bound.unbounded : Bound Bytes).BelowUpper e.1.keyRef) = l := by
  refine List.filter_eq_self.mpr fun e _ => ?_
  rw [decide_eq_true_iff]
  exact ⟨trivial, trivial⟩

/-! ## Writing -/

/-- The memtable after a batch, whatever its log does. -/
def insertAll (m : MemTable) (data : List Entry) : MemTable :=
  data.foldl (fun m e => m.insert e.1 e.2) m

@[simp] theorem insertAll_nil (m : MemTable) : m.insertAll [] = m := rfl

@[simp] theorem insertAll_cons (m : MemTable) (e : Entry) (data : List Entry) :
    m.insertAll (e :: data) = (m.insert e.1 e.2).insertAll data := rfl

@[simp] theorem insert_id (m : MemTable) (key : Key) (value : Bytes) :
    (m.insert key value).id = m.id := rfl

@[simp] theorem insert_wal (m : MemTable) (key : Key) (value : Bytes) :
    (m.insert key value).wal = m.wal := rfl

@[simp] theorem insert_map (m : MemTable) (key : Key) (value : Bytes) :
    (m.insert key value).map = m.map.insert key value := rfl

theorem insertAll_id (m : MemTable) (data : List Entry) : (m.insertAll data).id = m.id := by
  induction data generalizing m with
  | nil => rfl
  | cons e data ih => rw [insertAll_cons, ih, insert_id]

theorem insertAll_wal (m : MemTable) (data : List Entry) : (m.insertAll data).wal = m.wal := by
  induction data generalizing m with
  | nil => rfl
  | cons e data ih => rw [insertAll_cons, ih, insert_wal]

theorem insertAll_map (m : MemTable) (data : List Entry) :
    (m.insertAll data).map = m.map.insertAll data := by
  induction data generalizing m with
  | nil => rfl
  | cons e data ih => rw [insertAll_cons, ih, insert_map, SkipMap.insertAll_cons]

/-! ## Flushing -/

variable [Platform]

theorem flushLoop_eq {it : MemTableIterator} {l : List Entry} (h : Yields Drained it l) {n : ℕ}
    (hn : l.length ≤ n) (builder : SsTableBuilder) : flushLoop n it builder = builder.addAll l := by
  induction h generalizing n builder with
  | nil hvalid _ =>
    cases n <;> rw [flushLoop, if_neg (by rw [hvalid]; exact Bool.false_ne_true)] <;> rfl
  | @cons it it' l hvalid _ hnext _ ih =>
    rcases n with _ | n
    · simp at hn
    rw [flushLoop, if_pos hvalid, hnext, SsTableBuilder.addAll]
    cases hadd : builder.add (key it) (value it) with
    | error e => rfl
    | ok builder' => exact ih (Nat.le_of_succ_le_succ hn) builder'

/-- **`flush` adds the entries of the map, in order.** -/
theorem flush_eq {m : MemTable} (h : m.KeysNonempty) (builder : SsTableBuilder) :
    m.flush builder = builder.addAll m.map.entries := by
  have hscan := scan_yields h .unbounded .unbounded
  rw [filter_unbounded] at hscan
  exact flushLoop_eq hscan hscan.length_le builder

/-- What a flush writes: the empty key, which is the smallest one, ends the scan before it starts. -/
def flushed (m : MemTable) : List Entry := m.map.entries.takeWhile fun e => e.1.keyRef ≠ []

omit [Platform] in
theorem flushed_sublist (m : MemTable) : m.flushed.Sublist m.map.entries :=
  List.takeWhile_sublist _

omit [Platform] in
theorem KeysNonempty.flushed_eq {m : MemTable} (h : m.KeysNonempty) : m.flushed = m.map.entries :=
  List.takeWhile_eq_self_iff.mpr fun e he => by simpa using h e he

omit [Platform] in
theorem key_ne_of_mem_flushed {m : MemTable} {e : Entry} (h : e ∈ m.flushed) : e.1.keyRef ≠ [] := by
  simpa using List.mem_takeWhile_imp h

omit [Platform] in
/-- A stored empty key is the first one, and a scan of everything stops there. -/
theorem scan_of_empty_key {m : MemTable} (h : ¬ m.KeysNonempty) :
    m.flushed = [] ∧ isValid (m.scan .unbounded .unbounded) = false := by
  obtain ⟨e, he, hempty⟩ : ∃ e ∈ m.map.entries, e.1.keyRef = [] := by
    simpa [KeysNonempty] using h
  have hsorted := m.map.sorted
  cases hentries : m.map.entries with
  | nil =>
    rw [hentries] at he
    cases he
  | cons a l =>
    rw [hentries] at he hsorted
    have ha : a.1.keyRef = [] := by
      have hle := Key.keyRef_le_of_le (hsorted.head_le he)
      cases hkey : a.1.keyRef with
      | nil => rfl
      | cons b bs =>
        rw [hempty, hkey] at hle
        exact absurd hle (not_le.mpr (List.nil_lt_cons b bs))
    have hscan : m.scan .unbounded .unbounded = ⟨l, a⟩ := by
      have hrange : m.map.range (mapBoundLower .unbounded) (mapBoundUpper .unbounded) = a :: l := by
        rw [← hentries]
        unfold SkipMap.range
        refine List.filter_eq_self.mpr fun x _ => ?_
        rw [decide_eq_true_iff]
        exact ⟨trivial, trivial⟩
      unfold scan
      rw [hrange]
      rfl
    refine ⟨?_, ?_⟩
    · unfold MemTable.flushed
      rw [hentries, List.takeWhile_cons_of_neg (by simpa using ha)]
    · rw [hscan]
      change (!a.1.keyRef.isEmpty) = false
      rw [ha]
      rfl

/-- **`flush` adds what the scan shows.** -/
theorem flush_eq_flushed (m : MemTable) (builder : SsTableBuilder) :
    m.flush builder = builder.addAll m.flushed := by
  by_cases h : m.KeysNonempty
  · rw [flush_eq h, h.flushed_eq]
  · obtain ⟨hflushed, hinvalid⟩ := scan_of_empty_key h
    change flushLoop (remaining (m.scan .unbounded .unbounded)) (m.scan .unbounded .unbounded) builder = _
    rw [hflushed]
    cases remaining (m.scan .unbounded .unbounded) <;>
      rw [flushLoop, if_neg (by rw [hinvalid]; exact Bool.false_ne_true)] <;> rfl

/-- A flush into a new builder does not panic. -/
theorem exists_flush (m : MemTable) (blockSize : ℕ) :
    ∃ builder, m.flush (SsTableBuilder.new blockSize) = .ok builder := by
  rw [flush_eq_flushed]
  obtain ⟨builder, -, -, hadd, -⟩ := SsTableBuilder.addAll_spec m.flushed
    (SsTableBuilder.new_tracks blockSize) fun e he => key_ne_of_mem_flushed he
  exact ⟨builder, hadd⟩

/-! ## Putting -/

/-- The log of `m` has grown by the records of `es`, and nothing else has changed. -/
structure Logged (m : MemTable) (d d' : Disk) (es : List Entry) : Prop where
  manifest : d'.manifest = d.manifest
  ssts : d'.ssts = d.ssts
  wal_none : m.wal = none → d'.wals = d.wals
  wal_some : ∀ w old, m.wal = some w → d.wals.lookup w.id = some old →
    d'.wals.lookup w.id = some (old ++ es.flatMap fun e => Wal.record e.1 e.2)
  wal_other : ∀ id, m.wal ≠ some ⟨id⟩ → d'.wals.lookup id = d.wals.lookup id

theorem Logged.refl (m : MemTable) (d : Disk) : m.Logged d d [] where
  manifest := rfl
  ssts := rfl
  wal_none _ := rfl
  wal_some w old _ hold := by simpa using hold
  wal_other _ _ := rfl

theorem Logged.trans {m m' : MemTable} {d d₁ d₂ : Disk} {es es' : List Entry}
    (h : m.Logged d d₁ es) (h' : m'.Logged d₁ d₂ es') (hwal : m'.wal = m.wal) :
    m.Logged d d₂ (es ++ es') where
  manifest := h'.manifest.trans h.manifest
  ssts := h'.ssts.trans h.ssts
  wal_none hnone := (h'.wal_none (hwal.trans hnone)).trans (h.wal_none hnone)
  wal_some w old hsome hold := by
    rw [h'.wal_some w _ (hwal.trans hsome) (h.wal_some w old hsome hold), List.flatMap_append,
      List.append_assoc]
  wal_other id hne := (h'.wal_other id (by rwa [hwal])).trans (h.wal_other id hne)

/-- **One `put`**: the entry is in the map also when the log failed. -/
theorem put_exec (key : Key) (value : Bytes) (m : MemTable) (d : Disk) :
    ∃ o d', (put key value).exec (m, d) = (o, (m.insert key value, d')) ∧
      (o = .ok () ∧ m.Logged d d' [(key, value)] ∨
        (∃ e, o = .error e) ∧ m.wal ≠ none ∧ m.Logged d d' []) := by
  unfold put
  rw [Effect.exec_modify_bind, Effect.exec_get_bind]
  cases hwal : m.wal with
  | none =>
    simp only [insert_wal, hwal, Effect.exec_pure]
    refine ⟨_, _, rfl, Or.inl ⟨rfl, rfl, rfl, fun _ => rfl, fun w old hw => ?_, fun _ _ => rfl⟩⟩
    rw [hwal] at hw
    cases hw
  | some w =>
    simp only [insert_wal, hwal, Effect.exec_zoom]
    unfold Wal.put
    cases hsys : d.syscall with
    | mk o d₁ =>
      cases o with
      | error e =>
        rw [Effect.exec_bind_of_error (x := Disk.syscall) hsys]
        obtain ⟨manifest, ssts, wals, faults⟩ := d
        match faults with
        | [] => cases hsys
        | false :: rest => cases hsys
        | true :: rest =>
          cases hsys
          refine ⟨_, _, rfl, Or.inr ⟨⟨_, rfl⟩, by simp, rfl, rfl, fun _ => rfl, ?_, fun _ _ => rfl⟩⟩
          intro w' old _ hold
          simpa using hold
      | ok u =>
        obtain ⟨rest, rfl⟩ := Disk.syscall_eq_ok hsys
        rw [Effect.exec_bind_of_ok (x := Disk.syscall) hsys, Effect.exec_modify]
        refine ⟨_, _, rfl, Or.inl ⟨rfl, rfl, rfl, fun hnone => ?_, fun w' old hw hold => ?_,
          fun id hne => ?_⟩⟩
        · rw [hwal] at hnone
          cases hnone
        · rw [hwal] at hw
          cases hw
          simp only [AList.lookup_insert, List.flatMap_cons, List.flatMap_nil, List.append_nil]
          rw [hold]
          rfl
        · refine AList.lookup_insert_ne fun hid => hne ?_
          rw [hwal, hid]

/-- **A batch**: when it fails, the records up to and including the one whose log append failed are
in the map. -/
theorem putBatch_exec (data : List Entry) (m : MemTable) (d : Disk) :
    ∃ o d' n, (putBatch data).exec (m, d) = (o, (m.insertAll (data.take n), d')) ∧
      (o = .ok () ∧ n = data.length ∧ m.Logged d d' data ∨
        (∃ e, o = .error e) ∧ 0 < n ∧ n ≤ data.length ∧ m.wal ≠ none ∧
          m.Logged d d' (data.take (n - 1))) := by
  induction data generalizing m d with
  | nil => exact ⟨_, d, 0, rfl, Or.inl ⟨rfl, rfl, .refl m d⟩⟩
  | cons e data ih =>
    obtain ⟨o, d₁, hput, hcase⟩ := put_exec e.1 e.2 m d
    rw [putBatch]
    rcases hcase with ⟨rfl, hlog⟩ | ⟨⟨f, rfl⟩, hwal, hlog⟩
    · obtain ⟨o', d₂, n, hrest, hcase'⟩ := ih (m.insert e.1 e.2) d₁
      refine ⟨o', d₂, n + 1, ?_, ?_⟩
      · rw [Effect.exec_bind_of_ok hput, hrest, List.take_succ_cons, insertAll_cons]
      · rcases hcase' with ⟨ho, hn, hlog'⟩ | ⟨herr, hpos, hle, hwal', hlog'⟩
        · exact Or.inl ⟨ho, by rw [hn, List.length_cons], hlog.trans hlog' rfl⟩
        · refine Or.inr ⟨herr, Nat.succ_pos n, Nat.succ_le_succ hle, hwal', ?_⟩
          obtain ⟨k, rfl⟩ : ∃ k, n = k + 1 := ⟨n - 1, by omega⟩
          exact hlog.trans hlog' rfl
    · refine ⟨_, d₁, 1, ?_, Or.inr ⟨⟨f, rfl⟩, Nat.one_pos, Nat.succ_le_succ (Nat.zero_le _), hwal, hlog⟩⟩
      rw [Effect.exec_bind_of_error hput]
      rfl

end MemTable

end TinyLsm

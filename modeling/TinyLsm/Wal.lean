import TinyLsm.Manifest
import TinyLsm.SkipMap

/-!
# The write-ahead log (`wal.rs`)

One record per `put`: `u16 key length, key, u64 ts, u16 value length, value, u32 crc`.  The digest
is fed the integers in native byte order, which is little-endian.

`replay_records`: the log of a sequence of entries replays to the map that inserting them one
after the other gives; `replay_prefix`: of a cut log it replays whole records.  The buffer of the
writer is not modelled here: a record is in the log once `put` has returned.
-/

namespace TinyLsm

/-- `Wal`: the log file of a memtable, named by the id of the memtable. -/
structure Wal where
  id : ℕ
  deriving DecidableEq, Repr

namespace Wal

variable [Platform]

/-- The digest of a record. -/
def checksum (key : Key) (value : Bytes) : UInt32 :=
  Platform.crc32 ((beBytes 2 key.keyLen).reverse ++ key.keyRef ++ (beBytes 8 key.ts.toNat).reverse ++
    (beBytes 2 value.length).reverse ++ value)

/-- The bytes that `put` writes. -/
def record (key : Key) (value : Bytes) : Bytes :=
  beBytes 2 key.keyLen ++ (key.keyRef ++ (beBytes 8 key.ts.toNat ++
    (beBytes 2 value.length ++ (value ++ beBytes 4 (checksum key value).toNat))))

/-- `Wal::create` opens with `create_new`: an existing file is an error. -/
def create (id : ℕ) : DiskEffect Wal := do
  Disk.syscall
  match (← get).wals.lookup id with
  | some _ => throw (.err "File exists")
  | none => do
    modify fun d => { d with wals := d.wals.insert id [] }
    return ⟨id⟩

omit [Platform] in
theorem create_eq_ok {id : ℕ} {d d' : Disk} {w : Wal} (h : (create id).exec d = (.ok w, d')) :
    w = ⟨id⟩ ∧ d.wals.lookup id = none ∧ d'.wals = d.wals.insert id [] ∧ d'.ssts = d.ssts ∧
      d'.manifest = d.manifest := by
  obtain ⟨rest, h⟩ := Disk.exec_syscall_bind h
  rw [Effect.exec_get_bind] at h
  simp only at h
  cases hl : d.wals.lookup id with
  | some data =>
    rw [hl] at h
    cases h
  | none =>
    rw [hl] at h
    cases h
    exact ⟨rfl, rfl, rfl, rfl, rfl⟩

/-- Append one record. -/
def put (w : Wal) (key : Key) (value : Bytes) : DiskEffect Unit := do
  Disk.syscall
  modify fun d =>
    { d with wals := d.wals.insert w.id ((d.wals.lookup w.id).getD [] ++ record key value) }

/-- Read one record and check its checksum. -/
def readRecord (data : Bytes) : Outcome (Entry × Bytes) := do
  let (keyLen, data) ← getUint 2 data
  let (key, data) ← getSlice keyLen data
  let (ts, data) ← getUint 8 data
  let (valueLen, data) ← getUint 2 data
  let (value, data) ← getSlice valueLen data
  let (crc, data) ← getUint 4 data
  let key : Key := ⟨key, UInt64.ofNat ts⟩
  if (checksum key value).toNat = crc then return ((key, value), data)
  else throw (.panic "assertion failed: checksum")

/-- The loop of `recover`; `n` bounds the number of records, of which every one has bytes. -/
def replay : ℕ → Bytes → SkipMap → Outcome SkipMap
  | 0, data, m => if data = [] then .ok m else .error (.panic "log did not end")
  | n + 1, data, m =>
    if data = [] then .ok m
    else do
      let (e, data) ← readRecord data
      replay n data (m.insert e.1 e.2)

/-- `Wal::recover`: insert every record of the file. -/
def recover (id : ℕ) : DiskEffect (Wal × SkipMap) := do
  Disk.syscall
  match (← get).wals.lookup id with
  | none => throw (.err "No such file or directory")
  | some data => do
    let m ← replay data.length data SkipMap.new
    return (⟨id⟩, m)

/-! ## Reading the log back -/

theorem readRecord_record {e : Entry} (h : LengthsFit e) (rest : Bytes) :
    readRecord (record e.1 e.2 ++ rest) = .ok (e, rest) := by
  have hkey : e.1.keyLen < 256 ^ 2 := Nat.lt_succ_of_le h.key_le
  have hvalue : e.2.length < 256 ^ 2 := Nat.lt_succ_of_le h.value_le
  unfold readRecord record
  simp only [List.append_assoc, bind, Except.bind]
  rw [getUint_append_of_lt hkey]
  simp only
  rw [getSlice_append (n := e.1.keyLen) rfl]
  simp only
  rw [getUint_append_of_lt e.1.ts.toNat_lt]
  simp only
  rw [getUint_append_of_lt hvalue]
  simp only
  rw [getSlice_append rfl]
  simp only
  rw [getUint_append_of_lt (checksum e.1 e.2).toNat_lt]
  simp [pure, Except.pure]

theorem record_ne_nil (key : Key) (value : Bytes) : record key value ≠ [] := by
  intro hnil
  have hlen := congrArg List.length hnil
  simp only [record, List.length_append, length_beBytes, List.length_nil] at hlen
  omega

/-- **A log replays to the map its entries were inserted into.** -/
theorem replay_records {es : List Entry} (h : ∀ e ∈ es, LengthsFit e) (m : SkipMap) {n : ℕ}
    (hn : es.length ≤ n) :
    replay n (es.flatMap fun e => record e.1 e.2) m = .ok (m.insertAll es) := by
  induction es generalizing m n with
  | nil => cases n <;> rfl
  | cons e es ih =>
    rcases n with _ | n
    · simp at hn
    have hne : record e.1 e.2 ++ es.flatMap (fun e => record e.1 e.2) ≠ [] := by
      intro hnil
      exact record_ne_nil _ _ (List.append_eq_nil_iff.mp hnil).1
    rw [List.flatMap_cons, replay, if_neg hne, readRecord_record (h e List.mem_cons_self)]
    simp only [bind, Except.bind]
    exact ih (fun a ha => h a (List.mem_cons_of_mem _ ha)) _ (Nat.le_of_succ_le_succ hn)

theorem length_le_records (es : List Entry) :
    es.length ≤ (es.flatMap fun e => record e.1 e.2).length := by
  induction es with
  | nil => exact Nat.zero_le _
  | cons e es ih =>
    have hpos : 0 < (record e.1 e.2).length := List.length_pos_iff.mpr (record_ne_nil _ _)
    rw [List.flatMap_cons, List.length_append, List.length_cons]
    omega

/-! ## Reading part of a log -/

/-- Reading a record does not see what comes after it. -/
theorem readRecord_extend {data rest : Bytes} {e : Entry} (h : readRecord data = .ok (e, rest))
    (more : Bytes) : readRecord (data ++ more) = .ok (e, rest ++ more) := by
  unfold readRecord at h ⊢
  obtain ⟨⟨keyLen, d₁⟩, hkeyLen, h⟩ := Outcome.bind_eq_ok_iff.mp h
  obtain ⟨⟨key, d₂⟩, hkey, h⟩ := Outcome.bind_eq_ok_iff.mp h
  obtain ⟨⟨ts, d₃⟩, hts, h⟩ := Outcome.bind_eq_ok_iff.mp h
  obtain ⟨⟨valueLen, d₄⟩, hvalueLen, h⟩ := Outcome.bind_eq_ok_iff.mp h
  obtain ⟨⟨value, d₅⟩, hvalue, h⟩ := Outcome.bind_eq_ok_iff.mp h
  obtain ⟨⟨crc, d₆⟩, hcrc, h⟩ := Outcome.bind_eq_ok_iff.mp h
  simp only [bind, Except.bind, getUint_extend hkeyLen, getSlice_extend hkey, getUint_extend hts,
    getUint_extend hvalueLen, getSlice_extend hvalue, getUint_extend hcrc]
  simp only at h ⊢
  split at h
  · rename_i hsum
    cases h
    rw [if_pos hsum]
    rfl
  · cases h

/-- **A cut log that can be replayed was cut between two records.** -/
theorem replay_prefix {es : List Entry} (h : ∀ e ∈ es, LengthsFit e) {n : ℕ} {data : Bytes} {m m' : SkipMap}
    (hcut : data <+: es.flatMap fun e => record e.1 e.2) (hok : replay n data m = .ok m') :
    ∃ k, data = (es.take k).flatMap (fun e => record e.1 e.2) ∧ m' = m.insertAll (es.take k) := by
  induction es generalizing n data m with
  | nil =>
    obtain rfl : data = [] := List.prefix_nil.mp hcut
    refine ⟨0, rfl, ?_⟩
    cases n <;> exact (Except.ok.inj hok).symm
  | cons e es ih =>
    by_cases hdata : data = []
    · subst hdata
      refine ⟨0, rfl, ?_⟩
      cases n <;> exact (Except.ok.inj hok).symm
    · cases n with
      | zero =>
        rw [replay, if_neg hdata] at hok
        cases hok
      | succ n =>
        rw [replay, if_neg hdata] at hok
        obtain ⟨⟨e', rest⟩, hread, hok⟩ := Outcome.bind_eq_ok_iff.mp hok
        obtain ⟨more, hmore⟩ := hcut
        -- The record that was read is the one that was written.
        have hext := readRecord_extend hread more
        rw [hmore, List.flatMap_cons, readRecord_record (h e List.mem_cons_self)] at hext
        obtain ⟨rfl, hrest⟩ := Prod.mk.inj (Except.ok.inj hext)
        have hcut : data = record e.1 e.2 ++ rest := by
          rw [List.flatMap_cons, hrest, ← List.append_assoc] at hmore
          exact List.append_cancel_right hmore
        obtain ⟨k, hk, hm'⟩ :=
          ih (fun a ha => h a (List.mem_cons_of_mem _ ha)) ⟨more, hrest.symm⟩ hok
        refine ⟨k + 1, ?_, hm'⟩
        rw [hcut, List.take_succ_cons, List.flatMap_cons, hk]

end Wal

end TinyLsm

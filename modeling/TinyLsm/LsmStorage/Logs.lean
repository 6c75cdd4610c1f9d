import TinyLsm.LsmStorage.Sync

/-!
# Logs across sessions and crashes

`sessions_recover`: the log of a memtable that was closed and recovered any number of times replays
to the map of the memtable, as long as keys and values fit the two-byte lengths of a record.

A crash leaves a prefix of the log.  `recover` stops only at the end of the file, so a record that
was cut makes it panic; `survivesCut_iff` says that the prefixes that can be recovered are those that
end between two records.
-/

namespace TinyLsm

/-- The bytes of some records. -/
abbrev Wal.records [Platform] (es : List Entry) : Bytes := es.flatMap fun e => Wal.record e.1 e.2

theorem Wal.records_append [Platform] (es es' : List Entry) :
    Wal.records (es ++ es') = Wal.records es ++ Wal.records es' := List.flatMap_append

theorem Wal.records_concat [Platform] (es : List Entry) (e : Entry) :
    Wal.records (es ++ [e]) = Wal.records es ++ Wal.record e.1 e.2 := by
  rw [Wal.records_append, Wal.records, Wal.records, List.flatMap_singleton]

/-! ## Sessions -/

namespace MemTable

variable [Platform]

/-- The `put` calls of a session. -/
def putSession (m : MemTable) (es : List Entry) : DiskEffect MemTable := fun d =>
  let r := (putBatch es).exec (m, d)
  (r.1.map fun _ => r.2.1, r.2.2)

/-- The sessions after the first one: each of them recovers the memtable from its log. -/
def laterSessions (id : ℕ) : MemTable → List (List Entry) → DiskEffect MemTable
  | m, [] => return m
  | _, es :: rest => do
    let m ← recoverFromWal id
    laterSessions id (← m.putSession es) rest

/-- A memtable with a log, used in one session after the other. -/
def sessions (id : ℕ) (first : List Entry) (rest : List (List Entry)) : DiskEffect MemTable := do
  let m ← createWithWal id
  laterSessions id (← m.putSession first) rest

/-- The memtable and its log hold the entries `es`, and no call to the operating system fails. -/
structure InSession (id : ℕ) (es : List Entry) (m : MemTable) (d : Disk) : Prop where
  map : m.map = SkipMap.new.insertAll es
  wal : m.wal = some ⟨id⟩
  log : d.wals.lookup id = some (Wal.records es)
  reliable : d.Reliable

variable {id : ℕ} {es : List Entry} {m : MemTable} {d : Disk}

/-- One `put` of a session. -/
theorem InSession.put (h : InSession id es m d) (e : Entry) :
    ∃ d', (MemTable.put e.1 e.2).exec (m, d) = (.ok (), (m.insert e.1 e.2, d')) ∧
      InSession id (es ++ [e]) (m.insert e.1 e.2) d' := by
  obtain ⟨rest, hsys, hrest⟩ := h.reliable.syscall
  have hstep : Effect.exec (Disk.syscall : DiskEffect Unit) d = (.ok (), { d with faults := rest }) :=
    hsys
  refine ⟨{ d with
    faults := rest
    wals := d.wals.insert id ((d.wals.lookup id).getD [] ++ Wal.record e.1 e.2) }, ?_, ?_, h.wal, ?_,
    hrest⟩
  · unfold MemTable.put
    rw [Effect.exec_modify_bind, Effect.exec_get_bind]
    simp only [insert_wal, h.wal, Effect.exec_zoom]
    unfold Wal.put
    rw [Effect.exec_bind_of_ok hstep]
    rfl
  · rw [insert_map, h.map, SkipMap.insertAll_append]
    rfl
  · rw [AList.lookup_insert, h.log, Wal.records_concat]
    rfl

/-- All of them. -/
theorem InSession.putSession (h : InSession id es m d) (es' : List Entry) :
    ∃ m' d', (m.putSession es').exec d = (.ok m', d') ∧ InSession id (es ++ es') m' d' := by
  have hbatch : ∃ m' d', (putBatch es').exec (m, d) = (.ok (), (m', d')) ∧
      InSession id (es ++ es') m' d' := by
    induction es' generalizing es m d with
    | nil => exact ⟨m, d, rfl, by rwa [List.append_nil]⟩
    | cons e es' ih =>
      obtain ⟨d₁, hput, h₁⟩ := h.put e
      obtain ⟨m', d', hrest, h'⟩ := ih h₁
      rw [List.append_assoc] at h'
      refine ⟨m', d', ?_, h'⟩
      rw [putBatch, Effect.exec_bind_of_ok hput, hrest]
  obtain ⟨m', d', hexec, h'⟩ := hbatch
  refine ⟨m', d', ?_, h'⟩
  change ((((putBatch es').exec (m, d)).1.map fun _ => ((putBatch es').exec (m, d)).2.1),
    ((putBatch es').exec (m, d)).2.2) = _
  rw [hexec]
  rfl

/-- **The log replays to the map of the memtable.** -/
theorem InSession.recover (h : InSession id es m d) (hfits : ∀ e ∈ es, LengthsFit e) :
    ∃ d', (Wal.recover id).exec d = (.ok (⟨id⟩, m.map), d') ∧ d'.wals = d.wals ∧ d'.Reliable := by
  obtain ⟨rest, hsys, hrest⟩ := h.reliable.syscall
  have hstep : Effect.exec (Disk.syscall : DiskEffect Unit) d = (.ok (), { d with faults := rest }) :=
    hsys
  refine ⟨{ d with faults := rest }, ?_, rfl, hrest⟩
  unfold Wal.recover
  rw [Effect.exec_bind_of_ok hstep, Effect.exec_get_bind]
  simp only [h.log]
  rw [Wal.replay_records hfits SkipMap.new (Wal.length_le_records es), Effect.exec_lift_bind, h.map]
  rfl

/-- The next session starts with the same map. -/
theorem InSession.reopen (h : InSession id es m d) (hfits : ∀ e ∈ es, LengthsFit e) :
    ∃ m' d', (recoverFromWal id).exec d = (.ok m', d') ∧ InSession id es m' d' := by
  obtain ⟨d', hrecover, hwals, hrest⟩ := h.recover hfits
  have hexec : (recoverFromWal id).exec d = (.ok ⟨m.map, some ⟨id⟩, id,
      (m.map.entries.map fun e => e.1.rawLen + e.2.length).sum⟩, d') := by
    unfold recoverFromWal
    rw [Effect.exec_bind_of_ok hrecover]
    rfl
  exact ⟨_, d', hexec, h.map, rfl, by rw [hwals]; exact h.log, hrest⟩

theorem InSession.laterSessions {rest : List (List Entry)} (h : InSession id es m d)
    (hfits : ∀ e ∈ es ++ rest.flatten, LengthsFit e) : ∃ m' d',
      (laterSessions id m rest).exec d = (.ok m', d') ∧ InSession id (es ++ rest.flatten) m' d' := by
  induction rest generalizing es m d with
  | nil =>
    rw [List.flatten_nil, List.append_nil]
    exact ⟨m, d, rfl, h⟩
  | cons es' rest ih =>
    rw [List.flatten_cons, ← List.append_assoc] at hfits ⊢
    obtain ⟨m₁, d₁, hrecover, h₁⟩ :=
      h.reopen fun e he => hfits e (List.mem_append_left _ (List.mem_append_left _ he))
    obtain ⟨m₂, d₂, hput, h₂⟩ := h₁.putSession es'
    obtain ⟨m', d', hlater, h'⟩ := ih h₂ hfits
    refine ⟨m', d', ?_, h'⟩
    rw [MemTable.laterSessions, Effect.exec_bind_of_ok hrecover, Effect.exec_bind_of_ok hput, hlater]

/-- What the buffered writers of the sessions leave in the file: each of them is flushed when its
session ends. -/
def fileAfter (ess : List (List Entry)) : Bytes :=
  (ess.foldl (fun w es => (Store.putAll es w).flush) WalBytes.new).written

/-- The writers of the sessions, one after the other, write the records. -/
theorem fileAfter_eq (ess : List (List Entry)) : fileAfter ess = Wal.records ess.flatten := by
  have hfold : ∀ w : WalBytes, w.buffer = [] → w.synced = [] →
      (ess.foldl (fun w es => (Store.putAll es w).flush) w).written =
        w.written ++ Wal.records ess.flatten := by
    induction ess with
    | nil => simp [Wal.records]
    | cons es ess ih =>
      intro w hbuffer hsynced
      have hcap : w.buffer.length ≤ WalBytes.capacity := by
        rw [hbuffer]
        exact Nat.zero_le _
      have hall := (Store.all_putAll es hcap).1
      have hput := Store.synced_putAll es w
      have hwritten : (Store.putAll es w).flush.written = w.written ++ Wal.records es := by
        unfold WalBytes.all at hall
        rw [hput, hsynced, hbuffer, List.nil_append, List.nil_append, List.append_nil] at hall
        exact hall
      rw [List.foldl_cons, ih _ rfl (by rw [WalBytes.synced_flush, hput, hsynced]), hwritten,
        List.append_assoc, List.flatten_cons, Wal.records_append]
  exact hfold WalBytes.new rfl rfl

/-- **A log that was written in any number of sessions replays to the map of its memtable**, in
which of the entries with one key the last one counts. -/
theorem sessions_recover (id : ℕ) (first : List Entry) (rest : List (List Entry))
    (hfits : ∀ e ∈ first ++ rest.flatten, LengthsFit e) (d : Disk) (hd : d.Reliable)
    (hnew : d.wals.lookup id = none) :
    ∃ m d' d'', (sessions id first rest).exec d = (.ok m, d') ∧
      d'.wals.lookup id = some (fileAfter (first :: rest)) ∧
      (Wal.recover id).exec d' = (.ok (⟨id⟩, m.map), d'') ∧
      ∀ x, x ∈ m.map.entries ↔
        ((first ++ rest.flatten).filter fun e => e.1 = x.1).getLast? = some x := by
  obtain ⟨faults, hsys, hfaults⟩ := hd.syscall
  have hstep : Effect.exec (Disk.syscall : DiskEffect Unit) d = (.ok (), { d with faults }) := hsys
  have hcreate : (createWithWal id).exec d =
      (.ok ⟨SkipMap.new, some ⟨id⟩, id, 0⟩, { d with faults, wals := d.wals.insert id [] }) := by
    unfold createWithWal Wal.create
    rw [bind_assoc, Effect.exec_bind_of_ok hstep, bind_assoc, Effect.exec_get_bind]
    simp only [hnew]
    rfl
  have hstart : InSession id [] ⟨SkipMap.new, some ⟨id⟩, id, 0⟩
      { d with faults, wals := d.wals.insert id [] } :=
    ⟨rfl, rfl, AList.lookup_insert _, hfaults⟩
  obtain ⟨m₁, d₁, hput, h₁⟩ := hstart.putSession first
  rw [List.nil_append] at h₁
  obtain ⟨m, d', hlater, h⟩ := h₁.laterSessions hfits
  obtain ⟨d'', hrecover, -⟩ := h.recover hfits
  refine ⟨m, d', d'', ?_, ?_, hrecover, fun x => ?_⟩
  · rw [sessions, Effect.exec_bind_of_ok hcreate, Effect.exec_bind_of_ok hput, hlater]
  · rw [fileAfter_eq, List.flatten_cons]
    exact h.log
  · rw [h.map, SkipMap.mem_insertAll]
    simp [SkipMap.new]

end MemTable

section

attribute [local instance] shortKeyPlatform

/-- Three sessions, the last of which overwrites an entry of the first one. -/
theorem MemTable.sessions_recover_small : ∃ m d' d'',
    (sessions 3 [(⟨[1], 1⟩, [7])] [[], [(⟨[2], 2⟩, []), (⟨[1], 1⟩, [8])]]).exec Disk.empty =
      (.ok m, d') ∧
    d'.wals.lookup 3 = some (fileAfter [[(⟨[1], 1⟩, [7])], [], [(⟨[2], 2⟩, []), (⟨[1], 1⟩, [8])]]) ∧
    (Wal.recover 3).exec d' = (.ok (⟨3⟩, m.map), d'') ∧
    ∀ x, x ∈ m.map.entries ↔ ([(⟨[1], 1⟩, [7]), (⟨[2], 2⟩, []), (⟨[1], 1⟩, [8])].filter
      fun e : Entry => e.1 = x.1).getLast? = some x := by
  refine sessions_recover 3 [(⟨[1], 1⟩, [7])] [[], [(⟨[2], 2⟩, []), (⟨[1], 1⟩, [8])]] ?_ Disk.empty ?_ rfl
  · simp only [List.flatten_cons, List.flatten_nil, List.nil_append, List.append_nil,
      List.cons_append, List.forall_mem_cons]
    refine ⟨⟨?_, ?_⟩, ⟨?_, ?_⟩, ⟨?_, ?_⟩, by simp⟩ <;> decide
  · simp [Disk.Reliable, Disk.empty]

end

/-! ## Crashes -/

namespace Wal

variable [Platform]

/-- The entries whose records are complete in the first `n` bytes of the log. -/
def completeIn : ℕ → List Entry → List Entry
  | _, [] => []
  | n, e :: es =>
    if (record e.1 e.2).length ≤ n then e :: completeIn (n - (record e.1 e.2).length) es else []

/-- Recovering a log with the bytes `data`, of which `es` are the entries that were written, does not
panic, and what it recovers are the complete records. -/
def SurvivesCut (es : List Entry) (data : Bytes) : Prop :=
  ∀ id (d : Disk), d.wals.lookup id = some data →
    (∀ msg, ((recover id).exec d).1 ≠ .error (.panic msg)) ∧
    ∀ w map, ((recover id).exec d).1 = .ok (w, map) →
      map = SkipMap.new.insertAll (completeIn data.length es)

theorem length_record_pos (e : Entry) : 0 < (record e.1 e.2).length :=
  List.length_pos_iff.mpr (record_ne_nil _ _)

/-- Between two records all records before the cut are complete, and no other one. -/
theorem completeIn_records (es : List Entry) (k : ℕ) :
    completeIn (records (es.take k)).length es = es.take k := by
  induction es generalizing k with
  | nil => simp [completeIn]
  | cons e es ih =>
    cases k with
    | zero =>
      have hpos := length_record_pos e
      rw [List.take_zero, records, List.flatMap_nil, List.length_nil, completeIn, if_neg (by omega)]
    | succ k =>
      rw [List.take_succ_cons, records, List.flatMap_cons, List.length_append, completeIn,
        if_pos (Nat.le_add_right _ _), Nat.add_sub_cancel_left]
      exact congrArg _ (ih k)

/-- Reading the log can only fail by a panic. -/
def PanicsOnly {α : Type} (x : Outcome α) : Prop := ∀ f, x = .error f → ∃ msg, f = .panic msg

section

omit [Platform]

theorem PanicsOnly.ok {α : Type} (a : α) : PanicsOnly (.ok a : Outcome α) := by
  intro f h
  cases h

theorem PanicsOnly.ofOption {α : Type} (msg : String) (o : Option α) :
    PanicsOnly (Outcome.ofOption (.panic msg) o) := by
  intro f h
  cases o with
  | none =>
    cases h
    exact ⟨msg, rfl⟩
  | some a => cases h

theorem PanicsOnly.bind {α β : Type} {x : Outcome α} {g : α → Outcome β} (hx : PanicsOnly x)
    (hg : ∀ a, PanicsOnly (g a)) : PanicsOnly (x >>= g) := by
  cases x with
  | ok a => exact hg a
  | error e =>
    intro f h
    cases h
    exact hx e rfl

end

theorem readRecord_panicsOnly (data : Bytes) : PanicsOnly (readRecord data) := by
  unfold readRecord
  refine .bind (.ofOption _ _) fun _ => .bind (.ofOption _ _) fun _ => .bind (.ofOption _ _) fun _ =>
    .bind (.ofOption _ _) fun _ => .bind (.ofOption _ _) fun _ => .bind (.ofOption _ _) fun _ => ?_
  simp only
  split
  · exact .ok _
  · rintro f ⟨⟩
    exact ⟨_, rfl⟩

theorem replay_panicsOnly (n : ℕ) (data : Bytes) (m : SkipMap) : PanicsOnly (replay n data m) := by
  induction n generalizing data m with
  | zero =>
    rw [replay]
    split
    · exact .ok _
    · rintro f ⟨⟩
      exact ⟨_, rfl⟩
  | succ n ih =>
    rw [replay]
    split
    · exact .ok _
    · exact .bind (readRecord_panicsOnly data) fun p => ih p.2 _

omit [Platform] in
theorem Disk.syscall_error {d d' : Disk} {f : Fault} (h : d.syscall = (.error f, d')) :
    f = .err "I/O error" := by
  obtain ⟨manifest, ssts, wals, faults⟩ := d
  match faults with
  | [] => cases h
  | false :: rest => cases h
  | true :: rest =>
    cases h
    rfl

/-- `recover` returns what the replay of the bytes returns, unless the file cannot be opened. -/
theorem recover_eq {id : ℕ} {d : Disk} {data : Bytes} (h : d.wals.lookup id = some data) :
    ((recover id).exec d).1 = match d.syscall.1 with
      | .ok () => (replay data.length data SkipMap.new).map fun map => (⟨id⟩, map)
      | .error f => .error f := by
  unfold recover
  cases hsys : d.syscall with
  | mk o d₁ =>
    cases o with
    | error f => rw [Effect.exec_bind_of_error (x := Disk.syscall) hsys]
    | ok u =>
      obtain ⟨rest, rfl⟩ := Disk.syscall_eq_ok hsys
      rw [Effect.exec_bind_of_ok (x := Disk.syscall) hsys, Effect.exec_get_bind]
      simp only [h]
      cases hreplay : replay data.length data SkipMap.new with
      | error f =>
        rw [Effect.exec_bind_of_error (Effect.exec_lift _ _)]
        rfl
      | ok map =>
        rw [Effect.exec_lift_bind]
        rfl

/-- A log that replays survives, if the map is that of the complete records. -/
theorem survivesCut_of_replay {es : List Entry} {data : Bytes}
    (h : replay data.length data SkipMap.new =
      .ok (SkipMap.new.insertAll (completeIn data.length es))) : SurvivesCut es data := by
  intro id d hd
  rw [recover_eq hd, h]
  cases hsys : d.syscall with
  | mk o d₁ =>
    cases o with
    | error f =>
      obtain rfl := Disk.syscall_error hsys
      exact ⟨by simp, by simp⟩
    | ok u =>
      refine ⟨by simp [Except.map], fun w map hok => ?_⟩
      cases hok
      rfl

/-- A log that survives replays. -/
theorem SurvivesCut.replay_ok {es : List Entry} {data : Bytes} (h : SurvivesCut es data) :
    ∃ map, replay data.length data SkipMap.new = .ok map := by
  -- a directory where the file can be opened
  have hd : ({ Disk.empty with wals := (∅ : FileMap).insert 0 data } : Disk).wals.lookup 0 =
      some data := AList.lookup_insert _
  have hpanic := (h 0 _ hd).1
  cases hreplay : replay data.length data SkipMap.new with
  | ok map => exact ⟨map, rfl⟩
  | error f =>
    obtain ⟨msg, rfl⟩ := replay_panicsOnly _ _ _ f hreplay
    refine absurd ?_ (hpanic msg)
    rw [recover_eq hd, hreplay]
    rfl

/-- **The prefixes that can be recovered**: those that end between two records.  An entry that does
not fit its record cannot be read back anyway. -/
theorem survivesCut_iff (es : List Entry) (data : Bytes) (hcut : data <+: records es) :
    ((∃ k, data = records (es.take k) ∧ ∀ e ∈ es.take k, LengthsFit e) → SurvivesCut es data) ∧
      ((∀ e ∈ es, LengthsFit e) → SurvivesCut es data → ∃ k, data = records (es.take k)) := by
  constructor
  · rintro ⟨k, rfl, hfits⟩
    refine survivesCut_of_replay ?_
    rw [completeIn_records]
    exact replay_records hfits SkipMap.new (length_le_records (es.take k))
  · intro hfits hsurvives
    obtain ⟨map, hreplay⟩ := hsurvives.replay_ok
    obtain ⟨k, hk, -⟩ := replay_prefix hfits hcut hreplay
    exact ⟨k, hk⟩

end Wal

section

attribute [local instance] shortKeyPlatform

namespace Wal

theorem survivesCut_small : SurvivesCut [(⟨[1], 1⟩, [7]), (⟨[2], 1⟩, [])] (records [(⟨[1], 1⟩, [7])]) := by
  refine (survivesCut_iff [(⟨[1], 1⟩, [7]), (⟨[2], 1⟩, [])] (records [(⟨[1], 1⟩, [7])])
    (List.prefix_append _ _)).1 ⟨1, rfl, ?_⟩
  rw [List.take_succ_cons, List.take_zero, List.forall_mem_singleton]
  constructor <;> decide

/-- Of a record only its first byte is there. -/
theorem torn_record_panics : ([0] : Bytes) <+: records [(⟨[1], 1⟩, [7])] ∧
    ¬ SurvivesCut [(⟨[1], 1⟩, [7])] [0] := by
  refine ⟨⟨_, rfl⟩, fun h => ?_⟩
  obtain ⟨map, hreplay⟩ := h.replay_ok
  cases hreplay

end Wal

end

end TinyLsm

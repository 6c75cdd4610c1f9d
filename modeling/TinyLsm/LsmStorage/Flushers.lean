import TinyLsm.LsmStorage.Invariant
import TinyLsm.LsmStorage.Publish

/-!
# Several flushers

Any number of threads call `force_flush_next_imm_memtable` while others write and freeze.  A caller
reads the oldest immutable memtable and builds its table without a lock; it then takes `state_lock`
and the write guard, pops the oldest immutable memtable and asserts that it is the one it has read.

`flushedOnce_of_run`: when no caller reads while another one is between its read and its pop, no
assertion fails and every immutable memtable becomes exactly one listed table.
`two_flushers_panic`: two callers that read the same memtable.
-/

namespace TinyLsm

variable {ι : Type} [DecidableEq ι]

namespace LsmStorageInner

/-- Where a thread is that calls `force_flush_next_imm_memtable` now and then. -/
inductive Caller where
  | outside
  | inside (place : FlushAt)
  /-- The thread is dead. -/
  | panicked

/-- The threads that flush, and the engine. -/
structure Flushers (ι : Type) where
  engine : LsmStorageInner
  caller : ι → Caller
  /-- All memtables that have been immutable, latest first. -/
  immutables : List MemTable

/-- Nobody is in a call. -/
def Flushers.start (ι : Type) (e : LsmStorageInner) : Flushers ι :=
  ⟨e, fun _ => .outside, e.state.immMemtables⟩

/-- The next atomic step of a thread. -/
inductive Act (ι : Type) where
  /-- A writer puts into the active memtable. -/
  | put (data : List Entry)
  /-- Somebody freezes the active memtable, under `state_lock`. -/
  | freeze
  | flush (i : ι)

variable [Platform]

/-- What is one step for the other threads: the pop, the install and the append of the record happen
under `state_lock` and the write guard. -/
def atomicStep : FlushAt → EngineEffect (Option FlushAt)
  | .built sst => do
    Effect.drive flushStep 2 (.built sst)
    return none
  | place => flushStep place

/-- Where a thread is after a step. -/
def Caller.after : Outcome (Option FlushAt) → Caller
  | .ok (some place) => .inside place
  | .ok none => .outside
  | .error (.err _) => .outside
  | .error (.panic _) => .panicked

namespace Flushers

/-- The step of thread `i`, which stands at `place`. -/
def stepFrom (s : Flushers ι) (i : ι) (place : FlushAt) : Flushers ι :=
  { s with
    engine := ((atomicStep place).exec s.engine).2
    caller := Function.update s.caller i (.after ((atomicStep place).exec s.engine).1) }

/-- One step of somebody. -/
def act (s : Flushers ι) : Act ι → Flushers ι
  | .put data => { s with engine := ((onMemtable (MemTable.putBatch data)).exec s.engine).2 }
  | .freeze =>
    match forceFreezeMemtable.exec s.engine with
    | (.ok (), e) =>
      { s with
        engine := e
        immutables := s.engine.state.memtable :: s.immutables }
    | (.error _, e) => { s with engine := e }
  | .flush i =>
    match s.caller i with
    | .outside => s.stepFrom i .start
    | .inside place => s.stepFrom i place
    | .panicked => s

/-- Who begins a call begins it when nobody else is in one. -/
def TakesTurns (s : Flushers ι) (a : Act ι) : Prop :=
  ∀ i, a = .flush i → s.caller i = .outside → ∀ j place, s.caller j ≠ .inside place

/-- Steps of threads, in any order, that take turns. -/
def Turn (s : Flushers ι) (a : Act ι) (t : Flushers ι) : Prop := s.TakesTurns a ∧ s.act a = t

end Flushers

/-- The table of the memtable is in the map. -/
def HasTable (e : LsmStorageInner) (m : MemTable) : Prop :=
  ∃ builder, m.flush (SsTableBuilder.new e.options.blockSize) = .ok builder ∧
    e.state.sstables.lookup m.id = some (builder.build m.id)

/-- The immutable memtables that are gone, each of which has one listed table that was not there at
the start. -/
def FlushedOnce (e₀ e : LsmStorageInner) (immutables : List MemTable) : Prop :=
  ∃ done, immutables = e.state.immMemtables ++ done ∧
    e.state.listedIds.Perm (done.map MemTable.id ++ e₀.state.listedIds) ∧
    ∀ m ∈ done, HasTable e m

/-! ## The engine -/

section

variable {e₀ e e' : LsmStorageInner} {immutables : List MemTable} {m : MemTable}
  {builder : SsTableBuilder}

/-- What the steps of the threads keep of the engine. -/
structure Served (e₀ e : LsmStorageInner) (immutables : List MemTable) : Prop where
  nodup : e.state.ids.Nodup
  ids_lt : ∀ id ∈ e.state.ids, id < e.nextSstId
  flushed : FlushedOnce e₀ e immutables

/-- A change in front of the immutable memtables. -/
theorem Served.quiet (h : Served e₀ e immutables) (froze : List MemTable)
    (hoptions : e'.options = e.options) (hlisted : e'.state.listedIds = e.state.listedIds)
    (hsstables : e'.state.sstables = e.state.sstables)
    (himms : e'.state.immMemtables = froze ++ e.state.immMemtables) (hnodup : e'.state.ids.Nodup)
    (hlt : ∀ id ∈ e'.state.ids, id < e'.nextSstId) : Served e₀ e' (froze ++ immutables) := by
  obtain ⟨done, rfl, hperm, htables⟩ := h.flushed
  refine ⟨hnodup, hlt, done, ?_, ?_, fun m hm => ?_⟩
  · rw [himms, List.append_assoc]
  · rw [hlisted]
    exact hperm
  · unfold HasTable
    rw [hoptions, hsstables]
    exact htables m hm

theorem Served.setDisk (h : Served e₀ e immutables) (d : Disk) :
    Served e₀ { e with disk := d } immutables :=
  h.quiet [] rfl rfl rfl rfl h.nodup h.ids_lt

/-- Whatever a writer has reached, it has put a part of its data into the active memtable. -/
theorem exec_putBatch (e : LsmStorageInner) (data : List Entry) :
    ∃ n d, ((onMemtable (MemTable.putBatch data)).exec e).2 = e.afterPut (data.take n) d := by
  obtain ⟨o, d, n, hput, -⟩ := MemTable.putBatch_exec data e.state.memtable e.disk
  refine ⟨n, d, ?_⟩
  unfold onMemtable
  rw [Effect.exec_zoom, hput]
  rfl

theorem Served.put (h : Served e₀ e immutables) (data : List Entry) (d : Disk) :
    Served e₀ (e.afterPut data d) immutables := by
  have hids : (e.afterPut data d).state.ids = e.state.ids := by
    unfold LsmStorageState.ids LsmStorageState.memtables
    rw [List.map_cons, List.map_cons]
    change ((e.state.memtable.insertAll _).id :: _) ++ _ = _
    rw [MemTable.insertAll_id]
    rfl
  refine h.quiet [] rfl rfl rfl rfl ?_ ?_
  · rw [hids]
    exact h.nodup
  · rw [hids]
    exact h.ids_lt

theorem Served.freeze {memtable : MemTable} (h : Served e₀ e immutables)
    (hfroze : Froze e e' memtable) : Served e₀ e' (e.state.memtable :: immutables) := by
  refine h.quiet [e.state.memtable] hfroze.options ?_ ?_ ?_ ?_ (hfroze.ids_lt h.ids_lt)
  · rw [hfroze.state]
    rfl
  · rw [hfroze.state]
  · rw [hfroze.state]
    rfl
  · rw [hfroze.ids_eq]
    exact List.nodup_cons.mpr ⟨fun hmem => lt_irrefl _ (h.ids_lt _ hmem), h.nodup⟩

/-- An id is used up. -/
theorem Served.skipId (h : Served e₀ e immutables) (d : Disk) :
    Served e₀ { e with nextSstId := e.nextSstId + 1, disk := d } immutables :=
  h.quiet [] rfl rfl rfl rfl h.nodup fun id hid => Nat.lt_succ_of_lt (h.ids_lt id hid)

/-- The oldest immutable memtable becomes a listed table. -/
theorem Served.publish (h : Served e₀ e immutables) (hlast : e.state.immMemtables.getLast? = some m)
    (hflush : m.flush (SsTableBuilder.new e.options.blockSize) = .ok builder) :
    Served e₀ (e.publish (builder.build m.id)) immutables := by
  obtain ⟨done, rfl, hperm, htables⟩ := h.flushed
  have himms : e.state.immMemtables = e.state.immMemtables.dropLast ++ [m] :=
    (List.dropLast_append_getLast? m hlast).symm
  have hlisted := LsmStorageState.listedIds_flushedState e.compactionController.flushToL0
    (builder.build m.id) e.state
  have hids : (e.publish (builder.build m.id)).state.ids.Perm e.state.ids := by
    unfold LsmStorageState.ids LsmStorageState.memtables
    rw [himms, ← List.cons_append, List.map_append, List.append_assoc]
    exact hlisted.append_left _
  have hnot : m.id ∉ e.state.listedIds := by
    intro hmem
    refine (List.nodup_append.mp h.nodup).2.2 m.id (List.mem_map_of_mem ?_) m.id hmem rfl
    exact List.mem_cons_of_mem _ (List.mem_of_getLast? hlast)
  refine ⟨hids.nodup_iff.mpr h.nodup, fun id hid => h.ids_lt id (hids.subset hid), m :: done, ?_, ?_,
    fun x hx => ?_⟩
  · change _ = e.state.immMemtables.dropLast ++ m :: done
    rw [List.append_cons, ← himms]
  · exact hlisted.trans (hperm.cons m.id)
  · rcases List.mem_cons.mp hx with rfl | hx
    · exact ⟨builder, hflush, AList.lookup_insert _⟩
    · obtain ⟨builder', hflush', hlookup⟩ := htables x hx
      have hne : x.id ≠ m.id := by
        intro heq
        exact hnot (heq ▸ hperm.symm.subset (List.mem_append_left _ (List.mem_map_of_mem hx)))
      exact ⟨builder', hflush', (AList.lookup_insert_ne hne).trans hlookup⟩

/-- The call at `place` still works on the oldest immutable memtable. -/
def Current (e : LsmStorageInner) : FlushAt → Prop
  | .start => True
  | .chosen m => e.state.immMemtables.getLast? = some m
  | .built sst => ∃ m builder, e.state.immMemtables.getLast? = some m ∧
      m.flush (SsTableBuilder.new e.options.blockSize) = .ok builder ∧ sst = builder.build m.id
  | .published _ => False

omit [Platform] in
theorem getLast?_append_of_some {α : Type} {l : List α} {a : α} (front : List α)
    (h : l.getLast? = some a) : (front ++ l).getLast? = some a := by
  rw [List.getLast?_append, h]
  rfl

theorem Current.quiet {place : FlushAt} (h : Current e place) (front : List MemTable)
    (hoptions : e'.options = e.options)
    (himms : e'.state.immMemtables = front ++ e.state.immMemtables) : Current e' place := by
  cases place with
  | start => trivial
  | chosen m =>
    unfold Current
    rw [himms]
    exact getLast?_append_of_some front h
  | built sst =>
    obtain ⟨m, builder, hlast, hflush, hsst⟩ := h
    refine ⟨m, builder, ?_, ?_, hsst⟩
    · rw [himms]
      exact getLast?_append_of_some front hlast
    · rw [hoptions]
      exact hflush
  | published id => exact h.elim

/-- **A step of a call that is up to date** does not panic. -/
theorem Served.step {place : FlushAt} (h : Served e₀ e immutables) (hplace : Current e place) :
    Served e₀ ((atomicStep place).exec e).2 immutables ∧
      (Caller.after ((atomicStep place).exec e).1 = .outside ∨
        ∃ next, Caller.after ((atomicStep place).exec e).1 = .inside next ∧
          Current ((atomicStep place).exec e).2 next) := by
  cases place with
  | start =>
    rw [show atomicStep .start = flushStep .start from rfl, flushStep_start]
    refine ⟨h, ?_⟩
    cases hlast : e.state.immMemtables.getLast? with
    | none => exact Or.inl rfl
    | some m => exact Or.inr ⟨.chosen m, rfl, hlast⟩
  | chosen m =>
    obtain ⟨builder, hflush⟩ := m.exists_flush e.options.blockSize
    rw [show atomicStep (.chosen m) = flushStep (.chosen m) from rfl, flushStep_chosen hflush]
    split
    · exact ⟨h.setDisk _, Or.inl rfl⟩
    · exact ⟨h.setDisk _, Or.inr ⟨_, rfl, m, builder, hplace, hflush, rfl⟩⟩
  | built sst =>
    obtain ⟨m, builder, hlast, hflush, rfl⟩ := hplace
    have hbuilt : (flushStep (.built (builder.build m.id))).exec e =
        (.ok (some (.published m.id)), e.publish (builder.build m.id)) := flushStep_built hlast rfl
    have hpublished := flushStep_published (e.publish (builder.build m.id)) m.id
    unfold atomicStep
    split at hpublished
    · rw [Effect.exec_bind_of_error ((Effect.drive_of_some hbuilt).trans
        (Effect.drive_of_error hpublished))]
      exact ⟨(h.publish hlast hflush).setDisk _, Or.inl rfl⟩
    · rw [Effect.exec_bind_of_ok ((Effect.drive_of_some hbuilt).trans
        (Effect.drive_of_none hpublished))]
      exact ⟨(h.publish hlast hflush).setDisk _, Or.inl rfl⟩
  | published id => exact hplace.elim

end

/-! ## The threads -/

namespace Flushers

/-- At most one thread is in a call, and its call is up to date. -/
structure Orderly (e₀ : LsmStorageInner) (s : Flushers ι) : Prop where
  served : Served e₀ s.engine s.immutables
  noPanic : ∀ i, s.caller i ≠ .panicked
  alone : ∀ i j place place', s.caller i = .inside place → s.caller j = .inside place' → i = j
  current : ∀ i place, s.caller i = .inside place → Current s.engine place

variable {e₀ : LsmStorageInner} {s t : Flushers ι}

omit [DecidableEq ι] in
/-- A step of another thread. -/
theorem Orderly.quiet (h : Orderly e₀ s) {e : LsmStorageInner} (front : List MemTable)
    (hserved : Served e₀ e (front ++ s.immutables)) (hoptions : e.options = s.engine.options)
    (himms : e.state.immMemtables = front ++ s.engine.state.immMemtables) :
    Orderly e₀ { s with
      engine := e
      immutables := front ++ s.immutables } where
  served := hserved
  noPanic := h.noPanic
  alone := h.alone
  current i place hi := (h.current i place hi).quiet front hoptions himms

/-- A step of the only thread in a call. -/
theorem Orderly.stepFrom (h : Orderly e₀ s) {i : ι} {place : FlushAt}
    (hplace : Current s.engine place) (honly : ∀ j place, s.caller j = .inside place → j = i) :
    Orderly e₀ (s.stepFrom i place) := by
  obtain ⟨hserved, hafter⟩ := h.served.step hplace
  have hother : ∀ j, j ≠ i → (s.stepFrom i place).caller j = s.caller j := fun j hj =>
    Function.update_of_ne hj _ _
  have hself : (s.stepFrom i place).caller i = .after ((atomicStep place).exec s.engine).1 :=
    Function.update_self _ _ _
  have honly' : ∀ j place', (s.stepFrom i place).caller j = .inside place' → j = i := by
    intro j place' hj
    by_contra hne
    rw [hother j hne] at hj
    exact hne (honly j place' hj)
  refine ⟨hserved, fun j hj => ?_, fun j k place₁ place₂ hj hk => ?_, fun j place' hj => ?_⟩
  · by_cases hji : j = i
    · subst hji
      rw [hself] at hj
      rcases hafter with hout | ⟨next, hnext, -⟩
      · rw [hout] at hj
        cases hj
      · rw [hnext] at hj
        cases hj
    · rw [hother j hji] at hj
      exact h.noPanic j hj
  · exact (honly' j place₁ hj).trans (honly' k place₂ hk).symm
  · obtain rfl := honly' j place' hj
    rw [hself] at hj
    rcases hafter with hout | ⟨next, hnext, hcurrent⟩
    · rw [hout] at hj
      cases hj
    · rw [hnext] at hj
      cases hj
      exact hcurrent

/-- **A step of threads that take turns.** -/
theorem Orderly.turn {a : Act ι} (h : Orderly e₀ s) (hturn : Turn s a t) : Orderly e₀ t := by
  obtain ⟨hturns, rfl⟩ := hturn
  cases a with
  | put data =>
    obtain ⟨n, d, hexec⟩ := exec_putBatch s.engine data
    rw [act, hexec]
    exact h.quiet [] (h.served.put _ d) rfl rfl
  | freeze =>
    rcases freeze_run s.engine with ⟨f, d, hexec, -, -⟩ | ⟨memtable, e, hexec, hfroze, -⟩
    · rw [act, hexec]
      exact h.quiet [] (h.served.skipId d) rfl rfl
    · rw [act, hexec]
      refine h.quiet [s.engine.state.memtable] (h.served.freeze hfroze) hfroze.options ?_
      rw [hfroze.state]
      rfl
  | flush i =>
    cases hi : s.caller i with
    | outside =>
      rw [act, hi]
      have hstart : Current s.engine .start := trivial
      exact h.stepFrom hstart fun j place hj => absurd hj (hturns i rfl hi j place)
    | inside place =>
      rw [act, hi]
      exact h.stepFrom (h.current i place hi) fun j place' hj => h.alone j i place' place hj hi
    | panicked =>
      rw [act, hi]
      exact h

omit [DecidableEq ι] in
theorem Orderly.start {e : LsmStorageInner} (hnodup : e.state.ids.Nodup)
    (hlt : ∀ id ∈ e.state.ids, id < e.nextSstId) : Orderly e (Flushers.start ι e) where
  served := ⟨hnodup, hlt, [], (List.append_nil _).symm, List.Perm.refl _, by simp⟩
  noPanic i hi := by cases hi
  alone i j place place' hi := by cases hi
  current i place hi := by cases hi

/-- **Flushers that take turns flush every memtable once**: in every state that they reach no
assertion has failed, and every memtable that has become immutable still is, or has become exactly one
listed table. -/
theorem flushedOnce_of_run {e : LsmStorageInner} {acts : List (Act ι)} (hnodup : e.state.ids.Nodup)
    (hlt : ∀ id ∈ e.state.ids, id < e.nextSstId) (hrun : Run Turn (Flushers.start ι e) acts t) :
    (∀ i, t.caller i ≠ .panicked) ∧ FlushedOnce e t.engine t.immutables := by
  have horderly : Orderly e t :=
    hrun.invariant (Orderly e) (fun s a t h hstep => h.turn hstep) (.start hnodup hlt)
  exact ⟨horderly.noPanic, horderly.served.flushed⟩

end Flushers

end LsmStorageInner

section

attribute [local instance] shortKeyPlatform

namespace LsmStorageInner

namespace Flushers

/-- A test for the dead threads. -/
def isPanicked : Caller → Bool
  | .panicked => true
  | _ => false

/-- A test for the threads in a call. -/
def isInside : Caller → Bool
  | .inside _ => true
  | _ => false

/-- The state after some steps. -/
def after (acts : List (Act Bool)) : Flushers Bool := acts.foldl act (start Bool oneImmutable)

/-- A test for a step that begins a call. -/
def begins (s : Flushers Bool) : Act Bool → Bool
  | .flush i => !isInside (s.caller i) && !isPanicked (s.caller i)
  | _ => false

/-- The state after a step of threads that take turns. -/
def afterTurn (s : Flushers Bool) (a : Act Bool) : Option (Flushers Bool) :=
  if s.begins a && (isInside (s.caller true) || isInside (s.caller false)) then none else some (s.act a)

theorem turn_of_afterTurn {s t : Flushers Bool} {a : Act Bool} (h : s.afterTurn a = some t) :
    Turn s a t := by
  unfold afterTurn at h
  split at h
  · cases h
  · rename_i hfree
    refine ⟨?_, Option.some.inj h⟩
    rintro i rfl hout j place hj
    have hinside : (isInside (s.caller true) || isInside (s.caller false)) = true := by
      cases j with
      | true =>
        rw [hj]
        rfl
      | false =>
        rw [hj]
        exact Bool.or_true _
    rw [hinside, begins, hout] at hfree
    exact hfree rfl

/-- One thread reads the oldest memtable and builds its table.  Before it pops it, another memtable is
frozen, which the other thread flushes. -/
def bothFlush : List (Act Bool) :=
  [.put [(⟨[2], 2⟩, [8])], .flush true, .flush true, .freeze, .flush true, .flush false, .flush false,
    .flush false]

theorem flushedOnce_of_run_small : ∃ t, Run Turn (start Bool oneImmutable) bothFlush t ∧
    t.engine.state.listedIds = [1, 0] ∧ t.immutables.length = 2 ∧ (∀ i, t.caller i ≠ .panicked) ∧
      FlushedOnce oneImmutable t.engine t.immutables := by
  have hfinal : (execAll afterTurn bothFlush (start Bool oneImmutable)).map (fun t =>
      (t.engine.state.listedIds, t.immutables.length)) = some ([1, 0], 2) := by
    decide +kernel
  obtain ⟨t, ht, hsummary⟩ := Option.map_eq_some_iff.mp hfinal
  obtain ⟨hlisted, hlength⟩ := Prod.mk.inj hsummary
  have hrun := run_of_execAll (fun _ _ _ => turn_of_afterTurn) ht
  exact ⟨t, hrun, hlisted, hlength, flushedOnce_of_run (by decide) (by decide) hrun⟩

/-- Two threads read the same memtable, and the second one to pop finds the list empty. -/
theorem two_flushers_panic : ¬ ∀ (acts : List (Act Bool)) (t : Flushers Bool),
    Run (fun s a t => act s a = t) (start Bool oneImmutable) acts t →
      (∀ i, t.caller i ≠ .panicked) ∧ FlushedOnce oneImmutable t.engine t.immutables := by
  intro h
  have hrun := run_foldl act (start Bool oneImmutable)
    [.flush true, .flush false, .flush true, .flush false, .flush true, .flush false]
  have hpanic : isPanicked ((after [.flush true, .flush false, .flush true, .flush false, .flush true,
      .flush false]).caller false) = true := by decide +kernel
  have hdead := (h _ _ hrun).1 false
  unfold isPanicked at hpanic
  split at hpanic
  · rename_i hcaller
    exact hdead hcaller
  · cases hpanic

end Flushers

end LsmStorageInner

end

end TinyLsm

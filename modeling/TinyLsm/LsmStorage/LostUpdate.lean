import TinyLsm.LsmStorage.Interleaved

/-!
# What a disturbed compaction loses

`trigger_compaction` writes back a state that it has made from a clone.  What was flushed in between comes
back as a memtable, so nothing is lost as long as the active memtable has a handle in the clone
(`Threads.install_keeps`).  A memtable that a freeze has published in between has none, so whatever was
written to it is gone (`Threads.install_loses`).  The other way round, a freeze publishes a state that it has
made from a clone, and a write-back in between is undone (`Threads.install_undone`): nothing that is stored
is lost, but the tables that are listed again have lost their files.

What the compactor has made is compared with what was written: all of it was (`Threads.Follows`), and it is
all that was, up to the first freeze (`Threads.Covers`).
-/

namespace TinyLsm

namespace LsmStorageState

variable {s : LsmStorageState MemTable} {m : MemTable} {x : Entry}

theorem memtables_through (s : LsmStorageState MemTable) (m : MemTable) :
    (s.through m).memtables = s.memtables.map m.through := rfl

theorem memtables_through_id (s : LsmStorageState MemTable) (m : MemTable) :
    (s.through m).memtables.map MemTable.id = s.memtables.map MemTable.id := by
  rw [memtables_through, List.map_map]
  refine List.map_congr_left fun handle _ => ?_
  change (if handle.id = m.id then m else handle).id = handle.id
  split
  · rename_i hid
    exact hid.symm
  · rfl

/-- Nothing changes behind the handles of other memtables. -/
theorem through_of_ne (h : m.id ∉ s.memtables.map MemTable.id) : s.through m = s := by
  have hsame : ∀ handle ∈ s.memtables, m.through handle = handle := fun handle hhandle =>
    if_neg fun hid => h (List.mem_map.mpr ⟨handle, hhandle, hid⟩)
  have himms : s.immMemtables.map m.through = s.immMemtables :=
    (List.map_congr_left fun handle hhandle =>
      hsame handle (List.mem_cons_of_mem _ hhandle)).trans (List.map_id _)
  unfold through
  rw [himms, hsame s.memtable List.mem_cons_self]

/-- A new empty memtable adds no version. -/
theorem has_frozenState [Platform] (hempty : m.map = SkipMap.new) : (s.frozenState m).Has x ↔ s.Has x := by
  constructor
  · rintro (⟨handle, hhandle, hx⟩ | htable)
    · rcases List.mem_cons.mp hhandle with heq | hhandle
      · have hnew : handle.map = SkipMap.new := by
          rw [heq]
          exact hempty
        rw [hnew] at hx
        cases hx
      · exact Or.inl ⟨handle, hhandle, hx⟩
    · exact Or.inr htable
  · rintro (⟨handle, hhandle, hx⟩ | htable)
    · exact Or.inl ⟨handle, List.mem_cons_of_mem _ hhandle, hx⟩
    · exact Or.inr htable

/-- What is behind the handles was there before or is in the memtable that has changed. -/
theorem Has.of_through [Platform] (h : (s.through m).Has x) : s.Has x ∨ x ∈ m.map.entries := by
  rcases h with ⟨handle, hhandle, hx⟩ | htable
  · rw [memtables_through] at hhandle
    obtain ⟨old, hold, rfl⟩ := List.mem_map.mp hhandle
    unfold MemTable.through at hx
    split at hx
    · exact Or.inr hx
    · exact Or.inl (Or.inl ⟨old, hold, hx⟩)
  · exact Or.inl (Or.inr htable)

end LsmStorageState

theorem Worker.of_place_after {P : Type} {o : Outcome (Option P)} {place : P}
    (h : (Worker.after o).place = some place) : o = .ok (some place) := by
  cases o with
  | error f =>
    rw [Worker.place_after_error] at h
    cases h
  | ok next =>
    rw [Worker.place_after_ok] at h
    rw [h]

namespace LsmStorageInner

/-- The state that the next step writes back. -/
def CompactAt.next : CompactAt → Option (LsmStorageState MemTable)
  | .applied _ _ state _ => some state
  | _ => none

theorem CompactAt.next_through (place : CompactAt) (m : MemTable) :
    (place.through m).next = place.next.map fun state => state.through m := by
  cases place <;> rfl

end LsmStorageInner

namespace Threads

open LsmStorageInner LsmStorageState

variable [Platform] {options : LsmStorageOptions} {contents : ℕ → List Entry} {T T' : Threads}
  {task : CompactionTask} {output removed : List ℕ} {state : LsmStorageState MemTable}

/-! ## What the compactor sees of a step of the others -/

/-- The others replace its handles at most by what is behind them, and give ids only to new memtables. -/
structure Seen (T T' : Threads) : Prop where
  compactor : T'.compactor = T.compactor ∧ T'.engine.state.memtable = T.engine.state.memtable ∨
    T'.compactor = T.compactor.map fun place => place.through T'.engine.state.memtable
  tasks : T'.tasks = T.tasks
  ids : ∀ id ∈ T.engine.state.ids, id ∈ T'.engine.state.ids
  active : T'.engine.state.memtable.id = T.engine.state.memtable.id ∨
    T'.engine.state.memtable.id ∉ T.engine.state.ids
  batches : T.batches <+: T'.batches
  /-- A memtable only grows. -/
  memtable : T'.engine.state.memtable.id = T.engine.state.memtable.id →
    ∀ x ∈ T.engine.state.memtable.map.entries, x ∈ T'.engine.state.memtable.map.entries
  /-- What is written goes into the active one. -/
  written : ∀ x, WrittenBy T'.batches x →
    WrittenBy T.batches x ∨ x ∈ T'.engine.state.memtable.map.entries

omit [Platform] in
theorem Seen.of_state (hcompactor : T'.compactor = T.compactor)
    (hstate : T'.engine.state = T.engine.state) (hbatches : T'.batches = T.batches)
    (htasks : T'.tasks = T.tasks) : Seen T T' := by
  refine ⟨Or.inl ⟨hcompactor, by rw [hstate]⟩, htasks, fun id hid => by rwa [hstate],
    Or.inl (by rw [hstate]), by rw [hbatches], fun _ x hx => by rwa [hstate], fun x hx => ?_⟩
  rw [hbatches] at hx
  exact Or.inl hx

/-- The batch that is put is new, and nothing that is in the memtable goes. -/
theorem Kept.seen_put (h : T.Kept options contents) {ts : UInt64} {batch : List WriteBatchRecord}
    {d : Disk} (hplace : T.writer.place = some (.stamped ts batch))
    (hexec : (writeStep (.stamped ts batch)).exec T.engine =
      (.ok (some (.written ts)), T.engine.afterPut (batch.map (WriteBatchRecord.entry ts)) d)) :
    Seen T (T.stepWriter (.stamped ts batch)) := by
  obtain ⟨hahead, hts, -, hcommit⟩ := h.stamped_next hplace
  have hsettled := h.settled
  rw [hahead] at hsettled
  have hentries : ∀ x, x ∈ (T.engine.state.memtable.insertAll
      (batch.map (WriteBatchRecord.entry ts))).map.entries ↔
        LastIn (batch.map (WriteBatchRecord.entry ts)) x ∨
          x.1 ∉ runKeys (batch.map (WriteBatchRecord.entry ts)) ∧
            x ∈ T.engine.state.memtable.map.entries := by
    intro x
    rw [MemTable.insertAll_map]
    exact SkipMap.mem_insertAll
  unfold Threads.stepWriter
  rw [hexec]
  refine ⟨Or.inr rfl, rfl, fun id hid => ?_, Or.inl (MemTable.insertAll_id _ _),
    List.prefix_append _ _, fun _ x hx => (hentries x).mpr (Or.inr ⟨fun hmem => ?_, hx⟩), fun x hx => ?_⟩
  · exact (ids_afterPut T.engine (batch.map (WriteBatchRecord.entry ts)) d).symm ▸ hid
  · -- What is stored is older than the batch.
    obtain ⟨v, hv⟩ := mem_runKeys.mp hmem
    obtain ⟨record, -, hrecord⟩ := List.mem_map.mp hv
    have hstamp : x.1.ts = ts := by
      rw [← congrArg Prod.fst hrecord]
      rfl
    have hlt := hsettled.steady.lt_of_nextTs hts
      (hsettled.steady.state.has_iff.mp (Or.inl ⟨_, List.mem_cons_self, hx⟩))
    rw [hstamp] at hlt
    exact lt_irrefl _ hlt
  · have hx : WrittenBy (T.batches ++ [batch]) x := hx
    rw [writtenBy_concat, ← hcommit] at hx
    exact hx.imp_right fun hlast => (hentries x).mpr (Or.inl hlast)

theorem Kept.seen_stepWriter (h : T.Kept options contents) {place : WriteAt}
    (hplace : T.writer.place = some place)
    (hok : ∃ next, ((writeStep place).exec T.engine).1 = .ok next) : Seen T (T.stepWriter place) := by
  obtain ⟨next, hok⟩ := hok
  obtain ⟨e', hexec⟩ := Effect.exists_exec hok
  have hengine : (T.stepWriter place).engine = e' := by
    unfold Threads.stepWriter
    rw [hexec]
  have hwritten : place.puts = [] → ∀ x, WrittenBy (T.stepWriter place).batches x →
      WrittenBy T.batches x := by
    intro hputs x hx
    unfold Threads.stepWriter at hx
    rwa [hputs, List.append_nil] at hx
  have hstays : place.puts = [] → e'.state = T.engine.state → Seen T (T.stepWriter place) := by
    intro hputs hstate
    rw [← hengine] at hstate
    exact ⟨Or.inr rfl, rfl, fun id hid => by rwa [hstate], Or.inl (by rw [hstate]),
      List.prefix_append _ _, fun _ x hx => by rwa [hstate], fun x hx => Or.inl (hwritten hputs x hx)⟩
  cases place with
  | start batch =>
    obtain ⟨ts, -, -, rfl⟩ := writeStep_start_ok hexec
    exact hstays rfl rfl
  | stamped ts batch =>
    obtain ⟨d, rfl, rfl⟩ := writeStep_stamped_ok hexec
    exact h.seen_put hplace hexec
  | written ts =>
    obtain ⟨-, rfl⟩ := writeStep_written_ok hexec
    exact hstays rfl rfl
  | committing ts =>
    rw [writeStep_committing] at hexec
    cases hexec
    exact hstays rfl rfl
  | freezing ts place =>
    cases place with
    | start =>
      obtain ⟨memtable, d, -, -, -, rfl⟩ := writeStep_clone_ok hexec
      exact hstays rfl rfl
    | created state =>
      obtain ⟨d, -, rfl⟩ := writeStep_created_ok hexec
      exact hstays rfl rfl
    | recorded state =>
      obtain ⟨memtable, -, rfl⟩ := h.writer _ hplace
      have hnew : memtable.id ∉ T.engine.state.ids := by
        intro hid
        have hnodup := h.nodup
        unfold Threads.ids at hnodup
        rw [hplace] at hnodup
        exact (List.nodup_append.mp hnodup).2.2 memtable.id hid memtable.id List.mem_cons_self rfl
      have hold : T.engine.state.memtable.id ∈ T.engine.state.ids :=
        List.mem_append_left _ List.mem_cons_self
      rw [writeStep_recorded] at hexec
      cases hexec
      exact ⟨Or.inr rfl, rfl, fun id hid => List.mem_cons_of_mem _ hid, Or.inr hnew,
        List.prefix_append _ _, fun heq => absurd (heq ▸ hold) hnew,
        fun x hx => Or.inl (hwritten rfl x hx)⟩

theorem seen_stepFlusher {place : FlushAt} (hcurrent : Current T.engine place) :
    Seen T (T.stepFlusher place) := by
  obtain ⟨o, d, hexec | ⟨m, builder, hlast, -, hexec⟩⟩ := atomicStep_exec hcurrent
  · refine .of_state rfl ?_ rfl rfl
    unfold Threads.stepFlusher
    rw [hexec]
  · unfold Threads.stepFlusher
    rw [hexec]
    exact ⟨Or.inl ⟨rfl, rfl⟩, rfl, fun id hid => (perm_ids_publish hlast builder).mem_iff.mpr hid,
      Or.inl rfl, List.prefix_rfl, fun _ x hx => hx, fun x hx => Or.inl hx⟩

/-- **What a step of another thread does to what the compactor has.** -/
theorem Kept.seen (h : T.Kept options contents) {m : Move} (hturn : Turn T m T') (hm : m ≠ .compact) :
    Seen T T' := by
  cases hturn.took with
  | nothing => exact .of_state rfl rfl rfl rfl
  | call => exact .of_state rfl rfl rfl rfl
  | write hplace hok => exact h.seen_stepWriter hplace hok
  | flush hplace => exact seen_stepFlusher (h.current hplace)
  | compact => exact absurd rfl hm

/-! ## The state that the compactor has made -/

/-- The state that the compactor is about to write back. -/
def made (T : Threads) : Option (LsmStorageState MemTable) := T.compactor.place.bind CompactAt.next

omit [Platform] in
theorem Seen.made (h : Seen T T') :
    T'.made = T.made ∧ T'.engine.state.memtable = T.engine.state.memtable ∨
    T'.made = T.made.map fun state => state.through T'.engine.state.memtable := by
  unfold Threads.made
  rcases h.compactor with ⟨hsame, hmemtable⟩ | hthrough
  · rw [hsame]
    exact Or.inl ⟨rfl, hmemtable⟩
  · refine Or.inr ?_
    rw [hthrough, Worker.place_map]
    cases T.compactor.place with
    | none => rfl
    | some place => exact CompactAt.next_through place _

/-- The state has handles of memtables that the engine has or has flushed, and what is in it was
written. -/
def Follows (T : Threads) (state : LsmStorageState MemTable) : Prop :=
  (∀ id ∈ state.memtables.map MemTable.id, id ∈ T.engine.state.ids) ∧
    ∀ x, state.Has x → WrittenBy T.batches x

theorem Kept.follows_of_seen (h : T'.Kept options contents) (hseen : Seen T T')
    (hmade : ∀ state ∈ T.made, T.Follows state) : ∀ state ∈ T'.made, T'.Follows state := by
  intro state hstate
  have hold : ∀ x, WrittenBy T.batches x → WrittenBy T'.batches x := by
    rintro x ⟨i, batch, hbatch, hx⟩
    obtain ⟨rest, hrest⟩ := hseen.batches
    refine ⟨i, batch, ?_, hx⟩
    rw [← hrest, List.getElem?_append_left (List.getElem?_eq_some_iff.mp hbatch).1]
    exact hbatch
  rcases hseen.made with ⟨hsame, -⟩ | hthrough
  · obtain ⟨hids, hhas⟩ := hmade state (hsame ▸ hstate)
    exact ⟨fun id hid => hseen.ids id (hids id hid), fun x hx => hold x (hhas x hx)⟩
  · rw [hthrough] at hstate
    obtain ⟨old, hmem, rfl⟩ := Option.map_eq_some_iff.mp hstate
    obtain ⟨hids, hhas⟩ := hmade old hmem
    refine ⟨fun id hid => ?_, fun x hx => ?_⟩
    · rw [memtables_through_id] at hid
      exact hseen.ids id (hids id hid)
    · rcases Has.of_through hx with hx | hx
      · exact hold x (hhas x hx)
      · exact h.written x (h.settled.steady.state.has_iff.mp (Or.inl ⟨_, List.mem_cons_self, hx⟩))

/-- A state is made from the state of the engine. -/
theorem Kept.follows_of_clone (h : T.Kept options contents) (hcloned : T.published = T.cloned) :
    ∀ state ∈ T.made, T.Follows state := by
  intro state hstate
  obtain ⟨place, hplace, hnext⟩ := Option.bind_eq_some_iff.mp hstate
  cases place with
  | applied task output state removed =>
    cases hnext
    obtain ⟨ssts, hex, hsettled, -⟩ := h.exchanged hplace hcloned
    have hmemtables : state.memtables = T.engine.state.memtables := hex.memtables
    refine ⟨fun id hid => ?_, fun x hx => ?_⟩
    · rw [hmemtables] at hid
      exact List.mem_append_left _ hid
    · have hversion := hsettled.steady.state.has_iff.mp hx
      exact h.written x ((hex.hasVersion_iff h.settled.steady.state).mp hversion).1
  | _ => cases hnext

/-- When the compactor has just made a state, nothing was published since it has cloned one. -/
theorem published_of_made {place : CompactAt} (hmade : (T.stepCompactor place).made = some state) :
    (T.stepCompactor place).published = (T.stepCompactor place).cloned := by
  obtain ⟨next, hnext, hstate⟩ := Option.bind_eq_some_iff.mp hmade
  have hplace : ((compactStep place).exec T.engine).1 = .ok (some next) := Worker.of_place_after hnext
  cases place with
  | merged task output => exact Nat.add_zero _
  | start =>
    rw [compactStep_start] at hplace
    cases hgenerated : T.engine.compactionController.generateCompactionTask T.engine.state with
    | error f =>
      rw [hgenerated] at hplace
      cases hplace
    | ok task =>
      rw [hgenerated] at hplace
      cases task with
      | none => cases hplace
      | some task =>
        cases hplace
        cases hstate
  | planned task =>
    obtain ⟨o, d, id, -, -, hexec⟩ := compactStep_planned T.engine task
    rw [hexec] at hplace
    cases o with
    | error f => cases hplace
    | ok output =>
      cases hplace
      cases hstate
  | applied task output state removed =>
    rw [compactStep_applied] at hplace
    cases hplace
    cases hstate
  | installed removed =>
    obtain ⟨o, d, hexec⟩ := compactStep_installed T.engine removed
    rw [hexec] at hplace
    cases o <;> cases hplace

/-- **A step of any thread.** -/
theorem Kept.follows {contents' : ℕ → List Entry} {m : Move} (h : T.Kept options contents)
    (h' : T'.Kept options contents') (hturn : Turn T m T')
    (hmade : ∀ state ∈ T.made, T.Follows state) : ∀ state ∈ T'.made, T'.Follows state := by
  by_cases hm : m = .compact
  · subst hm
    cases hturn.took with
    | nothing => exact hmade
    | compact => exact fun state hstate => h'.follows_of_clone (published_of_made hstate) state hstate
  · exact h'.follows_of_seen (h.seen hturn hm) hmade

/-! ## Before a freeze -/

/-- The tasks whose output is installed, once the compactor writes back what it has made. -/
def installed (T : Threads) : List CompactionTask :=
  T.tasks ++ T.compactor.place.toList.flatMap CompactAt.installs

theorem tasks_move_compact (T : Threads) : (T.move .compact).tasks = T.installed := by
  unfold move installed
  cases T.compactor with
  | outside => rfl
  | inside place => exact congrArg (T.tasks ++ ·) (List.append_nil _).symm
  | panicked => exact (List.append_nil _).symm

omit [Platform] in
theorem Seen.installed (h : Seen T T') : T'.installed = T.installed := by
  unfold Threads.installed
  rw [h.tasks]
  rcases h.compactor with ⟨hsame, -⟩ | hthrough
  · rw [hsame]
  · rw [hthrough, Worker.place_map]
    cases T.compactor.place with
    | none => rfl
    | some place => cases place <;> rfl

/-- As long as the memtable that is active is the one that was cloned, the state has everything that was
written, but for tombstones. -/
def Covers (T : Threads) (state : LsmStorageState MemTable) : Prop :=
  T.engine.state.memtable.id ∈ state.memtables.map MemTable.id →
    state.memtable = T.engine.state.memtable ∧
    (∀ m ∈ state.immMemtables, m.id ≠ T.engine.state.memtable.id) ∧
    ∀ x, WrittenBy T.batches x → state.Has x ∨
      isTombstone x.2 = true ∧ ∃ task ∈ T.installed, task.compactToBottomLevel = true

theorem Seen.covers (h : Seen T T') (hfollows : ∀ state ∈ T.made, T.Follows state)
    (hcovers : ∀ state ∈ T.made, T.Covers state) : ∀ state ∈ T'.made, T'.Covers state := by
  intro state hstate hactive
  rw [h.installed]
  rcases h.made with ⟨hsame, hmemtable⟩ | hthrough
  · rw [hsame] at hstate
    rw [hmemtable] at hactive ⊢
    obtain ⟨hcloned, himms, hall⟩ := hcovers state hstate hactive
    refine ⟨hcloned, himms, fun x hx => ?_⟩
    rcases h.written x hx with hx | hx
    · exact hall x hx
    · rw [hmemtable, ← hcloned] at hx
      exact Or.inl (Or.inl ⟨_, List.mem_cons_self, hx⟩)
  · rw [hthrough] at hstate
    obtain ⟨old, hold, rfl⟩ := Option.map_eq_some_iff.mp hstate
    rw [memtables_through_id] at hactive
    -- A new memtable has an id that the clone does not know.
    have hid : T'.engine.state.memtable.id = T.engine.state.memtable.id :=
      h.active.resolve_right fun hnew => hnew ((hfollows old hold).1 _ hactive)
    rw [hid] at hactive
    obtain ⟨hcloned, himms, hall⟩ := hcovers old hold hactive
    have himms' : ∀ m ∈ old.immMemtables, m.id ≠ T'.engine.state.memtable.id := by
      rw [hid]
      exact himms
    rw [through_eq (by rw [hcloned, hid]) himms']
    refine ⟨rfl, himms', fun x hx => ?_⟩
    rcases h.written x hx with hx | hx
    · refine (hall x hx).imp_left fun hhas => ?_
      rcases hhas with ⟨m, hm, hx⟩ | htable
      · rcases List.mem_cons.mp hm with rfl | hm
        · rw [hcloned] at hx
          exact Or.inl ⟨_, List.mem_cons_self, h.memtable hid x hx⟩
        · exact Or.inl ⟨m, List.mem_cons_of_mem _ hm, hx⟩
      · exact Or.inr htable
    · exact Or.inl (Or.inl ⟨_, List.mem_cons_self, hx⟩)

theorem Kept.covers_of_clone (h : T.Kept options contents) (hcloned : T.published = T.cloned) :
    ∀ state ∈ T.made, T.Covers state := by
  intro state hstate _
  obtain ⟨place, hplace, hnext⟩ := Option.bind_eq_some_iff.mp hstate
  cases place with
  | applied task output state removed =>
    cases hnext
    obtain ⟨ssts, hex, hsettled, -⟩ := h.exchanged hplace hcloned
    have hmemtables : state.memtables = T.engine.state.memtables := hex.memtables
    obtain ⟨hmemtable, himms⟩ := List.cons.inj hmemtables
    have hinstalled : T.installed = T.tasks ++ [task] := by
      unfold installed
      rw [hplace]
      rfl
    refine ⟨hmemtable, fun m hm => h.imms_ne (himms ▸ hm), fun x hx => ?_⟩
    rw [hinstalled]
    by_cases hdrop : task.compactToBottomLevel = true ∧ isTombstone x.2 = true
    · exact Or.inr ⟨hdrop.2, task, List.mem_append_right _ (List.mem_singleton_self _), hdrop.1⟩
    · rcases h.kept x hx with hx | ⟨htomb, task', hmem, hbottom⟩
      · exact Or.inl (hsettled.steady.state.has_iff.mpr
          ((hex.hasVersion_iff h.settled.steady.state).mpr ⟨hx, fun hall => hdrop ⟨hall.1, hall.2.1⟩⟩))
      · exact Or.inr ⟨htomb, task', List.mem_append_left _ hmem, hbottom⟩
  | _ => cases hnext

/-- **A step of any thread.** -/
theorem Kept.covers {contents' : ℕ → List Entry} {m : Move} (h : T.Kept options contents)
    (h' : T'.Kept options contents') (hturn : Turn T m T')
    (hfollows : ∀ state ∈ T.made, T.Follows state) (hcovers : ∀ state ∈ T.made, T.Covers state) :
    ∀ state ∈ T'.made, T'.Covers state := by
  by_cases hm : m = .compact
  · subst hm
    cases hturn.took with
    | nothing => exact hcovers
    | compact => exact fun state hstate => h'.covers_of_clone (published_of_made hstate) state hstate
  · exact (h.seen hturn hm).covers hfollows hcovers

variable {e₀ : LsmStorageInner} {moves moves' : List Move}

/-- **The run lemma.** -/
theorem made_of_run (hblock : options.blockSize ≤ 65535) (hfresh : Fresh options e₀)
    (hrun : Run Turn (start e₀) moves T) :
    ∀ state ∈ T.made, T.Follows state ∧ T.Covers state := by
  obtain ⟨-, hfollows, hcovers⟩ := hrun.invariant
    (fun T => (∃ contents, T.Kept options contents) ∧ (∀ state ∈ T.made, T.Follows state) ∧
      ∀ state ∈ T.made, T.Covers state)
    (fun T m T' ⟨⟨contents, h⟩, hfollows, hcovers⟩ hturn => by
      obtain ⟨contents', h'⟩ := h.turn hturn
      exact ⟨⟨contents', h'⟩, h.follows h' hturn hfollows, h.covers h' hturn hfollows hcovers⟩)
    ⟨⟨_, .start hblock hfresh⟩, nofun, nofun⟩
  exact fun state hstate => ⟨hfollows state hstate, hcovers state hstate⟩

/-! ## After a freeze -/

/-- The state that the compactor has made has no handle of the active memtable. -/
structure Outdated (state : LsmStorageState MemTable) (T : Threads) : Prop where
  made : T.made = some state
  ids : ∀ id ∈ state.memtables.map MemTable.id, id ∈ T.engine.state.ids
  active : T.engine.state.memtable.id ∉ state.memtables.map MemTable.id

omit [Platform] in
/-- **It never gets one.** -/
theorem Outdated.seen (h : Outdated state T) (hseen : Seen T T') : Outdated state T' := by
  have hactive : T'.engine.state.memtable.id ∉ state.memtables.map MemTable.id := by
    rcases hseen.active with hsame | hnew
    · rw [hsame]
      exact h.active
    · exact fun hid => hnew (h.ids _ hid)
  refine ⟨?_, fun id hid => hseen.ids id (h.ids id hid), hactive⟩
  rcases hseen.made with ⟨hsame, -⟩ | hthrough
  · rw [hsame, h.made]
  · rw [hthrough, h.made, Option.map_some, through_of_ne hactive]

theorem outdated_of_run (h : T.Kept options contents) (houtdated : Outdated state T)
    (hrun : Run Turn T moves T') (hmoves : Move.compact ∉ moves) :
    (∃ contents, T'.Kept options contents) ∧ Outdated state T' := by
  have hothers : Run (fun T m T' => Turn T m T' ∧ m ≠ .compact) T moves T' :=
    hrun.mono_of_mem fun m hm _ _ hturn => ⟨hturn, fun heq => hmoves (heq ▸ hm)⟩
  refine hothers.invariant (fun T => (∃ contents, T.Kept options contents) ∧ Outdated state T)
    (fun T m T' ⟨⟨contents, h⟩, houtdated⟩ ⟨hturn, hm⟩ => ?_) ⟨⟨contents, h⟩, houtdated⟩
  exact ⟨h.turn hturn, houtdated.seen (h.seen hturn hm)⟩

/-- The write-back of a compaction. -/
theorem move_compact_of_made (h : T.made = some state) : (T.move .compact).engine.state = state := by
  obtain ⟨place, hplace, hnext⟩ := Option.bind_eq_some_iff.mp h
  cases hc : T.compactor with
  | inside place' =>
    rw [hc] at hplace
    cases hplace
    cases place with
    | applied task output state removed =>
      cases hnext
      unfold move
      rw [hc]
      rfl
    | _ => cases hnext
  | _ =>
    rw [hc] at hplace
    cases hplace

/-- **What a disturbed compaction keeps.**  As long as the memtable that is active has a handle in the state
of the compactor, whatever was flushed meanwhile, writing that state back leaves exactly what was written,
up to dropped tombstones. -/
theorem install_keeps (hblock : options.blockSize ≤ 65535) (hfresh : Fresh options e₀)
    (hrun : Run Turn (start e₀) moves T) (hmade : T.made = some state)
    (hactive : T.engine.state.memtable.id ∈ state.memtables.map MemTable.id) :
    (∀ x, (T.move .compact).engine.state.Has x → WrittenBy T.batches x) ∧
      ∀ x, WrittenBy T.batches x → (T.move .compact).engine.state.Has x ∨ (T.move .compact).Dropped x := by
  obtain ⟨⟨-, hhas⟩, hcovers⟩ := made_of_run hblock hfresh hrun state hmade
  obtain ⟨-, -, hall⟩ := hcovers hactive
  unfold Dropped
  rw [move_compact_of_made hmade, tasks_move_compact]
  exact ⟨hhas, hall⟩

/-- **What a disturbed compaction loses.**  Once a freeze has published a memtable that the state of the
compactor has no handle of, every batch that is written before the compactor writes that state back is
stored before, up to dropped tombstones, and is gone afterwards. -/
theorem install_loses (hblock : options.blockSize ≤ 65535) (hfresh : Fresh options e₀)
    (hrun : Run Turn (start e₀) moves T) (hmade : T.made = some state)
    (hfrozen : T.engine.state.memtable.id ∉ state.memtables.map MemTable.id)
    (hrun' : Run Turn T moves' T') (hmoves : Move.compact ∉ moves') :
    (T'.move .compact).engine.state = state ∧
      ∀ x, WrittenBy T'.batches x → ¬WrittenBy T.batches x →
        (T'.engine.state.Has x ∨ T'.Dropped x) ∧ ¬(T'.move .compact).engine.state.Has x := by
  obtain ⟨contents, h⟩ := kept_of_run hblock hfresh hrun
  obtain ⟨⟨hids, hhas⟩, -⟩ := made_of_run hblock hfresh hrun state hmade
  obtain ⟨⟨contents', h'⟩, houtdated⟩ := outdated_of_run h ⟨hmade, hids, hfrozen⟩ hrun' hmoves
  have hstate := move_compact_of_made houtdated.made
  refine ⟨hstate, fun x hx hlate => ⟨?_, fun hlost => hlate (hhas x ?_)⟩⟩
  · exact (h'.kept x hx).imp_left h'.settled.steady.state.has_iff.mpr
  · rwa [hstate] at hlost

/-! ## Under a freeze -/

/-- The publication of a freeze. -/
theorem move_write_of_recorded {ts : UInt64} {clone : LsmStorageState MemTable}
    (h : T.writer.place = some (.freezing ts (.recorded clone))) :
    (T.move .write).engine.state = clone := by
  cases hw : T.writer with
  | inside place =>
    rw [hw] at h
    cases h
    unfold move
    rw [hw]
    rfl
  | _ =>
    rw [hw] at h
    cases h

/-- The compactor leaves the writer where it is. -/
theorem writer_move_compact (T : Threads) : (T.move .compact).writer = T.writer := by
  unfold move
  cases T.compactor <;> rfl

omit [Platform] in
/-- A freeze that has its clone and does not publish it next has still to record its memtable. -/
theorem created_of_frozen {clone : LsmStorageState MemTable} (hfrozen : T.frozen = some clone)
    (hpublishes : T.writer.place.map WriteAt.publishes = some false) :
    ∃ ts, T.writer = .inside (.freezing ts (.created clone)) := by
  unfold frozen at hfrozen
  cases hw : T.writer with
  | inside place =>
    rw [hw] at hfrozen hpublishes
    cases place with
    | freezing ts place =>
      cases place with
      | start => cases hfrozen
      | created state =>
        cases hfrozen
        exact ⟨ts, rfl⟩
      | recorded state => cases hpublishes
    | _ => cases hfrozen
  | _ =>
    rw [hw] at hfrozen
    cases hfrozen

/-- A freeze that goes on publishes the state that it has made. -/
theorem recorded_of_created {ts : UInt64} {clone : LsmStorageState MemTable} {place : WriteAt}
    (h : T.writer = .inside (.freezing ts (.created clone)))
    (hplace : (T.move .write).writer.place = some place) : place = .freezing ts (.recorded clone) := by
  unfold move at hplace
  rw [h] at hplace
  obtain ⟨e', hexec⟩ := Effect.exists_exec (Worker.of_place_after hplace)
  obtain ⟨d, hnext, -⟩ := writeStep_created_ok hexec
  exact Option.some.inj hnext

/-- The clone of a freeze is the state of the engine, with the memtable frozen. -/
theorem Kept.frozen_clone (h : T.Kept options contents) {clone : LsmStorageState MemTable}
    (hfrozen : T.frozen = some clone) : Frozen T.engine clone := by
  obtain ⟨place, hplace, hnext⟩ := Option.bind_eq_some_iff.mp hfrozen
  have hwriting := h.writer place hplace
  cases place with
  | freezing ts place =>
    cases place with
    | start => cases hnext
    | created state =>
      cases hnext
      exact hwriting
    | recorded state =>
      cases hnext
      exact hwriting
  | _ => cases hnext

/-- **What a freeze undoes.**  The compactor writes its state back when a freeze has made its own.  Whatever
the threads do until the freeze publishes that one, the state is then the one from before the write-back,
with its memtable frozen: what the compactor removes is listed again, and its output is not.  What is stored
is what was stored. -/
theorem install_undone (hblock : options.blockSize ≤ 65535) (hfresh : Fresh options e₀)
    (hrun : Run Turn (start e₀) moves T)
    (hplace : T.compactor.place = some (.applied task output state removed))
    (hcloned : T.published = T.cloned) {clone : LsmStorageState MemTable} (hfrozen : T.frozen = some clone)
    {ts : UInt64} (hrecorded : (moves'.foldl move (T.move .compact)).writer.place =
      some (.freezing ts (.recorded clone))) :
    (∃ memtable, memtable.map = SkipMap.new ∧
      ((moves'.foldl move (T.move .compact)).move .write).engine.state =
        T.engine.state.frozenState memtable) ∧
      removed = task.inputIds ∧
      (∀ id ∈ removed, id ∈ T.engine.state.listedIds ∧ id ∉ (T.move .compact).engine.state.listedIds) ∧
      (∀ id ∈ output, id ∉ T.engine.state.listedIds ∧ id ∈ (T.move .compact).engine.state.listedIds) ∧
      ∀ x, ((moves'.foldl move (T.move .compact)).move .write).engine.state.Has x ↔
        T.engine.state.Has x := by
  obtain ⟨contents, h⟩ := kept_of_run hblock hfresh hrun
  obtain ⟨ssts, hex, -, rfl, rfl⟩ := h.exchanged hplace hcloned
  obtain ⟨memtable, hempty, rfl⟩ := h.frozen_clone hfrozen
  have hmade : T.made = some state := by
    unfold made
    rw [hplace]
    rfl
  have hlisted : ∀ id, id ∈ state.listedIds ↔
      id ∈ T.engine.state.listedIds ∧ id ∉ task.inputIds ∨ id ∈ ssts.map SsTable.id := by
    intro id
    rw [hex.listed.mem_iff, List.mem_append, List.mem_filter, decide_eq_true_iff]
    rfl
  have hnew : ∀ id ∈ ssts.map SsTable.id, id ∉ T.engine.state.listedIds := by
    intro id hid hin
    refine (List.nodup_append.mp h.nodup).2.2 id (List.mem_append_right _ hin) id ?_ rfl
    rw [hplace]
    exact List.mem_append_right _ (by simpa [CompactAt.taken] using hid)
  rw [move_write_of_recorded hrecorded, move_compact_of_made hmade]
  refine ⟨⟨memtable, hempty, rfl⟩, rfl, fun id hid => ⟨hex.inputs.subset hid, fun hin => ?_⟩,
    fun id hid => ⟨hnew id hid, (hlisted id).mpr (Or.inr hid)⟩, fun x => has_frozenState hempty⟩
  rcases (hlisted id).mp hin with ⟨-, hnot⟩ | hout
  · exact hnot hid
  · exact hnew id hout (hex.inputs.subset hid)

end Threads

section

attribute [local instance] shortKeyPlatform

namespace Threads

open LsmStorageInner

/-- A write with its freeze. -/
def wholeWrite (batch : List WriteBatchRecord) : List Move := .call batch :: List.replicate 7 .write

/-- Two writes are frozen and the first one is flushed.  When a compaction has its clone, the second one is
flushed, and a third batch is put. -/
def flushDuringCompaction : List Move :=
  wholeWrite [.put [1] [7]] ++ wholeWrite [.put [2] [8]] ++ List.replicate 3 .flush ++
    List.replicate 3 .compact ++ List.replicate 3 .flush ++ [.call [.put [3] [9]], .write, .write]

theorem install_keeps_small : ∃ T : Threads,
    Run Turn (start (newStore eagerOptions)) flushDuringCompaction T ∧
      T.engine.state.immMemtables.length = 0 ∧ (T.move .compact).engine.state.immMemtables.length = 1 ∧
      ∀ x, (T.move .compact).engine.state.Has x ↔ WrittenBy T.batches x := by
  have hfinal : (execAll afterTurn flushDuringCompaction (start (newStore eagerOptions))).map (fun T =>
      (T.made.map (fun state => state.memtables.map MemTable.id), T.engine.state.memtable.id,
        (T.engine.state.immMemtables.length, (T.move .compact).engine.state.immMemtables.length),
        (T.move .compact).tasks.all fun task => !task.compactToBottomLevel)) =
        some (some [2, 1], 2, (0, 1), true) := by
    decide +kernel
  obtain ⟨T, hT, hsummary⟩ := Option.map_eq_some_iff.mp hfinal
  obtain ⟨hhandles, hsummary⟩ := Prod.mk.inj hsummary
  obtain ⟨hactive, hsummary⟩ := Prod.mk.inj hsummary
  obtain ⟨hlengths, hbottom⟩ := Prod.mk.inj hsummary
  obtain ⟨hbefore, hafter⟩ := Prod.mk.inj hlengths
  obtain ⟨state, hmade, hids⟩ := Option.map_eq_some_iff.mp hhandles
  have hrun := run_of_execAll (fun _ _ _ => turn_of_afterTurn) hT
  obtain ⟨hold, hall⟩ := install_keeps (by decide) (fresh_newStore eagerOptions) hrun hmade
    (by rw [hids, hactive]; decide)
  refine ⟨T, hrun, hbefore, hafter, fun x => ⟨hold x, fun hx => (hall x hx).resolve_right ?_⟩⟩
  rintro ⟨-, task, htask, hbottomLevel⟩
  have hnot := List.all_eq_true.mp hbottom task htask
  rw [hbottomLevel] at hnot
  cases hnot

/-- A write is frozen and flushed, and another one is frozen when a compaction has its clone. -/
def freezeDuringCompaction : List Move :=
  wholeWrite [.put [1] [7]] ++ List.replicate 3 .flush ++ List.replicate 3 .compact ++
    wholeWrite [.put [2] [8]]

theorem install_loses_small : ∃ T : Threads,
    Run Turn (start (newStore eagerOptions)) (freezeDuringCompaction ++ wholeWrite [.put [3] [9]]) T ∧
      T.engine.latestCommitTs = commitTs 3 ∧ T.engine.get [3] = .ok (some [9]) ∧
      (T.move .compact).engine.get [3] = .ok none ∧
      ¬(T.move .compact).engine.state.Has (⟨[3], commitTs 3⟩, [9]) := by
  have hbefore : (execAll afterTurn freezeDuringCompaction (start (newStore eagerOptions))).map (fun T =>
      (T.made.map (fun state => state.memtables.map MemTable.id), T.engine.state.memtable.id,
        T.batches.length)) = some (some [1], 3, 2) := by
    decide +kernel
  obtain ⟨T, hT, hsummary⟩ := Option.map_eq_some_iff.mp hbefore
  obtain ⟨hhandles, hsummary⟩ := Prod.mk.inj hsummary
  obtain ⟨hactive, hlength⟩ := Prod.mk.inj hsummary
  obtain ⟨state, hmade, hids⟩ := Option.map_eq_some_iff.mp hhandles
  have hafter : ((execAll afterTurn freezeDuringCompaction (start (newStore eagerOptions))).bind fun T =>
      (execAll afterTurn (wholeWrite [.put [3] [9]]) T).map fun T' =>
        ((T'.batches[2]?, T'.engine.latestCommitTs), (T'.engine.get [3]).toOption,
          ((T'.move .compact).engine.get [3]).toOption)) =
        some ((some [.put [3] [9]], commitTs 3), some (some [9]), some none) := by
    decide +kernel
  rw [hT, Option.bind_some] at hafter
  obtain ⟨T', hT', hsummary⟩ := Option.map_eq_some_iff.mp hafter
  obtain ⟨hwritten, hsummary⟩ := Prod.mk.inj hsummary
  obtain ⟨hbatch, hts⟩ := Prod.mk.inj hwritten
  obtain ⟨hget, hlost⟩ := Prod.mk.inj hsummary
  have hrun := run_of_execAll (fun _ _ _ => turn_of_afterTurn) hT
  have hrun' := run_of_execAll (fun _ _ _ => turn_of_afterTurn) hT'
  obtain ⟨-, hgone⟩ := install_loses (by decide) (fresh_newStore eagerOptions) hrun hmade
    (by rw [hids, hactive]; decide) hrun' (by simp [wholeWrite])
  refine ⟨T', hrun.append hrun', hts, eq_ok_of_toOption hget, eq_ok_of_toOption hlost,
     (hgone _ ⟨2, _, hbatch, rfl, by decide⟩ ?_).2⟩
  rintro ⟨i, batch, hi, heq, -⟩
  have hlt : i < 2 := hlength ▸ (List.getElem?_eq_some_iff.mp hi).1
  interval_cases i <;> cases heq

/-- A write is frozen and flushed.  When a compaction has its clone, the freeze of another write makes its
own. -/
def compactionUnderFreeze : List Move :=
  wholeWrite [.put [1] [7]] ++ List.replicate 3 .flush ++ List.replicate 3 .compact ++
    .call [.put [2] [8]] :: List.replicate 4 .write

/-- The table that is listed again has no file, and that of the output is listed nowhere.  The table is
still open. -/
theorem install_undone_small : ∃ T T' : Threads,
    Run Turn (start (newStore eagerOptions)) compactionUnderFreeze T ∧
      T' = ([.compact, .write].foldl move (T.move .compact)).move .write ∧
      0 ∈ T.engine.state.listedIds ∧ 0 ∉ (T.move .compact).engine.state.listedIds ∧
      2 ∈ (T.move .compact).engine.state.listedIds ∧ T'.engine.state.listedIds = T.engine.state.listedIds ∧
      T'.engine.disk.ssts.keys = [2] ∧ T'.engine.get [1] = .ok (some [7]) := by
  have hfinal : (execAll afterTurn compactionUnderFreeze (start (newStore eagerOptions))).map (fun T =>
      let T' := [.compact, .write].foldl move (T.move .compact)
      decide (T.published = T.cloned ∧ T.frozen.isSome ∧ T.writer.place.map WriteAt.publishes = some false ∧
        T.compactor.place.map (fun place => (place.taken, place.installs.map CompactionTask.inputIds)) =
          some ([2], [[0]]) ∧
        T'.writer.place.map WriteAt.publishes = some true ∧
        (T'.move .write).engine.disk.ssts.keys = [2] ∧
        ((T'.move .write).engine.get [1]).toOption = some (some [7]))) = some true := by
    decide +kernel
  obtain ⟨T, hT, hsummary⟩ := Option.map_eq_some_iff.mp hfinal
  obtain ⟨hcloned, hsome, hpublishes, hcompactor, hnext, hfiles, hget⟩ := of_decide_eq_true hsummary
  have hrun := run_of_execAll (fun _ _ _ => turn_of_afterTurn) hT
  obtain ⟨place, hplace, hids⟩ := Option.map_eq_some_iff.mp hcompactor
  obtain ⟨clone, hclone⟩ := Option.isSome_iff_exists.mp hsome
  obtain ⟨place', hplace', -⟩ := Option.map_eq_some_iff.mp hnext
  obtain ⟨ts, hwriter⟩ := created_of_frozen hclone hpublishes
  have hwriter' : ((T.move .compact).move .compact).writer = .inside (.freezing ts (.created clone)) := by
    rw [writer_move_compact, writer_move_compact, hwriter]
  obtain rfl := recorded_of_created hwriter' hplace'
  cases place with
  | applied task output state removed =>
    obtain ⟨houtput, hinputs⟩ := Prod.mk.inj hids
    obtain ⟨⟨memtable, -, hstate⟩, rfl, hremoved, hinstalled, -⟩ :=
      install_undone (by decide) (fresh_newStore eagerOptions) hrun hplace hcloned hclone hplace'
    have hzero : 0 ∈ task.inputIds := by
      rw [(List.cons.inj hinputs).1]
      exact List.mem_singleton_self _
    have htwo : 2 ∈ output := by
      rw [show output = [2] from houtput]
      exact List.mem_singleton_self _
    refine ⟨T, _, hrun, rfl, (hremoved 0 hzero).1, (hremoved 0 hzero).2, (hinstalled 2 htwo).2, ?_, hfiles,
      eq_ok_of_toOption hget⟩
    rw [hstate]
    rfl
  | _ => cases (Prod.mk.inj hids).2

end Threads

end

end TinyLsm

import TinyLsm.LsmStorage.LostUpdate

/-!
# What the threads hold

Each version that a writer has put into a memtable is stored from then on, in whatever order a writer, a
flusher and a compactor take their steps, until a compaction to the bottom leaves it out
(`Threads.everything_held`).  This needs that nobody disturbs the compactor: the write-back of a compaction
that somebody has disturbed loses a batch (`Threads.freeze_overwritten`).

What was put and what was left out is read off the steps that were taken.
-/

namespace TinyLsm

theorem Worker.of_place {P : Type} {w : Worker P} {place : P} (h : w.place = some place) :
    w = .inside place := by
  cases w with
  | inside place' => exact congrArg Worker.inside (Option.some.inj h)
  | outside => cases h
  | panicked => cases h

namespace Threads

open LsmStorageInner LsmStorageState

variable [Platform] {options : LsmStorageOptions} {contents : ℕ → List Entry} {T T' : Threads}
  {e₀ : LsmStorageInner} {moves : List Move} {m : Move} {x : Entry}

/-- The next step puts the version into the memtable: of the records of a batch with one key the last
counts. -/
def PutsNext (T : Threads) (m : Move) (x : Entry) : Prop :=
  m = .write ∧ ∃ ts batch, T.writer = .inside (.stamped ts batch) ∧
    LastIn (batch.map (WriteBatchRecord.entry ts)) x

/-- The next step writes back a compaction that leaves the version out. -/
def LeavesOutNext (T : Threads) (m : Move) (x : Entry) : Prop :=
  m = .compact ∧ ∃ task output state removed,
    T.compactor = .inside (.applied task output state removed) ∧ task.Drops T.engine.state x

/-- One of the steps did it. -/
def OneOf (does : Threads → Move → Entry → Prop) (e₀ : LsmStorageInner) (moves : List Move)
    (x : Entry) : Prop :=
  ∃ before m after, moves = before ++ m :: after ∧ does (before.foldl move (start e₀)) m x

/-- Each listed id is a table of the map, and each version that was put is stored if it was not left
out. -/
def HoldsAll (e₀ : LsmStorageInner) (moves : List Move) : Prop :=
  let T := moves.foldl move (start e₀)
  (∀ id ∈ T.engine.state.listedIds, ∃ t, T.engine.state.sstables.lookup id = some t) ∧
    ∀ x, OneOf PutsNext e₀ moves x → T.engine.state.Has x ∨ OneOf LeavesOutNext e₀ moves x

theorem oneOf_concat {does : Threads → Move → Entry → Prop} :
    OneOf does e₀ (moves ++ [m]) x ↔
      OneOf does e₀ moves x ∨ does (moves.foldl move (start e₀)) m x := by
  constructor
  · rintro ⟨before, m', after, hmoves, hdoes⟩
    rcases List.eq_nil_or_concat after with rfl | ⟨after, last, rfl⟩
    · obtain ⟨rfl, hlast⟩ := List.append_inj' hmoves rfl
      obtain rfl := (List.cons.inj hlast).1
      exact Or.inr hdoes
    · rw [List.concat_eq_append, ← List.cons_append, ← List.append_assoc] at hmoves
      obtain ⟨rfl, -⟩ := List.append_inj' hmoves rfl
      exact Or.inl ⟨before, m', after, rfl, hdoes⟩
  · rintro (⟨before, m', after, rfl, hdoes⟩ | hdoes)
    · exact ⟨before, m', after ++ [m], by rw [List.append_assoc, List.cons_append], hdoes⟩
    · exact ⟨moves, m, [], rfl, hdoes⟩

/-- A run goes where its steps lead. -/
theorem foldl_of_run (hrun : Run Turn (start e₀) moves T) : moves.foldl move (start e₀) = T :=
  (run_foldl move (start e₀) moves).unique (fun _ _ _ _ h h' => h.symm.trans h')
    (hrun.mono fun _ _ _ hturn => hturn.2.2)

/-! ## The step -/

/-- The batch that is put replaces nothing. -/
theorem Kept.has_put (h : T.Kept options contents) {ts : UInt64} {batch : List WriteBatchRecord}
    {d : Disk} (hplace : T.writer.place = some (.stamped ts batch)) :
    (T.engine.afterPut (batch.map (WriteBatchRecord.entry ts)) d).state.Has x ↔
      LastIn (batch.map (WriteBatchRecord.entry ts)) x ∨ T.engine.state.Has x := by
  have hencodable := (h.writer _ hplace).1
  obtain ⟨hahead, hts, -, -⟩ := h.stamped_next hplace
  have hsettled := h.settled
  rw [hahead] at hsettled
  obtain ⟨hput, hversion⟩ := hsettled.steady.put hencodable.fits hts d
  exact hput.state.has_iff.trans
    ((hversion x).trans (or_congr_right hsettled.steady.state.has_iff.symm))

/-- A step of the writer loses nothing, and what it puts is stored. -/
theorem Kept.has_stepWriter (h : T.Kept options contents) {place : WriteAt}
    (hplace : T.writer.place = some place)
    (hok : ∃ next, ((writeStep place).exec T.engine).1 = .ok next)
    (hx : T.engine.state.Has x ∨ T.PutsNext .write x) : (T.stepWriter place).engine.state.Has x := by
  obtain ⟨next, hok⟩ := hok
  obtain ⟨e', hexec⟩ := Effect.exists_exec hok
  have hengine : (T.stepWriter place).engine = e' := by
    unfold Threads.stepWriter
    rw [hexec]
  rw [hengine]
  -- Only a batch that is about to be put is put.
  have hstays : (∀ ts batch, place ≠ .stamped ts batch) → T.engine.state.Has x := by
    intro hne
    rcases hx with hx | ⟨-, ts, batch, hwriter, -⟩
    · exact hx
    · rw [hwriter] at hplace
      exact absurd (Option.some.inj hplace).symm (hne ts batch)
  cases place with
  | start batch =>
    obtain ⟨ts, -, -, rfl⟩ := writeStep_start_ok hexec
    exact hstays nofun
  | stamped ts batch =>
    obtain ⟨d, -, rfl⟩ := writeStep_stamped_ok hexec
    refine (h.has_put hplace).mpr ?_
    rcases hx with hx | ⟨-, ts', batch', hwriter, hlast⟩
    · exact Or.inr hx
    · rw [hwriter] at hplace
      cases hplace
      exact Or.inl hlast
  | written ts =>
    obtain ⟨-, rfl⟩ := writeStep_written_ok hexec
    exact hstays nofun
  | committing ts =>
    rw [writeStep_committing] at hexec
    cases hexec
    exact hstays nofun
  | freezing ts place =>
    cases place with
    | start =>
      obtain ⟨memtable, d, -, -, -, rfl⟩ := writeStep_clone_ok hexec
      exact hstays nofun
    | created state =>
      obtain ⟨d, -, rfl⟩ := writeStep_created_ok hexec
      exact hstays nofun
    | recorded state =>
      obtain ⟨memtable, hempty, rfl⟩ := h.writer _ hplace
      rw [writeStep_recorded] at hexec
      cases hexec
      exact (has_frozenState hempty).mpr (hstays nofun)

/-- A step of the flusher loses nothing. -/
theorem Kept.has_stepFlusher (h : T.Kept options contents) {place : FlushAt}
    (hcurrent : Current T.engine place) (hx : T.engine.state.Has x) :
    (T.stepFlusher place).engine.state.Has x := by
  obtain ⟨o, d, hexec | ⟨m, builder, hlast, rfl, hexec⟩⟩ := atomicStep_exec hcurrent
  · unfold Threads.stepFlusher
    rw [hexec]
    exact hx
  · obtain ⟨m', builder', hlast', hflush, heq⟩ := hcurrent
    obtain rfl := Option.some.inj (hlast.symm.trans hlast')
    have himm : m ∈ T.engine.state.immMemtables := List.mem_of_getLast? hlast
    obtain ⟨hsettled, hiff⟩ :=
      h.settled.publish hlast (h.keys m (List.mem_cons_of_mem _ himm)) hflush
    rw [← heq] at hsettled hiff
    unfold Threads.stepFlusher
    rw [hexec]
    exact hsettled.steady.state.has_iff.mpr ((hiff x).mpr (h.settled.steady.state.has_iff.mp hx))

/-- A step of the compactor loses at most the tombstones that its task leaves out. -/
theorem Kept.has_stepCompactor (h : T.Kept options contents) {place : CompactAt}
    (hplace : T.compactor.place = some place ∨ place = .start)
    (hundisturbed : place.installs ≠ [] → T.published = T.cloned ∧ T.frozen = none)
    (hx : T.engine.state.Has x) :
    (T.stepCompactor place).engine.state.Has x ∨ T.LeavesOutNext .compact x := by
  -- Only a write-back changes the state.
  have hstays : (∀ task output state removed, place ≠ .applied task output state removed) →
      (T.stepCompactor place).engine.state = T.engine.state := by
    intro hne
    unfold Threads.stepCompactor
    cases place with
    | start => rw [compactStep_start]
    | planned task =>
      obtain ⟨o, d, next, -, -, hexec⟩ := compactStep_planned T.engine task
      rw [hexec]
    | merged task output => rw [compactStep_merged]
    | applied task output state removed => exact absurd rfl (hne task output state removed)
    | installed removed =>
      obtain ⟨o, d, hexec⟩ := compactStep_installed T.engine removed
      rw [hexec]
  cases place with
  | applied task output state removed =>
    have hinside := hplace.resolve_right nofun
    obtain ⟨ssts, hex, hsettled, -⟩ := h.exchanged hinside (hundisturbed (List.cons_ne_nil _ _)).1
    by_cases hdrops : task.Drops T.engine.state x
    · exact Or.inr ⟨rfl, task, output, state, removed, Worker.of_place hinside, hdrops⟩
    · left
      have hversion := (hex.hasVersion_iff h.settled.steady.state (x := x)).mpr
        ⟨h.settled.steady.state.has_iff.mp hx, fun hall => hdrops ((h.settled.drops_iff hex.inputs).mpr hall)⟩
      exact hsettled.steady.state.has_iff.mpr hversion
  | _ =>
    rw [hstays nofun]
    exact Or.inl hx

/-- **What a step keeps**: a version that is stored, or is put, is stored afterwards if it is not left
out. -/
theorem Kept.has_turn (h : T.Kept options contents) (hturn : Turn T m T')
    (hx : T.engine.state.Has x ∨ T.PutsNext m x) : T'.engine.state.Has x ∨ T.LeavesOutNext m x := by
  rcases hx with hx | hputs
  · cases hturn.took with
    | nothing => exact Or.inl hx
    | call => exact Or.inl hx
    | write hplace hok => exact Or.inl (h.has_stepWriter hplace hok (Or.inl hx))
    | flush hplace hunlocked => exact Or.inl (h.has_stepFlusher (h.current hplace) hx)
    | compact hplace hundisturbed => exact h.has_stepCompactor hplace hundisturbed hx
  · obtain ⟨rfl, ts, batch, hwriter, hlast⟩ := hputs
    have hplace : T.writer.place = some (.stamped ts batch) := by rw [hwriter]; rfl
    obtain ⟨hsucceeds, -, rfl⟩ := hturn
    rw [show T.move .write = T.stepWriter (.stamped ts batch) by unfold move; rw [hwriter]]
    exact Or.inl (h.has_stepWriter hplace (hsucceeds _ hplace) (Or.inr ⟨rfl, ts, batch, hwriter, hlast⟩))

/-! ## The run -/

/-- **Everything that was put is held**, after every step of a writer, a flusher and a compactor in any
order, but for the tombstones that compactions to the bottom have left out, as long as nothing is published
between the clone of a compaction and its write-back, and no freeze holds a clone of its own at that
moment. -/
theorem everything_held (hblock : options.blockSize ≤ 65535) (hfresh : Fresh options e₀)
    (hrun : Run Turn (start e₀) moves T) : HoldsAll e₀ moves := by
  have hheld : (∃ contents, T.Kept options contents) ∧
      moves.foldl move (start e₀) = T ∧
      ∀ x, OneOf PutsNext e₀ moves x → T.engine.state.Has x ∨ OneOf LeavesOutNext e₀ moves x := by
    refine hrun.invariant_of_steps (fun moves T => (∃ contents, T.Kept options contents) ∧
      moves.foldl move (start e₀) = T ∧
        ∀ x, OneOf PutsNext e₀ moves x → T.engine.state.Has x ∨ OneOf LeavesOutNext e₀ moves x)
      ⟨⟨_, .start hblock hfresh⟩, rfl, ?_⟩ ?_
    · rintro x ⟨before, m, after, hmoves, -⟩
      exact absurd hmoves.symm (List.append_ne_nil_of_right_ne_nil _ (List.cons_ne_nil _ _))
    · rintro moves T m T' ⟨⟨contents, h⟩, hT, hall⟩ hturn
      refine ⟨h.turn hturn, ?_, fun x hput => ?_⟩
      · rw [List.foldl_append, hT]
        exact hturn.2.2
      · rw [oneOf_concat, hT] at hput ⊢
        rcases hput with hput | hput
        · rcases hall x hput with hhas | hout
          · exact (h.has_turn hturn (Or.inl hhas)).imp_right Or.inr
          · exact Or.inr (Or.inl hout)
        · exact (h.has_turn hturn (Or.inr hput)).imp_right Or.inr
  obtain ⟨⟨contents, h⟩, hT, hall⟩ := hheld
  unfold HoldsAll
  rw [hT]
  refine ⟨fun id hid => ?_, hall⟩
  obtain ⟨t, ht, -⟩ := h.settled.steady.state.tables id hid
  exact ⟨t, ht⟩

/-- **The write-back of a disturbed compaction** loses what was put after a freeze has published a memtable
that the compactor has no handle of. -/
theorem not_holdsAll {moves' : List Move} {state : LsmStorageState MemTable} (hblock : options.blockSize ≤ 65535)
    (hfresh : Fresh options e₀) (hrun : Run Turn (start e₀) moves T) (hmade : T.made = some state)
    (hfrozen : T.engine.state.memtable.id ∉ state.memtables.map MemTable.id)
    (hrun' : Run Turn T moves' T') (hmoves : Move.compact ∉ moves')
    (hput : OneOf PutsNext e₀ (moves ++ moves') x) (hlate : ¬WrittenBy T.batches x)
    (hlive : isTombstone x.2 = false) : ¬HoldsAll e₀ (moves ++ moves' ++ [.compact]) := by
  obtain ⟨contents, h⟩ := kept_of_run hblock hfresh hrun
  obtain ⟨⟨hids, hhas⟩, -⟩ := made_of_run hblock hfresh hrun state hmade
  obtain ⟨-, houtdated⟩ := outdated_of_run h ⟨hmade, hids, hfrozen⟩ hrun' hmoves
  have hT' : (moves ++ moves').foldl move (start e₀) = T' := foldl_of_run (hrun.append hrun')
  rintro ⟨-, hall⟩
  rcases hall x (oneOf_concat.mpr (Or.inl hput)) with hstored | hout
  · rw [List.foldl_append, hT'] at hstored
    refine hlate (hhas x ?_)
    rw [← move_compact_of_made houtdated.made]
    exact hstored
  · obtain ⟨before, m, after, -, -, task, output, state', removed, -, hdrops⟩ := hout
    rw [hdrops.2.1] at hlive
    cases hlive

end Threads

section

attribute [local instance] shortKeyPlatform

namespace Threads

open LsmStorageInner

/-- The batch that the writer is about to put, and its timestamp. -/
def putting (T : Threads) : Option (UInt64 × List WriteBatchRecord) :=
  match T.writer with
  | .inside (.stamped ts batch) => some (ts, batch)
  | _ => none

theorem oneOf_puts {e₀ : LsmStorageInner} {before after : List Move} {ts : UInt64}
    {batch : List WriteBatchRecord} {x : Entry}
    (hputting : (before.foldl move (start e₀)).putting = some (ts, batch))
    (hlast : LastIn (batch.map (WriteBatchRecord.entry ts)) x) :
    OneOf PutsNext e₀ (before ++ .write :: after) x := by
  refine ⟨before, .write, after, rfl, rfl, ts, batch, ?_, hlast⟩
  unfold putting at hputting
  split at hputting
  · rename_i hwriter
    cases hputting
    exact hwriter
  · cases hputting

/-- A write is flushed, and two compactions take its table to the bottom; a batch is put while the second
one has its clone. -/
def compactedTwice : List Move :=
  wholeWrite [.del [1], .put [2] [8]] ++ List.replicate 3 .flush ++ List.replicate 8 .compact ++
    [.call [.put [3] [9]], .write, .write] ++ List.replicate 2 .compact

theorem everything_held_small : ∃ T : Threads, Run Turn (start (newStore eagerOptions)) compactedTwice T ∧
    T.tasks.map CompactionTask.compactToBottomLevel = [false, true] ∧
    HoldsAll (newStore eagerOptions) compactedTwice ∧ T.engine.state.Has (⟨[2], commitTs 1⟩, [8]) := by
  have hfinal : (execAll afterTurn compactedTwice (start (newStore eagerOptions))).map (fun T =>
      T.tasks.map CompactionTask.compactToBottomLevel) = some [false, true] := by
    decide +kernel
  obtain ⟨T, hT, htasks⟩ := Option.map_eq_some_iff.mp hfinal
  have hrun := run_of_execAll (fun _ _ _ => turn_of_afterTurn) hT
  have hholds := everything_held (by decide) (fresh_newStore eagerOptions) hrun
  refine ⟨T, hrun, htasks, hholds, ?_⟩
  have hput : OneOf PutsNext (newStore eagerOptions) compactedTwice (⟨[2], commitTs 1⟩, [8]) := by
    have hputting : ([.call [.del [1], .put [2] [8]], .write].foldl move
        (start (newStore eagerOptions))).putting = some (commitTs 1, [.del [1], .put [2] [8]]) := by
      decide +kernel
    exact oneOf_puts hputting (by unfold LastIn; decide)
  rcases hholds.2 _ hput with hhas | ⟨before, m, after, -, -, task, output, state, removed, -, hdrops⟩
  · rwa [foldl_of_run hrun] at hhas
  · cases hdrops.2.1

/-- The batch that is put when a freeze has published a new memtable after the clone of a compaction is gone
after the write-back. -/
theorem freeze_overwritten : ∃ (moves : List Move) (T : Threads),
    moves.foldl move (start (newStore eagerOptions)) = T ∧ T.writer.place = none ∧
      T.engine.latestCommitTs = commitTs 3 ∧ T.engine.get [3] = .ok none ∧
      ¬HoldsAll (newStore eagerOptions) moves := by
  have hclone : (execAll afterTurn freezeDuringCompaction (start (newStore eagerOptions))).map (fun T =>
      (T.made.map (fun state => state.memtables.map MemTable.id), T.engine.state.memtable.id,
        T.batches)) = some (some [1], 3, [[.put [1] [7]], [.put [2] [8]]]) := by
    decide +kernel
  obtain ⟨T, hT, hsummary⟩ := Option.map_eq_some_iff.mp hclone
  obtain ⟨hhandles, hsummary⟩ := Prod.mk.inj hsummary
  obtain ⟨hactive, hbatches⟩ := Prod.mk.inj hsummary
  obtain ⟨state, hmade, hids⟩ := Option.map_eq_some_iff.mp hhandles
  have hafter : ((execAll afterTurn freezeDuringCompaction (start (newStore eagerOptions))).bind fun T =>
      (execAll afterTurn (wholeWrite [.put [3] [9]]) T).map fun T' =>
        let T' := T'.move .compact
        decide (T'.writer.place.isNone ∧ T'.engine.latestCommitTs = commitTs 3 ∧
          (T'.engine.get [3]).toOption = some none)) = some true := by
    decide +kernel
  have hputting : ((freezeDuringCompaction ++ [Move.call [.put [3] [9]], .write]).foldl move
      (start (newStore eagerOptions))).putting = some (commitTs 3, [.put [3] [9]]) := by
    decide +kernel
  rw [hT, Option.bind_some] at hafter
  obtain ⟨T', hT', hsummary⟩ := Option.map_eq_some_iff.mp hafter
  obtain ⟨hplace, hts, hget⟩ := of_decide_eq_true hsummary
  have hrun := run_of_execAll (fun _ _ _ => turn_of_afterTurn) hT
  have hrun' := run_of_execAll (fun _ _ _ => turn_of_afterTurn) hT'
  have hlost : ¬HoldsAll (newStore eagerOptions)
      (freezeDuringCompaction ++ wholeWrite [.put [3] [9]] ++ [.compact]) := by
    refine not_holdsAll (x := (⟨[3], commitTs 3⟩, [9])) (by decide) (fresh_newStore eagerOptions) hrun hmade
      (by rw [hids, hactive]; decide) hrun' (by simp [wholeWrite]) ?_ ?_ rfl
    · have hsplit : freezeDuringCompaction ++ wholeWrite [.put [3] [9]] =
          (freezeDuringCompaction ++ [.call [.put [3] [9]], .write]) ++ .write :: List.replicate 5 .write := by
        rw [List.append_assoc]
        rfl
      rw [hsplit]
      exact oneOf_puts hputting (by unfold LastIn; decide)
    · rw [hbatches]
      rintro ⟨i, batch, hi, heq, -⟩
      have hlt : i < 2 := (List.getElem?_eq_some_iff.mp hi).1
      interval_cases i <;> cases heq
  refine ⟨_, T'.move .compact, ?_, Option.isNone_iff_eq_none.mp hplace, hts, eq_ok_of_toOption hget, hlost⟩
  rw [List.foldl_append, foldl_of_run (hrun.append hrun')]
  rfl

end Threads

end

end TinyLsm

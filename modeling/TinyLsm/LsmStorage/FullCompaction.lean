import TinyLsm.LsmStorage.Reopen

/-!
# Full compactions under every strategy

`force_full_compaction` was written for L0 over one level, and takes the first entry of `levels` for that
level whatever the strategy is.  `fullCompaction_wellShaped_iff`: it returns and leaves a tree that the
controller can go on with exactly when there is a first level, no input is a table without blocks and, for
tiers, none of the others has the id 1.

That the ids of the tiers are otherwise distinct is kept by every call (`Tiers`).
-/

namespace TinyLsm

open LsmStorageState CompactionTask

/-! ## The ids of the tiers -/

/-- The ids of tiers that no full compaction has made. -/
def tierIds (levels : List (ℕ × List ℕ)) : List ℕ := (levels.map Prod.fst).filter (· ≠ 1)

theorem mem_tierIds {levels : List (ℕ × List ℕ)} {id : ℕ} :
    id ∈ tierIds levels ↔ (∃ tier ∈ levels, tier.1 = id) ∧ id ≠ 1 := by
  unfold tierIds
  rw [List.mem_filter, List.mem_map, decide_eq_true_iff]

namespace TieredCompactionController

/-- The loop keeps tiers and adds at most the new one. -/
theorem applyLoop_labels {output : List ℕ} {m left : AList fun _ : ℕ => List ℕ} {newTierAdded : Bool}
    {tiers levels : List (ℕ × List ℕ)} {removed : List ℕ}
    (h : applyLoop output m newTierAdded tiers = .ok (levels, removed, left)) :
    (levels.map Prod.fst).Subperm (tiers.map Prod.fst ++ if newTierAdded then [] else output.take 1) := by
  induction tiers generalizing m newTierAdded levels removed with
  | nil =>
    cases h
    exact (List.nil_sublist _).subperm
  | cons tier tiers ih =>
    obtain ⟨kept, removed₁, m₁, hpass, levels₁, more, -, hcase⟩ := applyLoop_cons h
    have hkept : (kept.map Prod.fst).Subperm [tier.1] := by
      cases hpass with
      | remove => exact (List.nil_sublist _).subperm
      | keep => exact List.Subperm.refl _
    rw [List.map_cons, ← List.singleton_append, List.append_assoc]
    rcases hcase with ⟨-, hadd, rfl, hne, hloop⟩ | ⟨-, rfl, hloop⟩
    · obtain ⟨first, rest, rfl⟩ := List.exists_cons_of_ne_nil hne
      have hih := ih hloop
      rw [if_pos rfl, List.append_nil] at hih
      rw [hadd, List.map_append, List.map_cons]
      refine List.Subperm.append hkept ?_
      have hcomm : ([first] ++ levels₁.map Prod.fst).Perm (levels₁.map Prod.fst ++ [first]) :=
        List.perm_append_comm
      exact hcomm.subperm.trans (List.Subperm.append hih (List.Subperm.refl _))
    · rw [List.map_append]
      exact List.Subperm.append hkept (ih hloop)

end TieredCompactionController

theorem CompactionController.applied_tierIds {M : Type} {controller : CompactionController}
    {s s' : LsmStorageState M} {task : CompactionTask} {output removed : List ℕ} {inRecovery : Bool}
    (hflush : controller.flushToL0 = false)
    (h : controller.applyCompactionResult s task output inRecovery = .ok (s', removed)) :
    (tierIds s'.levels).Subperm (tierIds s.levels ++ output.take 1) := by
  cases controller with
  | tiered options =>
    cases task with
    | tiered t =>
      change TieredCompactionController.applyCompactionResult s t output = .ok (s', removed) at h
      unfold TieredCompactionController.applyCompactionResult at h
      split at h
      · cases h
      · obtain ⟨⟨levels, removed', left⟩, hloop, h⟩ := Outcome.bind_eq_ok_iff.mp h
        simp only at h
        split at h
        · cases h
          have hsub := (TieredCompactionController.applyLoop_labels hloop).filter (· ≠ 1)
          rw [if_neg Bool.false_ne_true, List.filter_append] at hsub
          exact hsub.trans ((List.filter_sublist).append_left _).subperm
        · cases h
    | _ => cases h
  | _ => cases hflush

namespace LsmStorageInner

variable [Platform] {options : LsmStorageOptions} {e₀ e e' : LsmStorageInner}
  {contents : ℕ → List Entry} {op : Op} {ops : List Op}

/-- Apart from the id 1, the tiers have distinct ids, which no memtable has and no table will get. -/
structure Tiers (e : LsmStorageInner) : Prop where
  nodup : (tierIds e.state.levels).Nodup
  memtables : ∀ id ∈ tierIds e.state.levels, id ∉ e.state.memtables.map MemTable.id
  lt : ∀ id ∈ tierIds e.state.levels, id < e.nextSstId

omit [Platform] in
/-- Tiers go, and new ones get new ids. -/
theorem Tiers.of_subperm (h : e.Tiers) {newIds : List ℕ} (hnodup : newIds.Nodup)
    (hnew : ∀ id ∈ newIds, e.nextSstId ≤ id ∧ id < e'.nextSstId) (hnext : e.nextSstId ≤ e'.nextSstId)
    (hids : ∀ id ∈ e.state.memtables.map MemTable.id, id < e.nextSstId)
    (hmemtables : e'.state.memtables.map MemTable.id = e.state.memtables.map MemTable.id)
    (hsub : (tierIds e'.state.levels).Subperm (tierIds e.state.levels ++ newIds)) : e'.Tiers := by
  have hcase : ∀ id ∈ tierIds e'.state.levels, id ∈ tierIds e.state.levels ∨ id ∈ newIds :=
    fun id hid => List.mem_append.mp (hsub.subset hid)
  obtain ⟨l, hperm, hsublist⟩ := hsub
  refine ⟨hperm.nodup_iff.mp (List.Nodup.sublist hsublist (List.nodup_append.mpr
    ⟨h.nodup, hnodup, fun id hid id' hid' heq => ?_⟩)), ?_, ?_⟩
  · exact absurd (heq ▸ h.lt id hid) (not_lt.mpr (hnew id' hid').1)
  · intro id hid
    rw [hmemtables]
    rcases hcase id hid with hold | hin
    · exact h.memtables id hold
    · exact fun hmem => absurd (hids id hmem) (not_lt.mpr (hnew id hin).1)
  · intro id hid
    rcases hcase id hid with hold | hin
    · exact (h.lt id hold).trans_le hnext
    · exact (hnew id hin).2

omit [Platform] in
theorem Tiers.freeze {m : MemTable} (h : e.Tiers) (hfroze : Froze e e' m) : e'.Tiers := by
  have hlevels : e'.state.levels = e.state.levels := by rw [hfroze.state]
  have hmemtables : e'.state.memtables.map MemTable.id = e.nextSstId :: e.state.memtables.map MemTable.id := by
    unfold LsmStorageState.memtables
    rw [hfroze.state]
    simp [hfroze.id]
  refine ⟨hlevels ▸ h.nodup, fun id hid => ?_, fun id hid => ?_⟩
  · rw [hlevels] at hid
    rw [hmemtables, List.mem_cons, not_or]
    exact ⟨(h.lt id hid).ne, h.memtables id hid⟩
  · rw [hlevels] at hid
    rw [hfroze.nextSstId]
    exact (h.lt id hid).trans (Nat.lt_succ_self _)

theorem Tiers.flush {m : MemTable} {builder : SsTableBuilder} (h : e.Tiers) (hlaid : e.Laid options)
    (hflush : e.compactionController.flushToL0 = false) (hflushed : Flushed e e' m builder) : e'.Tiers := by
  have hlevels := hflushed.levels
  rw [hflush, if_neg Bool.false_ne_true] at hlevels
  have hold : e.state.memtables.map MemTable.id = e'.state.memtables.map MemTable.id ++ [m.id] := by
    unfold LsmStorageState.memtables
    rw [hflushed.imms, hflushed.memtable]
    simp
  have hm : m.id ∈ e.state.memtables.map MemTable.id := by
    rw [hold]
    exact List.mem_append_right _ (List.mem_singleton_self _)
  have hsplit := (List.nodup_append.mp hlaid.nodup).1
  rw [hold] at hsplit
  have hcase : ∀ id ∈ tierIds e'.state.levels, id = m.id ∨ id ∈ tierIds e.state.levels := by
    intro id hid
    rw [hlevels] at hid
    obtain ⟨⟨tier, htier, rfl⟩, hne⟩ := mem_tierIds.mp hid
    rcases List.mem_cons.mp htier with rfl | htier
    · exact Or.inl rfl
    · exact Or.inr (mem_tierIds.mpr ⟨⟨tier, htier, rfl⟩, hne⟩)
  refine ⟨?_, fun id hid hmem => ?_, fun id hid => ?_⟩
  · rw [hlevels]
    unfold tierIds
    rw [List.map_cons, List.filter_cons]
    split
    · exact List.nodup_cons.mpr ⟨fun hin => h.memtables _ hin hm, h.nodup⟩
    · exact h.nodup
  · rcases hcase id hid with rfl | hin
    · exact (List.nodup_append.mp hsplit).2.2 _ hmem _ (List.mem_singleton_self _) rfl
    · exact h.memtables id hin (by rw [hold]; exact List.mem_append_left _ hmem)
  · rw [hflushed.nextSstId]
    rcases hcase id hid with rfl | hin
    · exact hlaid.ids _ (List.mem_append_left _ hm)
    · exact h.lt id hin

/-- **One call keeps the ids of the tiers distinct.** -/
theorem Tiers.step (h : e.Tiers) (hlaid : e.Laid options)
    (hflush : CompactionController.flushToL0 options.compactionOptions = false) (hstep : Step e op e') :
    e'.Tiers := by
  have hcontroller := hlaid.controller
  have hids : ∀ id ∈ e.state.memtables.map MemTable.id, id < e.nextSstId :=
    fun id hid => hlaid.ids id (List.mem_append_left _ hid)
  cases op with
  | writeBatch batch =>
    obtain ⟨ts, d, e₁, -, -, hfreeze, rfl⟩ := writeBatch_ok hstep
    have hput : (e.afterPut (batch.map (WriteBatchRecord.entry ts)) d).Tiers := by
      refine ⟨h.nodup, fun id hid => ?_, h.lt⟩
      unfold LsmStorageState.memtables afterPut setMemtable
      simp only [List.map_cons, MemTable.insertAll_id]
      exact h.memtables id hid
    suffices hafter : e₁.Tiers from ⟨hafter.nodup, hafter.memtables, hafter.lt⟩
    rcases tryFreeze_ok hfreeze with rfl | ⟨-, m, hfroze⟩
    · exact hput
    · exact hput.freeze hfroze
  | freeze =>
    obtain ⟨m, hfroze⟩ := forceFreezeMemtable_ok hstep
    exact h.freeze hfroze
  | flush =>
    rcases forceFlushNextImmMemtable_ok hstep with ⟨-, rfl⟩ | ⟨m, builder, hflushed⟩
    · exact h
    · exact h.flush hlaid (hcontroller ▸ hflush) hflushed
  | compact =>
    rcases triggerCompaction_ok hstep with ⟨-, rfl⟩ | ⟨task, output, s, removed, hcompacted⟩
    · exact h
    · obtain ⟨d, hcompact, -⟩ := hcompacted.compact
      obtain ⟨hnodup, hnew, hnext⟩ := output_ids hcompact
      have hframe := CompactionController.applyCompactionResult_frame hcompacted.apply
      have htake := List.take_sublist 1 (output.map SsTable.id)
      refine h.of_subperm (hnodup.sublist htake) (fun id hid => hnew id (htake.subset hid)) hnext hids ?_ ?_
      · rw [hcompacted.state, hframe]
        rfl
      · rw [hcompacted.state]
        have hsub := CompactionController.applied_tierIds (hcontroller ▸ hflush) hcompacted.apply
        exact hsub
  | fullCompact =>
    obtain ⟨level₁, newSsts, hfull⟩ := forceFullCompaction_ok hstep
    obtain ⟨below, hlevels, hlevels'⟩ := hfull.levels_eq
    obtain ⟨d, hcompact, -⟩ := hfull.compact
    refine h.of_subperm List.nodup_nil (by simp) (output_ids hcompact).2.2 hids ?_ ?_
    · rw [hfull.state]
      rfl
    · rw [hlevels, hlevels', List.append_nil]
      unfold tierIds
      rw [List.map_cons, List.map_cons, List.filter_cons_of_neg (by simp)]
      exact ((List.sublist_cons_self _ _).filter _).subperm

theorem Fresh.tiers (hflush : CompactionController.flushToL0 options.compactionOptions = false)
    (hfresh : Fresh options e) : e.Tiers := by
  obtain ⟨m, hnew⟩ := hfresh.isNew
  have hnil : tierIds e.state.levels = [] := by
    rw [hnew.state]
    unfold LsmStorageState.create initialLevels
    cases hoptions : options.compactionOptions with
    | tiered o => rfl
    | _ =>
      rw [hoptions] at hflush
      cases hflush
  refine ⟨by rw [hnil]; exact List.nodup_nil, ?_, ?_⟩
  · rw [hnil]
    exact List.forall_mem_nil _
  · rw [hnil]
    exact List.forall_mem_nil _

/-- **The ids of the tiers in every run.** -/
theorem RunOf.tiers {C : LsmStorageInner → Op → Prop}
    (hflush : CompactionController.flushToL0 options.compactionOptions = false) (hfresh : Fresh options e₀)
    (hrun : RunOf C e₀ ops e) : e.Tiers :=
  (hrun.invariant (fun e => e.Laid options ∧ e.Tiers)
    (fun _ _ _ ⟨hlaid, h⟩ hstep => ⟨hlaid.step hstep.2, h.step hlaid hflush hstep.2⟩)
    ⟨hfresh.laid, Fresh.tiers hflush hfresh⟩).2

/-! ## The call returns -/

end LsmStorageInner

theorem FileObject.remove_reliable {d : Disk} (hd : d.Reliable) {id : ℕ} {file : Bytes}
    (hfile : d.ssts.lookup id = some file) :
    ∃ d', (FileObject.remove id).exec d = (.ok (), d') ∧ d'.Reliable ∧ d'.ssts = d.ssts.erase id := by
  obtain ⟨rest, hsys, hrest⟩ := hd.syscall
  refine ⟨{ d with faults := rest, ssts := d.ssts.erase id }, ?_, hrest, rfl⟩
  unfold FileObject.remove
  rw [Effect.exec_bind_of_ok (show Effect.exec Disk.syscall d = _ from hsys), Effect.exec_get_bind]
  simp only [hfile]
  rfl

namespace LsmStorageInner

variable [Platform] {options : LsmStorageOptions} {e₀ e e' : LsmStorageInner}
  {contents : ℕ → List Entry} {op : Op} {ops : List Op}

omit [Platform] in
/-- Files that are there can be removed. -/
theorem removeFiles_reliable {ids : List ℕ} (hd : e.disk.Reliable) (hnodup : ids.Nodup)
    (hfiles : ∀ id ∈ ids, ∃ file, e.disk.ssts.lookup id = some file) :
    ∃ e', (removeFiles ids).exec e = (.ok (), e') := by
  induction ids generalizing e with
  | nil => exact ⟨e, rfl⟩
  | cons id ids ih =>
    obtain ⟨⟨file, hfile⟩, hrest⟩ := List.forall_mem_cons.mp hfiles
    obtain ⟨hid, hnodup⟩ := List.nodup_cons.mp hnodup
    obtain ⟨d, hremove, hd', hssts⟩ := FileObject.remove_reliable hd hfile
    have hexec : (onDisk (FileObject.remove id)).exec e = (.ok (), { e with disk := d }) := by
      unfold onDisk
      rw [Effect.exec_zoom, hremove]
    obtain ⟨e', he'⟩ := ih (e := { e with disk := d }) hd' hnodup fun id' hid' => by
      obtain ⟨file', hfile'⟩ := hrest id' hid'
      have hne : id' ≠ id := fun heq => hid (heq ▸ hid')
      exact ⟨file', by rw [hssts, AList.lookup_erase_ne hne]; exact hfile'⟩
    refine ⟨e', ?_⟩
    rw [removeFiles, Effect.exec_bind_of_ok hexec, he']

/-- **A full compaction of tables with blocks returns.** -/
theorem forceFullCompaction_returns (h : e.Housed options contents) (hd : e.disk.Reliable)
    {level₁ : ℕ × List ℕ} {below : List (ℕ × List ℕ)} (hlevels : e.state.levels = level₁ :: below)
    (hblocks : ∀ id ∈ e.state.l0Sstables ++ level₁.2, ∀ t, e.state.sstables.lookup id = some t →
      t.blockMeta ≠ []) : ∃ e', forceFullCompaction.exec e = (.ok (), e') := by
  have hc := h.settled.steady.state
  have hinputs : (e.state.l0Sstables ++ level₁.2).Sublist e.state.listedIds := by
    unfold listedIds
    rw [hlevels, List.map_cons, List.flatten_cons, ← List.append_assoc]
    exact List.sublist_append_left _ _
  have hholds : ∀ id ∈ (CompactionTask.forceFullCompaction e.state.l0Sstables level₁.2).inputIds,
      e.state.TableHolds id (contents id) := by
    intro id hid
    obtain ⟨t, ht, ⟨hent, -⟩ | ⟨-, hblank⟩⟩ := hc.tables id (hinputs.subset hid)
    · exact ⟨t, ht, hent⟩
    · exact absurd hblank (hblocks id hid t ht)
  have htaken : (CompactionTask.forceFullCompaction e.state.l0Sstables level₁.2).TakenFrom e.state :=
    ⟨List.Sublist.refl _, level₁, by rw [hlevels]; exact List.mem_cons_self, List.Sublist.refl _⟩
  obtain ⟨ssts, ⟨d, next⟩, hcompact, hd'⟩ : ∃ ssts p',
      (compact e.options e.state (.forceFullCompaction e.state.l0Sstables level₁.2)).exec
        (e.disk, e.nextSstId) = (.ok ssts, p') ∧ p'.1.Reliable :=
    compact_reliable hholds (runs_sorted htaken hc) hd
  have hindex : index e.state.levels 0 = .ok level₁ := index_eq_ok_iff.mpr (by rw [hlevels]; rfl)
  have hcompacted : (onCompact (compact e.options e.state
      (.forceFullCompaction e.state.l0Sstables level₁.2))).exec e =
        (.ok ssts, { e with disk := d, nextSstId := next }) := by
    unfold onCompact
    rw [Effect.exec_zoom, hcompact]
  have hset : setIndex e.state.levels 0 (1, ssts.map SsTable.id) =
      .ok (e.state.levels.set 0 (1, ssts.map SsTable.id)) :=
    setIndex_eq_ok_iff.mpr ⟨by rw [hlevels]; exact Nat.zero_lt_succ _, rfl⟩
  -- The output replaces files at most.
  have hfiles : ∀ id ∈ e.state.l0Sstables ++ level₁.2, ∃ file, d.ssts.lookup id = some file := by
    intro id hid
    obtain ⟨l, -, hwrote⟩ := compact_streams hcompact
    obtain ⟨t, ht, -⟩ := hholds id hid
    have hold := h.files id
    rw [ht] at hold
    rw [hwrote.files.1, lookup_foldl_insert, hold]
    cases lastWith ssts id with
    | none => exact ⟨t.file, rfl⟩
    | some u => exact ⟨u.file, rfl⟩
  unfold forceFullCompaction
  rw [Effect.exec_get_bind, hindex, Effect.exec_lift_bind]
  simp only
  rw [Effect.exec_bind_of_ok hcompacted, Effect.exec_get_bind, hset, Effect.exec_lift_bind,
    Effect.exec_modify_bind]
  exact removeFiles_reliable hd' (h.settled.laid.listed_nodup.sublist hinputs) hfiles

/-! ## The tree that is left -/

/-- The labels are those that the controller requires: numbers in order, or distinct ids of tiers. -/
def LabelsFit (options : LsmStorageOptions) (levels : List (ℕ × List ℕ)) : Prop :=
  match options.compactionOptions with
  | .tiered _ => (levels.map Prod.fst).Nodup
  | _ => Labelled levels

/-- A tree after a full compaction that the controller can go on with. -/
structure WellShaped (options : LsmStorageOptions) (s : LsmStorageState MemTable) : Prop where
  l0Sstables : s.l0Sstables = []
  tables : ∀ level ∈ s.levels, ∀ id ∈ level.2, ∃ t, s.sstables.lookup id = some t
  labels : LabelsFit options s.levels

/-- There is a first level, its tables and those of L0 have blocks, and if it is a tier no other tier has
the id that it will get. -/
def Compactable (options : LsmStorageOptions) (s : LsmStorageState MemTable) : Prop :=
  ∃ level₁ below, s.levels = level₁ :: below ∧
    (∀ id ∈ s.l0Sstables ++ level₁.2, ∀ t, s.sstables.lookup id = some t → t.blockMeta ≠ []) ∧
    (CompactionController.flushToL0 options.compactionOptions = false → ∀ tier ∈ below, tier.1 ≠ 1)

omit [Platform] in
/-- The labels after a full compaction. -/
theorem labelsFit_iff (hlaid : e.Laid options)
    (htiers : CompactionController.flushToL0 options.compactionOptions = false → e.Tiers)
    {level₁ : ℕ × List ℕ} {below : List (ℕ × List ℕ)} (hlevels : e.state.levels = level₁ :: below)
    (ids : List ℕ) : LabelsFit options ((1, ids) :: below) ↔
      (CompactionController.flushToL0 options.compactionOptions = false → ∀ tier ∈ below, tier.1 ≠ 1) := by
  have hlabelled : CompactionController.flushToL0 options.compactionOptions = true →
      Labelled ((1, ids) :: below) := by
    intro hflush
    have hlabels : Labelled ([] ++ level₁ :: below) := hlevels ▸ (hlaid.layout hflush).labelled hflush
    have hfirst : level₁.1 = 1 := hlabels.eq_length
    refine hlabels.congr ?_
    rw [List.nil_append, List.map_cons, List.map_cons, hfirst]
  unfold LabelsFit
  cases hoptions : options.compactionOptions with
  | tiered o =>
    rw [hoptions] at htiers
    have hdistinct : (tierIds below).Nodup := by
      refine List.Nodup.sublist ?_ (htiers rfl).nodup
      rw [hlevels]
      exact ((List.sublist_cons_self _ _).filter _)
    simp only [List.map_cons, List.nodup_cons]
    constructor
    · rintro ⟨hnew, -⟩ - tier htier heq
      exact hnew (List.mem_map.mpr ⟨tier, htier, heq⟩)
    · intro hne
      have hall : ∀ tier ∈ below, tier.1 ≠ 1 := hne rfl
      have hsame : tierIds below = below.map Prod.fst :=
        List.filter_eq_self.mpr fun id hid => by
          obtain ⟨tier, htier, rfl⟩ := List.mem_map.mp hid
          exact decide_eq_true (hall tier htier)
      refine ⟨fun hmem => ?_, hsame ▸ hdistinct⟩
      obtain ⟨tier, htier, heq⟩ := List.mem_map.mp hmem
      exact hall tier htier heq
  | _ =>
    rw [hoptions] at hlabelled
    exact iff_of_true (hlabelled rfl) nofun

/-- **When a full compaction leaves a well-shaped tree**, whatever the strategy and the run before. -/
theorem fullCompaction_wellShaped_iff (hblock : options.blockSize ≤ 65535) (hfresh : Fresh options e₀)
    (hrun : RunOf (fun _ op => op.Fits) e₀ ops e) (hd : e.disk.Reliable) :
    (∃ e', Step e .fullCompact e' ∧ WellShaped options e'.state) ↔ Compactable options e.state := by
  obtain ⟨contents, h⟩ := RunOf.housed hblock hfresh (fun _ _ h => h) hrun
  have htiers := fun hflush => RunOf.tiers hflush hfresh hrun
  have hlaid := h.settled.laid
  constructor
  · rintro ⟨e', hstep, hshaped⟩
    obtain ⟨level₁, newSsts, hfull⟩ := forceFullCompaction_ok hstep
    obtain ⟨below, hlevels, hlevels'⟩ := hfull.levels_eq
    refine ⟨level₁, below, hlevels, fun id hid t ht hblank => ?_, ?_⟩
    · -- The merge has opened every input.
      obtain ⟨d, hcompact, -⟩ := hfull.compact
      obtain ⟨l, hl, -⟩ := compact_streams hcompact
      exact hl.openable hid ht (unopenable_of_blank hblank)
    · rw [← labelsFit_iff hlaid htiers hlevels (newSsts.map SsTable.id), ← hlevels']
      exact hshaped.labels
  · rintro ⟨level₁, below, hlevels, hblocks, hnew⟩
    obtain ⟨e', hstep⟩ := forceFullCompaction_returns h hd hlevels hblocks
    obtain ⟨level, newSsts, hfull⟩ := forceFullCompaction_ok hstep
    obtain ⟨below', hlevels₁, hlevels'⟩ := hfull.levels_eq
    obtain ⟨rfl, rfl⟩ := List.cons.inj (hlevels.symm.trans hlevels₁)
    obtain ⟨contents', h', -⟩ := h.step (show Op.fullCompact.Fits from trivial) hstep
    refine ⟨e', hstep, by rw [hfull.state], fun level hlevel id hid => ?_, ?_⟩
    · obtain ⟨t, ht, -⟩ := h'.settled.steady.state.tables id (mem_listedIds.mpr (Or.inr ⟨level, hlevel, hid⟩))
      exact ⟨t, ht⟩
    · rw [hlevels']
      exact (labelsFit_iff hlaid htiers hlevels _).mpr hnew

end LsmStorageInner

section

attribute [local instance] shortKeyPlatform

namespace LsmStorageInner

/-- So many tables, each of one put. -/
def putAndFlush : ℕ → List Op
  | 0 => []
  | n + 1 => putAndFlush n ++ [.writeBatch [.put [1] [7]], .freeze, .flush]

theorem fullCompaction_wellShaped_iff_small : ∃ e e',
    e.state.levels = [(1, [1]), (0, [0])] ∧ Step e .fullCompact e' ∧
      e'.state.levels = [(1, [3]), (0, [0])] ∧ WellShaped tieredOptions e'.state := by
  have hfinal : ((afterCalls (putAndFlush 2) (newStore tieredOptions)).bind fun e =>
      (afterCall e .fullCompact).map fun e' => decide (e.disk.faults = [] ∧
        e.state.l0Sstables = [] ∧ e.state.levels = [(1, [1]), (0, [0])] ∧ e'.state.levels = [(1, [3]), (0, [0])] ∧
        ((e.state.sstables.lookup 1).map fun t => t.blockMeta.length) = some 1)) = some true := by
    decide +kernel
  obtain ⟨e, he, hrest⟩ := Option.bind_eq_some_iff.mp hfinal
  obtain ⟨e', he', hsummary⟩ := Option.map_eq_some_iff.mp hrest
  obtain ⟨hfaults, hl0, hlevels, hlevels', hblocks⟩ := of_decide_eq_true hsummary
  have hrun : RunOf (fun _ op => op.Fits) (newStore tieredOptions) (putAndFlush 2) e :=
    (run_plain_of_afterCalls he (by decide)).mono fun _ _ _ h => ⟨h.1.keepsReadable.1.2.1.fits, h.2⟩
  have hd : e.disk.Reliable := by
    unfold Disk.Reliable
    rw [hfaults]
    exact List.forall_mem_nil _
  have hcompactable : Compactable tieredOptions e.state := by
    refine ⟨(1, [1]), [(0, [0])], hlevels, fun id hid t ht hblank => ?_, by decide⟩
    rw [hl0] at hid
    obtain rfl : id = 1 := List.mem_singleton.mp hid
    rw [ht, Option.map_some, hblank] at hblocks
    cases hblocks
  obtain ⟨e'', hstep, hshaped⟩ :=
    (fullCompaction_wellShaped_iff (by decide) (fresh_newStore tieredOptions) hrun hd).mpr hcompactable
  obtain rfl := Step.unique (step_of_afterCall he') hstep
  exact ⟨e, _, hlevels, hstep, hlevels', hshaped⟩

/-- A tiered store without tiers panics, and one with three ends up with two of one id. -/
theorem fullCompaction_misshapes :
    (forceFullCompaction.exec (newStore tieredOptions)).1 = .error (.panic "index out of bounds") ∧
    ∃ e e', RunOf (fun _ op => op.Fits) (newStore tieredOptions) (putAndFlush 3) e ∧
      Step e .fullCompact e' ∧ e'.state.levels = [(1, [4]), (1, [1]), (0, [0])] := by
  refine ⟨rfl, ?_⟩
  have hfinal : ((afterCalls (putAndFlush 3) (newStore tieredOptions)).bind fun e =>
      (afterCall e .fullCompact).map fun e' => e'.state.levels) = some [(1, [4]), (1, [1]), (0, [0])] := by
    decide +kernel
  obtain ⟨e, he, hrest⟩ := Option.bind_eq_some_iff.mp hfinal
  obtain ⟨e', he', hlevels⟩ := Option.map_eq_some_iff.mp hrest
  exact ⟨e, e', (run_plain_of_afterCalls he (by decide)).mono
    fun _ _ _ h => ⟨h.1.keepsReadable.1.2.1.fits, h.2⟩, step_of_afterCall he', hlevels⟩

end LsmStorageInner

end

end TinyLsm

import TinyLsm.Compact.SimpleLeveled
import TinyLsm.Compact.Leveled
import TinyLsm.Compact.Tiered
import TinyLsm.Manifest
import TinyLsm.Iterators.MergeIterator
import TinyLsm.Iterators.TwoMergeIterator
import TinyLsm.Iterators.ConcatIterator
import TinyLsm.LsmIterator

/-!
# Compaction (`compact.rs`)

A task names input tables.  `compact` merges them and writes the result into new tables, which are
cut when the builder has flushed `target_sst_size` bytes; a compaction to the bottom level leaves
the tombstones out.

`CompactionTask.runs` lists the runs that are merged and `chunks` cuts a run into what goes into
one table each.  `compact_spec` is the specification: the new tables are built from the chunks of
the left-biased union of the runs.
-/

namespace TinyLsm

/-- `CompactionController`: every controller holds its options and nothing else. -/
abbrev CompactionController := CompactionOptions

namespace CompactionController

variable {M : Type}

/-- `apply_compaction_result`. -/
def applyCompactionResult (controller : CompactionController) (s : LsmStorageState M)
    (task : CompactionTask) (output : List ℕ) (inRecovery : Bool) :
    Outcome (LsmStorageState M × List ℕ) :=
  match controller, task with
  | .leveled _, .leveled task =>
    LeveledCompactionController.applyCompactionResult s task output inRecovery
  | .simple _, .simple task => SimpleLeveledCompactionController.applyCompactionResult s task output
  | .tiered _, .tiered task => TieredCompactionController.applyCompactionResult s task output
  | _, _ => .error (.panic "internal error: entered unreachable code")

/-- Every controller changes L0 and the levels only. -/
theorem applyCompactionResult_frame {controller : CompactionController} {s s' : LsmStorageState M}
    {task : CompactionTask} {output removed : List ℕ} {inRecovery : Bool}
    (h : controller.applyCompactionResult s task output inRecovery = .ok (s', removed)) :
    s' = { s with l0Sstables := s'.l0Sstables, levels := s'.levels } := by
  unfold applyCompactionResult at h
  split at h
  · exact LeveledCompactionController.applyCompactionResult_frame h
  · exact SimpleLeveledCompactionController.applyCompactionResult_frame h
  · rw [TieredCompactionController.applyCompactionResult_frame h]
  · cases h

/-- The memtables play no part. -/
theorem applyCompactionResult_congr {controller : CompactionController} {s s' t : LsmStorageState M}
    {task : CompactionTask} {output removed : List ℕ} {inRecovery : Bool}
    (h : controller.applyCompactionResult s task output inRecovery = .ok (s', removed))
    (hl0 : t.l0Sstables = s.l0Sstables) (hlevels : t.levels = s.levels)
    (htables : t.sstables = s.sstables) :
    controller.applyCompactionResult t task output inRecovery =
      .ok ({ t with l0Sstables := s'.l0Sstables, levels := s'.levels }, removed) := by
  unfold applyCompactionResult at h ⊢
  split at h
  · exact LeveledCompactionController.applyCompactionResult_congr h hl0 hlevels htables
  · exact SimpleLeveledCompactionController.applyCompactionResult_congr h hl0 hlevels
  · rw [TieredCompactionController.applyCompactionResult_congr h hl0 hlevels]
    rw [TieredCompactionController.applyCompactionResult_frame h, ← hl0]
  · cases h

/-- `flush_to_l0`. -/
def flushToL0 : CompactionController → Bool
  | .leveled _ => true
  | .simple _ => true
  | .noCompaction => true
  | .tiered _ => false

variable [Platform]

/-- `generate_compaction_task`. -/
def generateCompactionTask (controller : CompactionController) (s : LsmStorageState M) :
    Outcome (Option CompactionTask) :=
  match controller with
  | .leveled options => do
    return (← LeveledCompactionController.generateCompactionTask options s).map .leveled
  | .simple options => do
    return (← SimpleLeveledCompactionController.generateCompactionTask options s).map .simple
  | .tiered options => do
    return (← TieredCompactionController.generateCompactionTask options s).map .tiered
  | .noCompaction => .error (.panic "internal error: entered unreachable code")

end CompactionController

/-! ## Writing the merged run -/

/-- What a compaction changes besides the state: the directory and the next table id. -/
abbrev CompactEffect (α : Type) := Effect Fault (Disk × ℕ) α

section

variable [Platform] {M : Type}

/-- Build the table with the next id and write its file. -/
def writeSst (builder : SsTableBuilder) : CompactEffect SsTable := do
  let (_, id) ← get
  modify fun p => (p.1, p.2 + 1)
  let sst := builder.build id
  Effect.zoom Prod.fst (fun d p => (d, p.2)) (FileObject.create id sst.file)
  return sst

/-- The table still under construction after the loop. -/
def writeLast : Option SsTableBuilder → CompactEffect (List SsTable)
  | some builder => do return [← writeSst builder]
  | none => return []

/-- A compaction to the bottom level leaves tombstones out. -/
def addKept (compactToBottom : Bool) (builder : SsTableBuilder) (key : Key) (value : Bytes) :
    Outcome SsTableBuilder :=
  if compactToBottom && isTombstone value then .ok builder else builder.add key value

/-- The loop of `compact_generate_sst_from_iter`, for at most `n` entries. -/
def compactLoop {I : Type} [StorageIterator I Key] (options : LsmStorageOptions)
    (compactToBottom : Bool) : ℕ → I → Option SsTableBuilder → CompactEffect (List SsTable)
  | 0, iter, builder =>
    if StorageIterator.isValid iter then throw (.panic "iterator did not end")
    else writeLast builder
  | n + 1, iter, builder =>
    if StorageIterator.isValid iter then do
      let builder ← liftM (addKept compactToBottom
        (builder.getD (SsTableBuilder.new options.blockSize))
        (StorageIterator.key iter) (StorageIterator.value iter))
      match StorageIterator.next iter with
      | (.error e, _) => throw e
      | (.ok (), iter) =>
        if builder.estimatedSize ≥ options.targetSstSize then
          let sst ← writeSst builder
          return sst :: (← compactLoop options compactToBottom n iter none)
        else compactLoop options compactToBottom n iter (some builder)
    else writeLast builder

/-- `compact_generate_sst_from_iter`. -/
def compactGenerateSstFromIter {I : Type} [StorageIterator I Key] (options : LsmStorageOptions)
    (iter : I) (compactToBottom : Bool) : CompactEffect (List SsTable) :=
  compactLoop options compactToBottom (StorageIterator.remaining iter) iter none

/-! ## The merges -/

/-- An iterator over L0 tables. -/
def l0Iter (s : LsmStorageState M) (ids : List ℕ) : Outcome (MergeIterator SsTableIterator) := do
  return MergeIterator.create
    (← ids.mapM fun id => do SsTableIterator.createAndSeekToFirst (← s.table id))

/-- An iterator over tables of one level. -/
def levelIter (s : LsmStorageState M) (ids : List ℕ) : Outcome SstConcatIterator := do
  SstConcatIterator.createAndSeekToFirst (← ids.mapM s.table)

/-- `compact`, on the state it has read. -/
def compact (options : LsmStorageOptions) (s : LsmStorageState M) (task : CompactionTask) :
    CompactEffect (List SsTable) :=
  match task with
  | .forceFullCompaction l0Sstables l1Sstables => do
    let upper ← liftM (l0Iter s l0Sstables)
    let lower ← liftM (levelIter s l1Sstables)
    compactGenerateSstFromIter options (TwoMergeIterator.create upper lower)
      task.compactToBottomLevel
  | .simple t =>
    match t.upperLevel with
    | none => do
      let upper ← liftM (l0Iter s t.upperLevelSstIds)
      let lower ← liftM (levelIter s t.lowerLevelSstIds)
      compactGenerateSstFromIter options (TwoMergeIterator.create upper lower)
        t.isLowerLevelBottomLevel
    | some _ => do
      let upper ← liftM (levelIter s t.upperLevelSstIds)
      let lower ← liftM (levelIter s t.lowerLevelSstIds)
      compactGenerateSstFromIter options (TwoMergeIterator.create upper lower)
        t.isLowerLevelBottomLevel
  | .tiered t => do
    let iters ← liftM (t.tiers.mapM fun tier => levelIter s tier.2)
    compactGenerateSstFromIter options (MergeIterator.create iters) task.compactToBottomLevel
  | .leveled t => do
    let lower ← liftM (levelIter s t.lowerLevelSstIds)
    match t.upperLevel with
    | none =>
      let upper ← liftM (l0Iter s t.upperLevelSstIds)
      compactGenerateSstFromIter options (TwoMergeIterator.create upper lower)
        t.isLowerLevelBottomLevel
    | some _ =>
      let upper ← liftM (levelIter s t.upperLevelSstIds)
      compactGenerateSstFromIter options (TwoMergeIterator.create upper lower)
        t.isLowerLevelBottomLevel

end

/-! ## The merged iterator of a task -/

/-- An iterator over the whole input of a task, whatever its type. -/
structure MergedIterator where
  I : Type
  [storageIterator : StorageIterator I Key]
  iter : I

attribute [instance] MergedIterator.storageIterator

section

variable [Platform] {M : Type}

/-- An upper side over a lower one. -/
def MergedIterator.two {A B : Type} [StorageIterator A Key] [StorageIterator B Key]
    (upper : Outcome A) (lower : Outcome B) : Except Fault MergedIterator :=
  match upper, lower with
  | .ok a, .ok b => .ok ⟨_, TwoMergeIterator.create a b⟩
  | .error e, _ => .error e
  | .ok _, .error e => .error e

/-- The iterator that `compact` builds. -/
def mergedIter (s : LsmStorageState M) : CompactionTask → Except Fault MergedIterator
  | .forceFullCompaction l0Sstables l1Sstables =>
    MergedIterator.two (l0Iter s l0Sstables) (levelIter s l1Sstables)
  | .simple t =>
    match t.upperLevel with
    | none => MergedIterator.two (l0Iter s t.upperLevelSstIds) (levelIter s t.lowerLevelSstIds)
    | some _ => MergedIterator.two (levelIter s t.upperLevelSstIds) (levelIter s t.lowerLevelSstIds)
  | .tiered t =>
    match t.tiers.mapM fun tier => levelIter s tier.2 with
    | .ok iters => .ok ⟨_, MergeIterator.create iters⟩
    | .error e => .error e
  | .leveled t =>
    match levelIter s t.lowerLevelSstIds with
    | .error e => .error e
    | .ok lower =>
      match t.upperLevel with
      | none => MergedIterator.two (l0Iter s t.upperLevelSstIds) (.ok lower)
      | some _ => MergedIterator.two (levelIter s t.upperLevelSstIds) (.ok lower)

/-- `compact` builds the merged iterator and writes out what it shows. -/
theorem compact_exec (options : LsmStorageOptions) (s : LsmStorageState M) (task : CompactionTask)
    (p : Disk × ℕ) : (compact options s task).exec p =
      match mergedIter s task with
      | .ok it => (compactGenerateSstFromIter options it.iter task.compactToBottomLevel).exec p
      | .error e => (.error e, p) := by
  have htwo : ∀ {A B : Type} [StorageIterator A Key] [StorageIterator B Key] (upper : Outcome A)
      (lower : Outcome B) (bottom : Bool),
      (do let a ← liftM upper; let b ← liftM lower
          compactGenerateSstFromIter options (TwoMergeIterator.create a b) bottom :
        CompactEffect (List SsTable)).exec p =
      match MergedIterator.two upper lower with
      | .ok it => (compactGenerateSstFromIter options it.iter bottom).exec p
      | .error e => (.error e, p) := by
    intro A B _ _ upper lower bottom
    cases upper with
    | error e => rfl
    | ok a =>
      rw [Effect.exec_lift_bind]
      cases lower with
      | error e => rfl
      | ok b => rw [Effect.exec_lift_bind]; rfl
  cases task with
  | forceFullCompaction l0 l1 => exact htwo _ _ _
  | simple t =>
    cases hu : t.upperLevel <;> simp only [compact, mergedIter, hu] <;> exact htwo _ _ _
  | tiered t =>
    simp only [compact, mergedIter]
    cases t.tiers.mapM fun tier => levelIter s tier.2 with
    | error e => rfl
    | ok iters => rw [Effect.exec_lift_bind]
  | leveled t =>
    cases hlower : levelIter s t.lowerLevelSstIds with
    | error e =>
      cases hu : t.upperLevel <;> simp only [compact, mergedIter, hu, hlower] <;> rfl
    | ok lower =>
      have hleveled : ∀ {A : Type} [StorageIterator A Key] (upper : Outcome A),
          (do let a ← liftM upper
              compactGenerateSstFromIter options (TwoMergeIterator.create a lower)
                t.isLowerLevelBottomLevel : CompactEffect (List SsTable)).exec p =
          match MergedIterator.two upper (.ok lower) with
          | .ok it => (compactGenerateSstFromIter options it.iter t.isLowerLevelBottomLevel).exec p
          | .error e => (.error e, p) := by
        intro A _ upper
        cases upper with
        | error e => rfl
        | ok a => rw [Effect.exec_lift_bind]; rfl
      cases hu : t.upperLevel <;>
        simp only [compact, mergedIter, hu, hlower, Effect.exec_lift_bind] <;> exact hleveled _

/-! ### Ids -/

/-- Ids are only used up. -/
def IdsUsed (p p' : Disk × ℕ) : Prop := p.2 ≤ p'.2

instance : Std.Refl IdsUsed := ⟨fun p => Nat.le_refl p.2⟩

instance : IsTrans (Disk × ℕ) IdsUsed := ⟨fun _ _ _ h h' => Nat.le_trans h h'⟩

theorem keeps_writeSst (builder : SsTableBuilder) : Effect.Keeps IdsUsed (writeSst builder) := by
  refine (Effect.keeps_get).bind fun p => ?_
  refine (Effect.keeps_modify fun p => show IdsUsed p (p.1, p.2 + 1) from Nat.le_succ p.2).bind fun _ => ?_
  exact (Effect.keeps_zoom (fun _ p => Nat.le_refl p.2) _).bind fun _ =>
    Effect.keeps_pure _

theorem keeps_writeLast (builder : Option SsTableBuilder) :
    Effect.Keeps IdsUsed (writeLast builder) := by
  cases builder with
  | none => exact Effect.keeps_pure _
  | some builder =>
    exact (keeps_writeSst builder).bind fun _ => Effect.keeps_pure _

theorem keeps_compactLoop {I : Type} [StorageIterator I Key] (options : LsmStorageOptions)
    (bottom : Bool) (n : ℕ) (iter : I) (builder : Option SsTableBuilder) :
    Effect.Keeps IdsUsed (compactLoop options bottom n iter builder) := by
  induction n generalizing iter builder with
  | zero =>
    rw [compactLoop]
    split
    · exact Effect.keeps_throw _
    · exact keeps_writeLast builder
  | succ n ih =>
    rw [compactLoop]
    split
    · refine (Effect.keeps_lift _).bind fun builder => ?_
      split
      · exact Effect.keeps_throw _
      · split
        · exact (keeps_writeSst builder).bind fun _ =>
            (ih _ none).bind fun _ => Effect.keeps_pure _
        · exact ih _ _
    · exact keeps_writeLast builder

/-- A compaction uses ids up, also one that fails. -/
theorem keeps_compact (options : LsmStorageOptions) (s : LsmStorageState M) (task : CompactionTask) :
    Effect.Keeps IdsUsed (compact options s task) := by
  intro p
  rw [compact_exec]
  split
  · exact keeps_compactLoop _ _ _ _ _ p
  · exact Std.Refl.refl (r := IdsUsed) p

end

/-! ## What a task merges -/

namespace CompactionTask

/-- The tables a task reads. -/
def inputIds : CompactionTask → List ℕ
  | .forceFullCompaction l0Sstables l1Sstables => l0Sstables ++ l1Sstables
  | .simple t => t.upperLevelSstIds ++ t.lowerLevelSstIds
  | .tiered t => (t.tiers.map Prod.snd).flatten
  | .leveled t => t.upperLevelSstIds ++ t.lowerLevelSstIds

/-- The run of a list of tables of one level. -/
def levelRun (contents : ℕ → List Entry) (ids : List ℕ) : List Entry := (ids.map contents).flatten

/-- The runs that are merged, the ones that win first. -/
def runs (contents : ℕ → List Entry) : CompactionTask → List (List Entry)
  | .forceFullCompaction l0Sstables l1Sstables =>
    l0Sstables.map contents ++ [levelRun contents l1Sstables]
  | .simple t =>
    (match t.upperLevel with
      | none => t.upperLevelSstIds.map contents
      | some _ => [levelRun contents t.upperLevelSstIds]) ++
      [levelRun contents t.lowerLevelSstIds]
  | .tiered t => t.tiers.map fun tier => levelRun contents tier.2
  | .leveled t =>
    (match t.upperLevel with
      | none => t.upperLevelSstIds.map contents
      | some _ => [levelRun contents t.upperLevelSstIds]) ++
      [levelRun contents t.lowerLevelSstIds]

/-- The runs hold the entries of the input tables. -/
theorem mem_runs {contents : ℕ → List Entry} {task : CompactionTask} {e : Entry} :
    (∃ run ∈ task.runs contents, e ∈ run) ↔ ∃ id ∈ task.inputIds, e ∈ contents id := by
  have hlevel : ∀ ids : List ℕ, e ∈ levelRun contents ids ↔ ∃ id ∈ ids, e ∈ contents id := by
    simp [levelRun]
  cases task with
  | forceFullCompaction l0 l1 =>
    simp only [runs, inputIds, List.mem_append, List.mem_map, List.mem_singleton, or_and_right,
      exists_or, exists_exists_and_eq_and, exists_eq_left, hlevel]
  | simple t =>
    cases hu : t.upperLevel <;>
      simp only [runs, inputIds, hu, List.mem_append, List.mem_map, List.mem_singleton, or_and_right,
        exists_or, exists_exists_and_eq_and, exists_eq_left, hlevel]
  | tiered t =>
    simp only [runs, inputIds, List.mem_map, List.mem_flatten, exists_exists_and_eq_and, hlevel]
    constructor
    · rintro ⟨tier, htier, id, hid, he⟩
      exact ⟨id, ⟨tier, htier, hid⟩, he⟩
    · rintro ⟨id, ⟨tier, htier, hid⟩, he⟩
      exact ⟨tier, htier, id, hid, he⟩
  | leveled t =>
    cases hu : t.upperLevel <;>
      simp only [runs, inputIds, hu, List.mem_append, List.mem_map, List.mem_singleton, or_and_right,
        exists_or, exists_exists_and_eq_and, exists_eq_left, hlevel]

end CompactionTask

/-! ## Cutting a run into tables -/

section Chunks

variable [Platform] {options : LsmStorageOptions} {compactToBottom : Bool}

/-- The builder that took in the entries is closed: it has flushed enough. -/
def sstFull (options : LsmStorageOptions) (es : List Entry) : Bool :=
  match (SsTableBuilder.new options.blockSize).addAll es with
  | .ok builder => options.targetSstSize ≤ builder.estimatedSize
  | .error _ => false

/-- The entries that a compaction keeps. -/
def kept (compactToBottom : Bool) (l : List Entry) : List Entry :=
  l.filter fun e => !(compactToBottom && isTombstone e.2)

/-- What goes into one table each; `cur` has gone into the table under construction. -/
def chunks (options : LsmStorageOptions) (compactToBottom : Bool) :
    Option (List Entry) → List Entry → List (List Entry)
  | none, [] => []
  | some cur, [] => [cur]
  | cur, e :: l =>
    let cur := cur.getD [] ++ kept compactToBottom [e]
    if sstFull options cur then cur :: chunks options compactToBottom none l
    else chunks options compactToBottom (some cur) l

/-- Cutting loses nothing but the tombstones that are left out. -/
theorem flatten_chunks (cur : Option (List Entry)) (l : List Entry) :
    (chunks options compactToBottom cur l).flatten = cur.getD [] ++ kept compactToBottom l := by
  induction l generalizing cur with
  | nil => cases cur <;> simp [chunks, kept]
  | cons e l ih =>
    have hkept : kept compactToBottom (e :: l) = kept compactToBottom [e] ++ kept compactToBottom l :=
      List.filter_append [e] l
    rw [chunks.eq_3, hkept, ← List.append_assoc]
    split
    · rw [List.flatten_cons, ih]
      rfl
    · rw [ih]
      rfl

/-- The tables `ssts` were built from the chunks, in order and with consecutive ids. -/
inductive Wrote (blockSize : ℕ) :
    Disk × ℕ → List (List Entry) → List SsTable → Disk × ℕ → Prop where
  | nil (p : Disk × ℕ) : Wrote blockSize p [] [] p
  | cons {d d₁ : Disk} {id : ℕ} {c : List Entry} {cs : List (List Entry)} {t : SsTable}
      {ts : List SsTable} {p : Disk × ℕ} (hbuild : SsTable.ofEntries blockSize id c = .ok t)
      (hssts : d₁.ssts = d.ssts.insert id t.file) (hmanifest : d₁.manifest = d.manifest)
      (hwals : d₁.wals = d.wals) (hrest : Wrote blockSize (d₁, id + 1) cs ts p) :
      Wrote blockSize (d, id) (c :: cs) (t :: ts) p

theorem writeSst_spec {builder : SsTableBuilder} {d : Disk} {id : ℕ} {t : SsTable}
    {p : Disk × ℕ} (h : (writeSst builder).exec (d, id) = (.ok t, p)) :
    t = builder.build id ∧ p.2 = id + 1 ∧ p.1.ssts = d.ssts.insert id t.file ∧
      p.1.manifest = d.manifest ∧ p.1.wals = d.wals := by
  unfold writeSst at h
  rw [Effect.exec_get_bind, Effect.exec_modify_bind, Effect.exec_bind_eq_ok_iff] at h
  obtain ⟨u, p₁, hcreate, hret⟩ := h
  rw [Effect.exec_zoom, Prod.mk.injEq] at hcreate
  obtain ⟨hssts, hmanifest, hwals⟩ := FileObject.create_eq_ok (Prod.ext hcreate.1 rfl)
  cases hret
  rw [← hcreate.2]
  exact ⟨rfl, rfl, hssts, hmanifest, hwals⟩

/-- The builder took in the entries. -/
def TookIn (options : LsmStorageOptions) (builder : SsTableBuilder) (es : List Entry) : Prop :=
  (SsTableBuilder.new options.blockSize).addAll es = .ok builder

theorem TookIn.sstFull {builder : SsTableBuilder} {es : List Entry} (h : TookIn options builder es) :
    sstFull options es = decide (options.targetSstSize ≤ builder.estimatedSize) := by
  unfold TinyLsm.sstFull
  rw [h]

theorem TookIn.ofEntries {builder : SsTableBuilder} {es : List Entry} (h : TookIn options builder es)
    (id : ℕ) : SsTable.ofEntries options.blockSize id es = .ok (builder.build id) := by
  unfold SsTable.ofEntries
  rw [h]
  rfl

theorem TookIn.getD {builder : Option SsTableBuilder} {cur : Option (List Entry)}
    (h : Option.Rel (TookIn options) builder cur) :
    TookIn options (builder.getD (SsTableBuilder.new options.blockSize)) (cur.getD []) := by
  cases h with
  | none => rfl
  | some h => exact h

theorem TookIn.addKept {builder builder' : SsTableBuilder} {es : List Entry} {e : Entry}
    (h : TookIn options builder es)
    (hadd : TinyLsm.addKept compactToBottom builder e.1 e.2 = .ok builder') :
    TookIn options builder' (es ++ kept compactToBottom [e]) := by
  unfold TinyLsm.addKept at hadd
  unfold TookIn kept
  cases htomb : compactToBottom && isTombstone e.2 with
  | true =>
    rw [htomb, if_pos rfl] at hadd
    cases hadd
    rw [List.filter_cons_of_neg (by simpa using htomb), List.filter_nil, List.append_nil]
    exact h
  | false =>
    rw [htomb, if_neg Bool.false_ne_true] at hadd
    rw [List.filter_cons_of_pos (by rw [htomb]; rfl), List.filter_nil, SsTableBuilder.addAll_append, h]
    simp only [bind, Except.bind, SsTableBuilder.addAll, hadd]

/-- One table is written and the rest follows. -/
theorem Wrote.of_writeSst {builder : SsTableBuilder} {es : List Entry} (h : TookIn options builder es)
    {p p₁ p₂ : Disk × ℕ} {t : SsTable} {cs : List (List Entry)} {ts : List SsTable}
    (hwrite : (writeSst builder).exec p = (.ok t, p₁)) (hrest : Wrote options.blockSize p₁ cs ts p₂) :
    Wrote options.blockSize p (es :: cs) (t :: ts) p₂ := by
  obtain ⟨d, id⟩ := p
  obtain ⟨d₁, id₁⟩ := p₁
  obtain ⟨rfl, rfl, hssts, hmanifest, hwals⟩ := writeSst_spec hwrite
  exact .cons (h.ofEntries id) hssts hmanifest hwals hrest

theorem writeLast_spec {builder : Option SsTableBuilder} {cur : Option (List Entry)}
    (hcur : Option.Rel (TookIn options) builder cur) {p p' : Disk × ℕ} {ssts : List SsTable}
    (hok : (writeLast builder).exec p = (.ok ssts, p')) :
    Wrote options.blockSize p (chunks options compactToBottom cur []) ssts p' := by
  cases hcur with
  | none =>
    cases hok
    exact .nil p
  | some h =>
    rw [writeLast, Effect.exec_bind_eq_ok_iff] at hok
    obtain ⟨t, p₁, hwrite, hret⟩ := hok
    cases hret
    exact .of_writeSst h hwrite (.nil _)

/-- **The loop writes one table for each chunk** of what it visits. -/
theorem compactLoop_visits {I : Type} [StorageIterator I Key] {n : ℕ} {iter : I}
    {builder : Option SsTableBuilder} {cur : Option (List Entry)}
    (hcur : Option.Rel (TookIn options) builder cur) {p p' : Disk × ℕ} {ssts : List SsTable}
    (hok : (compactLoop options compactToBottom n iter builder).exec p = (.ok ssts, p')) :
    ∃ l, StorageIterator.Visits iter l ∧
      Wrote options.blockSize p (chunks options compactToBottom cur l) ssts p' := by
  induction n generalizing iter builder cur p ssts with
  | zero =>
    rw [compactLoop] at hok
    split at hok
    · cases hok
    · rename_i hvalid
      exact ⟨[], .nil (Bool.eq_false_iff.mpr hvalid), writeLast_spec hcur hok⟩
  | succ n ih =>
    rw [compactLoop] at hok
    split at hok
    swap
    · rename_i hvalid
      exact ⟨[], .nil (Bool.eq_false_iff.mpr hvalid), writeLast_spec hcur hok⟩
    rename_i hvalid
    rw [Effect.exec_bind_eq_ok_iff] at hok
    obtain ⟨b, p₁, hadd, hok⟩ := hok
    rw [Effect.exec_lift, Prod.mk.injEq] at hadd
    obtain ⟨hadd, rfl⟩ := hadd
    have hb := (TookIn.getD hcur).addKept (e := (StorageIterator.key iter, StorageIterator.value iter))
      hadd
    cases hnext : StorageIterator.next iter with
    | mk o iter' =>
      rw [hnext] at hok
      cases o with
      | error e => cases hok
      | ok u =>
        simp only at hok
        split at hok
        · rename_i hfull
          rw [Effect.exec_bind_eq_ok_iff] at hok
          obtain ⟨t, p₂, hwrite, hok⟩ := hok
          rw [Effect.exec_bind_eq_ok_iff] at hok
          obtain ⟨ts, p₃, hloop, hret⟩ := hok
          cases hret
          obtain ⟨l, hl, hwrote⟩ := ih .none hloop
          refine ⟨_, .cons hvalid hnext hl, ?_⟩
          rw [chunks.eq_3]
          simp only [hb.sstFull, decide_eq_true_eq]
          rw [if_pos hfull]
          exact .of_writeSst hb hwrite hwrote
        · rename_i hfull
          obtain ⟨l, hl, hwrote⟩ := ih (.some hb) hok
          refine ⟨_, .cons hvalid hnext hl, ?_⟩
          rw [chunks.eq_3]
          simp only [hb.sstFull, decide_eq_true_eq]
          rw [if_neg hfull]
          exact hwrote

/-- The builder never refuses a key that is not empty. -/
theorem addKept_ne_error (compactToBottom : Bool) (builder : SsTableBuilder) {e : Entry} (he : e.1.keyRef ≠ []) :
    ∃ builder', addKept compactToBottom builder e.1 e.2 = .ok builder' := by
  unfold addKept
  split
  · exact ⟨builder, rfl⟩
  · rcases SsTableBuilder.add_cases he builder e.2 with ⟨_, -, h⟩ | ⟨-, _, -, h⟩
    · exact ⟨_, h⟩
    · exact ⟨_, h⟩

theorem writeSst_reliable (builder : SsTableBuilder) {p : Disk × ℕ} (hp : p.1.Reliable) :
    ∃ t p', (writeSst builder).exec p = (.ok t, p') ∧ p'.1.Reliable := by
  obtain ⟨d, id⟩ := p
  obtain ⟨rest, hsys, hrest⟩ := hp.syscall
  have hcreate : (FileObject.create id (builder.build id).file).exec d =
      (.ok (), { d with faults := rest, ssts := d.ssts.insert id (builder.build id).file }) := by
    unfold FileObject.create
    rw [Effect.exec_bind_of_ok (show Effect.exec Disk.syscall d = _ from hsys)]
    rfl
  refine ⟨builder.build id,
    ({ d with faults := rest, ssts := d.ssts.insert id (builder.build id).file }, id + 1), ?_, hrest⟩
  unfold writeSst
  rw [Effect.exec_get_bind, Effect.exec_modify_bind]
  have hzoom : (Effect.zoom Prod.fst (fun d (p : Disk × ℕ) => (d, p.2))
      (FileObject.create id (builder.build id).file)).exec (d, id + 1) = (.ok (),
        { d with faults := rest, ssts := d.ssts.insert id (builder.build id).file }, id + 1) := by
    rw [Effect.exec_zoom, hcreate]
  exact Effect.exec_bind_of_ok hzoom

/-- Without I/O errors the loop ends and returns. -/
theorem compactLoop_reliable {I : Type} [StorageIterator I Key] {iter : I} {l : List Entry}
    (h : StorageIterator.Yields StorageIterator.Drained iter l) (hl : ∀ e ∈ l, e.1.keyRef ≠ [])
    {n : ℕ} (hn : l.length ≤ n) (builder : Option SsTableBuilder) {p : Disk × ℕ}
    (hp : p.1.Reliable) :
    ∃ ssts p', (compactLoop options compactToBottom n iter builder).exec p = (.ok ssts, p') ∧
      p'.1.Reliable := by
  have hlast : ∀ (builder : Option SsTableBuilder) {p : Disk × ℕ}, p.1.Reliable →
      ∃ ssts p', (writeLast builder).exec p = (.ok ssts, p') ∧ p'.1.Reliable := by
    intro builder p hp
    cases builder with
    | none => exact ⟨[], p, rfl, hp⟩
    | some b =>
      obtain ⟨t, p', hwrite, hp'⟩ := writeSst_reliable b hp
      exact ⟨[t], p', Effect.exec_bind_of_ok hwrite, hp'⟩
  induction h generalizing n builder p with
  | nil hvalid _ =>
    cases n <;> rw [compactLoop, hvalid, if_neg Bool.false_ne_true] <;> exact hlast builder hp
  | @cons iter iter' l hvalid _ hnext _ ih =>
    rcases n with _ | n
    · simp at hn
    obtain ⟨he, hl⟩ := List.forall_mem_cons.mp hl
    have hn : l.length ≤ n := Nat.le_of_succ_le_succ hn
    obtain ⟨b, hadd⟩ := addKept_ne_error compactToBottom
      (builder.getD (SsTableBuilder.new options.blockSize)) he
    rw [compactLoop, if_pos hvalid, hadd, Effect.exec_lift_bind, hnext]
    simp only
    split
    · obtain ⟨t, p₁, hwrite, hp₁⟩ := writeSst_reliable b hp
      obtain ⟨ts, p', hloop, hp'⟩ := ih hl hn none hp₁
      refine ⟨t :: ts, p', ?_, hp'⟩
      rw [Effect.exec_bind_of_ok hwrite, Effect.exec_bind_of_ok hloop]
      rfl
    · exact ih hl hn (some b) hp

/-! ## The merges hand out the union of the runs -/

open StorageIterator CompactionTask

variable {M : Type} {s : LsmStorageState M} {contents : ℕ → List Entry} {ids : List ℕ}

theorem mapM_table (h : ∀ id ∈ ids, s.TableHolds id (contents id)) :
    ∃ ts, ids.mapM s.table = .ok ts ∧ List.Forall₂ SsTable.HasEntries ts (ids.map contents) := by
  induction ids with
  | nil => exact ⟨[], rfl, .nil⟩
  | cons id ids ih =>
    obtain ⟨⟨t, hlookup, ht⟩, hids⟩ := List.forall_mem_cons.mp h
    obtain ⟨ts, hts, hents⟩ := ih hids
    refine ⟨t :: ts, ?_, .cons ht hents⟩
    rw [List.mapM_cons, LsmStorageState.table_eq hlookup, hts]
    rfl

theorem levelIter_yields (h : ∀ id ∈ ids, s.TableHolds id (contents id))
    (hs : SortedRun (levelRun contents ids)) :
    ∃ it, levelIter s ids = .ok it ∧ Yields Drained it (levelRun contents ids) := by
  obtain ⟨ts, hts, hents⟩ := mapM_table h
  obtain ⟨it, hit, hyields⟩ :=
    SstConcatIterator.createAndSeekToFirst_yields hents (.of_sortedRun hents hs)
  refine ⟨it, ?_, hyields⟩
  unfold levelIter
  rw [hts]
  exact hit

theorem l0Iter_yields (h : ∀ id ∈ ids, s.TableHolds id (contents id)) :
    ∃ it, l0Iter s ids = .ok it ∧ Yields Drained it (unionAll (ids.map contents)) := by
  have hiters : ∃ iters, (ids.mapM fun id => do
        SsTableIterator.createAndSeekToFirst (← s.table id)) = .ok iters ∧
      List.Forall₂ (Yields Drained) iters (ids.map contents) := by
    induction ids with
    | nil => exact ⟨[], rfl, .nil⟩
    | cons id ids ih =>
      obtain ⟨⟨t, hlookup, ht⟩, hids⟩ := List.forall_mem_cons.mp h
      obtain ⟨iters, hiters, hyields⟩ := ih hids
      obtain ⟨it, hfirst, hit⟩ := SstConcatIterator.table_first ht
      refine ⟨it :: iters, ?_, .cons hit hyields⟩
      rw [List.mapM_cons, LsmStorageState.table_eq hlookup, hiters]
      simp only [bind, Except.bind, hfirst]
      rfl
  have hsorted : ∀ l ∈ ids.map contents, SortedRun l := by
    intro l hl
    obtain ⟨id, hid, rfl⟩ := List.mem_map.mp hl
    obtain ⟨t, -, ht⟩ := h id hid
    exact ht.sorted
  obtain ⟨iters, hmap, hyields⟩ := hiters
  refine ⟨MergeIterator.create iters, ?_, MergeIterator.create_yields hyields hsorted⟩
  unfold l0Iter
  rw [hmap]
  rfl

theorem tierIters_yields {tiers : List (ℕ × List ℕ)}
    (h : ∀ tier ∈ tiers, ∀ id ∈ tier.2, s.TableHolds id (contents id))
    (hs : ∀ tier ∈ tiers, SortedRun (levelRun contents tier.2)) :
    ∃ iters, (tiers.mapM fun tier => levelIter s tier.2) = .ok iters ∧
      List.Forall₂ (Yields Drained) iters (tiers.map fun tier => levelRun contents tier.2) := by
  induction tiers with
  | nil => exact ⟨[], rfl, .nil⟩
  | cons tier tiers ih =>
    obtain ⟨htier, htiers⟩ := List.forall_mem_cons.mp h
    obtain ⟨hstier, hstiers⟩ := List.forall_mem_cons.mp hs
    obtain ⟨iters, hiters, hyields⟩ := ih htiers hstiers
    obtain ⟨it, hit, hy⟩ := levelIter_yields htier hstier
    refine ⟨it :: iters, ?_, .cons hy hyields⟩
    rw [List.mapM_cons, hit, hiters]
    rfl

/-- What the loop visits, when it returns. -/
theorem generate_visits {I : Type} [StorageIterator I Key] {iter : I} {p p' : Disk × ℕ}
    {ssts : List SsTable}
    (hok : (compactGenerateSstFromIter options iter compactToBottom).exec p = (.ok ssts, p')) :
    ∃ l, Visits iter l ∧
      Wrote options.blockSize p (chunks options compactToBottom none l) ssts p' :=
  compactLoop_visits .none hok

/-- An upper side over a level. -/
theorem twoMerge_yields {A : Type} [StorageIterator A Key] {upper : A} {lower : SstConcatIterator}
    {us : List (List Entry)} {l : List Entry} (hupper : Yields Drained upper (unionAll us))
    (hlower : Yields Drained lower l) (hus : ∀ u ∈ us, SortedRun u) (hl : SortedRun l) :
    Yields Drained (TwoMergeIterator.create upper lower) (unionAll (us ++ [l])) := by
  rw [unionAll_append hus (by simpa using hl), unionAll_cons, unionAll_nil, leftUnion_nil_right]
  exact TwoMergeIterator.create_yields_drained hupper hlower (sortedRun_unionAll hus) hl

/-- **The merged iterator hands out the left-biased union of the runs.** -/
theorem mergedIter_yields {task : CompactionTask}
    (h : ∀ id ∈ task.inputIds, s.TableHolds id (contents id))
    (hs : ∀ run ∈ task.runs contents, SortedRun run) :
    ∃ it, mergedIter s task = .ok it ∧
      Yields Drained it.iter (unionAll (task.runs contents)) := by
  cases task with
  | forceFullCompaction l0 l1 =>
    obtain ⟨h0, h1⟩ := List.forall_mem_append.mp h
    obtain ⟨hs0, hs1⟩ := List.forall_mem_append.mp hs
    have hs1 : SortedRun (levelRun contents l1) := by simpa using hs1
    obtain ⟨upper, hupper, hy0⟩ := l0Iter_yields h0
    obtain ⟨lower, hlower, hy1⟩ := levelIter_yields h1 hs1
    simp only [mergedIter, runs, hupper, hlower]
    exact ⟨_, rfl, twoMerge_yields hy0 hy1 hs0 hs1⟩
  | simple t =>
    obtain ⟨h0, h1⟩ := List.forall_mem_append.mp h
    obtain ⟨hs0, hs1⟩ := List.forall_mem_append.mp hs
    have hs1 : SortedRun (levelRun contents t.lowerLevelSstIds) := by simpa using hs1
    obtain ⟨lower, hlower, hy1⟩ := levelIter_yields h1 hs1
    cases hu : t.upperLevel with
    | none =>
      rw [hu] at hs0
      obtain ⟨upper, hupper, hy0⟩ := l0Iter_yields h0
      simp only [mergedIter, runs, hu, hupper, hlower]
      exact ⟨_, rfl, twoMerge_yields hy0 hy1 hs0 hs1⟩
    | some u =>
      rw [hu] at hs0
      obtain ⟨upper, hupper, hy0⟩ := levelIter_yields h0 (by simpa using hs0)
      simp only [mergedIter, runs, hu, hupper, hlower]
      rw [← leftUnion_nil_right (levelRun contents t.upperLevelSstIds)] at hy0
      exact ⟨_, rfl, twoMerge_yields hy0 hy1 hs0 hs1⟩
  | tiered t =>
    have h' : ∀ tier ∈ t.tiers, ∀ id ∈ tier.2, s.TableHolds id (contents id) :=
      fun tier htier id hid => h id
        (List.mem_flatten.mpr ⟨tier.2, List.mem_map_of_mem htier, hid⟩)
    have hs' : ∀ tier ∈ t.tiers, SortedRun (levelRun contents tier.2) :=
      fun tier htier => hs _ (List.mem_map_of_mem htier)
    obtain ⟨iters, hiters, hy⟩ := tierIters_yields h' hs'
    simp only [mergedIter, runs, hiters]
    exact ⟨_, rfl, MergeIterator.create_yields hy hs⟩
  | leveled t =>
    obtain ⟨h0, h1⟩ := List.forall_mem_append.mp h
    obtain ⟨hs0, hs1⟩ := List.forall_mem_append.mp hs
    have hs1 : SortedRun (levelRun contents t.lowerLevelSstIds) := by simpa using hs1
    obtain ⟨lower, hlower, hy1⟩ := levelIter_yields h1 hs1
    cases hu : t.upperLevel with
    | none =>
      rw [hu] at hs0
      obtain ⟨upper, hupper, hy0⟩ := l0Iter_yields h0
      simp only [mergedIter, runs, hu, hupper, hlower]
      exact ⟨_, rfl, twoMerge_yields hy0 hy1 hs0 hs1⟩
    | some u =>
      rw [hu] at hs0
      obtain ⟨upper, hupper, hy0⟩ := levelIter_yields h0 (by simpa using hs0)
      simp only [mergedIter, runs, hu, hupper, hlower]
      rw [← leftUnion_nil_right (levelRun contents t.upperLevelSstIds)] at hy0
      exact ⟨_, rfl, twoMerge_yields hy0 hy1 hs0 hs1⟩

/-- The entries that the merged iterator of a task shows. -/
def Streams (s : LsmStorageState M) (task : CompactionTask) (l : List Entry) : Prop :=
  ∃ it, mergedIter s task = .ok it ∧ Visits it.iter l

theorem Streams.unique {task : CompactionTask} {l l' : List Entry} (h : Streams s task l)
    (h' : Streams s task l') : l = l' := by
  obtain ⟨it, hit, hl⟩ := h
  obtain ⟨it', hit', hl'⟩ := h'
  rw [hit] at hit'
  cases hit'
  exact hl.unique hl'

theorem streams_runs {task : CompactionTask}
    (h : ∀ id ∈ task.inputIds, s.TableHolds id (contents id))
    (hs : ∀ run ∈ task.runs contents, SortedRun run) :
    Streams s task (unionAll (task.runs contents)) := by
  obtain ⟨it, hit, hyields⟩ := mergedIter_yields h hs
  exact ⟨it, hit, hyields.visits⟩

/-- **What a compaction writes**, whatever its tables hold: the stream, cut into tables. -/
theorem compact_streams {task : CompactionTask} {p p' : Disk × ℕ} {ssts : List SsTable}
    (hok : (compact options s task).exec p = (.ok ssts, p')) :
    ∃ l, Streams s task l ∧
      Wrote options.blockSize p (chunks options task.compactToBottomLevel none l) ssts p' := by
  rw [compact_exec] at hok
  cases hit : mergedIter s task with
  | error e =>
    rw [hit] at hok
    cases hok
  | ok it =>
    rw [hit] at hok
    obtain ⟨l, hl, hwrote⟩ := generate_visits hok
    exact ⟨l, ⟨it, hit, hl⟩, hwrote⟩

/-- **What a compaction writes**: the left-biased union of the runs of its task, cut into tables. -/
theorem compact_spec {task : CompactionTask}
    (h : ∀ id ∈ task.inputIds, s.TableHolds id (contents id))
    (hs : ∀ run ∈ task.runs contents, SortedRun run) {p p' : Disk × ℕ} {ssts : List SsTable}
    (hok : (compact options s task).exec p = (.ok ssts, p')) :
    Wrote options.blockSize p
      (chunks options task.compactToBottomLevel none (unionAll (task.runs contents))) ssts p' := by
  obtain ⟨l, hl, hwrote⟩ := compact_streams hok
  rwa [hl.unique (streams_runs h hs)] at hwrote

theorem key_ne_of_runs {task : CompactionTask}
    (h : ∀ id ∈ task.inputIds, s.TableHolds id (contents id))
    (hs : ∀ run ∈ task.runs contents, SortedRun run) :
    ∀ e ∈ unionAll (task.runs contents), e.1.keyRef ≠ [] := by
  intro e he
  obtain ⟨run, hrun, herun⟩ := ((mem_unionAll hs).mp he).exists_mem
  obtain ⟨id, hid, heid⟩ := mem_runs.mp ⟨run, hrun, herun⟩
  obtain ⟨t, -, ht⟩ := h id hid
  exact ht.key_ne heid

/-- **Without I/O errors a compaction ends and returns.** -/
theorem compact_reliable {task : CompactionTask}
    (h : ∀ id ∈ task.inputIds, s.TableHolds id (contents id))
    (hs : ∀ run ∈ task.runs contents, SortedRun run) {p : Disk × ℕ} (hp : p.1.Reliable) :
    ∃ ssts p', (compact options s task).exec p = (.ok ssts, p') ∧ p'.1.Reliable := by
  obtain ⟨it, hit, hyields⟩ := mergedIter_yields h hs
  rw [compact_exec, hit]
  exact compactLoop_reliable hyields (key_ne_of_runs h hs) hyields.length_le none hp

end Chunks

end TinyLsm

import TinyLsm.Compact
import TinyLsm.LsmStorage.Read

/-!
# The tables a compaction returns

A compaction that keeps its tombstones writes the left-biased union of its runs and nothing else:
its tables, one after the other, hold that union, none of them is empty, and each ends before the
next one starts.

A compaction to the bottom level leaves tombstones out, and its loop starts a table before it knows
whether anything will go into it.  `LeavesEmpty` says on which streams a table stays empty: those
with tombstones behind a whole number of full tables, which are closed with nothing after them.
-/

namespace TinyLsm

variable {M : Type} {s : LsmStorageState M}

/-! ## Where the inputs of a task come from -/

namespace CompactionTask

/-- Tables of one level, in the order of the level. -/
def LevelFrom (s : LsmStorageState M) (ids : List ℕ) : Prop :=
  ∃ level ∈ s.levels, ids.Sublist level.2

/-- Tables of L0, or of the upper level of a task. -/
def UpperFrom (s : LsmStorageState M) (upperLevel : Option ℕ) (ids : List ℕ) : Prop :=
  match upperLevel with
  | none => ids.Sublist s.l0Sstables
  | some _ => LevelFrom s ids

/-- The inputs of the task are tables of the state, in the order in which they are there. -/
def TakenFrom (s : LsmStorageState M) : CompactionTask → Prop
  | .forceFullCompaction l0Sstables l1Sstables =>
    l0Sstables.Sublist s.l0Sstables ∧ LevelFrom s l1Sstables
  | .simple t => UpperFrom s t.upperLevel t.upperLevelSstIds ∧ LevelFrom s t.lowerLevelSstIds
  | .tiered t => t.tiers.Sublist s.levels
  | .leveled t => UpperFrom s t.upperLevel t.upperLevelSstIds ∧ LevelFrom s t.lowerLevelSstIds

theorem LevelFrom.listed {ids : List ℕ} (h : LevelFrom s ids) : ∀ id ∈ ids, id ∈ s.listedIds := by
  obtain ⟨level, hlevel, hsub⟩ := h
  intro id hid
  exact LsmStorageState.mem_listedIds.mpr (Or.inr ⟨level, hlevel, hsub.subset hid⟩)

theorem UpperFrom.listed {upperLevel : Option ℕ} {ids : List ℕ} (h : UpperFrom s upperLevel ids) :
    ∀ id ∈ ids, id ∈ s.listedIds := by
  cases upperLevel with
  | none =>
    intro id hid
    exact LsmStorageState.mem_listedIds.mpr (Or.inl (List.Sublist.subset h hid))
  | some _ => exact LevelFrom.listed h

theorem TakenFrom.listed {task : CompactionTask} (h : task.TakenFrom s) :
    ∀ id ∈ task.inputIds, id ∈ s.listedIds := by
  cases task with
  | forceFullCompaction l0 l1 =>
    exact List.forall_mem_append.mpr ⟨UpperFrom.listed (show UpperFrom s none l0 from h.1), h.2.listed⟩
  | simple t => exact List.forall_mem_append.mpr ⟨h.1.listed, h.2.listed⟩
  | leveled t => exact List.forall_mem_append.mpr ⟨h.1.listed, h.2.listed⟩
  | tiered t =>
    intro id hid
    obtain ⟨ids, hids, hmem⟩ := List.mem_flatten.mp hid
    obtain ⟨tier, htier, rfl⟩ := List.mem_map.mp hids
    exact LevelFrom.listed ⟨tier, h.subset htier, List.Sublist.refl _⟩ id hmem

variable {contents : ℕ → List Entry}

theorem LevelFrom.sorted {ids : List ℕ} (h : LevelFrom s ids)
    (hlevels : ∀ level ∈ s.levels, SortedRun (levelRun contents level.2)) :
    SortedRun (levelRun contents ids) := by
  obtain ⟨level, hlevel, hsub⟩ := h
  exact (hlevels level hlevel).sublist (hsub.map contents).flatten

theorem TakenFrom.sorted {task : CompactionTask} (h : task.TakenFrom s)
    (htables : ∀ id ∈ s.listedIds, SortedRun (contents id))
    (hlevels : ∀ level ∈ s.levels, SortedRun (levelRun contents level.2)) :
    ∀ run ∈ task.runs contents, SortedRun run := by
  have hl0 : ∀ ids : List ℕ, (∀ id ∈ ids, id ∈ s.listedIds) →
      ∀ run ∈ ids.map contents, SortedRun run := by
    intro ids hids run hrun
    obtain ⟨id, hid, rfl⟩ := List.mem_map.mp hrun
    exact htables id (hids id hid)
  have htwo : ∀ (upperLevel : Option ℕ) (upper lower : List ℕ), UpperFrom s upperLevel upper →
      LevelFrom s lower →
      ∀ run ∈ (match upperLevel with
        | none => upper.map contents
        | some _ => [levelRun contents upper]) ++ [levelRun contents lower], SortedRun run := by
    intro upperLevel upper lower hupper hlower
    refine List.forall_mem_append.mpr ⟨?_, by simpa using hlower.sorted hlevels⟩
    cases upperLevel with
    | none => exact hl0 upper hupper.listed
    | some u => simpa using LevelFrom.sorted hupper hlevels
  cases task with
  | forceFullCompaction l0 l1 => exact htwo none l0 l1 h.1 h.2
  | simple t => exact htwo _ _ _ h.1 h.2
  | leveled t => exact htwo _ _ _ h.1 h.2
  | tiered t =>
    intro run hrun
    obtain ⟨tier, htier, rfl⟩ := List.mem_map.mp hrun
    exact hlevels tier (h.subset htier)

end CompactionTask

/-! ## The tables of the chunks -/

section

variable [Platform] {options : LsmStorageOptions} {compactToBottom : Bool}

/-- Each table was built from its chunk. -/
theorem Wrote.built {blockSize : ℕ} {p p' : Disk × ℕ} {cs : List (List Entry)} {ssts : List SsTable}
    (h : Wrote blockSize p cs ssts p') :
    List.Forall₂ (fun t c => SsTable.ofEntries blockSize t.id c = .ok t) ssts cs := by
  induction h with
  | nil _ => exact .nil
  | cons hbuild _ _ _ _ ih =>
    refine .cons ?_ ih
    rwa [SsTable.ofEntries_id hbuild]

/-- Consecutive ids were used. -/
theorem Wrote.ids {blockSize : ℕ} {p p' : Disk × ℕ} {cs : List (List Entry)} {ssts : List SsTable}
    (h : Wrote blockSize p cs ssts p') :
    ssts.map SsTable.id = List.range' p.2 cs.length ∧ p'.2 = p.2 + cs.length := by
  induction h with
  | nil _ => exact ⟨rfl, rfl⟩
  | @cons d d₁ id c cs t ts p hbuild _ _ _ _ ih =>
    refine ⟨?_, ?_⟩
    · rw [List.map_cons, ih.1, SsTable.ofEntries_id hbuild]
      rfl
    · rw [ih.2, List.length_cons]
      omega

/-- A chunk that keeps its tombstones is not empty. -/
theorem chunks_ne_nil {cur : Option (List Entry)} (hcur : ∀ es ∈ cur, es ≠ []) (l : List Entry) :
    ∀ c ∈ chunks options false cur l, c ≠ [] := by
  induction l generalizing cur with
  | nil =>
    cases cur with
    | none => simp [chunks]
    | some es => simpa [chunks] using hcur es rfl
  | cons e l ih =>
    have hne : cur.getD [] ++ kept false [e] ≠ [] := by simp [kept]
    rw [chunks.eq_3]
    split
    · exact List.forall_mem_cons.mpr ⟨hne, ih (by simp)⟩
    · exact ih (by simpa using hne)

/-- Whatever has been read goes into some table, also when all of it is left out. -/
theorem chunks_eq_nil_iff {cur : Option (List Entry)} {l : List Entry} :
    chunks options compactToBottom cur l = [] ↔ cur = none ∧ l = [] := by
  induction l generalizing cur with
  | nil => cases cur <;> simp [chunks]
  | cons e l ih =>
    rw [chunks.eq_3]
    split
    · simp
    · rw [ih]
      simp

/-- The tables of consecutive pieces of a sorted run follow each other. -/
theorem pairwise_of_built {blockSize : ℕ} {ssts : List SsTable} {cs : List (List Entry)}
    (h : List.Forall₂ (fun t c => SsTable.ofEntries blockSize t.id c = .ok t) ssts cs)
    (hne : ∀ c ∈ cs, c ≠ []) (hs : SortedRun cs.flatten) :
    ssts.Pairwise fun t u => t.lastKey < u.firstKey := by
  induction h with
  | nil => exact .nil
  | @cons t c ssts cs hbuild hrest ih =>
    obtain ⟨hc, hcs⟩ := List.forall_mem_cons.mp hne
    obtain ⟨-, hsorted, hlt⟩ := SortedRun.append_iff.mp hs
    refine List.pairwise_cons.mpr ⟨?_, ih hcs hsorted⟩
    intro u hu
    obtain ⟨c', hc', hbuild'⟩ := exists_of_mem_left hrest hu
    obtain ⟨-, -, z, hz, hlast⟩ := SsTable.ofEntries_ne_nil hc hbuild
    obtain ⟨-, ⟨a, ha, hfirst⟩, -⟩ := SsTable.ofEntries_ne_nil (hcs c' hc') hbuild'
    rw [hlast, hfirst]
    exact hlt z (List.mem_of_getLast? hz) a
      (List.mem_flatten.mpr ⟨c', hc', List.mem_of_mem_head? ha⟩)

/-- Within the limits of the format the tables can be read back. -/
theorem hasEntries_of_built {blockSize : ℕ} (hb : blockSize ≤ 65535) {ssts : List SsTable}
    {cs : List (List Entry)}
    (h : List.Forall₂ (fun t c => SsTable.ofEntries blockSize t.id c = .ok t) ssts cs)
    (hne : ∀ c ∈ cs, c ≠ []) (hs : SortedRun cs.flatten) (henc : ∀ e ∈ cs.flatten, Encodable e) :
    List.Forall₂ (fun t c => t.HasEntries c ∧ t.BloomBuiltFrom c) ssts cs := by
  induction h with
  | nil => exact .nil
  | @cons t c ssts cs hbuild _ ih =>
    obtain ⟨hc, hcs⟩ := List.forall_mem_cons.mp hne
    obtain ⟨hsc, hsorted, -⟩ := SortedRun.append_iff.mp hs
    obtain ⟨hencc, henc⟩ := List.forall_mem_append.mp henc
    obtain ⟨t', hbuild', hentries⟩ := SsTable.ofEntries_spec hb hc hsc hencc t.id
    rw [hbuild] at hbuild'
    cases hbuild'
    exact .cons hentries (ih hcs hsorted henc)

end

/-! ## Empty tables -/

section

variable [Platform] {options : LsmStorageOptions}

/-- The entries fill a whole number of tables: each piece closes its table, and no part of it does. -/
inductive WholeTables (options : LsmStorageOptions) : List Entry → Prop where
  | nil : WholeTables options []
  | cons {g es : List Entry} (hne : g ≠ []) (hfull : sstFull options g = true)
      (hfirst : ∀ g₁ g₂, g = g₁ ++ g₂ → g₁ ≠ [] → g₂ ≠ [] → sstFull options g₁ = false)
      (hrest : WholeTables options es) : WholeTables options (g ++ es)

/-- On this stream a compaction to the bottom closes a table with nothing in it: at some point the
entries that it keeps fill a whole number of tables, tombstones follow, and then comes the end of
the stream; with a target size of zero a table is closed after every entry. -/
def LeavesEmpty (options : LsmStorageOptions) (compactToBottom : Bool) (l : List Entry) : Prop :=
  compactToBottom = true ∧ ∃ pre tombs post, l = pre ++ tombs ++ post ∧ tombs ≠ [] ∧
    (∀ e ∈ tombs, isTombstone e.2 = true) ∧ WholeTables options (kept true pre) ∧
    (post = [] ∨ options.targetSstSize = 0)

omit [Platform] in
theorem kept_append (bottom : Bool) (l r : List Entry) :
    kept bottom (l ++ r) = kept bottom l ++ kept bottom r := List.filter_append l r

omit [Platform] in
theorem kept_eq_nil {l : List Entry} : kept true l = [] ↔ ∀ e ∈ l, isTombstone e.2 = true := by
  simp [kept, List.filter_eq_nil_iff]

/-- An empty builder is closed only when nothing is required of it. -/
theorem sstFull_nil : sstFull options [] = true ↔ options.targetSstSize = 0 := by
  change decide (options.targetSstSize ≤ 0) = true ↔ _
  rw [decide_eq_true_iff, Nat.le_zero]

/-- The first chunk ends where its table is full for the first time, or with the stream. -/
theorem chunks_cases (options : LsmStorageOptions) (bottom : Bool) (cur : Option (List Entry)) (l : List Entry) :
    (∃ a b, l = a ++ b ∧ a ≠ [] ∧ sstFull options (cur.getD [] ++ kept bottom a) = true ∧
      (∀ a₁ a₂, a = a₁ ++ a₂ → a₁ ≠ [] → a₂ ≠ [] →
        sstFull options (cur.getD [] ++ kept bottom a₁) = false) ∧
      chunks options bottom cur l = (cur.getD [] ++ kept bottom a) :: chunks options bottom none b) ∨
    ((∀ a b, l = a ++ b → a ≠ [] → sstFull options (cur.getD [] ++ kept bottom a) = false) ∧
      chunks options bottom cur l =
        if cur = none ∧ l = [] then [] else [cur.getD [] ++ kept bottom l]) := by
  induction l generalizing cur with
  | nil =>
    refine Or.inr ⟨?_, ?_⟩
    · intro a b hab ha
      exact absurd (List.append_eq_nil_iff.mp hab.symm).1 ha
    · cases cur <;> simp [chunks, kept]
  | cons e l ih =>
    have hcons : ∀ a : List Entry, kept bottom (e :: a) = kept bottom [e] ++ kept bottom a :=
      kept_append bottom [e]
    by_cases hfull : sstFull options (cur.getD [] ++ kept bottom [e]) = true
    · refine Or.inl ⟨[e], l, rfl, List.cons_ne_nil _ _, hfull, ?_, ?_⟩
      · intro a₁ a₂ ha ha₁ ha₂
        have hlen := congrArg List.length ha
        rw [List.length_append, List.length_singleton] at hlen
        have h₁ := List.length_pos_of_ne_nil ha₁
        have h₂ := List.length_pos_of_ne_nil ha₂
        omega
      · rw [chunks.eq_3, if_pos hfull]
    · -- the entry goes into the table under construction, which stays open
      have hchunks : chunks options bottom cur (e :: l) =
          chunks options bottom (some (cur.getD [] ++ kept bottom [e])) l := by
        rw [chunks.eq_3, if_neg hfull]
      have hopen : ∀ a₁ a : List Entry, a₁ ≠ [] → e :: a = a₁ → a = [] →
          sstFull options (cur.getD [] ++ kept bottom a₁) = false := by
        rintro a₁ a - rfl rfl
        exact Bool.eq_false_iff.mpr hfull
      rw [hchunks]
      rcases ih (some (cur.getD [] ++ kept bottom [e])) with
        ⟨a, b, hl, ha, hclosed, hfirst, heq⟩ | ⟨hnever, heq⟩
      · refine Or.inl ⟨e :: a, b, by rw [hl]; rfl, List.cons_ne_nil _ _, ?_, ?_, ?_⟩
        · rw [hcons, ← List.append_assoc]
          exact hclosed
        · intro a₁ a₂ haa ha₁ ha₂
          cases a₁ with
          | nil => exact absurd rfl ha₁
          | cons e' a₁ =>
            obtain ⟨rfl, rfl⟩ := List.cons.inj haa
            by_cases hnil : a₁ = []
            · exact hopen _ _ ha₁ rfl hnil
            · rw [hcons, ← List.append_assoc]
              exact hfirst a₁ a₂ rfl hnil ha₂
        · rw [heq, hcons a, ← List.append_assoc]
          rfl
      · refine Or.inr ⟨?_, ?_⟩
        · intro a b hab ha
          cases a with
          | nil => exact absurd rfl ha
          | cons e' a =>
            obtain ⟨rfl, rfl⟩ := List.cons.inj hab
            by_cases hnil : a = []
            · exact hopen _ _ ha rfl hnil
            · rw [hcons, ← List.append_assoc]
              exact hnever a b rfl hnil
        · rw [heq, hcons l, ← List.append_assoc]
          simp

/-- A whole number of tables is none, or a first one and a whole number. -/
theorem WholeTables.kept_cases {pre : List Entry} (h : WholeTables options (kept true pre)) :
    kept true pre = [] ∨ ∃ p q, pre = p ++ q ∧ kept true p ≠ [] ∧
      sstFull options (kept true p) = true ∧
      (∀ g₁ g₂, kept true p = g₁ ++ g₂ → g₁ ≠ [] → g₂ ≠ [] → sstFull options g₁ = false) ∧
      WholeTables options (kept true q) := by
  generalize hk : kept true pre = es at h
  cases h with
  | nil => exact Or.inl rfl
  | cons hne hfull hfirst hrest =>
    obtain ⟨p, q, rfl, rfl, rfl⟩ := List.filter_eq_append_iff.mp hk
    exact Or.inr ⟨p, q, rfl, hne, hfull, hfirst, hrest⟩

/-- **When a chunk is empty.** -/
theorem nil_mem_chunks_iff {l : List Entry} :
    [] ∈ chunks options true none l ↔ LeavesEmpty options true l := by
  induction hn : l.length using Nat.strong_induction_on generalizing l with
  | _ n ih =>
    subst hn
    have hrest : ∀ a b : List Entry, l = a ++ b → a ≠ [] →
        ([] ∈ chunks options true none b ↔ LeavesEmpty options true b) := by
      intro a b hab ha
      refine ih b.length ?_ rfl
      rw [hab, List.length_append]
      exact Nat.lt_add_of_pos_left (List.length_pos_of_ne_nil ha)
    rcases chunks_cases options true none l with
      ⟨a, b, hl, ha, hclosed, hfirst, heq⟩ | ⟨hnever, heq⟩
    · simp only [Option.getD_none, List.nil_append] at hclosed hfirst heq
      rw [heq, List.mem_cons, hrest a b hl ha]
      by_cases hnil : kept true a = []
      · -- the table of the first chunk is closed empty
        rw [hnil, sstFull_nil] at hclosed
        exact iff_of_true (Or.inl hnil.symm)
          ⟨rfl, [], a, b, hl, ha, kept_eq_nil.mp hnil, .nil, Or.inr hclosed⟩
      rw [or_iff_right (Ne.symm hnil)]
      have hfirst' : ∀ g₁ g₂, kept true a = g₁ ++ g₂ → g₁ ≠ [] → g₂ ≠ [] →
          sstFull options g₁ = false := by
        intro g₁ g₂ hg hg₁ hg₂
        obtain ⟨a₁, a₂, rfl, rfl, rfl⟩ := List.filter_eq_append_iff.mp hg
        refine hfirst a₁ a₂ rfl ?_ ?_
        · rintro rfl
          exact hg₁ rfl
        · rintro rfl
          exact hg₂ rfl
      constructor
      · rintro ⟨-, pre, tombs, post, rfl, htombs, hall, hwhole, hend⟩
        refine ⟨rfl, a ++ pre, tombs, post, by rw [hl]; simp, htombs, hall, ?_, hend⟩
        rw [kept_append]
        exact .cons hnil hclosed hfirst' hwhole
      · rintro ⟨-, pre, tombs, post, hsplit, htombs, hall, hwhole, hend⟩
        rcases hwhole.kept_cases with hpre | ⟨p, q, rfl, hp, hfull, hpart, hq⟩
        · -- nothing is kept before the tombstones, so the first chunk does not reach past them
          have htomb : kept true (pre ++ tombs) = [] := by
            rw [kept_append, hpre, kept_eq_nil.mpr hall, List.append_nil]
          rw [hl, List.append_eq_append_iff] at hsplit
          rcases hsplit with ⟨c, hc, -⟩ | ⟨c, rfl, hpost⟩
          · rw [hc, kept_append] at htomb
            exact absurd (List.append_eq_nil_iff.mp htomb).1 hnil
          · rw [kept_append, htomb, List.nil_append] at hnil
            have hcne : c ≠ [] := by
              rintro rfl
              exact hnil rfl
            have hzero : options.targetSstSize = 0 := by
              refine hend.resolve_left ?_
              rintro rfl
              exact hcne (List.append_eq_nil_iff.mp hpost.symm).1
            have hopen := hfirst (pre ++ tombs) c rfl (by simp [htombs]) hcne
            rw [htomb, sstFull_nil.mpr hzero] at hopen
            cases hopen
        · -- the first chunk keeps what is in the first table
          rw [hl, List.append_assoc, List.append_assoc, List.append_eq_append_iff] at hsplit
          rcases hsplit with ⟨c, rfl, rfl⟩ | ⟨c, rfl, hrest'⟩
          · have hc : kept true c = [] := by
              by_contra hc
              rw [hpart _ _ (kept_append true a c) hnil hc] at hclosed
              cases hclosed
            refine ⟨rfl, c ++ q, tombs, post, by simp, htombs, hall, ?_, hend⟩
            rw [kept_append, hc]
            exact hq
          · have hpne : p ≠ [] := by
              rintro rfl
              exact hp rfl
            have hc : c = [] := by
              by_contra hc
              rw [hfirst p c rfl hpne hc] at hfull
              cases hfull
            subst hc
            exact ⟨rfl, q, tombs, post, by simpa using hrest'.symm, htombs, hall, hq, hend⟩
    · simp only [Option.getD_none, List.nil_append] at hnever heq
      rw [heq]
      constructor
      · intro hmem
        split at hmem
        · cases hmem
        · rename_i hne
          have hl : l ≠ [] := fun hl => hne ⟨trivial, hl⟩
          exact ⟨rfl, [], l, [], by simp, hl, kept_eq_nil.mp (List.mem_singleton.mp hmem).symm, .nil,
            Or.inl rfl⟩
      · rintro ⟨-, pre, tombs, post, rfl, htombs, hall, hwhole, hend⟩
        have hpre : kept true pre = [] := by
          rcases hwhole.kept_cases with hpre | ⟨p, q, rfl, hp, hfull, -⟩
          · exact hpre
          · have hpne : p ≠ [] := by
              rintro rfl
              exact hp rfl
            rw [hnever p (q ++ tombs ++ post) (by simp) hpne] at hfull
            cases hfull
        have htomb : kept true (pre ++ tombs) = [] := by
          rw [kept_append, hpre, kept_eq_nil.mpr hall, List.append_nil]
        have hpost : post = [] := by
          refine hend.resolve_right ?_
          intro hzero
          have hopen := hnever (pre ++ tombs) post rfl (by simp [htombs])
          rw [htomb, sstFull_nil.mpr hzero] at hopen
          cases hopen
        subst hpost
        rw [List.append_nil, if_neg (by simp [htombs]), htomb]
        exact List.mem_singleton.mpr rfl

end

/-! ## Compactions that keep their tombstones -/

section

variable [Platform]

/-- **A compaction that is not to the bottom loses and invents nothing.**  It returns when no I/O
fails.  Its tables were built from pieces of the union of the inputs, in order; no piece is empty,
and each table ends before the next one starts. -/
theorem compact_not_bottom (options : LsmStorageOptions) (s : LsmStorageState M)
    (contents : ℕ → List Entry) (htables : ∀ id ∈ s.listedIds, s.TableHolds id (contents id))
    (hlevels : ∀ level ∈ s.levels, SortedRun (CompactionTask.levelRun contents level.2))
    (task : CompactionTask) (htask : task.TakenFrom s) (hbottom : task.compactToBottomLevel = false)
    (p : Disk × ℕ) :
    (p.1.Reliable → ∃ ssts p', (compact options s task).exec p = (.ok ssts, p')) ∧
    ∀ ssts p', (compact options s task).exec p = (.ok ssts, p') →
      ∃ cs : List (List Entry),
        List.Forall₂ (fun t c => SsTable.ofEntries options.blockSize t.id c = .ok t) ssts cs ∧
        SortedRun cs.flatten ∧
        (∀ k, k ∈ runKeys cs.flatten ↔ ∃ id ∈ task.inputIds, k ∈ runKeys (contents id)) ∧
        (∀ x, x ∈ cs.flatten ↔ EarliestIn (task.runs contents) x) ∧
        (∀ c ∈ cs, c ≠ []) ∧ (∀ t ∈ ssts, t.blockMeta ≠ []) ∧
        (ssts.Pairwise fun t u => t.lastKey < u.firstKey) ∧
        (options.blockSize ≤ 65535 → (∀ x ∈ cs.flatten, Encodable x) →
          List.Forall₂ SsTable.HasEntries ssts cs) := by
  have hinputs : ∀ id ∈ task.inputIds, s.TableHolds id (contents id) :=
    fun id hid => htables id (htask.listed id hid)
  have hruns : ∀ run ∈ task.runs contents, SortedRun run := by
    refine htask.sorted ?_ hlevels
    intro id hid
    obtain ⟨t, -, ht⟩ := htables id hid
    exact ht.sorted
  refine ⟨fun hp => ?_, fun ssts p' hok => ?_⟩
  · obtain ⟨ssts, p', hok, -⟩ := compact_reliable hinputs hruns hp
    exact ⟨ssts, p', hok⟩
  have hwrote := compact_spec hinputs hruns hok
  rw [hbottom] at hwrote
  have hflat : (chunks options false none (unionAll (task.runs contents))).flatten =
      unionAll (task.runs contents) := by
    rw [flatten_chunks]
    simp [kept]
  have hsorted : SortedRun (chunks options false none (unionAll (task.runs contents))).flatten := by
    rw [hflat]
    exact sortedRun_unionAll hruns
  have hne : ∀ c ∈ chunks options false none (unionAll (task.runs contents)), c ≠ [] :=
    chunks_ne_nil (by simp) _
  refine ⟨_, hwrote.built, hsorted, ?_, ?_, hne, ?_, pairwise_of_built hwrote.built hne hsorted, ?_⟩
  · intro k
    rw [hflat, mem_runKeys_unionAll hruns]
    simp only [mem_runKeys]
    constructor
    · rintro ⟨run, hrun, v, hv⟩
      obtain ⟨id, hid, hmem⟩ := CompactionTask.mem_runs.mp ⟨run, hrun, hv⟩
      exact ⟨id, hid, v, hmem⟩
    · rintro ⟨id, hid, v, hv⟩
      obtain ⟨run, hrun, hmem⟩ := CompactionTask.mem_runs.mpr ⟨id, hid, hv⟩
      exact ⟨run, hrun, v, hmem⟩
  · intro x
    rw [hflat]
    exact mem_unionAll hruns
  · intro t ht
    obtain ⟨c, hc, hbuild⟩ := exists_of_mem_left hwrote.built ht
    exact (SsTable.ofEntries_ne_nil (hne c hc) hbuild).1
  · intro hb henc
    exact (hasEntries_of_built hb hwrote.built hne hsorted henc).imp fun _ _ h => h.1

end

section

attribute [local instance] shortKeyPlatform

/-- L0 of the small store is merged into its level, which is not the bottom: the version of key 2 goes
between those of key 1 and key 3, and the tombstone of key 1 stays. -/
theorem compact_not_bottom_small : ∃ t₁ t₂ t₃,
    (∃ ssts p', (compact ⟨4096, 2 ^ 20, 50, .simple ⟨50, 1, 2⟩, false⟩
        (LsmStorageState.smallStore t₁ t₂ t₃) (.simple ⟨none, [1], 1, [2, 3], false⟩)).exec
          (Disk.empty, 5) = (.ok ssts, p')) ∧
    ∀ ssts p', (compact ⟨4096, 2 ^ 20, 50, .simple ⟨50, 1, 2⟩, false⟩
        (LsmStorageState.smallStore t₁ t₂ t₃) (.simple ⟨none, [1], 1, [2, 3], false⟩)).exec
          (Disk.empty, 5) = (.ok ssts, p') →
      ∃ cs : List (List Entry),
        List.Forall₂ (fun t c => SsTable.ofEntries 4096 t.id c = .ok t) ssts cs ∧
        SortedRun cs.flatten ∧
        (∀ k, k ∈ runKeys cs.flatten ↔
          ∃ id ∈ [1, 2, 3], k ∈ runKeys (LsmStorageState.smallContents id)) ∧
        (∀ x, x ∈ cs.flatten ↔ EarliestIn [LsmStorageState.smallContents 1,
          LsmStorageState.smallContents 2 ++ LsmStorageState.smallContents 3] x) ∧
        (∀ c ∈ cs, c ≠ []) ∧ (∀ t ∈ ssts, t.blockMeta ≠ []) ∧
        (ssts.Pairwise fun t u => t.lastKey < u.firstKey) ∧
        (4096 ≤ 65535 → (∀ x ∈ cs.flatten, Encodable x) →
          List.Forall₂ SsTable.HasEntries ssts cs) := by
  obtain ⟨t₁, t₂, t₃, -, -, -, hholds, -⟩ := LsmStorageState.exists_smallStore
  have hlevels : ∀ level ∈ (LsmStorageState.smallStore t₁ t₂ t₃).levels,
      SortedRun (CompactionTask.levelRun LsmStorageState.smallContents level.2) := by
    intro level hlevel
    rw [List.mem_singleton.mp hlevel]
    decide
  have htask : (CompactionTask.simple ⟨none, [1], 1, [2, 3], false⟩).TakenFrom
      (LsmStorageState.smallStore t₁ t₂ t₃) :=
    ⟨List.Sublist.refl _, _, List.mem_singleton.mpr rfl, List.Sublist.refl _⟩
  obtain ⟨hreturns, hok⟩ := compact_not_bottom ⟨4096, 2 ^ 20, 50, .simple ⟨50, 1, 2⟩, false⟩
    (LsmStorageState.smallStore t₁ t₂ t₃) LsmStorageState.smallContents hholds.tables hlevels
    (.simple ⟨none, [1], 1, [2, 3], false⟩) htask rfl (Disk.empty, 5)
  exact ⟨t₁, t₂, t₃, hreturns (by simp [Disk.Reliable, Disk.empty]), hok⟩

end

end TinyLsm

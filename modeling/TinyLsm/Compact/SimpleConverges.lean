import TinyLsm.Compact.SimpleLeveled
import TinyLsm.Lib.Runs

/-!
# Simple leveled compaction comes to an end

`Compacts options s output s'`: the task for `s` is applied with the tables `output`, whatever they
are.  A turn empties one level and fills the next, so a level with tables is charged for the levels
below it: `potential` falls at every turn.

From a state without a task one flush sets off a cascade (`Settling`): only the level that was filled
last can have too many tables for the one below it, so every level is filled at most once.
-/

namespace TinyLsm

namespace SimpleLeveledCompactionController

variable {M : Type} {options : SimpleLeveledCompactionOptions} {s s' : LsmStorageState M}
  {output : List ℕ}

/-! ## One turn -/

/-- One turn of the loop of `generate_compaction_task` and `apply_compaction_result`. -/
def Compacts (options : SimpleLeveledCompactionOptions) (s : LsmStorageState M) (output : List ℕ)
    (s' : LsmStorageState M) : Prop :=
  ∃ task removed, generateCompactionTask options s = .ok (some task) ∧
    applyCompactionResult s task output = .ok (s', removed)

/-- Neither function panics: there is no task, or it can be applied with any output. -/
def Continues (options : SimpleLeveledCompactionOptions) (s : LsmStorageState M) : Prop :=
  generateCompactionTask options s = .ok none ∨
    ∃ task, generateCompactionTask options s = .ok (some task) ∧
      ∀ output, ∃ s' removed, applyCompactionResult s task output = .ok (s', removed)

/-- **What a turn does**: L0 is merged into L1, or a level into the next one, which has too few
tables. -/
theorem Compacts.cases (hlabels : Labelled s.levels) (h : Compacts options s output s') :
    (options.level0FileNumCompactionTrigger ≤ s.l0Sstables.length ∧
      ∃ level below, s.levels = level :: below ∧ s'.l0Sstables = [] ∧
        s'.levels = (1, output) :: below) ∨
    (s.l0Sstables.length < options.level0FileNumCompactionTrigger ∧
      ∃ above upper lower below, s.levels = above ++ upper :: lower :: below ∧
        ¬ InRatio options upper lower ∧ s'.l0Sstables = s.l0Sstables ∧
        s'.levels = above ++ (upper.1, []) :: (lower.1, output) :: below) := by
  obtain ⟨task, removed, hgenerate, happly⟩ := h
  unfold generateCompactionTask at hgenerate
  split at hgenerate
  · rename_i htrigger
    obtain ⟨level, hindex, htask⟩ := Outcome.bind_eq_ok_iff.mp hgenerate
    cases htask
    rw [index_eq_ok_iff] at hindex
    obtain ⟨above, below, hlevels, habove⟩ := split_of_getElem? hindex
    obtain rfl := List.length_eq_zero_iff.mp habove
    rw [applyCompactionResult_l0 hlevels] at happly
    cases happly
    exact Or.inl ⟨htrigger, level, below, hlevels, filter_notMem_self _, rfl⟩
  · rename_i htrigger
    obtain ⟨_, -, hloop⟩ := Outcome.bind_eq_ok_iff.mp hgenerate
    obtain ⟨above, upper, lower, below, hlevels, hratio, rfl⟩ := generateLoop_spec (Except.ok.inj hloop)
    rw [applyCompactionResult_pair hlabels hlevels] at happly
    cases happly
    exact Or.inr ⟨by omega, above, upper, lower, below, hlevels, hratio, rfl, rfl⟩

/-- The labels stay. -/
theorem Compacts.labels (hlabels : Labelled s.levels) (h : Compacts options s output s') :
    s'.levels.map Prod.fst = s.levels.map Prod.fst := by
  rcases h.cases hlabels with ⟨-, level, below, hlevels, -, hlevels'⟩ |
    ⟨-, above, upper, lower, below, hlevels, -, -, hlevels'⟩
  · have hone : level.1 = 1 :=
      (show Labelled ([] ++ level :: below) from hlevels ▸ hlabels).eq_length
    rw [hlevels, hlevels', List.map_cons, List.map_cons, hone]
  · rw [hlevels, hlevels']
    simp

theorem Compacts.labelled (hlabels : Labelled s.levels) (h : Compacts options s output s') :
    Labelled s'.levels ∧ s'.levels.length = s.levels.length := by
  have hlabels' := h.labels hlabels
  refine ⟨hlabels.congr hlabels', ?_⟩
  simpa using congrArg List.length hlabels'

/-- On a tree with levels the loop does not panic. -/
theorem continues (options : SimpleLeveledCompactionOptions) (hlabels : Labelled s.levels)
    (hlevels : s.levels ≠ []) : Continues options s := by
  obtain ⟨level, below, hcons⟩ := List.exists_cons_of_ne_nil hlevels
  by_cases htrigger : s.l0Sstables.length ≥ options.level0FileNumCompactionTrigger
  · have hindex : index s.levels 0 = .ok level := by
      rw [index_eq_ok_iff, hcons]
      rfl
    refine Or.inr ⟨⟨none, s.l0Sstables, 1, level.2, s.levels.length == 1⟩, ?_, fun output => ?_⟩
    · rw [generateCompactionTask, if_pos htrigger, hindex]
      rfl
    · exact ⟨_, _, applyCompactionResult_l0 hcons ..⟩
  · have hgenerate : generateCompactionTask options s =
        .ok (generateLoop options s.levels.length s.levels) := by
      rw [generateCompactionTask, if_neg htrigger,
        usizeSub_of_le (List.length_pos_iff.mpr hlevels)]
      rfl
    cases hloop : generateLoop options s.levels.length s.levels with
    | none => exact Or.inl (hgenerate.trans (congrArg Except.ok hloop))
    | some task =>
      refine Or.inr ⟨task, hgenerate.trans (congrArg Except.ok hloop), fun output => ?_⟩
      obtain ⟨above, upper, lower, below, hsplit, -, rfl⟩ := generateLoop_spec hloop
      exact ⟨_, _, applyCompactionResult_pair hlabels hsplit ..⟩

/-! ## The potential -/

/-- A level with tables is charged for the levels below it. -/
def charge : List (ℕ × List ℕ) → ℕ
  | [] => 0
  | level :: below => (if level.2 = [] then 0 else below.length) + charge below

/-- The charge of the levels, and that of L0 when it is to be compacted. -/
def potential (options : SimpleLeveledCompactionOptions) (s : LsmStorageState M) : ℕ :=
  (if options.level0FileNumCompactionTrigger ≤ s.l0Sstables.length then s.levels.length else 0) +
    charge s.levels

theorem charge_cons_le (level : ℕ × List ℕ) (below : List (ℕ × List ℕ)) :
    charge (level :: below) ≤ below.length + charge below := by
  rw [charge]
  split <;> omega

/-- The charge is at most `0 + 1 + … + (n - 1)`. -/
theorem charge_le (levels : List (ℕ × List ℕ)) :
    2 * charge levels + levels.length ≤ levels.length * levels.length := by
  induction levels with
  | nil => exact le_rfl
  | cons level below ih =>
    have hle := charge_cons_le level below
    rw [List.length_cons]
    have hsquare : (below.length + 1) * (below.length + 1) =
        below.length * below.length + 2 * below.length + 1 := by ring
    omega

/-- Moving a level down gives back the charge of one step. -/
theorem charge_pair_lt {upper lower : ℕ × List ℕ} (hupper : upper.2 ≠ []) (output : List ℕ)
    (above below : List (ℕ × List ℕ)) :
    charge (above ++ (upper.1, []) :: (lower.1, output) :: below) <
      charge (above ++ upper :: lower :: below) := by
  induction above with
  | nil =>
    have hle := charge_cons_le (lower.1, output) below
    simp only [List.nil_append, charge, if_neg hupper, if_pos, List.length_cons] at hle ⊢
    omega
  | cons level above ih =>
    have hlen : (above ++ (upper.1, []) :: (lower.1, output) :: below).length =
        (above ++ upper :: lower :: below).length := by simp
    rw [List.cons_append, List.cons_append, charge, charge, hlen]
    omega

theorem potential_le (options : SimpleLeveledCompactionOptions) (s : LsmStorageState M) :
    potential options s ≤ s.levels.length * (s.levels.length + 1) / 2 := by
  have hle := charge_le s.levels
  have hmul : s.levels.length * (s.levels.length + 1) =
      s.levels.length * s.levels.length + s.levels.length := by ring
  rw [Nat.le_div_iff_mul_le (by omega), potential]
  split <;> omega

/-- **Every turn lowers the potential.** -/
theorem Compacts.potential_lt (htrigger : 1 ≤ options.level0FileNumCompactionTrigger)
    (hlabels : Labelled s.levels) (h : Compacts options s output s') :
    potential options s' < potential options s := by
  rcases h.cases hlabels with ⟨hl0, level, below, hlevels, hl0', hlevels'⟩ |
    ⟨hl0, above, upper, lower, below, hlevels, hratio, hl0', hlevels'⟩
  · -- L0 is below the trigger now, and pays for L1.
    have hle := charge_cons_le (1, output) below
    have hbelow : charge below ≤ charge (level :: below) := Nat.le_add_left _ _
    have hnot : ¬ options.level0FileNumCompactionTrigger ≤ ([] : List ℕ).length := by
      rw [List.length_nil]
      omega
    rw [potential, potential, hl0', hlevels', hlevels, if_neg hnot, if_pos hl0, List.length_cons]
    omega
  · have hupper : upper.2 ≠ [] := fun hempty => hratio (inRatio_of_empty options lower hempty)
    have hlt : charge (above ++ (upper.1, []) :: (lower.1, output) :: below) <
        charge (above ++ upper :: lower :: below) := charge_pair_lt hupper output above below
    rw [potential, potential, hl0', hlevels', hlevels, if_neg (by omega), if_neg (by omega)]
    omega

/-! ## The cascade after a flush -/

/-- At most `n` turns are left: the levels above the one that was filled last are empty, and those
below it have enough tables. -/
def Settling (options : SimpleLeveledCompactionOptions) (n : ℕ) (s : LsmStorageState M) : Prop :=
  (options.level0FileNumCompactionTrigger ≤ s.l0Sstables.length ∧ s.levels.length ≤ n ∧
      s.levels.IsChain (InRatio options)) ∨
    (s.l0Sstables.length < options.level0FileNumCompactionTrigger ∧
      ∃ above level below, s.levels = above ++ level :: below ∧ (∀ upper ∈ above, upper.2 = []) ∧
        below.IsChain (InRatio options) ∧ below.length ≤ n)

/-- Only the level between the empty ones and those in ratio can be moved down. -/
theorem eq_of_not_inRatio {above above' below below' : List (ℕ × List ℕ)}
    {level upper lower : ℕ × List ℕ}
    (hlevels : above ++ level :: below = above' ++ upper :: lower :: below')
    (hempty : ∀ upper ∈ above, upper.2 = []) (hbelow : below.IsChain (InRatio options))
    (hratio : ¬ InRatio options upper lower) :
    above' = above ∧ upper = level ∧ below = lower :: below' := by
  rw [List.append_eq_append_iff] at hlevels
  rcases hlevels with ⟨between, rfl, heq⟩ | ⟨between, rfl, heq⟩
  · cases between with
    | nil =>
      obtain ⟨rfl, rfl⟩ := List.cons.inj heq
      exact ⟨List.append_nil _, rfl, rfl⟩
    | cons b between =>
      -- The pair is below: it is in ratio.
      obtain ⟨-, rfl⟩ := List.cons.inj heq
      exact absurd (List.isChain_iff_forall_rel_of_append_cons_cons.mp hbelow rfl) hratio
  · cases between with
    | nil =>
      obtain ⟨rfl, rfl⟩ := List.cons.inj heq
      exact ⟨(List.append_nil _).symm, rfl, rfl⟩
    | cons b between =>
      -- The upper level is empty.
      obtain ⟨rfl, -⟩ := List.cons.inj heq
      refine absurd (inRatio_of_empty options lower (hempty upper ?_)) hratio
      exact List.mem_append_right _ List.mem_cons_self

/-- **A turn of the cascade.** -/
theorem Settling.step {n : ℕ} (htrigger : 1 ≤ options.level0FileNumCompactionTrigger)
    (hlabels : Labelled s.levels) (h : Settling options n s) (hstep : Compacts options s output s') :
    ∃ m < n, Settling options m s' := by
  rcases hstep.cases hlabels with ⟨hl0, level, below, hlevels, hl0', hlevels'⟩ |
    ⟨hl0, above, upper, lower, below, hlevels, hratio, hl0', hlevels'⟩
  · rcases h with ⟨-, hlen, hchain⟩ | ⟨hnot, -⟩
    · rw [hlevels, List.length_cons] at hlen
      rw [hlevels] at hchain
      refine ⟨below.length, by omega, Or.inr ⟨?_, [], (1, output), below, hlevels', ?_, hchain.tail, le_rfl⟩⟩
      · rw [hl0', List.length_nil]
        omega
      · simp
    · omega
  · rcases h with ⟨hge, -⟩ | ⟨-, above₀, level, below₀, hlevels₀, hempty, hchain, hlen⟩
    · omega
    · obtain ⟨rfl, rfl, rfl⟩ := eq_of_not_inRatio (hlevels₀.symm.trans hlevels) hempty hchain hratio
      rw [List.length_cons] at hlen
      refine ⟨below.length, by omega, Or.inr ⟨by rw [hl0']; exact hl0, above ++ [(upper.1, [])],
        (lower.1, output), below, ?_, ?_, hchain.tail, le_rfl⟩⟩
      · rw [hlevels', List.append_assoc]
        rfl
      · intro level hlevel
        rcases List.mem_append.mp hlevel with hlevel | hlevel
        · exact hempty level hlevel
        · rw [List.mem_singleton.mp hlevel]

/-- One more table in L0. -/
def FlushedToL0 (s s' : LsmStorageState M) : Prop :=
  s'.levels = s.levels ∧ ∃ id, s'.l0Sstables.Perm (id :: s.l0Sstables)

/-- **A flush onto a state without a task sets off a cascade.** -/
theorem settling_of_flush (h : generateCompactionTask options s = .ok none) (hflush : FlushedToL0 s s') :
    Settling options s.levels.length s' := by
  obtain ⟨-, hne, hchain⟩ := generateCompactionTask_eq_none_iff.mp h
  obtain ⟨hlevels, -⟩ := hflush
  by_cases hl0 : options.level0FileNumCompactionTrigger ≤ s'.l0Sstables.length
  · exact Or.inl ⟨hl0, by rw [hlevels], by rwa [hlevels]⟩
  · obtain ⟨level, below, hcons⟩ := List.exists_cons_of_ne_nil hne
    rw [hcons] at hchain
    refine Or.inr ⟨by omega, [], level, below, hlevels.trans hcons, ?_, hchain.tail, ?_⟩
    · simp
    · simp [hcons]

/-! ## Runs of the loop -/

/-- The loop ends after at most `n` turns: no run is longer, and where a run stops there is no task. -/
def EndsWithin (options : SimpleLeveledCompactionOptions) (n : ℕ) (s : LsmStorageState M) : Prop :=
  ∀ outputs s', Run (Compacts options) s outputs s' → outputs.length ≤ n ∧ Continues options s'

/-- A budget that every turn spends from bounds the loop. -/
theorem endsWithin_of_budget {I : ℕ → LsmStorageState M → Prop}
    (hstep : ∀ n t output u, Labelled t.levels → I n t → Compacts options t output u →
      ∃ m < n, I m u)
    {n : ℕ} (hlabels : Labelled s.levels) (hlevels : s.levels ≠ []) (h₀ : I n s) :
    EndsWithin options n s := by
  intro outputs s' hrun
  obtain ⟨m, hlen, hlabels', hlength, -⟩ := hrun.budget
    (fun n t => Labelled t.levels ∧ t.levels.length = s.levels.length ∧ I n t)
    (fun n t output u ht hturn => by
      obtain ⟨hlabels, hlength, hI⟩ := ht
      obtain ⟨m, hlt, hu⟩ := hstep n t output u hlabels hI hturn
      obtain ⟨hlabels', hlength'⟩ := hturn.labelled hlabels
      exact ⟨m, hlt, hlabels', hlength'.trans hlength, hu⟩)
    ⟨hlabels, rfl, h₀⟩
  refine ⟨by omega, continues options hlabels' ?_⟩
  rw [← List.length_pos_iff] at hlevels ⊢
  omega

/-- **The loop ends from every state.** -/
theorem endsWithin_potential (htrigger : 1 ≤ options.level0FileNumCompactionTrigger)
    (hlabels : Labelled s.levels) (hlevels : s.levels ≠ []) :
    EndsWithin options (potential options s) s :=
  endsWithin_of_budget (fun _ _ _ u hlabels hn hstep =>
    ⟨potential options u, (hstep.potential_lt htrigger hlabels).trans_le hn, le_rfl⟩)
    hlabels hlevels (I := fun n t => potential options t ≤ n) le_rfl

/-- **After a flush there are at most as many turns as levels.** -/
theorem Settling.endsWithin {n : ℕ} (h : Settling options n s)
    (htrigger : 1 ≤ options.level0FileNumCompactionTrigger) (hlabels : Labelled s.levels)
    (hlevels : s.levels ≠ []) : EndsWithin options n s :=
  endsWithin_of_budget (fun _ _ _ _ hlabels ht hstep => ht.step htrigger hlabels hstep)
    hlabels hlevels h

theorem EndsWithin.mono {n m : ℕ} (h : EndsWithin options n s) (hle : n ≤ m) :
    EndsWithin options m s := by
  intro outputs s' hrun
  obtain ⟨hlen, hcontinues⟩ := h outputs s' hrun
  exact ⟨hlen.trans hle, hcontinues⟩

end SimpleLeveledCompactionController

end TinyLsm

import TinyLsm.LsmStorage.State
import TinyLsm.Compact.Task

/-!
# Tiered compaction (`compact/tiered.rs`)

A flush makes a tier, and a task merges the newest tiers into one: `generateCompactionTask_spec`.
Meanwhile newer tiers may have come in front, and `applyCompactionResult_spec` puts the merged tier
between them and the older ones.
-/

namespace TinyLsm

namespace TieredCompactionController

variable {M : Type}

section

variable [Platform]

/-- The loop of the size-ratio trigger, over the tiers after `taken`, whose sizes add up to
`size`. -/
def sizeRatioLoop (options : TieredCompactionOptions) :
    List (ℕ × List ℕ) → ℕ → List (ℕ × List ℕ) → Option TieredCompactionTask
  | taken, size, tier :: next :: rest =>
    if Platform.sizeRatioExceeded next.2.length (size + tier.2.length) options.sizeRatio &&
        taken.length + 1 ≥ options.minMergeWidth then
      some { tiers := taken ++ [tier], bottomTierIncluded := false }
    else sizeRatioLoop options (taken ++ [tier]) (size + tier.2.length) (next :: rest)
  | _, _, _ => none

/-- `generate_compaction_task`. -/
def generateCompactionTask (options : TieredCompactionOptions) (s : LsmStorageState M) :
    Outcome (Option TieredCompactionTask) :=
  if s.l0Sstables ≠ [] then
    .error (.panic "should not add l0 ssts in tiered compaction")
  else if s.levels.length < options.numTiers then .ok none
  else do
    let upperTiers ← usizeSub s.levels.length 1
    let last ← index s.levels upperTiers
    if Platform.spaceAmpReached ((s.levels.take upperTiers).map fun tier => tier.2.length).sum
        last.2.length options.maxSizeAmplificationPercent then
      return some { tiers := s.levels, bottomTierIncluded := true }
    else
      match sizeRatioLoop options [] 0 s.levels with
      | some task => return some task
      | none =>
        let numTiersToTake := match options.maxMergeWidth with
          | some width => min s.levels.length width
          | none => s.levels.length
        return some
          { tiers := s.levels.take numTiersToTake
            bottomTierIncluded := s.levels.length ≥ numTiersToTake }

end

/-- `collect::<HashMap<_, _>>()` of the tiers of a task: of equal ids the last one stays. -/
def tierMap (tiers : List (ℕ × List ℕ)) : AList fun _ : ℕ => List ℕ :=
  tiers.foldl (fun m tier => m.insert tier.1 tier.2) ∅

/-- The loop over the tiers: the new levels and the removed files. -/
def applyLoop (output : List ℕ) : (AList fun _ : ℕ => List ℕ) → Bool → List (ℕ × List ℕ) →
    Outcome (List (ℕ × List ℕ) × List ℕ × (AList fun _ : ℕ => List ℕ))
  | tierToRemove, _, [] => .ok ([], [], tierToRemove)
  | tierToRemove, newTierAdded, (tierId, files) :: rest => do
    let (kept, removed, tierToRemove) ← match tierToRemove.lookup tierId with
      | some ffiles =>
        if ffiles = files then .ok ([], ffiles, tierToRemove.erase tierId)
        else .error (.panic "file changed after issuing compaction task")
      | none => .ok ([(tierId, files)], [], tierToRemove)
    if tierToRemove.entries = [] ∧ newTierAdded = false then
      let newTier ← index output 0
      let (levels, more, left) ← applyLoop output tierToRemove true rest
      return (kept ++ (newTier, output) :: levels, removed ++ more, left)
    else
      let (levels, more, left) ← applyLoop output tierToRemove newTierAdded rest
      return (kept ++ levels, removed ++ more, left)

/-- `apply_compaction_result`. -/
def applyCompactionResult (s : LsmStorageState M) (task : TieredCompactionTask)
    (output : List ℕ) : Outcome (LsmStorageState M × List ℕ) :=
  if s.l0Sstables ≠ [] then
    .error (.panic "should not add l0 ssts in tiered compaction")
  else do
    let (levels, removed, left) ← applyLoop output (tierMap task.tiers) false s.levels
    if left.entries = [] then return ({ s with levels }, removed)
    else throw (.panic "some tiers not found??")

/-! ## What the tasks are -/

section

variable [Platform]

theorem sizeRatioLoop_spec {options : TieredCompactionOptions} {taken tiers : List (ℕ × List ℕ)}
    {size : ℕ} {task : TieredCompactionTask} (h : sizeRatioLoop options taken size tiers = some task) :
    ∃ pre older, tiers = pre ++ older ∧ pre ≠ [] ∧ task = ⟨taken ++ pre, false⟩ := by
  induction tiers generalizing taken size with
  | nil => cases h
  | cons tier tiers ih =>
    cases tiers with
    | nil => cases h
    | cons next rest =>
      rw [sizeRatioLoop] at h
      split at h
      · exact ⟨[tier], next :: rest, rfl, by simp, (Option.some.inj h).symm⟩
      · obtain ⟨pre, older, heq, -, rfl⟩ := ih h
        refine ⟨tier :: pre, older, by rw [heq]; rfl, by simp, ?_⟩
        rw [List.append_assoc]
        rfl

/-- Neither the space amplification nor the size ratio asks for a compaction. -/
def ReducesRuns (options : TieredCompactionOptions) (levels : List (ℕ × List ℕ)) : Prop :=
  (∀ last, levels[levels.length - 1]? = some last → Platform.spaceAmpReached
    ((levels.take (levels.length - 1)).map fun tier => tier.2.length).sum last.2.length
      options.maxSizeAmplificationPercent = false) ∧
  sizeRatioLoop options [] 0 levels = none

/-- A task of the controller takes the newest tiers. -/
def Picked (levels : List (ℕ × List ℕ)) (task : TieredCompactionTask) (older : List (ℕ × List ℕ)) :
    Prop :=
  levels = task.tiers ++ older

/-- **What the tasks are.**  The third trigger claims to take the oldest tier whatever it takes. -/
theorem generateCompactionTask_spec {options : TieredCompactionOptions} {s : LsmStorageState M}
    {task : TieredCompactionTask} (h : generateCompactionTask options s = .ok (some task)) :
    s.l0Sstables = [] ∧ s.levels ≠ [] ∧ ∃ older, Picked s.levels task older ∧
      (¬ReducesRuns options s.levels ∧ task.bottomTierIncluded = true ∧ older = [] ∨
        ¬ReducesRuns options s.levels ∧ task.bottomTierIncluded = false ∧ task.tiers ≠ [] ∨
        ReducesRuns options s.levels ∧ task.bottomTierIncluded = true ∧
          task.tiers.length = min s.levels.length (options.maxMergeWidth.getD s.levels.length)) := by
  unfold generateCompactionTask at h
  split at h
  · cases h
  · rename_i hl0
    refine ⟨not_not.mp hl0, ?_⟩
    split at h
    · cases h
    · rw [Outcome.bind_eq_ok_iff] at h
      obtain ⟨upperTiers, hupper, h⟩ := h
      rw [Outcome.bind_eq_ok_iff] at h
      obtain ⟨last, hlast, h⟩ := h
      rw [index_eq_ok_iff] at hlast
      have hne : s.levels ≠ [] := by
        intro hnil
        rw [hnil] at hupper
        cases hupper
      have htiers : upperTiers = s.levels.length - 1 := by
        rw [usizeSub_of_le (List.length_pos_iff.mpr hne)] at hupper
        exact (Except.ok.inj hupper).symm
      subst htiers
      refine ⟨hne, ?_⟩
      split at h
      · -- Space amplification: all tiers.
        rename_i hamp
        cases h
        refine ⟨[], (List.append_nil _).symm, Or.inl ⟨fun hreduces => ?_, rfl, rfl⟩⟩
        rw [hreduces.1 last hlast] at hamp
        cases hamp
      · rename_i hamp
        split at h
        · -- Size ratio: some tier is left.
          rename_i task' hloop
          cases h
          obtain ⟨pre, older, heq, hpre, rfl⟩ := sizeRatioLoop_spec hloop
          refine ⟨older, heq, Or.inr (Or.inl ⟨fun hreduces => ?_, rfl, hpre⟩)⟩
          rw [hreduces.2] at hloop
          cases hloop
        · -- Reducing the number of sorted runs.
          rename_i hloop
          have hreduces : ReducesRuns options s.levels := by
            refine ⟨fun last' hlast' => ?_, hloop⟩
            rw [hlast] at hlast'
            cases hlast'
            exact Bool.eq_false_iff.mpr hamp
          cases hwidth : options.maxMergeWidth with
          | none =>
            rw [hwidth] at h
            cases h
            refine ⟨[], ?_, Or.inr (Or.inr ⟨hreduces, by simp, by simp⟩)⟩
            simp [Picked]
          | some width =>
            rw [hwidth] at h
            cases h
            exact ⟨s.levels.drop (min s.levels.length width), (List.take_append_drop _ _).symm,
              Or.inr (Or.inr ⟨hreduces, by simp, by simp⟩)⟩

end

/-! ## What applying a task changes -/

/-- The map has the tiers of the list. -/
def MapOf (m : AList fun _ : ℕ => List ℕ) (tiers : List (ℕ × List ℕ)) : Prop :=
  ∀ id files, m.lookup id = some files ↔ (id, files) ∈ tiers

theorem mapOf_foldl {tiers done : List (ℕ × List ℕ)} {m : AList fun _ : ℕ => List ℕ}
    (hm : MapOf m done) (hnodup : ((done ++ tiers).map Prod.fst).Nodup) :
    MapOf (tiers.foldl (fun m tier => m.insert tier.1 tier.2) m) (done ++ tiers) := by
  induction tiers generalizing done m with
  | nil => rwa [List.append_nil]
  | cons tier tiers ih =>
    rw [List.foldl_cons, ← List.singleton_append, ← List.append_assoc]
    rw [← List.singleton_append, ← List.append_assoc] at hnodup
    refine ih (fun id files => ?_) hnodup
    rw [List.map_append] at hnodup
    have hdone := (List.nodup_append.mp hnodup).1
    rw [List.map_append, List.map_singleton, List.nodup_append] at hdone
    by_cases hid : id = tier.1
    · subst hid
      rw [AList.lookup_insert, Option.some.injEq, List.mem_append, List.mem_singleton]
      constructor
      · rintro rfl
        exact Or.inr rfl
      · rintro (h | h)
        · exact absurd rfl (hdone.2.2 _ (List.mem_map_of_mem h) _ List.mem_cons_self)
        · rw [← h]
    · rw [AList.lookup_insert_ne hid, hm, List.mem_append, List.mem_singleton]
      refine (or_iff_left ?_).symm
      rintro rfl
      exact hid rfl

theorem mapOf_tierMap {tiers : List (ℕ × List ℕ)} (h : (tiers.map Prod.fst).Nodup) :
    MapOf (tierMap tiers) tiers :=
  show MapOf _ ([] ++ tiers) from mapOf_foldl (fun id files => by simp) h

theorem MapOf.entries_eq_nil_iff {m : AList fun _ : ℕ => List ℕ} {tiers : List (ℕ × List ℕ)}
    (h : MapOf m tiers) : m.entries = [] ↔ tiers = [] := by
  constructor
  · intro hm
    cases tiers with
    | nil => rfl
    | cons tier tiers =>
      have hlookup := (h tier.1 tier.2).mpr List.mem_cons_self
      rw [AList.lookup, hm] at hlookup
      cases hlookup
  · rintro rfl
    cases hm : m.entries with
    | nil => rfl
    | cons x xs =>
      have hmem : ⟨x.1, x.2⟩ ∈ m.entries := by
        rw [hm]
        exact List.mem_cons_self
      exact absurd ((h x.1 x.2).mp (AList.mem_lookup_iff.mpr hmem)) List.not_mem_nil

theorem MapOf.erase {m : AList fun _ : ℕ => List ℕ} {tier : ℕ × List ℕ} {tiers : List (ℕ × List ℕ)}
    (h : MapOf m (tier :: tiers)) (hnodup : ((tier :: tiers).map Prod.fst).Nodup) :
    MapOf (m.erase tier.1) tiers := by
  rw [List.map_cons, List.nodup_cons] at hnodup
  intro id files
  by_cases hid : id = tier.1
  · subst hid
    rw [AList.lookup_erase]
    refine iff_of_false (by simp) fun hmem => hnodup.1 (List.mem_map.mpr ⟨_, hmem, rfl⟩)
  · rw [AList.lookup_erase_ne hid, h, List.mem_cons]
    refine or_iff_right ?_
    rintro rfl
    exact hid rfl

/-- After the new tier the other ones stay. -/
theorem applyLoop_older {output : List ℕ} {m : AList fun _ : ℕ => List ℕ} (hm : MapOf m [])
    (older : List (ℕ × List ℕ)) : applyLoop output m true older = .ok (older, [], m) := by
  induction older with
  | nil => rfl
  | cons tier older ih =>
    have hlookup : m.lookup tier.1 = none := by
      rw [Option.eq_none_iff_forall_ne_some]
      intro files hfiles
      exact absurd ((hm _ _).mp hfiles) List.not_mem_nil
    simp [applyLoop, hlookup, bind, Except.bind, ih]
    rfl

/-- The tiers of the task make room for the new one. -/
theorem applyLoop_tiers (o : ℕ) (os : List ℕ) {m : AList fun _ : ℕ => List ℕ}
    {tiers : List (ℕ × List ℕ)} (hm : MapOf m tiers) (hne : tiers ≠ [])
    (hnodup : (tiers.map Prod.fst).Nodup) (older : List (ℕ × List ℕ)) :
    ∃ left, applyLoop (o :: os) m false (tiers ++ older) =
      .ok ((o, o :: os) :: older, (tiers.map Prod.snd).flatten, left) ∧ left.entries = [] := by
  induction tiers generalizing m with
  | nil => exact absurd rfl hne
  | cons tier tiers ih =>
    have hlookup : m.lookup tier.1 = some tier.2 := (hm _ _).mpr List.mem_cons_self
    have herase := hm.erase hnodup
    rw [List.map_cons, List.nodup_cons] at hnodup
    by_cases hlast : tiers = []
    · subst hlast
      refine ⟨m.erase tier.1, ?_, herase.entries_eq_nil_iff.mpr rfl⟩
      rw [List.cons_append, List.nil_append, applyLoop, hlookup]
      simp only [bind, Except.bind, if_pos]
      rw [if_pos ⟨herase.entries_eq_nil_iff.mpr rfl, trivial⟩, applyLoop_older herase]
      simp [index, pure, Except.pure]
    · obtain ⟨left, hloop, hleft⟩ := ih herase hlast hnodup.2
      refine ⟨left, ?_, hleft⟩
      rw [List.cons_append, applyLoop, hlookup]
      simp only [bind, Except.bind, if_pos]
      rw [if_neg fun h => hlast (herase.entries_eq_nil_iff.mp h.1), hloop]
      rfl

/-- Newer tiers stay. -/
theorem applyLoop_newer {output : List ℕ} {m : AList fun _ : ℕ => List ℕ}
    {tiers newer rest levels : List (ℕ × List ℕ)} {removed : List ℕ}
    {left : AList fun _ : ℕ => List ℕ} (hm : MapOf m tiers) (hne : tiers ≠ [])
    (hnew : ∀ tier ∈ newer, tier.1 ∉ tiers.map Prod.fst)
    (h : applyLoop output m false rest = .ok (levels, removed, left)) :
    applyLoop output m false (newer ++ rest) = .ok (newer ++ levels, removed, left) := by
  induction newer with
  | nil => exact h
  | cons tier newer ih =>
    obtain ⟨hnot, hrest⟩ := List.forall_mem_cons.mp hnew
    have hlookup : m.lookup tier.1 = none := by
      rw [Option.eq_none_iff_forall_ne_some]
      intro files hfiles
      exact hnot (List.mem_map.mpr ⟨_, (hm _ _).mp hfiles, rfl⟩)
    rw [List.cons_append, applyLoop, hlookup]
    simp only [bind, Except.bind]
    rw [if_neg fun h => hne (hm.entries_eq_nil_iff.mp h.1), ih hrest]
    rfl

/-- **What applying a task does**: the tiers of the task, behind newer ones, become one tier. -/
theorem applyCompactionResult_spec {s : LsmStorageState M} {task : TieredCompactionTask}
    {newer older : List (ℕ × List ℕ)} {o : ℕ} {os : List ℕ} (hl0 : s.l0Sstables = [])
    (hlevels : s.levels = newer ++ (task.tiers ++ older)) (hne : task.tiers ≠ [])
    (hnodup : ((newer ++ task.tiers).map Prod.fst).Nodup) :
    applyCompactionResult s task (o :: os) =
      .ok ({ s with levels := newer ++ (o, o :: os) :: older }, (task.tiers.map Prod.snd).flatten) := by
  rw [List.map_append, List.nodup_append] at hnodup
  obtain ⟨-, htiers, hdis⟩ := hnodup
  have hm := mapOf_tierMap htiers
  obtain ⟨left, hloop, hleft⟩ := applyLoop_tiers o os hm hne htiers older
  have hnewer := applyLoop_newer hm hne
    (fun tier (htier : tier ∈ newer) hmem => hdis tier.1 (List.mem_map_of_mem htier) tier.1 hmem rfl) hloop
  unfold applyCompactionResult
  rw [if_neg (not_not.mpr hl0), hlevels, hnewer]
  simp only [bind, Except.bind, hleft, if_pos]
  rfl

/-! ## What a call that returns has done -/

/-- The files of the last tier with the label. -/
def lastFiles (tiers : List (ℕ × List ℕ)) (id : ℕ) : Option (List ℕ) :=
  (tiers.filter fun tier => tier.1 = id).getLast?.map Prod.snd

theorem lookup_tierMap (tiers : List (ℕ × List ℕ)) (id : ℕ) :
    (tierMap tiers).lookup id = lastFiles tiers id := by
  induction tiers using List.reverseRecOn with
  | nil => rfl
  | append_singleton tiers tier ih =>
    have hinsert : tierMap (tiers ++ [tier]) = (tierMap tiers).insert tier.1 tier.2 :=
      List.foldl_concat ..
    rw [hinsert]
    unfold lastFiles at ih ⊢
    by_cases hid : id = tier.1
    · subst hid
      rw [AList.lookup_insert, List.filter_append, List.filter_cons_of_pos (by simp), List.filter_nil,
        List.getLast?_concat]
      rfl
    · rw [AList.lookup_insert_ne hid, ih, List.filter_append,
        List.filter_cons_of_neg (by simpa using Ne.symm hid), List.filter_nil, List.append_nil]

theorem lastFiles_cons_of_ne {tier : ℕ × List ℕ} {id : ℕ} (h : tier.1 ≠ id)
    (tiers : List (ℕ × List ℕ)) : lastFiles (tier :: tiers) id = lastFiles tiers id := by
  unfold lastFiles
  rw [List.filter_cons_of_neg (by simpa using h)]

theorem lastFiles_eq_none {tiers : List (ℕ × List ℕ)} {id : ℕ} (h : id ∉ tiers.map Prod.fst) :
    lastFiles tiers id = none := by
  unfold lastFiles
  rw [List.filter_eq_nil_iff.mpr, List.getLast?_nil, Option.map_none]
  intro tier htier heq
  exact h (List.mem_map.mpr ⟨tier, htier, by simpa using heq⟩)

theorem notMem_of_lastFiles {tiers : List (ℕ × List ℕ)} {id : ℕ} (h : lastFiles tiers id = none) :
    id ∉ tiers.map Prod.fst := by
  unfold lastFiles at h
  rw [Option.map_eq_none_iff, List.getLast?_eq_none_iff, List.filter_eq_nil_iff] at h
  intro hmem
  obtain ⟨tier, htier, rfl⟩ := List.mem_map.mp hmem
  exact h tier htier (by simp)

/-- Of two tiers with the same label the later one counts. -/
theorem lastFiles_cons_of_mem {tier : ℕ × List ℕ} {tiers : List (ℕ × List ℕ)}
    (h : tier.1 ∈ tiers.map Prod.fst) :
    ∃ other ∈ tiers, lastFiles (tier :: tiers) tier.1 = some other.2 := by
  obtain ⟨other, hother, heq⟩ := List.mem_map.mp h
  have hne : (tiers.filter fun t => t.1 = tier.1) ≠ [] :=
    List.ne_nil_of_mem (List.mem_filter.mpr ⟨hother, by simpa using heq⟩)
  refine ⟨(tiers.filter fun t => t.1 = tier.1).getLast hne,
    List.mem_of_mem_filter (List.getLast_mem hne), ?_⟩
  unfold lastFiles
  rw [List.filter_cons_of_pos (by simp), List.getLast?_cons_of_ne_nil hne, List.getLast?_eq_getLast_of_ne_nil hne]
  rfl

/-- What the loop does with one tier: what it keeps, which files it removes and the map that is left. -/
inductive Passes (m : AList fun _ : ℕ => List ℕ) (tier : ℕ × List ℕ) :
    List (ℕ × List ℕ) → List ℕ → (AList fun _ : ℕ => List ℕ) → Prop
  | remove (h : m.lookup tier.1 = some tier.2) : Passes m tier [] tier.2 (m.erase tier.1)
  | keep (h : m.lookup tier.1 = none) : Passes m tier [tier] [] m

/-- **One turn of the loop.** The new tier comes when the map is empty for the first time. -/
theorem applyLoop_cons {output : List ℕ} {m left : AList fun _ : ℕ => List ℕ} {newTierAdded : Bool}
    {tier : ℕ × List ℕ} {tiers levels : List (ℕ × List ℕ)} {removed : List ℕ}
    (h : applyLoop output m newTierAdded (tier :: tiers) = .ok (levels, removed, left)) :
    ∃ kept removed₁ m₁, Passes m tier kept removed₁ m₁ ∧ ∃ levels₁ more,
      removed = removed₁ ++ more ∧
        ((m₁.entries = [] ∧ newTierAdded = false ∧ levels = kept ++ (output.headD 0, output) :: levels₁ ∧
            output ≠ [] ∧ applyLoop output m₁ true tiers = .ok (levels₁, more, left)) ∨
          ¬ (m₁.entries = [] ∧ newTierAdded = false) ∧ levels = kept ++ levels₁ ∧
            applyLoop output m₁ newTierAdded tiers = .ok (levels₁, more, left)) := by
  have hpass : ∃ kept removed₁ m₁, Passes m tier kept removed₁ m₁ ∧
      (if m₁.entries = [] ∧ newTierAdded = false then index output 0 >>= fun newTier =>
        applyLoop output m₁ true tiers >>= fun r =>
          .ok (kept ++ (newTier, output) :: r.1, removed₁ ++ r.2.1, r.2.2)
      else applyLoop output m₁ newTierAdded tiers >>= fun r =>
        .ok (kept ++ r.1, removed₁ ++ r.2.1, r.2.2)) = .ok (levels, removed, left) := by
    rw [applyLoop] at h
    cases hlookup : m.lookup tier.1 with
    | none =>
      rw [hlookup] at h
      exact ⟨[tier], [], m, .keep hlookup, h⟩
    | some files =>
      rw [hlookup] at h
      simp only at h
      split at h
      · rename_i hfiles
        rw [hfiles] at hlookup h
        exact ⟨[], tier.2, m.erase tier.1, .remove hlookup, h⟩
      · cases h
  obtain ⟨kept, removed₁, m₁, hpass, h⟩ := hpass
  refine ⟨kept, removed₁, m₁, hpass, ?_⟩
  split at h
  · rename_i hadd
    obtain ⟨newTier, hnew, h⟩ := Outcome.bind_eq_ok_iff.mp h
    obtain ⟨⟨levels₁, more, left₁⟩, hloop, h⟩ := Outcome.bind_eq_ok_iff.mp h
    cases h
    cases output with
    | nil => cases hnew
    | cons o os =>
      cases hnew
      exact ⟨levels₁, more, rfl, Or.inl ⟨hadd.1, hadd.2, rfl, List.cons_ne_nil _ _, hloop⟩⟩
  · rename_i hadd
    obtain ⟨⟨levels₁, more, left₁⟩, hloop, h⟩ := Outcome.bind_eq_ok_iff.mp h
    cases h
    exact ⟨levels₁, more, rfl, Or.inr ⟨hadd, rfl, hloop⟩⟩

/-- The tiers that the loop takes out have distinct labels: at the first of two the files differ from
those in the map. -/
theorem nodup_of_applyLoop {output : List ℕ} {m : AList fun _ : ℕ => List ℕ} {newTierAdded : Bool}
    {tiers older : List (ℕ × List ℕ)} {r : List (ℕ × List ℕ) × List ℕ × (AList fun _ : ℕ => List ℕ)}
    (hm : ∀ id, m.lookup id = lastFiles tiers id) (hfiles : tiers.Pairwise fun a b => a.2 ≠ b.2)
    (h : applyLoop output m newTierAdded (tiers ++ older) = .ok r) : (tiers.map Prod.fst).Nodup := by
  induction tiers generalizing m newTierAdded r with
  | nil => exact List.nodup_nil
  | cons tier tiers ih =>
    obtain ⟨hne, hrest⟩ := List.pairwise_cons.mp hfiles
    rw [List.cons_append] at h
    obtain ⟨kept, removed₁, m₁, hpass, levels₁, more, -, hcase⟩ := applyLoop_cons h
    have hsome : m.lookup tier.1 ≠ none := by
      rw [hm]
      unfold lastFiles
      rw [List.filter_cons_of_pos (by simp), List.getLast?_cons]
      simp
    cases hpass with
    | keep hlookup => exact absurd hlookup hsome
    | remove hlookup =>
      have hnew : tier.1 ∉ tiers.map Prod.fst := by
        intro hmem
        obtain ⟨other, hother, heq⟩ := lastFiles_cons_of_mem hmem
        rw [hm, heq] at hlookup
        exact hne other hother (Option.some.inj hlookup).symm
      have herase : ∀ id, (m.erase tier.1).lookup id = lastFiles tiers id := by
        intro id
        by_cases hid : id = tier.1
        · subst hid
          rw [AList.lookup_erase, lastFiles_eq_none hnew]
        · rw [AList.lookup_erase_ne hid, hm id, lastFiles_cons_of_ne (Ne.symm hid)]
      rw [List.map_cons, List.nodup_cons]
      refine ⟨hnew, ?_⟩
      rcases hcase with ⟨-, -, -, -, hloop⟩ | ⟨-, -, hloop⟩
      · exact ih herase hrest hloop
      · exact ih herase hrest hloop

/-- Without output there is no new tier to put in, so the loop fails as soon as its map is empty. -/
theorem eq_nil_of_applyLoop {m left : AList fun _ : ℕ => List ℕ} {tiers levels : List (ℕ × List ℕ)}
    {removed : List ℕ} (h : applyLoop [] m false tiers = .ok (levels, removed, left))
    (hleft : left.entries = []) : tiers = [] := by
  induction tiers generalizing m levels removed with
  | nil => rfl
  | cons tier tiers ih =>
    obtain ⟨kept, removed₁, m₁, -, levels₁, more, -, hcase⟩ := applyLoop_cons h
    rcases hcase with ⟨-, -, -, hne, -⟩ | ⟨hopen, -, hloop⟩
    · exact absurd rfl hne
    · obtain rfl := ih hloop
      cases hloop
      exact absurd ⟨hleft, rfl⟩ hopen

/-- A newer tier has none of the labels that the loop takes out: its files would differ from those in
the map. -/
theorem applyLoop_of_newer {output : List ℕ} {m : AList fun _ : ℕ => List ℕ}
    {tiers newer rest : List (ℕ × List ℕ)}
    {r : List (ℕ × List ℕ) × List ℕ × (AList fun _ : ℕ => List ℕ)}
    (hm : ∀ id, m.lookup id = lastFiles tiers id) (hne : tiers ≠ [])
    (hfiles : ∀ a ∈ newer, ∀ b ∈ tiers, a.2 ≠ b.2)
    (h : applyLoop output m false (newer ++ rest) = .ok r) :
    (∀ tier ∈ newer, tier.1 ∉ tiers.map Prod.fst) ∧
      ∃ r', applyLoop output m false rest = .ok r' := by
  induction newer generalizing r with
  | nil => exact ⟨fun _ htier => absurd htier List.not_mem_nil, r, h⟩
  | cons tier newer ih =>
    obtain ⟨htier, hrest⟩ := List.forall_mem_cons.mp hfiles
    rw [List.cons_append] at h
    obtain ⟨kept, removed₁, m₁, hpass, levels₁, more, -, hcase⟩ := applyLoop_cons h
    cases hpass with
    | remove hlookup =>
      rw [hm] at hlookup
      obtain ⟨other, hother, heq⟩ := Option.map_eq_some_iff.mp hlookup
      exact absurd heq.symm (htier other (List.mem_of_mem_filter (List.mem_of_getLast? hother)))
    | keep hlookup =>
      have hnot := notMem_of_lastFiles ((hm tier.1).symm.trans hlookup)
      rcases hcase with ⟨hempty, -⟩ | ⟨-, -, hloop⟩
      · -- The map is not empty as long as there are tiers to take out.
        obtain ⟨other, others, rfl⟩ := List.exists_cons_of_ne_nil hne
        have hnone : m.lookup other.1 = none := by
          rw [AList.lookup, hempty]
          rfl
        exact absurd List.mem_cons_self (notMem_of_lastFiles ((hm other.1).symm.trans hnone))
      · obtain ⟨hlabels, hok⟩ := ih hrest hloop
        exact ⟨List.forall_mem_cons.mpr ⟨hnot, hlabels⟩, hok⟩

/-- **What a call that returned has done**, whatever the labels are: the tiers of the task, which stand
behind newer ones, have become one tier. -/
theorem applyCompactionResult_ok {s s' : LsmStorageState M} {task : TieredCompactionTask}
    {output removed : List ℕ} {newer older : List (ℕ × List ℕ)}
    (h : applyCompactionResult s task output = .ok (s', removed))
    (hlevels : s.levels = newer ++ (task.tiers ++ older)) (hne : s.levels ≠ [])
    (hlabels : (newer.map Prod.fst).Nodup)
    (hfiles : s.levels.Pairwise fun a b => a.2 ≠ b.2) (htiers : task.tiers = [] → output = []) :
    ∃ o os, output = o :: os ∧ task.tiers ≠ [] ∧ s.l0Sstables = [] ∧
      s' = { s with levels := newer ++ (o, o :: os) :: older } ∧
      removed = (task.tiers.map Prod.snd).flatten := by
  have hok := h
  unfold applyCompactionResult at hok
  split at hok
  · cases hok
  · rename_i hl0
    obtain ⟨⟨levels, removed', left⟩, hloop, hok⟩ := Outcome.bind_eq_ok_iff.mp hok
    simp only at hok
    split at hok
    · rename_i hleft
      cases output with
      | nil => exact absurd (eq_nil_of_applyLoop hloop hleft) hne
      | cons o os =>
        have htask : task.tiers ≠ [] := fun hnil => nomatch htiers hnil
        rw [hlevels] at hloop hfiles
        obtain ⟨-, hfiles, hapart⟩ := List.pairwise_append.mp hfiles
        obtain ⟨hnewer, r', hloop'⟩ := applyLoop_of_newer (lookup_tierMap task.tiers) htask
          (fun a ha b hb => hapart a ha b (List.mem_append_left _ hb)) hloop
        have hnodup := nodup_of_applyLoop (lookup_tierMap task.tiers)
          (List.pairwise_append.mp hfiles).1 hloop'
        have hall : ((newer ++ task.tiers).map Prod.fst).Nodup := by
          rw [List.map_append, List.nodup_append]
          refine ⟨hlabels, hnodup, fun a ha b hb heq => ?_⟩
          obtain ⟨tier, htier, rfl⟩ := List.mem_map.mp ha
          exact hnewer tier htier (heq ▸ hb)
        have hspec : applyCompactionResult s task (o :: os) =
            .ok ({ s with levels := newer ++ (o, o :: os) :: older },
              (task.tiers.map Prod.snd).flatten) :=
          applyCompactionResult_spec (not_not.mp hl0) hlevels htask hall
        rw [h] at hspec
        obtain ⟨rfl, rfl⟩ := Prod.mk.inj (Except.ok.inj hspec)
        exact ⟨o, os, rfl, htask, not_not.mp hl0, rfl, rfl⟩
    · cases hok

/-- The controller changes the levels only. -/
theorem applyCompactionResult_frame {s s' : LsmStorageState M} {task : TieredCompactionTask}
    {output removed : List ℕ} (h : applyCompactionResult s task output = .ok (s', removed)) :
    s' = { s with levels := s'.levels } := by
  unfold applyCompactionResult at h
  split at h
  · cases h
  · rw [Outcome.bind_eq_ok_iff] at h
    obtain ⟨⟨levels, removed', left⟩, -, h⟩ := h
    simp only at h
    split at h
    · cases h
      rfl
    · cases h

/-- The memtables play no part. -/
theorem applyCompactionResult_congr {s s' t : LsmStorageState M} {task : TieredCompactionTask}
    {output removed : List ℕ} (h : applyCompactionResult s task output = .ok (s', removed))
    (hl0 : t.l0Sstables = s.l0Sstables) (hlevels : t.levels = s.levels) :
    applyCompactionResult t task output = .ok ({ t with levels := s'.levels }, removed) := by
  unfold applyCompactionResult at h ⊢
  rw [hl0, hlevels]
  split at h
  · cases h
  · rename_i hnil
    rw [if_neg hnil]
    rw [Outcome.bind_eq_ok_iff] at h ⊢
    obtain ⟨⟨levels, removed', left⟩, hloop, h⟩ := h
    refine ⟨_, hloop, ?_⟩
    simp only at h ⊢
    split at h
    · rename_i hleft
      cases h
      rw [if_pos hleft]
      rfl
    · cases h

end TieredCompactionController

end TinyLsm

import TinyLsm.Iterators.Follows
import TinyLsm.Iterators.MergeIterator
import TinyLsm.Iterators.TwoMergeIterator

/-!
# What the skip loop of the k-way merge does, whatever its children do

`Skips k heap r` follows the loop of `MergeIterator::next` turn by turn and has no bound.  For
children whose entries increase every turn takes one child off the key `k` for good, so the loop
ends, and it ends within the bound it is given: `skips_skipLoop`.

`Skips.follows` is the simulation: a merge over children that follow other children follows the
merge over those.
-/

namespace TinyLsm

open StorageIterator

section

variable {I J : Type} [StorageIterator I Key] [StorageIterator J Key]

/-- A child that may stand in the heap: it shows an entry, and its entries increase. -/
def HeapWrapper.Stands (w : HeapWrapper I) : Prop := isValid w.iter = true ∧ Ordered w.iter

namespace MergeIterator

/-- The turns of the loop: pop a child, and advance it when it stands at `k`. -/
inductive Skips (k : Key) : List (HeapWrapper I) → Stepped (MergeIterator I) → Prop where
  | empty : Skips k [] (.ok (), ⟨[], none⟩)
  | stop {ws rest : List (HeapWrapper I)} {w : HeapWrapper I} (hpop : heapPop ws = some (w, rest))
      (hkey : key w.iter ≠ k) : Skips k ws (.ok (), ⟨rest, some w⟩)
  | fail {ws rest : List (HeapWrapper I)} {w : HeapWrapper I} (hpop : heapPop ws = some (w, rest))
      (hkey : key w.iter = k) {e : Fault} (hnext : (StorageIterator.next w.iter).1 = .error e) :
      Skips k ws (.error e, ⟨rest, none⟩)
  | push {ws rest : List (HeapWrapper I)} {w : HeapWrapper I} (hpop : heapPop ws = some (w, rest))
      (hkey : key w.iter = k) {it : I} (hnext : StorageIterator.next w.iter = (.ok (), it))
      (hvalid : isValid it = true) {r : Stepped (MergeIterator I)}
      (htail : Skips k (⟨w.index, it⟩ :: rest) r) : Skips k ws r
  | drop {ws rest : List (HeapWrapper I)} {w : HeapWrapper I} (hpop : heapPop ws = some (w, rest))
      (hkey : key w.iter = k) {it : I} (hnext : StorageIterator.next w.iter = (.ok (), it))
      (hvalid : isValid it = false) {r : Stepped (MergeIterator I)} (htail : Skips k rest r) :
      Skips k ws r

/-- The children that stand at `k`: each of them takes one turn. -/
def standing (k : Key) (ws : List (HeapWrapper I)) : ℕ := (ws.filter fun w => key w.iter = k).length

theorem standing_perm {k : Key} {ws ws' : List (HeapWrapper I)} (h : ws.Perm ws') :
    standing k ws = standing k ws' := (h.filter _).length_eq

theorem standing_cons_of_ne {k : Key} {w : HeapWrapper I} (h : key w.iter ≠ k)
    (ws : List (HeapWrapper I)) : standing k (w :: ws) = standing k ws := by
  unfold standing
  rw [List.filter_cons_of_neg (by simpa using h)]

theorem standing_cons_of_eq {k : Key} {w : HeapWrapper I} (h : key w.iter = k)
    (ws : List (HeapWrapper I)) : standing k (w :: ws) = standing k ws + 1 := by
  unfold standing
  rw [List.filter_cons_of_pos (by simpa using h), List.length_cons]

theorem standing_le_heapBound (k : Key) (ws : List (HeapWrapper I)) : standing k ws ≤ heapBound ws := by
  calc standing k ws ≤ ws.length := List.length_filter_le _ _
    _ ≤ heapBound ws := by
        unfold heapBound
        induction ws with
        | nil => exact le_rfl
        | cons w ws ih =>
          rw [List.map_cons, List.sum_cons, List.length_cons]
          omega

/-- A child that stands at `k` and is advanced without failing: it leaves `k`, and the others stand
as before. -/
theorem stands_of_push {k : Key} {ws rest : List (HeapWrapper I)} {w : HeapWrapper I}
    (hws : ∀ x ∈ ws, x.Stands) (hpop : heapPop ws = some (w, rest)) (hkey : key w.iter = k) {it : I}
    (hnext : StorageIterator.next w.iter = (.ok (), it)) :
    (∀ x ∈ rest, x.Stands) ∧ standing k ws = standing k rest + 1 ∧
      (isValid it = true → (∀ x ∈ (⟨w.index, it⟩ : HeapWrapper I) :: rest, x.Stands) ∧
        standing k ((⟨w.index, it⟩ : HeapWrapper I) :: rest) = standing k rest) := by
  obtain ⟨hperm, -⟩ := heapPop_spec hpop
  obtain ⟨hvalid, hord⟩ := hws w (hperm.mem_iff.mpr List.mem_cons_self)
  have hrest : ∀ x ∈ rest, x.Stands := fun x hx =>
    hws x (hperm.mem_iff.mpr (List.mem_cons_of_mem _ hx))
  obtain ⟨hord', hlt⟩ := hord.next hvalid hnext
  refine ⟨hrest, by rw [standing_perm hperm, standing_cons_of_eq hkey], fun hvalid' => ⟨?_, ?_⟩⟩
  · intro x hx
    rcases List.mem_cons.mp hx with rfl | hx
    · exact ⟨hvalid', hord'⟩
    · exact hrest x hx
  · have hne : key it ≠ k := (hkey ▸ hlt hvalid').ne'
    exact standing_cons_of_ne (w := ⟨w.index, it⟩) hne rest

/-- **The loop ends within its bound.**  A child that leaves the key `k` does not come back to it. -/
theorem skips_skipLoop {k : Key} (n : ℕ) {ws : List (HeapWrapper I)} (hws : ∀ w ∈ ws, w.Stands)
    (hn : standing k ws ≤ n) : Skips k ws (skipLoop k n ws) := by
  induction n generalizing ws with
  | zero =>
    cases hpop : heapPop ws with
    | none =>
      rw [heapPop_eq_none_iff] at hpop
      subst hpop
      exact .empty
    | some p =>
      obtain ⟨w, rest⟩ := p
      obtain ⟨hperm, -⟩ := heapPop_spec hpop
      have hkey : key w.iter ≠ k := by
        intro hkey
        rw [standing_perm hperm, standing_cons_of_eq hkey] at hn
        omega
      have hvalid := (hws w (hperm.mem_iff.mpr List.mem_cons_self)).1
      rw [skipLoop, hpop]
      simp only [hkey, hvalid, ne_eq, not_false_eq_true, and_self, if_true]
      exact .stop hpop hkey
  | succ n ih =>
    rw [skipLoop]
    cases hpop : heapPop ws with
    | none =>
      rw [heapPop_eq_none_iff] at hpop
      subst hpop
      exact .empty
    | some p =>
      obtain ⟨w, rest⟩ := p
      by_cases hkey : key w.iter = k
      · simp only [if_pos hkey]
        rcases hnext : StorageIterator.next w.iter with ⟨r, it⟩
        cases r with
        | error e => exact .fail hpop hkey (by rw [hnext])
        | ok _ =>
          obtain ⟨hrest, hcount, hpush⟩ := stands_of_push hws hpop hkey hnext
          by_cases hvalid' : isValid it = true
          · obtain ⟨hpushed, hcount'⟩ := hpush hvalid'
            simp only [if_pos hvalid']
            exact .push hpop hkey hnext hvalid' (ih hpushed (by omega))
          · simp only [if_neg hvalid']
            exact .drop hpop hkey hnext (by simpa using hvalid') (ih hrest (by omega))
      · have hvalid := (hws w ((heapPop_spec hpop).1.mem_iff.mpr List.mem_cons_self)).1
        simp only [if_neg hkey, hvalid, if_true]
        exact .stop hpop hkey

/-- Within its bound the loop does what its turns do. -/
theorem Skips.skipLoop_eq {k : Key} {ws : List (HeapWrapper I)} {r : Stepped (MergeIterator I)}
    (h : Skips k ws r) (hws : ∀ w ∈ ws, w.Stands) {n : ℕ} (hn : standing k ws ≤ n) :
    skipLoop k n ws = r := by
  induction h generalizing n with
  | empty => cases n <;> rfl
  | @stop ws rest w hpop hkey =>
    have hvalid := (hws w ((heapPop_spec hpop).1.mem_iff.mpr List.mem_cons_self)).1
    cases n <;> rw [skipLoop, hpop] <;> simp [hkey, hvalid]
  | @fail ws rest w hpop hkey e hnext =>
    rw [standing_perm (heapPop_spec hpop).1, standing_cons_of_eq hkey] at hn
    obtain ⟨n, rfl⟩ := Nat.exists_eq_add_of_le' (Nat.le_of_add_left_le hn)
    rw [skipLoop, hpop]
    simp only [if_pos hkey]
    rw [show StorageIterator.next w.iter = (.error e, (StorageIterator.next w.iter).2) from
      Prod.ext hnext rfl]
  | push hpop hkey hnext hvalid _ ih =>
    obtain ⟨-, hcount, hpush⟩ := stands_of_push hws hpop hkey hnext
    obtain ⟨hpushed, hcount'⟩ := hpush hvalid
    obtain ⟨n, rfl⟩ : ∃ m, n = m + 1 := ⟨n - 1, by omega⟩
    rw [skipLoop, hpop]
    simp only [if_pos hkey, hnext, if_pos hvalid]
    exact ih hpushed (by omega)
  | drop hpop hkey hnext hvalid _ ih =>
    obtain ⟨hrest, hcount, -⟩ := stands_of_push hws hpop hkey hnext
    obtain ⟨n, rfl⟩ : ∃ m, n = m + 1 := ⟨n - 1, by omega⟩
    rw [skipLoop, hpop]
    simp only [if_pos hkey, hnext, hvalid, if_neg Bool.false_ne_true]
    exact ih hrest (by omega)

/-- The children that the merge holds. -/
def held (m : MergeIterator I) : List (HeapWrapper I) := m.current.toList ++ m.iters

/-- Every child that the merge holds may stand in its heap. -/
def Stands (m : MergeIterator I) : Prop := ∀ w ∈ m.held, w.Stands

theorem Skips.stands {k : Key} {ws : List (HeapWrapper I)} {r : Stepped (MergeIterator I)}
    (h : Skips k ws r) (hws : ∀ w ∈ ws, w.Stands) : r.2.Stands := by
  induction h with
  | empty =>
    intro w hw
    cases hw
  | stop hpop _ =>
    intro x hx
    exact hws x ((heapPop_spec hpop).1.mem_iff.mpr hx)
  | fail hpop _ _ =>
    intro x hx
    exact hws x ((heapPop_spec hpop).1.mem_iff.mpr (List.mem_cons_of_mem _ hx))
  | push hpop hkey hnext hvalid _ ih => exact ih ((stands_of_push hws hpop hkey hnext).2.2 hvalid).1
  | drop hpop hkey hnext _ _ ih => exact ih (stands_of_push hws hpop hkey hnext).1

/-- What one call of `next` does: advance the current child, then skip. -/
inductive Moves (m : MergeIterator I) : Stepped (MergeIterator I) → Prop where
  | idle (hcurrent : m.current = none) {r : Stepped (MergeIterator I)}
      (hskips : Skips Key.new m.iters r) : Moves m r
  | fail {w : HeapWrapper I} (hcurrent : m.current = some w) {e : Fault}
      (hnext : (StorageIterator.next w.iter).1 = .error e) : Moves m (.error e, ⟨m.iters, none⟩)
  | advance {w : HeapWrapper I} (hcurrent : m.current = some w) {it : I}
      (hnext : StorageIterator.next w.iter = (.ok (), it)) {r : Stepped (MergeIterator I)}
      (hskips : Skips (key w.iter) (if isValid it then ⟨w.index, it⟩ :: m.iters else m.iters) r) :
      Moves m r

theorem stands_of_advance {m : MergeIterator I} (hm : m.Stands) {w : HeapWrapper I}
    (hcurrent : m.current = some w) {it : I} (hnext : StorageIterator.next w.iter = (.ok (), it)) :
    ∀ x ∈ if isValid it then ⟨w.index, it⟩ :: m.iters else m.iters, x.Stands := by
  have hrest : ∀ x ∈ m.iters, x.Stands := fun x hx => hm x (List.mem_append_right _ hx)
  obtain ⟨hvalid, hord⟩ := hm w (List.mem_append_left _ (by rw [hcurrent]; exact List.mem_cons_self))
  split
  · rename_i hvalid'
    intro x hx
    rcases List.mem_cons.mp hx with rfl | hx
    · exact ⟨hvalid', (hord.next hvalid hnext).1⟩
    · exact hrest x hx
  · exact hrest

theorem Moves.stands {m : MergeIterator I} {r : Stepped (MergeIterator I)} (h : Moves m r)
    (hm : m.Stands) : r.2.Stands := by
  have hrest : ∀ x ∈ m.iters, x.Stands := fun x hx => hm x (List.mem_append_right _ hx)
  cases h with
  | idle _ hskips => exact hskips.stands hrest
  | fail _ _ => exact hrest
  | advance hcurrent hnext hskips => exact hskips.stands (stands_of_advance hm hcurrent hnext)

theorem moves_next {m : MergeIterator I} (hm : m.Stands) : Moves m (next m) := by
  obtain ⟨iters, current⟩ := m
  cases current with
  | none => exact .idle rfl (skips_skipLoop _ hm (standing_le_heapBound _ _))
  | some w =>
    rcases hnext : StorageIterator.next w.iter with ⟨r, it⟩
    rw [next]
    simp only [hnext]
    cases r with
    | error e => exact .fail rfl (by rw [hnext])
    | ok _ =>
      exact .advance rfl hnext
        (skips_skipLoop _ (stands_of_advance hm rfl hnext) (standing_le_heapBound _ _))

theorem Moves.next_eq {m : MergeIterator I} {r : Stepped (MergeIterator I)} (h : Moves m r)
    (hm : m.Stands) : next m = r := by
  obtain ⟨iters, current⟩ := m
  cases h with
  | idle hcurrent hskips =>
    cases hcurrent
    exact hskips.skipLoop_eq hm (standing_le_heapBound _ _)
  | @fail w hcurrent e hnext =>
    cases hcurrent
    rw [next]
    simp only
    rw [show StorageIterator.next w.iter = (.error e, (StorageIterator.next w.iter).2) from
      Prod.ext hnext rfl]
  | advance hcurrent hnext hskips =>
    cases hcurrent
    rw [next]
    simp only [hnext]
    exact hskips.skipLoop_eq (stands_of_advance hm rfl hnext) (standing_le_heapBound _ _)

theorem next_stands {m : MergeIterator I} (hm : m.Stands) : (StorageIterator.next m).2.Stands :=
  (moves_next hm).stands hm

theorem create_stands {iters : List I} (h : ∀ it ∈ iters, Ordered it) : (create iters).Stands := by
  have hheap : ∀ w ∈ (iters.zipIdx.filter fun p => isValid p.1).map
      (fun p => (⟨p.2, p.1⟩ : HeapWrapper I)), w.Stands := by
    intro w hw
    obtain ⟨⟨it, i⟩, hp, rfl⟩ := List.mem_map.mp hw
    obtain ⟨hz, hv⟩ := List.mem_filter.mp hp
    obtain ⟨hi, heq⟩ := List.mem_zipIdx' hz
    exact ⟨hv, h it (by rw [heq]; exact List.getElem_mem hi)⟩
  rw [create]
  split
  · intro w hw
    cases hw
  · rename_i w rest hpop
    intro x hx
    exact hheap x ((heapPop_spec hpop).1.mem_iff.mpr hx)

/-! ## Merges over children that follow each other -/

variable {R : I → J → Prop}

/-- The same position, and a child that follows. -/
structure HeldLike (R : I → J → Prop) (w : HeapWrapper I) (w' : HeapWrapper J) : Prop where
  index : w.index = w'.index
  valid : isValid w.iter = true
  rel : R w.iter w'.iter

/-- Both heaps and both current children, one by one. -/
structure Like (R : I → J → Prop) (m : MergeIterator I) (m' : MergeIterator J) : Prop where
  current : Option.Rel (HeldLike R) m.current m'.current
  iters : List.Forall₂ (HeldLike R) m.iters m'.iters

theorem HeldLike.cmp_eq (hR : Follows R) {w x : HeapWrapper I} {w' x' : HeapWrapper J}
    (hw : HeldLike R w w') (hx : HeldLike R x x') : w.cmp x = w'.cmp x' := by
  unfold HeapWrapper.cmp
  rw [hR.key hw.rel hw.valid, hR.key hx.rel hx.valid, hw.index, hx.index]

/-- The heaps are popped alike: `pop` looks at the keys and the positions only. -/
theorem heapPop_like (hR : Follows R) {ws : List (HeapWrapper I)} {ws' : List (HeapWrapper J)}
    (h : List.Forall₂ (HeldLike R) ws ws') :
    Option.Rel (fun p p' => HeldLike R p.1 p'.1 ∧ List.Forall₂ (HeldLike R) p.2 p'.2)
      (heapPop ws) (heapPop ws') := by
  induction h with
  | nil => exact .none
  | @cons w w' ws ws' hw hws ih =>
    rw [heapPop, heapPop]
    cases hpop : heapPop ws with
    | none =>
      rw [hpop] at ih
      cases hpop' : heapPop ws' with
      | some _ =>
        rw [hpop'] at ih
        cases ih
      | none => exact .some ⟨hw, .nil⟩
    | some p =>
      rw [hpop] at ih
      cases hpop' : heapPop ws' with
      | none =>
        rw [hpop'] at ih
        cases ih
      | some p' =>
        rw [hpop'] at ih
        obtain ⟨m, rest⟩ := p
        obtain ⟨m', rest'⟩ := p'
        cases ih with
        | some hp =>
          simp only [← hw.cmp_eq hR hp.1]
          split
          · exact .some ⟨hp.1, .cons hw hp.2⟩
          · exact .some ⟨hw, .cons hp.1 hp.2⟩

theorem heapPop_like_some (hR : Follows R) {ws rest : List (HeapWrapper I)} {w : HeapWrapper I}
    {ws' : List (HeapWrapper J)} (h : List.Forall₂ (HeldLike R) ws ws')
    (hpop : heapPop ws = some (w, rest)) :
    ∃ w' rest', heapPop ws' = some (w', rest') ∧ HeldLike R w w' ∧
      List.Forall₂ (HeldLike R) rest rest' := by
  have hlike := heapPop_like hR h
  rw [hpop] at hlike
  generalize heapPop ws' = o at hlike
  cases hlike with
  | @some _ p' hp => exact ⟨p'.1, p'.2, rfl, hp⟩

/-- **The loop follows.**  While no child fails the turns are the same; when one fails, so they are
if the children fail alike. -/
theorem Skips.follows (hR : Follows R) {k : Key} {ws : List (HeapWrapper I)}
    {r : Stepped (MergeIterator I)} (h : Skips k ws r) {ws' : List (HeapWrapper J)}
    (hws : List.Forall₂ (HeldLike R) ws ws') (hr : r.1 = .ok () ∨ Alike R) :
    ∃ m', Skips k ws' (r.1, m') ∧ Like R r.2 m' := by
  induction h generalizing ws' with
  | empty =>
    cases hws
    exact ⟨⟨[], none⟩, .empty, .none, .nil⟩
  | stop hpop hkey =>
    obtain ⟨w', rest', hpop', hw, hrest⟩ := heapPop_like_some hR hws hpop
    rw [hR.key hw.rel hw.valid] at hkey
    exact ⟨⟨rest', some w'⟩, .stop hpop' hkey, .some hw, hrest⟩
  | @fail ws rest w hpop hkey e hnext =>
    obtain ⟨w', rest', hpop', hw, hrest⟩ := heapPop_like_some hR hws hpop
    rcases hr with hr | hr
    · cases hr
    rw [hR.key hw.rel hw.valid] at hkey
    exact ⟨⟨rest', none⟩, .fail hpop' hkey (hr.error hw.rel hw.valid hnext), .none, hrest⟩
  | @push ws rest w hpop hkey it hnext hvalid r _ ih =>
    obtain ⟨w', rest', hpop', hw, hrest⟩ := heapPop_like_some hR hws hpop
    rw [hR.key hw.rel hw.valid] at hkey
    obtain ⟨it', hnext', hrel⟩ := hR.next hw.rel hw.valid hnext
    have hpushed : HeldLike R ⟨w.index, it⟩ ⟨w'.index, it'⟩ := ⟨hw.index, hvalid, hrel⟩
    obtain ⟨m', hm', hlike⟩ := ih (.cons hpushed hrest) hr
    rw [hR.isValid hrel] at hvalid
    exact ⟨m', .push hpop' hkey hnext' hvalid hm', hlike⟩
  | drop hpop hkey hnext hvalid _ ih =>
    obtain ⟨w', rest', hpop', hw, hrest⟩ := heapPop_like_some hR hws hpop
    rw [hR.key hw.rel hw.valid] at hkey
    obtain ⟨it', hnext', hrel⟩ := hR.next hw.rel hw.valid hnext
    obtain ⟨m', hm', hlike⟩ := ih hrest hr
    rw [hR.isValid hrel] at hvalid
    exact ⟨m', .drop hpop' hkey hnext' hvalid hm', hlike⟩

theorem Moves.follows (hR : Follows R) {m : MergeIterator I} {m₀ : MergeIterator J}
    {r : Stepped (MergeIterator I)} (h : Moves m r) (hm : Like R m m₀) (hr : r.1 = .ok () ∨ Alike R) :
    ∃ m', Moves m₀ (r.1, m') ∧ Like R r.2 m' := by
  obtain ⟨iters, current⟩ := m
  obtain ⟨iters₀, current₀⟩ := m₀
  obtain ⟨hcur, hiters⟩ := hm
  cases h with
  | idle hcurrent hskips =>
    cases hcurrent
    cases hcur
    obtain ⟨m', hm', hlike⟩ := hskips.follows hR hiters hr
    exact ⟨m', .idle rfl hm', hlike⟩
  | fail hcurrent hnext =>
    cases hcurrent
    cases hcur with
    | some hw =>
      rcases hr with hr | hr
      · cases hr
      exact ⟨⟨iters₀, none⟩, .fail rfl (hr.error hw.rel hw.valid hnext), .none, hiters⟩
  | @advance w hcurrent it hnext _ hskips =>
    cases hcurrent
    cases hcur with
    | @some _ w' hw =>
      obtain ⟨it', hnext', hrel⟩ := hR.next hw.rel hw.valid hnext
      rw [hR.key hw.rel hw.valid] at hskips
      have hheap : List.Forall₂ (HeldLike R)
          (if isValid it then ⟨w.index, it⟩ :: iters else iters)
          (if isValid it' then ⟨w'.index, it'⟩ :: iters₀ else iters₀) := by
        rw [← hR.isValid hrel]
        split
        · rename_i hvalid
          exact .cons ⟨hw.index, hvalid, hrel⟩ hiters
        · exact hiters
      obtain ⟨m', hm', hlike⟩ := hskips.follows hR hheap hr
      exact ⟨m', .advance rfl hnext' hm', hlike⟩

/-- One call of `next` on merges over children that follow each other. -/
theorem next_like (hR : Follows R) {m : MergeIterator I} {m' : MergeIterator J} (h : Like R m m')
    (hm : m.Stands) (hm' : m'.Stands)
    (hr : (StorageIterator.next m).1 = .ok () ∨ Alike R) :
    (StorageIterator.next m).1 = (StorageIterator.next m').1 ∧
      Like R (StorageIterator.next m).2 (StorageIterator.next m').2 := by
  obtain ⟨m₁, hmoves, hlike⟩ := (moves_next hm).follows hR h hr
  have heq : StorageIterator.next m' = _ := hmoves.next_eq hm'
  rw [heq]
  exact ⟨rfl, hlike⟩

theorem Like.isValid_eq {m : MergeIterator I} {m' : MergeIterator J} (h : Like R m m') :
    isValid m = isValid m' := by
  obtain ⟨iters, current⟩ := m
  obtain ⟨iters', current'⟩ := m'
  cases h.current <;> rfl

theorem Like.key_eq (hR : Follows R) {m : MergeIterator I} {m' : MergeIterator J} (h : Like R m m') :
    key m = key m' := by
  obtain ⟨iters, current⟩ := m
  obtain ⟨iters', current'⟩ := m'
  cases h.current with
  | none => rfl
  | some hw => exact hR.key hw.rel hw.valid

theorem Like.value_eq (hR : Follows R) {m : MergeIterator I} {m' : MergeIterator J} (h : Like R m m') :
    value m = value m' := by
  obtain ⟨iters, current⟩ := m
  obtain ⟨iters', current'⟩ := m'
  cases h.current with
  | none => rfl
  | some hw => exact hR.value hw.rel hw.valid

/-- **Merges over children that follow each other follow each other.** -/
theorem follows_merge (hR : Follows R) :
    Follows fun (m : MergeIterator I) (m' : MergeIterator J) => Like R m m' ∧ m.Stands ∧ m'.Stands where
  isValid h := h.1.isValid_eq
  key h _ := h.1.key_eq hR
  value h _ := h.1.value_eq hR
  next {m m'} h _ m₁ hnext := by
    obtain ⟨hlike, hm, hm'⟩ := h
    obtain ⟨heq, hlike'⟩ := next_like hR hlike hm hm' (Or.inl (by rw [hnext]))
    have hm₁ := next_stands hm
    rw [hnext] at heq hlike' hm₁
    exact ⟨_, Prod.ext heq.symm rfl, hlike', hm₁, next_stands hm'⟩

theorem create_like (hR : Follows R) {iters : List I} {iters' : List J}
    (h : List.Forall₂ R iters iters') : Like R (create iters) (create iters') := by
  have hheap : ∀ n, List.Forall₂ (HeldLike R)
      (((iters.zipIdx n).filter fun p => isValid p.1).map fun p => ⟨p.2, p.1⟩)
      (((iters'.zipIdx n).filter fun p => isValid p.1).map fun p => ⟨p.2, p.1⟩) := by
    induction h with
    | nil => exact fun _ => .nil
    | @cons it it' iters iters' hit _ ih =>
      intro n
      rw [List.zipIdx_cons, List.zipIdx_cons]
      by_cases hvalid : isValid it = true
      · have hvalid' := hvalid
        rw [hR.isValid hit] at hvalid'
        rw [List.filter_cons_of_pos (by exact hvalid), List.filter_cons_of_pos (by exact hvalid')]
        exact .cons ⟨rfl, hvalid, hit⟩ (ih (n + 1))
      · have hvalid' := hvalid
        rw [hR.isValid hit] at hvalid'
        rw [List.filter_cons_of_neg (by exact hvalid), List.filter_cons_of_neg (by exact hvalid')]
        exact ih (n + 1)
  have hlike := heapPop_like hR (hheap 0)
  rw [create, create]
  generalize heapPop (((iters.zipIdx).filter fun p => isValid p.1).map fun p => ⟨p.2, p.1⟩) = o at hlike ⊢
  generalize heapPop (((iters'.zipIdx).filter fun p => isValid p.1).map fun p => ⟨p.2, p.1⟩) = o' at hlike ⊢
  cases hlike with
  | none => exact ⟨.none, .nil⟩
  | some hp => exact ⟨.some hp.1, hp.2⟩

end MergeIterator

namespace TwoMergeIterator

variable {A A' B B' κ : Type} [LinearOrder κ] [StorageIterator A κ] [StorageIterator A' κ]
  [StorageIterator B κ] [StorageIterator B' κ] {R : A → A' → Prop} {S : B → B' → Prop}

theorem showsA_eq (hR : Follows R) (hS : Follows S) {m : TwoMergeIterator A B}
    {m' : TwoMergeIterator A' B'} (ha : R m.a m'.a) (hb : S m.b m'.b) : m.showsA = m'.showsA := by
  unfold showsA
  rw [← hR.isValid ha, ← hS.isValid hb]
  cases hvb : isValid m.b with
  | false => rfl
  | true =>
    cases hva : isValid m.a with
    | false => rfl
    | true => rw [hR.key ha hva, hS.key hb hvb]

/-- The side that is shown is valid. -/
theorem isValid_of_shown {m : TwoMergeIterator A B} (h : isValid m = true) :
    (m.showsA = true → isValid m.a = true) ∧ (m.showsA = false → isValid m.b = true) := by
  have h' : (isValid m.a || isValid m.b) = true := h
  unfold showsA
  cases hva : isValid m.a <;> cases hvb : isValid m.b <;> simp_all

omit [LinearOrder κ] [StorageIterator B κ] [StorageIterator B' κ] in
theorem nextA_follows (hR : Follows R) {m m₁ : TwoMergeIterator A B} {m' : TwoMergeIterator A' B'}
    (ha : R m.a m'.a) (hb : S m.b m'.b) (hvalid : isValid m.a = true) (h : m.nextA = (.ok (), m₁)) :
    ∃ m₂, m'.nextA = (.ok (), m₂) ∧ R m₁.a m₂.a ∧ S m₁.b m₂.b := by
  rcases hnext : StorageIterator.next m.a with ⟨r, a⟩
  rw [nextA, hnext] at h
  cases h
  obtain ⟨a', hnext', hrel⟩ := hR.next ha hvalid hnext
  rw [nextA, hnext']
  exact ⟨_, rfl, hrel, hb⟩

omit [LinearOrder κ] [StorageIterator A κ] [StorageIterator A' κ] in
theorem nextB_follows (hS : Follows S) {m m₁ : TwoMergeIterator A B} {m' : TwoMergeIterator A' B'}
    (ha : R m.a m'.a) (hb : S m.b m'.b) (hvalid : isValid m.b = true) (h : m.nextB = (.ok (), m₁)) :
    ∃ m₂, m'.nextB = (.ok (), m₂) ∧ R m₁.a m₂.a ∧ S m₁.b m₂.b := by
  rcases hnext : StorageIterator.next m.b with ⟨r, b⟩
  rw [nextB, hnext] at h
  cases h
  obtain ⟨b', hnext', hrel⟩ := hS.next hb hvalid hnext
  rw [nextB, hnext']
  exact ⟨_, rfl, ha, hrel⟩

/-- Two-way merges whose sides follow each other follow each other. -/
theorem follows_merge (hR : Follows R) (hS : Follows S) :
    Follows fun (m : TwoMergeIterator A B) (m' : TwoMergeIterator A' B') => R m.a m'.a ∧ S m.b m'.b where
  isValid h := by
    show (isValid _ || isValid _) = (isValid _ || isValid _)
    rw [hR.isValid h.1, hS.isValid h.2]
  key {m m'} h hvalid := by
    obtain ⟨hA, hB⟩ := isValid_of_shown hvalid
    show (if m.showsA then key m.a else key m.b) = if m'.showsA then key m'.a else key m'.b
    rw [← showsA_eq hR hS h.1 h.2]
    cases hshow : m.showsA with
    | true => exact hR.key h.1 (hA hshow)
    | false => exact hS.key h.2 (hB hshow)
  value {m m'} h hvalid := by
    obtain ⟨hA, hB⟩ := isValid_of_shown hvalid
    show (if m.showsA then value m.a else value m.b) = if m'.showsA then value m'.a else value m'.b
    rw [← showsA_eq hR hS h.1 h.2]
    cases hshow : m.showsA with
    | true => exact hR.value h.1 (hA hshow)
    | false => exact hS.value h.2 (hB hshow)
  next {m m'} h hvalid m₁ hnext := by
    obtain ⟨ha, hb⟩ := h
    change m.next = (.ok (), m₁) at hnext
    have hab : (isValid m.a || isValid m.b) = true := hvalid
    show ∃ m₂, m'.next = (.ok (), m₂) ∧ _
    rw [next] at hnext ⊢
    rw [← hR.isValid ha, ← hS.isValid hb]
    cases hvb : isValid m.b with
    | false =>
      simp only [hvb, Bool.or_false] at hab hnext ⊢
      exact nextA_follows hR ha hb hab hnext
    | true =>
      cases hva : isValid m.a with
      | false =>
        simp only [hva, hvb] at hnext ⊢
        exact nextB_follows hS ha hb hvb hnext
      | true =>
        simp only [hva, hvb, ← hR.key ha hva, ← hS.key hb hvb, Bool.not_true, Bool.false_eq_true,
          if_false] at hnext ⊢
        by_cases hlt : key m.a < key m.b
        · rw [if_pos hlt] at hnext ⊢
          exact nextA_follows hR ha hb hva hnext
        · by_cases hgt : key m.b < key m.a
          · rw [if_neg hlt, if_pos hgt] at hnext ⊢
            exact nextB_follows hS ha hb hvb hnext
          · -- on a tie both sides are advanced
            rw [if_neg hlt, if_neg hgt] at hnext ⊢
            rcases hna : StorageIterator.next m.a with ⟨ra, a₁⟩
            rcases hnb : StorageIterator.next m.b with ⟨rb, b₁⟩
            rw [hna, hnb] at hnext
            cases ra with
            | error e => cases hnext
            | ok _ =>
              cases hnext
              obtain ⟨a₂, hna', ha₂⟩ := hR.next ha hva hna
              obtain ⟨b₂, hnb', hb₂⟩ := hS.next hb hvb hnb
              rw [hna', hnb']
              exact ⟨⟨a₂, b₂⟩, rfl, ha₂, hb₂⟩

end TwoMergeIterator

end

end TinyLsm

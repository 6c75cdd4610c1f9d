import TinyLsm.Lib.SortedRun

/-!
# Multi-version runs

Keys that carry a version: a *user key* and a *timestamp*, ordered by user key ascending and,
within one user key, by timestamp descending, so that the newest version of a key comes first.

* `Newest S k r v`: among the pairs of `S`, the version of `k` with the largest timestamp not
  above `r` holds `v`.  This is what a reader at timestamp `r` sees.
* `visible`: one pass over a sorted run that keeps, for each user key, the newest version not
  above `r`, unless it is a tombstone; `mem_visible` says it is `Newest`.
* `SeesSame.diff_iff`: which tombstones may be left out; `newest_diff_iff`, which readers see it.
* `ByAge`: sets of versions of which the first ones have the newest versions of each key.
* `versionAt`: the same for a single key, on a run that starts at that key.
-/

/-- A versioned key: the order is user key ascending, then timestamp descending. -/
class VersionKey (K : Type*) (κ τ : outParam Type*) [LinearOrder K] [LinearOrder κ]
    [LinearOrder τ] where
  /-- The key the user sees. -/
  user : K → κ
  /-- The version. -/
  stamp : K → τ
  lt_iff (a b : K) : a < b ↔ user a < user b ∨ user a = user b ∧ stamp b < stamp a

namespace VersionKey

variable {K κ τ : Type*} [LinearOrder K] [LinearOrder κ] [LinearOrder τ] [VersionKey K κ τ]

theorem user_le_of_lt {a b : K} (h : a < b) : user a ≤ user b := by
  rcases (lt_iff a b).mp h with h | h
  · exact h.le
  · exact h.1.le

theorem user_le_of_le {a b : K} (h : a ≤ b) : user a ≤ user b := by
  rcases h.lt_or_eq with h | rfl
  · exact user_le_of_lt h
  · exact le_rfl

theorem lt_of_user_lt {a b : K} (h : user a < user b) : a < b := (lt_iff a b).mpr (Or.inl h)

theorem ext {a b : K} (hu : user a = user b) (ht : stamp a = stamp b) : a = b := by
  rcases lt_trichotomy a b with h | h | h
  · rcases (lt_iff a b).mp h with h | h
    · exact absurd hu h.ne
    · exact absurd ht h.2.ne'
  · exact h
  · rcases (lt_iff b a).mp h with h | h
    · exact absurd hu h.ne'
    · exact absurd ht h.2.ne

theorem stamp_lt_of_lt {a b : K} (h : a < b) (hu : user a = user b) : stamp b < stamp a := by
  rcases (lt_iff a b).mp h with h | h
  · exact absurd hu h.ne
  · exact h.2

end VersionKey

open VersionKey

variable {K κ τ ν : Type*} [LinearOrder K] [LinearOrder κ] [LinearOrder τ] [VersionKey K κ τ]

/-- Among the pairs of `S`, the newest version of `k` not above `r` holds `v`. -/
def Newest (S : K × ν → Prop) (k : κ) (r : τ) (v : ν) : Prop :=
  ∃ a, S (a, v) ∧ user a = k ∧ stamp a ≤ r ∧
    ∀ b w, S (b, w) → user b = k → stamp b ≤ r → stamp b ≤ stamp a

namespace Newest

variable {S S' : K × ν → Prop} {k : κ} {r r' : τ} {v w : ν}

/-- Only the versions of `k` not above `r` count. -/
theorem congr (h : ∀ a v, user a = k → stamp a ≤ r → (S (a, v) ↔ S' (a, v))) :
    Newest S k r v ↔ Newest S' k r v := by
  constructor
  · rintro ⟨a, ha, hu, ht, hmax⟩
    exact ⟨a, (h a v hu ht).mp ha, hu, ht,
      fun b w hb hbu hbt => hmax b w ((h b w hbu hbt).mpr hb) hbu hbt⟩
  · rintro ⟨a, ha, hu, ht, hmax⟩
    exact ⟨a, (h a v hu ht).mpr ha, hu, ht,
      fun b w hb hbu hbt => hmax b w ((h b w hbu hbt).mp hb) hbu hbt⟩

/-- Two readers above all versions see the same. -/
theorem reader_congr (hr : ∀ x, S x → stamp x.1 ≤ r) (hr' : ∀ x, S x → stamp x.1 ≤ r') :
    Newest S k r v ↔ Newest S k r' v := by
  constructor
  · rintro ⟨a, ha, hk, -, hmax⟩
    exact ⟨a, ha, hk, hr' _ ha, fun b w hb hbk _ => hmax b w hb hbk (hr _ hb)⟩
  · rintro ⟨a, ha, hk, -, hmax⟩
    exact ⟨a, ha, hk, hr _ ha, fun b w hb hbk _ => hmax b w hb hbk (hr' _ hb)⟩

/-- When `S` holds one value for each versioned key, so does a read. -/
theorem unique (hS : ∀ a v w, S (a, v) → S (a, w) → v = w) (hv : Newest S k r v)
    (hw : Newest S k r w) : v = w := by
  obtain ⟨a, ha, hua, hta, hmaxa⟩ := hv
  obtain ⟨b, hb, hub, htb, hmaxb⟩ := hw
  have hab : a = b := VersionKey.ext (hua.trans hub.symm)
    (le_antisymm (hmaxb a v ha hua hta) (hmaxa b w hb hub htb))
  subst hab
  exact hS a v w ha hb

end Newest

/-! ## Leaving versions out -/

/-- `y` is the newest version below `x` of the key of `x`. -/
def NextOlder (S : K × ν → Prop) (x y : K × ν) : Prop :=
  S y ∧ user y.1 = user x.1 ∧ stamp y.1 < stamp x.1 ∧
    ∀ z, S z → user z.1 = user x.1 → stamp z.1 < stamp x.1 → stamp z.1 ≤ stamp y.1

/-- Readers see the same live values. -/
def SeesSame (tomb : ν → Bool) (S S' : K × ν → Prop) : Prop :=
  ∀ k r v, tomb v = false → (Newest S k r v ↔ Newest S' k r v)

namespace SeesSame

variable {tomb : ν → Bool} {S S' T D : K × ν → Prop}

theorem refl (S : K × ν → Prop) : SeesSame tomb S S := fun _ _ _ _ => Iff.rfl

theorem trans {S'' : K × ν → Prop} (h : SeesSame tomb S S') (h' : SeesSame tomb S' S'') :
    SeesSame tomb S S'' := fun k r v hv => (h k r v hv).trans (h' k r v hv)

/-- Versions that are newer than all others are seen in the same way over both. -/
theorem union (h : SeesSame tomb S S') (hS : ∀ x y, S x → T y → stamp x.1 < stamp y.1)
    (hS' : ∀ x y, S' x → T y → stamp x.1 < stamp y.1) :
    SeesSame tomb (fun x => T x ∨ S x) fun x => T x ∨ S' x := by
  -- Either some version of the key among the new ones counts, and then only these do, or none does.
  have hnew : ∀ {R : K × ν → Prop} {k : κ} {r : τ} {v : ν}, (∀ x y, R x → T y → stamp x.1 < stamp y.1) →
      (∃ y, T y ∧ user y.1 = k ∧ stamp y.1 ≤ r) →
      (Newest (fun x => T x ∨ R x) k r v ↔ Newest T k r v) := by
    rintro R k r v hR ⟨y, hy, hyk, hyr⟩
    constructor
    · rintro ⟨a, ha | ha, hk, hr, hmax⟩
      · exact ⟨a, ha, hk, hr, fun b w hb => hmax b w (Or.inl hb)⟩
      · exact absurd (hR _ _ ha hy) (not_lt.mpr (hmax y.1 y.2 (Or.inl hy) hyk hyr))
    · rintro ⟨a, ha, hk, hr, hmax⟩
      refine ⟨a, Or.inl ha, hk, hr, fun b w hb hbk hbr => ?_⟩
      rcases hb with hb | hb
      · exact hmax b w hb hbk hbr
      · exact (hR _ _ hb ha).le
  have hold : ∀ {R : K × ν → Prop} {k : κ} {r : τ} {v : ν}, (¬∃ y, T y ∧ user y.1 = k ∧ stamp y.1 ≤ r) →
      (Newest (fun x => T x ∨ R x) k r v ↔ Newest R k r v) := by
    intro R k r v hnone
    refine Newest.congr fun a w hk hr => or_iff_right fun ha => hnone ⟨(a, w), ha, hk, hr⟩
  intro k r v hv
  by_cases hex : ∃ y, T y ∧ user y.1 = k ∧ stamp y.1 ≤ r
  · rw [hnew hS hex, hnew hS' hex]
  · rw [hold hex, hold hex]
    exact h k r v hv

/-- **Tombstones may be left out** exactly when none of them stands directly above a live version. -/
theorem diff_iff [WellFoundedLT τ] (hS : ∀ a v w, S (a, v) → S (a, w) → v = w)
    (hD : ∀ x, D x → S x ∧ tomb x.2 = true) :
    SeesSame tomb (fun x => S x ∧ ¬D x) S ↔ ∀ x y, D x → NextOlder S x y → tomb y.2 = true := by
  constructor
  · rintro h x ⟨a, v⟩ hx ⟨hy, huser, hlt, hmax⟩
    by_contra htomb
    have hv : tomb v = false := by simpa using htomb
    obtain ⟨hSx, hx'⟩ := hD x hx
    -- Without `x` its reader would see `v`.
    have hsees : Newest (fun x => S x ∧ ¬D x) (user x.1) (stamp x.1) v := by
      refine ⟨a, ⟨hy, fun hDy => ?_⟩, huser, hlt.le, fun b w hb hbk hbr => ?_⟩
      · rw [(hD _ hDy).2] at hv
        cases hv
      · rcases hbr.eq_or_lt with heq | hlt'
        · obtain rfl := VersionKey.ext hbk heq
          obtain rfl := hS _ _ _ hb.1 hSx
          exact absurd hx hb.2
        · exact hmax (b, w) hb.1 hbk hlt'
    obtain ⟨b, hb, hbk, hbr, hbmax⟩ := (h _ _ _ hv).mp hsees
    have heq : b = x.1 := VersionKey.ext hbk (le_antisymm hbr (hbmax x.1 x.2 hSx rfl le_rfl))
    subst heq
    rw [hS _ _ _ hb hSx, hx'] at hv
    cases hv
  · intro h
    -- No live version stands below a tombstone that is left out, with nothing that stays between.
    have hbelow : ∀ t x, stamp x.1 = t → D x → ∀ a v, S (a, v) → tomb v = false → user a = user x.1 →
        stamp a < stamp x.1 → ∃ z, S z ∧ ¬D z ∧ user z.1 = user x.1 ∧ stamp a < stamp z.1 ∧
          stamp z.1 < stamp x.1 := by
      intro t
      induction t using WellFoundedLT.induction with
      | ind t ih =>
        rintro x rfl hx a v ha hv hk hlt
        have hnot : ¬NextOlder S x (a, v) := fun hnext => by
          rw [h x _ hx hnext] at hv
          cases hv
        have hex : ∃ z, S z ∧ user z.1 = user x.1 ∧ stamp z.1 < stamp x.1 ∧ stamp a < stamp z.1 := by
          by_contra hnone
          push Not at hnone
          exact hnot ⟨ha, hk, hlt, fun z hz hzk hzr => hnone z hz hzk hzr⟩
        obtain ⟨z, hz, hzk, hzr, haz⟩ := hex
        by_cases hDz : D z
        · obtain ⟨z', hz', hD', hk', hlt', hr'⟩ :=
            ih (stamp z.1) hzr z rfl hDz a v ha hv (hk.trans hzk.symm) haz
          exact ⟨z', hz', hD', hk'.trans hzk, hlt', hr'.trans hzr⟩
        · exact ⟨z, hz, hDz, hzk, haz, hzr⟩
    intro k r v hv
    constructor
    · rintro ⟨a, ha, hk, hr, hmax⟩
      refine ⟨a, ha.1, hk, hr, fun b w hb hbk hbr => ?_⟩
      by_contra hlt
      have hlt := not_le.mp hlt
      by_cases hDb : D (b, w)
      · obtain ⟨z, hz, hDz, hzk, haz, hzb⟩ :=
          hbelow _ (b, w) rfl hDb a v ha.1 hv (hk.trans hbk.symm) hlt
        exact absurd (hmax z.1 z.2 ⟨hz, hDz⟩ (hzk.trans hbk) (hzb.le.trans hbr)) (not_le.mpr haz)
      · exact absurd (hmax b w ⟨hb, hDb⟩ hbk hbr) (not_le.mpr hlt)
    · rintro ⟨a, ha, hk, hr, hmax⟩
      refine ⟨a, ⟨ha, fun hDa => ?_⟩, hk, hr, fun b w hb => hmax b w hb.1⟩
      rw [(hD _ hDa).2] at hv
      cases hv

end SeesSame

/-! ### For one reader -/

/-- A live version of `k` that a reader at `r` sees once `D` is left out, and did not see before: all that
stands above it is left out, and something is. -/
def UncoveredAt (tomb : ν → Bool) (S D : K × ν → Prop) (k : κ) (r : τ) (y : K × ν) : Prop :=
  S y ∧ tomb y.2 = false ∧ user y.1 = k ∧ stamp y.1 ≤ r ∧
    (∀ z, S z → user z.1 = k → stamp z.1 ≤ r → stamp y.1 < stamp z.1 → D z) ∧
    ∃ x, D x ∧ user x.1 = k ∧ stamp x.1 ≤ r ∧ stamp y.1 < stamp x.1

/-- **When one reader sees the same** without the tombstones `D`. -/
theorem newest_diff_iff {tomb : ν → Bool} {S D : K × ν → Prop} {k : κ} {r : τ}
    (hD : ∀ x, D x → S x ∧ tomb x.2 = true) :
    (∀ v, tomb v = false → (Newest (fun x => S x ∧ ¬D x) k r v ↔ Newest S k r v)) ↔
      ¬∃ y, UncoveredAt tomb S D k r y := by
  have hlive : ∀ x, tomb x.2 = false → ¬D x := fun x hx hDx => by
    rw [(hD x hDx).2] at hx
    cases hx
  constructor
  · rintro h ⟨⟨a, v⟩, ha, hv, hk, hr, habove, x, hx, hxk, hxr, hlt⟩
    have hsees : Newest (fun x => S x ∧ ¬D x) k r v :=
      ⟨a, ⟨ha, hlive _ hv⟩, hk, hr, fun b w hb hbk hbr =>
        not_lt.mp fun hlt => hb.2 (habove (b, w) hb.1 hbk hbr hlt)⟩
    obtain ⟨b, hb, hbk, hbr, hmax⟩ := (h v hv).mp hsees
    have hxb : stamp x.1 ≤ stamp b := hmax x.1 x.2 (hD x hx).1 hxk hxr
    exact hlive (b, v) hv (habove (b, v) hb hbk hbr (hlt.trans_le hxb))
  · intro h v hv
    constructor
    · rintro ⟨a, ha, hk, hr, hmax⟩
      have habove : ∀ z, S z → user z.1 = k → stamp z.1 ≤ r → stamp a < stamp z.1 → D z :=
        fun z hz hzk hzr hlt => by_contra fun hDz =>
          absurd (hmax z.1 z.2 ⟨hz, hDz⟩ hzk hzr) (not_le.mpr hlt)
      refine ⟨a, ha.1, hk, hr, fun b w hb hbk hbr => not_lt.mp fun hlt => h ?_⟩
      exact ⟨(a, v), ha.1, hv, hk, hr, habove, (b, w), habove (b, w) hb hbk hbr hlt, hbk, hbr, hlt⟩
    · rintro ⟨a, ha, hk, hr, hmax⟩
      exact ⟨a, ⟨ha, hlive _ hv⟩, hk, hr, fun b w hb => hmax b w hb.1⟩

/-! ## The order by age -/

/-- The versions of a key that `S` has are newer than those that `T` has. -/
def NewerThan (S T : K × ν → Prop) : Prop :=
  ∀ x y, S x → T y → user x.1 = user y.1 → stamp y.1 < stamp x.1

theorem NewerThan.mono {S S' T T' : K × ν → Prop} (h : NewerThan S T) (hS : ∀ x, S' x → S x)
    (hT : ∀ y, T' y → T y) : NewerThan S' T' := fun x y hx hy => h x y (hS x hx) (hT y hy)

/-- The first one of the sets has the newest versions of each key. -/
def ByAge (Ss : List (K × ν → Prop)) : Prop := Ss.Pairwise NewerThan

namespace ByAge

variable {P C C' Q : List (K × ν → Prop)} {S : K × ν → Prop}

/-- An empty set may come first. -/
theorem cons_empty (h : ByAge Q) (hS : ∀ x, ¬S x) : ByAge (S :: Q) :=
  List.pairwise_cons.mpr ⟨fun _ _ x _ hx => absurd hx (hS x), h⟩

/-- Newer versions may come into the first set. -/
theorem cons_newer {T : K × ν → Prop} (h : ByAge (S :: Q))
    (hT : ∀ x, T x → S x ∨ ∀ R ∈ Q, ∀ y, R y → stamp y.1 < stamp x.1) : ByAge (T :: Q) := by
  obtain ⟨hS, hQ⟩ := List.pairwise_cons.mp h
  refine List.pairwise_cons.mpr ⟨fun R hR x y hx hy hk => ?_, hQ⟩
  rcases hT x hx with hx | hlt
  · exact hS R hR x y hx hy hk
  · exact hlt R hR y hy

/-- **Neighbours may be exchanged** for others with the same versions. -/
theorem exchange (h : ByAge (P ++ (C ++ Q))) (hsub : ∀ S' ∈ C', ∀ x, S' x → ∃ S ∈ C, S x)
    (hC : ByAge C') : ByAge (P ++ (C' ++ Q)) := by
  obtain ⟨hP, hCQ, hPCQ⟩ := List.pairwise_append.mp h
  obtain ⟨-, hQ, hCrossed⟩ := List.pairwise_append.mp hCQ
  refine List.pairwise_append.mpr ⟨hP, List.pairwise_append.mpr ⟨hC, hQ, ?_⟩, ?_⟩
  · intro S' hS' R hR x y hx hy
    obtain ⟨S, hS, hx⟩ := hsub S' hS' x hx
    exact hCrossed S hS R hR x y hx hy
  · intro R hR S' hS' x y hx hy
    rcases List.mem_append.mp hS' with hS' | hS'
    · obtain ⟨S, hS, hy⟩ := hsub S' hS' y hy
      exact hPCQ R hR S (List.mem_append_left _ hS) x y hx hy
    · exact hPCQ R hR S' (List.mem_append_right _ hS') x y hx hy

/-- **Neighbours may be merged.** -/
theorem merge (h : ByAge (P ++ (C ++ Q))) (hsub : ∀ x, S x → ∃ S' ∈ C, S' x) : ByAge (P ++ (S :: Q)) := by
  have hone : ∀ S' ∈ [S], ∀ x, S' x → ∃ S ∈ C, S x := by
    rintro _ (_ | ⟨_, ⟨⟩⟩)
    exact hsub
  exact h.exchange hone (List.pairwise_singleton _ _)

end ByAge

/-! ## Reading a whole run -/

/-- What a reader at `r` sees of a run: for each user key the newest version not above `r`,
without the keys whose version is a tombstone. -/
def visible (tomb : ν → Bool) (r : τ) : List (K × ν) → List (κ × ν)
  | [] => []
  | a :: l =>
    if stamp a.1 ≤ r then
      if tomb a.2 then visible tomb r (l.dropWhile fun b => user b.1 = user a.1)
      else (user a.1, a.2) :: visible tomb r (l.dropWhile fun b => user b.1 = user a.1)
    else visible tomb r l
termination_by l => l.length
decreasing_by
  · exact Nat.lt_succ_of_le (List.length_dropWhile_le ..)
  · exact Nat.lt_succ_of_le (List.length_dropWhile_le ..)
  · exact Nat.lt_succ_self _

section Visible

variable {tomb : ν → Bool} {r : τ}

@[simp] theorem visible_nil : visible tomb r ([] : List (K × ν)) = [] := by
  rw [visible]

theorem visible_cons_of_gt {a : K × ν} {l : List (K × ν)} (h : r < stamp a.1) :
    visible tomb r (a :: l) = visible tomb r l := by
  rw [visible, if_neg (not_le.mpr h)]

theorem visible_cons_of_tomb {a : K × ν} {l : List (K × ν)} (h : stamp a.1 ≤ r)
    (ht : tomb a.2 = true) :
    visible tomb r (a :: l) = visible tomb r (l.dropWhile fun b => user b.1 = user a.1) := by
  rw [visible, if_pos h, if_pos ht]

theorem visible_cons_of_live {a : K × ν} {l : List (K × ν)} (h : stamp a.1 ≤ r)
    (ht : tomb a.2 = false) :
    visible tomb r (a :: l) =
      (user a.1, a.2) :: visible tomb r (l.dropWhile fun b => user b.1 = user a.1) := by
  rw [visible, if_pos h, if_neg (by simp [ht])]

/-- `dropWhile` over the versions of a key, with any test for them. -/
theorem dropWhile_user {a : K × ν} {p : K × ν → Bool} (hp : ∀ b, p b = true ↔ user b.1 = user a.1)
    (l : List (K × ν)) : (l.dropWhile fun b => user b.1 = user a.1) = l.dropWhile p := by
  refine congrArg (fun q => l.dropWhile q) (funext fun b => ?_)
  rw [Bool.eq_iff_iff, hp, decide_eq_true_iff]

theorem visible_tomb {a : K × ν} {l : List (K × ν)} {p : K × ν → Bool}
    (hp : ∀ b, p b = true ↔ user b.1 = user a.1) (h : stamp a.1 ≤ r) (ht : tomb a.2 = true) :
    visible tomb r (a :: l) = visible tomb r (l.dropWhile p) := by
  rw [visible_cons_of_tomb h ht, dropWhile_user hp]

theorem visible_live {a : K × ν} {l : List (K × ν)} {p : K × ν → Bool}
    (hp : ∀ b, p b = true ↔ user b.1 = user a.1) (h : stamp a.1 ≤ r) (ht : tomb a.2 = false) :
    visible tomb r (a :: l) = (user a.1, a.2) :: visible tomb r (l.dropWhile p) := by
  rw [visible_cons_of_live h ht, dropWhile_user hp]

/-- Skipping the versions above `r` at the head changes nothing. -/
theorem visible_dropWhile_gt (l : List (K × ν)) :
    visible tomb r (l.dropWhile fun a => r < stamp a.1) = visible tomb r l := by
  induction l with
  | nil => rfl
  | cons a l ih =>
    by_cases h : r < stamp a.1
    · rw [List.dropWhile_cons_of_pos (by simpa using h), ih, visible_cons_of_gt h]
    · rw [List.dropWhile_cons_of_neg (by simpa using h)]

theorem mem_dropWhile_user {k : κ} {a : K × ν} {l : List (K × ν)} (h : SortedRun (a :: l))
    (hk : user a.1 = k) {x : K × ν} :
    x ∈ l.dropWhile (fun b => user b.1 = k) ↔ x ∈ l ∧ user x.1 ≠ k := by
  induction l generalizing a with
  | nil => simp
  | cons b l ih =>
    by_cases hb : user b.1 = k
    · rw [List.dropWhile_cons_of_pos (by simpa using hb), ih h.tail hb, List.mem_cons]
      constructor
      · rintro ⟨hx, hne⟩
        exact ⟨Or.inr hx, hne⟩
      · rintro ⟨rfl | hx, hne⟩
        · exact absurd hb hne
        · exact ⟨hx, hne⟩
    · rw [List.dropWhile_cons_of_neg (by simpa using hb)]
      refine (and_iff_left_of_imp fun hx => ?_).symm
      -- every later key is at least that of `b`, which lies above `k`
      have hlt : k < user b.1 := by
        refine lt_of_le_of_ne ?_ (Ne.symm hb)
        rw [← hk]
        exact user_le_of_lt (h.head_lt List.mem_cons_self)
      exact (hlt.trans_le (user_le_of_le (h.tail.head_le hx))).ne'

/-- On a run from `k` on, skipping the versions of `k` keeps the larger keys. -/
theorem dropWhile_user_eq_filter {k : κ} {l : List (K × ν)} (h : SortedRun l)
    (hk : ∀ a ∈ l, k ≤ user a.1) {p q : K × ν → Bool} (hp : ∀ b, p b = true ↔ user b.1 = k)
    (hq : ∀ b, q b = true ↔ k < user b.1) : l.dropWhile p = l.filter q := by
  induction l with
  | nil => rfl
  | cons a l ih =>
    have hle : ∀ b ∈ a :: l, user a.1 ≤ user b.1 := fun b hb => user_le_of_le (h.head_le hb)
    rcases (hk a List.mem_cons_self).eq_or_lt with heq | hlt
    · rw [List.dropWhile_cons_of_pos ((hp a).mpr heq.symm),
        List.filter_cons_of_neg (by rw [hq, heq]; exact lt_irrefl _)]
      exact ih h.tail fun b hb => hk b (List.mem_cons_of_mem _ hb)
    · rw [List.dropWhile_cons_of_neg (by rw [hp]; exact hlt.ne')]
      exact (List.filter_eq_self.mpr fun b hb => (hq b).mpr (hlt.trans_le (hle b hb))).symm

theorem newest_cons_of_gt {a : K × ν} {l : List (K × ν)} (h : r < stamp a.1) {k : κ} {v : ν} :
    Newest (· ∈ a :: l) k r v ↔ Newest (· ∈ l) k r v := by
  refine Newest.congr fun b w _ hb => ?_
  rw [List.mem_cons, or_iff_right]
  rintro rfl
  exact absurd hb (not_le.mpr h)

theorem newest_cons_of_le {a : K × ν} {l : List (K × ν)} (hl : SortedRun (a :: l))
    (h : stamp a.1 ≤ r) {k : κ} {v : ν} :
    Newest (· ∈ a :: l) k r v ↔
      k = user a.1 ∧ v = a.2 ∨
        Newest (· ∈ l.dropWhile fun b => user b.1 = user a.1) k r v := by
  have hnewest : ∀ b w, (b, w) ∈ a :: l → user b = user a.1 → stamp b ≤ stamp a.1 := by
    intro b w hb hu
    rcases List.mem_cons.mp hb with rfl | hb
    · exact le_rfl
    · exact (stamp_lt_of_lt (hl.head_lt hb) hu.symm).le
  by_cases hk : k = user a.1
  · subst hk
    constructor
    · rintro ⟨b, hb, hu, ht, hmax⟩
      have hba : b = a.1 := VersionKey.ext hu (le_antisymm (hnewest b v hb hu)
        (hmax a.1 a.2 List.mem_cons_self rfl h))
      subst hba
      exact Or.inl ⟨rfl, hl.inj hb List.mem_cons_self⟩
    · rintro (⟨-, rfl⟩ | ⟨b, hb, hu, -, -⟩)
      · exact ⟨a.1, List.mem_cons_self, rfl, h, fun b w hb hu _ => hnewest b w hb hu⟩
      · exact absurd hu ((mem_dropWhile_user hl rfl).mp hb).2
  · rw [or_iff_right fun h' => hk h'.1]
    refine Newest.congr fun b w hu _ => ?_
    rw [mem_dropWhile_user hl rfl, List.mem_cons]
    constructor
    · rintro (rfl | hb)
      · exact absurd hu.symm hk
      · exact ⟨hb, fun hba => hk (hu.symm.trans hba)⟩
    · exact fun hb => Or.inr hb.1

/-- **`visible` is what a reader sees**: the newest version of each key not above `r`, when it
is not a tombstone. -/
theorem mem_visible {l : List (K × ν)} (hl : SortedRun l) {k : κ} {v : ν} :
    (k, v) ∈ visible tomb r l ↔ tomb v = false ∧ Newest (· ∈ l) k r v := by
  induction l using @visible.induct K κ τ ν _ _ _ _ tomb r with
  | case1 => simp [Newest]
  | case2 a l h ht ih =>
    have ih := ih ((hl.tail).dropWhile _)
    rw [visible_cons_of_tomb h ht, ih, newest_cons_of_le hl h]
    refine and_congr_right fun hv => (or_iff_right ?_).symm
    rintro ⟨-, rfl⟩
    simp [ht] at hv
  | case3 a l h ht ih =>
    have ht' : tomb a.2 = false := by simpa using ht
    have ih := ih ((hl.tail).dropWhile _)
    rw [visible_cons_of_live h ht', List.mem_cons, ih, newest_cons_of_le hl h, Prod.mk.injEq,
      and_or_left]
    refine or_congr_left (and_iff_right_of_imp ?_).symm
    rintro ⟨-, rfl⟩
    exact ht'
  | case4 a l h ih =>
    rw [visible_cons_of_gt (not_le.mp h), ih hl.tail, newest_cons_of_gt (not_le.mp h)]

theorem user_mem_of_mem_visible {l : List (K × ν)} (hl : SortedRun l) {x : κ × ν}
    (hx : x ∈ visible tomb r l) : ∃ a ∈ l, user a.1 = x.1 := by
  obtain ⟨-, a, ha, hu, -⟩ := (mem_visible hl).mp hx
  exact ⟨_, ha, hu⟩

theorem length_visible_le (l : List (K × ν)) : (visible tomb r l).length ≤ l.length := by
  induction l using @visible.induct K κ τ ν _ _ _ _ tomb r with
  | case1 => simp
  | case2 a l h ht ih =>
    rw [visible_cons_of_tomb h ht]
    exact ih.trans ((List.length_dropWhile_le ..).trans (Nat.le_succ _))
  | case3 a l h ht ih =>
    rw [visible_cons_of_live h (by simpa using ht)]
    exact Nat.succ_le_succ (ih.trans (List.length_dropWhile_le ..))
  | case4 a l h ih =>
    rw [visible_cons_of_gt (not_le.mp h)]
    exact ih.trans (Nat.le_succ _)

/-- The keys a reader sees strictly increase. -/
theorem sortedRun_visible {l : List (K × ν)} (hl : SortedRun l) :
    SortedRun (visible tomb r l) := by
  induction l using @visible.induct K κ τ ν _ _ _ _ tomb r with
  | case1 => simp
  | case2 a l h ht ih =>
    rw [visible_cons_of_tomb h ht]
    exact ih ((hl.tail).dropWhile _)
  | case3 a l h ht ih =>
    rw [visible_cons_of_live h (by simpa using ht), SortedRun.cons_iff]
    refine ⟨fun x hx => ?_, ih ((hl.tail).dropWhile _)⟩
    obtain ⟨b, hb, hu⟩ := user_mem_of_mem_visible ((hl.tail).dropWhile _) hx
    obtain ⟨hbl, hne⟩ := (mem_dropWhile_user hl rfl).mp hb
    rw [← hu]
    exact lt_of_le_of_ne (user_le_of_lt (hl.head_lt hbl)) (Ne.symm hne)
  | case4 a l h ih =>
    rw [visible_cons_of_gt (not_le.mp h)]
    exact ih hl.tail

end Visible

/-! ## Reading one key -/

/-- What a reader at `r` sees of the key `k` on a run that starts at `k`: the first version not
above `r`. -/
def versionAt (k : κ) (r : τ) (l : List (K × ν)) : Option ν :=
  match l.dropWhile fun a => user a.1 = k ∧ r < stamp a.1 with
  | [] => none
  | a :: _ => if user a.1 = k then some a.2 else none

/-- The definition of `versionAt`, with any test for what is skipped. -/
theorem versionAt_eq {k : κ} {r : τ} {p : K × ν → Bool}
    (hp : ∀ b, p b = true ↔ user b.1 = k ∧ r < stamp b.1) (l : List (K × ν)) :
    versionAt k r l = (l.dropWhile p).head?.bind fun a => if user a.1 = k then some a.2 else none := by
  have hfun : (fun a : K × ν => decide (user a.1 = k ∧ r < stamp a.1)) = p := by
    funext b
    rw [Bool.eq_iff_iff, hp, decide_eq_true_iff]
  unfold versionAt
  rw [hfun]
  cases l.dropWhile p <;> rfl

theorem versionAt_eq_some_iff {k : κ} {r : τ} {l : List (K × ν)} (hl : SortedRun l)
    (hk : ∀ a ∈ l, k ≤ user a.1) {v : ν} :
    versionAt k r l = some v ↔ Newest (· ∈ l) k r v := by
  induction l with
  | nil => simp [versionAt, Newest]
  | cons a l ih =>
    have ih := ih hl.tail fun b hb => hk b (List.mem_cons_of_mem _ hb)
    by_cases hu : user a.1 = k
    · by_cases ht : r < stamp a.1
      · rw [newest_cons_of_gt ht, ← ih, versionAt, versionAt,
          List.dropWhile_cons_of_pos (by simp [hu, ht])]
      · rw [versionAt, List.dropWhile_cons_of_neg (by simp [ht]), newest_cons_of_le hl (not_lt.mp ht)]
        simp only [if_pos hu, Option.some.injEq]
        constructor
        · rintro rfl
          exact Or.inl ⟨hu.symm, rfl⟩
        · rintro (⟨-, rfl⟩ | ⟨b, hb, hbu, -⟩)
          · rfl
          · exact absurd (hbu.trans hu.symm) ((mem_dropWhile_user hl rfl).mp hb).2
    · -- the run starts above `k`, so `k` has no version on it
      rw [versionAt, List.dropWhile_cons_of_neg (by simp [hu])]
      simp only [if_neg hu, reduceCtorEq, false_iff]
      rintro ⟨b, hb, hbu, -⟩
      have hle := user_le_of_le (hl.head_le hb)
      rw [hbu] at hle
      exact hu (le_antisymm hle (hk a List.mem_cons_self))

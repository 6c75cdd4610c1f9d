import TinyLsm.Block

/-!
# Reading a block back

`HandsOut it es` says what a caller sees who calls `next` as long as the iterator is valid: the
entries `es`, and then an iterator that stays invalid.

`encode_iterates`: a block that was built from some entries is decoded from its bytes and iterates
over these entries, from the first one or from any key, wherever the iterator stood before.  A block
that was built from nothing has no first key, so no iterator can be made over it
(`not_iterates_empty`).
-/

namespace TinyLsm

/-- `add` for every entry of a list, as long as the block takes them. -/
def BlockBuilder.addEach (bb : BlockBuilder) : List Entry → Outcome (Bool × BlockBuilder)
  | [] => .ok (true, bb)
  | e :: es => do
    let (isAdded, bb) ← bb.add e.1 e.2
    if isAdded then bb.addEach es else return (false, bb)

namespace BlockIterator

/-- `next`, `n` times. -/
def nextTimes : ℕ → BlockIterator → Outcome BlockIterator
  | 0, it => .ok it
  | n + 1, it => do nextTimes n (← it.next)

/-- What `next` shows as long as the iterator is valid, for at most `n` calls, and the iterator that
is left. -/
def drain : ℕ → BlockIterator → Outcome (List Entry × BlockIterator)
  | 0, it => .ok ([], it)
  | n + 1, it =>
    if it.isValid then do
      let (es, last) ← drain n (← it.next)
      return ((it.key, it.value) :: es, last)
    else .ok ([], it)

/-- The iterator hands out the entries `es` and stays invalid after them. -/
def HandsOut (it : BlockIterator) (es : List Entry) : Prop :=
  ∀ n, es.length ≤ n → ∃ last, drain n it = .ok (es, last) ∧
    ∀ m, ∃ it', nextTimes m last = .ok it' ∧ it'.isValid = false

end BlockIterator

/-- Iterating over the block gives the entries `es`, and seeking the ones from a key on.  An iterator
over the block keeps the block and its first key; what else it holds depends on where it was moved
before. -/
structure Block.Iterates (b : Block) (es : List Entry) : Prop where
  first : ∃ it, BlockIterator.createAndSeekToFirst b = .ok it ∧ it.HandsOut es
  seek : ∀ it : BlockIterator, it.block = b → b.getFirstKey = .ok it.firstKey → ∀ target,
    ∃ it', it.seekToKey target = .ok it' ∧ it'.HandsOut (es.filter fun e => target ≤ e.1)

/-- The entries of a block, in order. -/
def Block.entries (b : Block) : Outcome (List Entry) := do
  let it ← BlockIterator.createAndSeekToFirst b
  return (← it.drain b.offsets.length).1

/-! ## Iterating -/

namespace BlockIterator

variable {it : BlockIterator} {es : List Entry} {i : ℕ}

/-- An iterator at the end stays there. -/
theorem StandsAt.nextTimes (h : it.StandsAt es i) (hi : es.length ≤ i) (m : ℕ) :
    ∃ it', nextTimes m it = .ok it' ∧ it'.isValid = false := by
  induction m generalizing it i with
  | zero =>
    refine ⟨it, rfl, ?_⟩
    rw [← Bool.not_eq_true, h.isValid_iff]
    omega
  | succ m ih =>
    obtain ⟨it₁, hnext, h₁⟩ := next_spec h
    obtain ⟨it', htimes, hvalid⟩ := ih h₁ (hi.trans (Nat.le_succ i))
    refine ⟨it', ?_, hvalid⟩
    rw [BlockIterator.nextTimes, hnext]
    exact htimes

/-- **An iterator at entry `i` hands out the entries from there on.** -/
theorem StandsAt.handsOut (h : it.StandsAt es i) : it.HandsOut (es.drop i) := by
  intro n hn
  induction n generalizing it i with
  | zero =>
    have hi : es.length ≤ i := by
      rw [List.length_drop] at hn
      omega
    rw [List.drop_eq_nil_of_le hi]
    exact ⟨it, rfl, h.nextTimes hi⟩
  | succ n ih =>
    cases he : es[i]? with
    | none =>
      have hi : es.length ≤ i := List.getElem?_eq_none_iff.mp he
      have hvalid : it.isValid = false := by
        rw [← Bool.not_eq_true, h.isValid_iff]
        omega
      rw [List.drop_eq_nil_of_le hi]
      refine ⟨it, ?_, h.nextTimes hi⟩
      rw [drain, if_neg (by rw [hvalid]; exact Bool.false_ne_true)]
    | some e =>
      obtain ⟨hi, hei⟩ := List.getElem?_eq_some_iff.mp he
      obtain ⟨-, hkey, hvalue⟩ := h.here e he
      obtain ⟨it₁, hnext, h₁⟩ := next_spec h
      have hdrop : es.drop i = e :: es.drop (i + 1) := by
        rw [List.drop_eq_getElem_cons hi, hei]
      rw [hdrop, List.length_cons] at hn
      obtain ⟨last, hdrain, hlast⟩ := ih h₁ (Nat.le_of_succ_le_succ hn)
      refine ⟨last, ?_, hlast⟩
      rw [drain, if_pos (h.isValid_iff.mpr hi), hnext, hdrop, hkey, hvalue]
      simp only [bind, Except.bind, hdrain]
      rfl

/-- A seek does not depend on where the iterator stood. -/
theorem seekToKey_spec (h : it.Over es) (hs : SortedRun es) (target : Key) :
    ∃ it' i, it.seekToKey target = .ok it' ∧ it'.StandsAt es i ∧
      es.drop i = es.filter fun e => target ≤ e.1 := by
  have hb : Brackets es target 0 es.length := ⟨by simp, by simp, Nat.zero_le _, le_rfl⟩
  obtain ⟨it', i, hloop, hit', hbi⟩ := seekLoop_spec hs es.length h hb (Nat.zero_le _) (Nat.sub_le _ _)
  refine ⟨it', i, ?_, hit', ?_⟩
  · unfold seekToKey
    rw [h.holds.length_offsets]
    exact hloop
  · rw [hbi.drop_eq, hs.dropWhile_eq_filter]

end BlockIterator

namespace Block

variable {b : Block} {es : List Entry}

/-- **A block iterates over the entries it holds.** -/
theorem Holds.iterates (h : b.Holds es) (hs : SortedRun es) : b.Iterates es where
  first := by
    obtain ⟨it, hcreate, hit⟩ := BlockIterator.createAndSeekToFirst_spec h
    exact ⟨it, hcreate, hit.handsOut⟩
  seek it hblock hfirst target := by
    subst hblock
    obtain ⟨it', i, hseek, hit', hdrop⟩ := BlockIterator.seekToKey_spec ⟨h, hfirst⟩ hs target
    refine ⟨it', hseek, ?_⟩
    rw [← hdrop]
    exact hit'.handsOut

theorem Holds.entries_eq (h : b.Holds es) : b.entries = .ok es := by
  obtain ⟨it, hcreate, hit⟩ := BlockIterator.createAndSeekToFirst_spec h
  obtain ⟨last, hdrain, -⟩ := hit.handsOut b.offsets.length (by rw [h.length_offsets]; rfl)
  unfold entries
  rw [hcreate]
  simp only [bind, Except.bind, hdrain]
  rfl

end Block

/-! ## Built blocks -/

namespace BlockBuilder

variable {bb bb' : BlockBuilder} {es es' : List Entry}

theorem Holds.addEach (h : bb.Holds es) (hadd : bb.addEach es' = .ok (true, bb'))
    (henc : ∀ e ∈ es', Encodable e) (hsize : bb.blockSize ≤ 65535) :
    bb'.Holds (es ++ es') ∧ bb'.blockSize = bb.blockSize := by
  induction es' generalizing bb es with
  | nil =>
    cases hadd
    rw [List.append_nil]
    exact ⟨h, rfl⟩
  | cons e es' ih =>
    obtain ⟨he, htail⟩ := List.forall_mem_cons.mp henc
    rw [BlockBuilder.addEach, Outcome.bind_eq_ok_iff] at hadd
    obtain ⟨⟨isAdded, bb₁⟩, hone, hadd⟩ := hadd
    cases isAdded with
    | false => cases hadd
    | true =>
      have hsize₁ := blockSize_add hone
      obtain ⟨hholds, hblock⟩ := ih (h.add hone he hsize) hadd htail (by rw [hsize₁]; exact hsize)
      rw [List.append_assoc] at hholds
      exact ⟨hholds, hblock.trans hsize₁⟩

/-- **A block that was built is decoded from its bytes, and iterates over what was added.** -/
theorem encode_iterates [Platform] {blockSize : ℕ} (hsize : blockSize ≤ 65535)
    (hs : SortedRun es) (henc : ∀ e ∈ es, Encodable e)
    (hadd : (new blockSize).addEach es = .ok (true, bb)) :
    Block.decode bb.build.encode = .ok bb.build ∧ (es ≠ [] → bb.build.Iterates es) := by
  obtain ⟨hholds, hblock⟩ := (new_holds blockSize).addEach hadd henc hsize
  rw [List.nil_append] at hholds
  refine ⟨Block.decode_encode ?_, fun hne => (hholds.block hne).1.iterates hs⟩
  exact hholds.length_offsets_lt (by rw [hblock]; exact hsize)

end BlockBuilder

section

attribute [local instance] shortKeyPlatform

namespace BlockBuilder

/-- Three versions of two keys with a common front, one of them the front of the other. -/
def smallBlock : List Entry := [(⟨[1], 5⟩, [7]), (⟨[1], 3⟩, []), (⟨[1, 2], 9⟩, [8, 8])]

theorem sorted_smallBlock : SortedRun smallBlock := by
  unfold SortedRun
  decide

theorem encodable_smallBlock : ∀ e ∈ smallBlock, Encodable e := by
  unfold smallBlock
  simp only [List.forall_mem_cons]
  refine ⟨⟨?_, ?_, ?_⟩, ⟨?_, ?_, ?_⟩, ⟨?_, ?_, ?_⟩, by simp⟩ <;> decide

theorem encode_iterates_small : ∃ bb, (new 64).addEach smallBlock = .ok (true, bb) ∧
    Block.decode bb.build.encode = .ok bb.build ∧ bb.build.Iterates smallBlock := by
  have hsize : 64 ≤ 65535 := by decide
  obtain ⟨bb, hadd⟩ : ∃ bb, (new 64).addEach smallBlock = .ok (true, bb) := ⟨_, rfl⟩
  obtain ⟨hdecode, hiterates⟩ := encode_iterates hsize sorted_smallBlock encodable_smallBlock hadd
  exact ⟨bb, hadd, hdecode, hiterates (by decide)⟩

/-- Making an iterator over a block without entries reads past its end. -/
theorem not_iterates_empty : (new 4096).addEach [] = .ok (true, new 4096) ∧
    ¬ (new 4096).build.Iterates [] := by
  refine ⟨rfl, fun h => ?_⟩
  obtain ⟨it, hcreate, -⟩ := h.first
  cases hcreate

end BlockBuilder

end

end TinyLsm

import TinyLsm.Table.Builder
import TinyLsm.Iterators.StorageIterator

/-!
# Iterating over a table (`table/iterator.rs`)

The iterator walks one block at a time and reads the next block when the current one is used up.
On a table that holds the blocks `bss` it hands out `bss.flatten`, from the start
(`createAndSeekToFirst_yields`) or from the first entry that is not smaller than a key
(`createAndSeekToKey_yields`).

The seek looks into the last block whose first key is at most the key.  Everything in the blocks
before is smaller, everything in the blocks after is larger, so the search inside that block
decides; when it runs off the end, the answer is the start of the next block.
-/

namespace TinyLsm

/-- A position in a table: a block, and a position in it. -/
structure SsTableIterator where
  table : SsTable
  blkIter : BlockIterator
  blkIdx : ℕ

namespace SsTableIterator

variable [Platform]

/-- The first entry of block `i`. -/
def readBlockFirst (table : SsTable) (i : ℕ) : Outcome BlockIterator := do
  BlockIterator.createAndSeekToFirst (← table.readBlock i)

/-- An iterator at the first entry of the first block. -/
def createAndSeekToFirst (table : SsTable) : Outcome SsTableIterator := do
  let blkIter ← readBlockFirst table 0
  return { table, blkIter, blkIdx := 0 }

/-- `seek_to_key_inner`. -/
def createAndSeekToKey (table : SsTable) (key : Key) : Outcome SsTableIterator := do
  let blkIdx := table.findBlockIdx key
  let blkIter ← BlockIterator.createAndSeekToKey (← table.readBlock blkIdx) key
  if blkIter.isValid then return { table, blkIter, blkIdx }
  else if blkIdx + 1 < table.numOfBlocks then
    let blkIter ← readBlockFirst table (blkIdx + 1)
    return { table, blkIter, blkIdx := blkIdx + 1 }
  else return { table, blkIter, blkIdx := blkIdx + 1 }

/-- `seek_to_first`: the block is read before anything is changed. -/
def seekToFirst (it : SsTableIterator) : Stepped SsTableIterator :=
  match createAndSeekToFirst it.table with
  | .error e => (.error e, it)
  | .ok found => (.ok (), { it with blkIter := found.blkIter, blkIdx := found.blkIdx })

/-- `seek_to_key`. -/
def seekToKey (it : SsTableIterator) (key : Key) : Stepped SsTableIterator :=
  match createAndSeekToKey it.table key with
  | .error e => (.error e, it)
  | .ok found => (.ok (), { it with blkIter := found.blkIter, blkIdx := found.blkIdx })

/-- A block that cannot be read leaves the iterator invalid at its index. -/
def next (it : SsTableIterator) : Stepped SsTableIterator :=
  match it.blkIter.next with
  | .error e => (.error e, it)
  | .ok blkIter =>
    if blkIter.isValid then (.ok (), { it with blkIter })
    else if it.blkIdx + 1 < it.table.numOfBlocks then
      match readBlockFirst it.table (it.blkIdx + 1) with
      | .error e => (.error e, { it with blkIter, blkIdx := it.blkIdx + 1 })
      | .ok blkIter => (.ok (), { it with blkIter, blkIdx := it.blkIdx + 1 })
    else (.ok (), { it with blkIter, blkIdx := it.blkIdx + 1 })

/-- A block has at most 65535 entries: their number is stored in two bytes. -/
instance : StorageIterator SsTableIterator Key where
  value it := it.blkIter.value
  key it := it.blkIter.key
  isValid it := it.blkIter.isValid
  next := next
  remaining it := it.blkIter.block.offsets.length - it.blkIter.idx +
    65535 * (it.table.numOfBlocks - (it.blkIdx + 1))

end SsTableIterator

/-! ## How many entries a block has -/

theorem Block.length_decodeOffsets (tmp : Bytes) : 2 * (Block.decodeOffsets tmp).length ≤ tmp.length := by
  induction tmp using Block.decodeOffsets.induct with
  | case1 hi lo rest ih =>
    rw [Block.decodeOffsets]
    simp only [List.length_cons]
    omega
  | case2 tmp h =>
    rw [Block.decodeOffsets]
    · simp
    · exact h

theorem Block.length_offsets_decode {data : Bytes} {b : Block} (h : Block.decode data = .ok b) :
    b.offsets.length ≤ 65535 := by
  simp only [Block.decode, Outcome.bind_eq_ok_iff, Prod.exists] at h
  obtain ⟨offsetEnd, -, tail, -, numEntries, rest, hnum, offsetStart, hstart, tmp, htmp, dataEnd,
    -, hb⟩ := h
  have hlt := (getUint_eq_ok_iff.mp hnum).1
  have hdec := Block.length_decodeOffsets tmp
  have htmplen : tmp.length ≤ offsetEnd - offsetStart := by
    unfold slice at htmp
    split at htmp
    · rw [← Except.ok.inj htmp, List.length_take]
      exact min_le_left _ _
    · cases htmp
  have hsub : offsetEnd - offsetStart ≤ 2 * numEntries := by
    obtain ⟨-, hstart⟩ := usizeSub_eq_ok_iff.mp hstart
    omega
  rw [← Except.ok.inj hb]
  simp only
  omega

theorem SsTable.length_offsets_readBlock [Platform] {t : SsTable} {i : ℕ} {b : Block}
    (h : t.readBlock i = .ok b) : b.offsets.length ≤ 65535 := by
  simp only [SsTable.readBlock, Outcome.bind_eq_ok_iff] at h
  obtain ⟨_, _, _, _, _, _, _, _, hdec⟩ := h
  exact Block.length_offsets_decode hdec

/-! ## Lists of blocks -/

section

variable {α : Type}

theorem flatten_eq_take_append_drop {bss : List (List α)} {j : ℕ} {es : List α}
    (h : bss[j]? = some es) :
    bss.flatten = (bss.take j).flatten ++ (es ++ (bss.drop (j + 1)).flatten) := by
  obtain ⟨hj, rfl⟩ := List.getElem?_eq_some_iff.mp h
  conv_lhs => rw [← List.take_append_drop j bss, List.drop_eq_getElem_cons hj]
  rw [List.flatten_append, List.flatten_cons]

/-- Skipping the entries below a key, when it is known in which block the skipping ends. -/
theorem dropWhile_lt_append {A B C : List Entry} {key : Key} (hA : ∀ e ∈ A, e.1 < key)
    (hC : ∀ e ∈ C, key ≤ e.1) :
    (A ++ (B ++ C)).dropWhile (fun e => e.1 < key) = B.dropWhile (fun e => e.1 < key) ++ C := by
  rw [List.dropWhile_append_of_pos fun e he => by simpa using hA e he, List.dropWhile_append]
  split
  · rename_i hnil
    rw [List.isEmpty_iff.mp hnil, List.nil_append]
    cases C with
    | nil => rfl
    | cons c C =>
      rw [List.dropWhile_cons_of_neg]
      simpa using hC c List.mem_cons_self
  · rfl

/-- A sorted run in pieces, each described by something that knows its first key.  The last piece
that starts at or below a key splits the run: what comes before is below the key, what comes after
is not. -/
theorem partitionPoint_flatten {M : Type} (first : M → Key) {ms : List M}
    {bss : List (List Entry)} (h : List.Forall₂ (fun m es => ∃ a ∈ es.head?, first m = a.1) ms bss)
    (hs : SortedRun bss.flatten) (hne : bss ≠ []) (key : Key) :
    ∃ es, bss[partitionPoint (fun m => first m ≤ key) ms - 1]? = some es ∧
      (∀ e ∈ (bss.take (partitionPoint (fun m => first m ≤ key) ms - 1)).flatten, e.1 < key) ∧
      ∀ e ∈ (bss.drop (partitionPoint (fun m => first m ≤ key) ms - 1 + 1)).flatten,
        key ≤ e.1 := by
  have hlength : ms.length = bss.length := h.length_eq
  have hle := partitionPoint_le (fun m => decide (first m ≤ key)) ms
  have hpos : 0 < bss.length := List.length_pos_iff.mpr hne
  obtain ⟨k, hk⟩ : ∃ k, k = partitionPoint (fun m => decide (first m ≤ key)) ms := ⟨_, rfl⟩
  have hj : k - 1 < bss.length := by omega
  rw [← hk]
  refine ⟨bss[k - 1], List.getElem?_eq_getElem hj, fun e he => ?_, fun e he => ?_⟩
  · -- piece `k - 1` starts at or below the key, the pieces before it end below its start
    have hkpos : 0 < k := by
      by_contra hzero
      rw [show k - 1 = 0 by omega, List.take_zero, List.flatten_nil] at he
      cases he
    have hm : ms[k - 1]? = some ms[k - 1] := List.getElem?_eq_getElem (by omega)
    have hlow := @of_lt_partitionPoint _ (fun m => decide (first m ≤ key)) _ (k - 1) _ (by omega) hm
    obtain ⟨a, ha, hak⟩ := (List.forall₂_iff_get.mp h).2 (k - 1) (by omega) hj
    have hsorted := hs
    rw [flatten_eq_take_append_drop (List.getElem?_eq_getElem hj), SortedRun.append_iff] at hsorted
    refine (hsorted.2.2 e he a (List.mem_append_left _ (List.mem_of_mem_head? ha))).trans_le ?_
    rw [← hak]
    simpa using hlow
  · -- piece `k` starts above the key
    have he' : e ∈ (bss.drop k).flatten := by
      obtain ⟨es, hes, hmem⟩ := List.mem_flatten.mp he
      exact List.mem_flatten.mpr ⟨es, (List.drop_subset_drop_left bss (by omega)) hes, hmem⟩
    have hkl : k < bss.length := by
      by_contra hge
      rw [List.drop_eq_nil_of_le (by omega), List.flatten_nil] at he'
      cases he'
    have hm : ms[k]? = some ms[k] := List.getElem?_eq_getElem (by omega)
    have hhigh := @not_of_partitionPoint _ (fun m => decide (first m ≤ key)) _ ms[k]
      (by rw [← hk]; exact hm)
    obtain ⟨a, ha, hak⟩ := (List.forall₂_iff_get.mp h).2 k (by omega) hkl
    obtain ⟨l, hl⟩ : ∃ l, bss[k] = a :: l := List.head?_eq_some_iff.mp ha
    have hsorted : SortedRun (bss.drop k).flatten :=
      hs.sublist (List.Sublist.flatten (List.drop_sublist k bss))
    rw [List.drop_eq_getElem_cons hkl, List.flatten_cons, hl, List.cons_append] at he' hsorted
    refine le_trans ?_ (hsorted.head_le he')
    rw [← hak]
    exact (lt_of_not_ge (by simpa using hhigh)).le

end

namespace SsTableIterator

variable [Platform] {it : SsTableIterator} {t : SsTable} {bss : List (List Entry)}
  {rest : List Entry}

open StorageIterator

/-! ## The walk -/

/-- The iterator has used up its table. -/
structure AtEnd (bss : List (List Entry)) (it : SsTableIterator) : Prop where
  table : it.table.Holds bss
  blkIdx : bss.length ≤ it.blkIdx
  past : ∃ es i, it.blkIter.StandsAt es i ∧ es.length ≤ i

/-- The iterator stands at an entry, with `rest` still to come. -/
structure Inside (bss : List (List Entry)) (it : SsTableIterator) (rest : List Entry) : Prop where
  table : it.table.Holds bss
  block : ∃ es i, bss[it.blkIdx]? = some es ∧ it.blkIter.StandsAt es i ∧ i < es.length ∧
    rest = es.drop i ++ (bss.drop (it.blkIdx + 1)).flatten

/-- Either of them. -/
def Reads (bss : List (List Entry)) (it : SsTableIterator) (rest : List Entry) : Prop :=
  Inside bss it rest ∨ AtEnd bss it ∧ rest = []

theorem readBlockFirst_spec (h : t.Holds bss) {j : ℕ} {es : List Entry} (hes : bss[j]? = some es) :
    ∃ blkIter, readBlockFirst t j = .ok blkIter ∧ blkIter.StandsAt es 0 ∧ 0 < es.length := by
  obtain ⟨b, hread, hb⟩ := h.blocks j es hes
  obtain ⟨blkIter, hfirst, hstands⟩ := BlockIterator.createAndSeekToFirst_spec hb
  refine ⟨blkIter, ?_, hstands, List.length_pos_iff.mpr hb.ne_nil⟩
  unfold readBlockFirst
  rw [hread]
  exact hfirst

/-- Moving on to block `j`, or past the last one. -/
theorem reads_block (h : t.Holds bss) (j : ℕ) {es : List Entry} {i : ℕ} {blkIter : BlockIterator}
    (hpast : blkIter.StandsAt es i) (hi : es.length ≤ i) :
    if j < t.numOfBlocks then
      ∃ blkIter', readBlockFirst t j = .ok blkIter' ∧
        Reads bss ⟨t, blkIter', j⟩ (bss.drop j).flatten
    else Reads bss ⟨t, blkIter, j⟩ (bss.drop j).flatten := by
  rw [h.numOfBlocks_eq]
  split
  · rename_i hj
    obtain ⟨blkIter', hfirst, hstands, hpos⟩ :=
      readBlockFirst_spec h (List.getElem?_eq_getElem hj)
    refine ⟨blkIter', hfirst, Or.inl ⟨h, _, 0, List.getElem?_eq_getElem hj, hstands, hpos, ?_⟩⟩
    rw [List.drop_zero, List.drop_eq_getElem_cons hj, List.flatten_cons]
  · rename_i hj
    have hle : bss.length ≤ j := Nat.le_of_not_lt hj
    refine Or.inr ⟨⟨h, hle, es, i, hpast, hi⟩, ?_⟩
    rw [List.drop_eq_nil_of_le hle, List.flatten_nil]

theorem Reads.isValid_iff (h : Reads bss it rest) : isValid it = true ↔ rest ≠ [] := by
  change it.blkIter.isValid = true ↔ rest ≠ []
  rcases h with ⟨htable, es, i, hes, hstands, hi, rfl⟩ | ⟨hend, rfl⟩
  · rw [hstands.isValid_iff, List.drop_eq_getElem_cons hi]
    simp [hi]
  · obtain ⟨es, i, hstands, hi⟩ := hend.past
    rw [hstands.isValid_iff]
    simp [hi]

/-- The entries of the blocks still to be read are at most 65535 each. -/
theorem length_flatten_drop_le (h : t.Holds bss) (j : ℕ) :
    (bss.drop j).flatten.length ≤ 65535 * (t.numOfBlocks - j) := by
  rw [h.numOfBlocks_eq, ← List.length_drop]
  have hall : ∀ es ∈ bss.drop j, es.length ≤ 65535 := by
    intro es hes
    obtain ⟨i, hi, rfl⟩ := List.mem_iff_getElem.mp (List.mem_of_mem_drop hes)
    obtain ⟨b, hread, hb⟩ := h.blocks i _ (List.getElem?_eq_getElem hi)
    rw [← hb.length_offsets]
    exact SsTable.length_offsets_readBlock hread
  generalize bss.drop j = l at hall
  induction l with
  | nil => simp
  | cons es l ih =>
    have hes := hall es List.mem_cons_self
    have htail := ih fun x hx => hall x (List.mem_cons_of_mem _ hx)
    rw [List.flatten_cons, List.length_append, List.length_cons]
    omega

/-- **One step inside the table.** -/
theorem Inside.step {a : Entry} (h : Inside bss it (a :: rest)) :
    key it = a.1 ∧ value it = a.2 ∧ rest.length < remaining it ∧
      ∃ it', StorageIterator.next it = (.ok (), it') ∧ Reads bss it' rest := by
  obtain ⟨htable, es, i, hes, hstands, hi, hrest⟩ := h
  rw [List.drop_eq_getElem_cons hi, List.cons_append, List.cons.injEq] at hrest
  obtain ⟨rfl, rfl⟩ := hrest
  obtain ⟨hidx, hkey, hvalue⟩ := hstands.here _ (List.getElem?_eq_getElem hi)
  refine ⟨hkey, hvalue, ?_, ?_⟩
  · change _ < it.blkIter.block.offsets.length - it.blkIter.idx + 65535 * _
    have hflat := length_flatten_drop_le htable (it.blkIdx + 1)
    rw [hstands.holds.length_offsets, hidx, List.length_append, List.length_drop]
    omega
  · change ∃ it', next it = (.ok (), it') ∧ _
    obtain ⟨blkIter, hnext, hstands'⟩ := BlockIterator.next_spec hstands
    unfold next
    rw [hnext]
    simp only
    by_cases hlast : i + 1 < es.length
    · rw [if_pos (hstands'.isValid_iff.mpr hlast)]
      exact ⟨_, rfl, Or.inl ⟨htable, es, i + 1, hes, hstands', hlast, rfl⟩⟩
    · -- the block is used up
      have hle : es.length ≤ i + 1 := Nat.le_of_not_lt hlast
      have hmove := reads_block htable (it.blkIdx + 1) hstands' hle
      rw [if_neg (by rw [hstands'.isValid_iff]; omega), List.drop_eq_nil_of_le hle,
        List.nil_append]
      split at hmove
      · rename_i hj
        obtain ⟨blkIter', hfirst, hreads⟩ := hmove
        rw [if_pos hj, hfirst]
        exact ⟨_, rfl, hreads⟩
      · rename_i hj
        rw [if_neg hj]
        exact ⟨_, rfl, hmove⟩

/-- Past the end every call of `next` returns `Ok` and changes nothing that shows. -/
theorem AtEnd.step (h : AtEnd bss it) : ∃ it', next it = (.ok (), it') ∧ AtEnd bss it' := by
  obtain ⟨htable, hidx, es, i, hstands, hi⟩ := h
  obtain ⟨blkIter, hnext, hstands'⟩ := BlockIterator.next_spec hstands
  unfold next
  rw [hnext]
  simp only
  rw [if_neg (by rw [hstands'.isValid_iff]; omega), if_neg (by rw [htable.numOfBlocks_eq]; omega)]
  exact ⟨_, rfl, htable, Nat.le_succ_of_le hidx, es, i + 1, hstands', Nat.le_succ_of_le hi⟩

theorem AtEnd.drained (h : AtEnd bss it) : Drained it := by
  refine Drained.of_invariant (AtEnd bss) (fun it hit => ?_) (fun it hit => hit.step) h
  obtain ⟨es, i, hstands, hi⟩ := hit.past
  rw [← Bool.not_eq_true]
  change ¬it.blkIter.isValid = true
  rw [hstands.isValid_iff]
  omega

theorem Reads.yields (h : Reads bss it rest) : Yields Drained it rest := by
  refine Yields.of_sim (Reads bss) (fun it hit => ?_) (fun it a l hit => ?_) h
  · refine ⟨?_, ?_⟩
    · rw [← Bool.not_eq_true, hit.isValid_iff]
      simp
    · rcases hit with hin | ⟨hend, -⟩
      · obtain ⟨-, es, i, -, -, hi, hnil⟩ := hin
        rw [List.drop_eq_getElem_cons hi] at hnil
        cases hnil
      · exact hend.drained
  · rcases hit with hin | ⟨-, hnil⟩
    · exact ⟨(Reads.isValid_iff (Or.inl hin)).mpr (by simp), hin.step⟩
    · cases hnil

/-- **From the start the iterator hands out the whole table.** -/
theorem createAndSeekToFirst_yields (h : t.Holds bss) :
    ∃ it, createAndSeekToFirst t = .ok it ∧ Yields Drained it bss.flatten := by
  have hpos : 0 < bss.length := by
    refine List.length_pos_iff.mpr fun hnil => h.ne_nil ?_
    rw [hnil, List.flatten_nil]
  obtain ⟨blkIter, hfirst, hstands, hlen⟩ := readBlockFirst_spec h (List.getElem?_eq_getElem hpos)
  refine ⟨⟨t, blkIter, 0⟩, ?_, @Reads.yields _ _ bss _ (Or.inl ⟨h, _, 0,
    List.getElem?_eq_getElem hpos, hstands, hlen, ?_⟩)⟩
  · unfold createAndSeekToFirst
    rw [hfirst]
    rfl
  · rw [List.drop_zero, ← List.flatten_cons, ← List.drop_eq_getElem_cons hpos, List.drop_zero]

/-! ## The seek -/

theorem findBlockIdx_spec (h : t.Holds bss) (key : Key) :
    ∃ es, bss[t.findBlockIdx key]? = some es ∧
      (∀ e ∈ (bss.take (t.findBlockIdx key)).flatten, e.1 < key) ∧
      ∀ e ∈ (bss.drop (t.findBlockIdx key + 1)).flatten, key ≤ e.1 := by
  refine partitionPoint_flatten BlockMeta.firstKey (h.metas.imp fun m es hd => hd.firstKey)
    h.sorted (fun hnil => h.ne_nil ?_) key
  rw [hnil, List.flatten_nil]

/-- **`create_and_seek_to_key` starts at the first entry that is not smaller than the key.** -/
theorem createAndSeekToKey_yields (h : t.Holds bss) (key : Key) :
    ∃ it, createAndSeekToKey t key = .ok it ∧
      Yields Drained it (bss.flatten.dropWhile fun e => e.1 < key) := by
  obtain ⟨es, hes, hbefore, hafter⟩ := findBlockIdx_spec h key
  obtain ⟨b, hread, hb⟩ := h.blocks _ es hes
  have hsorted : SortedRun es := (h.mem_block (List.mem_of_getElem? hes)).2.1
  obtain ⟨blkIter, i, hseek, hstands, hdrop⟩ := BlockIterator.createAndSeekToKey_spec hb hsorted key
  rw [flatten_eq_take_append_drop hes, dropWhile_lt_append hbefore hafter, ← hdrop]
  unfold createAndSeekToKey
  simp only [hread, bind, Except.bind, hseek]
  by_cases hi : i < es.length
  · rw [if_pos (hstands.isValid_iff.mpr hi)]
    exact ⟨_, rfl, @Reads.yields _ _ bss _ (Or.inl ⟨h, es, i, hes, hstands, hi, rfl⟩)⟩
  · -- the search ran off the end of the block
    have hmove := reads_block h (t.findBlockIdx key + 1) hstands (Nat.le_of_not_lt hi)
    rw [if_neg (by rw [hstands.isValid_iff]; exact hi), List.drop_eq_nil_of_le (Nat.le_of_not_lt hi),
      List.nil_append]
    split at hmove
    · rename_i hj
      obtain ⟨blkIter', hfirst, hreads⟩ := hmove
      rw [if_pos hj, hfirst]
      exact ⟨_, rfl, hreads.yields⟩
    · rename_i hj
      rw [if_neg hj]
      exact ⟨_, rfl, hmove.yields⟩

end SsTableIterator

end TinyLsm

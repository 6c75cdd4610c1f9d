import TinyLsm.Table.Builder

/-!
# Narrowing casts

The encoders write lengths, counts and offsets with `as u16` and `as u32`.  A `Cast` is one such
conversion, and `SsTableBuilder.casts b es` are those of adding the entries `es` to the builder `b`
and building the table, in the order in which they are made.

* `Written.readsBack` --- if each of them preserves its argument, then the table holds the entries,
  and so does the table that is opened from its file;
* `casts_preserve_iff` --- when this is so.  `packs` says how the entries are distributed over the
  blocks, from their lengths alone, and `TableFits` is a condition on these blocks;
* `tableFits_of_le` --- short keys and values in blocks of at most 65554 bytes.
-/

namespace TinyLsm

/-- `arg as u16` for two bytes, `arg as u32` for four. -/
structure Cast where
  arg : ℕ
  bytes : ℕ
  deriving DecidableEq, Repr

/-- The cast does not truncate. -/
def Cast.Preserves (c : Cast) : Prop := c.arg % 256 ^ c.bytes = c.arg

theorem Cast.preserves_iff {c : Cast} : c.Preserves ↔ c.arg < 256 ^ c.bytes := by
  constructor
  · intro h
    rw [← show c.arg % 256 ^ c.bytes = c.arg from h]
    exact Nat.mod_lt _ (by positivity)
  · exact Nat.mod_eq_of_lt

/-! ## The casts of each encoder -/

/-- The casts of an `add` that takes the entry. -/
def BlockBuilder.casts (bb : BlockBuilder) (key : Key) (value : Bytes) : List Cast :=
  [⟨bb.data.length, 2⟩, ⟨computeOverlap bb.firstKey key, 2⟩,
    ⟨key.keyLen - computeOverlap bb.firstKey key, 2⟩, ⟨value.length, 2⟩]

/-- The offsets are two-byte integers already. -/
def Block.casts (b : Block) : List Cast := [⟨b.offsets.length, 2⟩]

/-- The casts of `encode_block_meta`. -/
def BlockMeta.casts (metas : List BlockMeta) : List Cast :=
  ⟨metas.length, 4⟩ :: metas.flatMap fun m =>
    [⟨m.offset, 4⟩, ⟨m.firstKey.keyLen, 2⟩, ⟨m.lastKey.keyLen, 2⟩]

theorem BlockBuilder.casts_preserve_iff {bb : BlockBuilder} {key : Key} {value : Bytes} :
    (∀ c ∈ bb.casts key value, c.Preserves) ↔
      bb.data.length < 256 ^ 2 ∧ FitsAfter bb.firstKey (key, value) := by
  simp only [BlockBuilder.casts, List.forall_mem_cons, Cast.preserves_iff]
  constructor
  · rintro ⟨hoffset, hoverlap, hsuffix, hvalue, -⟩
    exact ⟨hoffset, hoverlap, hsuffix, hvalue⟩
  · rintro ⟨hoffset, hoverlap, hsuffix, hvalue⟩
    exact ⟨hoffset, hoverlap, hsuffix, hvalue, by simp⟩

theorem Block.casts_preserve_iff {b : Block} :
    (∀ c ∈ b.casts, c.Preserves) ↔ b.offsets.length < 65536 := by
  rw [Block.casts, List.forall_mem_singleton, Cast.preserves_iff]
  rfl

theorem BlockMeta.casts_preserve_iff {metas : List BlockMeta} :
    (∀ c ∈ BlockMeta.casts metas, c.Preserves) ↔
      metas.length < 256 ^ 4 ∧ ∀ m ∈ metas, m.Fits := by
  rw [BlockMeta.casts, List.forall_mem_cons, Cast.preserves_iff, List.forall_mem_flatMap]
  refine and_congr_right fun _ => forall₂_congr fun m _ => ?_
  simp only [List.forall_mem_cons, Cast.preserves_iff]
  constructor
  · rintro ⟨hoffset, hfirst, hlast, -⟩
    exact ⟨hoffset, hfirst, hlast⟩
  · rintro ⟨hoffset, hfirst, hlast⟩
    exact ⟨hoffset, hfirst, hlast, by simp⟩

namespace SsTableBuilder

variable [Platform]

/-- The casts of `add`; a current block that is full is encoded first. -/
def addCasts (b : SsTableBuilder) (key : Key) (value : Bytes) : List Cast :=
  match b.builder.add key value with
  | .ok (true, _) => b.builder.casts key value
  | .ok (false, _) =>
    b.builder.build.casts ++ (BlockBuilder.new b.blockSize).casts key value
  | .error _ => []

/-- The casts of `build`: the last block, the metadata, and the positions of the sections. -/
def buildCasts (b : SsTableBuilder) : List Cast :=
  (if b.builder.isEmpty then [] else b.builder.build.casts) ++
    (BlockMeta.casts b.closed.metas ++
      [⟨b.closed.data.length, 4⟩, ⟨b.closed.bloom.encode.length, 4⟩,
        ⟨b.closed.data.length + (BlockMeta.encodeBlockMeta b.closed.metas).length + 4, 4⟩])

/-- The casts of adding some entries and building the table. -/
def casts (b : SsTableBuilder) : List Entry → List Cast
  | [] => b.buildCasts
  | e :: es => b.addCasts e.1 e.2 ++
    match b.add e.1 e.2 with
    | .ok b => b.casts es
    | .error _ => []

variable {b : SsTableBuilder} {done : List (List Entry)} {cur : List Entry} {e : Entry}
  {bb : BlockBuilder}

theorem casts_cons_of_room (es : List Entry) (hadd : b.builder.add e.1 e.2 = .ok (true, bb))
    (heq : b.add e.1 e.2 = .ok (b.push bb e.1)) :
    b.casts (e :: es) = b.builder.casts e.1 e.2 ++ (b.push bb e.1).casts es := by
  rw [casts, heq]
  unfold addCasts
  rw [hadd]

theorem casts_cons_of_full (es : List Entry) (hfull : b.builder.add e.1 e.2 = .ok (false, b.builder))
    (heq : b.add e.1 e.2 = .ok (b.finishBlock.push bb e.1)) :
    b.casts (e :: es) = b.builder.build.casts ++ (BlockBuilder.new b.blockSize).casts e.1 e.2 ++
      (b.finishBlock.push bb e.1).casts es := by
  rw [casts, heq]
  unfold addCasts
  rw [hfull]

theorem buildCasts_preserve_iff : (∀ c ∈ b.buildCasts, c.Preserves) ↔
    (b.builder.isEmpty = false → b.builder.offsets.length < 65536) ∧
      (b.closed.metas.length < 256 ^ 4 ∧ ∀ m ∈ b.closed.metas, m.Fits) ∧
      b.closed.data.length < 256 ^ 4 ∧ b.closed.bloom.encode.length < 256 ^ 4 ∧
      b.closed.data.length + (BlockMeta.encodeBlockMeta b.closed.metas).length + 4 < 256 ^ 4 := by
  rw [buildCasts, List.forall_mem_append, List.forall_mem_append, BlockMeta.casts_preserve_iff]
  refine and_congr ?_ (and_congr_right fun _ => ?_)
  · cases hempty : b.builder.isEmpty with
    | true => simp
    | false =>
      rw [if_neg Bool.false_ne_true, Block.casts_preserve_iff]
      exact ⟨fun h _ => h, fun h => h rfl⟩
  · simp only [List.forall_mem_cons, Cast.preserves_iff]
    exact ⟨fun ⟨h₁, h₂, h₃, _⟩ => ⟨h₁, h₂, h₃⟩, fun ⟨h₁, h₂, h₃⟩ => ⟨h₁, h₂, h₃, by simp⟩⟩

/-! ## The bytes of a builder -/

/-- The bytes of a builder that has closed the blocks `done` and is filling `cur`. -/
structure Written (b : SsTableBuilder) (done : List (List Entry)) (cur : List Entry) : Prop where
  data : DataSection b.metas b.data done
  current : b.builder.Holds cur

theorem new_written (blockSize : ℕ) : (new blockSize).Written [] [] where
  data := .nil
  current := BlockBuilder.new_holds blockSize

theorem Written.push (h : b.Written done cur) (he : e.1.keyRef ≠ [])
    (hadd : b.builder.add e.1 e.2 = .ok (true, bb))
    (hcasts : ∀ c ∈ b.builder.casts e.1 e.2, c.Preserves) :
    (b.push bb e.1).Written done (cur ++ [e]) := by
  obtain ⟨hoffset, hfits⟩ := BlockBuilder.casts_preserve_iff.mp hcasts
  exact ⟨h.data, h.current.add_of_fits hadd he hfits hoffset⟩

theorem Written.finishBlock (h : b.Written done cur) (htracks : b.Tracks done cur) (hcur : cur ≠ [])
    (hcount : b.builder.offsets.length < 65536) :
    DataSection b.finishBlock.metas b.finishBlock.data (done ++ [cur]) :=
  .snoc h.data (h.current.block hcur).1 hcount (htracks.describes hcur) rfl

/-- The table that is built, and the one that is opened from its file, hold the entries. -/
def ReadsBack (b : SsTableBuilder) (es : List Entry) : Prop :=
  ∀ id, (b.build id).HasEntries es ∧
    ∀ id', ∃ t, SsTable.openFile id' (b.build id).file = .ok t ∧ t.HasEntries es

/-- The table that is built holds the entries. -/
theorem Written.holds (htracks : b.Tracks done cur) (h : b.Written done cur) (hcur : cur ≠ [])
    (hsorted : SortedRun (done.flatten ++ cur)) (hcount : b.builder.offsets.length < 65536) (id : ℕ) :
    (b.build id).Holds (done ++ [cur]) := by
  refine build_holds_of_data htracks hcur ?_ hsorted id
  rw [htracks.closed_eq hcur]
  exact h.finishBlock htracks hcur hcount

theorem Written.readsBack (htracks : b.Tracks done cur) (h : b.Written done cur) (hcur : cur ≠ [])
    (hsorted : SortedRun (done.flatten ++ cur)) (hcasts : ∀ c ∈ b.buildCasts, c.Preserves) :
    b.ReadsBack (done.flatten ++ cur) := by
  obtain ⟨hcount, ⟨-, hfits⟩, -, hbloom, hpos⟩ := buildCasts_preserve_iff.mp hcasts
  have hempty : b.builder.isEmpty = false := by
    rw [← Bool.not_eq_true, htracks.isEmpty_iff]
    exact hcur
  intro id
  have hholds := h.holds htracks hcur hsorted (hcount hempty) id
  have hflat : done.flatten ++ cur = (done ++ [cur]).flatten := by simp
  refine ⟨⟨_, hholds, hflat⟩, fun id' => ?_⟩
  exact ⟨_, openFile_build_of_fits htracks hcur hfits hpos hbloom id id',
    _, hholds.congr rfl rfl rfl rfl rfl, hflat⟩

end SsTableBuilder

/-! ## Lengths of blocks -/

/-- The key that the keys of a block are encoded against. -/
def firstKeyOf (es : List Entry) : Key := (es.head?.map Prod.fst).getD Key.new

/-- The key of the last entry. -/
def lastKeyOf (es : List Entry) : Key := (es.getLast?.map Prod.fst).getD Key.new

/-- The length of an entry in a block whose first key is `firstKey`. -/
def entryLength (firstKey : Key) (e : Entry) : ℕ :=
  14 + (e.1.keyLen - computeOverlap firstKey e.1) + e.2.length

/-- The length of the entries of a block. -/
def entriesLength : List Entry → ℕ
  | [] => 0
  | a :: es => entryLength Key.new a + (es.map (entryLength a.1)).sum

@[simp] theorem entriesLength_nil : entriesLength [] = 0 := rfl

@[simp] theorem firstKeyOf_nil : firstKeyOf [] = Key.new := rfl

theorem firstKeyOf_concat {cur : List Entry} (hcur : cur ≠ []) (e : Entry) :
    firstKeyOf (cur ++ [e]) = firstKeyOf cur := by
  cases cur with
  | nil => exact absurd rfl hcur
  | cons a l => rfl

theorem entriesLength_concat (cur : List Entry) (e : Entry) :
    entriesLength (cur ++ [e]) = entriesLength cur + entryLength (firstKeyOf cur) e := by
  cases cur with
  | nil => exact Nat.add_comm _ _
  | cons a l =>
    rw [List.cons_append, entriesLength, entriesLength, List.map_append, List.sum_append, Nat.add_assoc]
    rfl

/-- Every entry has at least the fourteen bytes of its fixed-width fields. -/
theorem mul_length_le_entriesLength (es : List Entry) : 14 * es.length ≤ entriesLength es := by
  induction es using List.reverseRecOn with
  | nil => exact Nat.le_refl _
  | append_singleton es e ih =>
    rw [entriesLength_concat, List.length_append, List.length_singleton]
    unfold entryLength
    omega

/-- Exactly what the two-byte fields of a block can hold, apart from those of its metadata.  Only
the offset of the last entry counts, the other ones are smaller. -/
structure Entered (es : List Entry) : Prop where
  firstKey : (firstKeyOf es).keyLen < 65536
  suffix : ∀ e ∈ es, e.1.keyLen - computeOverlap (firstKeyOf es) e.1 < 65536
  value : ∀ e ∈ es, e.2.length < 65536
  start : entriesLength es.dropLast < 65536

theorem entered_nil : Entered [] where
  firstKey := Nat.zero_lt_succ _
  suffix := by simp
  value := by simp
  start := Nat.zero_lt_succ _

theorem entriesLength_dropLast_le (es : List Entry) :
    entriesLength es.dropLast ≤ entriesLength es := by
  induction es using List.reverseRecOn with
  | nil => exact Nat.le_refl _
  | append_singleton es e ih =>
    rw [List.dropLast_concat, entriesLength_concat]
    exact Nat.le_add_right _ _

/-- **One more entry.** -/
theorem entered_concat_iff {cur : List Entry} {e : Entry} : Entered (cur ++ [e]) ↔
    Entered cur ∧ entriesLength cur < 65536 ∧ FitsAfter (firstKeyOf cur) e := by
  have hmem : ∀ {P : Entry → Prop}, (∀ a ∈ cur ++ [e], P a) ↔ (∀ a ∈ cur, P a) ∧ P e := by
    intro P
    rw [List.forall_mem_append, List.forall_mem_singleton]
  rcases eq_or_ne cur [] with rfl | hcur
  · constructor
    · rintro ⟨hfirst, hsuffix, hvalue, hstart⟩
      refine ⟨entered_nil, Nat.zero_lt_succ _, ?_, ?_, (hmem.mp hvalue).2⟩
      · rw [firstKeyOf_nil, computeOverlap_new]
        exact Nat.zero_lt_succ _
      · exact (Nat.sub_le _ _).trans_lt hfirst
    · rintro ⟨-, -, -, hsuffix, hvalue⟩
      rw [firstKeyOf_nil, computeOverlap_new] at hsuffix
      refine ⟨hsuffix, hmem.mpr ⟨by simp, ?_⟩, hmem.mpr ⟨by simp, hvalue⟩, Nat.zero_lt_succ _⟩
      exact (Nat.sub_le _ _).trans_lt hsuffix
  · constructor
    · rintro ⟨hfirst, hsuffix, hvalue, hstart⟩
      rw [firstKeyOf_concat hcur] at hfirst hsuffix
      rw [List.dropLast_concat] at hstart
      refine ⟨⟨hfirst, (hmem.mp hsuffix).1, (hmem.mp hvalue).1, ?_⟩, hstart, ?_,
        (hmem.mp hsuffix).2, (hmem.mp hvalue).2⟩
      · exact (entriesLength_dropLast_le cur).trans_lt hstart
      · exact (computeOverlap_le_left _ _).trans_lt hfirst
    · rintro ⟨⟨hfirst, hsuffix, hvalue, -⟩, hstart, -, hsuffix', hvalue'⟩
      rw [← firstKeyOf_concat hcur e] at hfirst hsuffix hsuffix'
      refine ⟨hfirst, hmem.mpr ⟨hsuffix, hsuffix'⟩, hmem.mpr ⟨hvalue, hvalue'⟩, ?_⟩
      rwa [List.dropLast_concat]

/-- The entry count needs no condition of its own. -/
theorem Entered.length_lt {es : List Entry} (h : Entered es) : es.length < 65536 := by
  rcases List.eq_nil_or_concat es with rfl | ⟨init, e, rfl⟩
  · exact Nat.zero_lt_succ _
  · have hstart := h.start
    rw [List.concat_eq_append, List.dropLast_concat] at hstart
    have hlen := mul_length_le_entriesLength init
    rw [List.length_concat]
    omega

/-! ## How entries are packed into blocks -/

/-- A block with the entries `cur` has no room for `e`. -/
def Full (blockSize : ℕ) (cur : List Entry) (e : Entry) : Prop :=
  cur ≠ [] ∧
    blockSize < 2 + cur.length * 2 + entriesLength cur + e.1.rawLen + e.2.length + 2 * 3

instance (blockSize : ℕ) (cur : List Entry) (e : Entry) : Decidable (Full blockSize cur e) :=
  inferInstanceAs (Decidable (_ ∧ _))

/-- The blocks that some entries are packed into, when the entries `cur` are in the current one. -/
def packs (blockSize : ℕ) : List Entry → List Entry → List (List Entry)
  | cur, [] => if cur = [] then [] else [cur]
  | cur, e :: es =>
    if Full blockSize cur e then cur :: packs blockSize [e] es else packs blockSize (cur ++ [e]) es

/-- The current block starts the first one. -/
theorem entered_of_packs {blockSize : ℕ} (es : List Entry) {cur : List Entry}
    (h : ∀ block ∈ packs blockSize cur es, Entered block) : Entered cur := by
  induction es generalizing cur with
  | nil =>
    rcases eq_or_ne cur [] with rfl | hcur
    · exact entered_nil
    · rw [packs, if_neg hcur] at h
      exact h cur (List.mem_singleton_self cur)
  | cons e es ih =>
    rw [packs] at h
    split at h
    · exact h cur List.mem_cons_self
    · exact (entered_concat_iff.mp (ih h)).1

/-- No entry is lost. -/
theorem flatten_packs (blockSize : ℕ) (es cur : List Entry) :
    (packs blockSize cur es).flatten = cur ++ es := by
  induction es generalizing cur with
  | nil =>
    rw [packs, List.append_nil]
    split
    · rename_i hcur
      rw [hcur]
      rfl
    · exact List.flatten_singleton
  | cons e es ih =>
    rw [packs]
    split
    · rw [List.flatten_cons, ih]
      rfl
    · rw [ih, List.append_assoc]
      rfl

theorem ne_nil_of_mem_packs {blockSize : ℕ} (es : List Entry) {cur block : List Entry}
    (h : block ∈ packs blockSize cur es) : block ≠ [] := by
  induction es generalizing cur with
  | nil =>
    rw [packs] at h
    split at h
    · cases h
    · rename_i hcur
      rw [List.mem_singleton.mp h]
      exact hcur
  | cons e es ih =>
    rw [packs] at h
    split at h
    · rename_i hfull
      rcases List.mem_cons.mp h with rfl | h
      · exact hfull.1
      · exact ih h
    · exact ih h

/-- The length of an encoded block and its checksum. -/
def encodedLength (es : List Entry) : ℕ := entriesLength es + 4 + 2 * es.length + 2 + 4

/-- The length of the encoded metadata of some blocks. -/
def metaLength (blocks : List (List Entry)) : ℕ :=
  4 + (blocks.map fun es => 24 + (firstKeyOf es).keyLen + (lastKeyOf es).keyLen).sum + 4

/-- Where the section of the filter starts. -/
def bloomOffset (blocks : List (List Entry)) : ℕ :=
  (blocks.map encodedLength).sum + metaLength blocks + 4

/-- The length of the encoded filter over so many keys. -/
def bloomLength [Platform] (numKeys : ℕ) : ℕ :=
  Bloom.filterBytes numKeys (Platform.bloomBitsPerKey numKeys) + 1 + 4

/-- What the metadata and the positions of the sections can hold, besides the first keys of the
blocks. -/
structure TrailerFits [Platform] (blocks : List (List Entry)) : Prop where
  lastKey : ∀ es ∈ blocks, (lastKeyOf es).keyLen < 65536
  bloomOffset_lt : bloomOffset blocks < 2 ^ 32
  bloomLength_lt : bloomLength blocks.flatten.length < 2 ^ 32

/-- What a table can hold of its metadata. -/
structure MetaFits [Platform] (blocks : List (List Entry)) : Prop extends TrailerFits blocks where
  firstKey : ∀ es ∈ blocks, (firstKeyOf es).keyLen < 65536

/-- **What a table can hold.** -/
structure TableFits [Platform] (blockSize : ℕ) (es : List Entry) : Prop where
  entered : ∀ block ∈ packs blockSize [] es, Entered block
  trailer : TrailerFits (packs blockSize [] es)

theorem lastKeyOf_lt {es : List Entry} (h : ∀ e ∈ es, e.1.keyLen < 65536) :
    (lastKeyOf es).keyLen < 65536 := by
  unfold lastKeyOf
  cases hlast : es.getLast? with
  | none => exact Nat.zero_lt_succ _
  | some z => exact h z (List.mem_of_getLast? hlast)

/-- A block of at most 65554 bytes takes a second entry only before offset 65536. -/
theorem entered_packs {blockSize : ℕ} (hsize : blockSize ≤ 65554) (es : List Entry)
    {cur : List Entry} (hes : ∀ e ∈ es, Encodable e) (hcur : Entered cur) :
    ∀ block ∈ packs blockSize cur es, Entered block := by
  induction es generalizing cur with
  | nil =>
    rw [packs]
    split
    · simp
    · exact List.forall_mem_singleton.mpr hcur
  | cons e es ih =>
    have he := hes e List.mem_cons_self
    have htail : ∀ a ∈ es, Encodable a := fun a ha => hes a (List.mem_cons_of_mem _ ha)
    rw [packs]
    split
    · have hnext : Entered ([] ++ [e]) :=
        entered_concat_iff.mpr ⟨entered_nil, Nat.zero_lt_succ _, he.fitsAfter _⟩
      exact List.forall_mem_cons.mpr ⟨hcur, ih htail hnext⟩
    · rename_i hroom
      refine ih htail (entered_concat_iff.mpr ⟨hcur, ?_, he.fitsAfter _⟩)
      rcases eq_or_ne cur [] with rfl | hne
      · exact Nat.zero_lt_succ _
      · have hlen := List.length_pos_iff.mpr hne
        have hkey : 0 < e.1.keyLen := List.length_pos_iff.mpr he.key_ne
        have hfit := not_and.mp hroom hne
        unfold Key.rawLen at hfit
        unfold Key.keyLen at hkey
        omega

/-- **Short keys and values in blocks of at most 65554 bytes.** -/
theorem tableFits_of_le [Platform] {blockSize : ℕ} (hsize : blockSize ≤ 65554) {es : List Entry}
    (hes : ∀ e ∈ es, Encodable e) (hoffset : bloomOffset (packs blockSize [] es) < 2 ^ 32)
    (hlength : bloomLength es.length < 2 ^ 32) : TableFits blockSize es where
  entered := entered_packs hsize es hes entered_nil
  trailer := by
    have hflat : (packs blockSize [] es).flatten = es := flatten_packs _ _ _
    refine ⟨fun block hblock => lastKeyOf_lt fun e he => ?_, hoffset, by rwa [hflat]⟩
    refine Nat.lt_succ_of_le (hes e ?_).key_le
    rw [← hflat]
    exact List.mem_flatten.mpr ⟨block, hblock, he⟩

/-! ## When every cast preserves its argument -/

theorem BlockBuilder.full_of_add {bb bb' : BlockBuilder} {key : Key} {value : Bytes}
    (hadd : bb.add key value = .ok (false, bb')) :
    bb.blockSize < bb.estimatedSize + key.rawLen + value.length + 2 * 3 := by
  unfold BlockBuilder.add at hadd
  split at hadd
  · cases hadd
  · split at hadd
    · rename_i hfull
      exact hfull.1
    · simp at hadd

theorem Bloom.length_encode_build [Platform] (hashes : List UInt32) :
    (Bloom.buildFromKeyHashes hashes (Platform.bloomBitsPerKey hashes.length)).encode.length =
      bloomLength hashes.length := by
  have hbits := Bloom.bitLen_build hashes (Platform.bloomBitsPerKey hashes.length)
  unfold Bloom.bitLen at hbits
  rw [Bloom.encode, length_withChecksum, List.length_append, List.length_singleton]
  unfold bloomLength
  omega

theorem BlockMeta.length_encodeOne (m : BlockMeta) :
    m.encodeOne.length = 24 + m.firstKey.keyLen + m.lastKey.keyLen := by
  simp only [encodeOne, encodeKey, List.length_append, length_beBytes, Key.keyLen]
  omega

section

variable {metas : List BlockMeta} {blocks : List (List Entry)}

theorem BlockMeta.Describes.keys {m : BlockMeta} {es : List Entry} (h : m.Describes es) :
    m.firstKey = firstKeyOf es ∧ m.lastKey = lastKeyOf es := by
  obtain ⟨⟨a, ha, hfirst⟩, z, hz, hlast⟩ := h
  unfold firstKeyOf lastKeyOf
  rw [Option.mem_def.mp ha, Option.mem_def.mp hz]
  exact ⟨hfirst, hlast⟩

theorem BlockMeta.length_encodeBlockMeta [Platform] (h : List.Forall₂ BlockMeta.Describes metas blocks) :
    (BlockMeta.encodeBlockMeta metas).length = metaLength blocks := by
  have hsum : (metas.flatMap BlockMeta.encodeOne).length =
      (blocks.map fun es => 24 + (firstKeyOf es).keyLen + (lastKeyOf es).keyLen).sum := by
    induction h with
    | nil => rfl
    | cons hd _ ih =>
      obtain ⟨hfirst, hlast⟩ := hd.keys
      rw [List.flatMap_cons, List.length_append, ih, List.map_cons, List.sum_cons,
        BlockMeta.length_encodeOne, hfirst, hlast]
  rw [BlockMeta.encodeBlockMeta, length_withChecksum, BlockMeta.encodeBody, List.length_append,
    length_beBytes, hsum]
  rfl

end

namespace SsTableBuilder

variable [Platform] {b : SsTableBuilder} {done : List (List Entry)} {cur : List Entry} {e : Entry}
  {bb : BlockBuilder}

/-- The lengths of the bytes of a builder. -/
structure Sized (b : SsTableBuilder) (done : List (List Entry)) (cur : List Entry) : Prop where
  current : b.builder.data.length = entriesLength cur
  data : b.data.length = (done.map encodedLength).sum

omit [Platform] in
theorem new_sized (blockSize : ℕ) : (new blockSize).Sized [] [] where
  current := rfl
  data := rfl

theorem Tracks.builder_firstKey (h : b.Tracks done cur) : b.builder.firstKey = firstKeyOf cur := by
  cases cur with
  | nil => exact (h.empty rfl).2.1
  | cons a l => exact h.blockFirst a rfl

theorem Tracks.full_iff (h : b.Tracks done cur) (hs : b.Sized done cur) {added : Bool}
    (hadd : b.builder.add e.1 e.2 = .ok (added, bb)) : Full b.blockSize cur e ↔ added = false := by
  have hsize : b.builder.estimatedSize = 2 + cur.length * 2 + entriesLength cur := by
    unfold BlockBuilder.estimatedSize
    rw [h.offsets, hs.current]
  cases added with
  | true =>
    refine iff_of_false (fun hfull => ?_) Bool.noConfusion
    have hempty : b.builder.isEmpty = false := by
      rw [← Bool.not_eq_true, h.isEmpty_iff]
      exact hfull.1
    have hroom := (BlockBuilder.add_eq_true hadd).1 hempty
    rw [hsize, h.blockSize] at hroom
    exact absurd hfull.2 (not_lt.mpr hroom)
  | false =>
    refine iff_of_true ⟨h.ne_nil_of_full hadd, ?_⟩ rfl
    have hfull := BlockBuilder.full_of_add hadd
    rwa [hsize, h.blockSize] at hfull

theorem Sized.push (h : b.Sized done cur) (htracks : b.Tracks done cur)
    (hadd : b.builder.add e.1 e.2 = .ok (true, bb)) : (b.push bb e.1).Sized done (cur ++ [e]) := by
  obtain ⟨-, rfl⟩ := BlockBuilder.add_eq_true hadd
  refine ⟨?_, h.data⟩
  simp only [SsTableBuilder.push, List.length_append, length_entryBytes]
  rw [h.current, htracks.builder_firstKey, entriesLength_concat]
  rfl

theorem Sized.finishBlock (h : b.Sized done cur) (htracks : b.Tracks done cur) :
    b.finishBlock.data.length = ((done ++ [cur]).map encodedLength).sum := by
  simp only [SsTableBuilder.finishBlock, List.length_append, length_withChecksum, Block.encode,
    length_beBytes, Block.length_flatMap_beBytes, BlockBuilder.build]
  rw [h.data, h.current, htracks.offsets, List.map_append, List.sum_append, List.map_singleton,
    List.sum_singleton]
  rfl

theorem Sized.finish_push (h : b.Sized done cur) (htracks : b.Tracks done cur)
    (hadd : (BlockBuilder.new b.blockSize).add e.1 e.2 = .ok (true, bb)) :
    (b.finishBlock.push bb e.1).Sized (done ++ [cur]) [e] := by
  obtain ⟨-, rfl⟩ := BlockBuilder.add_eq_true hadd
  refine ⟨?_, h.finishBlock htracks⟩
  simp only [SsTableBuilder.push, List.length_append, length_entryBytes]
  exact Nat.zero_add _

/-- The finished data section is made of the packed blocks. -/
theorem Sized.closed (h : b.Sized done cur) (htracks : b.Tracks done cur) :
    b.closed.data.length = ((done ++ packs b.blockSize cur []).map encodedLength).sum ∧
      List.Forall₂ BlockMeta.Describes b.closed.metas (done ++ packs b.blockSize cur []) := by
  rw [packs]
  split
  · rename_i hcur
    rw [List.append_nil, SsTableBuilder.closed, if_pos (htracks.isEmpty_iff.mpr hcur)]
    exact ⟨h.data, htracks.metas⟩
  · rename_i hcur
    rw [htracks.closed_eq hcur]
    exact ⟨h.finishBlock htracks, List.rel_append htracks.metas (.cons (htracks.describes hcur) .nil)⟩

/-- The lengths of the sections. -/
theorem Sized.sections (h : b.Sized done cur) (htracks : b.Tracks done cur) :
    b.closed.data.length = ((done ++ packs b.blockSize cur []).map encodedLength).sum ∧
      (BlockMeta.encodeBlockMeta b.closed.metas).length =
        metaLength (done ++ packs b.blockSize cur []) ∧
      b.closed.bloom.encode.length =
        bloomLength (done ++ packs b.blockSize cur []).flatten.length := by
  obtain ⟨hdata, hdesc⟩ := h.closed htracks
  refine ⟨hdata, BlockMeta.length_encodeBlockMeta hdesc, ?_⟩
  rw [SsTableBuilder.bloom, Bloom.length_encode_build, closed_keyHashes, htracks.keyHashes,
    List.length_map, List.flatten_append, flatten_packs, List.append_nil]

/-- The metadata and the positions of the sections are encoded without loss. -/
theorem Sized.trailer (h : b.Sized done cur) (htracks : b.Tracks done cur)
    (hfits : MetaFits (done ++ packs b.blockSize cur [])) :
    (b.closed.metas.length < 256 ^ 4 ∧ ∀ m ∈ b.closed.metas, m.Fits) ∧
      b.closed.data.length < 256 ^ 4 ∧ b.closed.bloom.encode.length < 256 ^ 4 ∧
      b.closed.data.length + (BlockMeta.encodeBlockMeta b.closed.metas).length + 4 < 256 ^ 4 := by
  obtain ⟨-, hdesc⟩ := h.closed htracks
  obtain ⟨hdata, hmeta, hbloom⟩ := h.sections htracks
  obtain ⟨⟨hlast, hoffset, hlength⟩, hfirst⟩ := hfits
  have hcount := BlockMeta.length_le_encodeBlockMeta b.closed.metas
  rw [hmeta] at hcount
  rw [hdata, hmeta, hbloom]
  unfold bloomOffset at hoffset
  refine ⟨⟨by omega, fun m hm => ?_⟩, by omega, hlength, hoffset⟩
  obtain ⟨es, hes, hkeys⟩ := exists_of_mem_left hdesc hm
  have hoff := closed_offset_le htracks m hm
  rw [hdata] at hoff
  refine ⟨by omega, ?_, ?_⟩
  · rw [hkeys.keys.1]
    exact hfirst es hes
  · rw [hkeys.keys.2]
    exact hlast es hes

/-- The casts of `build`. -/
theorem Sized.buildCasts_iff (h : b.Sized done cur) (htracks : b.Tracks done cur)
    (hdone : ∀ block ∈ done, Entered block) (hcur : Entered cur) :
    (∀ c ∈ b.buildCasts, c.Preserves) ↔ TrailerFits (done ++ packs b.blockSize cur []) := by
  obtain ⟨-, hdesc⟩ := h.closed htracks
  obtain ⟨hdata, hmeta, hbloom⟩ := h.sections htracks
  have hentered : ∀ block ∈ done ++ packs b.blockSize cur [], Entered block := by
    rw [packs]
    refine List.forall_mem_append.mpr ⟨hdone, ?_⟩
    split
    · simp
    · exact List.forall_mem_singleton.mpr hcur
  rw [buildCasts_preserve_iff]
  constructor
  · rintro ⟨-, ⟨-, hfits⟩, -, hlength, hoffset⟩
    rw [hbloom] at hlength
    rw [hdata, hmeta] at hoffset
    refine ⟨fun es hes => ?_, hoffset, hlength⟩
    obtain ⟨m, hm, hkeys⟩ := exists_of_mem_right hdesc hes
    rw [← hkeys.keys.2]
    exact (hfits m hm).lastKey
  · intro htrailer
    refine ⟨fun _ => ?_, h.trailer htracks ⟨htrailer, fun es hes => (hentered es hes).firstKey⟩⟩
    rw [htracks.offsets]
    exact hcur.length_lt

/-- The casts of an entry that the current block takes. -/
theorem Sized.entryCasts_iff (h : b.Sized done cur) (htracks : b.Tracks done cur) (hcur : Entered cur) :
    (∀ c ∈ b.builder.casts e.1 e.2, c.Preserves) ↔ Entered (cur ++ [e]) := by
  rw [BlockBuilder.casts_preserve_iff, h.current, htracks.builder_firstKey, entered_concat_iff]
  exact (and_iff_right hcur).symm

omit [Platform] in
/-- The casts of an entry that starts a block. -/
theorem newCasts_iff (blockSize : ℕ) (e : Entry) :
    (∀ c ∈ (BlockBuilder.new blockSize).casts e.1 e.2, c.Preserves) ↔ Entered [e] := by
  rw [BlockBuilder.casts_preserve_iff, ← List.nil_append [e], entered_concat_iff]
  exact (and_iff_right entered_nil).symm

/-- **The casts of adding some entries and building the table.** -/
theorem Sized.casts_iff (es : List Entry) {b : SsTableBuilder} {done : List (List Entry)}
    {cur : List Entry} (h : b.Sized done cur) (htracks : b.Tracks done cur)
    (hes : ∀ e ∈ es, e.1.keyRef ≠ []) (hdone : ∀ block ∈ done, Entered block)
    (hcur : Entered cur) : (∀ c ∈ b.casts es, c.Preserves) ↔
      (∀ block ∈ packs b.blockSize cur es, Entered block) ∧
        TrailerFits (done ++ packs b.blockSize cur es) := by
  induction es generalizing b done cur with
  | nil =>
    rw [casts, h.buildCasts_iff htracks hdone hcur]
    refine (and_iff_right ?_).symm
    rw [packs]
    split
    · simp
    · exact List.forall_mem_singleton.mpr hcur
  | cons e es ih =>
    have he : e.1.keyRef ≠ [] := hes e List.mem_cons_self
    have htail : ∀ a ∈ es, a.1.keyRef ≠ [] := fun a ha => hes a (List.mem_cons_of_mem _ ha)
    rcases add_cases he b e.2 with ⟨bb, hadd, heq⟩ | ⟨hfull, bb, hadd, heq⟩
    · have hroom : ¬ Full b.blockSize cur e := by
        rw [htracks.full_iff h hadd]
        exact Bool.noConfusion
      rw [casts_cons_of_room es hadd heq, List.forall_mem_append, h.entryCasts_iff htracks hcur, packs,
        if_neg hroom]
      by_cases hnext : Entered (cur ++ [e])
      · rw [and_iff_right hnext]
        exact ih (h.push htracks hadd) (htracks.push he hadd) htail hdone hnext
      · exact iff_of_false (fun hall => hnext hall.1) fun hall => hnext (entered_of_packs es hall.1)
    · have hcurne := htracks.ne_nil_of_full hfull
      have hroom : Full b.blockSize cur e := (htracks.full_iff h hfull).mpr rfl
      have hdone' : ∀ block ∈ done ++ [cur], Entered block :=
        List.forall_mem_append.mpr ⟨hdone, List.forall_mem_singleton.mpr hcur⟩
      have hcount : b.builder.build.offsets.length < 65536 := by
        rw [show b.builder.build.offsets = b.builder.offsets from rfl, htracks.offsets]
        exact hcur.length_lt
      rw [casts_cons_of_full es hfull heq, List.forall_mem_append, List.forall_mem_append,
        Block.casts_preserve_iff, and_iff_right hcount, newCasts_iff, packs, if_pos hroom,
        List.forall_mem_cons, and_iff_right hcur]
      by_cases hnext : Entered [e]
      · rw [and_iff_right hnext]
        have hrest := ih (h.finish_push htracks hadd) (htracks.finish_push hcurne he hadd) htail
          hdone' hnext
        rw [List.append_assoc] at hrest
        exact hrest
      · exact iff_of_false (fun hall => hnext hall.1) fun hall => hnext (entered_of_packs es hall.1)

/-- **Adding some entries** gives the packed blocks, and their bytes if the entries fit. -/
theorem Sized.addAll (es : List Entry) {b : SsTableBuilder} {done : List (List Entry)}
    {cur : List Entry} (h : b.Sized done cur) (htracks : b.Tracks done cur)
    (hes : ∀ e ∈ es, e.1.keyRef ≠ []) :
    ∃ b' done' cur', b.addAll es = .ok b' ∧ b'.Tracks done' cur' ∧ b'.Sized done' cur' ∧
      done' ++ packs b'.blockSize cur' [] = done ++ packs b.blockSize cur es ∧
      (b.Written done cur → (∀ block ∈ packs b.blockSize cur es, Entered block) →
        b'.Written done' cur') := by
  induction es generalizing b done cur with
  | nil => exact ⟨b, done, cur, rfl, htracks, h, rfl, fun hw _ => hw⟩
  | cons e es ih =>
    have he : e.1.keyRef ≠ [] := hes e List.mem_cons_self
    have htail : ∀ a ∈ es, a.1.keyRef ≠ [] := fun a ha => hes a (List.mem_cons_of_mem _ ha)
    rcases add_cases he b e.2 with ⟨bb, hadd, heq⟩ | ⟨hfull, bb, hadd, heq⟩
    · have hroom : ¬ Full b.blockSize cur e := by
        rw [htracks.full_iff h hadd]
        exact Bool.noConfusion
      obtain ⟨b', done', cur', hall, htr, hsized, hpacks, hwritten⟩ :=
        ih (h.push htracks hadd) (htracks.push he hadd) htail
      refine ⟨b', done', cur', ?_, htr, hsized, ?_, fun hw hentered => ?_⟩
      · rw [SsTableBuilder.addAll, heq]
        exact hall
      · rw [hpacks, packs, if_neg hroom]
        rfl
      · rw [packs, if_neg hroom] at hentered
        have hnext : Entered (cur ++ [e]) := entered_of_packs es hentered
        have hcur : Entered cur := (entered_concat_iff.mp hnext).1
        exact hwritten (hw.push he hadd ((h.entryCasts_iff htracks hcur).mpr hnext)) hentered
    · have hcur := htracks.ne_nil_of_full hfull
      have hroom : Full b.blockSize cur e := (htracks.full_iff h hfull).mpr rfl
      obtain ⟨b', done', cur', hall, htr, hsized, hpacks, hwritten⟩ :=
        ih (h.finish_push htracks hadd) (htracks.finish_push hcur he hadd) htail
      refine ⟨b', done', cur', ?_, htr, hsized, ?_, fun hw hentered => ?_⟩
      · rw [SsTableBuilder.addAll, heq]
        exact hall
      · rw [hpacks, packs, if_pos hroom, List.append_assoc]
        rfl
      · rw [packs, if_pos hroom, List.forall_mem_cons] at hentered
        obtain ⟨hentered, hrest⟩ := hentered
        have hcount : b.builder.offsets.length < 65536 := by
          rw [htracks.offsets]
          exact hentered.length_lt
        obtain ⟨-, hfits⟩ := BlockBuilder.casts_preserve_iff.mp
          ((newCasts_iff b.blockSize e).mpr (entered_of_packs es hrest))
        refine hwritten ⟨hw.finishBlock htracks hcur hcount, ?_⟩ hrest
        exact (BlockBuilder.new_holds _).add_of_fits hadd he hfits (Nat.zero_lt_succ _)

/-- A new builder is left with an unfinished block. -/
theorem ne_nil_of_packs {blockSize : ℕ} {es : List Entry} (htracks : b.Tracks done cur)
    (hpacks : done ++ packs b.blockSize cur [] = packs blockSize [] es) (hne : es ≠ []) :
    cur ≠ [] := by
  intro hnil
  have hflat := congrArg List.flatten hpacks
  rw [List.flatten_append, flatten_packs, flatten_packs, (htracks.empty hnil).1, hnil] at hflat
  exact hne hflat.symm

/-- **No cast truncates exactly when the entries fit.** -/
theorem casts_preserve_iff {blockSize : ℕ} {es : List Entry} (hes : ∀ e ∈ es, e.1.keyRef ≠ []) :
    (∀ c ∈ (new blockSize).casts es, c.Preserves) ↔ TableFits blockSize es := by
  rw [(new_sized blockSize).casts_iff es (new_tracks blockSize) hes (by simp) entered_nil]
  exact ⟨fun h => ⟨h.1, h.2⟩, fun h => ⟨h.entered, h.trailer⟩⟩

/-- **Entries that fit their blocks** are written into a builder that is left with an unfinished
block. -/
theorem written_of_entered {blockSize : ℕ} {es : List Entry} (hes : ∀ e ∈ es, e.1.keyRef ≠ [])
    (hne : es ≠ []) (hentered : ∀ block ∈ packs blockSize [] es, Entered block) :
    ∃ b done cur, (new blockSize).addAll es = .ok b ∧ b.Tracks done cur ∧ b.Sized done cur ∧
      b.Written done cur ∧ cur ≠ [] ∧ done.flatten ++ cur = es ∧
      done ++ packs b.blockSize cur [] = packs blockSize [] es := by
  obtain ⟨b, done, cur, hadd, htracks, hsized, hpacks, hwritten⟩ :=
    (new_sized blockSize).addAll es (new_tracks blockSize) hes
  have hflat := congrArg List.flatten hpacks
  rw [List.flatten_append, flatten_packs, List.append_nil, List.nil_append, flatten_packs,
    List.nil_append] at hflat
  exact ⟨b, done, cur, hadd, htracks, hsized, hwritten (new_written blockSize) hentered,
    ne_nil_of_packs htracks hpacks hne, hflat, hpacks⟩

/-- **The table that is built from entries that fit their blocks holds them.** -/
theorem build_hasEntries {blockSize : ℕ} {es : List Entry} {b : SsTableBuilder} (hne : es ≠ [])
    (hsorted : SortedRun es) (hadd : (new blockSize).addAll es = .ok b)
    (hentered : ∀ block ∈ packs blockSize [] es, Entered block) (id : ℕ) :
    (b.build id).HasEntries es := by
  obtain ⟨b', done, cur, hadd', htracks, -, hw, hcur, rfl, hpacks⟩ :=
    written_of_entered (keys_ne_of_addAll hadd) hne hentered
  cases hadd.symm.trans hadd'
  have hlast : Entered cur := by
    refine hentered cur ?_
    rw [← hpacks, packs, if_neg hcur]
    exact List.mem_append_right _ List.mem_cons_self
  have hcount : b.builder.offsets.length < 65536 := by
    rw [htracks.offsets]
    exact hlast.length_lt
  exact ⟨_, hw.holds htracks hcur hsorted hcount id, by simp⟩

/-- **Then the table reads back as the entries.** -/
theorem readsBack_of_casts {blockSize : ℕ} {es : List Entry} (hes : ∀ e ∈ es, e.1.keyRef ≠ [])
    (hne : es ≠ []) (hsorted : SortedRun es)
    (hcasts : ∀ c ∈ (new blockSize).casts es, c.Preserves) :
    ∃ b, (new blockSize).addAll es = .ok b ∧ b.ReadsBack es := by
  obtain ⟨hentered, htrailer⟩ := (casts_preserve_iff hes).mp hcasts
  obtain ⟨b, done, cur, hadd, htracks, hsized, hw, hcur, rfl, hpacks⟩ :=
    written_of_entered hes hne hentered
  refine ⟨b, hadd, hw.readsBack htracks hcur hsorted ?_⟩
  rw [← hpacks] at hentered htrailer
  refine (hsized.buildCasts_iff htracks (fun block hblock => ?_) ?_).mpr htrailer
  · exact hentered block (List.mem_append_left _ hblock)
  · refine hentered cur (List.mem_append_right _ ?_)
    rw [packs, if_neg hcur]
    exact List.mem_cons_self

end SsTableBuilder

end TinyLsm

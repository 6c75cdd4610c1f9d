import TinyLsm.Block.RoundTrip
import TinyLsm.Table.Builder

/-!
# Reading the file of a table back

`builtBlocks` are the blocks that a builder closes while entries are added to it.  `Lays b blocks`
says where they are in the data section of the builder; from it `read_block` gives each of them back
(`Lays.readBlock`).

`openFile_addAll` puts this together with the bookkeeping of the builder: the opened table has the
metadata and the filter of the built one, and its blocks are the built ones, which hold exactly the
entries that were added.
-/

namespace TinyLsm

/-! ## The blocks of a builder -/

namespace SsTableBuilder

variable [Platform]

/-- The blocks that are closed while the entries are added, and the last one, which `build`
closes. -/
def builtBlocks (b : SsTableBuilder) : List Entry → List Block
  | [] => if b.builder.isEmpty then [] else [b.builder.build]
  | e :: es =>
    match b.builder.add e.1 e.2, b.add e.1 e.2 with
    | .ok (isAdded, _), .ok b' => (if isAdded then [] else [b.builder.build]) ++ b'.builtBlocks es
    | _, _ => []

/-- The bytes of a block in the file. -/
def blockBytes (block : Block) : Bytes := withChecksum block.encode

/-- Where the block after the blocks `blocks` starts. -/
def dataLength (blocks : List Block) : ℕ := (blocks.flatMap blockBytes).length

theorem dataLength_take_succ {blocks : List Block} {i : ℕ} {block : Block}
    (h : blocks[i]? = some block) :
    dataLength (blocks.take (i + 1)) = dataLength (blocks.take i) + (blockBytes block).length := by
  unfold dataLength
  rw [List.take_add_one, h, Option.toList_some, List.flatMap_append, List.length_append,
    List.flatMap_singleton]

/-- The data section `data`, described by `metas`, is made of the blocks. -/
structure Lays (metas : List BlockMeta) (data : Bytes) (blocks : List Block) : Prop where
  data_eq : data = blocks.flatMap blockBytes
  length_eq : metas.length = blocks.length
  offset_eq : ∀ i m, metas[i]? = some m → m.offset = dataLength (blocks.take i)
  offsets_lt : ∀ block ∈ blocks, block.offsets.length < 65536

variable {metas : List BlockMeta} {data : Bytes} {blocks : List Block}

theorem lays_nil : Lays [] [] [] where
  data_eq := rfl
  length_eq := rfl
  offset_eq i m hm := by simp at hm
  offsets_lt := by simp

/-- Closing a block. -/
theorem Lays.snoc (h : Lays metas data blocks) {block : Block} (hlen : block.offsets.length < 65536)
    {m : BlockMeta} (hm : m.offset = data.length) :
    Lays (metas ++ [m]) (data ++ blockBytes block) (blocks ++ [block]) where
  data_eq := by rw [List.flatMap_append, ← h.data_eq, List.flatMap_singleton]
  length_eq := by rw [List.length_append, List.length_append, h.length_eq]; rfl
  offset_eq i m' hm' := by
    by_cases hi : i < metas.length
    · rw [List.getElem?_append_left hi] at hm'
      rw [List.take_append_of_le_length (by rw [← h.length_eq]; exact hi.le)]
      exact h.offset_eq i m' hm'
    · have hlast : i = metas.length := by
        have hlt := (List.getElem?_eq_some_iff.mp hm').1
        rw [List.length_append, List.length_singleton] at hlt
        omega
      subst hlast
      rw [List.getElem?_concat_length] at hm'
      rw [← Option.some.inj hm', hm, h.length_eq, List.take_left, dataLength, ← h.data_eq]
  offsets_lt b hb := by
    rcases List.mem_append.mp hb with hb | hb
    · exact h.offsets_lt b hb
    · rw [List.mem_singleton.mp hb]
      exact hlen

/-- **`read_block` gives the block back.** -/
theorem Lays.readBlock (h : Lays metas data blocks) {t : SsTable} {rest : Bytes}
    (hfile : t.file = data ++ rest) (hmeta : t.blockMeta = metas)
    (hoff : t.blockMetaOffset = data.length) {i : ℕ} {block : Block} (hi : blocks[i]? = some block) :
    t.readBlock i = .ok block := by
  obtain ⟨hlt, -⟩ := List.getElem?_eq_some_iff.mp hi
  obtain ⟨m, hm⟩ : ∃ m, metas[i]? = some m :=
    ⟨_, List.getElem?_eq_getElem (by rw [h.length_eq]; exact hlt)⟩
  have hstart := h.offset_eq i m hm
  have hnext := dataLength_take_succ hi
  have hstop : t.blockEnd i = dataLength (blocks.take (i + 1)) := by
    unfold SsTable.blockEnd
    rw [hmeta, hoff]
    cases hm' : metas[i + 1]? with
    | some m' => exact h.offset_eq (i + 1) m' hm'
    | none =>
      have hle : blocks.length ≤ i + 1 := by
        rw [← h.length_eq]
        exact List.getElem?_eq_none_iff.mp hm'
      rw [List.take_of_length_le hle, dataLength, ← h.data_eq]
  have hsplit : t.file = (blocks.take i).flatMap blockBytes ++ withChecksum block.encode ++
      ((blocks.drop (i + 1)).flatMap blockBytes ++ rest) := by
    have hblocks : blocks = blocks.take i ++ (block :: blocks.drop (i + 1)) := by
      have hdrop := List.drop_eq_getElem_cons hlt
      rw [(List.getElem?_eq_some_iff.mp hi).2] at hdrop
      rw [← hdrop, List.take_append_drop]
    rw [hfile, h.data_eq]
    conv_lhs => rw [hblocks]
    rw [List.flatMap_append, List.flatMap_cons, List.append_assoc, List.append_assoc,
      List.append_assoc]
    rfl
  have hread : fileRead t.file m.offset (t.blockEnd i - m.offset) =
      .ok (withChecksum block.encode) := by
    refine fileRead_eq _ _ hsplit hstart ?_
    rw [hstop, hstart, hnext, blockBytes]
    omega
  unfold SsTable.readBlock
  rw [hmeta, hm]
  simp only [Outcome.ofOption_some, bind, Except.bind]
  rw [usizeSub_of_le (by rw [hstop, hstart, hnext]; omega)]
  simp only [hread, verifyChecksum_withChecksum]
  exact Block.decode_encode (h.offsets_lt block (List.mem_of_getElem? hi))

/-! ## Adding entries -/

variable {b b' : SsTableBuilder}

/-- The two ways an `add` goes, by what it does to the blocks. -/
theorem add_inv {key : Key} {value : Bytes} (h : b.add key value = .ok b') :
    ∃ added bb, b.builder.add key value = .ok (added, bb) ∧ b'.blockSize = b.blockSize ∧
      (added = true ∧ b'.builder = bb ∧ b'.metas = b.metas ∧ b'.data = b.data ∨
        added = false ∧ (∃ o, (BlockBuilder.new b.blockSize).add key value = .ok (o, b'.builder)) ∧
          b'.metas = b.finishBlock.metas ∧ b'.data = b.finishBlock.data) := by
  unfold add at h
  obtain ⟨⟨added, bb⟩, hadd, h⟩ := Outcome.bind_eq_ok_iff.mp h
  refine ⟨added, bb, hadd, ?_⟩
  cases added with
  | true =>
    cases h
    exact ⟨rfl, Or.inl ⟨rfl, rfl, rfl, rfl⟩⟩
  | false =>
    simp only [Bool.false_eq_true, if_false] at h
    obtain ⟨⟨o, bb'⟩, hnew, h⟩ := Outcome.bind_eq_ok_iff.mp h
    cases h
    exact ⟨rfl, Or.inr ⟨rfl, ⟨o, hnew⟩, rfl, rfl⟩⟩

/-- The data section of the builder is made of the blocks, and the current block is bounded. -/
structure Closed (b : SsTableBuilder) (blocks : List Block) : Prop where
  lays : Lays b.metas b.data blocks
  current : b.builder.Bounded
  blockSize : b.builder.blockSize = b.blockSize
  blockSize_le : b.blockSize ≤ 65535

theorem Closed.finishBlock (h : b.Closed blocks) :
    Lays b.finishBlock.metas b.finishBlock.data (blocks ++ [b.builder.build]) :=
  h.lays.snoc (h.current.length_lt (by rw [h.blockSize]; exact h.blockSize_le)) rfl

/-- **One `add`** closes the current block or leaves it open. -/
theorem Closed.add {key : Key} {value : Bytes} (h : b.Closed blocks)
    (hadd : b.add key value = .ok b') : ∃ added bb, b.builder.add key value = .ok (added, bb) ∧
      b'.Closed (blocks ++ if added then [] else [b.builder.build]) := by
  obtain ⟨added, bb, hbuilder, hsize, hcase⟩ := add_inv hadd
  refine ⟨added, bb, hbuilder, ?_⟩
  rcases hcase with ⟨rfl, rfl, hmetas, hdata⟩ | ⟨rfl, ⟨o, hnew⟩, hmetas, hdata⟩
  · refine ⟨?_, .add hbuilder, ?_, by rw [hsize]; exact h.blockSize_le⟩
    · rw [if_pos rfl, List.append_nil, hmetas, hdata]
      exact h.lays
    · rw [BlockBuilder.blockSize_add hbuilder, hsize, h.blockSize]
  · have hsize' := BlockBuilder.blockSize_add hnew
    refine ⟨?_, ?_, ?_, by rw [hsize]; exact h.blockSize_le⟩
    · rw [if_neg Bool.false_ne_true, hmetas, hdata]
      exact h.finishBlock
    · cases o with
      | true => exact .add hnew
      | false =>
        rw [(BlockBuilder.add_eq_false hnew).2]
        exact BlockBuilder.new_bounded _
    · rw [hsize', hsize]
      rfl

/-- **Any number of them**: the finished data section is made of the built blocks. -/
theorem Closed.addAll {es : List Entry} (h : b.Closed blocks) (hadd : b.addAll es = .ok b') :
    Lays b'.closed.metas b'.closed.data (blocks ++ b.builtBlocks es) := by
  induction es generalizing b blocks with
  | nil =>
    cases hadd
    unfold builtBlocks closed
    cases hempty : b'.builder.isEmpty with
    | true =>
      rw [if_pos rfl, if_pos rfl, List.append_nil]
      exact h.lays
    | false =>
      rw [if_neg Bool.false_ne_true, if_neg Bool.false_ne_true]
      exact h.finishBlock
  | cons e es ih =>
    rw [SsTableBuilder.addAll, Outcome.bind_eq_ok_iff] at hadd
    obtain ⟨b₁, hone, hrest⟩ := hadd
    obtain ⟨added, bb, hbuilder, h₁⟩ := h.add hone
    have hfinal := ih h₁ hrest
    rw [builtBlocks, hbuilder, hone]
    rw [List.append_assoc] at hfinal
    exact hfinal

theorem new_closed {blockSize : ℕ} (h : blockSize ≤ 65535) : (new blockSize).Closed [] where
  lays := lays_nil
  current := BlockBuilder.new_bounded blockSize
  blockSize := rfl
  blockSize_le := h

/-! ## Opening the file -/

/-- The blocks of a table that was built are the built blocks. -/
theorem readBlock_build {blockSize : ℕ} (hb : blockSize ≤ 65535) {es : List Entry}
    (hadd : (new blockSize).addAll es = .ok b) (id : ℕ) :
    (b.build id).numOfBlocks = ((new blockSize).builtBlocks es).length ∧
      ∀ i block, ((new blockSize).builtBlocks es)[i]? = some block →
        (b.build id).readBlock i = .ok block := by
  have hlays := (new_closed hb).addAll hadd
  exact ⟨hlays.length_eq, fun i block hi => hlays.readBlock rfl rfl rfl hi⟩

/-- Read through the table, the blocks hold what was added. -/
theorem entries_builtBlocks {blockSize id : ℕ} {es : List Entry} {bss : List (List Entry)}
    (hb : blockSize ≤ 65535) (hadd : (new blockSize).addAll es = .ok b)
    (hholds : (b.build id).Holds bss) :
    ((new blockSize).builtBlocks es).mapM Block.entries = .ok bss := by
  obtain ⟨hlen, hread⟩ := readBlock_build hb hadd id
  rw [mapM_eq_ok_iff, List.forall₂_iff_get]
  rw [hholds.numOfBlocks_eq] at hlen
  refine ⟨hlen.symm, fun i hi hi' => ?_⟩
  obtain ⟨block, hblock, hbes⟩ := hholds.blocks i _ (List.getElem?_eq_getElem hi')
  rw [hread i _ (List.getElem?_eq_getElem hi)] at hblock
  cases hblock
  exact hbes.entries_eq

/-- **The file of a table opens, and reads back as what was added.** -/
theorem openFile_addAll {blockSize : ℕ} (hb : blockSize ≤ 65535) {es : List Entry} (hne : es ≠ [])
    (hs : SortedRun es) (henc : ∀ e ∈ es, Encodable e) (id id' : ℕ) :
    ∃ b, (new blockSize).addAll es = .ok b ∧ ((b.build id).file.length < 2 ^ 32 →
      ∃ t bss, SsTable.openFile id' (b.build id).file = .ok t ∧
        t.blockMeta = (b.build id).blockMeta ∧
        t.blockMetaOffset = (b.build id).blockMetaOffset ∧
        t.firstKey = (b.build id).firstKey ∧ t.lastKey = (b.build id).lastKey ∧
        t.bloom = (b.build id).bloom ∧
        (∃ a ∈ es.head?, t.firstKey = a.1) ∧ (∃ z ∈ es.getLast?, t.lastKey = z.1) ∧
        t.numOfBlocks = ((new blockSize).builtBlocks es).length ∧
        (∀ i block, ((new blockSize).builtBlocks es)[i]? = some block → t.readBlock i = .ok block) ∧
        ((new blockSize).builtBlocks es).mapM Block.entries = .ok bss ∧ bss.flatten = es) := by
  obtain ⟨b, done, cur, hadd, -, htracks, hflat, hst⟩ :=
    addAll_spec es (new_tracks blockSize) fun e he => (henc e he).key_ne
  simp only [List.flatten_nil, List.append_nil, List.nil_append] at hflat
  have hcur : cur ≠ [] := by
    intro hnil
    rw [hnil, (htracks.empty hnil).1] at hflat
    exact hne hflat.symm
  refine ⟨b, hadd, fun hfile => ?_⟩
  have hopen : SsTable.openFile id' (b.build id).file = .ok _ := openFile_build htracks hcur
    (fun e he => (henc e (by rw [← hflat]; exact he)).key_le) hfile
  have hholds := build_holds htracks (hst (new_stores hb) henc) hcur (hflat ▸ hs) id
  have hentries : (done ++ [cur]).flatten = es := by simp [hflat]
  obtain ⟨hfirst, hlast⟩ := build_keys htracks hcur id
  rw [hentries] at hfirst hlast
  obtain ⟨hlen, -⟩ := readBlock_build hb hadd id
  have hlays := (new_closed hb).addAll hadd
  exact ⟨_, done ++ [cur], hopen, rfl, rfl, rfl, rfl, rfl, hfirst, hlast, hlen,
    fun i block hi => hlays.readBlock rfl rfl rfl hi, entries_builtBlocks hb hadd hholds, hentries⟩

end SsTableBuilder

section

attribute [local instance] shortKeyPlatform

namespace SsTableBuilder

open BlockBuilder (smallBlock)

/-- Blocks of 40 bytes: the three entries need two. -/
theorem openFile_addAll_small : ∃ b t bss, (new 40).addAll smallBlock = .ok b ∧
    SsTable.openFile 9 (b.build 1).file = .ok t ∧ t.blockMeta = (b.build 1).blockMeta ∧
    t.numOfBlocks = 2 ∧ ((new 40).builtBlocks smallBlock).mapM Block.entries = .ok bss ∧
    bss.flatten = smallBlock := by
  have hsize : 40 ≤ 65535 := by decide
  have hne : smallBlock ≠ [] := by decide
  obtain ⟨b, hadd, hopen⟩ := openFile_addAll hsize hne BlockBuilder.sorted_smallBlock
    BlockBuilder.encodable_smallBlock 1 9
  have hlength : ((new 40).addAll smallBlock).toOption.map (fun b => (b.build 1).file.length) =
      some 161 := by
    decide +kernel
  have hfile : (b.build 1).file.length < 2 ^ 32 := by
    rw [hadd] at hlength
    have hlen : (b.build 1).file.length = 161 := Option.some.inj hlength
    omega
  obtain ⟨t, bss, ht, hmeta, -, -, -, -, -, -, hlen, -, hbss, hflat⟩ := hopen hfile
  refine ⟨b, t, bss, hadd, ht, hmeta, hlen.trans ?_, hbss, hflat⟩
  decide +kernel

end SsTableBuilder

end

end TinyLsm

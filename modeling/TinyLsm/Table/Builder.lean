import TinyLsm.Table

/-!
# Building tables (`table/builder.rs`)

`SsTableBuilder` packs entries into blocks.  When a block is full it is closed: its bytes go to
the data section and its first and last key to the metadata.

Two predicates follow a builder that has closed the blocks `done` and is filling `cur`.  `Tracks`
is about the bookkeeping (metadata, first and last key, hashes, largest timestamp) and needs only
non-empty keys.  `Stores` is about the bytes and needs entries and blocks that fit their two-byte
fields.  `add_spec` keeps both.

* `build_holds` --- the table built from a strictly sorted run holds its blocks;
* `openFile_build` --- opening the file gives the table that was built back, except that the
  largest timestamp is recomputed from the metadata.
-/

namespace TinyLsm

/-- A table that is being built: a block that is open, and the bytes of those that are closed. -/
structure SsTableBuilder where
  builder : BlockBuilder
  firstKey : Key
  lastKey : Key
  data : Bytes
  metas : List BlockMeta
  blockSize : ℕ
  keyHashes : List UInt32
  maxTs : UInt64

namespace SsTableBuilder

/-- Nothing was added. -/
def new (blockSize : ℕ) : SsTableBuilder :=
  { builder := BlockBuilder.new blockSize
    firstKey := Key.new
    lastKey := Key.new
    data := []
    metas := []
    blockSize
    keyHashes := []
    maxTs := 0 }

variable [Platform]

/-- Close the current block: its metadata, its bytes and their checksum. -/
def finishBlock (b : SsTableBuilder) : SsTableBuilder :=
  { b with
    metas := b.metas ++ [⟨b.data.length, b.builder.firstKey, b.lastKey⟩]
    data := b.data ++ withChecksum b.builder.build.encode
    builder := BlockBuilder.new b.blockSize }

/-- `add`: into the open block, or into a new one when that is full. -/
def add (b : SsTableBuilder) (key : Key) (value : Bytes) : Outcome SsTableBuilder := do
  let b := { b with
    maxTs := max b.maxTs key.ts
    keyHashes := b.keyHashes ++ [Platform.fingerprint32 key.keyRef]
    firstKey := if b.firstKey.isEmpty then key else b.firstKey }
  let (isAdded, builder) ← b.builder.add key value
  if isAdded then return { b with builder, lastKey := key }
  else
    let b := b.finishBlock
    let (_, builder) ← b.builder.add key value
    return { b with builder, lastKey := key }

/-- The bookkeeping of a key that the block builder `bb` has taken. -/
def push (b : SsTableBuilder) (bb : BlockBuilder) (key : Key) : SsTableBuilder :=
  { b with
    builder := bb
    firstKey := if b.firstKey.isEmpty then key else b.firstKey
    lastKey := key
    keyHashes := b.keyHashes ++ [Platform.fingerprint32 key.keyRef]
    maxTs := max b.maxTs key.ts }

/-- The bytes of the closed blocks. -/
def estimatedSize (b : SsTableBuilder) : ℕ := b.data.length

/-- The filter over all keys. -/
def bloom (b : SsTableBuilder) : Bloom :=
  Bloom.buildFromKeyHashes b.keyHashes (Platform.bloomBitsPerKey b.keyHashes.length)

/-- What follows the blocks in the file. -/
def trailer (b : SsTableBuilder) : Bytes :=
  BlockMeta.encodeBlockMeta b.metas ++ beBytes 4 b.data.length ++
    beBytes 4 b.bloom.encode.length ++ b.bloom.encode ++
    beBytes 4 (b.data.length + (BlockMeta.encodeBlockMeta b.metas).length + 4)

/-- The builder with no block under construction. -/
def closed (b : SsTableBuilder) : SsTableBuilder :=
  if b.builder.isEmpty then b else b.finishBlock

/-- The file of the table and what is kept of it in memory. -/
def build (b : SsTableBuilder) (id : ℕ) : SsTable :=
  { file := b.closed.data ++ b.closed.trailer
    blockMeta := b.closed.metas
    blockMetaOffset := b.closed.data.length
    id
    firstKey := b.closed.firstKey
    lastKey := b.closed.lastKey
    bloom := some b.closed.bloom
    maxTs := b.closed.maxTs }

/-- `add` for every entry of a list. -/
def addAll (b : SsTableBuilder) : List Entry → Outcome SsTableBuilder
  | [] => .ok b
  | e :: es => do (← b.add e.1 e.2).addAll es

end SsTableBuilder

/-! ## The largest timestamp -/

/-- The largest timestamp of a list of entries, as the builder accumulates it. -/
def maxTsOf (es : List Entry) : UInt64 := es.foldl (fun m e => max m e.1.ts) 0

theorem maxTsOf_append_singleton (es : List Entry) (e : Entry) :
    maxTsOf (es ++ [e]) = max (maxTsOf es) e.1.ts := by
  unfold maxTsOf
  rw [List.foldl_append]
  rfl

theorem maxTsOf_le_iff {es : List Entry} {t : UInt64} :
    maxTsOf es ≤ t ↔ ∀ e ∈ es, e.1.ts ≤ t := by
  induction es using List.reverseRecOn with
  | nil =>
    simp only [List.not_mem_nil, false_imp_iff, implies_true, iff_true]
    exact tsRangeEnd_le t
  | append_singleton es e ih =>
    rw [maxTsOf_append_singleton, max_le_iff, ih]
    constructor
    · rintro ⟨hes, he⟩ a ha
      rcases List.mem_append.mp ha with ha | ha
      · exact hes a ha
      · rw [List.mem_singleton.mp ha]
        exact he
    · intro h
      exact ⟨fun a ha => h a (List.mem_append_left _ ha), h e (by simp)⟩

theorem le_maxTsOf {es : List Entry} {e : Entry} (he : e ∈ es) : e.1.ts ≤ maxTsOf es :=
  maxTsOf_le_iff.mp le_rfl e he

theorem exists_ts_eq_maxTsOf {es : List Entry} (hes : es ≠ []) :
    ∃ e ∈ es, e.1.ts = maxTsOf es := by
  induction es using List.reverseRecOn with
  | nil => exact absurd rfl hes
  | append_singleton es e ih =>
    rw [maxTsOf_append_singleton]
    rcases eq_or_ne es [] with rfl | hne
    · exact ⟨e, by simp, (max_eq_right (tsRangeEnd_le _)).symm⟩
    · obtain ⟨a, ha, hmax⟩ := ih hne
      rcases max_choice (maxTsOf es) e.1.ts with h | h
      · exact ⟨a, List.mem_append_left _ ha, by rw [h, hmax]⟩
      · exact ⟨e, by simp, h.symm⟩

/-! ## The data section -/

/-- The bytes `data` are the closed blocks `bss`, described by `metas`. -/
inductive DataSection [Platform] : List BlockMeta → Bytes → List (List Entry) → Prop where
  | nil : DataSection [] [] []
  | snoc {metas : List BlockMeta} {data : Bytes} {bss : List (List Entry)} {b : Block}
      {es : List Entry} {m : BlockMeta} (h : DataSection metas data bss) (hb : b.Holds es)
      (hlen : b.offsets.length < 65536) (hm : m.Describes es) (hoff : m.offset = data.length) :
      DataSection (metas ++ [m]) (data ++ withChecksum b.encode) (bss ++ [es])

section

variable [Platform] {metas : List BlockMeta} {data : Bytes} {bss : List (List Entry)}

theorem DataSection.describes (h : DataSection metas data bss) :
    List.Forall₂ BlockMeta.Describes metas bss := by
  induction h with
  | nil => exact .nil
  | snoc _ _ _ hm _ ih => exact List.rel_append ih (.cons hm .nil)

/-- Where the bytes of block `i` are. -/
theorem DataSection.block_at (h : DataSection metas data bss) {i : ℕ} {es : List Entry}
    (hes : bss[i]? = some es) :
    ∃ (b : Block) (m : BlockMeta) (pre post : Bytes), metas[i]? = some m ∧
      data = pre ++ withChecksum b.encode ++ post ∧ m.offset = pre.length ∧
      (metas[i + 1]?.elim data.length BlockMeta.offset) =
        pre.length + (withChecksum b.encode).length ∧
      b.Holds es ∧ b.offsets.length < 65536 := by
  induction h with
  | nil => simp at hes
  | @snoc metas data bss b₀ es₀ m₀ h hb hlen hm hoff ih =>
    have hlength := h.describes.length_eq
    by_cases hi : i < bss.length
    · rw [List.getElem?_append_left hi] at hes
      obtain ⟨b, m, pre, post, hmi, hdata, hmo, hend, hbes, hblen⟩ := ih hes
      refine ⟨b, m, pre, post ++ withChecksum b₀.encode, ?_, ?_, hmo, ?_, hbes, hblen⟩
      · rw [List.getElem?_append_left (by omega)]
        exact hmi
      · simp [hdata]
      · rw [← hend]
        by_cases hi' : i + 1 < metas.length
        · rw [List.getElem?_append_left hi', List.getElem?_eq_getElem hi']
          rfl
        · have : i + 1 = metas.length := by omega
          rw [this, List.getElem?_concat_length, List.getElem?_eq_none le_rfl]
          exact hoff
    · have hi' : i = bss.length := by
        have := (List.getElem?_eq_some_iff.mp hes).1
        rw [List.length_append, List.length_singleton] at this
        omega
      subst hi'
      rw [List.getElem?_concat_length] at hes
      obtain rfl := Option.some.inj hes
      refine ⟨b₀, m₀, data, [], ?_, by simp, hoff, ?_, hb, hlen⟩
      · rw [← hlength, List.getElem?_concat_length]
      · rw [List.getElem?_eq_none (by rw [List.length_append, List.length_singleton]; omega)]
        simp

/-- A table whose file starts with the data section reads every block. -/
theorem DataSection.readBlock {t : SsTable} {rest : Bytes} (h : DataSection metas data bss)
    (hfile : t.file = data ++ rest) (hmeta : t.blockMeta = metas)
    (hoff : t.blockMetaOffset = data.length) {i : ℕ} {es : List Entry} (hes : bss[i]? = some es) :
    ∃ b, t.readBlock i = .ok b ∧ b.Holds es := by
  obtain ⟨b, m, pre, post, hmi, hdata, hmo, hend, hbes, hblen⟩ := h.block_at hes
  have hblockEnd : t.blockEnd i = pre.length + (withChecksum b.encode).length := by
    rw [← hend]
    unfold SsTable.blockEnd
    rw [hmeta, hoff]
    cases metas[i + 1]? <;> rfl
  have hread : fileRead t.file m.offset (t.blockEnd i - m.offset) =
      .ok (withChecksum b.encode) :=
    fileRead_eq pre (post ++ rest) (by simp [hfile, hdata]) hmo (by omega)
  refine ⟨b, ?_, hbes⟩
  unfold SsTable.readBlock
  rw [hmeta, hmi]
  simp only [Outcome.ofOption_some, bind, Except.bind]
  rw [usizeSub_of_le (by omega)]
  simp only [hread, verifyChecksum_withChecksum]
  exact Block.decode_encode hblen

end

/-! ## What a builder has taken in -/

/-- The first key is set once. -/
theorem firstKey_update {es : List Entry} {k : Key} {e : Entry}
    (hne : ∀ a ∈ es, a.1.keyRef ≠ []) (hnil : es = [] → k = Key.new)
    (hk : ∀ a ∈ es.head?, k = a.1) :
    ∀ a ∈ (es ++ [e]).head?, (if k.isEmpty then e.1 else k) = a.1 := by
  intro a ha
  cases es with
  | nil =>
    rw [hnil rfl]
    cases ha
    rfl
  | cons x l =>
    have hx : k = x.1 := hk x rfl
    have hax : a = x := (Option.some.inj ha).symm
    have hempty : k.isEmpty = false := by
      rw [hx]
      simpa [Key.isEmpty] using hne x List.mem_cons_self
    rw [hempty, hax, hx]
    rfl

namespace SsTableBuilder

variable [Platform] {b b' : SsTableBuilder} {done : List (List Entry)} {cur : List Entry}

/-- The bookkeeping of a builder that has closed the blocks `done` and is filling `cur`. -/
structure Tracks (b : SsTableBuilder) (done : List (List Entry)) (cur : List Entry) : Prop where
  offsets : b.builder.offsets.length = cur.length
  blockSize : b.builder.blockSize = b.blockSize
  empty : cur = [] → done = [] ∧ b.builder.firstKey = Key.new ∧ b.firstKey = Key.new
  blockFirst : ∀ a ∈ cur.head?, b.builder.firstKey = a.1
  firstKey : ∀ a ∈ (done.flatten ++ cur).head?, b.firstKey = a.1
  lastKey : ∀ a ∈ cur.getLast?, b.lastKey = a.1
  metas : List.Forall₂ BlockMeta.Describes b.metas done
  offset_le : ∀ m ∈ b.metas, m.offset ≤ b.data.length
  keyHashes : b.keyHashes = (done.flatten ++ cur).map fun e => Platform.fingerprint32 e.1.keyRef
  maxTs : b.maxTs = maxTsOf (done.flatten ++ cur)
  key_ne : ∀ e ∈ done.flatten ++ cur, e.1.keyRef ≠ []

/-- The bytes of such a builder. -/
structure Stores (b : SsTableBuilder) (done : List (List Entry)) (cur : List Entry) : Prop where
  data : DataSection b.metas b.data done
  current : b.builder.Holds cur
  blockSize_le : b.blockSize ≤ 65535

theorem new_tracks (blockSize : ℕ) : (new blockSize).Tracks [] [] where
  offsets := rfl
  blockSize := rfl
  empty _ := ⟨rfl, rfl, rfl⟩
  blockFirst a ha := by cases ha
  firstKey a ha := by cases ha
  lastKey a ha := by cases ha
  metas := .nil
  offset_le m hm := by cases hm
  keyHashes := rfl
  maxTs := rfl
  key_ne e he := by cases he

theorem new_stores {blockSize : ℕ} (h : blockSize ≤ 65535) : (new blockSize).Stores [] [] where
  data := .nil
  current := BlockBuilder.new_holds blockSize
  blockSize_le := h

theorem Tracks.isEmpty_iff (h : b.Tracks done cur) : b.builder.isEmpty = true ↔ cur = [] := by
  unfold BlockBuilder.isEmpty
  rw [List.isEmpty_iff, ← List.length_eq_zero_iff, h.offsets, List.length_eq_zero_iff]

theorem Tracks.describes (h : b.Tracks done cur) (hcur : cur ≠ []) :
    BlockMeta.Describes ⟨b.data.length, b.builder.firstKey, b.lastKey⟩ cur := by
  obtain ⟨a, ha⟩ : ∃ a, a ∈ cur.head? := by
    cases cur with
    | nil => exact absurd rfl hcur
    | cons a l => exact ⟨a, rfl⟩
  obtain ⟨z, hz⟩ : ∃ z, z ∈ cur.getLast? := ⟨_, List.getLast?_eq_getLast_of_ne_nil hcur⟩
  exact ⟨⟨a, ha, h.blockFirst a ha⟩, z, hz, h.lastKey z hz⟩

/-- The two ways an entry goes in: into the current block, or into a new one after the current
block, which is full, has been closed. -/
theorem add_cases {key : Key} (hkey : key.keyRef ≠ []) (b : SsTableBuilder) (value : Bytes) :
    (∃ bb, b.builder.add key value = .ok (true, bb) ∧ b.add key value = .ok (b.push bb key)) ∨
    (b.builder.add key value = .ok (false, b.builder) ∧
      ∃ bb, (BlockBuilder.new b.blockSize).add key value = .ok (true, bb) ∧
        b.add key value = .ok (b.finishBlock.push bb key)) := by
  obtain ⟨⟨isAdded, bb⟩, hadd⟩ := BlockBuilder.add_ne_error b.builder value hkey
  cases isAdded with
  | true =>
    refine Or.inl ⟨bb, hadd, ?_⟩
    unfold add
    simp only [hadd, bind, Except.bind, if_true]
    rfl
  | false =>
    obtain ⟨-, rfl⟩ := BlockBuilder.add_eq_false hadd
    obtain ⟨bb', hnew⟩ := BlockBuilder.add_new value hkey b.blockSize
    refine Or.inr ⟨hadd, bb', hnew, ?_⟩
    unfold add
    simp only [hadd, bind, Except.bind, Bool.false_eq_true, if_false, finishBlock, hnew]
    rfl

section

variable {e : Entry} {bb : BlockBuilder}

theorem Tracks.firstKey_push (h : b.Tracks done cur) :
    ∀ a ∈ (done.flatten ++ cur ++ [e]).head?,
      (if b.firstKey.isEmpty then e.1 else b.firstKey) = a.1 := by
  refine firstKey_update h.key_ne (fun hnil => ?_) h.firstKey
  exact (h.empty (List.append_eq_nil_iff.mp hnil).2).2.2

theorem Tracks.key_ne_concat (h : b.Tracks done cur) (he : e.1.keyRef ≠ []) :
    ∀ a ∈ done.flatten ++ cur ++ [e], a.1.keyRef ≠ [] := by
  intro a ha
  rw [List.mem_append, List.mem_singleton] at ha
  rcases ha with ha | rfl
  · exact h.key_ne a ha
  · exact he

/-- The current block takes the entry. -/
theorem Tracks.push (h : b.Tracks done cur) (he : e.1.keyRef ≠ [])
    (hadd : b.builder.add e.1 e.2 = .ok (true, bb)) :
    (b.push bb e.1).Tracks done (cur ++ [e]) := by
  have hcurne : ∀ a ∈ cur, a.1.keyRef ≠ [] := fun a ha => h.key_ne a (List.mem_append_right _ ha)
  obtain ⟨-, rfl⟩ := BlockBuilder.add_eq_true hadd
  refine ⟨by simp [SsTableBuilder.push, h.offsets], h.blockSize, by simp, ?_, ?_,
    by simp [SsTableBuilder.push], h.metas, h.offset_le, ?_, ?_, ?_⟩
  · exact firstKey_update hcurne (fun hnil => (h.empty hnil).2.1) h.blockFirst
  · rw [← List.append_assoc]
    exact h.firstKey_push
  · rw [← List.append_assoc, List.map_append, ← h.keyHashes]
    rfl
  · rw [← List.append_assoc, maxTsOf_append_singleton, ← h.maxTs]
    rfl
  · rw [← List.append_assoc]
    exact h.key_ne_concat he

/-- The current block is closed and the next one starts with the entry. -/
theorem Tracks.finish_push (h : b.Tracks done cur) (hcur : cur ≠ []) (he : e.1.keyRef ≠ [])
    (hadd : (BlockBuilder.new b.blockSize).add e.1 e.2 = .ok (true, bb)) :
    (b.finishBlock.push bb e.1).Tracks (done ++ [cur]) [e] := by
  have hflat : (done ++ [cur]).flatten ++ [e] = done.flatten ++ cur ++ [e] := by simp
  obtain ⟨-, rfl⟩ := BlockBuilder.add_eq_true hadd
  refine ⟨rfl, rfl, by simp, ?_, ?_, by simp [SsTableBuilder.push], ?_, ?_, ?_, ?_, ?_⟩
  · intro a ha
    cases ha
    rfl
  · rw [hflat]
    exact h.firstKey_push
  · exact List.rel_append h.metas (.cons (h.describes hcur) .nil)
  · intro m hm
    simp only [SsTableBuilder.push, finishBlock, List.mem_append, List.mem_singleton] at hm
    simp only [SsTableBuilder.push, finishBlock, List.length_append]
    rcases hm with hm | rfl
    · exact (h.offset_le m hm).trans (Nat.le_add_right _ _)
    · exact Nat.le_add_right _ _
  · rw [hflat, List.map_append, ← h.keyHashes]
    rfl
  · rw [hflat, maxTsOf_append_singleton, ← h.maxTs]
    rfl
  · rw [hflat]
    exact h.key_ne_concat he

/-- A current block that refuses an entry is not empty. -/
theorem Tracks.ne_nil_of_full (h : b.Tracks done cur)
    (hadd : b.builder.add e.1 e.2 = .ok (false, bb)) : cur ≠ [] := by
  intro hnil
  have hempty := (BlockBuilder.add_eq_false hadd).1
  rw [h.isEmpty_iff.mpr hnil] at hempty
  cases hempty

end

/-- **One `add`.** -/
theorem add_spec {e : Entry} (h : b.Tracks done cur) (he : e.1.keyRef ≠ []) :
    ∃ b', b.add e.1 e.2 = .ok b' ∧ b'.blockSize = b.blockSize ∧
      ((b'.Tracks done (cur ++ [e]) ∧
          (b.Stores done cur → Encodable e → b'.Stores done (cur ++ [e]))) ∨
        (b'.Tracks (done ++ [cur]) [e] ∧
          (b.Stores done cur → Encodable e → b'.Stores (done ++ [cur]) [e]))) := by
  rcases add_cases he b e.2 with ⟨bb, hadd, heq⟩ | ⟨hfull, bb, hadd, heq⟩
  · refine ⟨_, heq, rfl, Or.inl ⟨h.push he hadd, fun hs henc => ⟨hs.data, ?_, hs.blockSize_le⟩⟩⟩
    refine hs.current.add hadd henc ?_
    rw [h.blockSize]
    exact hs.blockSize_le
  · have hcur := h.ne_nil_of_full hfull
    refine ⟨_, heq, rfl, Or.inr ⟨h.finish_push hcur he hadd, fun hs henc => ?_⟩⟩
    have hlen : b.builder.offsets.length < 65536 :=
      hs.current.length_offsets_lt (by rw [h.blockSize]; exact hs.blockSize_le)
    exact ⟨.snoc hs.data (hs.current.block hcur).1 hlen (h.describes hcur) rfl,
      (BlockBuilder.new_holds _).add hadd henc hs.blockSize_le, hs.blockSize_le⟩

theorem key_ne_of_add {b b' : SsTableBuilder} {key : Key} {value : Bytes}
    (h : b.add key value = .ok b') : key.keyRef ≠ [] := by
  intro hnil
  have hempty : b.builder.add key value = .error (.panic "key must not be empty") :=
    if_pos (by rw [Key.isEmpty, hnil]; rfl)
  unfold add at h
  simp only [hempty, bind, Except.bind] at h
  cases h

/-- `add` panics on an empty key. -/
theorem keys_ne_of_addAll {es : List Entry} {b b' : SsTableBuilder} (h : b.addAll es = .ok b') :
    ∀ e ∈ es, e.1.keyRef ≠ [] := by
  induction es generalizing b with
  | nil => simp
  | cons e es ih =>
    obtain ⟨b₁, hadd, hrest⟩ := Outcome.bind_eq_ok_iff.mp h
    exact List.forall_mem_cons.mpr ⟨key_ne_of_add hadd, ih hrest⟩

theorem addAll_append (b : SsTableBuilder) (es es' : List Entry) :
    b.addAll (es ++ es') = (do (← b.addAll es).addAll es') := by
  induction es generalizing b with
  | nil => rfl
  | cons e es ih =>
    rw [List.cons_append, addAll, addAll]
    cases b.add e.1 e.2 with
    | error f => rfl
    | ok b₁ => exact ih b₁

/-- **Any number of them.** -/
theorem addAll_spec (es : List Entry) {b : SsTableBuilder} {done : List (List Entry)}
    {cur : List Entry} (h : b.Tracks done cur) (hes : ∀ e ∈ es, e.1.keyRef ≠ []) :
    ∃ b' done' cur', b.addAll es = .ok b' ∧ b'.blockSize = b.blockSize ∧ b'.Tracks done' cur' ∧
      done'.flatten ++ cur' = done.flatten ++ cur ++ es ∧
      (b.Stores done cur → (∀ e ∈ es, Encodable e) → b'.Stores done' cur') := by
  induction es generalizing b done cur with
  | nil => exact ⟨b, done, cur, rfl, rfl, h, by simp, fun hs _ => hs⟩
  | cons e es ih =>
    obtain ⟨b₁, hadd, hsize, hcase⟩ := add_spec h (hes e List.mem_cons_self)
    have htail : ∀ a ∈ es, a.1.keyRef ≠ [] := fun a ha => hes a (List.mem_cons_of_mem _ ha)
    rcases hcase with ⟨h₁, hst₁⟩ | ⟨h₁, hst₁⟩
    · obtain ⟨b', done', cur', hall, hsize', htr, hflat, hst⟩ := ih h₁ htail
      refine ⟨b', done', cur', ?_, hsize'.trans hsize, htr, ?_, fun hs henc => ?_⟩
      · rw [addAll, hadd]
        exact hall
      · simpa using hflat
      · exact hst (hst₁ hs (henc e List.mem_cons_self))
          fun a ha => henc a (List.mem_cons_of_mem _ ha)
    · obtain ⟨b', done', cur', hall, hsize', htr, hflat, hst⟩ := ih h₁ htail
      refine ⟨b', done', cur', ?_, hsize'.trans hsize, htr, ?_, fun hs henc => ?_⟩
      · rw [addAll, hadd]
        exact hall
      · simpa using hflat
      · exact hst (hst₁ hs (henc e List.mem_cons_self))
          fun a ha => henc a (List.mem_cons_of_mem _ ha)

/-! ## The finished table -/

/-- Closing the last block. -/
theorem Tracks.closed_eq (h : b.Tracks done cur) (hcur : cur ≠ []) : b.closed = b.finishBlock := by
  refine if_neg ?_
  rw [h.isEmpty_iff]
  exact hcur

theorem closed_maxTs (b : SsTableBuilder) : b.closed.maxTs = b.maxTs := by
  unfold closed
  split <;> rfl

theorem closed_keyHashes (b : SsTableBuilder) : b.closed.keyHashes = b.keyHashes := by
  unfold closed
  split <;> rfl

theorem build_describes (h : b.Tracks done cur) (hcur : cur ≠ []) (id : ℕ) :
    List.Forall₂ BlockMeta.Describes (b.build id).blockMeta (done ++ [cur]) := by
  unfold build
  rw [h.closed_eq hcur]
  exact List.rel_append h.metas (.cons (h.describes hcur) .nil)

@[simp] theorem build_id (b : SsTableBuilder) (id : ℕ) : (b.build id).id = id := rfl

theorem build_maxTs (h : b.Tracks done cur) (id : ℕ) :
    (b.build id).maxTs = maxTsOf (done.flatten ++ cur) := by
  rw [← h.maxTs]
  exact closed_maxTs b

/-- The first and the last key of the table are those of its entries. -/
theorem build_keys (h : b.Tracks done cur) (hcur : cur ≠ []) (id : ℕ) :
    (∃ a ∈ (done ++ [cur]).flatten.head?, (b.build id).firstKey = a.1) ∧
      ∃ a ∈ (done ++ [cur]).flatten.getLast?, (b.build id).lastKey = a.1 := by
  have hflat : (done ++ [cur]).flatten = done.flatten ++ cur := by simp
  have hne : done.flatten ++ cur ≠ [] := by simp [hcur]
  rw [hflat]
  obtain ⟨a, ha⟩ : ∃ a, a ∈ (done.flatten ++ cur).head? := by
    cases hd : done.flatten ++ cur with
    | nil => exact absurd hd hne
    | cons a l => exact ⟨a, rfl⟩
  obtain ⟨z, hz⟩ : ∃ z, z ∈ cur.getLast? := ⟨_, List.getLast?_eq_getLast_of_ne_nil hcur⟩
  unfold build
  rw [h.closed_eq hcur]
  refine ⟨⟨a, ha, h.firstKey a ha⟩, z, ?_, h.lastKey z hz⟩
  rw [List.getLast?_append, Option.mem_def.mp hz]
  rfl

theorem build_bloom (h : b.Tracks done cur) (id : ℕ) :
    (b.build id).BloomBuiltFrom (done.flatten ++ cur) := by
  intro bloom hbloom
  refine ⟨b.keyHashes, Platform.bloomBitsPerKey b.keyHashes.length, ?_, fun e he => ?_⟩
  · rw [← Option.some.inj hbloom, SsTableBuilder.bloom, closed_keyHashes]
  · rw [h.keyHashes]
    exact List.mem_map_of_mem he

/-- What a table holds is decided by its data section. -/
theorem build_holds_of_data (h : b.Tracks done cur) (hcur : cur ≠ [])
    (hdata : DataSection b.closed.metas b.closed.data (done ++ [cur]))
    (hsorted : SortedRun (done.flatten ++ cur)) (id : ℕ) : (b.build id).Holds (done ++ [cur]) := by
  refine ⟨fun i es hes => hdata.readBlock rfl rfl rfl hes, build_describes h hcur id, ?_,
    (build_keys h hcur id).1, (build_keys h hcur id).2⟩
  simpa using hsorted

/-- **The table of a strictly sorted run holds its blocks.** -/
theorem build_holds (h : b.Tracks done cur) (hs : b.Stores done cur) (hcur : cur ≠ [])
    (hsorted : SortedRun (done.flatten ++ cur)) (id : ℕ) :
    (b.build id).Holds (done ++ [cur]) := by
  have hlen : b.builder.offsets.length < 65536 :=
    hs.current.length_offsets_lt (by rw [h.blockSize]; exact hs.blockSize_le)
  refine build_holds_of_data h hcur ?_ hsorted id
  rw [h.closed_eq hcur]
  exact .snoc hs.data (hs.current.block hcur).1 hlen (h.describes hcur) rfl

/-- **A table built from a non-empty strictly sorted run** holds it, has a filter over its keys and
knows its largest timestamp. -/
theorem addAll_build {blockSize : ℕ} (hb : blockSize ≤ 65535) {es : List Entry} (hne : es ≠ [])
    (hs : SortedRun es) (henc : ∀ e ∈ es, Encodable e) :
    ∃ b, (new blockSize).addAll es = .ok b ∧ ∀ id, (b.build id).HasEntries es ∧
      (b.build id).BloomBuiltFrom es ∧ (b.build id).maxTs = maxTsOf es := by
  obtain ⟨b, done, cur, hadd, -, htracks, hflat, hst⟩ :=
    addAll_spec es (new_tracks blockSize) fun e he => (henc e he).key_ne
  simp only [List.flatten_nil, List.append_nil, List.nil_append] at hflat
  have hcur : cur ≠ [] := by
    intro hnil
    have hdone := (htracks.empty hnil).1
    rw [hnil, hdone] at hflat
    exact hne hflat.symm
  refine ⟨b, hadd, fun id => ⟨⟨done ++ [cur], ?_, by simp [hflat]⟩, ?_, ?_⟩⟩
  · exact build_holds htracks (hst (new_stores hb) henc) hcur (hflat ▸ hs) id
  · rw [← hflat]
    exact build_bloom htracks id
  · rw [← hflat]
    exact build_maxTs htracks id

end SsTableBuilder

/-- A table with the given entries. -/
def SsTable.ofEntries [Platform] (blockSize id : ℕ) (es : List Entry) : Outcome SsTable := do
  return (← (SsTableBuilder.new blockSize).addAll es).build id

theorem SsTable.ofEntries_spec [Platform] {blockSize : ℕ} (hb : blockSize ≤ 65535) {es : List Entry}
    (hne : es ≠ []) (hs : SortedRun es) (henc : ∀ e ∈ es, Encodable e) (id : ℕ) :
    ∃ t, SsTable.ofEntries blockSize id es = .ok t ∧ t.HasEntries es ∧ t.BloomBuiltFrom es := by
  obtain ⟨b, hadd, hbuild⟩ := SsTableBuilder.addAll_build hb hne hs henc
  refine ⟨b.build id, ?_, (hbuild id).1, (hbuild id).2.1⟩
  simp only [ofEntries, hadd, bind, Except.bind, pure, Except.pure]

/-! ## Tables, whatever they are built from -/

section

variable [Platform]

theorem SsTable.ofEntries_id {blockSize id : ℕ} {es : List Entry} {t : SsTable}
    (h : SsTable.ofEntries blockSize id es = .ok t) : t.id = id := by
  unfold SsTable.ofEntries at h
  rw [Outcome.bind_eq_ok_iff] at h
  obtain ⟨b, -, hret⟩ := h
  rw [← Except.ok.inj hret, SsTableBuilder.build_id]

/-- A table built from nothing has no block. -/
theorem SsTable.ofEntries_nil {blockSize id : ℕ} {t : SsTable}
    (h : SsTable.ofEntries blockSize id [] = .ok t) : t.blockMeta = [] := by
  rw [← Except.ok.inj h]
  rfl

/-- A table built from something has a block, and its first and last key are those of the
entries. -/
theorem SsTable.ofEntries_ne_nil {blockSize id : ℕ} {es : List Entry} (hne : es ≠ []) {t : SsTable}
    (h : SsTable.ofEntries blockSize id es = .ok t) :
    t.blockMeta ≠ [] ∧ (∃ a ∈ es.head?, t.firstKey = a.1) ∧ ∃ z ∈ es.getLast?, t.lastKey = z.1 := by
  unfold SsTable.ofEntries at h
  rw [Outcome.bind_eq_ok_iff] at h
  obtain ⟨b, hadd, hret⟩ := h
  obtain ⟨b', done, cur, hadd', -, htracks, hflat, -⟩ := SsTableBuilder.addAll_spec es
    (SsTableBuilder.new_tracks blockSize) (SsTableBuilder.keys_ne_of_addAll hadd)
  rw [hadd] at hadd'
  cases hadd'
  simp only [List.flatten_nil, List.append_nil, List.nil_append] at hflat
  have hcur : cur ≠ [] := by
    intro hnil
    rw [hnil, (htracks.empty hnil).1] at hflat
    exact hne hflat.symm
  have hkeys := SsTableBuilder.build_keys htracks hcur id
  rw [List.flatten_append, List.flatten_singleton, hflat] at hkeys
  rw [← Except.ok.inj hret]
  refine ⟨?_, hkeys⟩
  intro hnil
  have hlen := (SsTableBuilder.build_describes htracks hcur id).length_eq
  rw [hnil] at hlen
  simp at hlen

end

/-! ## Opening the file of a table -/

namespace BlockMeta

/-- What the fixed-width fields of the metadata can hold. -/
structure Fits (m : BlockMeta) : Prop where
  offset : m.offset < 256 ^ 4
  firstKey : m.firstKey.keyLen < 256 ^ 2
  lastKey : m.lastKey.keyLen < 256 ^ 2

theorem decodeKey_encodeKey {k : Key} (h : k.keyLen < 256 ^ 2) (rest : Bytes) :
    decodeKey (encodeKey k ++ rest) = .ok (k, rest) := by
  unfold decodeKey encodeKey
  rw [List.append_assoc, getUint_append_of_lt h]
  simp only [bind, Except.bind]
  rw [List.append_assoc, getSlice_append (n := k.keyLen) rfl]
  simp only
  rw [getUint_append_of_lt k.ts.toNat_lt]
  simp [pure, Except.pure]

theorem decodeBody_flatMap {metas : List BlockMeta} (h : ∀ m ∈ metas, m.Fits) (rest : Bytes) :
    decodeBody metas.length (metas.flatMap encodeOne ++ rest) = .ok metas := by
  induction metas with
  | nil => rfl
  | cons m metas ih =>
    have hm := h m List.mem_cons_self
    rw [List.length_cons, decodeBody, List.flatMap_cons, encodeOne]
    simp only [List.append_assoc, bind, Except.bind]
    rw [getUint_append_of_lt hm.offset]
    simp only
    rw [decodeKey_encodeKey hm.firstKey]
    simp only
    rw [decodeKey_encodeKey hm.lastKey]
    simp only
    rw [ih fun m' hm' => h m' (List.mem_cons_of_mem _ hm')]
    rfl

variable [Platform]

theorem decode_encodeBlockMeta {metas : List BlockMeta} (h : ∀ m ∈ metas, m.Fits)
    (hlen : metas.length < 256 ^ 4) : decodeBlockMeta (encodeBlockMeta metas) = .ok metas := by
  unfold decodeBlockMeta encodeBlockMeta
  rw [verifyChecksum_withChecksum]
  simp only [bind, Except.bind, encodeBody]
  rw [getUint_append_of_lt hlen]
  have hbody := decodeBody_flatMap h []
  rwa [List.append_nil] at hbody

theorem length_le_encodeBlockMeta (metas : List BlockMeta) :
    metas.length ≤ (encodeBlockMeta metas).length := by
  have hflat : metas.length ≤ (metas.flatMap encodeOne).length := by
    induction metas with
    | nil => exact Nat.zero_le _
    | cons m metas ih =>
      rw [List.length_cons, List.flatMap_cons, List.length_append, encodeOne, List.length_append,
        length_beBytes]
      omega
  unfold encodeBlockMeta encodeBody
  rw [length_withChecksum, List.length_append]
  omega

end BlockMeta

namespace SsTableBuilder

variable [Platform] {b : SsTableBuilder} {done : List (List Entry)} {cur : List Entry}

/-- A table whose metadata and sections fit opens. -/
theorem openFile_build_of_fits (h : b.Tracks done cur) (hcur : cur ≠ [])
    (hfits : ∀ m ∈ b.closed.metas, m.Fits)
    (hpos : b.closed.data.length + (BlockMeta.encodeBlockMeta b.closed.metas).length + 4 < 256 ^ 4)
    (hbloom : b.closed.bloom.encode.length < 256 ^ 4) (id id' : ℕ) :
    SsTable.openFile id' (b.build id).file =
      .ok { b.build id with id := id', maxTs := SsTable.metaMaxTs (b.build id).blockMeta } := by
  have hdesc := build_describes h hcur id
  obtain ⟨first, hfirst⟩ : ∃ m, b.closed.metas.head? = some m := by
    cases hm : b.closed.metas with
    | nil =>
      have hempty := hdesc.length_eq
      rw [show (b.build id).blockMeta = [] from hm] at hempty
      simp at hempty
    | cons m l => exact ⟨m, rfl⟩
  obtain ⟨last, hlast⟩ : ∃ m, b.closed.metas.getLast? = some m := by
    refine ⟨_, List.getLast?_eq_getLast_of_ne_nil fun hnil => ?_⟩
    rw [hnil] at hfirst
    cases hfirst
  have hopen := @SsTable.openFile_eq _ b.closed.data _ _ _ b.closed.bloom first last
    (b.build id).file id' rfl hpos hbloom
    (BlockMeta.decode_encodeBlockMeta hfits
      (by have := BlockMeta.length_le_encodeBlockMeta b.closed.metas; omega))
    (Bloom.decode_encode _) hfirst hlast
  obtain ⟨⟨a, ha, hak⟩, z, hz, hzk⟩ := build_keys h hcur id
  obtain ⟨a', ha', hak'⟩ := BlockMeta.Describes.head hdesc hfirst
  obtain ⟨z', hz', hzk'⟩ := BlockMeta.Describes.getLast hdesc hlast
  have hf : first.firstKey = (b.build id).firstKey := by
    rw [hak, hak', Option.mem_unique ha ha']
  have hl : last.lastKey = (b.build id).lastKey := by
    rw [hzk, hzk', Option.mem_unique hz hz']
  rw [hopen, hf, hl]
  rfl

/-- Every block starts within the data section. -/
theorem closed_offset_le (h : b.Tracks done cur) :
    ∀ m ∈ b.closed.metas, m.offset ≤ b.closed.data.length := by
  unfold closed
  split
  · exact h.offset_le
  · intro m hm
    simp only [finishBlock, List.mem_append, List.mem_singleton] at hm
    simp only [finishBlock, List.length_append]
    rcases hm with hm | rfl
    · exact (h.offset_le m hm).trans (Nat.le_add_right _ _)
    · exact Nat.le_add_right _ _

/-- **Opening the file of a table gives the table back**, except that the largest timestamp is
recomputed from the first and last keys of the blocks. -/
theorem openFile_build (h : b.Tracks done cur) (hcur : cur ≠ [])
    (hkeys : ∀ e ∈ done.flatten ++ cur, e.1.keyRef.length ≤ 65535) {id id' : ℕ}
    (hfile : (b.build id).file.length < 2 ^ 32) :
    SsTable.openFile id' (b.build id).file =
      .ok { b.build id with id := id', maxTs := SsTable.metaMaxTs (b.build id).blockMeta } := by
  have hlen : (b.build id).file.length =
      b.closed.data.length + (BlockMeta.encodeBlockMeta b.closed.metas).length + 4 + 4 +
        b.closed.bloom.encode.length + 4 := by
    simp only [build, trailer, List.length_append, length_beBytes]
    omega
  refine openFile_build_of_fits h hcur (fun m hm => ?_) (by omega) (by omega) id id'
  obtain ⟨es, hes, ⟨a, ha, hak⟩, z, hz, hzk⟩ := exists_of_mem_left (build_describes h hcur id) hm
  have hmem : ∀ x ∈ es, x.1.keyLen < 256 ^ 2 := by
    intro x hx
    refine Nat.lt_succ_of_le (hkeys x ?_)
    have hflat : x ∈ (done ++ [cur]).flatten := List.mem_flatten.mpr ⟨es, hes, hx⟩
    simpa using hflat
  refine ⟨?_, ?_, ?_⟩
  · have hoff := closed_offset_le h m hm
    omega
  · rw [hak]
    exact hmem a (List.mem_of_mem_head? ha)
  · rw [hzk]
    exact hmem z (List.mem_of_getLast? hz)

end SsTableBuilder

end TinyLsm

import TinyLsm.Block
import TinyLsm.Table.Bloom

/-!
# Tables (`table.rs`)

A table file is a sequence of encoded blocks, each followed by its checksum, then the block
metadata, then the bloom filter:

`block, u32 crc, ..., metadata, u32 metadata offset, u32 filter length, filter, u32 filter offset`.

`SsTable.Holds t bss` says that the table reads back as the blocks `bss`: block `i` is read from
the file and holds `bss[i]`, and the metadata knows the first and last key of each.  The block
cache answers what `read_block` would as long as a table id names one file, so
`read_block_cached` is `readBlock` here.
-/

namespace TinyLsm

/-- Where a block begins and what its first and last keys are. -/
structure BlockMeta where
  offset : ℕ
  firstKey : Key
  lastKey : Key
  deriving DecidableEq, Repr

namespace BlockMeta

/-- A key in the metadata: `u16` length, bytes, `u64` timestamp. -/
def encodeKey (k : Key) : Bytes := beBytes 2 k.keyLen ++ (k.keyRef ++ beBytes 8 k.ts.toNat)

/-- The bytes of one item. -/
def encodeOne (m : BlockMeta) : Bytes :=
  beBytes 4 m.offset ++ (encodeKey m.firstKey ++ encodeKey m.lastKey)

/-- Everything but the checksum. -/
def encodeBody (metas : List BlockMeta) : Bytes :=
  beBytes 4 metas.length ++ metas.flatMap encodeOne

/-- Read a key and its timestamp. -/
def decodeKey (reader : Bytes) : Outcome (Key × Bytes) := do
  let (keyLen, reader) ← getUint 2 reader
  let (key, reader) ← getSlice keyLen reader
  let (ts, reader) ← getUint 8 reader
  return (⟨key, UInt64.ofNat ts⟩, reader)

/-- The loop over the blocks. -/
def decodeBody : ℕ → Bytes → Outcome (List BlockMeta)
  | 0, _ => .ok []
  | n + 1, reader => do
    let (offset, reader) ← getUint 4 reader
    let (firstKey, reader) ← decodeKey reader
    let (lastKey, reader) ← decodeKey reader
    return ⟨offset, firstKey, lastKey⟩ :: (← decodeBody n reader)

variable [Platform]

/-- What `encode_block_meta` appends to its buffer. -/
def encodeBlockMeta (metas : List BlockMeta) : Bytes := withChecksum (encodeBody metas)

/-- `decode_block_meta`, which checks the checksum first. -/
def decodeBlockMeta (buf : Bytes) : Outcome (List BlockMeta) := do
  let (numBlocks, reader) ← getUint 4 (← verifyChecksum "block meta checksum mismatch" buf)
  decodeBody numBlocks reader

end BlockMeta

/-- `FileObject::read`, on the contents of the file. -/
def fileRead (file : Bytes) (offset len : ℕ) : Outcome Bytes :=
  if offset + len ≤ file.length then .ok ((file.drop offset).take len)
  else .error (.err "failed to fill whole buffer")

theorem fileRead_eq (pre post : Bytes) {file mid : Bytes} {offset len : ℕ}
    (h : file = pre ++ mid ++ post) (ho : offset = pre.length) (hl : len = mid.length) : fileRead file offset len = .ok mid := by
  subst h ho hl
  unfold fileRead
  rw [if_pos (by simp only [List.length_append]; omega)]
  simp

/-- `SsTable`; `file` is the contents of the file it keeps open. -/
structure SsTable where
  file : Bytes
  blockMeta : List BlockMeta
  blockMetaOffset : ℕ
  id : ℕ
  firstKey : Key
  lastKey : Key
  bloom : Option Bloom
  maxTs : UInt64
  deriving DecidableEq, Repr

namespace SsTable

/-- The largest timestamp among the first and last keys of the blocks. -/
def metaMaxTs (metas : List BlockMeta) : UInt64 :=
  (metas.flatMap fun m => [m.firstKey.ts, m.lastKey.ts]).foldr max 0

/-- `partition_point(first_key <= key).saturating_sub(1)`. -/
def findBlockIdx (t : SsTable) (key : Key) : ℕ :=
  partitionPoint (fun m => m.firstKey ≤ key) t.blockMeta - 1

/-- The number of blocks. -/
def numOfBlocks (t : SsTable) : ℕ := t.blockMeta.length

/-- The size of the file. -/
def tableSize (t : SsTable) : ℕ := t.file.length

variable [Platform]

/-- `SsTable::open`. -/
def openFile (id : ℕ) (file : Bytes) : Outcome SsTable := do
  let sstEnd ← usizeSub file.length 4
  let (bloomSectionStart, _) ← getUint 4 (← sliceFrom sstEnd file)
  let metaEnd ← usizeSub bloomSectionStart 4
  let (blockMetaOffset, _) ← getUint 4 (← slice file metaEnd bloomSectionStart)
  let blockMeta ← BlockMeta.decodeBlockMeta (← slice file blockMetaOffset metaEnd)
  let bloomBlob ← slice file bloomSectionStart sstEnd
  let (bloomPayloadLen, _) ← getUint 4 (← slice bloomBlob 0 4)
  let bloom ← Bloom.decode (← slice bloomBlob 4 (4 + bloomPayloadLen))
  let first ← Outcome.ofOption (.panic "index out of bounds") blockMeta.head?
  let last ← Outcome.ofOption (.panic "index out of bounds") blockMeta.getLast?
  return {
    file, blockMeta, blockMetaOffset, id
    firstKey := first.firstKey
    lastKey := last.lastKey
    bloom := some bloom
    maxTs := metaMaxTs blockMeta }

/-- The sections of `SsTableBuilder::build` are found, as long as the position and the length of the
filter fit four bytes. -/
theorem openFile_sections {data metaBytes bloomBytes : Bytes} {metas : List BlockMeta}
    {bloom : Bloom} {file : Bytes} (id : ℕ)
    (hfile : file = data ++ (metaBytes ++ beBytes 4 data.length ++ beBytes 4 bloomBytes.length ++
      bloomBytes ++ beBytes 4 (data.length + metaBytes.length + 4)))
    (hpos : data.length + metaBytes.length + 4 < 256 ^ 4) (hlt : bloomBytes.length < 256 ^ 4)
    (hmetas : BlockMeta.decodeBlockMeta metaBytes = .ok metas)
    (hbloom : Bloom.decode bloomBytes = .ok bloom) :
    openFile id file = (do
      let first ← Outcome.ofOption (.panic "index out of bounds") metas.head?
      let last ← Outcome.ofOption (.panic "index out of bounds") metas.getLast?
      return {
        file, blockMeta := metas, blockMetaOffset := data.length, id
        firstKey := first.firstKey
        lastKey := last.lastKey
        bloom := some bloom
        maxTs := metaMaxTs metas }) := by
  have hlen : file.length = data.length + metaBytes.length + 4 + 4 + bloomBytes.length + 4 := by
    rw [hfile]
    simp only [List.length_append, length_beBytes]
    omega
  have htail : sliceFrom (file.length - 4) file =
      .ok (beBytes 4 (data.length + metaBytes.length + 4)) := by
    rw [hlen, hfile, ← List.append_assoc]
    refine sliceFrom_append ?_
    simp only [List.length_append, length_beBytes]
    omega
  have hoff : slice file (data.length + metaBytes.length + 4 - 4)
      (data.length + metaBytes.length + 4) = .ok (beBytes 4 data.length) := by
    refine slice_eq (data ++ metaBytes) (beBytes 4 bloomBytes.length ++
      (bloomBytes ++ beBytes 4 (data.length + metaBytes.length + 4))) (by simp [hfile]) ?_ ?_
    · rw [List.length_append]
      omega
    · rw [List.length_append, length_beBytes]
  have hmeta : slice file data.length (data.length + metaBytes.length + 4 - 4) = .ok metaBytes :=
    slice_eq data _ (by rw [hfile, List.append_assoc, List.append_assoc, List.append_assoc,
      ← List.append_assoc]) rfl (by omega)
  have hblob : slice file (data.length + metaBytes.length + 4) (file.length - 4) =
      .ok (beBytes 4 bloomBytes.length ++ bloomBytes) := by
    refine slice_eq (data ++ metaBytes ++ beBytes 4 data.length)
      (beBytes 4 (data.length + metaBytes.length + 4)) (by simp [hfile]) ?_ ?_
    · simp only [List.length_append, length_beBytes]
    · rw [hlen]
      simp only [List.length_append, length_beBytes]
      omega
  have hpayload : slice (beBytes 4 bloomBytes.length ++ bloomBytes) 0 4 =
      .ok (beBytes 4 bloomBytes.length) :=
    slice_eq [] _ rfl rfl (by simp)
  have hbytes : slice (beBytes 4 bloomBytes.length ++ bloomBytes) 4 (4 + bloomBytes.length) =
      .ok bloomBytes :=
    slice_eq _ [] (by rw [List.append_nil]) (by simp) (by simp)
  unfold openFile
  rw [usizeSub_of_le (by omega)]
  simp only [bind, Except.bind, htail]
  rw [getUint_beBytes hpos]
  simp only
  rw [usizeSub_of_le (by omega)]
  simp only [hoff]
  rw [getUint_beBytes (by omega)]
  simp only [hmeta, hmetas, hblob, hpayload]
  rw [getUint_beBytes hlt]
  simp only [hbytes, hbloom]

/-- A file with these sections opens when it has a block. -/
theorem openFile_eq {data metaBytes bloomBytes : Bytes} {metas : List BlockMeta} {bloom : Bloom}
    {first last : BlockMeta} {file : Bytes} (id : ℕ)
    (hfile : file = data ++ (metaBytes ++ beBytes 4 data.length ++ beBytes 4 bloomBytes.length ++
      bloomBytes ++ beBytes 4 (data.length + metaBytes.length + 4)))
    (hpos : data.length + metaBytes.length + 4 < 256 ^ 4) (hlt : bloomBytes.length < 256 ^ 4)
    (hmetas : BlockMeta.decodeBlockMeta metaBytes = .ok metas)
    (hbloom : Bloom.decode bloomBytes = .ok bloom) (hfirst : metas.head? = some first)
    (hlast : metas.getLast? = some last) :
    openFile id file = .ok {
      file, blockMeta := metas, blockMetaOffset := data.length, id
      firstKey := first.firstKey
      lastKey := last.lastKey
      bloom := some bloom
      maxTs := metaMaxTs metas } := by
  rw [openFile_sections id hfile hpos hlt hmetas hbloom, hfirst, hlast]
  rfl

/-- What every opened table is made of. -/
theorem openFile_eq_ok {id : ℕ} {file : Bytes} {t : SsTable} (h : openFile id file = .ok t) :
    t.id = id ∧ t.file = file ∧ t.maxTs = metaMaxTs t.blockMeta := by
  unfold openFile at h
  simp only [Outcome.bind_eq_ok_iff, Prod.exists] at h
  obtain ⟨sstEnd, -, tail, -, bloomStart, -, -, metaEnd, -, offsetBytes, -, offset, -, -,
    metaBytes, -, metas, -, bloomBlob, -, lenBytes, -, bloomLen, -, -, bloomBytes, -, bloom, -,
    first, -, last, -, hret⟩ := h
  cases hret
  exact ⟨rfl, rfl, rfl⟩

/-- Where the block after `i` starts, or the metadata. -/
def blockEnd (t : SsTable) (i : ℕ) : ℕ :=
  match t.blockMeta[i + 1]? with
  | some m => m.offset
  | none => t.blockMetaOffset

/-- `read_block`: read the bytes of a block and check their checksum. -/
def readBlock (t : SsTable) (i : ℕ) : Outcome Block := do
  let m ← Outcome.ofOption (.panic "index out of bounds") t.blockMeta[i]?
  let raw ← fileRead t.file m.offset (← usizeSub (t.blockEnd i) m.offset)
  Block.decode (← verifyChecksum "block checksum mismatch" raw)

end SsTable

/-! ## What a table holds -/

/-- The metadata of a block with the entries `es`. -/
structure BlockMeta.Describes (m : BlockMeta) (es : List Entry) : Prop where
  firstKey : ∃ a ∈ es.head?, m.firstKey = a.1
  lastKey : ∃ a ∈ es.getLast?, m.lastKey = a.1

namespace BlockMeta

variable {metas : List BlockMeta} {bss : List (List Entry)} {m : BlockMeta}

theorem Describes.ne_nil {es : List Entry} (h : m.Describes es) : es ≠ [] := by
  obtain ⟨⟨a, ha, -⟩, -⟩ := h
  intro hnil
  rw [hnil] at ha
  cases ha

/-- The first block starts with the first entry of all. -/
theorem Describes.head (h : List.Forall₂ Describes metas bss) (hm : metas.head? = some m) :
    ∃ a ∈ bss.flatten.head?, m.firstKey = a.1 := by
  cases h with
  | nil => cases hm
  | @cons m' es metas bss hd _ =>
    obtain rfl := Option.some.inj hm
    obtain ⟨a, ha, hk⟩ := hd.firstKey
    refine ⟨a, ?_, hk⟩
    rw [List.flatten_cons, List.head?_append, Option.mem_def.mp ha]
    rfl

/-- The last block ends with the last entry of all. -/
theorem Describes.getLast (h : List.Forall₂ Describes metas bss) (hm : metas.getLast? = some m) :
    ∃ a ∈ bss.flatten.getLast?, m.lastKey = a.1 := by
  induction h with
  | nil => cases hm
  | @cons m' es metas bss hd htail ih =>
    rw [List.flatten_cons, List.getLast?_append]
    cases htail with
    | nil =>
      obtain rfl := Option.some.inj hm
      obtain ⟨a, ha, hk⟩ := hd.lastKey
      exact ⟨a, by simpa using ha, hk⟩
    | cons hd' htail' =>
      rw [List.getLast?_cons_cons] at hm
      obtain ⟨a, ha, hk⟩ := ih hm
      refine ⟨a, ?_, hk⟩
      rw [Option.mem_def.mp ha]
      rfl

end BlockMeta

/-- The table reads back as the blocks `bss`, which form one strictly sorted run. -/
structure SsTable.Holds [Platform] (t : SsTable) (bss : List (List Entry)) : Prop where
  blocks : ∀ i es, bss[i]? = some es → ∃ b, t.readBlock i = .ok b ∧ b.Holds es
  metas : List.Forall₂ BlockMeta.Describes t.blockMeta bss
  sorted : SortedRun bss.flatten
  firstKey : ∃ a ∈ bss.flatten.head?, t.firstKey = a.1
  lastKey : ∃ a ∈ bss.flatten.getLast?, t.lastKey = a.1

/-- The bloom filter was built from the fingerprints of all keys of `es`. -/
def SsTable.BloomBuiltFrom [Platform] (t : SsTable) (es : List Entry) : Prop :=
  ∀ bloom ∈ t.bloom, ∃ hashes bitsPerKey,
    bloom = Bloom.buildFromKeyHashes hashes bitsPerKey ∧
      ∀ e ∈ es, Platform.fingerprint32 e.1.keyRef ∈ hashes

namespace SsTable.Holds

variable [Platform] {t : SsTable} {bss : List (List Entry)}

theorem ne_nil (h : t.Holds bss) : bss.flatten ≠ [] := by
  obtain ⟨a, ha, -⟩ := h.firstKey
  intro hnil
  rw [hnil] at ha
  cases ha

theorem numOfBlocks_eq (h : t.Holds bss) : t.numOfBlocks = bss.length := h.metas.length_eq

theorem mem_block {es : List Entry} (h : t.Holds bss) (hes : es ∈ bss) :
    es ≠ [] ∧ SortedRun es ∧ ∀ e ∈ es, e.1.keyRef ≠ [] := by
  obtain ⟨i, hi, rfl⟩ := List.mem_iff_getElem.mp hes
  obtain ⟨b, -, hb⟩ := h.blocks i _ (List.getElem?_eq_getElem hi)
  exact ⟨hb.ne_nil, h.sorted.sublist (List.sublist_flatten_of_mem hes), hb.key_ne⟩

theorem key_ne (h : t.Holds bss) {e : Entry} (he : e ∈ bss.flatten) : e.1.keyRef ≠ [] := by
  obtain ⟨es, hes, he'⟩ := List.mem_flatten.mp he
  exact (h.mem_block hes).2.2 e he'

/-- Every key lies between the first and the last key of the table. -/
theorem firstKey_le (h : t.Holds bss) {e : Entry} (he : e ∈ bss.flatten) : t.firstKey ≤ e.1 := by
  obtain ⟨a, ha, hk⟩ := h.firstKey
  obtain ⟨rest, hrest⟩ : ∃ rest, bss.flatten = a :: rest := List.head?_eq_some_iff.mp ha
  have hs := h.sorted
  rw [hrest] at hs he
  rw [hk]
  exact hs.head_le he

theorem le_lastKey (h : t.Holds bss) {e : Entry} (he : e ∈ bss.flatten) : e.1 ≤ t.lastKey := by
  obtain ⟨a, ha, hk⟩ := h.lastKey
  obtain ⟨init, hinit⟩ : ∃ init, bss.flatten = init ++ [a] := List.getLast?_eq_some_iff.mp ha
  have hs := h.sorted
  rw [hinit] at hs he
  rw [hk]
  rcases List.mem_append.mp he with he | he
  · exact ((SortedRun.append_iff.mp hs).2.2 e he a (by simp)).le
  · rw [List.mem_singleton.mp he]

theorem firstKey_le_lastKey (h : t.Holds bss) : t.firstKey ≤ t.lastKey := by
  obtain ⟨a, ha, hk⟩ := h.firstKey
  rw [hk]
  exact h.le_lastKey (List.mem_of_mem_head? ha)

/-- A table is read through its file and its metadata only. -/
theorem congr {t' : SsTable} (h : t.Holds bss) (hfile : t'.file = t.file)
    (hmeta : t'.blockMeta = t.blockMeta) (hoff : t'.blockMetaOffset = t.blockMetaOffset)
    (hfirst : t'.firstKey = t.firstKey) (hlast : t'.lastKey = t.lastKey) : t'.Holds bss where
  blocks i es hes := by
    have hread : t'.readBlock i = t.readBlock i := by
      unfold SsTable.readBlock SsTable.blockEnd
      rw [hfile, hmeta, hoff]
    rw [hread]
    exact h.blocks i es hes
  metas := by
    rw [hmeta]
    exact h.metas
  sorted := h.sorted
  firstKey := by
    rw [hfirst]
    exact h.firstKey
  lastKey := by
    rw [hlast]
    exact h.lastKey

end SsTable.Holds

/-- The table holds the entries `es`. -/
def SsTable.HasEntries [Platform] (t : SsTable) (es : List Entry) : Prop :=
  ∃ bss, t.Holds bss ∧ es = bss.flatten

namespace SsTable.HasEntries

variable [Platform] {t : SsTable} {es : List Entry}

theorem ne_nil (h : t.HasEntries es) : es ≠ [] := by
  obtain ⟨bss, hb, rfl⟩ := h
  exact hb.ne_nil

theorem firstKey_eq (h : t.HasEntries es) : ∃ a ∈ es.head?, t.firstKey = a.1 := by
  obtain ⟨bss, hb, rfl⟩ := h
  exact hb.firstKey

theorem lastKey_eq (h : t.HasEntries es) : ∃ a ∈ es.getLast?, t.lastKey = a.1 := by
  obtain ⟨bss, hb, rfl⟩ := h
  exact hb.lastKey

theorem sorted (h : t.HasEntries es) : SortedRun es := by
  obtain ⟨bss, hb, rfl⟩ := h
  exact hb.sorted

theorem key_ne (h : t.HasEntries es) {e : Entry} (he : e ∈ es) : e.1.keyRef ≠ [] := by
  obtain ⟨bss, hb, rfl⟩ := h
  exact hb.key_ne he

theorem firstKey_le (h : t.HasEntries es) {e : Entry} (he : e ∈ es) : t.firstKey ≤ e.1 := by
  obtain ⟨bss, hb, rfl⟩ := h
  exact hb.firstKey_le he

theorem le_lastKey (h : t.HasEntries es) {e : Entry} (he : e ∈ es) : e.1 ≤ t.lastKey := by
  obtain ⟨bss, hb, rfl⟩ := h
  exact hb.le_lastKey he

theorem firstKey_le_lastKey (h : t.HasEntries es) : t.firstKey ≤ t.lastKey := by
  obtain ⟨bss, hb, rfl⟩ := h
  exact hb.firstKey_le_lastKey

end SsTable.HasEntries

theorem SsTable.BloomBuiltFrom.mayContain [Platform] {t : SsTable} {es : List Entry} {bloom : Bloom}
    (h : t.BloomBuiltFrom es) (hb : bloom ∈ t.bloom) (k : Bytes) :
    ∃ r, bloom.mayContain (Platform.fingerprint32 k) = .ok r ∧
      ((∃ e ∈ es, e.1.keyRef = k) → r = true) := by
  obtain ⟨hashes, bitsPerKey, rfl, hall⟩ := h bloom hb
  by_cases hk : ∃ e ∈ es, e.1.keyRef = k
  · obtain ⟨e, he, rfl⟩ := hk
    exact ⟨true, Bloom.mayContain_build (hall e he), fun _ => rfl⟩
  · obtain ⟨r, hr⟩ := Bloom.mayContain_build_ok hashes bitsPerKey (Platform.fingerprint32 k)
    exact ⟨r, hr, fun hex => absurd hex hk⟩

end TinyLsm

import TinyLsm.Runtime
import TinyLsm.Lib.SortedRun

/-!
# Blocks (`block.rs`, `block/builder.rs`, `block/iterator.rs`)

A block is a byte string of entries with the offset of each.  An entry stores how many bytes its
key shares with the first key of the block, the rest of the key, the timestamp and the value:
`u16 overlap, u16 suffix length, suffix, u64 ts, u16 value length, value`.

`Block.Holds b es` says that the block reads back as the entries `es`: the key at its start is the
first key, and every offset leads to the bytes of its entry.  The three results are

* `BlockBuilder.Holds.add` --- a builder that holds `es` holds `es` and the new entry after a
  successful `add`, as long as the entry and the block fit the two-byte lengths and offsets;
* `Block.decode_encode` --- what `encode` writes, `decode` reads back;
* `BlockIterator.createAndSeekToKey_spec` --- the binary search of `seek_to_key` stops at the first entry
  that is not smaller than the key.
-/

namespace TinyLsm

/-- `Block`. -/
structure Block where
  data : Bytes
  offsets : List UInt16
  deriving DecidableEq, Repr

namespace Block

/-- The key at the start of the block, which is stored whole. -/
def getFirstKey (b : Block) : Outcome Key := do
  let (_, buf) ← getUint 2 b.data
  let (keyLen, buf) ← getUint 2 buf
  let (key, buf) ← getSlice keyLen buf
  let (ts, _) ← getUint 8 buf
  return ⟨key, UInt64.ofNat ts⟩

variable [Platform]

/-- `Block::encode`: the entries, their checksum, the offsets and how many there are. -/
def encode (b : Block) : Bytes :=
  b.data ++ beBytes 4 (Platform.crc32 b.data).toNat ++
    b.offsets.flatMap (fun offset => beBytes 2 offset.toNat) ++ beBytes 2 b.offsets.length

/-- The loop over the offset bytes, two at a time. -/
def decodeOffsets : Bytes → List UInt16
  | hi :: lo :: rest => UInt16.ofNat (ofBE [hi, lo]) :: decodeOffsets rest
  | _ => []

/-- The checksum is read and not compared. -/
def decode (data : Bytes) : Outcome Block := do
  let offsetEnd ← usizeSub data.length 2
  let (numEntries, _) ← getUint 2 (← sliceFrom offsetEnd data)
  let offsetStart ← usizeSub offsetEnd (2 * numEntries)
  let tmp ← slice data offsetStart offsetEnd
  let dataEnd ← usizeSub offsetStart 4
  return { data := data.take dataEnd, offsets := decodeOffsets tmp }

end Block

/-! ## The builder -/

/-- A block that is being built; `first_key` is what the others are compressed against. -/
structure BlockBuilder where
  offsets : List UInt16
  data : Bytes
  blockSize : ℕ
  firstKey : Key

/-- How many bytes of `key` are those of the first key. -/
def computeOverlap (firstKey key : Key) : ℕ :=
  ((firstKey.keyRef.zip key.keyRef).takeWhile fun p => p.1 == p.2).length

/-- The bytes of one entry of a block whose first key is `firstKey`. -/
def entryBytes (firstKey key : Key) (value : Bytes) : Bytes :=
  beBytes 2 (computeOverlap firstKey key) ++
    (beBytes 2 (key.keyLen - computeOverlap firstKey key) ++
      (key.keyRef.drop (computeOverlap firstKey key) ++
        (beBytes 8 key.ts.toNat ++ (beBytes 2 value.length ++ value))))

namespace BlockBuilder

/-- An empty block of at most `blockSize` bytes. -/
def new (blockSize : ℕ) : BlockBuilder := ⟨[], [], blockSize, Key.new⟩

/-- The number of bytes that `build` would encode, but for the checksum. -/
def estimatedSize (bb : BlockBuilder) : ℕ := 2 + bb.offsets.length * 2 + bb.data.length

/-- No entry was added. -/
def isEmpty (bb : BlockBuilder) : Bool := bb.offsets.isEmpty

/-- `add`: `false` when the block is full. -/
def add (bb : BlockBuilder) (key : Key) (value : Bytes) : Outcome (Bool × BlockBuilder) :=
  if key.isEmpty then .error (.panic "key must not be empty")
  else if bb.estimatedSize + key.rawLen + value.length + 2 * 3 > bb.blockSize ∧ ¬bb.isEmpty then
    .ok (false, bb)
  else
    .ok (true,
      { bb with
        offsets := bb.offsets ++ [UInt16.ofNat bb.data.length]
        data := bb.data ++ entryBytes bb.firstKey key value
        firstKey := if bb.firstKey.isEmpty then key else bb.firstKey })

/-- The block of what was added. -/
def build (bb : BlockBuilder) : Block := ⟨bb.data, bb.offsets⟩

end BlockBuilder

/-! ## The iterator -/

/-- A position in a block.  The iterator is valid as long as its key is not empty. -/
structure BlockIterator where
  block : Block
  key : Key
  valueRange : ℕ × ℕ
  idx : ℕ
  firstKey : Key
  deriving DecidableEq

/-- The body of `seek_to_offset`: the key and the value range of the entry at `offset`. -/
def readEntry (data : Bytes) (firstKey : Key) (offset : ℕ) : Outcome (Key × ℕ × ℕ) := do
  let entry ← sliceFrom offset data
  let (overlapLen, entry) ← getUint 2 entry
  let (keySuffixLen, entry) ← getUint 2 entry
  let (keySuffix, entry) ← getSlice keySuffixLen entry
  let (keyPrefix, _) ← getSlice overlapLen firstKey.keyRef
  let (ts, entry) ← getUint 8 entry
  let (valueLen, _) ← getUint 2 entry
  let valueOffsetBegin := offset + 2 + 2 + keySuffixLen + 8 + 2
  return (⟨keyPrefix ++ keySuffix, UInt64.ofNat ts⟩, valueOffsetBegin, valueOffsetBegin + valueLen)

namespace BlockIterator

/-- `BlockIterator::new`, which reads the first key; on an empty block it panics. -/
def new (block : Block) : Outcome BlockIterator := do
  let firstKey ← block.getFirstKey
  return { block, key := Key.new, valueRange := (0, 0), idx := 0, firstKey }

/-- Called on a valid iterator only, whose range lies in the data. -/
def value (it : BlockIterator) : Bytes :=
  (it.block.data.drop it.valueRange.1).take (it.valueRange.2 - it.valueRange.1)

/-- The key is not empty. -/
def isValid (it : BlockIterator) : Bool := !it.key.isEmpty

/-- Read the entry at a byte offset. -/
def seekToOffset (it : BlockIterator) (offset : ℕ) : Outcome BlockIterator := do
  let (key, valueRange) ← readEntry it.block.data it.firstKey offset
  return { it with key, valueRange }

/-- Past the last entry only the key bytes and the range are cleared, the index stays. -/
def seekTo (it : BlockIterator) (idx : ℕ) : Outcome BlockIterator :=
  match it.block.offsets[idx]? with
  | none => .ok { it with key := { it.key with keyRef := [] }, valueRange := (0, 0) }
  | some offset => do
    let it ← it.seekToOffset offset.toNat
    return { it with idx }

/-- Stand at the first entry. -/
def seekToFirst (it : BlockIterator) : Outcome BlockIterator := it.seekTo 0

/-- Step to the entry behind the index. -/
def next (it : BlockIterator) : Outcome BlockIterator :=
  { it with idx := it.idx + 1 }.seekTo (it.idx + 1)

/-- The binary search of `seek_to_key` between `start` and `stop`, for at most `n` rounds. -/
def seekLoop (target : Key) : ℕ → ℕ → ℕ → BlockIterator → Outcome BlockIterator
  | 0, start, _, it => it.seekTo start
  | n + 1, start, stop, it =>
    if start < stop then do
      let mid := (start + stop) / 2
      let it ← it.seekTo mid
      if it.key < target then seekLoop target n (mid + 1) stop it
      else if target < it.key then seekLoop target n start mid it
      else return it
    else it.seekTo start

/-- The first entry whose key is at least `target`. -/
def seekToKey (it : BlockIterator) (target : Key) : Outcome BlockIterator :=
  seekLoop target it.block.offsets.length 0 it.block.offsets.length it

/-- An iterator at the first entry. -/
def createAndSeekToFirst (block : Block) : Outcome BlockIterator := do
  let it ← new block
  it.seekToFirst

/-- An iterator at the first entry whose key is at least `target`. -/
def createAndSeekToKey (block : Block) (target : Key) : Outcome BlockIterator := do
  let it ← new block
  it.seekToKey target

end BlockIterator

/-! ## Reading one entry -/

theorem computeOverlap_le_left (firstKey key : Key) :
    computeOverlap firstKey key ≤ firstKey.keyRef.length := by
  refine (List.takeWhile_prefix _).length_le.trans ?_
  rw [List.length_zip]
  exact min_le_left _ _

theorem computeOverlap_le_right (firstKey key : Key) :
    computeOverlap firstKey key ≤ key.keyRef.length := by
  refine (List.takeWhile_prefix _).length_le.trans ?_
  rw [List.length_zip]
  exact min_le_right _ _

/-- The overlap is a common prefix. -/
theorem take_computeOverlap (firstKey key : Key) :
    firstKey.keyRef.take (computeOverlap firstKey key) =
      key.keyRef.take (computeOverlap firstKey key) := by
  unfold computeOverlap
  generalize firstKey.keyRef = xs
  generalize key.keyRef = ys
  induction xs generalizing ys with
  | nil => simp
  | cons x xs ih =>
    cases ys with
    | nil => simp
    | cons y ys =>
      by_cases hxy : x = y
      · subst hxy
        simpa using ih ys
      · simp [hxy]

theorem take_append_drop_computeOverlap (firstKey key : Key) :
    firstKey.keyRef.take (computeOverlap firstKey key) ++
      key.keyRef.drop (computeOverlap firstKey key) = key.keyRef := by
  rw [take_computeOverlap, List.take_append_drop]

@[simp] theorem computeOverlap_new (key : Key) : computeOverlap Key.new key = 0 := by
  simp [computeOverlap, Key.new]

theorem length_entryBytes (firstKey key : Key) (value : Bytes) :
    (entryBytes firstKey key value).length =
      14 + (key.keyRef.length - computeOverlap firstKey key) + value.length := by
  simp only [entryBytes, List.length_append, length_beBytes, List.length_drop]
  omega

/-- Key and value fit their two-byte lengths. -/
structure LengthsFit (e : Entry) : Prop where
  key_le : e.1.keyRef.length ≤ 65535
  value_le : e.2.length ≤ 65535

/-- What fits the two-byte lengths. -/
structure Encodable (e : Entry) : Prop where
  key_ne : e.1.keyRef ≠ []
  key_le : e.1.keyRef.length ≤ 65535
  value_le : e.2.length ≤ 65535

/-- The three lengths that are written for `e` in a block whose first key is `firstKey`. -/
structure FitsAfter (firstKey : Key) (e : Entry) : Prop where
  overlap_lt : computeOverlap firstKey e.1 < 256 ^ 2
  suffix_lt : e.1.keyLen - computeOverlap firstKey e.1 < 256 ^ 2
  value_lt : e.2.length < 256 ^ 2

theorem Encodable.fitsAfter {e : Entry} (h : Encodable e) (firstKey : Key) : FitsAfter firstKey e := by
  have hkey : e.1.keyLen ≤ 65535 := h.key_le
  have hvalue : e.2.length ≤ 65535 := h.value_le
  have hover : computeOverlap firstKey e.1 ≤ e.1.keyLen := computeOverlap_le_right _ _
  refine ⟨?_, ?_, ?_⟩ <;> omega

/-- An entry is read back from the place where it was appended.  `firstKey` is the key the entry
was encoded against and `fk` the first key of the finished block; they differ for the first entry
only, which shares nothing. -/
theorem readEntry_entryBytes (firstKey fk : Key) {key : Key} {value : Bytes} (data : Bytes)
    (hfk : fk.keyRef.take (computeOverlap firstKey key) =
      firstKey.keyRef.take (computeOverlap firstKey key))
    (hlen : computeOverlap firstKey key ≤ fk.keyRef.length) (he : FitsAfter firstKey (key, value)) :
    ∃ start stop, readEntry (data ++ entryBytes firstKey key value) fk data.length =
        .ok (key, start, stop) ∧
      slice (data ++ entryBytes firstKey key value) start stop = .ok value := by
  have hover : computeOverlap firstKey key ≤ key.keyRef.length := computeOverlap_le_right _ _
  have hsplit : getSlice (computeOverlap firstKey key) fk.keyRef =
      .ok (fk.keyRef.take (computeOverlap firstKey key),
        fk.keyRef.drop (computeOverlap firstKey key)) := by
    have h := getSlice_append (List.length_take_of_le hlen)
      (fk.keyRef.drop (computeOverlap firstKey key))
    rwa [List.take_append_drop] at h
  have hvlen : getUint 2 (beBytes 2 value.length ++ value) = .ok (value.length, value) :=
    getUint_append_of_lt he.value_lt _
  refine ⟨data.length + 2 + 2 + (key.keyLen - computeOverlap firstKey key) + 8 + 2,
    data.length + 2 + 2 + (key.keyLen - computeOverlap firstKey key) + 8 + 2 + value.length,
    ?_, ?_⟩
  · unfold readEntry entryBytes
    rw [sliceFrom_append rfl]
    simp only [bind, Except.bind]
    rw [getUint_append_of_lt he.overlap_lt]
    simp only
    rw [getUint_append_of_lt he.suffix_lt]
    simp only
    rw [getSlice_append (by rw [List.length_drop]; rfl), hsplit]
    simp only
    rw [getUint_append_of_lt key.ts.toNat_lt]
    simp only
    rw [hvlen]
    simp only [pure, Except.pure, hfk, take_append_drop_computeOverlap]
    simp
  · refine slice_eq (data ++ (beBytes 2 (computeOverlap firstKey key) ++
      (beBytes 2 (key.keyLen - computeOverlap firstKey key) ++
        (key.keyRef.drop (computeOverlap firstKey key) ++
          (beBytes 8 key.ts.toNat ++ beBytes 2 value.length))))) [] ?_ ?_ ?_
    · simp [entryBytes]
    · simp [Key.keyLen]
      omega
    · simp [Key.keyLen]
      omega

theorem readEntry_extend {data : Bytes} {fk : Key} {offset : ℕ} {r : Key × ℕ × ℕ}
    (h : readEntry data fk offset = .ok r) (more : Bytes) :
    readEntry (data ++ more) fk offset = .ok r := by
  simp only [readEntry, Outcome.bind_eq_ok_iff, Prod.exists] at h ⊢
  obtain ⟨e₀, h₀, overlapLen, e₁, h₁, suffixLen, e₂, h₂, suffix, e₃, h₃, pre, e₄, h₄, ts, e₅, h₅,
    valueLen, e₆, h₆, hr⟩ := h
  exact ⟨_, sliceFrom_extend h₀ more, _, _, getUint_extend h₁ more, _, _, getUint_extend h₂ more,
    _, _, getSlice_extend h₃ more, _, _, h₄, _, _, getUint_extend h₅ more, _, _,
    getUint_extend h₆ more, hr⟩

theorem Block.getFirstKey_extend {b : Block} {k : Key} (h : b.getFirstKey = .ok k) (more : Bytes)
    (offsets : List UInt16) : Block.getFirstKey ⟨b.data ++ more, offsets⟩ = .ok k := by
  simp only [Block.getFirstKey, Outcome.bind_eq_ok_iff, Prod.exists] at h ⊢
  obtain ⟨n₀, e₀, h₀, keyLen, e₁, h₁, key, e₂, h₂, ts, e₃, h₃, hr⟩ := h
  exact ⟨_, _, getUint_extend h₀ more, _, _, getUint_extend h₁ more, _, _,
    getSlice_extend h₂ more, _, _, getUint_extend h₃ more, hr⟩

/-- The first entry shares nothing with an empty first key, so its key is stored whole. -/
theorem Block.getFirstKey_entryBytes {key : Key} {value : Bytes} (he : FitsAfter Key.new (key, value))
    (offsets : List UInt16) :
    Block.getFirstKey ⟨entryBytes Key.new key value, offsets⟩ = .ok key := by
  have hkey : key.keyLen - 0 < 256 ^ 2 := by
    have hsuffix := he.suffix_lt
    rwa [computeOverlap_new] at hsuffix
  unfold Block.getFirstKey entryBytes
  simp only [computeOverlap_new, bind, Except.bind]
  rw [getUint_append]
  simp only
  rw [getUint_append_of_lt hkey]
  simp only
  rw [getSlice_append (by rw [List.length_drop]; rfl)]
  simp only
  rw [getUint_append_of_lt key.ts.toNat_lt]
  simp [pure, Except.pure]

/-! ## What a block holds -/

/-- The bytes at `offset` are those of the entry `e`. -/
def ReadsAt (data : Bytes) (firstKey : Key) (offset : UInt16) (e : Entry) : Prop :=
  ∃ start stop, readEntry data firstKey offset.toNat = .ok (e.1, start, stop) ∧
    slice data start stop = .ok e.2

theorem ReadsAt.extend {data : Bytes} {firstKey : Key} {offset : UInt16} {e : Entry}
    (h : ReadsAt data firstKey offset e) (more : Bytes) :
    ReadsAt (data ++ more) firstKey offset e := by
  obtain ⟨start, stop, hread, hslice⟩ := h
  exact ⟨start, stop, readEntry_extend hread more, slice_extend hslice more⟩

/-- The block reads back as the entries `es`, whose keys are not empty. -/
structure Block.Holds (b : Block) (es : List Entry) : Prop where
  firstKey : ∃ a ∈ es.head?, b.getFirstKey = .ok a.1
  reads : ∀ fk, b.getFirstKey = .ok fk → List.Forall₂ (ReadsAt b.data fk) b.offsets es
  key_ne : ∀ e ∈ es, e.1.keyRef ≠ []

namespace Block.Holds

variable {b : Block} {es : List Entry}

theorem ne_nil (h : b.Holds es) : es ≠ [] := by
  obtain ⟨a, ha, -⟩ := h.firstKey
  intro hes
  simp [hes] at ha

theorem length_offsets (h : b.Holds es) : b.offsets.length = es.length := by
  obtain ⟨a, -, hk⟩ := h.firstKey
  exact (h.reads _ hk).length_eq

/-- Where entry `i` is. -/
theorem readsAt (h : b.Holds es) {fk : Key} (hfk : b.getFirstKey = .ok fk) {i : ℕ} {e : Entry}
    (he : es[i]? = some e) : ∃ offset, b.offsets[i]? = some offset ∧ ReadsAt b.data fk offset e := by
  obtain ⟨hi, rfl⟩ := List.getElem?_eq_some_iff.mp he
  have hi' : i < b.offsets.length := by rw [h.length_offsets]; exact hi
  refine ⟨b.offsets[i], List.getElem?_eq_getElem hi', ?_⟩
  exact (List.forall₂_iff_get.mp (h.reads fk hfk)).2 i hi' hi

end Block.Holds

/-- Only the first entry may exceed the size of the block. -/
def BlockBuilder.Bounded (bb : BlockBuilder) : Prop :=
  bb.offsets.length ≤ 1 ∨ bb.estimatedSize ≤ bb.blockSize + 2

/-- The builder has taken in the entries `es`. -/
structure BlockBuilder.Holds (bb : BlockBuilder) (es : List Entry) : Prop where
  empty : es = [] → bb.offsets = [] ∧ bb.data = [] ∧ bb.firstKey = Key.new
  block : es ≠ [] → bb.build.Holds es ∧ bb.build.getFirstKey = .ok bb.firstKey
  size : bb.Bounded

namespace BlockBuilder

variable {bb bb' : BlockBuilder} {es : List Entry} {key : Key} {value : Bytes}

theorem new_bounded (blockSize : ℕ) : (new blockSize).Bounded := Or.inl (Nat.zero_le _)

theorem new_holds (blockSize : ℕ) : (new blockSize).Holds [] where
  empty _ := ⟨rfl, rfl, rfl⟩
  block h := absurd rfl h
  size := new_bounded blockSize

theorem Holds.isEmpty_iff (h : bb.Holds es) : bb.isEmpty = true ↔ es = [] := by
  unfold isEmpty
  rw [List.isEmpty_iff]
  constructor
  · intro hoff
    by_contra hes
    have hlen := (h.block hes).1.length_offsets
    rw [show bb.build.offsets = [] from hoff, List.length_nil] at hlen
    exact hes (List.length_eq_zero_iff.mp hlen.symm)
  · intro hes
    exact (h.empty hes).1

theorem Holds.firstKey_eq (h : bb.Holds es) {a : Entry} (ha : a ∈ es.head?) :
    bb.firstKey = a.1 := by
  have hes : es ≠ [] := by
    intro hes
    simp [hes] at ha
  obtain ⟨hholds, hfk⟩ := h.block hes
  obtain ⟨a', ha', hfk'⟩ := hholds.firstKey
  rw [hfk] at hfk'
  rw [Except.ok.inj hfk', Option.mem_unique ha ha']

/-- What a successful `add` does. -/
theorem add_eq_true (hadd : bb.add key value = .ok (true, bb')) :
    (bb.isEmpty = false →
      bb.estimatedSize + key.rawLen + value.length + 2 * 3 ≤ bb.blockSize) ∧
    bb' = { bb with
      offsets := bb.offsets ++ [UInt16.ofNat bb.data.length]
      data := bb.data ++ entryBytes bb.firstKey key value
      firstKey := if bb.firstKey.isEmpty then key else bb.firstKey } := by
  unfold add at hadd
  split at hadd
  · cases hadd
  · split at hadd
    · simp at hadd
    · rename_i hfull
      refine ⟨fun hne => ?_, ?_⟩
      · by_contra hlt
        exact hfull ⟨by omega, by simp [hne]⟩
      · simpa using hadd.symm

theorem Bounded.add (hadd : bb.add key value = .ok (true, bb')) : bb'.Bounded := by
  obtain ⟨hroom, rfl⟩ := add_eq_true hadd
  cases hempty : bb.isEmpty with
  | true =>
    have hoff : bb.offsets = [] := List.isEmpty_iff.mp hempty
    exact Or.inl (by simp [hoff])
  | false =>
    have hfit := hroom hempty
    have hlen := length_entryBytes bb.firstKey key value
    refine Or.inr ?_
    simp only [estimatedSize, List.length_append, List.length_singleton, hlen]
    unfold estimatedSize Key.rawLen at hfit
    omega

theorem Bounded.length_lt (h : bb.Bounded) (hsize : bb.blockSize ≤ 65535) :
    bb.offsets.length < 65536 := by
  rcases h with hle | hle
  · omega
  · unfold estimatedSize at hle
    omega

theorem add_eq_false (hadd : bb.add key value = .ok (false, bb')) :
    bb.isEmpty = false ∧ bb' = bb := by
  unfold add at hadd
  split at hadd
  · cases hadd
  · split at hadd
    · rename_i hfull
      exact ⟨by simpa using hfull.2, by simpa using hadd.symm⟩
    · simp at hadd

theorem add_ne_error (bb : BlockBuilder) (value : Bytes) (hkey : key.keyRef ≠ []) : ∃ r, bb.add key value = .ok r := by
  unfold add
  rw [if_neg (by simp [Key.isEmpty, hkey])]
  split
  · exact ⟨_, rfl⟩
  · exact ⟨_, rfl⟩

/-- The first entry is always accepted. -/
theorem add_new (value : Bytes) (hkey : key.keyRef ≠ []) (blockSize : ℕ) :
    ∃ bb', (new blockSize).add key value = .ok (true, bb') := by
  unfold add
  rw [if_neg (by simp [Key.isEmpty, hkey]), if_neg (by simp [isEmpty, new])]
  exact ⟨_, rfl⟩

theorem blockSize_add {added : Bool} (hadd : bb.add key value = .ok (added, bb')) :
    bb'.blockSize = bb.blockSize := by
  cases added with
  | false => rw [(add_eq_false hadd).2]
  | true => rw [(add_eq_true hadd).2]

/-- **A successful `add` appends the entry**, as long as its lengths and its offset fit their two
bytes. -/
theorem Holds.add_of_fits (h : bb.Holds es) (hadd : bb.add key value = .ok (true, bb'))
    (hkey : key.keyRef ≠ []) (he : FitsAfter bb.firstKey (key, value))
    (hlt : bb.data.length < 65536) : bb'.Holds (es ++ [(key, value)]) := by
  have hbounded := Bounded.add hadd
  obtain ⟨-, rfl⟩ := add_eq_true hadd
  rcases eq_or_ne es [] with hes | hes
  · -- the first entry of the block, encoded against the empty first key
    obtain ⟨hoff, hdata, hfk⟩ := h.empty hes
    rw [hfk] at he
    have hread := Block.getFirstKey_entryBytes he [0]
    refine ⟨by simp, fun _ => ?_, hbounded⟩
    simp only [hes, hoff, hdata, hfk, build, List.nil_append, List.length_nil]
    rw [if_pos (show Key.new.isEmpty = true from rfl)]
    refine ⟨⟨⟨_, rfl, hread⟩, fun fk hk => ?_, ?_⟩, hread⟩
    · rw [show UInt16.ofNat 0 = (0 : UInt16) from rfl, hread] at hk
      cases hk
      refine .cons ?_ .nil
      have hentry := readEntry_entryBytes Key.new key [] (by simp)
        (by simp) he
      exact hentry
    · intro e hmem
      rw [List.mem_singleton] at hmem
      rw [hmem]
      exact hkey
  · -- a later entry, encoded against the first key
    obtain ⟨hholds, hfirst⟩ := h.block hes
    have hfk : bb.firstKey.isEmpty = false := by
      obtain ⟨a, ha, hk⟩ := hholds.firstKey
      rw [hfirst] at hk
      rw [Except.ok.inj hk]
      simpa [Key.isEmpty] using hholds.key_ne a (List.mem_of_mem_head? ha)
    have hfirst' : Block.getFirstKey ⟨bb.data ++ entryBytes bb.firstKey key value,
        bb.offsets ++ [UInt16.ofNat bb.data.length]⟩ = .ok bb.firstKey :=
      Block.getFirstKey_extend hfirst _ _
    have hoffset : (UInt16.ofNat bb.data.length).toNat = bb.data.length := by
      simpa using hlt
    refine ⟨by simp, fun _ => ?_, hbounded⟩
    simp only [build, hfk, Bool.false_eq_true, if_false]
    refine ⟨⟨?_, fun fk hk => ?_, ?_⟩, hfirst'⟩
    · obtain ⟨a, ha, hk⟩ := hholds.firstKey
      rw [hfirst] at hk
      refine ⟨a, ?_, by rw [hfirst', Except.ok.inj hk]⟩
      rw [List.head?_append, Option.mem_def.mp ha]
      rfl
    · rw [hfirst'] at hk
      cases hk
      refine List.rel_append (hholds.reads _ hfirst |>.imp fun _ _ hr => hr.extend _) ?_
      refine .cons ?_ .nil
      unfold ReadsAt
      rw [hoffset]
      exact readEntry_entryBytes _ _ bb.data rfl (computeOverlap_le_left _ _) he
    · intro e hmem
      rw [List.mem_append, List.mem_singleton] at hmem
      rcases hmem with hmem | rfl
      · exact hholds.key_ne e hmem
      · exact hkey

/-- A block of limited size cannot outgrow its two-byte offsets. -/
theorem Holds.add (h : bb.Holds es) (hadd : bb.add key value = .ok (true, bb'))
    (he : Encodable (key, value)) (hsize : bb.blockSize ≤ 65535) :
    bb'.Holds (es ++ [(key, value)]) := by
  refine h.add_of_fits hadd he.key_ne (he.fitsAfter _) ?_
  by_cases hempty : bb.isEmpty = true
  · rw [(h.empty (h.isEmpty_iff.mp hempty)).2.1]
    exact Nat.zero_lt_succ _
  · have hfit := (add_eq_true hadd).1 (Bool.not_eq_true _ |>.mp hempty)
    unfold estimatedSize at hfit
    omega

theorem Holds.length_offsets_lt (h : bb.Holds es) (hsize : bb.blockSize ≤ 65535) :
    bb.offsets.length < 65536 := h.size.length_lt hsize

end BlockBuilder

/-! ## Encoding and decoding -/

namespace Block

theorem decodeOffsets_flatMap (offsets : List UInt16) :
    decodeOffsets (offsets.flatMap fun offset => beBytes 2 offset.toNat) = offsets := by
  induction offsets with
  | nil => rfl
  | cons offset rest ih =>
    have hround : UInt16.ofNat (ofBE (beBytes 2 offset.toNat)) = offset := by
      rw [ofBE_beBytes_of_lt offset.toNat_lt]
      simp
    have hcons : (offset :: rest).flatMap (fun offset => beBytes 2 offset.toNat) =
        UInt8.ofNat (offset.toNat / 256) :: UInt8.ofNat offset.toNat ::
          rest.flatMap fun offset => beBytes 2 offset.toNat := rfl
    rw [hcons, decodeOffsets, ih]
    exact congrArg (· :: rest) hround

theorem length_flatMap_beBytes (offsets : List UInt16) :
    (offsets.flatMap fun offset => beBytes 2 offset.toNat).length = 2 * offsets.length := by
  induction offsets with
  | nil => rfl
  | cons offset rest ih =>
    rw [List.flatMap_cons, List.length_append, length_beBytes, ih, List.length_cons]
    omega

variable [Platform]

/-- **What `encode` writes, `decode` reads back.** -/
theorem decode_encode {b : Block} (h : b.offsets.length < 65536) : decode b.encode = .ok b := by
  have hlen : b.encode.length = b.data.length + 4 + 2 * b.offsets.length + 2 := by
    simp only [encode, List.length_append, length_beBytes, length_flatMap_beBytes]
  have hnum : sliceFrom (b.encode.length - 2) b.encode = .ok (beBytes 2 b.offsets.length) := by
    refine sliceFrom_append ?_
    rw [hlen]
    simp only [List.length_append, length_beBytes, length_flatMap_beBytes]
    omega
  have htmp : slice b.encode (b.encode.length - 2 - 2 * b.offsets.length) (b.encode.length - 2) =
      .ok (b.offsets.flatMap fun offset => beBytes 2 offset.toNat) := by
    refine slice_eq _ (beBytes 2 b.offsets.length) rfl ?_ ?_
    · rw [hlen]
      simp only [List.length_append, length_beBytes]
      omega
    · rw [hlen]
      simp only [List.length_append, length_beBytes, length_flatMap_beBytes]
      omega
  have hget : getUint 2 (beBytes 2 b.offsets.length) = .ok (b.offsets.length, []) :=
    getUint_beBytes h
  unfold decode
  rw [usizeSub_of_le (by omega)]
  simp only [bind, Except.bind, hnum, hget]
  rw [usizeSub_of_le (by omega)]
  simp only [htmp]
  rw [usizeSub_of_le (by omega)]
  simp only [pure, Except.pure, decodeOffsets_flatMap]
  have hdata : b.encode.take (b.encode.length - 2 - 2 * b.offsets.length - 4) = b.data := by
    rw [hlen, encode, List.append_assoc, List.append_assoc]
    exact List.take_left' (by omega)
  rw [hdata]

end Block

/-! ## Moving over a block -/

namespace BlockIterator

/-- The iterator is over a block that holds `es`. -/
structure Over (it : BlockIterator) (es : List Entry) : Prop where
  holds : it.block.Holds es
  firstKey : it.block.getFirstKey = .ok it.firstKey

/-- The iterator stands at entry `i` of `es`, or is invalid when there is no such entry. -/
structure StandsAt (it : BlockIterator) (es : List Entry) (i : ℕ) : Prop extends Over it es where
  here : ∀ e, es[i]? = some e → it.idx = i ∧ it.key = e.1 ∧ it.value = e.2
  past : es[i]? = none → it.key.keyRef = [] ∧ es.length ≤ it.idx + 1

variable {it it' : BlockIterator} {es : List Entry} {i : ℕ} {target : Key}

theorem StandsAt.isValid_iff (h : it.StandsAt es i) : it.isValid = true ↔ i < es.length := by
  unfold isValid Key.isEmpty
  cases he : es[i]? with
  | none =>
    rw [(h.past he).1]
    simpa using List.getElem?_eq_none_iff.mp he
  | some e =>
    rw [(h.here e he).2.1]
    obtain ⟨hi, rfl⟩ := List.getElem?_eq_some_iff.mp he
    simpa [hi] using h.holds.key_ne _ (List.getElem_mem hi)

theorem new_over {b : Block} (h : b.Holds es) : ∃ it, new b = .ok it ∧ it.Over es ∧ it.idx = 0 := by
  obtain ⟨a, -, hk⟩ := h.firstKey
  refine ⟨⟨b, Key.new, (0, 0), 0, a.1⟩, ?_, ⟨h, hk⟩, rfl⟩
  unfold new
  rw [hk]
  rfl

theorem seekToOffset_eq {offset : UInt16} {e : Entry}
    (h : ReadsAt it.block.data it.firstKey offset e) :
    ∃ range, it.seekToOffset offset.toNat = .ok { it with key := e.1, valueRange := range } ∧
      (it.block.data.drop range.1).take (range.2 - range.1) = e.2 := by
  obtain ⟨start, stop, hread, hslice⟩ := h
  refine ⟨(start, stop), ?_, ?_⟩
  · unfold seekToOffset
    rw [hread]
    rfl
  · rw [slice] at hslice
    split at hslice
    · exact Except.ok.inj hslice
    · cases hslice

/-- `seek_to` stands at the given entry.  Past the end the old index stays, which has to be the
last one or beyond. -/
theorem seekTo_spec (h : it.Over es) (hpast : es.length ≤ i → es.length ≤ it.idx + 1) :
    ∃ it', it.seekTo i = .ok it' ∧ it'.StandsAt es i := by
  unfold seekTo
  cases he : es[i]? with
  | none =>
    have hlen : es.length ≤ i := List.getElem?_eq_none_iff.mp he
    rw [List.getElem?_eq_none (by rw [h.holds.length_offsets]; exact hlen)]
    exact ⟨_, rfl, ⟨h.holds, h.firstKey⟩, fun e he' => by simp [he] at he',
      fun _ => ⟨rfl, hpast hlen⟩⟩
  | some e =>
    obtain ⟨offset, hoff, hread⟩ := h.holds.readsAt h.firstKey he
    obtain ⟨range, hseek, hvalue⟩ := seekToOffset_eq hread
    rw [hoff]
    simp only [hseek, bind, Except.bind]
    refine ⟨_, rfl, ⟨h.holds, h.firstKey⟩, fun e' he' => ?_, fun hnone => by simp [he] at hnone⟩
    rw [he] at he'
    cases he'
    exact ⟨rfl, rfl, hvalue⟩

theorem next_spec (h : it.StandsAt es i) : ∃ it', it.next = .ok it' ∧ it'.StandsAt es (i + 1) := by
  have hover : { it with idx := it.idx + 1 }.Over es := ⟨h.holds, h.firstKey⟩
  unfold next
  cases he : es[i]? with
  | none =>
    -- past the end: the index moves on and the iterator stays invalid
    have hlen : es.length ≤ i := List.getElem?_eq_none_iff.mp he
    have hidx : es.length ≤ it.idx + 1 := (h.past he).2
    obtain ⟨it', hseek, hit'⟩ := seekTo_spec (i := it.idx + 1) hover fun _ => by
      change es.length ≤ it.idx + 1 + 1
      omega
    refine ⟨it', hseek, ⟨hit'.holds, hit'.firstKey⟩, fun e he' => ?_, fun _ => ?_⟩
    · rw [List.getElem?_eq_none (by omega)] at he'
      cases he'
    · exact hit'.past (List.getElem?_eq_none hidx)
  | some e =>
    have hidx : it.idx = i := (h.here e he).1
    obtain ⟨it', hseek, hit'⟩ := seekTo_spec (i := it.idx + 1) hover fun hle => by
      change es.length ≤ it.idx + 1 + 1
      omega
    rw [hidx] at hit'
    exact ⟨it', hseek, hit'⟩

/-- What the binary search knows: the entries before `start` are too small, those from `stop` on
are not. -/
structure Brackets (es : List Entry) (target : Key) (start stop : ℕ) : Prop where
  lt : ∀ e ∈ es.take start, e.1 < target
  ge : ∀ e ∈ es.drop stop, target ≤ e.1
  le : start ≤ stop
  stop_le : stop ≤ es.length

theorem Brackets.of_lt {start stop mid : ℕ} (hs : SortedRun es)
    (h : Brackets es target start stop) {e : Entry} (he : es[mid]? = some e) (hmid : mid < stop)
    (hlt : e.1 < target) : Brackets es target (mid + 1) stop where
  lt a ha := by
    obtain ⟨hi, rfl⟩ := List.getElem?_eq_some_iff.mp he
    rw [List.take_add_one, he, Option.toList_some, List.mem_append, List.mem_singleton] at ha
    rcases ha with ha | rfl
    · have hsplit := hs
      rw [← List.take_append_drop mid es, SortedRun.append_iff] at hsplit
      refine (hsplit.2.2 a ha es[mid] ?_).trans hlt
      rw [List.drop_eq_getElem_cons hi]
      exact List.mem_cons_self
    · exact hlt
  ge := h.ge
  le := hmid
  stop_le := h.stop_le

theorem Brackets.of_ge {start stop mid : ℕ} (hs : SortedRun es)
    (h : Brackets es target start stop) {e : Entry} (he : es[mid]? = some e) (hmid : start ≤ mid)
    (hge : target ≤ e.1) : Brackets es target start mid where
  lt := h.lt
  ge a ha := by
    obtain ⟨hi, rfl⟩ := List.getElem?_eq_some_iff.mp he
    rw [List.drop_eq_getElem_cons hi] at ha
    have hsplit : SortedRun (es[mid] :: es.drop (mid + 1)) := by
      rw [← List.drop_eq_getElem_cons hi]
      exact hs.sublist (List.drop_sublist _ _)
    exact hge.trans (hsplit.head_le ha)
  le := hmid
  stop_le := by
    obtain ⟨hi, -⟩ := List.getElem?_eq_some_iff.mp he
    omega

/-- The loop invariant of the binary search: the bracket, and an index that is at least the last
entry known to be too small. -/
theorem seekLoop_spec (hs : SortedRun es) (n : ℕ) : ∀ {start stop : ℕ} {it : BlockIterator},
    it.Over es → Brackets es target start stop → start ≤ it.idx + 1 → stop - start ≤ n →
    ∃ it' i, seekLoop target n start stop it = .ok it' ∧ it'.StandsAt es i ∧
      Brackets es target i i := by
  induction n with
  | zero =>
    intro start stop it hover hb hidx hn
    have hle := hb.le
    obtain rfl : start = stop := by omega
    obtain ⟨it', hseek, hit'⟩ := seekTo_spec (i := start) hover fun h => h.trans hidx
    exact ⟨it', start, hseek, hit', hb⟩
  | succ n ih =>
    intro start stop it hover hb hidx hn
    rw [seekLoop]
    by_cases hlt : start < stop
    · have hstop := hb.stop_le
      obtain ⟨it₁, hseek, hit₁⟩ :=
        seekTo_spec (i := (start + stop) / 2) hover fun h => by omega
      obtain ⟨e, he⟩ : ∃ e, es[(start + stop) / 2]? = some e :=
        ⟨_, List.getElem?_eq_getElem (by omega)⟩
      obtain ⟨hidx₁, hkey, -⟩ := hit₁.here e he
      rw [if_pos hlt]
      simp only [hseek, bind, Except.bind, hkey]
      by_cases hlow : e.1 < target
      · rw [if_pos hlow]
        exact ih hit₁.toOver (hb.of_lt hs he (by omega) hlow) (by omega) (by omega)
      · rw [if_neg hlow]
        have hge := hb.of_ge hs he (by omega) (not_lt.mp hlow)
        by_cases hhigh : target < e.1
        · rw [if_pos hhigh]
          exact ih hit₁.toOver hge (by omega) (by omega)
        · -- the key itself: everything before it is smaller
          rw [if_neg hhigh]
          have heq : e.1 = target := le_antisymm (not_lt.mp hhigh) (not_lt.mp hlow)
          refine ⟨it₁, _, rfl, hit₁, fun a ha => ?_, hge.ge, le_rfl, hge.stop_le⟩
          obtain ⟨hi, rfl⟩ := List.getElem?_eq_some_iff.mp he
          have hsplit := hs
          rw [← List.take_append_drop ((start + stop) / 2) es, SortedRun.append_iff] at hsplit
          rw [← heq]
          refine hsplit.2.2 a ha _ ?_
          rw [List.drop_eq_getElem_cons hi]
          exact List.mem_cons_self
    · have hle := hb.le
      obtain rfl : start = stop := by omega
      obtain ⟨it', hseek, hit'⟩ := seekTo_spec (i := start) hover fun h => h.trans hidx
      rw [if_neg hlt]
      exact ⟨it', start, hseek, hit', hb⟩

theorem Brackets.drop_eq (h : Brackets es target i i) :
    es.drop i = es.dropWhile fun e => e.1 < target := by
  conv_rhs => rw [← List.take_append_drop i es]
  rw [List.dropWhile_append_of_pos fun e he => by simpa using h.lt e he]
  cases hd : es.drop i with
  | nil => rfl
  | cons a l =>
    have hge : target ≤ a.1 := h.ge a (by rw [hd]; exact List.mem_cons_self)
    rw [List.dropWhile_cons_of_neg (by simpa using hge)]

theorem createAndSeekToFirst_spec {b : Block} (h : b.Holds es) :
    ∃ it, createAndSeekToFirst b = .ok it ∧ it.StandsAt es 0 := by
  obtain ⟨it, hnew, hover, hidx⟩ := new_over h
  have hpos : 0 < es.length := List.length_pos_iff.mpr h.ne_nil
  obtain ⟨it', hseek, hit'⟩ := seekTo_spec (i := 0) hover fun hle => by omega
  refine ⟨it', ?_, hit'⟩
  unfold createAndSeekToFirst seekToFirst
  rw [hnew]
  exact hseek

/-- **`seek_to_key` stops at the first entry that is not smaller than the key.** -/
theorem createAndSeekToKey_spec {b : Block} (h : b.Holds es) (hs : SortedRun es) (target : Key) :
    ∃ it i, createAndSeekToKey b target = .ok it ∧ it.StandsAt es i ∧
      es.drop i = es.dropWhile fun e => e.1 < target := by
  obtain ⟨it, hnew, hover, hidx⟩ := new_over h
  have hb : Brackets es target 0 es.length :=
    ⟨by simp, by simp, Nat.zero_le _, le_rfl⟩
  obtain ⟨it', i, hloop, hit', hbi⟩ :=
    seekLoop_spec hs es.length hover hb (Nat.zero_le _) (Nat.sub_le _ _)
  refine ⟨it', i, ?_, hit', hbi.drop_eq⟩
  unfold createAndSeekToKey seekToKey
  rw [hnew]
  simp only [bind, Except.bind, hover.holds.length_offsets]
  exact hloop

end BlockIterator

end TinyLsm

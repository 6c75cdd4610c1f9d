import TinyLsm.Key
import TinyLsm.Lib.BigEndian

/-!
# Failures and the functions that live outside the repository

A Rust function here may return `Err` or panic.  Both are a `Fault`; `Outcome` is the result of a
function that keeps no state.

`Platform` collects the pure functions the engine takes from other crates (`crc32fast`,
`farmhash`) and its floating-point formulas.  Nothing is assumed about them: every result holds for
any choice.
-/

namespace TinyLsm

/-- Why a call did not return normally: an `Err` or a panic. -/
inductive Fault where
  | err (msg : String)
  | panic (msg : String)
  deriving DecidableEq, Repr

/-- The result of a call that may return `Err` or panic. -/
abbrev Outcome := Except Fault

/-- `Option::unwrap` and its relatives: `none` is the given fault. -/
def Outcome.ofOption {α : Type} (f : Fault) : Option α → Outcome α
  | some a => .ok a
  | none => .error f

@[simp] theorem Outcome.ofOption_some {α : Type} (f : Fault) (a : α) :
    Outcome.ofOption f (some a) = .ok a := rfl

@[simp] theorem Outcome.ofOption_none {α : Type} (f : Fault) :
    Outcome.ofOption f (none : Option α) = .error f := rfl

theorem Outcome.ofOption_eq_ok_iff {α : Type} {f : Fault} {o : Option α} {a : α} :
    Outcome.ofOption f o = .ok a ↔ o = some a := by
  cases o <;> simp

/-- A computation that returns has passed every one of its steps. -/
theorem Outcome.bind_eq_ok_iff {α β : Type} {x : Outcome α} {f : α → Outcome β} {b : β} :
    (x >>= f) = .ok b ↔ ∃ a, x = .ok a ∧ f a = .ok b := by
  cases x with
  | error e => simp [bind, Except.bind]
  | ok a => simp [bind, Except.bind]

theorem eq_ok_of_toOption {ε α : Type} {x : Except ε α} {a : α} (h : x.toOption = some a) :
    x = .ok a := by
  cases x with
  | error f => cases h
  | ok b =>
    cases h
    rfl

theorem Outcome.map_eq_ok_iff {α β : Type} {x : Outcome α} {f : α → β} {b : β} :
    x.map f = .ok b ↔ ∃ a, x = .ok a ∧ f a = b := by
  cases x with
  | error e => simp [Except.map]
  | ok a => simp [Except.map]

/-- What the engine takes from outside: three digests and the `f64` formulas of the bloom filter and of
the compaction controllers. -/
class Platform where
  crc32 : Bytes → UInt32
  /-- `farmhash::fingerprint32`, for the bloom filters. -/
  fingerprint32 : Bytes → UInt32
  /-- `farmhash::hash32`, for the read and write sets of transactions. -/
  hash32 : Bytes → UInt32
  /-- From the number of entries. -/
  bloomBitsPerKey : ℕ → ℕ
  /-- `bits_per_key as f64 * 0.69`. -/
  bloomHashCount : ℕ → ℕ
  /-- `real as f64 / target as f64`, as the rational number it is. -/
  levelPriority : ℕ → ℕ → ℚ
  /-- `size as f64 / last as f64 * 100.0 >= percent as f64`. -/
  spaceAmpReached : ℕ → ℕ → ℕ → Bool
  /-- `next as f64 / size as f64 > (100.0 + ratio as f64) / 100.0`. -/
  sizeRatioExceeded : ℕ → ℕ → ℕ → Bool

/-! ## Byte cursors

`bytes::Buf` on a slice: every getter panics when the slice is too short. -/

/-- `get_u16`, `get_u32`, `get_u64`, by width in bytes. -/
def getUint (w : ℕ) (bs : Bytes) : Outcome (ℕ × Bytes) :=
  Outcome.ofOption (.panic "advance out of bounds") (takeBE w bs)

/-- `&buf[..n]` followed by `buf.advance(n)`. -/
def getSlice (n : ℕ) (bs : Bytes) : Outcome (Bytes × Bytes) :=
  Outcome.ofOption (.panic "range end index out of range") (splitBytes n bs)

/-- `&data[start..]`. -/
def sliceFrom (start : ℕ) (data : Bytes) : Outcome Bytes :=
  if start ≤ data.length then .ok (data.drop start)
  else .error (.panic "range start index out of range")

/-- `&data[start..end]`. -/
def slice (data : Bytes) (start stop : ℕ) : Outcome Bytes :=
  if start ≤ stop ∧ stop ≤ data.length then .ok ((data.drop start).take (stop - start))
  else .error (.panic "slice index out of range")

/-! ## Vectors -/

/-- `v[i]`. -/
def index {α : Type} (l : List α) (i : ℕ) : Outcome α :=
  Outcome.ofOption (.panic "index out of bounds") l[i]?

/-- `v[i] = a`. -/
def setIndex {α : Type} (l : List α) (i : ℕ) (a : α) : Outcome (List α) :=
  if i < l.length then .ok (l.set i a) else .error (.panic "index out of bounds")

theorem index_eq_ok_iff {α : Type} {l : List α} {i : ℕ} {a : α} :
    index l i = .ok a ↔ l[i]? = some a := Outcome.ofOption_eq_ok_iff

theorem setIndex_eq_ok_iff {α : Type} {l l' : List α} {i : ℕ} {a : α} :
    setIndex l i a = .ok l' ↔ i < l.length ∧ l' = l.set i a := by
  unfold setIndex
  split
  · rename_i h
    rw [Except.ok.injEq, eq_comm]
    exact (and_iff_right h).symm
  · rename_i h
    simp [h]

/-- `collect` of fallible items: every item is there. -/
theorem mapM_eq_ok_iff {α β : Type} {f : α → Outcome β} {l : List α} {bs : List β} :
    l.mapM f = .ok bs ↔ List.Forall₂ (fun a b => f a = .ok b) l bs := by
  induction l generalizing bs with
  | nil =>
    rw [List.mapM_nil, List.forall₂_nil_left_iff]
    constructor
    · rintro ⟨⟩
      rfl
    · rintro rfl
      rfl
  | cons a l ih =>
    rw [List.mapM_cons, Outcome.bind_eq_ok_iff, List.forall₂_cons_left_iff]
    constructor
    · rintro ⟨b, hb, h⟩
      obtain ⟨bs', hbs, h⟩ := Outcome.bind_eq_ok_iff.mp h
      cases h
      exact ⟨b, bs', hb, ih.mp hbs, rfl⟩
    · rintro ⟨b, bs', hb, hbs, rfl⟩
      exact ⟨b, hb, Outcome.bind_eq_ok_iff.mpr ⟨bs', ih.mpr hbs, rfl⟩⟩

theorem exists_of_mem_left {α β : Type} {R : α → β → Prop} {l : List α} {r : List β}
    (h : List.Forall₂ R l r) {a : α} (ha : a ∈ l) : ∃ b ∈ r, R a b := by
  obtain ⟨i, hi, rfl⟩ := List.mem_iff_getElem.mp ha
  obtain ⟨hlen, hget⟩ := List.forall₂_iff_get.mp h
  exact ⟨_, List.getElem_mem (hlen ▸ hi), hget i hi (hlen ▸ hi)⟩

theorem exists_of_mem_right {α β : Type} {R : α → β → Prop} {l : List α} {r : List β}
    (h : List.Forall₂ R l r) {b : β} (hb : b ∈ r) : ∃ a ∈ l, R a b :=
  exists_of_mem_left h.flip hb

theorem exists_mapM {α β : Type} {f : α → Outcome β} {l : List α} (h : ∀ a ∈ l, ∃ b, f a = .ok b) :
    ∃ bs, l.mapM f = .ok bs := by
  simp only [mapM_eq_ok_iff]
  induction l with
  | nil => exact ⟨[], .nil⟩
  | cons a l ih =>
    obtain ⟨⟨b, hb⟩, hrest⟩ := List.forall_mem_cons.mp h
    obtain ⟨bs, hbs⟩ := ih hrest
    exact ⟨b :: bs, .cons hb hbs⟩

theorem mapM_congr {α β : Type} {f g : α → Outcome β} {l : List α} (h : ∀ a ∈ l, f a = g a) :
    l.mapM f = l.mapM g := by
  induction l with
  | nil => rfl
  | cons a l ih =>
    obtain ⟨ha, hl⟩ := List.forall_mem_cons.mp h
    rw [List.mapM_cons, List.mapM_cons, ha, ih hl]

theorem filterM_congr {α : Type} {f g : α → Outcome Bool} {l : List α} (h : ∀ a ∈ l, f a = g a) :
    l.filterM f = l.filterM g := by
  have haux : ∀ acc : List α, List.filterAuxM f l acc = List.filterAuxM g l acc := by
    induction l with
    | nil => exact fun _ => rfl
    | cons a l ih =>
      obtain ⟨ha, hl⟩ := List.forall_mem_cons.mp h
      intro acc
      rw [List.filterAuxM, List.filterAuxM, ha]
      exact bind_congr fun b => ih hl _
  rw [List.filterM, List.filterM, haux]

/-- `filter` with a fallible predicate. -/
theorem filterM_eq_ok {α : Type} {f : α → Outcome Bool} {l r : List α} (h : l.filterM f = .ok r) :
    (∀ a ∈ l, ∃ b, f a = .ok b) ∧ r = l.filter fun a => (f a).toOption.getD false := by
  have haux : ∀ (l acc r : List α), List.filterAuxM f l acc = .ok r → (∀ a ∈ l, ∃ b, f a = .ok b) ∧
      r = (l.filter fun a => (f a).toOption.getD false).reverse ++ acc := by
    intro l
    induction l with
    | nil =>
      rintro acc r ⟨⟩
      exact ⟨by simp, by simp⟩
    | cons a l ih =>
      intro acc r h
      rw [List.filterAuxM, Outcome.bind_eq_ok_iff] at h
      obtain ⟨b, hb, h⟩ := h
      obtain ⟨hrest, rfl⟩ := ih _ _ h
      refine ⟨List.forall_mem_cons.mpr ⟨⟨b, hb⟩, hrest⟩, ?_⟩
      cases b <;> simp [hb, Except.toOption]
  unfold List.filterM at h
  rw [Outcome.bind_eq_ok_iff] at h
  obtain ⟨r', hr', h⟩ := h
  obtain ⟨hok, rfl⟩ := haux _ _ _ hr'
  cases h
  exact ⟨hok, by simp⟩

theorem exists_filterM {α : Type} {f : α → Outcome Bool} {l : List α} (h : ∀ a ∈ l, ∃ b, f a = .ok b) :
    ∃ r, l.filterM f = .ok r := by
  have haux : ∀ acc : List α, ∃ r, List.filterAuxM f l acc = .ok r := by
    induction l with
    | nil => exact fun acc => ⟨acc, rfl⟩
    | cons a l ih =>
      intro acc
      obtain ⟨⟨b, hb⟩, hrest⟩ := List.forall_mem_cons.mp h
      rw [List.filterAuxM, hb]
      exact ih hrest _
  obtain ⟨r, hr⟩ := haux []
  rw [List.filterM, hr]
  exact ⟨_, rfl⟩

/-! ## Reading one's own encoding -/

theorem getUint_append (w n : ℕ) (rest : Bytes) :
    getUint w (beBytes w n ++ rest) = .ok (n % 256 ^ w, rest) := by
  rw [getUint, takeBE_append, Outcome.ofOption_some]

theorem getUint_append_of_lt {w n : ℕ} (h : n < 256 ^ w) (rest : Bytes) :
    getUint w (beBytes w n ++ rest) = .ok (n, rest) := by
  rw [getUint_append, Nat.mod_eq_of_lt h]

theorem getUint_beBytes {w n : ℕ} (h : n < 256 ^ w) : getUint w (beBytes w n) = .ok (n, []) := by
  have happ := getUint_append_of_lt h []
  rwa [List.append_nil] at happ

theorem getSlice_append {n : ℕ} {xs : Bytes} (h : xs.length = n) (rest : Bytes) :
    getSlice n (xs ++ rest) = .ok (xs, rest) := by
  rw [getSlice, splitBytes_append h, Outcome.ofOption_some]

theorem slice_eq (pre post : Bytes) {data mid : Bytes} {start stop : ℕ} (h : data = pre ++ mid ++ post)
    (hs : start = pre.length) (he : stop = pre.length + mid.length) :
    slice data start stop = .ok mid := by
  subst h hs he
  rw [slice, if_pos ⟨by omega, by simp⟩]
  simp

theorem sliceFrom_append {pre post : Bytes} {start : ℕ} (h : start = pre.length) :
    sliceFrom start (pre ++ post) = .ok post := by
  subst h
  rw [sliceFrom, if_pos (by simp)]
  simp

/-- What is read from the front is what would be written there. -/
theorem getUint_eq_ok_iff {w n : ℕ} {bs rest : Bytes} :
    getUint w bs = .ok (n, rest) ↔ n < 256 ^ w ∧ bs = beBytes w n ++ rest := by
  constructor
  · intro h
    rw [getUint, takeBE, Outcome.ofOption_eq_ok_iff, Option.map_eq_some_iff] at h
    obtain ⟨⟨xs, rest'⟩, hsplit, heq⟩ := h
    obtain ⟨hlen, rfl⟩ := splitBytes_eq_some_iff.mp hsplit
    cases heq
    rw [← hlen, beBytes_ofBE]
    exact ⟨ofBE_lt xs, rfl⟩
  · rintro ⟨hn, rfl⟩
    exact getUint_append_of_lt hn rest

theorem getSlice_eq_ok_iff {n : ℕ} {bs xs rest : Bytes} :
    getSlice n bs = .ok (xs, rest) ↔ xs.length = n ∧ bs = xs ++ rest := by
  rw [getSlice, Outcome.ofOption_eq_ok_iff, splitBytes_eq_some_iff]

/-! Reading does not see what comes after the bytes it reads. -/

theorem getUint_extend {w n : ℕ} {bs rest : Bytes} (h : getUint w bs = .ok (n, rest))
    (more : Bytes) : getUint w (bs ++ more) = .ok (n, rest ++ more) := by
  obtain ⟨hn, rfl⟩ := getUint_eq_ok_iff.mp h
  rw [List.append_assoc]
  exact getUint_append_of_lt hn _

theorem getSlice_extend {n : ℕ} {bs xs rest : Bytes} (h : getSlice n bs = .ok (xs, rest))
    (more : Bytes) : getSlice n (bs ++ more) = .ok (xs, rest ++ more) := by
  obtain ⟨hlen, rfl⟩ := getSlice_eq_ok_iff.mp h
  rw [List.append_assoc, getSlice_append hlen]

theorem sliceFrom_extend {start : ℕ} {data xs : Bytes} (h : sliceFrom start data = .ok xs)
    (more : Bytes) : sliceFrom start (data ++ more) = .ok (xs ++ more) := by
  rw [sliceFrom] at h
  split at h
  · rename_i hle
    cases h
    rw [sliceFrom, if_pos (by rw [List.length_append]; omega), List.drop_append_of_le_length hle]
  · cases h

theorem slice_extend {start stop : ℕ} {data xs : Bytes} (h : slice data start stop = .ok xs)
    (more : Bytes) : slice (data ++ more) start stop = .ok xs := by
  rw [slice] at h
  split at h
  · rename_i hle
    cases h
    rw [slice, if_pos ⟨hle.1, by rw [List.length_append]; omega⟩,
      List.drop_append_of_le_length (by omega),
      List.take_append_of_le_length (by rw [List.length_drop]; omega)]
  · cases h

/-- `slice::partition_point`, on a slice that `p` partitions. -/
def partitionPoint {α : Type} (p : α → Bool) (l : List α) : ℕ := (l.takeWhile p).length

theorem partitionPoint_le {α : Type} (p : α → Bool) (l : List α) : partitionPoint p l ≤ l.length :=
  (List.takeWhile_prefix p).length_le

theorem of_lt_partitionPoint {α : Type} {p : α → Bool} {l : List α} {i : ℕ} {a : α}
    (hi : i < partitionPoint p l) (ha : l[i]? = some a) : p a = true := by
  obtain ⟨hlt, rfl⟩ := List.getElem?_eq_some_iff.mp ha
  have hpre := (List.takeWhile_prefix (l := l) p).getElem hi
  rw [← hpre]
  exact List.mem_takeWhile_imp (List.getElem_mem hi)

theorem not_of_partitionPoint {α : Type} {p : α → Bool} {l : List α} {a : α}
    (ha : l[partitionPoint p l]? = some a) : p a = false := by
  unfold partitionPoint at ha
  induction l with
  | nil => simp at ha
  | cons x l ih =>
    by_cases hx : p x = true
    · rw [List.takeWhile_cons_of_pos hx, List.length_cons, List.getElem?_cons_succ] at ha
      exact ih ha
    · rw [List.takeWhile_cons_of_neg hx] at ha
      rw [← Option.some.inj ha]
      exact Bool.eq_false_iff.mpr hx

/-- Subtraction on `usize`. -/
def usizeSub (a b : ℕ) : Outcome ℕ :=
  if b ≤ a then .ok (a - b) else .error (.panic "attempt to subtract with overflow")

theorem usizeSub_of_le {a b : ℕ} (h : b ≤ a) : usizeSub a b = .ok (a - b) := if_pos h

theorem usizeSub_eq_ok_iff {a b c : ℕ} : usizeSub a b = .ok c ↔ b ≤ a ∧ a - b = c := by
  unfold usizeSub
  split
  · rename_i h
    simp [h]
  · rename_i h
    simp [h]

/-! ## Checksums

Blocks, block metadata and bloom filters are all followed by the CRC of their bytes. -/

section

variable [Platform]

/-- The bytes with their checksum behind them. -/
def withChecksum (data : Bytes) : Bytes := data ++ beBytes 4 (Platform.crc32 data).toNat

/-- The bytes before the checksum, which has to match. -/
def verifyChecksum (msg : String) (buf : Bytes) : Outcome Bytes := do
  let dataLen ← usizeSub buf.length 4
  let data ← slice buf 0 dataLen
  let (actual, _) ← getUint 4 (← sliceFrom dataLen buf)
  if (Platform.crc32 data).toNat = actual then return data else throw (.err msg)

@[simp] theorem length_withChecksum (data : Bytes) :
    (withChecksum data).length = data.length + 4 := by
  rw [withChecksum, List.length_append, length_beBytes]

theorem verifyChecksum_withChecksum (msg : String) (data : Bytes) :
    verifyChecksum msg (withChecksum data) = .ok data := by
  have hlen : (withChecksum data).length - 4 = data.length := by
    rw [length_withChecksum]
    omega
  have hdata : slice (withChecksum data) 0 data.length = .ok data :=
    slice_eq [] _ rfl rfl (by simp)
  have htail : sliceFrom data.length (withChecksum data) =
      .ok (beBytes 4 (Platform.crc32 data).toNat) := sliceFrom_append rfl
  have hget : getUint 4 (beBytes 4 (Platform.crc32 data).toNat) =
      .ok ((Platform.crc32 data).toNat, []) := getUint_beBytes (Platform.crc32 data).toNat_lt
  unfold verifyChecksum
  rw [usizeSub_of_le (by rw [length_withChecksum]; omega)]
  simp only [bind, Except.bind, hlen, hdata, htail, hget, if_pos]
  rfl

end

/-! ## A concrete platform -/

/-- CRC-32 with the reflected polynomial `0xEDB88320`, bit by bit. -/
def crc32Step : ℕ → UInt32 → UInt32
  | 0, crc => crc
  | n + 1, crc => crc32Step n (if crc &&& 1 = 1 then crc >>> 1 ^^^ 3988292384 else crc >>> 1)

/-- CRC-32, byte by byte. -/
def crc32Hash (bs : Bytes) : UInt32 :=
  bs.foldl (fun crc b => crc32Step 8 (crc ^^^ b.toUInt32)) 4294967295 ^^^ 4294967295

/-- `u32::rotate_right`. -/
def rotateRight (h : UInt32) (n : UInt32) : UInt32 := h >>> n ||| h <<< (32 - n)

/-- `Mur` of farmhash. -/
def farmMur (a h : UInt32) : UInt32 :=
  rotateRight (h ^^^ rotateRight (a * 3432918353) 17 * 461845907) 19 * 5 + 3864292196

/-- `fmix` of farmhash. -/
def farmMix (h : UInt32) : UInt32 :=
  let h := (h ^^^ h >>> 16) * 2246822507
  let h := (h ^^^ h >>> 13) * 3266489909
  h ^^^ h >>> 16

/-- The branch of farmhash for keys of at most four bytes, which are read as unsigned. -/
def farmShort (bs : Bytes) : UInt32 :=
  let (b, c) := bs.foldl (fun (b, c) x =>
    let b := b * 3432918353 + x.toUInt32
    (b, c ^^^ b)) ((0, 9) : UInt32 × UInt32)
  farmMix (farmMur b (farmMur (UInt32.ofNat bs.length) c))

/-- What the engine sees when its keys have at most four bytes: ten bits per key and, from them,
six hashes.  The quotients of the controllers are taken exactly. -/
@[reducible] def shortKeyPlatform : Platform where
  crc32 := crc32Hash
  fingerprint32 := farmShort
  hash32 := farmShort
  bloomBitsPerKey n := if n = 0 then 0 else 10
  bloomHashCount bitsPerKey := bitsPerKey * 69 / 100
  levelPriority real target := real / target
  spaceAmpReached size last percent := last * percent ≤ size * 100 ∧ (last ≠ 0 ∨ size ≠ 0)
  sizeRatioExceeded next size ratio := size * (100 + ratio) < next * 100

/-- The CRC-32 of `"a"`. -/
example : crc32Hash [97] = 3904355907 := by decide +kernel

/-- A key with a byte above 127. -/
example : farmShort [200, 1, 2, 3] = 2753143928 := by decide +kernel

end TinyLsm

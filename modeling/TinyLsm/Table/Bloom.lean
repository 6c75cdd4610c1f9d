import TinyLsm.Runtime

/-!
# Bloom filters (`table/bloom.rs`)

A filter is a byte string of bits and a hash count `k`.  A hash `h` probes the bits
`h, h + delta, h + 2 delta, ...` modulo the number of bits, where `delta` is `h` rotated.

Setting a bit never clears one (`covers_setBit`), so the probes of a hash stay set once they are
(`checkProbes_mono`), and `mayContain_build` follows: **a filter built from some hashes answers
`true` for each of them**.
-/

namespace TinyLsm

/-- A bloom filter with `k` probes. -/
structure Bloom where
  filter : Bytes
  k : UInt8
  deriving DecidableEq, Repr

namespace Bloom

/-! ## Bits of a byte string -/

/-- `get_bit`, for an index inside the string. -/
def getBit (bits : Bytes) (idx : ℕ) : Bool := (bits.getD (idx / 8) 0).toNat.testBit (idx % 8)

/-- `set_bit(idx, true)`. -/
def setBit (bits : Bytes) (idx : ℕ) : Bytes :=
  bits.set (idx / 8) (UInt8.ofNat ((bits.getD (idx / 8) 0).toNat ||| 2 ^ (idx % 8)))

/-- The number of bits. -/
def bitLen (bits : Bytes) : ℕ := bits.length * 8

/-- `u32::rotate_left`. -/
def rotateLeft (h : UInt32) (n : UInt32) : UInt32 := h <<< n ||| h >>> (32 - n)

/-! ## Probing -/

/-- The bits that the hash `h` sets, for `k` rounds. -/
def setProbes (nbits : ℕ) (delta : UInt32) : ℕ → UInt32 → Bytes → Bytes
  | 0, _, filter => filter
  | k + 1, h, filter => setProbes nbits delta k (h + delta) (setBit filter (h.toNat % nbits))

/-- Whether all bits that are probed are set. -/
def checkProbes (nbits : ℕ) (delta : UInt32) (filter : Bytes) : ℕ → UInt32 → Bool
  | 0, _ => true
  | k + 1, h => getBit filter (h.toNat % nbits) && checkProbes nbits delta filter k (h + delta)

/-- An empty filter panics at the modulo, unless nothing is probed. -/
def mayContain (b : Bloom) (h : UInt32) : Outcome Bool :=
  if b.k > 30 then .ok true
  else if b.filter = [] ∧ b.k ≠ 0 then
    .error (.panic "attempt to calculate the remainder with a divisor of zero")
  else .ok (checkProbes (bitLen b.filter) (rotateLeft h 15) b.filter b.k.toNat h)

section

variable [Platform]

/-- `Bloom::decode`. -/
def decode (buf : Bytes) : Outcome Bloom := do
  let data ← verifyChecksum "bloom filter checksum mismatch" buf
  let last ← usizeSub data.length 1
  let k ← Outcome.ofOption (.panic "index out of bounds") data[last]?
  return ⟨data.take last, k⟩

/-- The bytes of a filter, with their checksum. -/
def encode (b : Bloom) : Bytes := withChecksum (b.filter ++ [b.k])

/-- `encode(&self, buf)`: the checksum covers what was appended to `buf`. -/
def encodeInto (b : Bloom) (buf : Bytes) : Bytes :=
  let start := buf.length
  let buf := buf ++ b.filter ++ [b.k]
  buf ++ beBytes 4 (Platform.crc32 (buf.drop start)).toNat

/-- The hash count, clamped to `1..=30`. -/
def hashCount (bitsPerKey : ℕ) : ℕ := max 1 (min (Platform.bloomHashCount bitsPerKey) 30)

/-- The size of the filter in bytes. -/
def filterBytes (numKeys bitsPerKey : ℕ) : ℕ := (max (numKeys * bitsPerKey) 64 + 7) / 8

/-- `Bloom::build_from_key_hashes`: set every probe of every key. -/
def buildFromKeyHashes (keys : List UInt32) (bitsPerKey : ℕ) : Bloom :=
  let k := hashCount bitsPerKey
  let nbytes := filterBytes keys.length bitsPerKey
  { filter := keys.foldl (fun filter h => setProbes (nbytes * 8) (rotateLeft h 15) k h filter)
      (List.replicate nbytes 0)
    k := UInt8.ofNat k }

end

/-! ## Setting bits -/

/-- `g` has the bits of `f`, and as many bytes. -/
structure Covers (f g : Bytes) : Prop where
  length_eq : g.length = f.length
  getBit : ∀ i, getBit f i = true → getBit g i = true

theorem Covers.refl (f : Bytes) : Covers f f := ⟨rfl, fun _ h => h⟩

theorem Covers.trans {f g h : Bytes} (hfg : Covers f g) (hgh : Covers g h) : Covers f h :=
  ⟨hgh.length_eq.trans hfg.length_eq, fun i hi => hgh.getBit i (hfg.getBit i hi)⟩

theorem toNat_setBit_byte (x : UInt8) {n : ℕ} (hn : n < 8) :
    (UInt8.ofNat (x.toNat ||| 2 ^ n)).toNat = x.toNat ||| 2 ^ n := by
  have hlt : x.toNat ||| 2 ^ n < 2 ^ 8 :=
    Nat.or_lt_two_pow x.toNat_lt (Nat.pow_lt_pow_right (by decide) hn)
  rw [UInt8.toNat_ofNat']
  exact Nat.mod_eq_of_lt hlt

theorem covers_setBit (bits : Bytes) (idx : ℕ) : Covers bits (setBit bits idx) := by
  refine ⟨by unfold setBit; rw [List.length_set], fun i hi => ?_⟩
  unfold getBit setBit at *
  rw [List.getD_eq_getElem?_getD, List.getElem?_set] at *
  by_cases hpos : idx / 8 = i / 8
  · by_cases hlen : idx / 8 < bits.length
    · rw [if_pos hpos, if_pos hlen, Option.getD_some,
        toNat_setBit_byte _ (Nat.mod_lt _ (by decide)), Nat.testBit_or, hpos,
        List.getD_eq_getElem?_getD, hi, Bool.true_or]
    · rw [← hpos, List.getElem?_eq_none (by omega)] at hi
      simp at hi
  · rw [if_neg hpos]
    exact hi

theorem getBit_setBit {bits : Bytes} {idx : ℕ} (h : idx < bitLen bits) :
    getBit (setBit bits idx) idx = true := by
  unfold bitLen at h
  unfold getBit setBit
  rw [List.getD_eq_getElem?_getD, List.getElem?_set, if_pos rfl, if_pos (by omega),
    Option.getD_some, toNat_setBit_byte _ (Nat.mod_lt _ (by decide)), Nat.testBit_or,
    Nat.testBit_two_pow_self, Bool.or_true]

/-! ## Probes stay set -/

theorem covers_setProbes (nbits : ℕ) (delta : UInt32) (k : ℕ) (h : UInt32) (filter : Bytes) :
    Covers filter (setProbes nbits delta k h filter) := by
  induction k generalizing h filter with
  | zero => exact .refl _
  | succ k ih => exact (covers_setBit _ _).trans (ih _ _)

theorem checkProbes_mono {f g : Bytes} (hfg : Covers f g) {nbits : ℕ} {delta : UInt32} {k : ℕ}
    {h : UInt32} (hcheck : checkProbes nbits delta f k h = true) :
    checkProbes nbits delta g k h = true := by
  induction k generalizing h with
  | zero => rfl
  | succ k ih =>
    rw [checkProbes, Bool.and_eq_true] at hcheck ⊢
    exact ⟨hfg.getBit _ hcheck.1, ih hcheck.2⟩

theorem checkProbes_setProbes {delta : UInt32} {k : ℕ} {h : UInt32} {filter : Bytes}
    (hne : filter ≠ []) :
    checkProbes (bitLen filter) delta (setProbes (bitLen filter) delta k h filter) k h = true := by
  induction k generalizing h filter with
  | zero => rfl
  | succ k ih =>
    have hpos : 0 < bitLen filter := by
      have := List.length_pos_iff.mpr hne
      unfold bitLen
      omega
    have hlen : bitLen (setBit filter (h.toNat % bitLen filter)) = bitLen filter := by
      unfold bitLen
      rw [(covers_setBit _ _).length_eq]
    rw [checkProbes, setProbes, Bool.and_eq_true]
    refine ⟨(covers_setProbes _ _ _ _ _).getBit _ (getBit_setBit (Nat.mod_lt _ hpos)), ?_⟩
    have hset : setBit filter (h.toNat % bitLen filter) ≠ [] := by
      intro hnil
      have := (covers_setBit filter (h.toNat % bitLen filter)).length_eq
      rw [hnil] at this
      exact hne (List.length_eq_zero_iff.mp this.symm)
    have hstep := ih (h := h + delta) hset
    rwa [hlen] at hstep

/-- The loop over the keys: what it starts with stays, and every key it meets is covered. -/
theorem foldl_setProbes (nbits k : ℕ) (keys : List UInt32) {filter : Bytes}
    (hnbits : bitLen filter = nbits) (hne : filter ≠ []) :
    Covers filter (keys.foldl (fun f h => setProbes nbits (rotateLeft h 15) k h f) filter) ∧
      ∀ h ∈ keys, checkProbes nbits (rotateLeft h 15)
        (keys.foldl (fun f h => setProbes nbits (rotateLeft h 15) k h f) filter) k h = true := by
  induction keys generalizing filter with
  | nil => exact ⟨.refl _, by simp⟩
  | cons h₀ keys ih =>
    have hcov := covers_setProbes nbits (rotateLeft h₀ 15) k h₀ filter
    have hlen : bitLen (setProbes nbits (rotateLeft h₀ 15) k h₀ filter) = nbits := by
      refine Eq.trans ?_ hnbits
      unfold bitLen
      rw [hcov.length_eq]
    obtain ⟨htail, hkeys⟩ := ih hlen (by
      intro hnil
      have := hcov.length_eq
      rw [hnil] at this
      exact hne (List.length_eq_zero_iff.mp this.symm))
    rw [List.foldl_cons]
    refine ⟨hcov.trans htail, fun h hh => ?_⟩
    rcases List.mem_cons.mp hh with rfl | hh
    · refine checkProbes_mono htail ?_
      subst hnbits
      exact checkProbes_setProbes hne
    · exact hkeys h hh

theorem replicate_filterBytes_ne_nil (numKeys bitsPerKey : ℕ) :
    List.replicate (filterBytes numKeys bitsPerKey) (0 : UInt8) ≠ [] := by
  intro hnil
  have := congrArg List.length hnil
  rw [List.length_replicate, List.length_nil] at this
  unfold filterBytes at this
  omega

variable [Platform]

theorem bitLen_build (keys : List UInt32) (bitsPerKey : ℕ) :
    bitLen (buildFromKeyHashes keys bitsPerKey).filter =
      filterBytes keys.length bitsPerKey * 8 := by
  obtain ⟨hcov, -⟩ := foldl_setProbes (filterBytes keys.length bitsPerKey * 8)
    (hashCount bitsPerKey) keys (by simp [bitLen])
    (replicate_filterBytes_ne_nil keys.length bitsPerKey)
  unfold bitLen
  rw [show (buildFromKeyHashes keys bitsPerKey).filter.length = _ from hcov.length_eq,
    List.length_replicate]

/-- **No false negatives.** -/
theorem mayContain_build {keys : List UInt32} {bitsPerKey : ℕ} {h : UInt32} (hh : h ∈ keys) :
    (buildFromKeyHashes keys bitsPerKey).mayContain h = .ok true := by
  obtain ⟨-, hkeys⟩ := foldl_setProbes (filterBytes keys.length bitsPerKey * 8)
    (hashCount bitsPerKey) keys (by simp [bitLen])
    (replicate_filterBytes_ne_nil keys.length bitsPerKey)
  have hk : (UInt8.ofNat (hashCount bitsPerKey)).toNat = hashCount bitsPerKey := by
    have : hashCount bitsPerKey < 256 := by
      unfold hashCount
      omega
    simpa using this
  have hlen := bitLen_build keys bitsPerKey
  unfold mayContain
  split
  · rfl
  · rw [if_neg]
    · rw [hlen, show (buildFromKeyHashes keys bitsPerKey).k.toNat = hashCount bitsPerKey from hk]
      exact congrArg Except.ok (hkeys h hh)
    · intro hnil
      rw [hnil.1] at hlen
      unfold bitLen filterBytes at hlen
      simp only [List.length_nil] at hlen
      omega

/-- A filter that was built answers for every hash. -/
theorem mayContain_build_ok (keys : List UInt32) (bitsPerKey : ℕ) (h : UInt32) :
    ∃ r, (buildFromKeyHashes keys bitsPerKey).mayContain h = .ok r := by
  unfold mayContain
  split
  · exact ⟨_, rfl⟩
  · rw [if_neg]
    · exact ⟨_, rfl⟩
    · intro hnil
      have hlen := bitLen_build keys bitsPerKey
      rw [hnil.1] at hlen
      unfold bitLen filterBytes at hlen
      simp only [List.length_nil] at hlen
      omega

/-! ## Encoding and decoding -/

theorem decode_encode (b : Bloom) : decode b.encode = .ok b := by
  unfold decode encode
  rw [verifyChecksum_withChecksum]
  simp only [bind, Except.bind]
  rw [usizeSub_of_le (by simp)]
  simp [pure, Except.pure]

theorem encodeInto_eq (b : Bloom) (buf : Bytes) : b.encodeInto buf = buf ++ b.encode := by
  have hdrop : (buf ++ b.filter ++ [b.k]).drop buf.length = b.filter ++ [b.k] := by
    rw [List.append_assoc, List.drop_left]
  unfold encodeInto encode withChecksum
  simp only [hdrop]
  simp only [List.append_assoc]

/-- **No false negatives, also after storage.** -/
theorem no_false_negatives {keys : List UInt32} (bitsPerKey : ℕ) {h : UInt32} (hh : h ∈ keys) :
    (buildFromKeyHashes keys bitsPerKey).mayContain h = .ok true ∧
      ∀ buf : Bytes, ∃ b,
        decode (((buildFromKeyHashes keys bitsPerKey).encodeInto buf).drop buf.length) = .ok b ∧
          b.mayContain h = .ok true := by
  refine ⟨mayContain_build hh, fun buf => ⟨buildFromKeyHashes keys bitsPerKey, ?_, mayContain_build hh⟩⟩
  rw [encodeInto_eq, List.drop_left, decode_encode]

end Bloom

section

attribute [local instance] shortKeyPlatform

theorem Bloom.no_false_negatives_two :
    (buildFromKeyHashes [7, 4294967295] 10).mayContain 4294967295 = .ok true ∧
      ∀ buf : Bytes, ∃ b,
        decode (((buildFromKeyHashes [7, 4294967295] 10).encodeInto buf).drop buf.length) = .ok b ∧
          b.mayContain 4294967295 = .ok true :=
  no_false_negatives 10 (by decide)

end

end TinyLsm

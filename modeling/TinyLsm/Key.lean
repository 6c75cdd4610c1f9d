import TinyLsm.Lib.Versions

/-!
# Byte strings and versioned keys (`key.rs`)

A key is a byte string with a timestamp.  `Ord for Key` compares
`(key_ref, Reverse(ts))`, so keys ascend and, within one key, timestamps descend: the newest
version comes first.  The three Rust instances `KeySlice`, `KeyVec` and `KeyBytes` differ only in
who owns the bytes and are one type here.
-/

instance UInt8.linearOrder : LinearOrder UInt8 where
  le_refl _ := UInt8.le_refl _
  le_trans _ _ _ := UInt8.le_trans
  le_antisymm _ _ := UInt8.le_antisymm
  le_total := UInt8.le_total
  lt_iff_le_not_ge a b := by
    simp only [UInt8.lt_iff_toNat_lt, UInt8.le_iff_toNat_le]
    omega
  toDecidableLE := inferInstance
  toDecidableEq := inferInstance
  toDecidableLT := inferInstance

instance UInt64.linearOrder : LinearOrder UInt64 where
  le_refl _ := UInt64.le_refl _
  le_trans _ _ _ := UInt64.le_trans
  le_antisymm _ _ := UInt64.le_antisymm
  le_total := UInt64.le_total
  lt_iff_le_not_ge a b := by
    simp only [UInt64.lt_iff_toNat_lt, UInt64.le_iff_toNat_le]
    omega
  toDecidableLE := inferInstance
  toDecidableEq := inferInstance
  toDecidableLT := inferInstance

namespace TinyLsm

/-- A byte string: `&[u8]`, `Vec<u8>` or `Bytes`. -/
abbrev Bytes := List UInt8

/-- `Key<T>(T, u64)`. -/
structure Key where
  keyRef : Bytes
  ts : UInt64
  deriving DecidableEq, Repr

/-- `TS_DEFAULT`. -/
def tsDefault : UInt64 := 0

/-- `TS_RANGE_BEGIN = u64::MAX`: no version of a key comes before it. -/
def tsRangeBegin : UInt64 := 18446744073709551615

/-- `TS_RANGE_END = u64::MIN`: no version of a key comes after it. -/
def tsRangeEnd : UInt64 := 0

theorem le_tsRangeBegin (t : UInt64) : t ≤ tsRangeBegin := by
  rw [UInt64.le_iff_toNat_le]
  exact Nat.le_of_lt_succ t.toNat_lt

theorem tsRangeEnd_le (t : UInt64) : tsRangeEnd ≤ t := by
  rw [UInt64.le_iff_toNat_le]
  exact Nat.zero_le _

namespace Key

/-- `KeyVec::new`, `KeyBytes::new`. -/
def new : Key := ⟨[], tsDefault⟩

instance : Inhabited Key := ⟨Key.new⟩

/-- The length of the key bytes. -/
def keyLen (k : Key) : ℕ := k.keyRef.length

/-- The key bytes and the eight bytes of the timestamp. -/
def rawLen (k : Key) : ℕ := k.keyRef.length + 8

/-- There are no key bytes, whatever the timestamp is. -/
def isEmpty (k : Key) : Bool := k.keyRef.isEmpty

theorem ext_iff' {a b : Key} : a = b ↔ a.keyRef = b.keyRef ∧ a.ts = b.ts := by
  cases a
  cases b
  simp

/-- `(key_ref, Reverse(ts))`, compared lexicographically. -/
instance : LT Key := ⟨fun a b => a.keyRef < b.keyRef ∨ a.keyRef = b.keyRef ∧ b.ts < a.ts⟩

instance : LE Key := ⟨fun a b => a.keyRef < b.keyRef ∨ a.keyRef = b.keyRef ∧ b.ts ≤ a.ts⟩

theorem lt_def {a b : Key} :
    a < b ↔ a.keyRef < b.keyRef ∨ a.keyRef = b.keyRef ∧ b.ts < a.ts := Iff.rfl

theorem le_def {a b : Key} :
    a ≤ b ↔ a.keyRef < b.keyRef ∨ a.keyRef = b.keyRef ∧ b.ts ≤ a.ts := Iff.rfl

instance (a b : Key) : Decidable (a < b) :=
  inferInstanceAs (Decidable (a.keyRef < b.keyRef ∨ a.keyRef = b.keyRef ∧ b.ts < a.ts))

instance (a b : Key) : Decidable (a ≤ b) :=
  inferInstanceAs (Decidable (a.keyRef < b.keyRef ∨ a.keyRef = b.keyRef ∧ b.ts ≤ a.ts))

instance : LinearOrder Key where
  le_refl a := Or.inr ⟨rfl, le_rfl⟩
  le_trans a b c hab hbc := by
    rcases hab with hab | ⟨hab, hts⟩ <;> rcases hbc with hbc | ⟨hbc, hts'⟩
    · exact Or.inl (hab.trans hbc)
    · exact Or.inl (hbc ▸ hab)
    · exact Or.inl (hab ▸ hbc)
    · exact Or.inr ⟨hab.trans hbc, hts'.trans hts⟩
  le_antisymm a b hab hba := by
    rcases hab with hab | ⟨hab, hts⟩ <;> rcases hba with hba | ⟨hba, hts'⟩
    · exact absurd (hab.trans hba) (lt_irrefl _)
    · exact absurd hab hba.not_gt
    · exact absurd hba hab.not_gt
    · exact ext_iff'.mpr ⟨hab, le_antisymm hts' hts⟩
  le_total a b := by
    rcases lt_trichotomy a.keyRef b.keyRef with h | h | h
    · exact Or.inl (Or.inl h)
    · exact (le_total b.ts a.ts).imp (fun ht => Or.inr ⟨h, ht⟩) fun ht => Or.inr ⟨h.symm, ht⟩
    · exact Or.inr (Or.inl h)
  lt_iff_le_not_ge a b := by
    rw [lt_def, le_def, le_def]
    rcases lt_trichotomy a.keyRef b.keyRef with h | h | h
    · simp [h, h.not_gt, h.ne']
    · simp only [h, lt_irrefl, false_or, true_and, not_le, iff_and_self]
      exact le_of_lt
    · simp [h, h.not_gt, h.ne']
  toDecidableLE := inferInstance
  toDecidableEq := inferInstance
  toDecidableLT := inferInstance

instance : VersionKey Key Bytes UInt64 where
  user := keyRef
  stamp := ts
  lt_iff _ _ := Iff.rfl

@[simp] theorem user_eq (k : Key) : VersionKey.user k = k.keyRef := rfl

@[simp] theorem stamp_eq (k : Key) : VersionKey.stamp k = k.ts := rfl

/-- The seek target `(k, TS_RANGE_BEGIN)` sits right before the versions of `k`. -/
theorem rangeBegin_le_iff {k : Bytes} {a : Key} : ⟨k, tsRangeBegin⟩ ≤ a ↔ k ≤ a.keyRef := by
  rw [le_def, @le_iff_lt_or_eq _ _ k]
  exact or_congr_right (and_iff_left (le_tsRangeBegin _))

theorem le_rangeEnd_iff {k : Bytes} {a : Key} : a ≤ ⟨k, tsRangeEnd⟩ ↔ a.keyRef ≤ k := by
  rw [le_def, @le_iff_lt_or_eq _ _ a.keyRef]
  exact or_congr_right (and_iff_left (tsRangeEnd_le _))

theorem rangeEnd_lt_iff {k : Bytes} {a : Key} : ⟨k, tsRangeEnd⟩ < a ↔ k < a.keyRef := by
  rw [← not_le, le_rangeEnd_iff, not_le]

theorem lt_rangeBegin_iff {k : Bytes} {a : Key} : a < ⟨k, tsRangeBegin⟩ ↔ a.keyRef < k := by
  rw [← not_le, rangeBegin_le_iff, not_le]

theorem keyRef_le_of_le {a b : Key} (h : a ≤ b) : a.keyRef ≤ b.keyRef :=
  VersionKey.user_le_of_le h

end Key

/-- An entry of a memtable or a table: a versioned key and its value; the empty value is a
tombstone. -/
abbrev Entry := Key × Bytes

end TinyLsm

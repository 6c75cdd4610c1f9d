import Mathlib

/-!
# Fixed-width big-endian integers

`beBytes w n` writes the low `w` bytes of `n`, most significant first, and `ofBE` reads a byte
string back.  Writing truncates (`ofBE_beBytes`), so the round trip holds exactly for the numbers
that fit (`ofBE_beBytes_of_lt`).

`splitBytes` and `takeBE` are the cursor forms: they consume a prefix and hand back the rest, or
say that the input is too short.
-/

/-- The low `w` bytes of `n`, most significant first. -/
def beBytes : ℕ → ℕ → List UInt8
  | 0, _ => []
  | w + 1, n => beBytes w (n / 256) ++ [UInt8.ofNat n]

/-- The number a byte string denotes, most significant byte first. -/
def ofBE (bs : List UInt8) : ℕ := bs.foldl (fun acc b => acc * 256 + b.toNat) 0

@[simp] theorem beBytes_zero (n : ℕ) : beBytes 0 n = [] := rfl

@[simp] theorem length_beBytes (w n : ℕ) : (beBytes w n).length = w := by
  induction w generalizing n with
  | zero => rfl
  | succ w ih => simp [beBytes, ih]

@[simp] theorem ofBE_nil : ofBE [] = 0 := rfl

theorem ofBE_snoc (bs : List UInt8) (b : UInt8) : ofBE (bs ++ [b]) = ofBE bs * 256 + b.toNat := by
  simp [ofBE, List.foldl_append]

theorem ofBE_lt (bs : List UInt8) : ofBE bs < 256 ^ bs.length := by
  induction bs using List.reverseRecOn with
  | nil => simp
  | append_singleton bs b ih =>
    have hb : b.toNat < 256 := b.toNat_lt
    rw [ofBE_snoc, List.length_append, List.length_singleton, pow_succ]
    omega

/-- Writing keeps the low `w` bytes. -/
theorem ofBE_beBytes (w n : ℕ) : ofBE (beBytes w n) = n % 256 ^ w := by
  induction w generalizing n with
  | zero => simp [Nat.mod_one]
  | succ w ih =>
    have hb : (UInt8.ofNat n).toNat = n % 256 := by simp
    rw [beBytes, ofBE_snoc, ih, hb, pow_succ', Nat.mod_mul]
    ring

theorem ofBE_beBytes_of_lt {w n : ℕ} (h : n < 256 ^ w) : ofBE (beBytes w n) = n := by
  rw [ofBE_beBytes, Nat.mod_eq_of_lt h]

/-- A byte string is what the number it denotes is written as. -/
theorem beBytes_ofBE (bs : List UInt8) : beBytes bs.length (ofBE bs) = bs := by
  induction bs using List.reverseRecOn with
  | nil => rfl
  | append_singleton bs b ih =>
    have hb : b.toNat < 256 := b.toNat_lt
    have hdiv : (ofBE bs * 256 + b.toNat) / 256 = ofBE bs := by omega
    have hmod : UInt8.ofNat (ofBE bs * 256 + b.toNat) = b := by
      rw [← UInt8.toNat_inj, UInt8.toNat_ofNat']
      omega
    rw [List.length_append, List.length_singleton, beBytes, ofBE_snoc, hdiv, hmod, ih]

/-! ## Cursors -/

/-- The first `n` bytes and the rest, when there are that many. -/
def splitBytes (n : ℕ) (bs : List UInt8) : Option (List UInt8 × List UInt8) :=
  if n ≤ bs.length then some (bs.take n, bs.drop n) else none

/-- A big-endian integer of `w` bytes at the front, and the rest. -/
def takeBE (w : ℕ) (bs : List UInt8) : Option (ℕ × List UInt8) :=
  (splitBytes w bs).map fun p => (ofBE p.1, p.2)

theorem splitBytes_append {n : ℕ} {xs : List UInt8} (h : xs.length = n) (rest : List UInt8) :
    splitBytes n (xs ++ rest) = some (xs, rest) := by
  rw [splitBytes, if_pos (by simp [h]), List.take_left' h, List.drop_left' h]

theorem splitBytes_eq_some_iff {n : ℕ} {bs xs rest : List UInt8} :
    splitBytes n bs = some (xs, rest) ↔ xs.length = n ∧ bs = xs ++ rest := by
  constructor
  · intro h
    rw [splitBytes] at h
    split at h
    · rename_i hn
      simp only [Option.some.injEq, Prod.mk.injEq] at h
      obtain ⟨rfl, rfl⟩ := h
      exact ⟨by simp [hn], (List.take_append_drop n bs).symm⟩
    · simp at h
  · rintro ⟨h, rfl⟩
    exact splitBytes_append h rest

theorem takeBE_append (w n : ℕ) (rest : List UInt8) :
    takeBE w (beBytes w n ++ rest) = some (n % 256 ^ w, rest) := by
  rw [takeBE, splitBytes_append (length_beBytes w n), Option.map_some, ofBE_beBytes]

theorem takeBE_append_of_lt {w n : ℕ} (h : n < 256 ^ w) (rest : List UInt8) :
    takeBE w (beBytes w n ++ rest) = some (n, rest) := by
  rw [takeBE_append, Nat.mod_eq_of_lt h]

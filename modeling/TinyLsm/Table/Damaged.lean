import TinyLsm.Table.Builder

/-!
# Opening files that were not written by the builder (`table.rs`, `table/bloom.rs`)

`SsTable::open` finds the sections of a table from two numbers in its footer and subtracts, slices and
reads before it has compared any checksum.  It reports a checksum that does not match, and panics
when a section does not lie where the footer puts it or is too short for what is read from it.

`noPanic_openFile_iff` says for every byte string which of these happens: `FooterFits` is what the
footer has to promise, `FilterFits` what the filter has to be like, and `Returns` puts them together with
what the metadata has to hold if its checksum matches.
-/

namespace TinyLsm

/-! ## Calls that do not panic -/

/-- The call returns `Ok` or `Err`. -/
def Outcome.NoPanic {α : Type} (x : Outcome α) : Prop := ∀ msg, x ≠ .error (.panic msg)

/-- The call returns `Ok` or panics. -/
def Outcome.NoErr {α : Type} (x : Outcome α) : Prop := ∀ msg, x ≠ .error (.err msg)

namespace Outcome

variable {α β : Type} {f : α → Outcome β}

theorem noPanic_ok (a : α) : NoPanic (.ok a : Outcome α) := by
  intro msg h
  cases h

theorem noPanic_bind {x : Outcome α} :
    NoPanic (x >>= f) ↔ NoPanic x ∧ ∀ a, x = .ok a → NoPanic (f a) := by
  cases x with
  | ok a => exact ⟨fun h => ⟨noPanic_ok a, fun b hb => by cases hb; exact h⟩, fun h => h.2 a rfl⟩
  | error e =>
    refine ⟨fun h => ⟨fun msg heq => h msg ?_, fun a ha => by cases ha⟩, fun h msg heq => h.1 msg ?_⟩
    · cases heq
      rfl
    · cases heq
      rfl

/-- A step that panics unless `p` holds. -/
theorem noPanic_bind_of {x : Outcome α} {p : Prop} {a : α} (hok : p → x = .ok a)
    (hpanic : ¬ p → ∃ msg, x = .error (.panic msg)) :
    NoPanic (x >>= f) ↔ p ∧ NoPanic (f a) := by
  by_cases hp : p
  · rw [hok hp, and_iff_right hp]
    rfl
  · obtain ⟨msg, hx⟩ := hpanic hp
    rw [hx]
    exact iff_of_false (fun h => h msg rfl) fun h => hp h.1

theorem NoErr.bind {x : Outcome α} (h : NoErr x) (hf : ∀ a, NoErr (f a)) : NoErr (x >>= f) := by
  cases x with
  | ok a => exact hf a
  | error e =>
    intro msg heq
    cases heq
    exact h msg rfl

theorem noErr_ok (a : α) : NoErr (.ok a : Outcome α) := by
  intro msg h
  cases h

theorem noErr_ofOption (msg : String) (o : Option α) : NoErr (ofOption (.panic msg) o) := by
  cases o with
  | none =>
    intro msg' h
    cases h
  | some a => exact noErr_ok a

/-- A call that cannot return `Err` has to return `Ok`. -/
theorem NoErr.noPanic_iff {x : Outcome α} (h : NoErr x) : NoPanic x ↔ ∃ a, x = .ok a := by
  constructor
  · intro hx
    cases x with
    | ok a => exact ⟨a, rfl⟩
    | error e =>
      cases e with
      | err msg => exact absurd rfl (h msg)
      | panic msg => exact absurd rfl (hx msg)
  · rintro ⟨a, rfl⟩
    exact noPanic_ok a

end Outcome

open Outcome

section

variable {β : Type}

theorem noPanic_usizeSub {a b : ℕ} {f : ℕ → Outcome β} :
    NoPanic (usizeSub a b >>= f) ↔ b ≤ a ∧ NoPanic (f (a - b)) :=
  noPanic_bind_of (fun h => usizeSub_of_le h) fun h => ⟨_, if_neg h⟩

theorem noPanic_sliceFrom {start : ℕ} {data : Bytes} {f : Bytes → Outcome β} :
    NoPanic (sliceFrom start data >>= f) ↔ start ≤ data.length ∧ NoPanic (f (data.drop start)) :=
  noPanic_bind_of (fun h => if_pos h) fun h => ⟨_, if_neg h⟩

theorem noPanic_slice {start stop : ℕ} {data : Bytes} {f : Bytes → Outcome β} :
    NoPanic (slice data start stop >>= f) ↔
      (start ≤ stop ∧ stop ≤ data.length) ∧ NoPanic (f ((data.drop start).take (stop - start))) :=
  noPanic_bind_of (fun h => if_pos h) fun h => ⟨_, if_neg h⟩

theorem noPanic_getUint {w : ℕ} {bs : Bytes} {f : ℕ × Bytes → Outcome β} :
    NoPanic (getUint w bs >>= f) ↔ w ≤ bs.length ∧ NoPanic (f (ofBE (bs.take w), bs.drop w)) := by
  refine noPanic_bind_of (fun h => ?_) fun h => ⟨"advance out of bounds", ?_⟩
  · rw [getUint, takeBE, splitBytes, if_pos h]
    rfl
  · rw [getUint, takeBE, splitBytes, if_neg h]
    rfl

theorem noPanic_ofOption {α : Type} {msg : String} {o : Option α} {f : α → Outcome β} :
    NoPanic (ofOption (.panic msg) o >>= f) ↔ ∃ a, o = some a ∧ NoPanic (f a) := by
  cases o with
  | none => exact iff_of_false (fun h => h msg rfl) (by simp)
  | some a =>
    rw [show ofOption (.panic msg) (some a) >>= f = f a from rfl]
    simp

end

/-! ## Numbers and checksums in a byte string -/

/-- The four-byte number at position `i`. -/
def u32At (bytes : Bytes) (i : ℕ) : ℕ := ofBE ((bytes.drop i).take 4)

theorem noPanic_tailU32 {β : Type} {data : Bytes} {f : ℕ × Bytes → Outcome β} (h : 4 ≤ data.length) :
    NoPanic (sliceFrom (data.length - 4) data >>= fun bytes => getUint 4 bytes >>= f) ↔
      NoPanic (f (u32At data (data.length - 4), [])) := by
  have hlen : (data.drop (data.length - 4)).length = 4 := by
    rw [List.length_drop]
    omega
  rw [noPanic_sliceFrom, and_iff_right (Nat.sub_le _ _), noPanic_getUint, and_iff_right hlen.ge,
    List.drop_eq_nil_of_le hlen.le]
  rfl

theorem noPanic_sliceU32 {β : Type} {data : Bytes} {start stop : ℕ} {f : ℕ × Bytes → Outcome β}
    (h : stop = start + 4) :
    NoPanic (slice data start stop >>= fun bytes => getUint 4 bytes >>= f) ↔
      stop ≤ data.length ∧ NoPanic (f (u32At data start, [])) := by
  subst h
  rw [noPanic_slice, noPanic_getUint, Nat.add_sub_cancel_left, and_iff_right (Nat.le_add_right _ _)]
  refine and_congr_right fun hle => ?_
  have hlen : ((data.drop start).take 4).length = 4 := by
    rw [List.length_take, List.length_drop]
    omega
  rw [and_iff_right hlen.ge, List.drop_eq_nil_of_le hlen.le, List.take_take, min_self]
  rfl

/-- The last four bytes are the checksum of what comes before. -/
def Checksummed [Platform] (buf : Bytes) : Prop :=
  (Platform.crc32 (buf.take (buf.length - 4))).toNat = u32At buf (buf.length - 4)

theorem verifyChecksum_of_le [Platform] (msg : String) {buf : Bytes} (h : 4 ≤ buf.length) :
    (Checksummed buf → verifyChecksum msg buf = .ok (buf.take (buf.length - 4))) ∧
      (¬ Checksummed buf → verifyChecksum msg buf = .error (.err msg)) := by
  have hdata : slice buf 0 (buf.length - 4) = .ok (buf.take (buf.length - 4)) :=
    if_pos ⟨Nat.zero_le _, Nat.sub_le _ _⟩
  have htail : sliceFrom (buf.length - 4) buf = .ok (buf.drop (buf.length - 4)) := if_pos (Nat.sub_le _ _)
  have hlen : (buf.drop (buf.length - 4)).length = 4 := by
    rw [List.length_drop]
    omega
  have hget : getUint 4 (buf.drop (buf.length - 4)) = .ok (u32At buf (buf.length - 4), []) := by
    rw [getUint, takeBE, splitBytes, if_pos hlen.ge, List.drop_eq_nil_of_le hlen.le]
    rfl
  unfold verifyChecksum
  rw [usizeSub_of_le h]
  simp only [bind, Except.bind, hdata, htail, hget]
  exact ⟨fun hsum => if_pos hsum, fun hsum => if_neg hsum⟩

/-- A mismatch is an `Err`; a panic means that there is no room for the checksum. -/
theorem noPanic_verifyChecksum [Platform] {β : Type} {msg : String} {buf : Bytes}
    {f : Bytes → Outcome β} : NoPanic (verifyChecksum msg buf >>= f) ↔
      4 ≤ buf.length ∧ (Checksummed buf → NoPanic (f (buf.take (buf.length - 4)))) := by
  by_cases h : 4 ≤ buf.length
  · rw [and_iff_right h]
    obtain ⟨hok, herr⟩ := verifyChecksum_of_le msg h
    by_cases hsum : Checksummed buf
    · rw [hok hsum]
      exact ⟨fun hf _ => hf, fun hf => hf hsum⟩
    · rw [herr hsum]
      refine iff_of_true (fun msg' heq => ?_) fun hf => absurd hf hsum
      cases heq
  · have hpanic : usizeSub buf.length 4 = .error (.panic "attempt to subtract with overflow") := if_neg h
    unfold verifyChecksum
    rw [hpanic]
    exact iff_of_false (fun hf => hf _ rfl) fun hf => h hf.1

/-! ## The metadata -/

theorem noErr_getUint (w : ℕ) (bs : Bytes) : NoErr (getUint w bs) := noErr_ofOption _ _

theorem noErr_getSlice (n : ℕ) (bs : Bytes) : NoErr (getSlice n bs) := noErr_ofOption _ _

namespace BlockMeta

theorem decodeKey_eq_ok_iff {reader rest : Bytes} {k : Key} :
    decodeKey reader = .ok (k, rest) ↔ k.keyLen < 256 ^ 2 ∧ reader = encodeKey k ++ rest := by
  constructor
  · intro h
    obtain ⟨⟨keyLen, r₁⟩, hlen, h⟩ := bind_eq_ok_iff.mp h
    obtain ⟨⟨key, r₂⟩, hkey, h⟩ := bind_eq_ok_iff.mp h
    obtain ⟨⟨ts, r₃⟩, hts, h⟩ := bind_eq_ok_iff.mp h
    cases h
    obtain ⟨hlt, rfl⟩ := getUint_eq_ok_iff.mp hlen
    obtain ⟨rfl, rfl⟩ := getSlice_eq_ok_iff.mp hkey
    obtain ⟨hts', rfl⟩ := getUint_eq_ok_iff.mp hts
    refine ⟨hlt, ?_⟩
    have hnat : (UInt64.ofNat ts).toNat = ts := by
      rw [UInt64.toNat_ofNat']
      exact Nat.mod_eq_of_lt hts'
    simp only [encodeKey, Key.keyLen, hnat, List.append_assoc]
  · rintro ⟨hk, rfl⟩
    exact decodeKey_encodeKey hk rest

theorem noErr_decodeKey (reader : Bytes) : NoErr (decodeKey reader) :=
  (noErr_getUint _ _).bind fun _ => (noErr_getSlice _ _).bind fun _ => (noErr_getUint _ _).bind fun _ =>
    noErr_ok _

theorem noErr_decodeBody (n : ℕ) (reader : Bytes) : NoErr (decodeBody n reader) := by
  induction n generalizing reader with
  | zero => exact noErr_ok _
  | succ n ih =>
    exact (noErr_getUint _ _).bind fun _ => (noErr_decodeKey _).bind fun _ =>
      (noErr_decodeKey _).bind fun _ => (ih _).bind fun _ => noErr_ok _

/-- What the loop over the blocks reads back is what it would write. -/
theorem decodeBody_eq_ok_iff {n : ℕ} {reader : Bytes} {metas : List BlockMeta} :
    decodeBody n reader = .ok metas ↔
      metas.length = n ∧ (∀ m ∈ metas, m.Fits) ∧ metas.flatMap encodeOne <+: reader := by
  constructor
  · intro h
    induction n generalizing reader metas with
    | zero =>
      cases h
      exact ⟨rfl, by simp, List.nil_prefix⟩
    | succ n ih =>
      obtain ⟨⟨offset, r₁⟩, hoffset, h⟩ := bind_eq_ok_iff.mp h
      obtain ⟨⟨firstKey, r₂⟩, hfirst, h⟩ := bind_eq_ok_iff.mp h
      obtain ⟨⟨lastKey, r₃⟩, hlast, h⟩ := bind_eq_ok_iff.mp h
      obtain ⟨rest, hrest, h⟩ := bind_eq_ok_iff.mp h
      cases h
      obtain ⟨hoff, rfl⟩ := getUint_eq_ok_iff.mp hoffset
      obtain ⟨hf, rfl⟩ := decodeKey_eq_ok_iff.mp hfirst
      obtain ⟨hl, rfl⟩ := decodeKey_eq_ok_iff.mp hlast
      obtain ⟨rfl, hfits, hprefix⟩ := ih hrest
      refine ⟨rfl, List.forall_mem_cons.mpr ⟨⟨hoff, hf, hl⟩, hfits⟩, ?_⟩
      rw [List.flatMap_cons, encodeOne]
      simp only [List.append_assoc, List.prefix_append_right_inj]
      exact hprefix
  · rintro ⟨rfl, hfits, rest, rfl⟩
    exact decodeBody_flatMap hfits rest

end BlockMeta

section

variable [Platform] {β : Type}

theorem BlockMeta.noPanic_decodeBlockMeta {buf : Bytes} {f : List BlockMeta → Outcome β} :
    NoPanic (decodeBlockMeta buf >>= f) ↔ 4 ≤ buf.length ∧ (Checksummed buf →
      ∃ metas : List BlockMeta, ((∀ m ∈ metas, m.Fits) ∧ metas.length < 256 ^ 4 ∧
        encodeBody metas <+: buf.take (buf.length - 4)) ∧ NoPanic (f metas)) := by
  unfold decodeBlockMeta
  rw [bind_assoc, noPanic_verifyChecksum]
  refine and_congr_right fun _ => imp_congr_right fun _ => ?_
  generalize buf.take (buf.length - 4) = data
  rw [bind_assoc, noPanic_bind, (noErr_getUint 4 data).noPanic_iff]
  constructor
  · rintro ⟨⟨⟨n, reader⟩, hget⟩, h⟩
    have hbody := h _ hget
    rw [noPanic_bind, (noErr_decodeBody _ _).noPanic_iff] at hbody
    obtain ⟨⟨metas, hmetas⟩, hf⟩ := hbody
    obtain ⟨hlen, hfits, rest, hrest⟩ := decodeBody_eq_ok_iff.mp hmetas
    obtain ⟨hn, rfl⟩ := getUint_eq_ok_iff.mp hget
    subst hlen
    refine ⟨metas, ⟨hfits, hn, rest, ?_⟩, hf metas hmetas⟩
    rw [encodeBody, List.append_assoc]
    exact congrArg _ hrest
  · rintro ⟨metas, ⟨hfits, hn, rest, rfl⟩, hf⟩
    have hget : getUint 4 (encodeBody metas ++ rest) =
        .ok (metas.length, metas.flatMap encodeOne ++ rest) := by
      rw [encodeBody, List.append_assoc]
      exact getUint_append_of_lt hn _
    refine ⟨⟨_, hget⟩, fun p hp => ?_⟩
    cases hget.symm.trans hp
    simp only [decodeBody_flatMap hfits rest]
    exact hf

/-- The byte before the checksum is the hash count, so there has to be one. -/
theorem Bloom.noPanic_decode {buf : Bytes} {f : Bloom → Outcome β} {p : Prop}
    (hf : ∀ bloom, NoPanic (f bloom) ↔ p) :
    NoPanic (decode buf >>= f) ↔ 4 ≤ buf.length ∧ (Checksummed buf → 5 ≤ buf.length ∧ p) := by
  unfold decode
  rw [bind_assoc, noPanic_verifyChecksum]
  refine and_congr_right fun _ => imp_congr_right fun _ => ?_
  have hlen : (buf.take (buf.length - 4)).length = buf.length - 4 := by
    rw [List.length_take]
    omega
  rw [bind_assoc, noPanic_usizeSub, bind_assoc, noPanic_ofOption, hlen]
  constructor
  · rintro ⟨hpos, k, -, h⟩
    exact ⟨by omega, (hf _).mp h⟩
  · rintro ⟨hpos, h⟩
    exact ⟨by omega, _, List.getElem?_eq_getElem (by omega), (hf _).mpr h⟩

end

/-! ## The file -/

namespace SsTable

/-- Where the footer puts the section of the filter. -/
def bloomSectionStart (file : Bytes) : ℕ := u32At file (file.length - 4)

/-- Where the number before that puts the metadata. -/
def metaSectionStart (file : Bytes) : ℕ := u32At file (bloomSectionStart file - 4)

/-- The bytes between the blocks and the filter, but for the number behind them. -/
def metaSection (file : Bytes) : Bytes :=
  (file.drop (metaSectionStart file)).take (bloomSectionStart file - 4 - metaSectionStart file)

/-- The length that the section of the filter starts with. -/
def bloomPayloadLen (file : Bytes) : ℕ := u32At file (bloomSectionStart file)

/-- The bytes of the filter. -/
def bloomSection (file : Bytes) : Bytes :=
  (file.drop (bloomSectionStart file + 4)).take (bloomPayloadLen file)

/-- The numbers in the footer point into the file, in order, and the metadata has room for its
checksum. -/
structure FooterFits (file : Bytes) : Prop where
  footer : 4 ≤ file.length
  bloom_ge : 4 ≤ bloomSectionStart file
  bloom_le : bloomSectionStart file ≤ file.length
  metadata : metaSectionStart file + 8 ≤ bloomSectionStart file

/-- The filter lies before the footer and has room for its checksum. -/
structure FilterFits (file : Bytes) : Prop where
  payload : bloomSectionStart file + 4 + bloomPayloadLen file + 4 ≤ file.length
  checksum : 4 ≤ bloomPayloadLen file

variable [Platform]

/-- What a file has to be like for `open` to return.  Where a checksum does not match, what comes after it
in the code does not matter. -/
def Returns (file : Bytes) : Prop :=
  FooterFits file ∧ (Checksummed (metaSection file) → ∃ metas : List BlockMeta,
    ((∀ m ∈ metas, m.Fits) ∧ metas.length < 256 ^ 4 ∧
      BlockMeta.encodeBody metas <+: (metaSection file).take ((metaSection file).length - 4)) ∧
    FilterFits file ∧ (Checksummed (bloomSection file) → 5 ≤ bloomPayloadLen file ∧ metas ≠ []))

omit [Platform] in
/-- The numbers of the footer in the order of the code: each is used before the next is read. -/
theorem footerFits_iff {file : Bytes} : FooterFits file ↔
    4 ≤ file.length ∧ 4 ≤ bloomSectionStart file ∧ bloomSectionStart file ≤ file.length ∧
      (metaSectionStart file ≤ bloomSectionStart file - 4 ∧ bloomSectionStart file - 4 ≤ file.length) ∧
      4 ≤ (metaSection file).length := by
  have hlen : 4 ≤ bloomSectionStart file → bloomSectionStart file ≤ file.length →
      (metaSection file).length = bloomSectionStart file - 4 - metaSectionStart file := by
    intro hge hle
    rw [metaSection, List.length_take, List.length_drop]
    omega
  constructor
  · rintro ⟨hfooter, hge, hle, hmeta⟩
    rw [hlen hge hle]
    omega
  · rintro ⟨hfooter, hge, hle, ⟨hstart, -⟩, hmeta⟩
    rw [hlen hge hle] at hmeta
    exact ⟨hfooter, hge, hle, by omega⟩

omit [Platform] in
/-- The number at the start of a section, and the bytes after it. -/
theorem section_reads {file : Bytes} {start len : ℕ} (hlen : 4 ≤ len) :
    u32At ((file.drop start).take len) 0 = u32At file start ∧
      ∀ n, 4 + n ≤ len → (((file.drop start).take len).drop 4).take n = (file.drop (start + 4)).take n := by
  refine ⟨?_, fun n hn => ?_⟩
  · rw [u32At, u32At, List.drop_zero, List.take_take, min_eq_left hlen]
  · rw [List.drop_take, List.drop_drop, List.take_take, min_eq_left (by omega)]

omit [Platform] in
/-- Only a table without blocks has no first and last key. -/
theorem noPanic_firstLast {β : Type} {msg : String} {metas : List BlockMeta} {g : BlockMeta → BlockMeta → β} :
    NoPanic (ofOption (.panic msg) metas.head? >>= fun first =>
      ofOption (.panic msg) metas.getLast? >>= fun last => .ok (g first last)) ↔ metas ≠ [] := by
  cases metas with
  | nil => exact iff_of_false (fun h => h msg rfl) fun h => h rfl
  | cons m metas =>
    refine iff_of_true ?_ (List.cons_ne_nil _ _)
    rw [noPanic_ofOption]
    refine ⟨m, rfl, ?_⟩
    rw [noPanic_ofOption]
    exact ⟨_, List.getLast?_eq_getLast_of_ne_nil (List.cons_ne_nil m metas), noPanic_ok _⟩

/-- What is sliced and read of the section of the filter. -/
theorem filterFits_iff {file : Bytes} (hle : bloomSectionStart file ≤ file.length) (p : Prop) :
    let blob := (file.drop (bloomSectionStart file)).take (file.length - 4 - bloomSectionStart file)
    let payload := (blob.drop 4).take (4 + u32At blob 0 - 4)
    ((bloomSectionStart file ≤ file.length - 4 ∧ file.length - 4 ≤ file.length) ∧ 4 ≤ blob.length ∧
      (4 ≤ 4 + u32At blob 0 ∧ 4 + u32At blob 0 ≤ blob.length) ∧ 4 ≤ payload.length ∧
        (Checksummed payload → 5 ≤ payload.length ∧ p)) ↔
      FilterFits file ∧ (Checksummed (bloomSection file) → 5 ≤ bloomPayloadLen file ∧ p) := by
  intro blob payload
  have hblob : blob.length = file.length - 4 - bloomSectionStart file := by
    rw [List.length_take, List.length_drop]
    omega
  by_cases h4 : 4 ≤ file.length - 4 - bloomSectionStart file
  · obtain ⟨hlen, hbytes⟩ := @section_reads file (bloomSectionStart file) _ h4
    have hlen' : u32At blob 0 = bloomPayloadLen file := hlen
    by_cases h5 : 4 + bloomPayloadLen file ≤ file.length - 4 - bloomSectionStart file
    · have hpayload : payload = bloomSection file := by
        show (blob.drop 4).take (4 + u32At blob 0 - 4) = _
        rw [hlen', Nat.add_sub_cancel_left]
        exact hbytes _ h5
      have hpayloadLen : payload.length = bloomPayloadLen file := by
        rw [hpayload, bloomSection, List.length_take, List.length_drop]
        omega
      rw [hpayloadLen, hpayload, hblob, hlen', and_iff_right (by omega), and_iff_right h4,
        and_iff_right (by omega)]
      exact and_congr_left fun _ => ⟨fun h => ⟨by omega, h⟩, fun h => h.checksum⟩
    · refine iff_of_false (fun h => h5 ?_) fun h => h5 ?_
      · rw [← hlen', ← hblob]
        exact h.2.2.1.2
      · have hfits := h.1.payload
        omega
  · refine iff_of_false (fun h => h4 ?_) fun h => h4 ?_
    · rw [← hblob]
      exact h.2.1
    · have hfits := h.1.payload
      omega

/-- **When `open` returns**, for every byte string. -/
theorem noPanic_openFile_iff (id : ℕ) (file : Bytes) : NoPanic (openFile id file) ↔ Returns file := by
  have hassoc : ∀ {p q r s t u : Prop}, (p ∧ q ∧ r ∧ s ∧ t ∧ u) ↔ (p ∧ q ∧ r ∧ s ∧ t) ∧ u := by
    intro p q r s t u
    simp only [and_assoc]
  rw [Returns, footerFits_iff, ← hassoc]
  unfold openFile
  rw [noPanic_usizeSub]
  refine and_congr_right fun hfooter => ?_
  rw [noPanic_tailU32 hfooter]
  simp only
  rw [noPanic_usizeSub]
  refine and_congr_right fun hge => ?_
  rw [noPanic_sliceU32 (by omega)]
  simp only
  refine and_congr_right fun hle => ?_
  rw [noPanic_slice]
  refine and_congr_right fun _ => ?_
  rw [BlockMeta.noPanic_decodeBlockMeta]
  refine and_congr_right fun _ => imp_congr_right fun _ => ?_
  refine exists_congr fun metas => and_congr_right fun _ => ?_
  rw [noPanic_slice, noPanic_sliceU32 (Nat.zero_add 4).symm]
  simp only
  rw [noPanic_slice, Bloom.noPanic_decode (p := metas ≠ [])]
  · exact filterFits_iff hle _
  · exact fun bloom => noPanic_firstLast
end SsTable

section

attribute [local instance] shortKeyPlatform

/-- The file of a table with one entry panics when all of it is cut off, and when the last byte of its
footer is cleared. -/
theorem SsTable.openFile_damaged_panics : ∃ t, SsTable.ofEntries 4096 1 [(⟨[97], 1⟩, [7])] = .ok t ∧
    NoPanic (openFile 1 t.file) ∧ ¬ NoPanic (openFile 1 (t.file.take 0)) ∧
    ¬ NoPanic (openFile 1 (t.file.dropLast ++ [0])) := by
  have hopens : (SsTable.ofEntries 4096 1 [(⟨[97], 1⟩, [7])]).toOption.map (fun t =>
      [t.file, t.file.take 0, t.file.dropLast ++ [0]].map fun file => (openFile 1 file).map SsTable.numOfBlocks) =
      some [.ok 1, .error (.panic "attempt to subtract with overflow"),
        .error (.panic "attempt to subtract with overflow")] := by
    decide +kernel
  rcases htable : SsTable.ofEntries 4096 1 [(⟨[97], 1⟩, [7])] with e | t
  · rw [htable] at hopens
    cases hopens
  rw [htable] at hopens
  have hlist := Option.some.inj hopens
  simp only [List.map_cons, List.map_nil, List.cons.injEq] at hlist
  obtain ⟨hwhole, hcut, hcleared, -⟩ := hlist
  have hpanics : ∀ {x : Outcome SsTable} {msg : String},
      x.map SsTable.numOfBlocks = .error (.panic msg) → ¬ NoPanic x := by
    intro x msg hx hno
    cases x with
    | ok a => cases hx
    | error e =>
      cases hx
      exact hno msg rfl
  obtain ⟨t', ht', -⟩ := map_eq_ok_iff.mp hwhole
  refine ⟨t, rfl, ?_, hpanics hcut, hpanics hcleared⟩
  rw [ht']
  exact noPanic_ok t'

end

end TinyLsm

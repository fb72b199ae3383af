import BitcoinCash.Proofs.Wire.Reader

namespace BitcoinCash

/-- How many bytes a compact number takes: its own byte, or a tag with two, four or eight bytes. -/
inductive CompactWidth
  | one
  | three
  | five
  | nine
  deriving DecidableEq, Repr

namespace CompactWidth

def length : CompactWidth → ℕ
  | .one => 1
  | .three => 3
  | .five => 5
  | .nine => 9

def bound : CompactWidth → ℕ
  | .one => 0xfd
  | .three => 256 ^ 2
  | .five => 256 ^ 4
  | .nine => 256 ^ 8

def write : CompactWidth → ℕ → Bytes
  | .one, n => Wire.u8 (UInt8.ofNat n)
  | .three, n => 0xfd :: Bytes.ofNatLE 2 n
  | .five, n => 0xfe :: Bytes.ofNatLE 4 n
  | .nine, n => 0xff :: Bytes.ofNatLE 8 n

def least (n : ℕ) : CompactWidth :=
  if n < 0xfd then .one
  else if n < 256 ^ 2 then .three
  else if n < 256 ^ 4 then .five
  else .nine

variable {w : CompactWidth} {n : ℕ}

@[simp]
theorem length_write (w : CompactWidth) (n : ℕ) : (w.write n).length = w.length := by
  cases w <;> simp [write, length, Wire.u8]

theorem length_pos (w : CompactWidth) : 0 < w.length := by
  cases w <;> decide

theorem length_injective : Function.Injective length := by
  intro w w' h
  cases w <;> cases w' <;> first | rfl | cases h

theorem lt_of_lt_bound (h : n < w.bound) : n < 2 ^ 64 := by
  cases w <;> simp only [bound] at h <;> omega

theorem lt_bound_least (h : n < 2 ^ 64) : n < (least n).bound := by
  unfold least
  split_ifs with h1 h3 h5
  · exact h1
  · exact h3
  · exact h5
  · exact h

theorem length_least_le (h : n < w.bound) : (least n).length ≤ w.length := by
  unfold least
  cases w <;> simp only [bound] at h <;> split_ifs <;> simp only [length] <;> omega

theorem eq_least_iff (h : n < w.bound) : w = least n ↔ w.length ≤ (least n).length := by
  constructor
  · intro he
    rw [← he]
  · intro hle
    exact length_injective (Nat.le_antisymm hle (length_least_le h))

theorem least_toNat (v : UInt64) : least v.toNat =
    if v ≤ 0xfc then .one else if v ≤ 0xffff then .three else if v ≤ 0xffffffff then .five
    else .nine := by
  have hone : v ≤ 0xfc ↔ v.toNat < 0xfd := UInt64.le_iff_toNat_le.trans Nat.lt_succ_iff.symm
  have hthree : v ≤ 0xffff ↔ v.toNat < 256 ^ 2 := UInt64.le_iff_toNat_le.trans Nat.lt_succ_iff.symm
  have hfive : v ≤ 0xffffffff ↔ v.toNat < 256 ^ 4 :=
    UInt64.le_iff_toNat_le.trans Nat.lt_succ_iff.symm
  simp only [least, hone, hthree, hfive]

theorem length_least (v : UInt64) : (least v.toNat).length = Wire.compactSizeLength v := by
  rw [least_toNat, Wire.compactSizeLength]
  split_ifs <;> rfl

theorem write_least (v : UInt64) : (least v.toNat).write v.toNat = Wire.compactSize v := by
  rw [least_toNat, Wire.compactSize]
  split_ifs
  · exact congrArg Wire.u8 (UInt8.ofNat_uInt64ToNat v)
  · rfl
  · rfl
  · rfl

theorem write_least_eq_size (h : n < 2 ^ 64) : (least n).write n = Wire.size n := by
  have hn : (UInt64.ofNat n).toNat = n := UInt64.toNat_ofNat_of_lt' h
  rw [Wire.size, ← write_least, hn]

end CompactWidth

namespace Reader

open CompactWidth

theorem takes_compactSize_write {w : CompactWidth} {n : ℕ} (h : n < w.bound) :
    Takes compactSize (w.write n) (UInt64.ofNat n) := by
  cases w with
  | one =>
    have hbyte : (UInt8.ofNat n).toNat = n := UInt8.toNat_ofNat_of_lt' (Nat.lt_trans h (by decide))
    have hne (t : UInt8) (ht : 0xfd ≤ t.toNat) : UInt8.ofNat n ≠ t := by
      intro heq
      rw [← heq, hbyte] at ht
      exact absurd h (not_lt.2 ht)
    have hwide : (UInt8.ofNat n).toUInt64 = UInt64.ofNat n := by
      rw [← UInt64.toNat_inj, UInt8.toNat_toUInt64, hbyte,
        UInt64.toNat_ofNat_of_lt' (lt_of_lt_bound h)]
    refine (takes_u8 (UInt8.ofNat n)).bind (v := []) ?_
    rw [if_neg (hne 0xff (by decide)), if_neg (hne 0xfe (by decide)), if_neg (hne 0xfd (by decide)),
      hwide]
    exact .pure _
  | three =>
    have hword : (UInt16.ofNat n).toNat = n := UInt16.toNat_ofNat_of_lt' h
    have hwide : (UInt16.ofNat n).toUInt64 = UInt64.ofNat n := by
      rw [← UInt64.toNat_inj, UInt16.toNat_toUInt64, hword,
        UInt64.toNat_ofNat_of_lt' (lt_of_lt_bound h)]
    have hread := (takes_u16 (UInt16.ofNat n)).bind_pure UInt16.toUInt64
    rw [hword, hwide] at hread
    exact (takes_u8 0xfd).bind hread
  | five =>
    have hword : (UInt32.ofNat n).toNat = n := UInt32.toNat_ofNat_of_lt' h
    have hwide : (UInt32.ofNat n).toUInt64 = UInt64.ofNat n := by
      rw [← UInt64.toNat_inj, UInt32.toNat_toUInt64, hword,
        UInt64.toNat_ofNat_of_lt' (lt_of_lt_bound h)]
    have hread := (takes_u32 (UInt32.ofNat n)).bind_pure UInt32.toUInt64
    rw [Wire.u32, hword, hwide] at hread
    exact (takes_u8 0xfe).bind hread
  | nine =>
    have hread := takes_u64 (UInt64.ofNat n)
    rw [Wire.u64, UInt64.toNat_ofNat_of_lt' h] at hread
    exact (takes_u8 0xff).bind hread

theorem takes_compactSize (v : UInt64) : Takes compactSize (Wire.compactSize v) v := by
  have hread := takes_compactSize_write (lt_bound_least v.toNat_lt)
  rwa [write_least, UInt64.ofNat_toNat] at hread

theorem takes_varBytes_write {w : CompactWidth} {b : Bytes} (h : b.length < w.bound) :
    Takes varBytes (w.write b.length ++ b) b := by
  have hn : (UInt64.ofNat b.length).toNat = b.length :=
    UInt64.toNat_ofNat_of_lt' (lt_of_lt_bound h)
  exact (takes_compactSize_write h).bind (takes_bytes hn.symm)

theorem takes_varBytes {b : Bytes} (h : b.length < 2 ^ 64) :
    Takes varBytes (Wire.varBytes b) b := by
  rw [Wire.varBytes, ← write_least_eq_size h]
  exact takes_varBytes_write (lt_bound_least h)

/-- The widths that the reader accepts are those that hold the number. -/
theorem compactSize_eq_ok {b rest : Bytes} {v : UInt64} :
    compactSize b = .ok v rest ↔
      ∃ w : CompactWidth, v.toNat < w.bound ∧ b = w.write v.toNat ++ rest := by
  constructor
  · intro h
    obtain ⟨tag, t, htag, hbody⟩ := bind_eq_ok.1 h
    rw [u8_eq_ok.1 htag]
    split_ifs at hbody with hnine hfive hthree
    · rw [hnine, u64_eq_ok.1 hbody]
      exact ⟨.nine, v.toNat_lt, rfl⟩
    · obtain ⟨x, s, hx, hv⟩ := bind_eq_ok.1 hbody
      obtain ⟨rfl, rfl⟩ := pure_eq_ok.1 hv
      rw [hfive, u32_eq_ok.1 hx, UInt32.toNat_toUInt64]
      exact ⟨.five, x.toNat_lt, rfl⟩
    · obtain ⟨x, s, hx, hv⟩ := bind_eq_ok.1 hbody
      obtain ⟨rfl, rfl⟩ := pure_eq_ok.1 hv
      rw [hthree, u16_eq_ok.1 hx, UInt16.toNat_toUInt64]
      exact ⟨.three, x.toNat_lt, rfl⟩
    · obtain ⟨rfl, rfl⟩ := pure_eq_ok.1 hbody
      rw [UInt8.toNat_toUInt64]
      have hlt : tag.toNat < 0xfd := by
        rw [← UInt8.toNat_inj] at hnine hfive hthree
        have htop := tag.toNat_lt
        change tag.toNat ≠ 0xff at hnine
        change tag.toNat ≠ 0xfe at hfive
        change tag.toNat ≠ 0xfd at hthree
        omega
      exact ⟨.one, hlt, by rw [write, UInt8.ofNat_toNat]⟩
  · intro ⟨w, hw, hb⟩
    rw [hb]
    have hread := takes_compactSize_write hw rest
    rwa [UInt64.ofNat_toNat] at hread

theorem varBytes_eq_ok {b a rest : Bytes} :
    varBytes b = .ok a rest ↔
      ∃ w : CompactWidth, a.length < w.bound ∧ b = w.write a.length ++ a ++ rest := by
  constructor
  · intro h
    obtain ⟨v, t, hv, ha⟩ := bind_eq_ok.1 h
    obtain ⟨w, hw, hb⟩ := compactSize_eq_ok.1 hv
    obtain ⟨hlen, ht⟩ := bytes_eq_ok.1 ha
    rw [← hlen] at hw hb
    exact ⟨w, hw, by rw [hb, ht, List.append_assoc]⟩
  · intro ⟨w, hw, hb⟩
    rw [hb]
    exact takes_varBytes_write hw rest

end Reader

namespace Wire

open CompactWidth

variable {b : Bytes} {v : UInt64} {k : ℕ}

theorem ofCompactSize_eq_ok : ofCompactSize b = .ok (v, k) ↔
    ∃ w : CompactWidth, v.toNat < w.bound ∧ w.length = k ∧ w.write v.toNat <+: b := by
  constructor
  · intro h
    unfold ofCompactSize at h
    split at h
    · next v rest hread =>
      cases h
      obtain ⟨w, hw, rfl⟩ := Reader.compactSize_eq_ok.1 hread
      exact ⟨w, hw, by simp, List.prefix_append _ _⟩
    · cases h
  · rintro ⟨w, hw, rfl, rest, rfl⟩
    have hread : Reader.compactSize (w.write v.toNat ++ rest) = .ok v rest :=
      Reader.compactSize_eq_ok.2 ⟨w, hw, rfl⟩
    simp [ofCompactSize, hread]

/-- A number is read back from its written form with the length of it, and no other form of it is
as short. -/
theorem ofCompactSize_exact :
    (∀ (v : UInt64) (rest : Bytes),
      ofCompactSize (compactSize v ++ rest) = .ok (v, compactSizeLength v) ∧
        (compactSize v).length = compactSizeLength v) ∧
      ∀ {b v k}, ofCompactSize b = .ok (v, k) →
        compactSizeLength v ≤ k ∧ k ≤ b.length ∧
          (k = compactSizeLength v ↔ b.take k = compactSize v) := by
  simp only [← length_least, ← write_least]
  constructor
  · intro v rest
    refine ⟨ofCompactSize_eq_ok.2 ?_, length_write _ _⟩
    exact ⟨least v.toNat, lt_bound_least v.toNat_lt, rfl, List.prefix_append _ _⟩
  · intro b v k h
    obtain ⟨w, hw, rfl, hb⟩ := ofCompactSize_eq_ok.1 h
    have htake : b.take w.length = w.write v.toNat := by
      rw [List.prefix_iff_eq_take.1 hb, length_write]
    refine ⟨length_least_le hw, length_write w v.toNat ▸ hb.length_le, ?_⟩
    rw [htake]
    constructor
    · intro hlen
      rw [length_injective hlen]
    · intro hwrite
      rw [← length_write w v.toNat, hwrite, length_write]

theorem ofCompactSize_exact_wide :
    ofCompactSize [0xfd, 0xff, 0xff, 7] = .ok (0xffff, 3) ∧
      ofCompactSize [0xfe, 0xff, 0xff, 0, 0] = .ok (0xffff, 5) ∧
      [0xfe, 0xff, 0xff, 0, 0] ≠ compactSize 0xffff := by
  have hwide : ofCompactSize [0xfe, 0xff, 0xff, 0, 0] = .ok (0xffff, 5) := by decide
  obtain ⟨-, -, hiff⟩ := ofCompactSize_exact.2 hwide
  exact ⟨(ofCompactSize_exact.1 0xffff [7]).1, hwide, fun h ↦ absurd (hiff.2 h) (by decide)⟩

end Wire

end BitcoinCash

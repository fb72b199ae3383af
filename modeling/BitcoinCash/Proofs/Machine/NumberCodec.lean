import BitcoinCash.Proofs.Machine.Number

namespace BitcoinCash.Number

variable {b : Bytes} {x : UInt8} {n : ℤ} {k : ℕ}

theorem encode_of_digits (h : Bytes.digitsLE n.natAbs = b ++ [x]) :
    encode n = if x &&& 0x80 = 0 then b ++ [if n < 0 then x ||| 0x80 else x]
      else b ++ [x] ++ [if n < 0 then 0x80 else 0] := by
  simp only [encode, h, List.getLast?_concat, List.dropLast_concat, ite_not]
  by_cases hneg : n < 0 <;> simp [hneg]

theorem ne_zero_of_digits (h : Bytes.digitsLE n.natAbs = b ++ [x]) : n ≠ 0 := by
  rintro rfl
  rw [Int.natAbs_zero, Bytes.digitsLE, if_pos rfl] at h
  simp at h

theorem and_magnitude_and_sign : x &&& 0x7f &&& 0x80 = 0 := by
  rw [UInt8.and_assoc]
  exact UInt8.and_zero

theorem and_magnitude_or_sign :
    (if x &&& 0x80 = 0 then x &&& 0x7f else x &&& 0x7f ||| 0x80) = x := by
  split
  next h => exact and_magnitude_of_unsigned h
  next h =>
    have hlt := x.toNat_lt
    rw [Bytes.and_sign_eq_zero] at h
    rw [← UInt8.toNat_inj, toNat_or_sign and_magnitude_and_sign, toNat_and_magnitude]
    omega

theorem natAbs_value_concat (b : Bytes) (x : UInt8) :
    (value (b ++ [x])).natAbs = Bytes.toNatLE (b ++ [x &&& 0x7f]) := by
  rw [value_concat]
  split
  next hx => rw [and_magnitude_of_unsigned hx, Int.natAbs_natCast]
  next => rw [Int.natAbs_neg, Int.natAbs_natCast]

theorem value_concat_neg_iff (h : value (b ++ [x]) ≠ 0) :
    value (b ++ [x]) < 0 ↔ ¬ x &&& 0x80 = 0 := by
  rw [value_concat] at h ⊢
  split
  next hx => simp [hx]
  next hx =>
    rw [if_neg hx] at h
    simp only [hx, not_false_eq_true, iff_true]
    omega

theorem exists_before_of_isMinimal (h : isMinimal (b ++ [x])) (hx : x &&& 0x7f = 0) :
    ∃ a y, b = a ++ [y] ∧ ¬ y &&& 0x80 = 0 := by
  induction b using List.reverseRecOn with
  | nil => simp [isMinimal, hx] at h
  | append_singleton a y => exact ⟨a, y, rfl, by simpa [isMinimal, hx] using h⟩

/-- An element without a superfluous byte is the encoding of its number. -/
theorem encode_value (h : isMinimal b) : encode (value b) = b := by
  induction b using List.reverseRecOn with
  | nil => exact encode_zero
  | append_singleton b x =>
    have habs := natAbs_value_concat b x
    have hlast := and_magnitude_or_sign (x := x)
    by_cases hx : x &&& 0x7f = 0
    · -- The last byte holds the sign alone, as the one before it has no room for it.
      obtain ⟨a, y, rfl, hy⟩ := exists_before_of_isMinimal h hx
      have hy0 : y ≠ 0 := by
        rintro rfl
        exact hy rfl
      rw [hx, Bytes.toNatLE_concat_zero] at habs
      have hdigits := Bytes.digitsLE_toNatLE_concat (b := a) hy0
      rw [← habs] at hdigits
      have hsign := value_concat_neg_iff (ne_zero_of_digits hdigits)
      rw [hx] at hlast
      rw [encode_of_digits hdigits, if_neg hy]
      simp only [hsign, ite_not]
      exact congrArg (a ++ [y] ++ [·]) hlast
    · have hdigits := Bytes.digitsLE_toNatLE_concat (b := b) hx
      rw [← habs] at hdigits
      have hsign := value_concat_neg_iff (ne_zero_of_digits hdigits)
      rw [encode_of_digits hdigits, if_pos and_magnitude_and_sign]
      simp only [hsign, ite_not]
      rw [hlast]

theorem length_encode_le_iff : (encode n).length ≤ k ↔ 2 * n.natAbs < 256 ^ k := by
  constructor
  · intro h
    have hlt := two_mul_natAbs_value_lt (encode n)
    rw [value_encode] at hlt
    exact hlt.trans_le (Nat.pow_le_pow_right (by decide) h)
  · exact length_encode_le

theorem two_mul_lt_pow_iff {m : ℕ} : 2 * m < 256 ^ k ↔ m < 2 ^ (8 * k - 1) := by
  cases k with
  | zero => omega
  | succ k =>
    have hexp : 8 * (k + 1) - 1 = 8 * k + 7 := by omega
    rw [← two_mul_sign, hexp]
    omega

/-- What is written of a number is short exactly if the number is small, and is read back as that
number; what is read under the rule of minimal encodings is written back as it was; and without
that rule every element that is short enough is read, as its number. -/
theorem encodings_correspond (hk : k ≤ 8) :
    (∀ n : ℤ, ∃ b, write n = .ok b ∧ (b.length ≤ k ↔ n.natAbs < 2 ^ (8 * k - 1)) ∧
      (b.length ≤ k → decode ⟨k, true⟩ b = .ok n)) ∧
    (∀ b n, decode ⟨k, true⟩ b = .ok n → write n = .ok b) ∧
    ∀ b n, decode ⟨k, false⟩ b = .ok n ↔ b.length ≤ k ∧ n = value b := by
  refine ⟨?_, ?_, ?_⟩
  · intro n
    refine ⟨encode n, write_eq n, length_encode_le_iff.trans two_mul_lt_pow_iff, ?_⟩
    intro h
    exact decode_encode (length_encode_le_iff.1 h) (Nat.le_refl k) hk
  · intro b n h
    obtain ⟨-, hminimal, hvalue⟩ := decode_eq_ok.1 h
    rw [write_eq, ← hvalue, encode_value (hminimal rfl)]
  · intro b n
    rw [decode_eq_ok]
    simp only [Bool.false_eq_true, false_implies, true_and, eq_comm (a := n)]
    exact and_congr_left fun _ ↦ ⟨And.left, fun h ↦ ⟨h, h.trans hk⟩⟩

theorem encodings_correspond_eight :
    8 ≤ 8 ∧ write (-0x7fffffffffffffff) = .ok (List.replicate 8 0xff) ∧
      (∃ b, write (-0x8000000000000000) = .ok b ∧ ¬ b.length ≤ 8) ∧
      decode ⟨8, false⟩ [5, 0, 0x80] = .ok (-5) := by
  have h := encodings_correspond (k := 8) (by decide)
  obtain ⟨b, hb, hlength, -⟩ := h.1 (-0x8000000000000000)
  refine ⟨by decide, h.2.1 _ _ (by decide +kernel), ⟨b, hb, ?_⟩, (h.2.2 _ _).2 ⟨by decide, rfl⟩⟩
  rw [hlength]
  decide

end BitcoinCash.Number

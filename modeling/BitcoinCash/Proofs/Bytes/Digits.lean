import Mathlib.Algebra.Group.Nat.Defs
import Mathlib.Data.Nat.Bitwise
import Mathlib.Tactic.Ring
import BitcoinCash.Bytes.Basic

namespace BitcoinCash.Bytes

/-- A fact about all bytes below a bound is checked one byte at a time. -/
@[elab_as_elim]
theorem of_toNat_lt {bound : Nat} {P : UInt8 → Prop} {x : UInt8} (hx : x.toNat < bound)
    (h : ∀ k < bound, P (UInt8.ofNat k)) : P x := by
  have hp := h x.toNat hx
  rwa [UInt8.ofNat_toNat] at hp

theorem and_sign_eq_zero {x : UInt8} : x &&& 0x80 = 0 ↔ x.toNat < 128 := by
  have hlt := x.toNat_lt
  have hsign : (x &&& 0x80).toNat = x.toNat / 2 ^ 7 % 2 * 2 ^ 7 := by
    rw [UInt8.toNat_and, ← Nat.toNat_testBit]
    exact Nat.and_two_pow x.toNat 7
  rw [← UInt8.toNat_inj, hsign, UInt8.toNat_zero]
  omega

theorem toNatLE_ofNatLE {width n : Nat} (h : n < 256 ^ width) : toNatLE (ofNatLE width n) = n := by
  induction width generalizing n with
  | zero =>
    rw [Nat.pow_zero] at h
    simp only [ofNatLE, toNatLE]
    omega
  | succ w ih =>
    have hdiv : n / 256 < 256 ^ w := by
      rw [Nat.pow_succ] at h
      omega
    simp only [ofNatLE, toNatLE, ih hdiv, UInt8.toNat_ofNat']
    omega

theorem toNatLE_lt (b : Bytes) : toNatLE b < 256 ^ b.length := by
  induction b with
  | nil => exact Nat.one_pos
  | cons x b ih =>
    have hx := x.toNat_lt
    rw [toNatLE, List.length_cons, Nat.pow_succ]
    omega

theorem ofNatLE_toNatLE (b : Bytes) : ofNatLE b.length (toNatLE b) = b := by
  induction b with
  | nil => rfl
  | cons x b ih =>
    have hx := x.toNat_lt
    have hdiv : (x.toNat + 256 * toNatLE b) / 256 = toNatLE b := by omega
    have hmod : UInt8.ofNat (x.toNat + 256 * toNatLE b) = x := by
      rw [← UInt8.toNat_inj, UInt8.toNat_ofNat']
      omega
    rw [toNatLE, List.length_cons, ofNatLE, hdiv, hmod, ih]

theorem toNatLE_concat (b : Bytes) (x : UInt8) :
    toNatLE (b ++ [x]) = toNatLE b + 256 ^ b.length * x.toNat := by
  induction b with
  | nil => simp [toNatLE]
  | cons y b ih =>
    rw [List.cons_append, toNatLE, ih, toNatLE, List.length_cons]
    ring

theorem toNatLE_concat_zero (b : Bytes) : toNatLE (b ++ [0]) = toNatLE b := by
  rw [toNatLE_concat]
  rfl

theorem toNatLE_eq_zero_iff {b : Bytes} : toNatLE b = 0 ↔ ∀ x ∈ b, x = 0 := by
  induction b with
  | nil => simp [toNatLE]
  | cons x b ih =>
    rw [toNatLE, Nat.add_eq_zero_iff, Nat.mul_eq_zero, ih, List.forall_mem_cons, ← UInt8.toNat_inj]
    simp

theorem toNatBE_reverse (b : Bytes) : toNatBE b.reverse = toNatLE b := by
  induction b with
  | nil => rfl
  | cons x b ih =>
    rw [List.reverse_cons, toNatBE, List.foldl_append]
    change 256 * toNatBE b.reverse + x.toNat = x.toNat + 256 * toNatLE b
    rw [ih, Nat.add_comm]

theorem toNatBE_ofNatBE {width n : Nat} (h : n < 256 ^ width) : toNatBE (ofNatBE width n) = n := by
  rw [ofNatBE, toNatBE_reverse, toNatLE_ofNatLE h]

theorem toNatLE_digitsLE (n : Nat) : toNatLE (digitsLE n) = n := by
  induction n using digitsLE.induct with
  | case1 =>
    rw [digitsLE, if_pos rfl]
    rfl
  | case2 n h ih =>
    rw [digitsLE, if_neg h, toNatLE, ih, UInt8.toNat_ofNat']
    omega

theorem toNatBE_digitsBE (n : Nat) : toNatBE (digitsBE n) = n := by
  rw [digitsBE, toNatBE_reverse, toNatLE_digitsLE]

theorem toNatBE_eq (b : Bytes) : toNatBE b = toNatLE b.reverse := by
  rw [← toNatBE_reverse, List.reverse_reverse]

theorem toNatBE_lt (b : Bytes) : toNatBE b < 256 ^ b.length := by
  rw [toNatBE_eq, ← List.length_reverse]
  exact toNatLE_lt b.reverse

theorem ofNatBE_toNatBE (b : Bytes) : ofNatBE b.length (toNatBE b) = b := by
  rw [ofNatBE, toNatBE_eq, ← List.length_reverse, ofNatLE_toNatLE, List.reverse_reverse]

theorem toNatBE_cons (x : UInt8) (b : Bytes) :
    toNatBE (x :: b) = 256 ^ b.length * x.toNat + toNatBE b := by
  have hfold (m : Nat) (b : Bytes) : b.foldl (fun n x ↦ 256 * n + x.toNat) m =
      256 ^ b.length * m + toNatBE b := by
    induction b generalizing m with
    | nil => simp [toNatBE]
    | cons x b ih =>
      rw [toNatBE, List.foldl_cons, List.foldl_cons, ih, ih (256 * 0 + x.toNat), List.length_cons]
      ring
  rw [toNatBE, List.foldl_cons, hfold, Nat.mul_zero, Nat.zero_add]

theorem toNatBE_lt_iff {a b : Bytes} (hlen : a.length = b.length) :
    toNatBE a < toNatBE b ↔ a < b := by
  induction a generalizing b with
  | nil =>
    obtain rfl : b = [] := List.length_eq_zero_iff.1 hlen.symm
    exact iff_of_false (Nat.lt_irrefl _) (List.lt_irrefl [])
  | cons x a ih =>
    cases b with
    | nil => cases hlen
    | cons y b =>
      have htail : a.length = b.length := Nat.succ.inj hlen
      have ha : toNatBE a < 256 ^ b.length := htail ▸ toNatBE_lt a
      have hb := toNatBE_lt b
      rw [toNatBE_cons, toNatBE_cons, htail, List.cons_lt_cons_iff, UInt8.lt_iff_toNat_lt,
        ← UInt8.toNat_inj, ← ih htail]
      rcases Nat.lt_trichotomy x.toNat y.toNat with hxy | hxy | hxy
      · have hmul := Nat.mul_le_mul_left (256 ^ b.length) (Nat.succ_le_of_lt hxy)
        rw [Nat.mul_succ] at hmul
        omega
      · rw [hxy]
        omega
      · have hmul := Nat.mul_le_mul_left (256 ^ b.length) (Nat.succ_le_of_lt hxy)
        rw [Nat.mul_succ] at hmul
        omega

theorem toNatBE_zero_cons (b : Bytes) : toNatBE (0 :: b) = toNatBE b := rfl

theorem toNatBE_replicate_append (k : Nat) (b : Bytes) :
    toNatBE (List.replicate k 0 ++ b) = toNatBE b := by
  induction k with
  | zero => rfl
  | succ k ih => rw [List.replicate_succ, List.cons_append, toNatBE_zero_cons, ih]

theorem toNatBE_dropWhile (b : Bytes) : toNatBE (b.dropWhile (· = 0)) = toNatBE b := by
  induction b with
  | nil => rfl
  | cons x b ih =>
    by_cases hx : x = 0
    · rw [List.dropWhile_cons_of_pos (by simpa using hx), ih, hx, toNatBE_zero_cons]
    · rw [List.dropWhile_cons_of_neg (by simpa using hx)]

theorem pow_le_toNatBE_cons {x : UInt8} (hx : x ≠ 0) (b : Bytes) :
    256 ^ b.length ≤ toNatBE (x :: b) := by
  have hpos : 0 < x.toNat := Nat.pos_of_ne_zero fun h ↦ hx (UInt8.toNat_inj.1 h)
  rw [toNatBE_cons]
  exact (Nat.le_mul_of_pos_right _ hpos).trans (Nat.le_add_right _ _)

/-- Strings without leading zeros are ordered as their numbers: by their lengths, and those of one
length byte by byte. -/
theorem toNatBE_le_iff {a b : Bytes} (ha : a.head? ≠ some 0) (hb : b.head? ≠ some 0) :
    toNatBE a ≤ toNatBE b ↔ a.length < b.length ∨ a.length = b.length ∧ a ≤ b := by
  have shorter {a b : Bytes} (hb : b.head? ≠ some 0) (hlen : a.length < b.length) :
      toNatBE a < toNatBE b := by
    cases b with
    | nil => exact absurd hlen (Nat.not_lt_zero _)
    | cons x b =>
      have hx : x ≠ 0 := by simpa using hb
      calc toNatBE a < 256 ^ a.length := toNatBE_lt a
        _ ≤ 256 ^ b.length := Nat.pow_le_pow_right (by decide) (Nat.le_of_lt_succ hlen)
        _ ≤ toNatBE (x :: b) := pow_le_toNatBE_cons hx b
  rcases Nat.lt_trichotomy a.length b.length with hlen | hlen | hlen
  · exact iff_of_true (shorter hb hlen).le (.inl hlen)
  · rw [← Nat.not_lt, toNatBE_lt_iff hlen.symm, List.not_lt]
    simp [hlen]
  · refine iff_of_false (Nat.not_le_of_lt (shorter ha hlen)) ?_
    omega

theorem length_digitsLE_le {width n : Nat} (h : n < 256 ^ width) :
    (digitsLE n).length ≤ width := by
  induction width generalizing n with
  | zero =>
    rw [Nat.pow_zero] at h
    rw [digitsLE, if_pos (by omega)]
    exact Nat.le_refl 0
  | succ w ih =>
    have hdiv : n / 256 < 256 ^ w := by
      rw [Nat.pow_succ] at h
      omega
    rw [digitsLE]
    split
    · exact Nat.zero_le _
    · exact Nat.succ_le_succ (ih hdiv)

theorem length_digitsBE_le {width n : Nat} (h : n < 256 ^ width) :
    (digitsBE n).length ≤ width := by
  rw [digitsBE, List.length_reverse]
  exact length_digitsLE_le h

theorem digitsBE_zero : digitsBE 0 = [] := by
  rw [digitsBE, digitsLE, if_pos rfl, List.reverse_nil]

theorem digitsLE_eq_concat {n : Nat} (h : n ≠ 0) : ∃ b x, digitsLE n = b ++ [x] ∧ x ≠ 0 := by
  induction n using digitsLE.induct with
  | case1 => exact absurd rfl h
  | case2 n h ih =>
    rw [digitsLE, if_neg h]
    by_cases hn : n / 256 = 0
    · refine ⟨[], UInt8.ofNat n, by rw [hn, digitsLE, if_pos rfl]; rfl, fun h0 ↦ h ?_⟩
      have h0 := congrArg UInt8.toNat h0
      rw [UInt8.toNat_ofNat', UInt8.toNat_zero] at h0
      omega
    · obtain ⟨b, x, hb, hx⟩ := ih hn
      exact ⟨UInt8.ofNat n :: b, x, by rw [hb]; rfl, hx⟩

theorem digitsBE_eq_cons {n : Nat} (h : n ≠ 0) : ∃ x b, digitsBE n = x :: b ∧ x ≠ 0 := by
  obtain ⟨b, x, hb, hx⟩ := digitsLE_eq_concat h
  exact ⟨x, b.reverse, by rw [digitsBE, hb, List.reverse_append]; rfl, hx⟩

theorem digitsLE_toNatLE_concat {b : Bytes} {x : UInt8} (hx : x ≠ 0) :
    digitsLE (toNatLE (b ++ [x])) = b ++ [x] := by
  induction b with
  | nil =>
    have hx0 : x.toNat ≠ 0 := fun h ↦ hx (UInt8.toNat_inj.1 h)
    have hlt := x.toNat_lt
    have hdiv : x.toNat / 256 = 0 := by omega
    rw [List.nil_append, toNatLE, toNatLE, Nat.mul_zero, Nat.add_zero, digitsLE, if_neg hx0, hdiv,
      digitsLE, if_pos rfl, UInt8.ofNat_toNat]
  | cons y b ih =>
    have hy := y.toNat_lt
    have hrest : toNatLE (b ++ [x]) ≠ 0 := by
      intro h0
      rw [h0, digitsLE, if_pos rfl] at ih
      exact List.cons_ne_nil x [] (List.append_eq_nil_iff.1 ih.symm).2
    have hdiv : (y.toNat + 256 * toNatLE (b ++ [x])) / 256 = toNatLE (b ++ [x]) := by omega
    have hmod : UInt8.ofNat (y.toNat + 256 * toNatLE (b ++ [x])) = y := by
      rw [← UInt8.toNat_inj, UInt8.toNat_ofNat']
      omega
    rw [List.cons_append, toNatLE, digitsLE, if_neg (by omega), hdiv, hmod, ih]

/-- A string without a leading zero holds the digits of its number. -/
theorem digitsBE_toNatBE_cons {x : UInt8} (b : Bytes) (hx : x ≠ 0) :
    digitsBE (toNatBE (x :: b)) = x :: b := by
  rw [digitsBE, toNatBE_eq, List.reverse_cons, digitsLE_toNatLE_concat hx, List.reverse_append,
    List.reverse_reverse]
  rfl

theorem digitsBE_toNatBE (b : Bytes) : digitsBE (toNatBE b) = b.dropWhile (· = 0) := by
  rw [← toNatBE_dropWhile]
  cases hb : b.dropWhile (· = 0) with
  | nil => exact digitsBE_zero
  | cons x rest =>
    have hne : b.dropWhile (· = 0) ≠ [] := hb ▸ List.cons_ne_nil x rest
    have hx := List.head_dropWhile_not (fun y : UInt8 ↦ decide (y = 0)) hne
    simp only [hb, List.head_cons, decide_eq_false_iff_not] at hx
    exact digitsBE_toNatBE_cons rest hx

end BitcoinCash.Bytes

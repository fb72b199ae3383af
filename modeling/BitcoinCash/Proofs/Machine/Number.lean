import Mathlib.Data.Int.Notation
import Mathlib.Data.List.Induction
import Mathlib.Data.Nat.Bitwise
import Mathlib.Data.Nat.Notation
import BitcoinCash.Machine.Number
import BitcoinCash.Proofs.Bytes.Digits
import BitcoinCash.Proofs.Machine.Checked
import BitcoinCash.Proofs.Machine.Run

namespace BitcoinCash

open Bytes (and_sign_eq_zero)
open Fallible (bind_eq_ok ok_bind pure_eq_ok)

namespace Number

variable {b : Bytes} {last x : UInt8} {i : ℕ}

theorem isMinimal_concat (h : x &&& 0x7f ≠ 0) : isMinimal (b ++ [x]) := by
  unfold isMinimal
  simp only [List.reverse_append, List.reverse_singleton, List.singleton_append]
  cases b.reverse <;> simp [h]

theorem checkMinimal_eq (b : Bytes) : checkMinimal b = require (isMinimal b) (.longNumber b) := by
  induction b using List.reverseRecOn with
  | nil => rfl
  | append_singleton b last =>
    rw [checkMinimal, if_pos (by simp), Checked.minus_length_concat, ok_bind, Checked.item_concat,
      ok_bind]
    by_cases h : last &&& 0x7f = 0
    · rw [if_pos h]
      induction b using List.reverseRecOn with
      | nil => simp [isMinimal, h, require, reject, bind, Except.bind]
      | append_singleton b before =>
        rw [Checked.minus_length_concat_two, ok_bind, Checked.item_concat_two, ok_bind]
        simp [isMinimal, h, require, bind, Except.bind]
    · rw [if_neg h, isMinimal_concat h]
      rfl

def ending (last : UInt8) (before : Bytes) : Bytes :=
  match before.dropWhile (· = 0) with
  | [] => []
  | x :: rest =>
    if x &&& 0x80 ≠ 0 then (last :: x :: rest).reverse else ((x ||| last) :: rest).reverse

theorem ending_zero : ending last (0 :: b) = ending last b := by
  simp [ending]

theorem ending_of_signed (h : x &&& 0x80 ≠ 0) :
    ending last (x :: b) = (last :: x :: b).reverse := by
  have hx : x ≠ 0 := fun h0 ↦ h (by rw [h0]; rfl)
  rw [ending, List.dropWhile_cons_of_neg (by simpa)]
  exact if_pos h

theorem ending_of_unsigned (hx : x ≠ 0) (h : ¬ x &&& 0x80 ≠ 0) :
    ending last (x :: b) = ((x ||| last) :: b).reverse := by
  rw [ending, List.dropWhile_cons_of_neg (by simpa)]
  exact if_neg h

theorem shorten_concat :
    shorten (b ++ [last]) = if last &&& 0x7f ≠ 0 then b ++ [last] else ending last b.reverse := by
  rw [shorten, List.getLast?_concat, List.dropLast_concat]
  rfl

/-- Bytes below place `i` are looked at from the end. -/
theorem trimFrom_eq (hi : i < b.length) :
    trimFrom b last i = .ok (ending last (b.take i).reverse) := by
  induction i with
  | zero => rfl
  | succ i ih =>
    have hlt : i < b.length := Nat.lt_of_succ_lt hi
    have htake : (b.take (i + 1)).reverse = b[i] :: (b.take i).reverse := by
      rw [List.take_succ_eq_append_getElem hlt, List.reverse_append]
      rfl
    rw [trimFrom, Checked.item_of_lt hlt, ok_bind, htake]
    by_cases hx : b[i] = 0
    · rw [if_pos hx, ih hlt, hx, ending_zero]
    by_cases hs : b[i] &&& 0x80 ≠ 0
    · have hsplit := Checked.splitAt_set (x := last) hi
      rw [if_neg hx, if_pos hs, Checked.put_of_lt hi, ok_bind, hsplit, ok_bind, ending_of_signed hs,
        List.reverse_cons, ← htake, List.reverse_reverse]
      rfl
    · have hsplit := Checked.splitAt_set (x := b[i] ||| last) hlt
      rw [if_neg hx, if_neg hs, Checked.put_of_lt hlt, ok_bind, hsplit, ok_bind,
        ending_of_unsigned hx hs, List.reverse_cons, List.reverse_reverse]
      rfl

theorem trim_eq (b : Bytes) : trim b = .ok (shorten b) := by
  induction b using List.reverseRecOn with
  | nil => rfl
  | append_singleton b last =>
    rw [trim, if_neg (by simp), Checked.minus_length_concat, ok_bind, Checked.item_concat, ok_bind,
      shorten_concat]
    by_cases h : last &&& 0x7f ≠ 0
    · rw [if_pos h, if_pos h]
      rfl
    rw [if_neg h, if_neg h]
    induction b using List.reverseRecOn with
    | nil => rfl
    | append_singleton b before =>
      rw [if_neg (by simp), Checked.minus_length_concat_two, ok_bind, Checked.item_concat_two,
        ok_bind]
      by_cases hs : before &&& 0x80 ≠ 0
      · rw [if_pos hs, List.reverse_append]
        exact congrArg Except.ok (by simp [ending_of_signed hs])
      · rw [if_neg hs, trimFrom_eq (by simp), List.take_left]

theorem toNat_and_magnitude : (x &&& 0x7f).toNat = x.toNat % 128 := by
  rw [UInt8.toNat_and]
  exact Nat.and_two_pow_sub_one_eq_mod x.toNat 7

theorem and_magnitude_of_unsigned (h : x &&& 0x80 = 0) : x &&& 0x7f = x := by
  rw [and_sign_eq_zero] at h
  rw [← UInt8.toNat_inj, toNat_and_magnitude, Nat.mod_eq_of_lt h]

theorem toNat_or_sign (h : x &&& 0x80 = 0) : (x ||| 0x80).toNat = 128 + x.toNat := by
  rw [and_sign_eq_zero] at h
  rw [UInt8.or_comm, UInt8.toNat_or]
  exact (Nat.two_pow_add_eq_or_of_lt (i := 7) h 1).symm

theorem or_sign (h : x &&& 0x80 = 0) : (x ||| 0x80) &&& 0x80 ≠ 0 ∧ (x ||| 0x80) &&& 0x7f = x := by
  have hor := toNat_or_sign h
  rw [and_sign_eq_zero] at h
  rw [ne_eq, and_sign_eq_zero, ← UInt8.toNat_inj, toNat_and_magnitude, hor]
  omega

theorem value_concat (b : Bytes) (x : UInt8) :
    value (b ++ [x]) = if x &&& 0x80 = 0 then (Bytes.toNatLE (b ++ [x]) : ℤ)
      else -(Bytes.toNatLE (b ++ [x &&& 0x7f]) : ℤ) := by
  rw [value, List.getLast?_concat, List.dropLast_concat]

theorem two_mul_toNatLE_concat_lt (b : Bytes) (hx : x.toNat < 128) :
    2 * Bytes.toNatLE (b ++ [x]) < 256 ^ (b.length + 1) := by
  have hlt := Bytes.toNatLE_lt b
  have hmul := Nat.mul_le_mul_left (256 ^ b.length) (Nat.le_of_lt_succ hx)
  rw [Bytes.toNatLE_concat, Nat.pow_succ]
  omega

theorem toNat_and_magnitude_lt (x : UInt8) : (x &&& 0x7f).toNat < 128 := by
  rw [toNat_and_magnitude]
  exact Nat.mod_lt _ (by decide)

theorem two_mul_natAbs_value_lt (b : Bytes) : 2 * (value b).natAbs < 256 ^ b.length := by
  induction b using List.reverseRecOn with
  | nil => exact Nat.one_pos
  | append_singleton b x =>
    rw [value_concat, List.length_append, List.length_singleton]
    split
    next hx => exact two_mul_toNatLE_concat_lt b (and_sign_eq_zero.1 hx)
    next hx =>
      rw [Int.natAbs_neg]
      exact two_mul_toNatLE_concat_lt b (toNat_and_magnitude_lt x)

theorem fit_of_lt {n : ℤ} (h : 2 * n.natAbs < 256 ^ 8) : fit n = .ok n := by
  rw [fit, if_pos]
  have hwidth : 256 ^ 8 = 2 * 0x8000000000000000 := by decide
  omega

section Word

variable {w : UInt64}

theorem toInt_toInt64 (h : 2 * w.toNat < 256 ^ 8) : w.toInt64.toInt = w.toNat :=
  BitVec.toInt_eq_toNat_of_lt h

theorem toNat_shiftLeft_byte (x : UInt8) (hi : i < 8) :
    (x.toUInt64 <<< UInt64.ofNat (8 * i)).toNat = 256 ^ i * x.toNat := by
  have hx := x.toNat_lt
  have hshift : (UInt64.ofNat (8 * i)).toNat % 64 = 8 * i := by
    rw [UInt64.toNat_ofNat']
    omega
  have hpow : 2 ^ (8 * i) = 256 ^ i := Nat.pow_mul 2 8 i
  have hlt : 256 ^ i * x.toNat < 2 ^ 64 := by
    have hle : 256 ^ i ≤ 256 ^ 7 := Nat.pow_le_pow_right (by decide) (Nat.le_of_lt_succ hi)
    have hmul := Nat.mul_le_mul hle (Nat.le_of_lt_succ hx)
    omega
  rw [UInt64.toNat_shiftLeft, hshift, UInt8.toNat_toUInt64, Nat.shiftLeft_eq, hpow, Nat.mul_comm,
    Nat.mod_eq_of_lt hlt]

theorem toNat_gather (hw : w.toNat < 256 ^ i) (hi : i + b.length ≤ 8) :
    (gather w i b).toNat = w.toNat + 256 ^ i * Bytes.toNatLE b := by
  induction b generalizing w i with
  | nil => rw [gather, Bytes.toNatLE, Nat.mul_zero, Nat.add_zero]
  | cons x b ih =>
    rw [List.length_cons] at hi
    have hpow : 2 ^ (8 * i) = 256 ^ i := Nat.pow_mul 2 8 i
    have hor := Nat.two_pow_add_eq_or_of_lt (hpow ▸ hw) x.toNat
    rw [hpow] at hor
    have hset : (w ||| x.toUInt64 <<< UInt64.ofNat (8 * i)).toNat =
        w.toNat + 256 ^ i * x.toNat := by
      rw [UInt64.toNat_or, toNat_shiftLeft_byte x (by omega), Nat.or_comm, ← hor, Nat.add_comm]
    have hlt : w.toNat + 256 ^ i * x.toNat < 256 ^ (i + 1) := by
      have hmul := Nat.mul_le_mul_left (256 ^ i) (Nat.le_of_lt_succ x.toNat_lt)
      rw [Nat.pow_succ]
      omega
    rw [gather, ih (hset ▸ hlt) (by omega), hset, Bytes.toNatLE, Nat.pow_succ]
    ring

theorem toNat_and_not {m : UInt64} {n k : ℕ} (hm : m.toNat = 2 ^ k) (hw : w.toNat = 2 ^ k + n)
    (hn : n < 2 ^ k) : (w &&& ~~~m).toNat = n := by
  have hk : 2 ^ k < 2 ^ 64 := hm ▸ m.toNat_lt
  have hor := Nat.two_pow_add_eq_or_of_lt hn 1
  rw [Nat.mul_one, ← hw] at hor
  have hnot : (~~~m).toNat = 2 ^ 64 - (2 ^ k + 1) := by
    rw [UInt64.toNat_not, hm, UInt64.size]
    omega
  rw [UInt64.toNat_and, hnot, hor]
  apply Nat.eq_of_testBit_eq
  intro j
  rw [Nat.testBit_and, Nat.testBit_or, Nat.testBit_two_pow_sub_succ hk, Nat.testBit_two_pow]
  by_cases hkj : k = j
  · subst hkj
    simp [Nat.testBit_lt_two_pow hn]
  · by_cases hj : j < 64
    · simp [hkj, hj]
    · have hlt : n < 2 ^ j :=
        Nat.lt_of_lt_of_le (hn.trans hk) (Nat.pow_le_pow_right (by decide) (Nat.le_of_not_lt hj))
      simp [Nat.testBit_lt_two_pow hlt, hj]

end Word

theorem toNat_gather_zero (h : b.length ≤ 8) : (gather 0 0 b).toNat = Bytes.toNatLE b := by
  rw [toNat_gather Nat.one_pos (by omega), UInt64.toNat_zero, Nat.pow_zero, Nat.one_mul,
    Nat.zero_add]

theorem two_mul_sign (k : ℕ) : 2 * 2 ^ (8 * k + 7) = 256 ^ (k + 1) := by
  rw [← Nat.pow_succ']
  exact Nat.pow_mul 2 8 (k + 1)

/-- In the number of all bytes the sign counts as the highest bit. -/
theorem toNatLE_concat_of_signed (b : Bytes) (hx : ¬ x &&& 0x80 = 0) :
    Bytes.toNatLE (b ++ [x]) =
      2 ^ (8 * b.length + 7) + Bytes.toNatLE (b ++ [x &&& 0x7f]) := by
  have hsigned : 128 ≤ x.toNat := Nat.le_of_not_lt (mt and_sign_eq_zero.2 hx)
  have hlt := x.toNat_lt
  have hbyte : x.toNat = 128 + x.toNat % 128 := by omega
  rw [Bytes.toNatLE_concat, Bytes.toNatLE_concat, toNat_and_magnitude, Nat.pow_add, Nat.pow_mul]
  nth_rewrite 1 [hbyte]
  ring

/-- The word that the bytes are read into, taken for a signed one, holds their number. -/
theorem read_eq (h : b.length ≤ 8) : read b = .ok (value b) := by
  induction b using List.reverseRecOn with
  | nil => rfl
  | append_singleton b x =>
    have hword := toNat_gather_zero h
    rw [List.length_append, List.length_singleton] at h
    have hwidth : 256 ^ (b.length + 1) ≤ 256 ^ 8 := Nat.pow_le_pow_right (by decide) h
    rw [read, List.getLast?_concat, value_concat]
    dsimp only
    by_cases hx : x &&& 0x80 = 0
    · have hlt := two_mul_toNatLE_concat_lt b (and_sign_eq_zero.1 hx)
      rw [if_pos hx, if_pos hx, toInt_toInt64 (by omega), hword]
      rfl
    · have hlt := two_mul_toNatLE_concat_lt b (toNat_and_magnitude_lt x)
      have hpow := two_mul_sign b.length
      have hsign : ((0x80 : UInt64) <<< UInt64.ofNat (8 * b.length)).toNat =
          2 ^ (8 * b.length + 7) := by
        rw [Nat.pow_add, Nat.pow_mul]
        exact toNat_shiftLeft_byte 0x80 h
      rw [toNatLE_concat_of_signed b hx] at hword
      have hrest := toNat_and_not hsign hword (by omega)
      rw [if_neg hx, if_neg hx, Checked.minus_length_concat, ok_bind, toInt_toInt64 (by omega),
        hrest]
      exact fit_of_lt (by omega)

theorem decode_eq {rule : NumberRule} (b : Bytes) : decode rule b = (do
    require (b.length ≤ rule.maxLength ∧ b.length ≤ 8) (.numberLength b rule.maxLength)
    if rule.minimal then require (isMinimal b) (.longNumber b)
    return value b) := by
  refine require_bind_congr fun h ↦ ?_
  rw [checkMinimal_eq, read_eq h.2]
  rfl

theorem decode_eq_ok {rule : NumberRule} {n : ℤ} :
    decode rule b = .ok n ↔ (b.length ≤ rule.maxLength ∧ b.length ≤ 8) ∧
      (rule.minimal → isMinimal b) ∧ value b = n := by
  simp only [decode_eq, bind_eq_ok, require_eq_ok, exists_and_left]
  refine and_congr_right fun _ ↦ ?_
  rw [exists_const, Run.checkIf_eq_ok, require_eq_ok, pure_eq_ok]

/-- A number other than zero is written with its magnitude's digits and the sign in the last
byte, or in one more. -/
theorem encode_cases {n : ℤ} (hn : n ≠ 0) :
    ∃ b x, x ≠ 0 ∧ Bytes.digitsLE n.natAbs = b ++ [x] ∧
      (x &&& 0x80 ≠ 0 ∧ encode n = b ++ [x] ++ [if n < 0 then 0x80 else 0] ∨
        x &&& 0x80 = 0 ∧ encode n = b ++ [if n < 0 then x ||| 0x80 else x]) := by
  obtain ⟨b, x, hb, hx⟩ := Bytes.digitsLE_eq_concat (Int.natAbs_ne_zero.2 hn)
  refine ⟨b, x, hx, hb, ?_⟩
  simp only [encode, hb, List.getLast?_concat, List.dropLast_concat]
  by_cases hs : x &&& 0x80 = 0
  · refine .inr ⟨hs, ?_⟩
    rw [if_neg (not_not.2 hs)]
    split <;> rfl
  · exact .inl ⟨hs, if_pos hs⟩

theorem encode_zero : encode 0 = [] := by
  rw [encode, Int.natAbs_zero, Bytes.digitsLE, if_pos rfl]
  rfl

theorem write_eq (n : ℤ) : write n = .ok (encode n) := by
  by_cases hn : n = 0
  · rw [write, if_pos hn, hn, encode_zero]
    rfl
  obtain ⟨b, x, -, hb, h⟩ := encode_cases hn
  rw [write, if_neg hn, hb]
  dsimp only
  rw [Checked.minus_length_concat, ok_bind, Checked.item_concat, ok_bind]
  rcases h with ⟨hs, h⟩ | ⟨hs, h⟩
  · rw [if_pos hs, h]
    rfl
  · rw [if_neg (not_not_intro hs), h]
    split
    · exact Checked.put_concat
    · rfl

theorem value_encode (n : ℤ) : value (encode n) = n := by
  by_cases hn : n = 0
  · rw [hn, encode_zero]
    rfl
  obtain ⟨b, x, hx, hb, h⟩ := encode_cases hn
  have hnat : Bytes.toNatLE (b ++ [x]) = n.natAbs := by rw [← hb, Bytes.toNatLE_digitsLE]
  have hzero : Bytes.toNatLE (b ++ [x] ++ [0]) = n.natAbs := by
    rw [Bytes.toNatLE_concat_zero, hnat]
  rcases h with ⟨-, h⟩ | ⟨hs, h⟩ <;> rw [h, value_concat] <;> by_cases hneg : n < 0
  · rw [if_pos hneg, if_neg (by decide)]
    change -(Bytes.toNatLE (b ++ [x] ++ [0]) : ℤ) = n
    omega
  · rw [if_neg hneg, if_pos (by decide)]
    omega
  · obtain ⟨hsign, hrest⟩ := or_sign hs
    rw [if_pos hneg, if_neg hsign, hrest]
    omega
  · rw [if_neg hneg, if_pos hs]
    omega

theorem isMinimal_encode (n : ℤ) : isMinimal (encode n) := by
  by_cases hn : n = 0
  · rw [hn, encode_zero]
    rfl
  obtain ⟨b, x, hx, -, ⟨hs, h⟩ | ⟨hs, h⟩⟩ := encode_cases hn
  · rw [h]
    simp [isMinimal, hs]
  · rw [h]
    refine isMinimal_concat ?_
    split
    · rw [(or_sign hs).2]
      exact hx
    · rw [and_magnitude_of_unsigned hs]
      exact hx

theorem length_encode_le {n : ℤ} {k : ℕ} (h : 2 * n.natAbs < 256 ^ k) : (encode n).length ≤ k := by
  by_cases hn : n = 0
  · rw [hn, encode_zero]
    exact Nat.zero_le k
  obtain ⟨b, x, -, hb, ⟨hs, henc⟩ | ⟨-, henc⟩⟩ := encode_cases hn
  · have hnat : Bytes.toNatLE (b ++ [x]) = n.natAbs := by rw [← hb, Bytes.toNatLE_digitsLE]
    have hx : 128 ≤ x.toNat := Nat.le_of_not_lt (mt and_sign_eq_zero.2 hs)
    have hpow : 256 ^ (b.length + 1) < 256 ^ k := by
      refine Nat.lt_of_le_of_lt ?_ h
      have hmul := Nat.mul_le_mul_left (256 ^ b.length) hx
      rw [← hnat, Bytes.toNatLE_concat, Nat.pow_succ]
      omega
    have hlt := (Nat.pow_lt_pow_iff_right (by decide)).1 hpow
    rw [henc, List.length_append, List.length_append, List.length_singleton,
      List.length_singleton]
    exact hlt
  · have hlt : n.natAbs < 256 ^ k := by omega
    have hlen := Bytes.length_digitsLE_le hlt
    rw [hb, List.length_append, List.length_singleton] at hlen
    rw [henc, List.length_append, List.length_singleton]
    exact hlen

theorem decode_encode {rule : NumberRule} {n : ℤ} {k : ℕ} (h : 2 * n.natAbs < 256 ^ k)
    (hk : k ≤ rule.maxLength) (hk8 : k ≤ 8) : decode rule (encode n) = .ok n := by
  have hlen := length_encode_le h
  rw [decode_eq_ok]
  exact ⟨⟨hlen.trans hk, hlen.trans hk8⟩, fun _ ↦ isMinimal_encode n, value_encode n⟩

end Number

end BitcoinCash

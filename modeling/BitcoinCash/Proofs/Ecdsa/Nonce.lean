import BitcoinCash.Ecdsa.Nonce
import BitcoinCash.Proofs.Integer.Octets
import Mathlib.Logic.Function.Iterate
import Mathlib.Order.Bounds.Basic

namespace BitcoinCash

namespace Ecdsa

def inRangeFrom (T : ℕ → ℤ) (skip : ℕ) : Set ℕ := {j | skip ≤ j ∧ InRange (T j)}

variable {T : ℕ → ℤ} {b c i j : ℕ}

theorem isLeast_inRangeFrom_self (h : InRange (T j)) : IsLeast (inRangeFrom T j) j :=
  ⟨⟨Nat.le_refl j, h⟩, fun _ hi ↦ hi.1⟩

theorem le_of_isLeast_inRangeFrom (hi : IsLeast (inRangeFrom T b) i)
    (hj : IsLeast (inRangeFrom T c) j) (h : b ≤ c) : i ≤ j :=
  hi.2 ⟨h.trans hj.1.1, hj.1.2⟩

/-- No place in range is passed over by those who skip more and more. -/
theorem exists_isLeast_inRangeFrom (hi : IsLeast (inRangeFrom T b) i) (hj : j ≤ i)
    (hr : InRange (T j)) : ∃ c ≤ b, IsLeast (inRangeFrom T c) j := by
  by_cases hb : b ≤ j
  · obtain rfl : j = i := Nat.le_antisymm hj (hi.2 ⟨hb, hr⟩)
    exact ⟨b, Nat.le_refl b, hi⟩
  · exact ⟨j, Nat.le_of_not_le hb, isLeast_inRangeFrom_self hr⟩

end Ecdsa

namespace Ratchet

variable {t : Ratchet} {skip limit : ℕ} {k : ℤ}

def candidateAt (t : Ratchet) (i : ℕ) : ℤ := (next^[i] t).candidate

theorem candidateAt_succ (t : Ratchet) (i : ℕ) : t.candidateAt (i + 1) = t.next.candidateAt i := by
  rw [candidateAt, candidateAt, Function.iterate_succ_apply]

theorem exists_of_search_eq_some (h : t.search skip limit = some k) :
    ∃ j < limit, IsLeast (Ecdsa.inRangeFrom t.candidateAt skip) j ∧ k = t.candidateAt j := by
  induction limit generalizing skip t with
  | zero => cases h
  | succ limit ih =>
    rw [search] at h
    split at h
    next hc =>
      cases h
      obtain ⟨rfl, hr⟩ := hc
      exact ⟨0, Nat.succ_pos limit, Ecdsa.isLeast_inRangeFrom_self hr, rfl⟩
    next hc =>
      obtain ⟨j, hj, ⟨hmem, hfirst⟩, hk⟩ := ih h
      refine ⟨j + 1, Nat.succ_lt_succ hj, ⟨⟨?_, ?_⟩, ?_⟩, ?_⟩
      · have hskip := hmem.1
        omega
      · rw [candidateAt_succ]
        exact hmem.2
      · rintro i ⟨hi, hr⟩
        cases i with
        | zero => exact absurd ⟨Nat.le_zero.1 hi, hr⟩ hc
        | succ i =>
          rw [candidateAt_succ] at hr
          exact Nat.succ_le_succ (hfirst ⟨by omega, hr⟩)
      · rw [hk, candidateAt_succ]

theorem search_eq_none (h : t.search skip limit = none) (i : ℕ)
    (hs : skip ≤ i) (hi : i < limit) : ¬ Ecdsa.InRange (t.candidateAt i) := by
  induction limit generalizing skip t i with
  | zero => omega
  | succ limit ih =>
    rw [search] at h
    split at h
    · cases h
    · next hc =>
      cases i with
      | zero => exact fun hr ↦ hc ⟨by omega, hr⟩
      | succ i =>
        rw [candidateAt_succ]
        exact ih h i (by omega) (by omega)

theorem search_eq_some_iff : t.search skip limit = some k ↔
    ∃ j < limit, IsLeast (Ecdsa.inRangeFrom t.candidateAt skip) j ∧ k = t.candidateAt j := by
  refine ⟨exists_of_search_eq_some, ?_⟩
  rintro ⟨j, hj, hleast, rfl⟩
  cases hsearch : t.search skip limit with
  | none => exact absurd hleast.1.2 (search_eq_none hsearch j hleast.1.1 hj)
  | some k =>
    obtain ⟨i, -, hi, rfl⟩ := exists_of_search_eq_some hsearch
    rw [hi.unique hleast]

end Ratchet

namespace Ecdsa

variable {d k : ℤ} {digest : Bytes} {t : Ratchet} {skip : UInt32}

theorem ratchet_eq (h0 : 0 ≤ d) (h : d < 256 ^ 32) (digest : Bytes) :
    ratchet d digest = .ok (.start (Bytes.ofNatBE 32 d.toNat)
      (Bytes.ofNatBE 32 (Integer.ofBytes digest .big % Secp256k1.n).toNat)) := by
  have hn : Integer.ofBytes digest .big % Secp256k1.n < 256 ^ 32 :=
    Int.lt_trans (Int.emod_lt_of_pos _ (by decide)) (by decide)
  rw [ratchet, Integer.toBytes_eq_ofNatBE h0 h,
    Integer.toBytes_eq_ofNatBE (Int.emod_nonneg _ (by decide)) hn]
  rfl

theorem ratchet_eq_ok (hd : InRange d) (digest : Bytes) : ∃ t, ratchet d digest = .ok t :=
  ⟨_, ratchet_eq (Int.le_of_lt hd.1) (Int.lt_trans hd.2 (by decide)) digest⟩

theorem deterministicNonce_eq (ht : ratchet d digest = .ok t) (skip : UInt32) :
    deterministicNonce d digest skip =
      match t.search skip.toNat counterLimit with
      | some k => .ok k
      | none => .error .nonceExhausted := by
  cases hs : t.search skip.toNat counterLimit <;>
    simp only [deterministicNonce, ht, bind, Except.bind, hs] <;> rfl

/-- The nonce is the first candidate in range from the one after `skip` others on. -/
theorem deterministicNonce_eq_ok (ht : ratchet d digest = .ok t) :
    deterministicNonce d digest skip = .ok k ↔
      ∃ j < counterLimit, IsLeast (inRangeFrom t.candidateAt skip.toNat) j ∧
        k = t.candidateAt j := by
  rw [deterministicNonce_eq ht, ← Ratchet.search_eq_some_iff]
  cases t.search skip.toNat counterLimit <;> simp

theorem toNat_ofNat_of_lt {c : ℕ} (h : c < counterLimit) : (UInt32.ofNat c).toNat = c := by
  rw [UInt32.toNat_ofNat']
  exact Nat.mod_eq_of_lt h

theorem deterministicNonce_of_inRange (ht : ratchet d digest = .ok t) {i : ℕ}
    (hi : i < counterLimit) (hr : InRange (t.candidateAt i)) :
    deterministicNonce d digest (UInt32.ofNat i) = .ok (t.candidateAt i) := by
  rw [deterministicNonce_eq_ok ht, toNat_ofNat_of_lt hi]
  exact ⟨i, hi, isLeast_inRangeFrom_self hr, rfl⟩

/-- There is no nonce only if the counter does not reach as far as to a candidate in range. -/
theorem deterministicNonce_eq_error (ht : ratchet d digest = .ok t) {e : CryptoError}
    (h : deterministicNonce d digest skip = .error e) :
    e = .nonceExhausted ∧
      ∀ j < counterLimit, skip.toNat ≤ j → ¬ InRange (t.candidateAt j) := by
  rw [deterministicNonce_eq ht] at h
  split at h
  next => cases h
  next hsearch =>
    exact ⟨(Except.error.inj h).symm, fun j hj hs ↦ Ratchet.search_eq_none hsearch j hs hj⟩

/-- Where there is no nonce after `last` candidates, all in range are among these. -/
theorem lt_of_deterministicNonce_ne_ok (ht : ratchet d digest = .ok t) {last i : ℕ}
    (hnone : ∀ k, last < counterLimit → deterministicNonce d digest (UInt32.ofNat last) ≠ .ok k)
    (hi : i < counterLimit) (hr : InRange (t.candidateAt i)) : i < last := by
  by_contra hleft
  have hlast : last < counterLimit := (Nat.le_of_not_lt hleft).trans_lt hi
  cases hnext : deterministicNonce d digest (UInt32.ofNat last) with
  | ok k => exact hnone k hlast hnext
  | error e =>
    obtain ⟨-, hout⟩ := deterministicNonce_eq_error ht hnext
    rw [toNat_ofNat_of_lt hlast] at hout
    exact hout i hi (Nat.le_of_not_lt hleft) hr

end Ecdsa

end BitcoinCash

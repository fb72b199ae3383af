import BitcoinCash.Proofs.Machine.Encoding

namespace BitcoinCash

open Fallible (bind_eq_ok)
open Der (IsInteger)

namespace Encoding

variable {b r s t : Bytes} {x a₀ a₁ a₂ a₃ : UInt8} {u : Unit}

theorem byteAt_eq_ok {i : ℕ} : byteAt b i = .ok x ↔ b[i]? = some x := Checked.item_eq_ok

theorem isInteger_of_checkInteger {second : Run UInt8} {negative padded : DerRule}
    (hx : b[0]? = some x) (hsecond : ∀ y, b[1]? = some y → second = .ok y)
    (h : checkDer.checkInteger b.length x second negative padded = .ok u) : IsInteger b := by
  obtain ⟨_, hsign, hpadding⟩ := bind_eq_ok.1 h
  have hsign := require_eq_ok.1 hsign
  match b with
  | [y] =>
    cases hx
    exact hsign
  | y :: z :: t =>
    cases hx
    refine ⟨hsign, fun h0 ↦ ?_⟩
    rw [if_pos ⟨Nat.succ_lt_succ (Nat.succ_pos _), h0⟩, hsecond z rfl] at hpadding
    exact require_eq_ok.1 hpadding

theorem getElem?_after (k : ℕ) :
    (a₀ :: a₁ :: a₂ :: a₃ :: (r ++ t))[k + 4 + r.length]? = t[k]? := by
  have hindex : k + 4 + r.length = r.length + k + 4 := by omega
  rw [hindex]
  exact (List.getElem?_append_right (Nat.le_add_right _ _)).trans
    (by rw [Nat.add_sub_cancel_left])

/-- Two lengths in their places cut a string of the right size into the two bodies. -/
theorem exists_cut {m n : UInt8} (hlen : m.toNat + n.toNat + 6 = b.length) (hm : b[3]? = some m)
    (hn : b[5 + m.toNat]? = some n) :
    ∃ a₀ a₁ a₂ x r s, r.length = m.toNat ∧ s.length = n.toNat ∧
      b = a₀ :: a₁ :: a₂ :: m :: (r ++ x :: n :: s) := by
  match b with
  | a₀ :: a₁ :: a₂ :: a₃ :: t =>
    obtain rfl : a₃ = m := Option.some.inj hm
    simp only [List.length_cons] at hlen
    obtain ⟨r, t, rfl, hr⟩ : ∃ r t', t = r ++ t' ∧ r.length = a₃.toNat :=
      ⟨_, _, (List.take_append_drop a₃.toNat t).symm, List.length_take_of_le (by omega)⟩
    rw [List.length_append, hr] at hlen
    rw [← hr, getElem?_after 1] at hn
    match t with
    | x :: y :: s =>
      obtain rfl : y = n := Option.some.inj hn
      simp only [List.length_cons] at hlen
      exact ⟨a₀, a₁, a₂, x, r, s, hr, by omega, rfl⟩

theorem exists_sequence_of_checkDer (h : checkDer b = .ok u) :
    ∃ r s, IsInteger r ∧ IsInteger s ∧ b = Der.sequence r s := by
  simp only [checkDer, bind_eq_ok, require_eq_ok, byteAt_eq_ok] at h
  obtain ⟨_, h8, _, _, tag, htag, _, rfl, total, htotal, rest, hrest, _, hall, m, hm, _, _, n, hn, _,
    hlen, rTag, hrTag, _, rfl, _, hm0, x, hx, _, hr, sTag, hsTag, _, rfl, _, hn0, y, hy, hs⟩ := h
  obtain ⟨a₀, a₁, a₂, a₃, r, s, hrlen, hslen, rfl⟩ := exists_cut hlen hm hn
  rw [← hrlen] at hr hy hs hsTag hm0
  rw [← hslen] at hs hn0
  rw [getElem?_after 0] at hsTag
  rw [getElem?_after 2] at hy
  have hrPos : 0 < r.length := Nat.pos_of_ne_zero hm0
  have hrInteger : IsInteger r := by
    refine isInteger_of_checkInteger (x := x) ?_ ?_ hr
    · exact (List.getElem?_append_left hrPos).symm.trans hx
    · intro z hz
      obtain ⟨hlt, -⟩ := List.getElem?_eq_some_iff.1 hz
      exact byteAt_eq_ok.2 ((List.getElem?_append_left hlt).trans hz)
  have hsInteger : IsInteger s := by
    refine isInteger_of_checkInteger hy ?_ hs
    intro z hz
    exact byteAt_eq_ok.2 ((getElem?_after 3).trans hz)
  refine ⟨r, s, hrInteger, hsInteger, ?_⟩
  -- the first four bytes, and those before the second body
  obtain rfl : a₀ = 0x30 := Option.some.inj htag
  obtain rfl : a₁ = total := Option.some.inj htotal
  obtain rfl : a₂ = 0x02 := Option.some.inj hrTag
  obtain rfl : a₃ = 0x02 := Option.some.inj hsTag
  rw [← hlen, Checked.minus_of_le (by omega)] at hrest
  have htotal : UInt8.ofNat (4 + r.length + s.length) = a₁ := by
    rw [← UInt8.ofNat_toNat (x := a₁), hall, ← Except.ok.inj hrest, hrlen, hslen]
    congr 1
    omega
  have hm : UInt8.ofNat r.length = m := by rw [hrlen, UInt8.ofNat_toNat]
  have hn : UInt8.ofNat s.length = n := by rw [hslen, UInt8.ofNat_toNat]
  rw [Der.sequence, Der.element, Der.element, htotal, hm, hn]
  rfl

theorem checkDer_eq_ok :
    checkDer b = .ok u ↔
      b.length ≤ 72 ∧ ∃ v w : ℤ, 0 ≤ v ∧ 0 ≤ w ∧ b = Signature.toDer { r := v, s := w } := by
  constructor
  · intro h
    refine ⟨length_le_of_checkDer h, ?_⟩
    obtain ⟨r, s, hr, hs, hb⟩ := exists_sequence_of_checkDer h
    refine ⟨Bytes.toNatBE r, Bytes.toNatBE s, Int.natCast_nonneg _, Int.natCast_nonneg _, ?_⟩
    rw [Signature.toDer, Der.encode_eq, Der.integer_toNatBE hr, Der.integer_toNatBE hs, hb]
  · intro h
    obtain ⟨hlen, v, w, _, _, hb⟩ := h
    rw [hb, Signature.toDer, Der.encode_eq] at hlen ⊢
    rw [Der.length_sequence] at hlen
    exact checkDer_sequence (Der.isInteger_integer v) (Der.isInteger_integer w) (by omega)

/-- The check lets pass the encodings of two numbers in at most 72 bytes, zero in one byte, and
such an encoding is read back just when both numbers are in range. -/
theorem checkDer_iff_toDer (b : Bytes) :
    (checkDer b = .ok () ↔
      b.length ≤ 72 ∧ ∃ v w : ℤ, 0 ≤ v ∧ 0 ≤ w ∧ b = Signature.toDer { r := v, s := w }) ∧
    Der.integer 0 = [0] ∧
    ∀ v w : ℤ, 0 ≤ v → 0 ≤ w → b.length ≤ 72 → b = Signature.toDer { r := v, s := w } →
      ((∃ sig, Signature.ofDer b = .ok sig) ↔ Ecdsa.InRange v ∧ Ecdsa.InRange w) ∧
        ∀ sig, Signature.ofDer b = .ok sig → sig = { r := v, s := w } := by
  refine ⟨checkDer_eq_ok, by decide +kernel, ?_⟩
  intro v w hv hw hlen hb
  have hshort : (Signature.toDer { r := v, s := w }).length < 256 := by
    rw [← hb]
    omega
  have hread (sig : Signature) : Signature.ofDer b = .ok sig ↔
      (Ecdsa.InRange v ∧ Ecdsa.InRange w) ∧ sig = { r := v, s := w } := by
    rw [hb]
    exact Signature.ofDer_toDer_eq_ok hv hw hshort
  constructor
  · constructor
    · intro h
      obtain ⟨sig, hsig⟩ := h
      exact ((hread sig).1 hsig).1
    · intro hrange
      exact ⟨_, (hread _).2 ⟨hrange, rfl⟩⟩
  · intro sig hsig
    exact ((hread sig).1 hsig).2

theorem checkDer_iff_toDer_order :
    let b := Signature.toDer { r := 2 ^ 255, s := Secp256k1.n }
    checkDer b = .ok () ∧ b.length ≤ 72 ∧
      ((∃ sig, Signature.ofDer b = .ok sig) ↔
        Ecdsa.InRange (2 ^ 255) ∧ Ecdsa.InRange Secp256k1.n) ∧
      ∀ sig, Signature.ofDer b ≠ .ok sig := by
  intro b
  have hlen : b.length ≤ 72 := by decide +kernel
  obtain ⟨hcheck, -, hread⟩ := checkDer_iff_toDer b
  have hiff := (hread (2 ^ 255) Secp256k1.n (by decide) (by decide) hlen rfl).1
  refine ⟨hcheck.2 ⟨hlen, 2 ^ 255, Secp256k1.n, by decide, by decide, rfl⟩, hlen, hiff, ?_⟩
  intro sig hsig
  exact lt_irrefl _ (hiff.1 ⟨sig, hsig⟩).2.2

end Encoding

end BitcoinCash

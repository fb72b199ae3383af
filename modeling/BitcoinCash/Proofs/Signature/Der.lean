import Mathlib.Data.Int.Notation
import Mathlib.Data.Nat.Notation
import BitcoinCash.Ecdsa.Nonce
import BitcoinCash.Proofs.Fallible
import BitcoinCash.Proofs.Integer.Octets
import BitcoinCash.Signature.Der

namespace BitcoinCash

namespace Der

variable {r s : Bytes} {v : ℤ} {n : ℕ}

/-- The bytes of a number that is not negative, none of them superfluous. -/
def IsInteger : Bytes → Prop
  | [] => False
  | [x] => x &&& 0x80 = 0
  | x :: y :: _ => x &&& 0x80 = 0 ∧ (x = 0 → y &&& 0x80 ≠ 0)

theorem IsInteger.exists_cons (h : IsInteger r) : ∃ x t, r = x :: t ∧ x &&& 0x80 = 0 := by
  match r, h with
  | [x], h => exact ⟨x, [], rfl, h⟩
  | x :: y :: t, h => exact ⟨x, y :: t, rfl, h.1⟩

theorem integer_cases (v : ℤ) :
    (∃ x t, Bytes.digitsBE v.natAbs = x :: t ∧ x ≠ 0 ∧ x &&& 0x80 = 0 ∧ integer v = x :: t) ∨
      (∀ x t, Bytes.digitsBE v.natAbs = x :: t → x &&& 0x80 ≠ 0) ∧
        integer v = 0 :: Bytes.digitsBE v.natAbs := by
  unfold integer Integer.magnitudeBytes
  cases hd : Bytes.digitsBE v.natAbs with
  | nil => exact .inr ⟨nofun, rfl⟩
  | cons x t =>
    by_cases hx : x &&& 0x80 = 0
    · left
      have hne : v.natAbs ≠ 0 := by
        intro h0
        rw [h0, Bytes.digitsBE_zero] at hd
        cases hd
      obtain ⟨y, u, hy, hy0⟩ := Bytes.digitsBE_eq_cons hne
      cases hd.symm.trans hy
      exact ⟨x, t, rfl, hy0, hx, if_neg (not_not_intro hx)⟩
    · right
      refine ⟨?_, if_pos hx⟩
      rintro _ _ ⟨⟩
      exact hx

theorem isInteger_integer (v : ℤ) : IsInteger (integer v) := by
  rcases integer_cases v with ⟨x, t, -, hx0, hx, hv⟩ | ⟨hhead, hv⟩
  · rw [hv]
    cases t with
    | nil => exact hx
    | cons y t => exact ⟨hx, fun h0 ↦ absurd h0 hx0⟩
  · rw [hv]
    cases hd : Bytes.digitsBE v.natAbs with
    | nil => exact rfl
    | cons x t => exact ⟨rfl, fun _ ↦ hhead x t hd⟩

theorem toNatBE_integer (v : ℤ) : Bytes.toNatBE (integer v) = v.natAbs := by
  rcases integer_cases v with ⟨x, t, hd, -, -, hv⟩ | ⟨-, hv⟩
  · rw [hv, ← hd, Bytes.toNatBE_digitsBE]
  · rw [hv, Bytes.toNatBE_zero_cons, Bytes.toNatBE_digitsBE]

theorem integer_toNatBE (h : IsInteger r) : integer (Bytes.toNatBE r) = r := by
  rw [integer, Integer.magnitudeBytes, Int.natAbs_natCast]
  rcases r with _ | ⟨x, _ | ⟨y, t⟩⟩
  · exact h.elim
  · by_cases h0 : x = 0
    · have hzero : Bytes.toNatBE [0] = 0 := rfl
      rw [h0, hzero, Bytes.digitsBE_zero]
    · rw [Bytes.digitsBE_toNatBE_cons [] h0]
      exact if_neg (not_not_intro h)
  · obtain ⟨hx, hy⟩ := h
    by_cases h0 : x = 0
    · have hy0 : y ≠ 0 := by
        intro hy0
        rw [hy0] at hy
        exact hy h0 rfl
      rw [h0, Bytes.toNatBE_zero_cons, Bytes.digitsBE_toNatBE_cons t hy0]
      exact if_pos (hy h0)
    · rw [Bytes.digitsBE_toNatBE_cons (y :: t) h0]
      exact if_neg (not_not_intro hx)

theorem length_integer_le (h : v.natAbs < 256 ^ n) : (integer v).length ≤ n + 1 := by
  have hlen := Bytes.length_digitsBE_le h
  rcases integer_cases v with ⟨x, t, hd, -, -, hv⟩ | ⟨-, hv⟩
  · rw [hv, ← hd]
    exact Nat.le_succ_of_le hlen
  · rw [hv]
    exact Nat.succ_le_succ hlen

theorem length_integer_le_of_two_mul_lt (h0 : v ≠ 0) (h : 2 * v.natAbs < 256 ^ n) :
    (integer v).length ≤ n := by
  obtain ⟨x, t, hd, -⟩ := Bytes.digitsBE_eq_cons (Int.natAbs_ne_zero.2 h0)
  rcases integer_cases v with ⟨y, s, hdy, -, -, hv⟩ | ⟨hhead, hv⟩
  · rw [hv, ← hdy]
    exact Bytes.length_digitsBE_le (by omega)
  · -- The highest bit of the first digit is worth half of a further digit.
    have hx : 128 ≤ x.toNat := Nat.le_of_not_lt (mt Bytes.and_sign_eq_zero.2 (hhead x t hd))
    have hvalue := Bytes.toNatBE_cons x t
    rw [← hd, Bytes.toNatBE_digitsBE] at hvalue
    have hmul := Nat.mul_le_mul_left (256 ^ t.length) hx
    have hpow : 256 ^ (t.length + 1) < 256 ^ n := by
      rw [Nat.pow_succ]
      omega
    rw [hv, hd]
    exact (Nat.pow_lt_pow_iff_right (by decide)).1 hpow

def element (b : Bytes) : Bytes := 0x02 :: UInt8.ofNat b.length :: b

def sequence (r s : Bytes) : Bytes :=
  0x30 :: UInt8.ofNat (4 + r.length + s.length) :: (element r ++ element s)

theorem encode_eq (a b : ℤ) : encode a b = sequence (integer a) (integer b) := rfl

theorem length_elements (r s : Bytes) :
    (element r ++ element s).length = 4 + r.length + s.length := by
  simp only [element, List.length_cons, List.length_append]
  omega

theorem length_sequence (r s : Bytes) : (sequence r s).length = 6 + r.length + s.length := by
  rw [sequence, List.length_cons, List.length_cons, length_elements]
  omega

theorem sequence_inj {r' s' : Bytes} (h : sequence r s = sequence r' s') (hr : r.length < 256)
    (hr' : r'.length < 256) : r = r' ∧ s = s' := by
  simp only [sequence, element, List.cons_append, List.cons.injEq, true_and] at h
  obtain ⟨-, hlength, hbodies⟩ := h
  have hlen : r.length = r'.length := by
    have hnat := congrArg UInt8.toNat hlength
    rwa [UInt8.toNat_ofNat_of_lt' hr, UInt8.toNat_ofNat_of_lt' hr'] at hnat
  obtain ⟨hfirst, hrest⟩ := List.append_inj hbodies hlen
  exact ⟨hfirst, (List.cons.inj (List.cons.inj hrest).2).2⟩

theorem header_sequence (h : 4 + r.length + s.length < 256) (t : Bytes) :
    header (sequence r s ++ t) = (0x30, 4 + r.length + s.length, element r ++ element s ++ t) := by
  rw [sequence, List.cons_append, List.cons_append, header, UInt8.toNat_ofNat_of_lt' h]

theorem header_element (h : r.length < 256) (t : Bytes) :
    header (element r ++ t) = (0x02, r.length, r ++ t) := by
  rw [element, List.cons_append, List.cons_append, header, UInt8.toNat_ofNat_of_lt' h]

theorem IsInteger.length_pos (h : IsInteger r) : 0 < r.length := by
  obtain ⟨x, t, rfl, -⟩ := h.exists_cons
  exact Nat.succ_pos _

theorem IsInteger.headD (h : IsInteger r) : r.headD 0 &&& 0x80 = 0 := by
  obtain ⟨x, t, rfl, hx⟩ := h.exists_cons
  exact hx

theorem bodies_sequence_append (hr : IsInteger r) (hs : IsInteger s)
    (hlen : 4 + r.length + s.length < 256) (t : Bytes) :
    bodies (sequence r s ++ t) = .ok (r, s) := by
  have hr0 := hr.length_pos
  have hs0 := hs.length_pos
  have hlength := length_sequence r s
  have helements := length_elements r s
  have h8 : ¬ (sequence r s ++ t).length < 8 := by
    rw [List.length_append]
    omega
  have hall : (element r ++ element s ++ t).take (4 + r.length + s.length) =
      element r ++ element s := List.take_left' helements
  have hlast : header (element s) = (0x02, s.length, s) := by
    have h := header_element (r := s) (by omega) []
    rwa [List.append_nil, List.append_nil] at h
  have hbad : ¬ ((element r ++ element s ++ t).length < 4 + r.length + s.length ∨
      4 + r.length + s.length < 6) := by
    rw [List.length_append]
    omega
  have hbadR : ¬ (r.length = 0 ∨ 4 + r.length + s.length < r.length + 5) := by omega
  have hbadS : ¬ (s.length = 0 ∨ s.length < s.length) := by omega
  have hnegative : ¬ (r.headD 0 &&& 0x80 ≠ 0 ∨ s.headD 0 &&& 0x80 ≠ 0) := by
    rw [hr.headD, hs.headD]
    simp
  simp only [bodies, h8, header_sequence hlen, hbad, hall, header_element (r := r) (by omega),
    hbadR, List.take_left, List.drop_left, hlast, hbadS, List.take_length, hnegative, if_false,
    ne_eq, not_true_eq_false]

end Der

namespace Signature

variable {sig : Signature} {v : ℤ}

theorem checkComponent_eq_ok {c : Component} {u : Unit} (h : 0 ≤ v) :
    checkComponent c v = .ok u ↔ Ecdsa.InRange v := by
  rw [checkComponent, Ecdsa.InRange]
  split_ifs with hzero hlarge
  · exact iff_of_false nofun fun hv ↦ hv.1.ne' hzero
  · exact iff_of_false nofun fun hv ↦ hlarge.not_gt hv.2
  · exact iff_of_true rfl ⟨h.lt_of_ne' hzero, not_le.1 hlarge⟩

theorem length_integer_of_inRange (h : Ecdsa.InRange v) : (Der.integer v).length ≤ 33 := by
  have hn : Secp256k1.n < 256 ^ 32 := by decide
  refine Der.length_integer_le ?_
  obtain ⟨hpos, hlt⟩ := h
  omega

theorem length_toDer (hr : Ecdsa.InRange sig.r) (hs : Ecdsa.InRange sig.s) :
    6 ≤ sig.toDer.length ∧ sig.toDer.length ≤ 72 := by
  have hrlen := length_integer_of_inRange hr
  have hslen := length_integer_of_inRange hs
  rw [toDer, Der.encode_eq, Der.length_sequence]
  omega

theorem ofBytes_integer (h : 0 ≤ v) : Integer.ofBytes (Der.integer v) .big = v := by
  rw [Integer.ofBytes, ByteOrder.arrange, Der.toNatBE_integer, Int.natAbs_of_nonneg h]

theorem ofComponents_eq_ok {r s : Bytes} : ofComponents r s = .ok sig ↔
    (Ecdsa.InRange (Integer.ofBytes r .big) ∧ Ecdsa.InRange (Integer.ofBytes s .big)) ∧
      sig = { r := Integer.ofBytes r .big, s := Integer.ofBytes s .big } := by
  simp only [ofComponents, Fallible.bind_eq_ok, Fallible.pure_eq_ok,
    checkComponent_eq_ok (Integer.ofBytes_nonneg _ _), exists_const, and_assoc, eq_comm (a := sig)]

/-- What is written is read back, whatever follows it, just when its components are in range. -/
theorem ofDer_toDer_append_eq_ok {read : Signature} (hr : 0 ≤ sig.r) (hs : 0 ≤ sig.s)
    (hlen : sig.toDer.length < 256) (t : Bytes) : ofDer (sig.toDer ++ t) = .ok read ↔
      (Ecdsa.InRange sig.r ∧ Ecdsa.InRange sig.s) ∧ read = { r := sig.r, s := sig.s } := by
  rw [toDer, Der.encode_eq, Der.length_sequence] at hlen
  have hbodies : Der.bodies (sig.toDer ++ t) = .ok (Der.integer sig.r, Der.integer sig.s) :=
    Der.bodies_sequence_append (Der.isInteger_integer _) (Der.isInteger_integer _) (by omega) t
  rw [ofDer, hbodies]
  dsimp only
  rw [ofComponents_eq_ok, ofBytes_integer hr, ofBytes_integer hs]

theorem ofDer_toDer_eq_ok {read : Signature} (hr : 0 ≤ sig.r) (hs : 0 ≤ sig.s)
    (hlen : sig.toDer.length < 256) : ofDer sig.toDer = .ok read ↔
      (Ecdsa.InRange sig.r ∧ Ecdsa.InRange sig.s) ∧ read = { r := sig.r, s := sig.s } := by
  have h := @ofDer_toDer_append_eq_ok sig read hr hs hlen []
  rwa [List.append_nil] at h

theorem ofDer_toDer_append (hr : Ecdsa.InRange sig.r) (hs : Ecdsa.InRange sig.s) (t : Bytes) :
    ofDer (sig.toDer ++ t) = .ok { r := sig.r, s := sig.s } := by
  have hlen := (length_toDer hr hs).2
  exact (ofDer_toDer_append_eq_ok hr.1.le hs.1.le (by omega) t).2 ⟨⟨hr, hs⟩, rfl⟩

theorem ofDer_toDer (hr : Ecdsa.InRange sig.r) (hs : Ecdsa.InRange sig.s) :
    ofDer sig.toDer = .ok { r := sig.r, s := sig.s } := by
  have h := ofDer_toDer_append hr hs []
  rwa [List.append_nil] at h

end Signature

end BitcoinCash

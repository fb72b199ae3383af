import BitcoinCash.CryptoError
import BitcoinCash.Proofs.Bytes.Digits
import Mathlib.Data.Int.Notation

namespace BitcoinCash

namespace ByteOrder

@[simp]
theorem length_arrange (o : ByteOrder) (b : Bytes) : (o.arrange b).length = b.length := by
  cases o <;> simp [arrange]

theorem arrange_eq_iff {o : ByteOrder} {b c : Bytes} : o.arrange b = c ↔ b = o.arrange c := by
  cases o with
  | big => rfl
  | little => exact List.reverse_eq_iff

end ByteOrder

namespace Integer

variable {a : ℤ} {b : Bytes} {width : ℕ}

theorem ofBytes_nonneg (b : Bytes) (o : ByteOrder) : 0 ≤ ofBytes b o := Int.natCast_nonneg _

theorem ofBytes_ofNatBE (h0 : 0 ≤ a) (hlt : a < 256 ^ width) :
    ofBytes (Bytes.ofNatBE width a.toNat) .big = a := by
  have hnat : a.toNat < 256 ^ width := by
    have := Int.toNat_of_nonneg h0
    exact_mod_cast this ▸ hlt
  rw [ofBytes, ByteOrder.arrange, Bytes.toNatBE_ofNatBE hnat, Int.toNat_of_nonneg h0]

theorem ofNatBE_ofBytes (h : b.length = width) :
    Bytes.ofNatBE width (ofBytes b .big).toNat = b := by
  rw [← h]
  exact Bytes.ofNatBE_toNatBE b

/-- The width holds the magnitudes that are no longer than it, which are the numbers below its power
of 256. -/
theorem length_magnitudeBytes_le_iff (h0 : 0 ≤ a) :
    (magnitudeBytes a).length ≤ width ↔ a < 256 ^ width := by
  obtain ⟨n, rfl⟩ := Int.eq_ofNat_of_zero_le h0
  rw [magnitudeBytes, Int.natAbs_natCast]
  norm_cast
  constructor
  · intro hlen
    have hlt := Bytes.toNatBE_lt (Bytes.digitsBE n)
    rw [Bytes.toNatBE_digitsBE] at hlt
    exact hlt.trans_le (Nat.pow_le_pow_right (by decide) hlen)
  · exact Bytes.length_digitsBE_le

theorem toBytes_eq_padded (h0 : 0 ≤ a) (hlen : (magnitudeBytes a).length ≤ width) (o : ByteOrder) :
    toBytes a width o = .ok (o.arrange
      (List.replicate (width - (magnitudeBytes a).length) 0 ++ magnitudeBytes a)) := by
  rw [toBytes, toBytes?, if_neg (Int.not_lt.2 h0), if_neg (Nat.not_lt.2 hlen)]

theorem toBytes_eq_error (o : ByteOrder) (h : ¬(0 ≤ a ∧ a < 256 ^ width)) :
    toBytes a width o = .error (.overflow width) := by
  unfold toBytes toBytes?
  by_cases h0 : a < 0
  · rw [if_pos h0]
  · have hlong : width < (magnitudeBytes a).length := by
      rw [← Nat.not_le, length_magnitudeBytes_le_iff (Int.not_lt.1 h0)]
      exact fun hlt ↦ h ⟨Int.not_lt.1 h0, hlt⟩
    rw [if_neg h0, if_pos hlong]

theorem toBytes_eq_ofNatBE (h0 : 0 ≤ a) (hlt : a < 256 ^ width) :
    toBytes a width .big = .ok (Bytes.ofNatBE width a.toNat) := by
  have hlen := (length_magnitudeBytes_le_iff h0).2 hlt
  have hvalue : Bytes.toNatBE
      (List.replicate (width - (magnitudeBytes a).length) 0 ++ magnitudeBytes a) = a.toNat := by
    rw [Bytes.toNatBE_replicate_append, magnitudeBytes, Bytes.toNatBE_digitsBE]
    omega
  have hpadded := Bytes.ofNatBE_toNatBE
    (List.replicate (width - (magnitudeBytes a).length) 0 ++ magnitudeBytes a)
  rw [hvalue, List.length_append, List.length_replicate, Nat.sub_add_cancel hlen] at hpadded
  rw [toBytes_eq_padded h0 hlen, hpadded]
  rfl

theorem toBytes_eq_map (a : ℤ) (width : ℕ) (o : ByteOrder) :
    toBytes a width o = (toBytes a width .big).map o.arrange := by
  unfold toBytes toBytes?
  dsimp only
  split_ifs <;> rfl

theorem ofBytes_lt (b : Bytes) (o : ByteOrder) : ofBytes b o < 256 ^ b.length := by
  have hlt := Bytes.toNatBE_lt (o.arrange b)
  rw [ByteOrder.length_arrange] at hlt
  rw [ofBytes]
  exact_mod_cast hlt

theorem toBytes_big_eq_ok :
    toBytes a width .big = .ok b ↔ b.length = width ∧ ofBytes b .big = a := by
  constructor
  · intro h
    by_cases hfits : 0 ≤ a ∧ a < 256 ^ width
    · rw [toBytes_eq_ofNatBE hfits.1 hfits.2] at h
      cases h
      exact ⟨Bytes.length_ofNatBE _ _, ofBytes_ofNatBE hfits.1 hfits.2⟩
    · rw [toBytes_eq_error .big hfits] at h
      cases h
  · rintro ⟨rfl, rfl⟩
    rw [toBytes_eq_ofNatBE (ofBytes_nonneg b .big) (ofBytes_lt b .big), ofNatBE_ofBytes rfl]

theorem toBytes_eq_ok {o : ByteOrder} :
    toBytes a width o = .ok b ↔ b.length = width ∧ ofBytes b o = a := by
  have harrange : toBytes a width o = .ok b ↔ toBytes a width .big = .ok (o.arrange b) := by
    rw [toBytes_eq_map]
    cases toBytes a width .big with
    | error e => simp [Except.map]
    | ok c => simp [Except.map, o.arrange_eq_iff]
  rw [harrange, toBytes_big_eq_ok, ByteOrder.length_arrange]
  rfl

/-- The fixed width holds just the numbers below its power of 256, each as one string, in either
order; the magnitude is that string without its leading zeros. -/
theorem toBytes_exact (a : ℤ) (width : ℕ) (o : ByteOrder) :
    ((∃ b, toBytes a width o = .ok b) ↔ 0 ≤ a ∧ a < 256 ^ width) ∧
      (∀ b, toBytes a width o = .ok b → b.length = width ∧ ofBytes b o = a) ∧
      (¬(0 ≤ a ∧ a < 256 ^ width) → toBytes a width o = .error (.overflow width)) ∧
      (∀ b, toBytes (ofBytes b o) b.length o = .ok b) ∧
      toBytes a width .little = (toBytes a width .big).map List.reverse ∧
      (∀ b, toBytes a width .big = .ok b → magnitudeBytes a = b.dropWhile (· = 0)) ∧
      (0 ≤ a → (magnitudeBytes a).length ≤ width → toBytes a width .big =
        .ok (List.replicate (width - (magnitudeBytes a).length) 0 ++ magnitudeBytes a)) := by
  refine ⟨⟨?_, ?_⟩, fun b ↦ toBytes_eq_ok.1, toBytes_eq_error o, fun b ↦ toBytes_eq_ok.2 ⟨rfl, rfl⟩,
    toBytes_eq_map a width .little, ?_,
    fun h0 hlen ↦ toBytes_eq_padded h0 hlen .big⟩
  · rintro ⟨b, hb⟩
    obtain ⟨rfl, rfl⟩ := toBytes_eq_ok.1 hb
    exact ⟨ofBytes_nonneg b o, ofBytes_lt b o⟩
  · rintro ⟨h0, hlt⟩
    rw [toBytes_eq_map, toBytes_eq_ofNatBE h0 hlt]
    exact ⟨_, rfl⟩
  · intro b hb
    obtain ⟨rfl, rfl⟩ := toBytes_big_eq_ok.1 hb
    exact Bytes.digitsBE_toNatBE b

theorem toBytes_exact_padded :
    toBytes 0x0102 4 .big = .ok [0, 0, 1, 2] ∧ toBytes 0x0102 4 .little = .ok [2, 1, 0, 0] ∧
      toBytes 0x0102 1 .big = .error (.overflow 1) ∧ magnitudeBytes 0x0102 = [1, 2] := by
  have hbig : toBytes 0x0102 4 .big = .ok [0, 0, 1, 2] := by cbv
  obtain ⟨-, -, -, -, hlittle, hmagnitude, -⟩ := toBytes_exact 0x0102 4 .big
  rw [hbig] at hlittle
  exact ⟨hbig, hlittle, (toBytes_exact 0x0102 1 .big).2.2.1 (by decide), hmagnitude _ hbig⟩

end Integer

end BitcoinCash

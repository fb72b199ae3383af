import BitcoinCash.Proofs.Machine.NumberCodec

namespace BitcoinCash.Number

variable {a b c : Bytes} {last x : UInt8}

theorem eq_zero_or_eq_sign (h : last &&& 0x7f = 0) : last = 0 ∨ last = 0x80 := by
  have hlt := last.toNat_lt
  have hmod := toNat_and_magnitude (x := last)
  have hsign : (0x80 : UInt8).toNat = 128 := rfl
  rw [h, UInt8.toNat_zero] at hmod
  rw [← UInt8.toNat_inj, ← UInt8.toNat_inj, UInt8.toNat_zero, hsign]
  omega

theorem value_concat_zero (b : Bytes) : value (b ++ [0]) = Bytes.toNatLE b := by
  rw [value_concat, if_pos (by decide), Bytes.toNatLE_concat_zero]

theorem value_concat_sign (b : Bytes) : value (b ++ [0x80]) = -(Bytes.toNatLE b : ℤ) := by
  rw [value_concat, if_neg (by decide)]
  exact congrArg (fun n : ℕ ↦ -(n : ℤ)) (Bytes.toNatLE_concat_zero b)

theorem value_concat_or (hlast : last &&& 0x7f = 0) (hx : x &&& 0x80 = 0) :
    value (b ++ [x ||| last]) = value (b ++ [x] ++ [last]) := by
  rcases eq_zero_or_eq_sign hlast with rfl | rfl
  · rw [value_concat_zero, UInt8.or_zero, value_concat, if_pos hx]
  · obtain ⟨hsign, hrest⟩ := or_sign hx
    rw [value_concat_sign, value_concat, if_neg hsign, hrest]

theorem value_concat_zero_concat (hlast : last &&& 0x7f = 0) :
    value (b ++ [0] ++ [last]) = value (b ++ [last]) := by
  rcases eq_zero_or_eq_sign hlast with rfl | rfl
  · simp only [value_concat_zero, Bytes.toNatLE_concat_zero]
  · simp only [value_concat_sign, Bytes.toNatLE_concat_zero]

theorem isMinimal_concat_or (hlast : last &&& 0x7f = 0) (hx0 : x ≠ 0) (hx : x &&& 0x80 = 0) :
    isMinimal (b ++ [x ||| last]) := by
  apply isMinimal_concat
  rcases eq_zero_or_eq_sign hlast with rfl | rfl
  · rwa [UInt8.or_zero, and_magnitude_of_unsigned hx]
  · rwa [(or_sign hx).2]

theorem ending_spec (hlast : last &&& 0x7f = 0) (b : Bytes) :
    value (ending last b.reverse) = value (b ++ [last]) ∧ isMinimal (ending last b.reverse) ∧
      (ending last b.reverse = b ++ [last] ∨
        (ending last b.reverse).length < (b ++ [last]).length) := by
  induction b using List.reverseRecOn with
  | nil =>
    have hzero : value [last] = 0 := by rcases eq_zero_or_eq_sign hlast with rfl | rfl <;> rfl
    exact ⟨hzero.symm, rfl, .inr Nat.one_pos⟩
  | append_singleton b x ih =>
    obtain ⟨hvalue, hminimal, hlength⟩ := ih
    rw [List.reverse_concat]
    by_cases hx0 : x = 0
    · rw [hx0, ending_zero, value_concat_zero_concat hlast]
      refine ⟨hvalue, hminimal, .inr ?_⟩
      rcases hlength with heq | hlt
      · simp [heq]
      · simp only [List.length_append, List.length_singleton] at hlt ⊢
        omega
    by_cases hx : x &&& 0x80 = 0
    · rw [ending_of_unsigned hx0 (not_not_intro hx), List.reverse_cons, List.reverse_reverse]
      exact ⟨value_concat_or hlast hx, isMinimal_concat_or hlast hx0 hx, .inr (by simp)⟩
    · rw [ending_of_signed hx, List.reverse_cons, List.reverse_cons, List.reverse_reverse]
      exact ⟨rfl, by simp [isMinimal, hx], .inl rfl⟩

/-- An element is shortened to one of the same number, in which no byte is superfluous, and is
left as it is unless it gets shorter. -/
theorem shorten_spec (b : Bytes) :
    value (shorten b) = value b ∧ isMinimal (shorten b) ∧
      (shorten b = b ∨ (shorten b).length < b.length) := by
  induction b using List.reverseRecOn with
  | nil => exact ⟨rfl, rfl, .inl rfl⟩
  | append_singleton b last =>
    rw [shorten_concat]
    split
    next hlast => exact ⟨rfl, isMinimal_concat hlast, .inl rfl⟩
    next hlast => exact ending_spec (not_not.1 hlast) b

theorem length_shorten_le (b : Bytes) : (shorten b).length ≤ b.length := by
  rcases (shorten_spec b).2.2 with heq | hlt
  · exact (congrArg List.length heq).le
  · exact hlt.le

theorem shorten_eq_encode (b : Bytes) : shorten b = encode (value b) := by
  obtain ⟨hvalue, hminimal, -⟩ := shorten_spec b
  rw [← hvalue, encode_value hminimal]

theorem shorten_of_isMinimal (h : isMinimal b) : shorten b = b := by
  rw [shorten_eq_encode, encode_value h]

theorem shorten_congr (h : value a = value b) : shorten a = shorten b := by
  rw [shorten_eq_encode, shorten_eq_encode, h]

/-- Of the elements with one number, the encoding of the number is shorter than all others. -/
theorem eq_or_length_lt_of_value (h : value a = value b) :
    a = shorten b ∨ (shorten b).length < a.length := by
  have heq : shorten b = shorten a := (shorten_congr h).symm
  rw [heq]
  exact (shorten_spec a).2.2.imp_left Eq.symm

theorem encode_eq_nil_iff {n : ℤ} : encode n = [] ↔ n = 0 := by
  constructor
  · intro h
    rw [← value_encode n, h]
    rfl
  · rintro rfl
    exact encode_zero

theorem shorten_eq_nil_iff : shorten b = [] ↔ value b = 0 := by
  rw [shorten_eq_encode, encode_eq_nil_iff]

theorem value_concat_eq_zero_iff :
    value (b ++ [last]) = 0 ↔ (∀ x ∈ b, x = 0) ∧ (last = 0 ∨ last = 0x80) := by
  have hlast : last &&& 0x7f = 0 ↔ last = 0 ∨ last = 0x80 := by
    refine ⟨eq_zero_or_eq_sign, ?_⟩
    rintro (rfl | rfl) <;> rfl
  rw [← Int.natAbs_eq_zero, natAbs_value_concat, Bytes.toNatLE_eq_zero_iff]
  simp [hlast, or_imp, forall_and]

theorem value_eq_zero_iff :
    value b = 0 ↔ ∃ k, b = List.replicate k 0 ∨ b = List.replicate k 0 ++ [0x80] := by
  constructor
  · intro h
    induction b using List.reverseRecOn with
    | nil => exact ⟨0, .inl rfl⟩
    | append_singleton b last =>
      obtain ⟨hzeros, hlast⟩ := value_concat_eq_zero_iff.1 h
      have hb : b = List.replicate b.length 0 := List.eq_replicate_iff.2 ⟨rfl, hzeros⟩
      rcases hlast with rfl | rfl
      · refine ⟨b.length + 1, .inl ?_⟩
        rw [List.replicate_succ', ← hb]
      · refine ⟨b.length, .inr ?_⟩
        rw [← hb]
  · rintro ⟨k, rfl | rfl⟩
    · cases k with
      | zero => rfl
      | succ k => simp [List.replicate_succ', value_concat_eq_zero_iff]
    · simp [value_concat_eq_zero_iff]

theorem isTrue_iff_value : isTrue b ↔ value b ≠ 0 := by
  induction b using List.reverseRecOn with
  | nil => simp [isTrue, value]
  | append_singleton b last =>
    rw [ne_eq, value_concat_eq_zero_iff, isTrue, List.getLast?_concat, List.dropLast_concat]
    simp [imp_iff_not_or]

/-- What an element of any length is shortened to has its number, passes the rule, is shorter than
every other element of that number, is empty only for zero, and is left as it is. An element that
passes the rule is not changed, one of up to eight bytes becomes what is written for the number read
from it, and one is true unless it becomes empty. -/
theorem trim_shortest (b : Bytes) :
    ∃ c, trim b = .ok c ∧ value c = value b ∧ checkMinimal c = .ok () ∧
      (∀ a, value a = value b → a = c ∨ c.length < a.length) ∧
      (c = [] ↔ value b = 0) ∧
      (c = [] ↔ ∃ k, b = List.replicate k 0 ∨ b = List.replicate k 0 ++ [0x80]) ∧
      trim c = .ok c ∧ (checkMinimal b = .ok () → c = b) ∧
      (b.length ≤ 8 → ∃ n, decode ⟨8, false⟩ b = .ok n ∧ write n = .ok c) ∧
      (isTrue b ↔ c ≠ []) := by
  obtain ⟨hvalue, hminimal, -⟩ := shorten_spec b
  have hempty : shorten b = [] ↔ value b = 0 := shorten_eq_nil_iff
  refine ⟨shorten b, trim_eq b, hvalue, ?_, ?_, hempty, hempty.trans value_eq_zero_iff, ?_, ?_, ?_,
    ?_⟩
  · rw [checkMinimal_eq]
    exact require_eq_ok.2 hminimal
  · intro a ha
    exact eq_or_length_lt_of_value ha
  · rw [trim_eq, shorten_of_isMinimal hminimal]
  · intro h
    rw [checkMinimal_eq] at h
    exact shorten_of_isMinimal (require_eq_ok.1 h)
  · intro hlen
    have hread : decode ⟨8, false⟩ b = .ok (value b) := decode_eq_ok.2 ⟨⟨hlen, hlen⟩, nofun, rfl⟩
    exact ⟨value b, hread, by rw [write_eq, shorten_eq_encode]⟩
  · exact isTrue_iff_value.trans (not_congr hempty.symm)

theorem trim_shortest_padded :
    let b : Bytes := 5 :: List.replicate 30 0 ++ [0x80]
    trim b = .ok [0x85] ∧ value b = -5 ∧ (∀ a, value a = -5 → a = [0x85] ∨ 1 < a.length) ∧
      isTrue b := by
  intro b
  have hb : trim b = .ok [0x85] := rfl
  have hvalue : value b = -5 := rfl
  obtain ⟨c, hc, -, -, hshortest, -, -, -, -, -, htrue⟩ := trim_shortest b
  obtain rfl : [0x85] = c := Except.ok.inj (hb.symm.trans hc)
  rw [hvalue] at hshortest
  exact ⟨hb, hvalue, hshortest, htrue.2 (List.cons_ne_nil _ _)⟩

end BitcoinCash.Number

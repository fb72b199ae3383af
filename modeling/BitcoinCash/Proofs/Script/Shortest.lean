import BitcoinCash.Proofs.Script.Push
import BitcoinCash.Proofs.Script.WellFormed

namespace BitcoinCash

open Fallible (bind_eq_ok)

theorem Chunk.HasField.eq_of_width {op op' : Opcode} {w : ℕ} (h : HasField op w)
    (h' : HasField op' w) : op = op' := by
  cases h <;> cases h' <;> rfl

namespace Push

open Chunk (HasField)

variable {n : ℕ} {a b : Bytes}

inductive IsHeader (n : ℕ) : Bytes → Prop
  | direct : n ≤ 75 → IsHeader n [UInt8.ofNat n]
  | sized {op : Opcode} {w : ℕ} : HasField op w → n < 256 ^ w →
      IsHeader n (op :: Bytes.ofNatLE w n)

structure IsShortest (n : ℕ) (b : Bytes) : Prop where
  isHeader : IsHeader n b
  length_le : ∀ a, IsHeader n a → b.length ≤ a.length

theorem IsHeader.eq_of_length (ha : IsHeader n a) (hb : IsHeader n b) (h : a.length = b.length) :
    a = b := by
  cases ha with
  | direct =>
    cases hb with
    | direct => rfl
    | sized hfield => simp [hfield.ne_zero] at h
  | sized hfield =>
    cases hb with
    | direct => simp [hfield.ne_zero] at h
    | sized hfield' =>
      simp only [List.length_cons, Bytes.length_ofNatLE, Nat.add_right_cancel_iff] at h
      subst h
      rw [hfield.eq_of_width hfield']

theorem IsShortest.unique (ha : IsShortest n a) (hb : IsShortest n b) : a = b :=
  ha.isHeader.eq_of_length hb.isHeader
    (Nat.le_antisymm (ha.length_le b hb.isHeader) (hb.length_le a ha.isHeader))

/-- A length field is as narrow as can be if half of it is too narrow. -/
theorem isShortest_sized {op : Opcode} {w : ℕ} (hfield : HasField op w) (hn : n < 256 ^ w)
    (h75 : 75 < n) (hhalf : 256 ^ (w / 2) ≤ n) : IsShortest n (op :: Bytes.ofNatLE w n) := by
  refine ⟨.sized hfield hn, ?_⟩
  intro a ha
  cases ha with
  | direct h => omega
  | @sized op' w' hfield' hn' =>
    simp only [List.length_cons, Bytes.length_ofNatLE, Nat.add_le_add_iff_right]
    cases hfield <;> cases hfield' <;> omega

theorem isShortest_of_header (h : header n = .ok b) : IsShortest n b := by
  unfold header at h
  split at h
  next h75 =>
    cases h
    refine ⟨.direct h75, ?_⟩
    intro a ha
    cases ha <;> simp
  split at h
  next h1 =>
    cases h
    exact isShortest_sized .one h1 (by omega) (by omega)
  split at h
  next h2 =>
    cases h
    exact isShortest_sized .two h2 (by omega) (by omega)
  split at h
  next h4 =>
    cases h
    exact isShortest_sized .four h4 (by omega) (by omega)
  next => cases h

theorem IsHeader.lt (h : IsHeader n b) : n < 0x100000000 := by
  cases h with
  | direct h75 => omega
  | sized hfield hn => cases hfield <;> omega

theorem header_eq_ok_iff : header n = .ok b ↔ IsShortest n b := by
  constructor
  · exact isShortest_of_header
  · intro h
    obtain ⟨a, ha⟩ := header_eq_ok h.isHeader.lt
    rw [ha, (isShortest_of_header ha).unique h]

end Push

namespace Chunk

variable {c : Chunk} {d : Bytes}

/-- If the chunk has data, no header is shorter than the one before them. -/
def IsShortest (c : Chunk) : Prop :=
  ∀ d, c.data = some d → ∃ header, Push.IsShortest d.length header ∧ c.encode = .ok (header ++ d)

theorem IsShortest.exists_push (h : c.IsShortest) (hd : c.data = some d) :
    ∃ b, c.encode = .ok b ∧ Push.data d = .ok b := by
  obtain ⟨header, hheader, hencode⟩ := h d hd
  refine ⟨header ++ d, hencode, ?_⟩
  rw [Push.data, Push.header_eq_ok_iff.2 hheader]
  rfl

theorem isShortest_of_push {b : Bytes} (hd : c.data = some d) (hencode : c.encode = .ok b)
    (hpush : Push.data d = .ok b) : c.IsShortest := by
  intro d' hd'
  obtain rfl : d = d' := Option.some.inj (hd.symm.trans hd')
  obtain ⟨header, hheader, h⟩ := bind_eq_ok.1 hpush
  cases h
  exact ⟨header, Push.header_eq_ok_iff.1 hheader, hencode⟩

theorem isShortest_of_bare (hd : c.data = none) : c.IsShortest := by
  intro d hd'
  rw [hd] at hd'
  cases hd'

theorem head_of_encode {b : Bytes} (h : c.encode = .ok b) : b.head? = some c.op := by
  unfold encode at h
  split at h
  next => cases h; rfl
  next =>
    obtain ⟨_, -, h⟩ := bind_eq_ok.1 h
    cases h
    rfl

theorem IsShortest.ne_nil (h : c.IsShortest) (hop : c.op.carriesData = true)
    (hd : c.data = some d) : d ≠ [] := by
  rintro rfl
  obtain ⟨b, hencode, hpush⟩ := h.exists_push hd
  have hhead := head_of_encode hencode
  cases hpush
  rw [← Option.some.inj hhead] at hop
  cases hop

end Chunk

end BitcoinCash

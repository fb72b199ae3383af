import BitcoinCash.Proofs.Bytes.Digits
import BitcoinCash.Proofs.Fallible
import BitcoinCash.Proofs.Script.Chunk
import BitcoinCash.Script.Push

namespace BitcoinCash.Push

variable {d : Bytes}

theorem data_ne_nil (h : opcode? d = none) : d ≠ [] := by
  rintro rfl
  cases h

theorem opcode?_eq_some {op : Opcode} (h : opcode? d = some op) :
    d = [] ∧ op = 0 ∨ (∃ n < 17, 1 ≤ n ∧ d = [UInt8.ofNat n] ∧ op = 0x50 + UInt8.ofNat n) ∨
      d = [0x81] ∧ op = Opcode.negate1 := by
  unfold opcode? at h
  split at h
  · cases h
    exact .inl ⟨rfl, rfl⟩
  · split at h
    next x hx =>
      cases h
      simp only [UInt8.le_iff_toNat_le] at hx
      exact .inr (.inl ⟨x.toNat, Nat.lt_succ_of_le hx.2, hx.1, by simp, by simp⟩)
    next =>
      split at h
      next hx =>
        cases h
        exact .inr (.inr ⟨by rw [hx], rfl⟩)
      next => cases h
  · cases h

theorem opcode?_eq_none (h : 2 ≤ d.length) : opcode? d = none := by
  match d, h with
  | _ :: _ :: _, _ => rfl

theorem lengthWidth?_of_opcode? {op : Opcode} (h : opcode? d = some op) :
    Chunk.lengthWidth? op = none := by
  rcases opcode?_eq_some h with ⟨-, rfl⟩ | ⟨n, hn, h1, -, rfl⟩ | ⟨-, rfl⟩
  · rfl
  · clear h
    revert n
    decide
  · rfl

theorem header_eq_ok {n : Nat} (h : n < 0x100000000) : ∃ b, header n = .ok b := by
  unfold header
  repeat' split
  all_goals exact ⟨_, rfl⟩

theorem header_eq_error {n : Nat} (h : ¬ n < 0x100000000) : header n = .error .dataTooBig := by
  rw [header, if_neg (by omega), if_neg (by omega), if_neg (by omega), if_neg h]

theorem data_eq_ok (h : d.length < 0x100000000) : ∃ b, data d = .ok b := by
  obtain ⟨b, hb⟩ := header_eq_ok h
  exact ⟨b ++ d, by rw [data, hb]; rfl⟩

theorem data_of_length_le (h : d.length ≤ 75) : data d = .ok (UInt8.ofNat d.length :: d) := by
  rw [data, header, if_pos h]
  rfl

theorem length_data_of_length_le {b : Bytes} (h75 : d.length ≤ 75) (h : data d = .ok b) :
    b.length = d.length + 1 := by
  rw [data_of_length_le h75] at h
  cases h
  rfl

theorem minimal_eq_ok (h : d.length < 0x100000000) : ∃ b, minimal d = .ok b := by
  unfold minimal
  split
  · exact ⟨_, rfl⟩
  · exact data_eq_ok h

theorem minimal_eq_data (h : 2 ≤ d.length) : minimal d = data d := by
  rw [minimal, opcode?_eq_none h]

theorem length_header_le {n : Nat} {b : Bytes} (h : header n = .ok b) : b.length ≤ 5 := by
  unfold header at h
  repeat' split at h
  all_goals cases h
  all_goals simp

theorem exists_header_of_data {b : Bytes} (h : data d = .ok b) :
    ∃ x, header d.length = .ok x ∧ b.length = d.length + x.length := by
  obtain ⟨x, hx, h⟩ := Fallible.bind_eq_ok.1 h
  cases h
  exact ⟨x, hx, by rw [List.length_append, Nat.add_comm]⟩

theorem length_data_le {b : Bytes} (h : data d = .ok b) : b.length ≤ d.length + 5 := by
  obtain ⟨x, hx, hb⟩ := exists_header_of_data h
  rw [hb]
  exact Nat.add_le_add_left (length_header_le hx) _

theorem length_header_le_of_lt {n : Nat} {b : Bytes} (hn : n < 0x10000) (h : header n = .ok b) :
    b.length ≤ 3 := by
  unfold header at h
  repeat' split at h
  all_goals cases h
  all_goals simp

theorem length_data_le_of_lt {b : Bytes} (hd : d.length < 0x10000) (h : data d = .ok b) :
    b.length ≤ d.length + 3 := by
  obtain ⟨x, hx, hb⟩ := exists_header_of_data h
  rw [hb]
  exact Nat.add_le_add_left (length_header_le_of_lt hd hx) _

theorem length_header_of_le {n : Nat} {b : Bytes} (hn : 0x10000 ≤ n) (h : header n = .ok b) :
    b.length = 5 := by
  rw [header, if_neg (by omega), if_neg (by omega), if_neg (by omega)] at h
  split at h
  all_goals cases h
  rfl

theorem length_data_of_le {b : Bytes} (hd : 0x10000 ≤ d.length) (h : data d = .ok b) :
    b.length = d.length + 5 := by
  obtain ⟨x, hx, hb⟩ := exists_header_of_data h
  rw [hb, length_header_of_le hd hx]

theorem length_minimal_le {b : Bytes} (h : minimal d = .ok b) : b.length ≤ d.length + 5 := by
  unfold minimal at h
  split at h
  next =>
    cases h
    exact Nat.le_add_left 1 _
  next => exact length_data_le h

theorem decode_data_of_ne_nil {b : Bytes} (hd : d ≠ []) (h : data d = .ok b) :
    Chunk.decode b = .ok [⟨b.headD 0, some d⟩] := by
  have hne : d.length ≠ 0 := mt List.length_eq_zero_iff.1 hd
  have hfield (w : Nat) (hw : w ≠ 0) (op : Opcode) (hlt : d.length < 256 ^ w) :
      d.length =
        Chunk.announced op (Bytes.ofNatLE w d.length).length (Bytes.ofNatLE w d.length) := by
    rw [Chunk.announced, Bytes.length_ofNatLE, if_neg hw, Bytes.toNatLE_ofNatLE hlt]
  obtain ⟨field, hheader, h⟩ := Fallible.bind_eq_ok.1 h
  cases h
  unfold header at hheader
  split at hheader
  next h75 =>
    cases hheader
    have hn : d.length = (UInt8.ofNat d.length).toNat := by
      simp
      omega
    exact Chunk.decode_push (Chunk.lengthWidth?_ofNat hne h75) hn
  split at hheader
  next h1 =>
    cases hheader
    exact Chunk.decode_push rfl (hfield 1 (by decide) _ h1)
  split at hheader
  next h2 =>
    cases hheader
    exact Chunk.decode_push rfl (hfield 2 (by decide) _ h2)
  split at hheader
  next h4 =>
    cases hheader
    exact Chunk.decode_push rfl (hfield 4 (by decide) _ h4)
  next => cases hheader

end BitcoinCash.Push

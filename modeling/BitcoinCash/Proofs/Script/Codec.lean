import BitcoinCash.Proofs.Bytes.Digits
import BitcoinCash.Proofs.Fallible
import BitcoinCash.Proofs.Script.Chunk

namespace BitcoinCash.Chunk

open Fallible (bind_eq_ok)

variable {op : Opcode} {b field rest rest' : Bytes} {w : Nat} {c : Chunk} {cs : List Chunk}

theorem lengthWidth?_eq_some (h : lengthWidth? op = some w) :
    op ≠ 0 ∧ op ≤ 75 ∧ w = 0 ∨ op = Opcode.pushData1 ∧ w = 1 ∨ op = Opcode.pushData2 ∧ w = 2 ∨
      op = Opcode.pushData4 ∧ w = 4 := by
  unfold lengthWidth? at h
  split at h
  next => cases h
  next h0 =>
    split at h
    next h75 => cases h; exact .inl ⟨h0, h75, rfl⟩
    next =>
      split at h
      next h1 => cases h; exact .inr (.inl ⟨h1, rfl⟩)
      next =>
        split at h
        next h2 => cases h; exact .inr (.inr (.inl ⟨h2, rfl⟩))
        next =>
          split at h
          next h4 => cases h; exact .inr (.inr (.inr ⟨h4, rfl⟩))
          next => cases h

theorem isSome_lengthWidth? (op : Opcode) : (lengthWidth? op).isSome = op.carriesData := by
  unfold lengthWidth? Opcode.carriesData
  grind [Opcode.pushData1, Opcode.pushData2, Opcode.pushData4]

theorem lengthField_announced (hw : lengthWidth? op = some w) (hf : field.length = w) :
    lengthField op (announced op w field) = .ok field := by
  have hlt := Bytes.toNatLE_lt field
  have hback := Bytes.ofNatLE_toNatLE field
  rw [hf] at hlt hback
  rcases lengthWidth?_eq_some hw with ⟨h0, h75, rfl⟩ | ⟨rfl, rfl⟩ | ⟨rfl, rfl⟩ | ⟨rfl, rfl⟩
  · have ne_of_lt {x : Opcode} (hx : 75 < x) : op ≠ x := by
      rintro rfl
      exact UInt8.not_lt.2 h75 hx
    rw [List.length_eq_zero_iff.1 hf, lengthField, if_neg (ne_of_lt (by decide)),
      if_neg (ne_of_lt (by decide)), if_neg (ne_of_lt (by decide))]
    exact if_pos rfl
  · exact (if_pos hlt).trans (congrArg _ hback)
  · exact (if_pos hlt).trans (congrArg _ hback)
  · exact (if_pos hlt).trans (congrArg _ hback)

theorem encode_of_read (h : read op rest = .ok (c, rest')) :
    ∃ b, c.encode = .ok b ∧ op :: rest = b ++ rest' := by
  cases hw : lengthWidth? op with
  | none =>
    rw [read_of_bare hw] at h
    cases h
    exact ⟨[op], rfl, rfl⟩
  | some w =>
    obtain ⟨field, data, rfl, hf, hd, rfl⟩ := (read_eq_ok_iff hw).1 h
    have hfield := lengthField_announced hw hf
    rw [← hd] at hfield
    refine ⟨op :: (field ++ data), ?_, rfl⟩
    simp only [encode, hfield]
    rfl

/-- The bytes of a script can be told from its chunks. -/
theorem encodeAll_decode (h : decode b = .ok cs) : encodeAll cs = .ok b := by
  induction cs generalizing b with
  | nil =>
    cases b with
    | nil => rfl
    | cons op rest =>
      obtain ⟨_, _, _, -, -, h⟩ := decode_cons_eq_ok.1 h
      cases h
  | cons c cs ih =>
    cases b with
    | nil => simp at h
    | cons op rest =>
      obtain ⟨_, rest', _, hr, hrest, h⟩ := decode_cons_eq_ok.1 h
      cases h
      obtain ⟨b, hb, hbytes⟩ := encode_of_read hr
      rw [encodeAll, hb, ih hrest, hbytes]
      rfl

theorem data_of_read (h : read op rest = .ok (c, rest')) : c.data.isSome = c.op.carriesData := by
  cases hw : lengthWidth? op with
  | none =>
    rw [read_of_bare hw] at h
    cases h
    rw [← isSome_lengthWidth?, hw]
    rfl
  | some w =>
    obtain ⟨field, data, -, -, -, rfl⟩ := (read_eq_ok_iff hw).1 h
    rw [← isSome_lengthWidth?, hw]
    rfl

theorem data_of_decode (h : decode b = .ok cs) (hc : c ∈ cs) :
    c.data.isSome = c.op.carriesData := by
  induction cs generalizing b with
  | nil => cases hc
  | cons d cs ih =>
    cases b with
    | nil => simp at h
    | cons op rest =>
      obtain ⟨_, rest', _, hr, hrest, h⟩ := decode_cons_eq_ok.1 h
      cases h
      cases hc with
      | head => exact data_of_read hr
      | tail _ hc => exact ih hrest hc

end BitcoinCash.Chunk

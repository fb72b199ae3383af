import BitcoinCash.Script.Chunk

namespace BitcoinCash.Chunk

variable {op : Opcode} {b d field rest rest' : Bytes} {w : Nat} {c : Chunk} {cs ds : List Chunk}

theorem read_of_bare (hw : lengthWidth? op = none) : read op rest = .ok (⟨op, none⟩, rest) := by
  rw [read, hw]

def announced (op : Opcode) (w : Nat) (field : Bytes) : Nat :=
  if w = 0 then op.toNat else Bytes.toNatLE field

theorem read_of_push (hw : lengthWidth? op = some w) :
    read op rest =
      if rest.length < w + announced op w (rest.take w) then .error .dataTooSmall
      else .ok (⟨op, some ((rest.drop w).take (announced op w (rest.take w)))⟩,
        (rest.drop w).drop (announced op w (rest.take w))) := by
  rw [read, hw]
  refine ite_congr (propext ?_) (fun _ ↦ rfl) (fun _ ↦ rfl)
  change (rest.take w).length < w ∨ ((rest.drop w).take (announced op w (rest.take w))).length <
    announced op w (rest.take w) ↔ _
  rw [List.length_take, List.length_take, List.length_drop]
  omega

/-- A push is its length field, and as many bytes as that announces. -/
theorem read_eq_ok_iff (hw : lengthWidth? op = some w) :
    read op rest = .ok (c, rest') ↔
      ∃ field data, rest = field ++ data ++ rest' ∧ field.length = w ∧
        data.length = announced op w field ∧ c = ⟨op, some data⟩ := by
  rw [read_of_push hw]
  constructor
  · intro h
    split at h
    next => cases h
    next hlen =>
      cases h
      refine ⟨rest.take w, _, ?_, List.length_take_of_le (by omega), List.length_take_of_le ?_, rfl⟩
      · rw [List.append_assoc, List.take_append_drop, List.take_append_drop]
      · rw [List.length_drop]
        omega
  · rintro ⟨field, data, rfl, rfl, hdata, rfl⟩
    have htake : (field ++ data ++ rest').take field.length = field := by simp
    have hdrop : (field ++ data ++ rest').drop field.length = data ++ rest' := by simp
    rw [htake, hdrop, ← hdata, List.take_left, List.drop_left]
    simp

theorem read_append (h : read op rest = .ok (c, rest')) (t : Bytes) :
    read op (rest ++ t) = .ok (c, rest' ++ t) := by
  cases hw : lengthWidth? op with
  | none =>
    rw [read_of_bare hw] at h ⊢
    cases h
    rfl
  | some w =>
    obtain ⟨field, data, rfl, hf, hd, hc⟩ := (read_eq_ok_iff hw).1 h
    exact (read_eq_ok_iff hw).2 ⟨field, data, by simp, hf, hd, hc⟩

@[simp]
theorem decode_nil : decode [] = .ok [] := by
  rw [decode]

theorem decode_cons_of_ok (h : read op rest = .ok (c, rest')) :
    decode (op :: rest) = (do let cs ← decode rest'; return c :: cs) := by
  rw [decode]
  split
  next he => cases he.symm.trans h
  next hr => cases hr.symm.trans h; rfl

theorem decode_cons_of_error {e : ScriptError} (h : read op rest = .error e) :
    decode (op :: rest) = .error e := by
  rw [decode]
  split
  next he => cases he.symm.trans h; rfl
  next hr => cases hr.symm.trans h

theorem decode_cons_eq_ok :
    decode (op :: rest) = .ok cs ↔
      ∃ c rest' cs', read op rest = .ok (c, rest') ∧ decode rest' = .ok cs' ∧ cs = c :: cs' := by
  cases hr : read op rest with
  | error e => simp [decode_cons_of_error hr]
  | ok p =>
    obtain ⟨c, rest'⟩ := p
    rw [decode_cons_of_ok hr]
    constructor
    · intro h
      cases hd : decode rest' with
      | error e =>
        rw [hd] at h
        cases h
      | ok cs' =>
        rw [hd] at h
        cases h
        exact ⟨c, rest', cs', rfl, hd, rfl⟩
    · rintro ⟨_, _, cs', hr', hd, rfl⟩
      cases hr'
      rw [hd]
      rfl

theorem decode_append (hb : decode b = .ok cs) (hd : decode rest = .ok ds) :
    decode (b ++ rest) = .ok (cs ++ ds) := by
  induction cs generalizing b with
  | nil =>
    cases b with
    | nil => exact hd
    | cons op t =>
      obtain ⟨_, _, _, -, -, h⟩ := decode_cons_eq_ok.1 hb
      cases h
  | cons c cs ih =>
    cases b with
    | nil => simp at hb
    | cons op t =>
      obtain ⟨_, t', _, hr, ht, h⟩ := decode_cons_eq_ok.1 hb
      cases h
      exact decode_cons_eq_ok.2 ⟨c, t' ++ rest, cs ++ ds, read_append hr rest, ih ht, rfl⟩

theorem decode_bare (hw : lengthWidth? op = none) : decode [op] = .ok [⟨op, none⟩] :=
  decode_cons_eq_ok.2 ⟨⟨op, none⟩, [], [], read_of_bare hw, decode_nil, rfl⟩

theorem decode_push (hw : lengthWidth? op = some field.length)
    (hd : d.length = announced op field.length field) :
    decode (op :: field ++ d) = .ok [⟨op, some d⟩] := by
  refine decode_cons_eq_ok.2 ⟨⟨op, some d⟩, [], [], ?_, decode_nil, rfl⟩
  exact (read_eq_ok_iff hw).2 ⟨field, d, by simp, rfl, hd, rfl⟩

theorem lengthWidth?_ofNat {n : Nat} (h0 : n ≠ 0) (h75 : n ≤ 75) :
    lengthWidth? (UInt8.ofNat n) = some 0 := by
  have hn : (UInt8.ofNat n).toNat = n := by simp; omega
  have hne : UInt8.ofNat n ≠ 0 := fun h ↦ h0 (hn ▸ congrArg UInt8.toNat h)
  have hle : UInt8.ofNat n ≤ 75 := by
    rw [UInt8.le_iff_toNat_le, hn]
    exact h75
  rw [lengthWidth?, if_neg hne, if_pos hle]

end BitcoinCash.Chunk

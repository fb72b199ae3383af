import BitcoinCash.Proofs.Script.Codec
import BitcoinCash.Script.Basic

namespace BitcoinCash

open Fallible (bind_eq_ok pure_eq_ok)

namespace Chunk

variable {op : Opcode} {a b d field t rest : Bytes} {w : ℕ} {c : Chunk} {cs : List Chunk}
  {e : ScriptError}

inductive HasField : Opcode → ℕ → Prop
  | one : HasField Opcode.pushData1 1
  | two : HasField Opcode.pushData2 2
  | four : HasField Opcode.pushData4 4

/-- There are data exactly if the opcode is a push that carries some, and as many as the opcode
says, or few enough for its length field. -/
inductive WellFormed : Chunk → Prop
  | bare {op : Opcode} : op.carriesData = false → WellFormed ⟨op, none⟩
  | direct {op : Opcode} {d : Bytes} : 1 ≤ op.toNat → op.toNat ≤ 75 → d.length = op.toNat →
      WellFormed ⟨op, some d⟩
  | sized {op : Opcode} {w : ℕ} {d : Bytes} : HasField op w → d.length < 256 ^ w →
      WellFormed ⟨op, some d⟩

/-- A string begins with a push that runs past its end: in the data, or before they begin. -/
inductive Overruns : Bytes → Prop
  | direct {op : Opcode} {d : Bytes} : 1 ≤ op.toNat → op.toNat ≤ 75 → d.length < op.toNat →
      Overruns (op :: d)
  | field {op : Opcode} {w : ℕ} {t : Bytes} : HasField op w → t.length < w → Overruns (op :: t)
  | sized {op : Opcode} {field d : Bytes} : HasField op field.length →
      d.length < Bytes.toNatLE field → Overruns (op :: (field ++ d))

theorem HasField.lengthWidth? (h : HasField op w) : lengthWidth? op = some w := by
  cases h <;> rfl

theorem HasField.ne_zero (h : HasField op w) : w ≠ 0 := by
  cases h <;> decide

theorem HasField.announced (h : HasField op field.length) :
    announced op field.length field = Bytes.toNatLE field :=
  if_neg h.ne_zero

theorem lengthWidth?_of_bare (h : op.carriesData = false) : lengthWidth? op = none := by
  rw [← Option.not_isSome_iff_eq_none, isSome_lengthWidth?, h]
  exact Bool.false_ne_true

theorem lengthWidth?_of_direct (h1 : 1 ≤ op.toNat) (h75 : op.toNat ≤ 75) :
    lengthWidth? op = some 0 := by
  rw [← UInt8.ofNat_toNat (x := op)]
  exact lengthWidth?_ofNat (by omega) h75

theorem lengthWidth?_cases (h : lengthWidth? op = some w) :
    1 ≤ op.toNat ∧ op.toNat ≤ 75 ∧ w = 0 ∨ HasField op w := by
  rcases lengthWidth?_eq_some h with ⟨h0, h75, rfl⟩ | ⟨rfl, rfl⟩ | ⟨rfl, rfl⟩ | ⟨rfl, rfl⟩
  · left
    have hne : op.toNat ≠ 0 := fun h ↦ h0 (UInt8.toNat_inj.1 h)
    exact ⟨Nat.one_le_iff_ne_zero.2 hne, UInt8.le_iff_toNat_le.1 h75, rfl⟩
  · exact .inr .one
  · exact .inr .two
  · exact .inr .four

theorem read_eq_error_iff (hw : lengthWidth? op = some w) :
    read op rest = .error e ↔
      e = .dataTooSmall ∧ rest.length < w + announced op w (rest.take w) := by
  rw [read_of_push hw]
  split_ifs with h <;> simp [h, eq_comm]

theorem read_eq_error : read op rest = .error e ↔ e = .dataTooSmall ∧ Overruns (op :: rest) := by
  constructor
  · intro h
    cases hw : lengthWidth? op with
    | none =>
      rw [read_of_bare hw] at h
      cases h
    | some w =>
      obtain ⟨he, hlen⟩ := (read_eq_error_iff hw).1 h
      refine ⟨he, ?_⟩
      rcases lengthWidth?_cases hw with ⟨h1, h75, rfl⟩ | hfield
      · rw [Nat.zero_add] at hlen
        exact .direct h1 h75 hlen
      · by_cases hshort : rest.length < w
        · exact .field hfield hshort
        · obtain ⟨field, d, rfl, rfl⟩ : ∃ field d, rest = field ++ d ∧ field.length = w :=
            ⟨_, _, (List.take_append_drop w rest).symm, List.length_take_of_le (by omega)⟩
          rw [List.take_left, hfield.announced, List.length_append] at hlen
          exact .sized hfield (by omega)
  · intro h
    obtain ⟨he, h⟩ := h
    cases h with
    | direct h1 h75 hlen =>
      refine (read_eq_error_iff (lengthWidth?_of_direct h1 h75)).2 ⟨he, ?_⟩
      rwa [Nat.zero_add]
    | field hfield hlen =>
      exact (read_eq_error_iff hfield.lengthWidth?).2 ⟨he, Nat.lt_add_right _ hlen⟩
    | @sized _ field d hfield hlen =>
      refine (read_eq_error_iff hfield.lengthWidth?).2 ⟨he, ?_⟩
      rw [List.take_left, hfield.announced, List.length_append]
      exact Nat.add_lt_add_left hlen _

theorem wellFormed_of_read (h : read op t = .ok (c, rest)) : c.WellFormed := by
  cases hw : lengthWidth? op with
  | none =>
    rw [read_of_bare hw] at h
    cases h
    apply WellFormed.bare
    rw [← isSome_lengthWidth?, hw]
    rfl
  | some w =>
    obtain ⟨field, d, rfl, hf, hd, rfl⟩ := (read_eq_ok_iff hw).1 h
    rcases lengthWidth?_cases hw with ⟨h1, h75, rfl⟩ | hfield
    · exact .direct h1 h75 hd
    · subst hf
      rw [hfield.announced] at hd
      apply WellFormed.sized hfield
      rw [hd]
      exact Bytes.toNatLE_lt field

theorem encode_push (hw : lengthWidth? op = some field.length)
    (hd : b.length = announced op field.length field) :
    encode ⟨op, some b⟩ = .ok (op :: (field ++ b)) := by
  have hfield := lengthField_announced hw rfl
  rw [← hd] at hfield
  simp only [encode, hfield]
  rfl

theorem WellFormed.exists_encode (h : c.WellFormed) : ∃ b, c.encode = .ok b ∧ decode b = .ok [c] := by
  have hpush {op : Opcode} {d : Bytes} (field : Bytes) (hw : lengthWidth? op = some field.length)
      (hd : d.length = announced op field.length field) :
      ∃ b, encode ⟨op, some d⟩ = .ok b ∧ decode b = .ok [⟨op, some d⟩] :=
    ⟨_, encode_push hw hd, decode_push hw hd⟩
  cases h with
  | @bare op hbare => exact ⟨[op], rfl, decode_bare (lengthWidth?_of_bare hbare)⟩
  | direct h1 h75 hd => exact hpush [] (lengthWidth?_of_direct h1 h75) hd
  | @sized op w d hfield hd =>
    have hlen : (Bytes.ofNatLE w d.length).length = w := Bytes.length_ofNatLE w _
    refine hpush (Bytes.ofNatLE w d.length) ?_ ?_
    · rw [hlen]
      exact hfield.lengthWidth?
    · rw [announced, hlen, if_neg hfield.ne_zero, Bytes.toNatLE_ofNatLE hd]

theorem exists_encodeAll (h : ∀ c ∈ cs, c.WellFormed) :
    ∃ b, encodeAll cs = .ok b ∧ decode b = .ok cs := by
  induction cs with
  | nil => exact ⟨[], rfl, decode_nil⟩
  | cons c cs ih =>
    obtain ⟨x, hx, hc⟩ := (h c List.mem_cons_self).exists_encode
    obtain ⟨b, hb, hcs⟩ := ih fun d hd ↦ h d (List.mem_cons_of_mem c hd)
    refine ⟨x ++ b, ?_, decode_append hc hcs⟩
    rw [encodeAll, hx, hb]
    rfl

theorem wellFormed_of_decode (h : decode b = .ok cs) : ∀ c ∈ cs, c.WellFormed := by
  induction cs generalizing b with
  | nil => simp
  | cons d cs ih =>
    cases b with
    | nil => simp at h
    | cons op t =>
      obtain ⟨_, rest, _, hread, hrest, h⟩ := decode_cons_eq_ok.1 h
      cases h
      exact List.forall_mem_cons.2 ⟨wellFormed_of_read hread, ih hrest⟩

theorem decode_cons_eq_error :
    decode (op :: t) = .error e ↔
      read op t = .error e ∨ ∃ c rest, read op t = .ok (c, rest) ∧ decode rest = .error e := by
  cases hr : read op t with
  | error e' => simp [decode_cons_of_error hr]
  | ok p =>
    obtain ⟨c, rest⟩ := p
    rw [decode_cons_of_ok hr]
    cases hd : decode rest <;> simp [hd, bind, Except.bind, pure, Except.pure]

theorem decode_append_eq_error (ha : decode a = .ok cs) (ht : decode t = .error e) :
    decode (a ++ t) = .error e := by
  induction cs generalizing a with
  | nil =>
    cases a with
    | nil => exact ht
    | cons op r =>
      obtain ⟨_, _, _, -, -, h⟩ := decode_cons_eq_ok.1 ha
      cases h
  | cons c cs ih =>
    cases a with
    | nil => simp at ha
    | cons op r =>
      obtain ⟨_, r', _, hr, hrest, h⟩ := decode_cons_eq_ok.1 ha
      cases h
      exact decode_cons_eq_error.2 (.inr ⟨c, r' ++ t, read_append hr t, ih hrest⟩)

/-- What cannot be decoded is some chunks and then a push that runs past the end. -/
theorem decode_eq_error_iff :
    decode b = .error e ↔ e = .dataTooSmall ∧ ∃ cs front rest,
      (∀ c ∈ cs, WellFormed c) ∧ encodeAll cs = .ok front ∧ b = front ++ rest ∧ Overruns rest := by
  constructor
  · intro h
    induction hn : b.length using Nat.strong_induction_on generalizing b with
    | h n ih =>
      cases b with
      | nil => simp at h
      | cons op t =>
        rcases decode_cons_eq_error.1 h with hread | ⟨c, rest, hread, hrest⟩
        · obtain ⟨he, hover⟩ := read_eq_error.1 hread
          exact ⟨he, [], [], op :: t, by simp, rfl, rfl, hover⟩
        · have hlt : rest.length < n := by
            have hle := length_le_of_read hread
            rw [List.length_cons] at hn
            omega
          obtain ⟨he, cs, front, last, hcs, hfront, rfl, hover⟩ := ih _ hlt hrest rfl
          obtain ⟨x, hx, hbytes⟩ := encode_of_read hread
          refine ⟨he, c :: cs, x ++ front, last, ?_, ?_, ?_, hover⟩
          · intro d hd
            rcases List.mem_cons.1 hd with rfl | hd
            · exact wellFormed_of_read hread
            · exact hcs d hd
          · rw [encodeAll, hx, hfront]
            rfl
          · rw [hbytes, List.append_assoc]
  · intro h
    obtain ⟨he, cs, front, rest, hcs, hfront, hb, hover⟩ := h
    obtain ⟨b', hb', hdecode⟩ := exists_encodeAll hcs
    obtain rfl : front = b' := Except.ok.inj (hfront.symm.trans hb')
    rw [hb]
    apply decode_append_eq_error hdecode
    cases rest with
    | nil => cases hover
    | cons op t => exact decode_cons_eq_error.2 (.inl (read_eq_error.2 ⟨he, hover⟩))

end Chunk

theorem Script.ofChunks_eq_ok {s : Script} {cs : List Chunk} :
    ofChunks cs = .ok s ↔ Chunk.encodeAll cs = .ok s.bytes := by
  constructor
  · intro h
    obtain ⟨b, hb, hs⟩ := bind_eq_ok.1 h
    rw [hb, ← pure_eq_ok.1 hs]
  · intro h
    exact bind_eq_ok.2 ⟨s.bytes, h, rfl⟩

end BitcoinCash

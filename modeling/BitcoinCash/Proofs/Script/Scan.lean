import BitcoinCash.Proofs.Script.WellFormed
import BitcoinCash.Script.Scan

namespace BitcoinCash.Chunk

variable {a b rest : Bytes} {op : Opcode} {i n w : ℕ} {ca : List Chunk}

theorem dataAt_eq : dataAt b i n =
    if b.length < i + n then .error (.script .dataTooSmall) else .ok ((b.drop i).take n) := by
  unfold dataAt
  split
  · rfl
  · next h =>
    rw [Cursor.slice, if_pos ⟨Nat.le_add_right i n, Nat.le_of_not_lt h⟩, Nat.add_sub_cancel_left]
    rfl

theorem announcedAt_eq (h : i < b.length) : announcedAt b i op w =
    if b.length < i + 1 + w then .error (.script .dataTooSmall)
    else .ok (announced op w ((b.drop (i + 1)).take w)) := by
  unfold announcedAt announced
  by_cases hw : w = 0
  · rw [if_pos hw, if_pos hw, if_neg (by omega)]
  · rw [if_neg hw, if_neg hw, ← ite_not]
    exact if_congr Nat.not_le rfl rfl

/-- What is found at place `i` of `b`, by place and off the front of the rest. -/
inductive Agrees (b : Bytes) (i : ℕ) :
    Except ScanError (Chunk × ℕ) → Except ScriptError (Chunk × Bytes) → Prop
  | ok (c : Chunk) (k : ℕ) : Agrees b i (.ok (c, k)) (.ok (c, b.drop (i + 1 + k)))
  | error (e : ScriptError) : Agrees b i (.error (.script e)) (.error e)

theorem agrees_readAt (h : b.drop i = op :: rest) : Agrees b i (readAt b i) (read op rest) := by
  have hi : i < b.length := by
    have hlen := congrArg List.length h
    rw [List.length_drop, List.length_cons] at hlen
    omega
  rw [List.drop_eq_getElem_cons hi] at h
  obtain ⟨rfl, rfl⟩ := List.cons.inj h
  rw [readAt, List.getElem?_eq_getElem hi]
  cases hw : lengthWidth? b[i] with
  | none =>
    rw [read_of_bare hw]
    simp only [hw]
    exact .ok ⟨b[i], none⟩ 0
  | some w =>
    simp only [hw]
    rw [read_of_push hw, announcedAt_eq hi, List.length_drop]
    generalize announced b[i] w ((b.drop (i + 1)).take w) = n
    -- the length field may run past the end, and if it does not, the data may
    by_cases hfield : b.length < i + 1 + w
    · rw [if_pos hfield, if_pos (by omega)]
      exact .error _
    · rw [if_neg hfield, Fallible.ok_bind, dataAt_eq, List.drop_drop, List.drop_drop]
      by_cases hdata : b.length < i + 1 + w + n
      · rw [if_pos hdata, if_pos (by omega)]
        exact .error _
      · rw [if_neg hdata, if_neg (by omega), Nat.add_assoc (i + 1)]
        exact .ok _ (w + n)

/-- From every place on the chunks are those of the rest, and no place outside of the string is
asked for. -/
theorem scanFrom_eq (b : Bytes) (i : ℕ) :
    scanFrom b i = (decode (b.drop i)).mapError .script := by
  fun_induction scanFrom b i with
  | case1 i hi e he =>
    have hread := agrees_readAt (List.drop_eq_getElem_cons hi)
    rw [he] at hread
    generalize hz : read b[i] (b.drop (i + 1)) = z at hread
    cases hread with
    | error e => rw [List.drop_eq_getElem_cons hi, decode_cons_of_error hz]; rfl
  | case2 i hi c k hr ih =>
    have hread := agrees_readAt (List.drop_eq_getElem_cons hi)
    rw [hr] at hread
    generalize hz : read b[i] (b.drop (i + 1)) = z at hread
    cases hread with
    | ok =>
      rw [List.drop_eq_getElem_cons hi, decode_cons_of_ok hz, ih]
      cases decode (b.drop (i + 1 + k)) <;> rfl
  | case3 i hi =>
    rw [List.drop_of_length_le (Nat.le_of_not_lt hi), decode_nil]
    rfl

theorem scan_eq (b : Bytes) : scan b = (decode b).mapError .script := scanFrom_eq b 0

/-- The chunks of two scripts in a row are those of the first and then those of the second; a push
that runs past the end of the second runs past the end of both. By place the second is taken apart
as if it stood alone. -/
theorem decode_homomorphic (h : decode a = .ok ca) (b : Bytes) :
    decode (a ++ b) = (match decode b with
      | .ok cb => .ok (ca ++ cb)
      | .error _ => .error .dataTooSmall) ∧
      scan (a ++ b) = (decode (a ++ b)).mapError .script ∧
      scanFrom (a ++ b) a.length = scan b := by
  refine ⟨?_, scan_eq _, ?_⟩
  · cases hb : decode b with
    | ok cb => exact decode_append h hb
    | error e =>
      obtain ⟨rfl, -⟩ := decode_eq_error_iff.1 hb
      exact decode_append_eq_error h hb
  · rw [scanFrom_eq, List.drop_left, scan_eq]

theorem decode_homomorphic_push :
    decode [1, 0x4c] = .ok [⟨1, some [0x4c]⟩] ∧
      decode [1, 0x4c, 1, 7] = .ok [⟨1, some [0x4c]⟩, ⟨1, some [7]⟩] ∧
      decode [1, 0x4c, 0x4d, 2] = .error .dataTooSmall := by
  have hone (x : UInt8) : decode [1, x] = .ok [⟨1, some [x]⟩] :=
    decode_cons_eq_ok.2 ⟨_, [], [], rfl, decode_nil, rfl⟩
  have hcut : decode [0x4d, 2] = .error .dataTooSmall := decode_cons_of_error rfl
  have hpush := (decode_homomorphic (hone 0x4c) [1, 7]).1
  have herror := (decode_homomorphic (hone 0x4c) [0x4d, 2]).1
  rw [hone 7] at hpush
  rw [hcut] at herror
  exact ⟨hone 0x4c, hpush, herror⟩

end BitcoinCash.Chunk

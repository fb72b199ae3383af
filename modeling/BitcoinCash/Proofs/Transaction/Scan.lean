import BitcoinCash.Proofs.Wire.Cursor
import BitcoinCash.Transaction.Cursor

namespace BitcoinCash

theorem TxId.reader_eq : TxId.reader =
    (Reader.bytes 32 >>= fun b ↦ if h : b.length = 32 then pure ⟨b, h⟩ else throw .endOfData) := by
  funext s
  rw [reader]
  rcases Nat.lt_or_ge s.length 32 with hlt | hle
  · have hlen : (s.take 32).length ≠ 32 := by
      rw [List.length_take]
      omega
    rw [Reader.bind_of_error (Reader.bytes_of_lt hlt), dif_neg hlen]
  · have hlen : (s.take 32).length = 32 := List.length_take_of_le hle
    rw [Reader.bind_of_ok (Reader.bytes_of_le hle), dif_pos hlen, dif_pos hlen]
    rfl

namespace TxCursor

open CursorReader

variable {α : Type}

theorem follows_field (name : TxField) {x : CursorReader α} {y : Reader α}
    (h : Follows .wire x y) : Follows id (field name x) (TxReader.field name y) := by
  intro b k hk
  have hread := h b k hk
  unfold field TxReader.field
  generalize x ⟨b, k⟩ = r at hread ⊢
  generalize y (b.drop k) = s at hread ⊢
  cases hread with
  | ok hm hlen => exact .ok hm hlen
  | error hm hlen => exact .error hm hlen

theorem follows_room_bind (n : ℕ) {x : TxCursor α} {y : TxReader α} (h : Follows id x y) :
    Follows id (room n >>= fun _ ↦ x) y := by
  intro b k hk
  have hroom : room n ⟨b, k⟩ = .ok (min n (b.length - k)) ⟨b, k⟩ := by
    simp [room, Cursor.remaining, hk]
  rw [Reader.bind_of_ok hroom]
  exact h b k hk

theorem follows_count {item : TxCursor α} {item' : TxReader α} (h : Follows id item item') (n : ℕ) :
    Follows id (count item n) (TxReader.count item' n) := by
  induction n with
  | zero => exact .pure id []
  | succ n ih => exact h.bind fun a ↦ ih.bind_pure (a :: ·)

theorem follows_sourceId : Follows .wire sourceId TxId.reader := by
  rw [TxId.reader_eq]
  refine (follows_bytes 32).bind_of fun {a _ _} h ↦ ?_
  have hlen : a.length = 32 := (Reader.bytes_eq_ok.1 h).1
  rw [dif_pos hlen, dif_pos hlen]
  exact .pure CursorError.wire (⟨a, hlen⟩ : TxId)

theorem follows_output : Follows id output TxOutput.reader := by
  refine (follows_field .satoshis follows_u64).bind fun satoshis ↦ ?_
  exact (follows_field .lockingScript follows_varBytes).bind_pure _

theorem follows_input : Follows id input TxInput.reader := by
  refine (follows_field .sourceId follows_sourceId).bind fun sourceId ↦ ?_
  refine (follows_field .sourceIndex follows_u32).bind fun sourceIndex ↦ ?_
  refine (follows_field .unlockingScript follows_varBytes).bind fun script ↦ ?_
  exact (follows_field .sequence follows_u32).bind_pure _

theorem follows_transaction : Follows id transaction Transaction.reader := by
  refine (follows_field .version follows_u32).bind fun version ↦ ?_
  refine (follows_field .inputCount follows_compactSize).bind fun n ↦ ?_
  refine follows_room_bind _ ((follows_count follows_input _).bind fun inputs ↦ ?_)
  refine (follows_field .outputCount follows_compactSize).bind fun m ↦ ?_
  refine follows_room_bind _ ((follows_count follows_output _).bind fun outputs ↦ ?_)
  exact (follows_field .lockTime follows_u32).bind_pure _

end TxCursor

theorem Transaction.scan_eq_ofBytes (b : Bytes) : scan b = ofBytes b := by
  have hread := TxCursor.follows_transaction b 0 (Nat.zero_le _)
  rw [List.drop_zero] at hread
  unfold scan ofBytes
  generalize TxCursor.transaction { data := b } = r at hread ⊢
  generalize reader b = s at hread ⊢
  cases hread with
  | @ok tx m _ hm =>
    have hleft : Cursor.remaining ⟨b, m⟩ = .ok (b.drop m).length := by
      rw [Cursor.remaining, if_pos hm, List.length_drop]
    simp only [hleft]
    cases b.drop m <;> rfl
  | error => rfl

end BitcoinCash

import BitcoinCash.Proofs.Signature.Der
import BitcoinCash.Signature.Compact

namespace BitcoinCash.Signature

open Ecdsa (InRange)
open Fallible (bind_eq_ok pure_eq_ok)

variable {sig : Signature} {v : ℤ} {b : Bytes} {id tag : UInt8} {compressed : Bool}

def compactTag (id : UInt8) (compressed : Bool) : UInt8 := 27 + id + if compressed then 4 else 0

theorem compactTag_spec (hid : id ≤ 3) : ∀ compressed,
    ¬ (compactTag id compressed < 27 ∨ 34 < compactTag id compressed) ∧
      (compactTag id compressed - 27) &&& 3 = id ∧
      decide ((compactTag id compressed - 27) &&& 4 ≠ 0) = compressed := by
  revert hid
  refine Bytes.of_toNat_lt id.toNat_lt ?_
  decide +kernel

theorem compactTag_eq (h : ¬ (tag < 27 ∨ 34 < tag)) :
    ¬ 3 < (tag - 27) &&& 3 ∧
      compactTag ((tag - 27) &&& 3) (decide ((tag - 27) &&& 4 ≠ 0)) = tag := by
  revert h
  refine Bytes.of_toNat_lt tag.toNat_lt ?_
  decide +kernel

theorem toBytes_of_inRange (h : InRange v) :
    Integer.toBytes v 32 .big = .ok (Bytes.ofNatBE 32 v.toNat) :=
  Integer.toBytes_eq_ofNatBE h.1.le (h.2.trans (by decide))

theorem ofBytes_of_inRange (h : InRange v) :
    Integer.ofBytes (Bytes.ofNatBE 32 v.toNat) .big = v :=
  Integer.ofBytes_ofNatBE h.1.le (h.2.trans (by decide))

theorem toCompact_of_inRange (sig : Signature) (hid : ¬ 3 < id) (hr : InRange sig.r)
    (hs : InRange sig.s) (compressed : Bool) :
    { sig with recoveryId := some id }.toCompact compressed =
      .ok (compactTag id compressed ::
        (Bytes.ofNatBE 32 sig.r.toNat ++ Bytes.ofNatBE 32 sig.s.toNat)) := by
  rw [toCompact]
  dsimp only
  rw [if_neg hid, toBytes_of_inRange hr, toBytes_of_inRange hs]
  rfl

theorem ofCompact_cons_eq_ok {t : Bytes} {read : Signature × Bool} (hlen : t.length = 64) :
    ofCompact (tag :: t) = .ok read ↔ ¬ (tag < 27 ∨ 34 < tag) ∧
      ∃ sig, ofComponents (t.take 32) (t.drop 32) = .ok sig ∧
        read = ({ sig with recoveryId := some ((tag - 27) &&& 3) },
          decide ((tag - 27) &&& 4 ≠ 0)) := by
  have hlength : ¬ (tag :: t).length ≠ 65 := by simp [hlen]
  rw [ofCompact, if_neg hlength]
  change (if tag < 27 ∨ 34 < tag then _ else _) = _ ↔ _
  split
  next h => exact iff_of_false nofun fun hread ↦ hread.1 h
  next h =>
    simp only [bind_eq_ok, pure_eq_ok, h, not_false_iff, true_and, eq_comm (a := read)]
    rfl

theorem ofCompact_of_inRange (hid : id ≤ 3) (hr : InRange sig.r) (hs : InRange sig.s)
    (compressed : Bool) :
    ofCompact (compactTag id compressed ::
        (Bytes.ofNatBE 32 sig.r.toNat ++ Bytes.ofNatBE 32 sig.s.toNat)) =
      .ok ({ r := sig.r, s := sig.s, recoveryId := some id }, compressed) := by
  have hrlen : (Bytes.ofNatBE 32 sig.r.toNat).length = 32 := Bytes.length_ofNatBE 32 _
  have hslen : (Bytes.ofNatBE 32 sig.s.toNat).length = 32 := Bytes.length_ofNatBE 32 _
  have hread : ofComponents (Bytes.ofNatBE 32 sig.r.toNat) (Bytes.ofNatBE 32 sig.s.toNat) =
      .ok { r := sig.r, s := sig.s } := by
    rw [ofComponents_eq_ok, ofBytes_of_inRange hr, ofBytes_of_inRange hs]
    exact ⟨⟨hr, hs⟩, rfl⟩
  obtain ⟨htag, hrecovery, hcompressed⟩ := compactTag_spec hid compressed
  rw [ofCompact_cons_eq_ok (by rw [List.length_append, hrlen, hslen]), List.take_left' hrlen,
    List.drop_left' hrlen, hrecovery, hcompressed]
  exact ⟨htag, _, hread, rfl⟩

theorem toCompact_of_ofCompact (h : ofCompact b = .ok (sig, compressed)) :
    sig.toCompact compressed = .ok b := by
  have hlen : b.length = 65 := by
    by_contra hne
    rw [ofCompact, if_pos hne] at h
    cases h
  obtain ⟨tag, t, rfl⟩ := List.exists_cons_of_length_eq_add_one hlen
  have hlen : t.length = 64 := Nat.succ.inj hlen
  obtain ⟨htag, read, hread, heq⟩ := (ofCompact_cons_eq_ok hlen).1 h
  obtain ⟨⟨hr, hs⟩, rfl⟩ := ofComponents_eq_ok.1 hread
  obtain ⟨rfl, rfl⟩ := Prod.mk.inj heq
  obtain ⟨hid, htag⟩ := compactTag_eq htag
  have hfirst : (t.take 32).length = 32 := by
    rw [List.length_take, hlen]
    rfl
  have hsecond : (t.drop 32).length = 32 := by rw [List.length_drop, hlen]
  rw [toCompact_of_inRange _ hid hr hs, htag, Integer.ofNatBE_ofBytes hfirst,
    Integer.ofNatBE_ofBytes hsecond, List.take_append_drop]

/-- Components in range are read back from DER, whatever follows it, from DER with a type, and from
the compact form with the recovery id and the encoding of the key; and a string that is read as the
compact form is the one that is written for what is read. -/
theorem wireForms_roundTrip :
    (∀ (sig : Signature) (tail : Bytes), InRange sig.r → InRange sig.s →
      ofDer (sig.toDer ++ tail) = .ok { r := sig.r, s := sig.s }) ∧
    (∀ (sig : Signature) (t : UInt8), InRange sig.r → InRange sig.s →
      ∃ b, { sig with sighashType := some t }.toTransaction = .ok b ∧
        ofTransaction b = .ok { r := sig.r, s := sig.s, sighashType := some t }) ∧
    (∀ (sig : Signature) (id : UInt8) (compressed : Bool), InRange sig.r → InRange sig.s → id ≤ 3 →
      ∃ b, { sig with recoveryId := some id }.toCompact compressed = .ok b ∧
        ofCompact b = .ok ({ r := sig.r, s := sig.s, recoveryId := some id }, compressed)) ∧
    ∀ (b : Bytes) (sig : Signature) (compressed : Bool), ofCompact b = .ok (sig, compressed) →
      sig.toCompact compressed = .ok b := by
  refine ⟨fun sig tail hr hs ↦ ofDer_toDer_append hr hs tail, fun sig t hr hs ↦ ?_,
    fun sig id compressed hr hs hid ↦ ?_, fun b sig compressed ↦ toCompact_of_ofCompact⟩
  · refine ⟨sig.toDer ++ [t], rfl, ?_⟩
    have hlast : (sig.toDer ++ [t]).getLast? = some t := List.getLast?_concat
    rw [ofTransaction, hlast]
    dsimp only
    rw [List.dropLast_concat, ofDer_toDer hr hs]
    rfl
  · have hnot : ¬ 3 < id := UInt8.not_lt.2 hid
    exact ⟨_, toCompact_of_inRange sig hnot hr hs compressed,
      ofCompact_of_inRange hid hr hs compressed⟩

theorem wireForms_roundTrip_short :
    let sig : Signature := { r := 1, s := 2 ^ 247 }
    InRange sig.r ∧ InRange sig.s ∧
      ofDer (sig.toDer ++ [0x30, 0, 0xff]) = .ok sig ∧
      (∃ b, { sig with sighashType := some 0xc3 }.toTransaction = .ok b ∧
        ofTransaction b = .ok { sig with sighashType := some 0xc3 }) ∧
      ∃ b, { sig with recoveryId := some 3 }.toCompact true = .ok b ∧
        ofCompact b = .ok ({ sig with recoveryId := some 3 }, true) ∧
        ∃ read, ofCompact b = .ok (read, true) ∧ read.toCompact true = .ok b := by
  intro sig
  have hr : InRange sig.r := by decide
  have hs : InRange sig.s := by decide
  obtain ⟨der, transaction, compact, canonical⟩ := wireForms_roundTrip
  obtain ⟨b, hwritten, hread⟩ := compact sig 3 true hr hs (by decide)
  exact ⟨hr, hs, der sig _ hr hs, transaction sig 0xc3 hr hs,
    b, hwritten, hread, _, hread, canonical b _ true hread⟩

end BitcoinCash.Signature

import Mathlib.Data.Int.Notation
import Mathlib.Data.List.Basic
import Mathlib.Data.Nat.Notation
import BitcoinCash.Machine.SignatureCheck
import BitcoinCash.Proofs.Key.Encoding
import BitcoinCash.Proofs.Machine.Checked
import BitcoinCash.Proofs.Machine.Run
import BitcoinCash.Proofs.Signature.Der

namespace BitcoinCash

open Fallible (bind_eq_ok ok_bind)
open Run (checkIf_eq_ok onlyIf_eq_ok)

variable {flags : Flags} {b sig key : Bytes} {t : UInt8} {u : Unit}

namespace Encoding

theorem length_le_of_checkDer (h : checkDer b = .ok u) : b.length ≤ 72 := by
  obtain ⟨_, -, h⟩ := bind_eq_ok.1 h
  obtain ⟨_, hle, -⟩ := bind_eq_ok.1 h
  exact require_eq_ok.1 hle

theorem checkBareSignature_eq_ok :
    checkBareSignature flags b = .ok u ↔
      (b ≠ [] → (flags.hasAny [.derSignatures, .lowS, .strictEncoding] → checkDer b = .ok ()) ∧
        (flags.has .lowS → hasLowS b = .ok true)) := by
  refine onlyIf_eq_ok.trans (imp_congr (by simp) ?_)
  have hlow : (∃ low, hasLowS b = .ok low ∧ low = true) ↔ hasLowS b = .ok true :=
    ⟨fun ⟨_, h, hlow⟩ ↦ hlow ▸ h, fun h ↦ ⟨true, h, rfl⟩⟩
  simp only [checkIf_eq_ok, onlyIf_eq_ok, bind_eq_ok, require_eq_ok, hlow]

theorem checkSignature_concat :
    checkSignature flags (b ++ [t]) = .ok u ↔ checkBareSignature flags b = .ok () ∧
      (flags.has .strictEncoding → checkHashType flags t = .ok ()) := by
  have hlast : (b ++ [t]).getLast? = some t := List.getLast?_concat
  rw [checkSignature, hlast]
  dsimp only
  rw [List.dropLast_concat, bind_eq_ok]
  simp only [onlyIf_eq_ok]
  exact ⟨fun ⟨_, h⟩ ↦ h, fun h ↦ ⟨(), h⟩⟩

theorem length_le_of_checkSignature (hstrict : flags.has .strictEncoding)
    (h : checkSignature flags sig = .ok u) : sig.length ≤ 73 := by
  rcases List.eq_nil_or_concat' sig with rfl | ⟨b, t, rfl⟩
  · exact Nat.zero_le _
  · obtain ⟨hbare, -⟩ := checkSignature_concat.1 h
    have hany : flags.hasAny [.derSignatures, .lowS, .strictEncoding] := by
      simp [Flags.hasAny, hstrict]
    by_cases hb : b = []
    · rw [hb]
      exact Nat.succ_le_succ (Nat.zero_le 72)
    · have hder := (checkBareSignature_eq_ok.1 hbare hb).1 hany
      rw [List.length_append]
      exact Nat.succ_le_succ (length_le_of_checkDer hder)

theorem length_le_of_checkKey (hstrict : flags.has .strictEncoding)
    (h : checkKey flags key = .ok u) : key.length ≤ 65 := by
  rw [checkKey, if_pos hstrict, require_eq_ok] at h
  rcases h with ⟨-, h⟩ | ⟨-, h⟩
  · rw [h]
    decide
  · exact Nat.le_of_eq h

theorem checkKey_toBytes (pub : PublicKey) : checkKey flags pub.toBytes = .ok () := by
  unfold checkKey
  split
  next =>
    refine require_eq_ok.2 ?_
    rw [PublicKey.toBytes]
    split
    next =>
      refine .inl ⟨?_, pub.length_toCompressed⟩
      rw [PublicKey.toCompressed]
      split
      next => exact .inr rfl
      next => exact .inl rfl
    next => exact .inr ⟨rfl, pub.length_toUncompressed⟩
  next => rfl

theorem checkHashType_eq_ok (hforkId : flags.has .forkId) :
    checkHashType flags t = .ok u ↔
      (1 ≤ t &&& ~~~(forkIdBit ||| 0x80) ∧ t &&& ~~~(forkIdBit ||| 0x80) ≤ 3) ∧
        t &&& forkIdBit ≠ 0 := by
  simp only [checkHashType, bind_eq_ok, require_eq_ok]
  by_cases hbit : t &&& forkIdBit ≠ 0
  · rw [if_pos hbit, require_eq_ok]
    exact ⟨fun ⟨_, hbase, _⟩ ↦ ⟨hbase, hbit⟩, fun ⟨hbase, _⟩ ↦ ⟨(), hbase, hforkId⟩⟩
  · rw [if_neg hbit, require_eq_ok, hforkId]
    exact ⟨fun ⟨_, _, h⟩ ↦ absurd h Bool.false_ne_true, fun ⟨_, h⟩ ↦ absurd h hbit⟩

section Written

variable {r s : Bytes}

theorem byteAt_of_getElem? {i : ℕ} {x : UInt8} (h : b[i]? = some x) : byteAt b i = .ok x := by
  exact Checked.item_eq_ok.2 h

theorem getElem?_sequence_left (k : ℕ) :
    (Der.sequence r s)[4 + k]? = (r ++ Der.element s)[k]? := by
  rw [Nat.add_comm]
  rfl

theorem getElem?_sequence_right (k : ℕ) :
    (Der.sequence r s)[4 + (r.length + k)]? = (Der.element s)[k]? := by
  rw [getElem?_sequence_left, List.getElem?_append_right (Nat.le_add_right _ _),
    Nat.add_sub_cancel_left]

theorem checkInteger_eq_ok {x : UInt8} {second : Run UInt8} {negative padded : DerRule}
    (hb : Der.IsInteger b) (hx : b[0]? = some x)
    (hsecond : ∀ y, b[1]? = some y → second = .ok y) :
    checkDer.checkInteger b.length x second negative padded = .ok () := by
  refine bind_eq_ok.2 ⟨(), require_eq_ok.2 ?_, onlyIf_eq_ok.2 fun hlen ↦ ?_⟩
  · obtain ⟨y, t, rfl, hy⟩ := hb.exists_cons
    cases hx
    exact hy
  · match b, hb with
    | [_], _ => exact absurd hlen.1 (Nat.lt_irrefl 1)
    | _ :: y :: _, hb =>
      cases hx
      exact bind_eq_ok.2 ⟨y, hsecond y rfl, require_eq_ok.2 (hb.2 hlen.2)⟩

theorem checkDer_sequence (hr : Der.IsInteger r) (hs : Der.IsInteger s)
    (hlen : r.length + s.length ≤ 66) : checkDer (Der.sequence r s) = .ok () := by
  have hr0 := hr.length_pos
  have hs0 := hs.length_pos
  have hlength := Der.length_sequence r s
  have htoNat {k : ℕ} (hk : k < 256) : (UInt8.ofNat k).toNat = k := UInt8.toNat_ofNat_of_lt' hk
  have h0 : byteAt (Der.sequence r s) 0 = .ok 0x30 := rfl
  have h1 : byteAt (Der.sequence r s) 1 = .ok (UInt8.ofNat (4 + r.length + s.length)) := rfl
  have h2 : byteAt (Der.sequence r s) 2 = .ok 0x02 := rfl
  have h3 : byteAt (Der.sequence r s) 3 = .ok (UInt8.ofNat r.length) := rfl
  have hmarker : byteAt (Der.sequence r s) (4 + r.length) = .ok 0x02 :=
    byteAt_of_getElem? (getElem?_sequence_right 0)
  have hlast : byteAt (Der.sequence r s) (5 + r.length) = .ok (UInt8.ofNat s.length) := by
    rw [Nat.add_right_comm 4 1, Nat.add_assoc]
    exact byteAt_of_getElem? (getElem?_sequence_right 1)
  obtain ⟨x, t, hx, hxbit⟩ := hr.exists_cons
  obtain ⟨y, u, hy, hybit⟩ := hs.exists_cons
  have h4 : byteAt (Der.sequence r s) 4 = .ok x := by
    refine byteAt_of_getElem? ((getElem?_sequence_left 0).trans ?_)
    rw [hx]
    rfl
  have h6 : byteAt (Der.sequence r s) (6 + r.length) = .ok y := by
    rw [Nat.add_right_comm 4 2, Nat.add_assoc]
    refine byteAt_of_getElem? ((getElem?_sequence_right 2).trans ?_)
    rw [hy]
    rfl
  have hrInteger : checkDer.checkInteger r.length x (byteAt (Der.sequence r s) 5) .rNegative
      .rPadded = .ok () := by
    refine checkInteger_eq_ok hr (by rw [hx]; rfl) fun z hz ↦ byteAt_of_getElem? ?_
    rw [getElem?_sequence_left 1, List.getElem?_append_left (List.getElem?_eq_some_iff.1 hz).1, hz]
  have hsInteger : checkDer.checkInteger s.length y (byteAt (Der.sequence r s) (7 + r.length))
      .sNegative .sPadded = .ok () := by
    refine checkInteger_eq_ok hs (by rw [hy]; rfl) fun z hz ↦ byteAt_of_getElem? ?_
    rw [Nat.add_right_comm 4 3, Nat.add_assoc, getElem?_sequence_right 3]
    exact hz
  have hrest : Checked.minus (6 + r.length + s.length) 2 = .ok (6 + r.length + s.length - 2) :=
    Checked.minus_of_le (by omega)
  simp only [checkDer, h0, h1, h2, h3, ok_bind, htoNat (k := r.length) (by omega), hlast, hrest,
    htoNat (k := s.length) (by omega), htoNat (k := 4 + r.length + s.length) (by omega), hlength,
    h4, h6, hmarker, hrInteger, hsInteger, bind_eq_ok, require_eq_ok, exists_const, true_and,
    and_true]
  omega

theorem sBody?_sequence (hr : r.length < 256) (hs : s.length < 256) :
    sBody? (Der.sequence r s) = .ok (some s) := by
  have hrlen : (UInt8.ofNat r.length).toNat = r.length := UInt8.toNat_ofNat_of_lt' hr
  have hslen : (UInt8.ofNat s.length).toNat = s.length := UInt8.toNat_ofNat_of_lt' hs
  have h3 : (Der.sequence r s)[3]? = some (UInt8.ofNat r.length) := rfl
  have hindex : Checked.minus (6 + r.length) 1 = .ok (4 + (r.length + 1)) := by
    rw [Checked.minus_of_le (by omega)]
    congr 1
    omega
  have hlast : (Der.sequence r s)[4 + (r.length + 1)]? = some (UInt8.ofNat s.length) :=
    getElem?_sequence_right 1
  have hle : 6 + r.length + s.length ≤ (Der.sequence r s).length :=
    Nat.le_of_eq (Der.length_sequence r s).symm
  have hdrop : (Der.sequence r s).drop (6 + r.length) = s := by
    rw [Nat.add_comm 6]
    change (r ++ Der.element s).drop (r.length + 2) = s
    exact List.drop_length_add_append 2
  simp only [sBody?, h3, hrlen, hindex, ok_bind, hlast, hslen, if_pos hle, hdrop, List.take_length]
  rfl

/-- The bytes of the second integer tell whether it is at most half the order, however many they
are. -/
theorem hasLowS_sequence (hr : r.length < 256) (hs : s.length < 256) :
    hasLowS (Der.sequence r s) = .ok (decide ((Bytes.toNatBE s : ℤ) ≤ Secp256k1.halfN)) := by
  have hhalf : (Bytes.toNatBE halfOrder : ℤ) = Secp256k1.halfN := by decide
  have hhead : (s.dropWhile (· = 0)).head? ≠ some 0 := by
    intro h
    have hnot := List.head?_dropWhile_not (· = (0 : UInt8)) s
    simp [h] at hnot
  have hiff := Bytes.toNatBE_le_iff hhead (b := halfOrder) (by decide)
  rw [Bytes.toNatBE_dropWhile] at hiff
  rw [hasLowS, sBody?_sequence hr hs, ok_bind]
  dsimp only
  rw [Checked.splitAt_takeWhile, ok_bind, ← hhalf]
  refine congrArg Except.ok (Bool.eq_iff_iff.2 ?_)
  simp only [Bool.or_eq_true, Bool.and_eq_true, decide_eq_true_eq, Nat.cast_le, hiff]

end Written

end Encoding

theorem Environment.usesForkId_of_checkSignature {env : Environment} (hforkId : env.has .forkId)
    (hstrict : env.has .strictEncoding) (h : Encoding.checkSignature env.flags sig = .ok u)
    (hne : sig ≠ []) : env.usesForkId sig := by
  obtain ⟨b, t, rfl⟩ := (List.eq_nil_or_concat' sig).resolve_left hne
  have htype := (Encoding.checkSignature_concat.1 h).2 hstrict
  have hbit := ((Encoding.checkHashType_eq_ok hforkId).1 htype).2
  simp [usesForkId, hforkId, hbit]

end BitcoinCash

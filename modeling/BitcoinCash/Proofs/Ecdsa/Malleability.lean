import BitcoinCash.Proofs.Ecdsa.Sign

namespace BitcoinCash.Ecdsa

open Secp256k1
open Fallible (ok_bind error_bind)

variable {digest h : Bytes} {o : ByteOrder} {sig : Signature} {id : UInt8} {r : ℤ}

theorem inRange_n_sub_iff {a : ℤ} : InRange (n - a) ↔ InRange a := by
  unfold InRange
  omega

theorem verdict_neg (r : ℤ) (P : curve.Point) :
    verdict r (Point.ofGroup (-P)) = verdict r (Point.ofGroup P) := by
  rcases P with _ | ⟨x, y, hP⟩
  · rfl
  · rfl

theorem verify_sub_s (digest : Bytes) (o : ByteOrder) (sig : Signature) (key : PublicKey)
    (id : Option UInt8) :
    verify digest { sig with s := n - sig.s, recoveryId := id } key o =
      verify digest sig key o := by
  cases hd : digest? digest o with
  | none => rw [verify, verify, hd]
  | some h =>
    by_cases hr : InRange sig.r
    · by_cases hs : InRange sig.s
      · have hs' : InRange (n - sig.s) := inRange_n_sub_iff.2 hs
        rw [verify_of_inRange hd { sig with s := n - sig.s, recoveryId := id } key hr hs',
          verify_of_inRange hd sig key hr hs, Signature.noncePoint_sub_s, verdict_neg]
      · simp [verify, hd, hr, hs, inRange_n_sub_iff]
    · simp [verify, hd, hr]

theorem xor_one_and_two (hid : id ≤ 3) : (id ^^^ 1) &&& 2 = id &&& 2 :=
  of_le_three hid (by decide)

theorem candidate_xor_one_eq_error {e : CryptoError} (hid : id ≤ 3)
    (h : candidate r id = .error e) : candidate r (id ^^^ 1) = .error e := by
  rw [candidate, xor_one_and_two hid, Point.ofX_eq_error_iff]
  exact Point.ofX_eq_error_iff.1 h

theorem candidate_xor_one_eq_ok {P : curve.Point} (hr : InRange r) (hid : id ≤ 3)
    (h : candidate r id = .ok (Point.ofGroup P)) :
    candidate r (id ^^^ 1) = .ok (Point.ofGroup (-P)) := by
  obtain ⟨Q, hQ, hselects⟩ := (candidate_eq_ok_iff hr hid).1 h
  obtain rfl := Point.ofGroup_injective hQ
  exact (candidate_eq_ok_iff hr (Signature.xor_one_le_three hid)).2 ⟨-P, rfl, hselects.neg⟩

/-- From the opposite point the other `s` leads to the same one. -/
theorem solve_sub_s (e : ℤ) (hr : InRange sig.r) (P : curve.Point) (id : Option UInt8) :
    solve e { sig with s := n - sig.s, recoveryId := id } (Point.ofGroup (-P)) =
      solve e sig (Point.ofGroup P) := by
  rw [solve_ofGroup { sig with s := n - sig.s, recoveryId := id } hr, solve_ofGroup sig hr]
  simp only [keyPoint, Scalar.cast_n_sub, neg_div, neg_smul_neg]

theorem recover_sub_s (digest : Bytes) (o : ByteOrder) (sig : Signature) (hid : id ≤ 3)
    (j : Option UInt8) :
    recover digest { sig with s := n - sig.s, recoveryId := j } (id ^^^ 1) o =
      recover digest sig id o := by
  have hflip := Signature.xor_one_le_three hid
  cases hd : digest? digest o with
  | none => rw [recover_of_digest_eq_none hflip hd, recover_of_digest_eq_none hid hd]
  | some h =>
    by_cases hin : InRange sig.r ∧ InRange sig.s
    · obtain ⟨hr, hs⟩ := hin
      have hs' : InRange (n - sig.s) := inRange_n_sub_iff.2 hs
      rw [recover_of_inRange hd { sig with s := n - sig.s, recoveryId := j } hflip hr hs',
        recover_of_inRange hd sig hid hr hs]
      cases hstart : candidate sig.r id with
      | error e => rw [candidate_xor_one_eq_error hid hstart, error_bind, error_bind]
      | ok R =>
        obtain ⟨P, rfl, -⟩ := (candidate_eq_ok_iff hr hid).1 hstart
        rw [candidate_xor_one_eq_ok hr hid hstart, ok_bind, ok_bind, solve_sub_s _ hr]
    · have hin' : ¬(InRange sig.r ∧ InRange (n - sig.s)) := by rwa [inRange_n_sub_iff]
      rw [recover_of_not_inRange hflip hd hin', recover_of_not_inRange hid hd hin]

theorem verify_toLowS (digest : Bytes) (o : ByteOrder) (sig : Signature) (key : PublicKey) :
    verify digest sig.toLowS key o = verify digest sig key o := by
  rw [Signature.toLowS]
  split
  · rfl
  · exact verify_sub_s digest o sig key _

theorem recover_toLowS (digest : Bytes) (o : ByteOrder) (sig : Signature) :
    sig.toLowS.recoveryId.map (fun id ↦ (recover digest sig.toLowS id o).toOption) =
      sig.recoveryId.map fun id ↦ (recover digest sig id o).toOption := by
  rw [Signature.toLowS]
  split
  · rfl
  · rw [Option.map_map]
    refine Option.map_congr fun id _ ↦ ?_
    rw [Function.comp_apply]
    by_cases hid : id ≤ 3
    · rw [recover_sub_s digest o sig hid]
    · have hflip : ¬ id ^^^ 1 ≤ 3 := by
        intro hle
        have hback := Signature.xor_one_le_three hle
        rw [UInt8.xor_assoc, UInt8.xor_self, UInt8.xor_zero] at hback
        exact hid hback
      rw [recover_of_large_id (UInt8.not_le.1 hid), recover_of_large_id (UInt8.not_le.1 hflip)]
      rfl

/-- A signature and the one with the other `s` are alike: they get the same verdict for every key,
and ids of opposite parity lead from them to the same key or fail alike. Taking the lesser `s` thus
keeps the verdict and the key that the signature's own id leads to. -/
theorem malleability_symmetric (digest : Bytes) (o : ByteOrder) (sig : Signature)
    (key : PublicKey) :
    verify digest { sig with s := n - sig.s } key o = verify digest sig key o ∧
      (∀ id ≤ 3, recover digest { sig with s := n - sig.s } (id ^^^ 1) o =
        recover digest sig id o) ∧
      verify digest sig.toLowS key o = verify digest sig key o ∧
      sig.toLowS.recoveryId.map (fun id ↦ (recover digest sig.toLowS id o).toOption) =
        sig.recoveryId.map fun id ↦ (recover digest sig id o).toOption := by
  refine ⟨verify_sub_s digest o sig key _, ?_, verify_toLowS digest o sig key,
    recover_toLowS digest o sig⟩
  intro id hid
  exact recover_sub_s digest o sig hid _

theorem malleability_symmetric_high :
    let digest : Bytes := 0x80 :: List.replicate 31 0
    let key : PublicKey := ⟨_, _, true, Point.g_onCurve⟩
    let sig : Signature := {
      r := 0x79be667ef9dcbbac55a06295ce870b07029bfcdb2dce28d959f2815b16f81798
      s := 0xf9be667ef9dcbbac55a06295ce870b07029bfcdb2dce28d959f2815b16f81798
      recoveryId := some 0 }
    (sig.hasLowS = false ∧ (0 : UInt8) ≤ 3 ∧ verify digest sig key = .ok () ∧
        (recover digest sig 0).isOk) ∧
      verify digest { sig with s := n - sig.s } key = .ok () ∧
      recover digest { sig with s := n - sig.s } (0 ^^^ 1) = recover digest sig 0 ∧
      verify digest sig.toLowS key = .ok () ∧
      sig.toLowS.recoveryId.map (fun id ↦ (recover digest sig.toLowS id).toOption) =
        some (recover digest sig 0).toOption := by
  intro digest key sig
  have hid : (0 : UInt8) ≤ 3 := by decide
  have hverify : verify digest sig key = .ok () := Fallible.toOption_eq_some.1 (by decide +kernel)
  have hfound : (recover digest sig 0).isOk := by decide +kernel
  obtain ⟨hother, hrecover, hlow, hown⟩ := malleability_symmetric digest .big sig key
  exact ⟨⟨by decide, hid, hverify, hfound⟩, hother.trans hverify, hrecover 0 hid,
    hlow.trans hverify, hown⟩

end BitcoinCash.Ecdsa

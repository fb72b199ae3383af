import BitcoinCash.Proofs.Ecdsa.Rfc6979
import BitcoinCash.Proofs.Fallible

namespace BitcoinCash.Ecdsa

open Secp256k1

variable {key : PrivateKey} {pub : PublicKey} {digest : Bytes} {o : ByteOrder} {sig : Signature}

theorem selects_of_sign (hpub : key.publicKey = .ok pub)
    (hsign : sign digest (some key) o = .ok sig) :
    ∃ h id, digest? digest o = some h ∧ sig.IsCanonical ∧ sig.recoveryId = some id ∧
      Selects sig.r id (noncePoint (Integer.ofBytes h .big) sig pub.toGroup) := by
  obtain ⟨found, hfound, hgroup, -⟩ := key.publicKey_eq_ok
  cases hfound.symm.trans hpub
  rw [hgroup]
  exact sign_spec hsign

theorem verify_of_sign (hpub : key.publicKey = .ok pub)
    (hsign : sign digest (some key) o = .ok sig) : verify digest sig pub o = .ok () := by
  obtain ⟨h, id, hd, hcanonical, -, hselects⟩ := selects_of_sign hpub hsign
  exact (verify_eq_ok_iff hd sig pub).2 ⟨hcanonical.r, hcanonical.s, hselects.hasX⟩

/-- From a signature and its recovery id one gets back the signer's key, and from the signature
and that key its recovery id. -/
theorem recover_sign (hsign : sign digest (some key) o = .ok sig) :
    ∃ pub id, key.publicKey = .ok pub ∧ sig.recoveryId = some id ∧
      recover digest sig id o = .ok { pub with compressed := true } ∧
      recoveryId digest sig pub o = .ok id := by
  obtain ⟨pub, hpub, -⟩ := key.publicKey_eq_ok
  obtain ⟨h, id, hd, hcanonical, hid, hselects⟩ := selects_of_sign hpub hsign
  refine ⟨pub, id, hpub, hid, (recover_eq_ok_iff hd).2 ?_, recoveryId_eq_ok_iff.2 ?_⟩
  · exact ⟨hcanonical.r, hcanonical.s, rfl, hselects⟩
  · exact (recovers_iff hd).2 ⟨hcanonical.r, hcanonical.s, hselects⟩

theorem sign_one :
    sign (Bytes.ofNatBE 32 0x12639e61fc32478079b1dc1d2324f4602c0842e83a2be1d260b9d486700b0d20)
        (some ⟨1, true, by decide, by decide⟩) =
      .ok {
        r := 0xc29f54b583ec527aa6d9107c36047d89eb9dab908a329deb96727a48e1e38bce
        s := 0x3d232e8aa4453d05da2d6373403908e9d9ca4f6bbac3cbe0367b962d2cc0f2
        recoveryId := some 1 } :=
  sign_of_nonce rfl
    (deterministicNonce_of_candidate (by decide) (by decide) Rfc6979.candidate_one (by decide))
    (Fallible.toOption_eq_some.1 (by decide +kernel))

theorem recover_sign_one :
    let digest : Bytes :=
      Bytes.ofNatBE 32 0x12639e61fc32478079b1dc1d2324f4602c0842e83a2be1d260b9d486700b0d20
    let key : PrivateKey := ⟨1, true, by decide, by decide⟩
    ∃ sig, sign digest (some key) = .ok sig ∧
      ∃ pub id, key.publicKey = .ok pub ∧ sig.recoveryId = some id ∧
        recover digest sig id = .ok { pub with compressed := true } ∧
        recoveryId digest sig pub = .ok id :=
  ⟨_, sign_one, recover_sign sign_one⟩

end BitcoinCash.Ecdsa

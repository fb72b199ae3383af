import BitcoinCash.Proofs.Transaction.MultiSig
import BitcoinCash.Proofs.Transaction.SignedType

namespace BitcoinCash

namespace Transaction

theorem protectedPreimage_spendOne (code : Bytes) :
    spendOne.protectedPreimage 0 code ⟨0xc2⟩ 1000 = .ok
      ((Wire.u32 1 ++ List.replicate 64 0 ++ List.replicate 32 1 ++ Wire.u32 0) ++
        (Wire.varBytes code ++ (Wire.u64 1000 ++ Wire.u32 0xffffffff ++ List.replicate 32 0 ++
          Wire.u32 3 ++ Wire.u32 0xc2))) := by
  refine congrArg Except.ok ?_
  simp only [List.append_assoc]
  rfl

/-- A redeem script whose length takes four bytes. -/
def longRedeem : Script := ⟨List.replicate 0x10000 0⟩

theorem length_longRedeem : longRedeem.length = 0x10000 := List.length_replicate

/-- Cuts the zeros where the first of their own blocks begins and where the last one ends. -/
theorem append_varBytes_longRedeem (a b : Bytes) :
    a ++ (Wire.varBytes longRedeem.bytes ++ b) =
      (a ++ Wire.size 0x10000 ++ List.replicate 19 0) ++
        (List.replicate (64 * 1023) 0 ++ (List.replicate 45 0 ++ b)) := by
  have hzeros : longRedeem.bytes = List.replicate 19 0 ++
      (List.replicate (64 * 1023) 0 ++ List.replicate 45 0) := by
    simp only [longRedeem, List.replicate_append_replicate, Nat.reduceAdd, Nat.reduceMul]
  have hlength : longRedeem.bytes.length = 0x10000 := length_longRedeem
  rw [Wire.varBytes, hlength, hzeros]
  simp only [List.append_assoc]

theorem inputHash_longRedeem :
    spendOne.inputHash 0 ⟨0xc2⟩ (some longRedeem) = .ok (Bytes.ofNatBE 32
      0x91cc275a74c006bd5f0cc9d516898a0d6106cee1f231d54525d1bbc5b7625ac4) := by
  have hsource : spendOne.sourceOutput 0 = .ok ⟨1000, lockOne⟩ := rfl
  rw [inputHash_of_usesForkId hsource (by decide), protectedHash, Option.getD_some,
    protectedPreimage_spendOne, append_varBytes_longRedeem]
  refine congrArg Except.ok ?_
  rw [sha256d, sha256_append_zeros (k := 2) rfl rfl]
  decide +kernel

theorem sign_longRedeem :
    ∃ sig, Ecdsa.sign (Bytes.ofNatBE 32
        0x91cc275a74c006bd5f0cc9d516898a0d6106cee1f231d54525d1bbc5b7625ac4)
      (some ⟨1, true, by decide, by decide⟩) = .ok sig ∧ sig.toDer.length = 71 := by
  have hk : Rfc6979.candidate 1 (Bytes.ofNatBE 32
      0x91cc275a74c006bd5f0cc9d516898a0d6106cee1f231d54525d1bbc5b7625ac4) 0 =
      0x4c1e0e45d8897898a871342b21ba524b3c59d4237441103a05a5c6809bbc91c4 := by
    rw [Rfc6979.candidate, hmacSha256_eq]
    decide +kernel
  let sig : Signature := {
    r := 0xbf9d878e5ebe0e476f7c4e79612c713c292fbeec14f414827cb7c654ae58239a
    s := 0x4dfbb72026882d76998f7cddc5c63a2e09aaaf467d684279b3316a42fd1ad9c
    recoveryId := some 0 }
  exact ⟨sig, Ecdsa.sign_of_nonce rfl
    (Ecdsa.deterministicNonce_of_candidate (by decide) (by decide) hk (by decide))
    (Fallible.toOption_eq_some.1 (by decide +kernel)), by decide +kernel⟩

end Transaction

open Transaction

variable {key : PrivateKey} {pub : PublicKey} {tx : Transaction} {i : ℕ} {t : SighashType}
  {code redeem : Option Script} {signers : List PrivateKey} {u : Script}

theorem PublicKey.length_toBytes_of_publicKey (h : key.publicKey = .ok pub) :
    pub.toBytes.length = if key.compressed then 33 else 65 := by
  obtain ⟨-, hcompressed⟩ := ofPoint_eq_ok_iff.1 h
  rw [toBytes, hcompressed, apply_ite List.length, length_toCompressed, length_toUncompressed]

theorem Ecdsa.sign_uncompressed (digest : Bytes) (key : PrivateKey) :
    sign digest (some key.uncompressed) = sign digest (some key) := rfl

namespace Unlocker

theorem length_sign_p2pkh_le (h : sign (.p2pkh key t) tx i = .ok u) :
    u.length ≤ lengthEstimate (.p2pkh key t) + if key.compressed then 0 else 32 := by
  obtain ⟨digest, sig, pub, a, b, -, hsign, hpub, ha, hb, rfl⟩ := sign_p2pkh_eq_ok.1 h
  obtain ⟨-, -, -, hcanonical, -⟩ := Ecdsa.selects_of_sign hpub hsign
  have hsig := (hcanonical.length_toDer_concat t.toByte).2
  have hkey := PublicKey.length_toBytes_of_publicKey hpub
  have ha := Push.length_data_of_length_le (by omega) ha
  have hb := Push.length_data_of_length_le (by split at hkey <;> omega) hb
  rw [Script.length, List.length_append, ha, hb, hkey, lengthEstimate]
  split <;> omega

theorem length_signatures_le {sigs : List Bytes} {a : Bytes}
    (hsigs : List.Forall₂ (fun key sig ↦ signature key tx i code t = .ok sig) signers sigs)
    (ha : Lock.pushes sigs = .ok a) : a.length ≤ 73 * signers.length := by
  rw [hsigs.length_eq, Nat.mul_comm]
  refine Lock.length_pushes_le (by decide) ha fun sig hsig ↦ ?_
  obtain ⟨key, hkey⟩ := exists_signature_of_mem hsigs sig hsig
  exact (length_of_signature hkey).2

/-- A redeem script whose length takes four bytes is made up for by what two signatures save. -/
theorem length_sign_multisig_le (h : sign (.multisig signers t redeem) tx i = .ok u)
    (hredeem : ∀ r ∈ redeem, r.length < 0x10000 ∨ 2 ≤ signers.length) :
    u.length ≤ lengthEstimate (.multisig signers t redeem) := by
  obtain ⟨sigs, a, hsigs, ha, hu⟩ := sign_multisig_eq_ok h
  have ha := length_signatures_le hsigs ha
  unfold lengthEstimate
  obtain ⟨rfl, rfl⟩ | ⟨r, push, rfl, hpush, rfl⟩ := hu
  · simp only [Script.length, List.length_cons]
    omega
  · have hlong := Push.length_data_le hpush
    have hshort := fun hr ↦ Push.length_data_le_of_lt hr hpush
    simp only [Script.length, List.length_cons, List.length_append] at hredeem ⊢
    obtain hr | htwo := hredeem r rfl
    · have hshort := hshort hr
      omega
    · omega

/-- What is expected is `r.length + 78`; signatures have up to 72 bytes. -/
theorem length_sign_multisig_singleton {r : Script} {b : Bytes} (hr : 0x10000 ≤ r.length)
    (hb : signature key tx i (some r) t = .ok b)
    (h : sign (.multisig [key] t (some r)) tx i = .ok u) : u.length = b.length + r.length + 7 := by
  obtain ⟨sigs, a, hsigs, ha, ⟨⟨⟩, -⟩ | ⟨_, push, ⟨⟩, hpush, rfl⟩⟩ := sign_multisig_eq_ok h
  obtain ⟨_, _, hsig, ⟨⟩, rfl⟩ := List.forall₂_cons_left_iff.1 hsigs
  cases hb.symm.trans hsig
  obtain ⟨x, y, hx, ⟨⟩, rfl⟩ := Lock.pushes_cons_eq_ok.1 ha
  have hx := Push.length_data_of_length_le ((length_of_signature hsig).2.trans (by decide)) hx
  have hpush := Push.length_data_of_le hr hpush
  simp only [Script.length, List.length_cons, List.length_append, List.length_nil, hx, hpush]
  omega

/-- No unlocking script is longer than expected, as long as the key is compressed and the length of
the redeem script takes two bytes; the script of a key that is not compressed is at most 32 bytes
longer. -/
theorem length_sign_le (tx : Transaction) (i : ℕ) (u : Script) :
    (∀ key t, sign (.p2pkh key t) tx i = .ok u →
      u.length ≤ lengthEstimate (.p2pkh key t) + if key.compressed then 0 else 32) ∧
    ∀ signers t redeem, sign (.multisig signers t redeem) tx i = .ok u →
      (∀ r ∈ redeem, r.length < 0x10000 ∨ 2 ≤ signers.length) →
        u.length ≤ lengthEstimate (.multisig signers t redeem) :=
  ⟨fun _ _ ↦ length_sign_p2pkh_le, fun _ _ _ ↦ length_sign_multisig_le⟩

theorem length_sign_le_spendOne :
    let key : PrivateKey := ⟨1, true, by decide, by decide⟩
    (∃ u, sign (.p2pkh key ⟨0xc2⟩) spendOne 0 = .ok u ∧ u.length ≤ 107) ∧
      ∃ u, sign (.multisig [key] ⟨0xc2⟩ (some lockOne)) spendOne 0 = .ok u ∧ u.length ≤ 103 := by
  intro key
  have hsource : spendOne.sourceOutput 0 = .ok ⟨1000, lockOne⟩ := rfl
  have ht : SighashType.usesForkId ⟨0xc2⟩ := by decide
  have hcode : spendOne.inputHash 0 ⟨0xc2⟩ (some lockOne) = spendOne.inputHash 0 ⟨0xc2⟩ := by
    rw [inputHash_of_usesForkId hsource ht, inputHash_of_usesForkId hsource ht]
    rfl
  have hsignature : signature key spendOne 0 (some lockOne) ⟨0xc2⟩ = .ok _ :=
    signature_eq_ok.2 ⟨_, _, hcode.trans inputHash_spendOne, Ecdsa.sign_one, rfl⟩
  obtain ⟨u, hu⟩ := exists_sign_p2pkh inputHash_spendOne Ecdsa.sign_one
  obtain ⟨v, hv⟩ := exists_sign_multisig_p2sh (List.cons_ne_nil key [])
    (List.forall_mem_singleton.2 ⟨_, hsignature⟩) (by decide)
  refine ⟨⟨u, hu, (length_sign_le _ _ u).1 _ _ hu⟩, v, hv, (length_sign_le _ _ v).2 _ _ _ hv ?_⟩
  intro r hr
  cases hr
  exact .inl (by decide)

/-- The key one, not compressed, makes the script of an input longer than expected; so does, with
the key compressed, a redeem script whose length takes four bytes. -/
theorem exists_lengthEstimate_lt_length :
    let key : PrivateKey := ⟨1, true, by decide, by decide⟩
    (∃ u, sign (.p2pkh key.uncompressed ⟨0xc2⟩) spendOne 0 = .ok u ∧
      lengthEstimate (.p2pkh key.uncompressed ⟨0xc2⟩) < u.length) ∧
    ∃ u, sign (.multisig [key] ⟨0xc2⟩ (some longRedeem)) spendOne 0 = .ok u ∧
      lengthEstimate (.multisig [key] ⟨0xc2⟩ (some longRedeem)) < u.length := by
  intro key
  constructor
  · obtain ⟨pub, hpub, -⟩ := key.uncompressed.publicKey_eq_ok
    have hkey : pub.toBytes.length = 65 := PublicKey.length_toBytes_of_publicKey hpub
    obtain ⟨sig, hsign, hder⟩ : ∃ sig, Ecdsa.sign _ (some key.uncompressed) = .ok sig ∧
        sig.toDer.length = 70 :=
      ⟨_, (Ecdsa.sign_uncompressed _ _).trans Ecdsa.sign_one, by decide +kernel⟩
    have hsig : (sig.toDer ++ [SighashType.toByte ⟨0xc2⟩]).length = 71 := by simp [hder]
    have ha := Push.data_of_length_le (hsig.trans_le (by decide))
    have hb := Push.data_of_length_le (hkey.trans_le (by decide))
    refine ⟨_, sign_p2pkh_eq_ok.2
      ⟨_, sig, pub, _, _, inputHash_spendOne, hsign, hpub, ha, hb, rfl⟩, ?_⟩
    rw [Script.length, List.length_append, List.length_cons, List.length_cons, hsig, hkey]
    decide
  · obtain ⟨sig, hsign, hder⟩ := sign_longRedeem
    have hsignature : signature key spendOne 0 (some longRedeem) ⟨0xc2⟩ = .ok _ :=
      signature_eq_ok.2 ⟨_, sig, inputHash_longRedeem, hsign, rfl⟩
    obtain ⟨u, hu⟩ := exists_sign_multisig_p2sh (List.cons_ne_nil key [])
      (List.forall_mem_singleton.2 ⟨_, hsignature⟩) (by rw [length_longRedeem]; decide)
    refine ⟨u, hu, ?_⟩
    rw [length_sign_multisig_singleton length_longRedeem.ge hsignature hu, List.length_append, hder,
      length_longRedeem, lengthEstimate, length_longRedeem]
    decide

end Unlocker

end BitcoinCash

import BitcoinCash.Proofs.Transaction.PayToPublicKeyHash
import BitcoinCash.Proofs.Wire.Reader

namespace BitcoinCash

open Fallible (bind_eq_ok ok_bind pure_eq_ok)

theorem Wire.u32_inj {a b : UInt32} (h : Wire.u32 a = Wire.u32 b) : a = b :=
  (Reader.takes_u32 a).unique (h ▸ Reader.takes_u32 b)

namespace SighashType

variable (t : SighashType)

/-- The type as it is read from a signature, which has one byte for it. -/
def truncated : SighashType := ⟨t.toByte.toUInt32⟩

theorem bits_truncated : t.truncated.bits = t.bits &&& 0xff := by
  rw [← UInt32.toNat_inj, UInt32.toNat_and]
  exact (UInt32.toNat_toUInt8 t.bits).trans (Nat.and_two_pow_sub_one_eq_mod t.bits.toNat 8).symm

theorem bits_truncated_and (mask : UInt32) (h : 0xff &&& mask = mask) :
    t.truncated.bits &&& mask = t.bits &&& mask := by
  rw [bits_truncated, UInt32.and_assoc, h]

theorem truncated_eq_iff : t.truncated = t ↔ t.bits < 0x100 := by
  have hbits : t.truncated = t ↔ t.truncated.bits.toNat = t.bits.toNat := by
    rw [UInt32.toNat_inj]
    exact ⟨congrArg bits, fun h ↦ congrArg mk h⟩
  have hmod : t.truncated.bits.toNat = t.bits.toNat % 256 := UInt32.toNat_toUInt8 t.bits
  have hlt : t.bits < 0x100 ↔ t.bits.toNat < 256 := UInt32.lt_iff_toNat_lt
  rw [hbits, hmod, hlt]
  omega

theorem coverage_truncated : t.truncated.coverage = t.coverage := by
  rw [coverage, coverage, t.bits_truncated_and 0x1f rfl]

theorem anyoneCanPay_truncated : t.truncated.anyoneCanPay = t.anyoneCanPay := by
  rw [anyoneCanPay, anyoneCanPay, t.bits_truncated_and 0x80 rfl]

theorem usesForkId_truncated : t.truncated.usesForkId = t.usesForkId := by
  rw [usesForkId, usesForkId, t.bits_truncated_and 0x40 rfl]

end SighashType

namespace Transaction

variable {tx : Transaction} {i : ℕ} {code b : Bytes} {t : SighashType} {satoshis : UInt64}

def signedString (tx : Transaction) (i : ℕ) (code : Bytes) (t : SighashType) (satoshis : UInt64) :
    Except TransactionError Bytes :=
  if t.usesForkId then tx.protectedPreimage i code t satoshis else tx.legacyPreimage i code t

theorem signatureHash_eq : tx.signatureHash i code t satoshis = do
    return sha256d (← tx.signedString i code t satoshis) := by
  unfold signatureHash signedString
  split <;> rfl

theorem signatureHash_eq_ok {digest : Bytes} :
    tx.signatureHash i code t satoshis = .ok digest ↔
      ∃ signed, tx.signedString i code t satoshis = .ok signed ∧ sha256d signed = digest := by
  rw [signatureHash_eq, bind_eq_ok]
  simp only [pure_eq_ok]

/-- Where the replay-protected digest is in use, a checker computes what a signer does for the type
that the byte says. -/
theorem checkedHash_eq {flags : Flags} {code : Script} {type : UInt8} (h : flags.has .forkId) :
    tx.checkedHash satoshis code i type flags =
      tx.signatureHash i code.bytes ⟨type.toUInt32⟩ satoshis := by
  simp only [checkedHash, signatureHash, h, and_true]

theorem legacyPreimage_truncated (h : tx.legacyPreimage i code t = .ok b) :
    ∃ body, b = body ++ Wire.u32 t.bits ∧
      tx.legacyPreimage i code t.truncated = .ok (body ++ Wire.u32 t.truncated.bits) := by
  obtain ⟨input, hinput, h⟩ := bind_eq_ok.1 h
  obtain ⟨outputs, houtputs, h⟩ := bind_eq_ok.1 h
  cases h
  refine ⟨_, rfl, ?_⟩
  have hsame : Legacy.outputsBytes tx i t.truncated = Legacy.outputsBytes tx i t := by
    rw [Legacy.outputsBytes, Legacy.outputsBytes, t.coverage_truncated]
  have hinputs : Legacy.inputsBytes tx i input code t.truncated =
      Legacy.inputsBytes tx i input code t := by
    simp only [Legacy.inputsBytes, t.coverage_truncated, t.anyoneCanPay_truncated]
  rw [legacyPreimage, hinput, ok_bind, hsame, houtputs, ok_bind, hinputs]
  rfl

theorem protectedPreimage_truncated (h : tx.protectedPreimage i code t satoshis = .ok b) :
    ∃ body, b = body ++ Wire.u32 t.bits ∧
      tx.protectedPreimage i code t.truncated satoshis =
        .ok (body ++ Wire.u32 t.truncated.bits) := by
  obtain ⟨input, hinput, h⟩ := bind_eq_ok.1 h
  obtain ⟨outputs, houtputs, h⟩ := bind_eq_ok.1 h
  cases h
  refine ⟨_, rfl, ?_⟩
  have hsame : Protected.outputsDigest tx i t.truncated = Protected.outputsDigest tx i t := by
    rw [Protected.outputsDigest, Protected.outputsDigest, t.coverage_truncated]
  have hpoints : Protected.outpointsDigest tx t.truncated = Protected.outpointsDigest tx t := by
    rw [Protected.outpointsDigest, Protected.outpointsDigest, t.anyoneCanPay_truncated]
  have hsequences : Protected.sequencesDigest tx t.truncated = Protected.sequencesDigest tx t := by
    rw [Protected.sequencesDigest, Protected.sequencesDigest, t.anyoneCanPay_truncated,
      t.coverage_truncated]
  rw [protectedPreimage, hinput, ok_bind, hsame, houtputs, ok_bind, hpoints, hsequences]
  rfl

/-- Cutting the type down to a byte changes the string in the type at its end and nowhere else. -/
theorem signedString_truncated (h : tx.signedString i code t satoshis = .ok b) :
    ∃ body, b = body ++ Wire.u32 t.bits ∧
      tx.signedString i code t.truncated satoshis = .ok (body ++ Wire.u32 t.truncated.bits) := by
  unfold signedString at h ⊢
  rw [t.usesForkId_truncated]
  split at h
  next hprotected =>
    rw [if_pos hprotected]
    exact protectedPreimage_truncated h
  next hlegacy =>
    rw [if_neg hlegacy]
    exact legacyPreimage_truncated h

/-- Where the replay-protected digest is in use, the digest that was signed and the one that the
signature is checked against are those of one string exactly if the type is a byte. -/
theorem signed_eq_checked_iff {key : PrivateKey} {code : Option Script} {flags : Flags}
    (hforkId : flags.has .forkId) (h : Unlocker.signature key tx i code t = .ok b) :
    ∃ output sig signed checked, tx.sourceOutput i = .ok output ∧
      Ecdsa.sign (sha256d signed) (some key) = .ok sig ∧ b = sig.toDer ++ [t.toByte] ∧
      tx.signedString i (code.getD output.lockingScript).bytes t output.satoshis = .ok signed ∧
      tx.signedString i (code.getD output.lockingScript).bytes ⟨t.toByte.toUInt32⟩
        output.satoshis = .ok checked ∧
      tx.inputHash i t code = .ok (sha256d signed) ∧
      tx.checkedHash output.satoshis (code.getD output.lockingScript) i t.toByte flags =
        .ok (sha256d checked) ∧
      (signed = checked ↔ t.bits < 0x100) := by
  obtain ⟨digest, sig, hdigest, hsign, hb⟩ := Unlocker.signature_eq_ok.1 h
  obtain ⟨output, houtput, hhash⟩ := bind_eq_ok.1 hdigest
  obtain ⟨signed, hsigned, rfl⟩ := signatureHash_eq_ok.1 hhash
  obtain ⟨body, hbody, hchecked⟩ := signedString_truncated hsigned
  refine ⟨output, sig, signed, _, houtput, hsign, hb, hsigned, hchecked, hdigest, ?_, ?_⟩
  · rw [checkedHash_eq hforkId]
    exact signatureHash_eq_ok.2 ⟨_, hchecked, rfl⟩
  · rw [hbody, List.append_cancel_left_eq, ← t.truncated_eq_iff]
    constructor
    · intro hbits
      exact congrArg SighashType.mk (Wire.u32_inj hbits).symm
    · intro htype
      rw [htype]

def lockOne : Script :=
  ⟨[0x76, 0xa9, 20, 0x75, 0x1e, 0x76, 0xe8, 0x19, 0x91, 0x96, 0xd4, 0x54, 0x94, 0x1c, 0x45, 0xd1,
    0xb3, 0xa3, 0x23, 0xf1, 0x43, 0x3b, 0xd6, 0x88, 0xac]⟩

def spendOne : Transaction :=
  { inputs := [{
      sourceId := ⟨List.replicate 32 1, rfl⟩
      sourceIndex := 0
      source := some ⟨1000, lockOne⟩ }]
    lockTime := 3 }

theorem inputHash_spendOne :
    spendOne.inputHash 0 ⟨0xc2⟩ = .ok (Bytes.ofNatBE 32
      0x12639e61fc32478079b1dc1d2324f4602c0842e83a2be1d260b9d486700b0d20) :=
  Fallible.toOption_eq_some.1 (by decide +kernel)

theorem sign_spendOne :
    ∃ sig, Ecdsa.sign (Bytes.ofNatBE 32
        0xf159e5b1b94e0fa4b5e4063a9a18068d1fa8c8463abceb8cc7989e0c0917c566)
      (some ⟨1, true, by decide, by decide⟩) = .ok sig := by
  have hk : Rfc6979.candidate 1 (Bytes.ofNatBE 32
      0xf159e5b1b94e0fa4b5e4063a9a18068d1fa8c8463abceb8cc7989e0c0917c566) 0 =
      0x5b664a00927296e20f5edb97b946d85f49c2d69ea623fc6d61da4f5105723795 := by
    rw [Rfc6979.candidate, hmacSha256_eq]
    decide +kernel
  exact Ecdsa.exists_sign_of_candidate rfl hk (by decide) (by decide +kernel)

theorem signature_spendOne :
    let digest : Bytes :=
      Bytes.ofNatBE 32 0xf159e5b1b94e0fa4b5e4063a9a18068d1fa8c8463abceb8cc7989e0c0917c566
    spendOne.inputHash 0 ⟨0x1c2⟩ = .ok digest ∧
      ∃ sig : Signature, Unlocker.signature ⟨1, true, by decide, by decide⟩ spendOne 0 none ⟨0x1c2⟩ =
        .ok (sig.toDer ++ [0xc2]) := by
  intro digest
  have hdigest : spendOne.inputHash 0 ⟨0x1c2⟩ = .ok digest :=
    Fallible.toOption_eq_some.1 (by decide +kernel)
  obtain ⟨sig, hsig⟩ := sign_spendOne
  exact ⟨hdigest, sig, Unlocker.signature_eq_ok.2 ⟨digest, sig, hdigest, hsig, rfl⟩⟩

theorem signed_eq_checked_iff_spendOne :
    ∃ b signed checked,
      Unlocker.signature ⟨1, true, by decide, by decide⟩ spendOne 0 none ⟨0x1c2⟩ = .ok b ∧
      spendOne.inputHash 0 ⟨0x1c2⟩ = .ok (sha256d signed) ∧
      spendOne.checkedHash 1000 lockOne 0 0xc2 .standard = .ok (sha256d checked) ∧
      signed ≠ checked := by
  obtain ⟨-, sig, hsignature⟩ := signature_spendOne
  have hforkId : Flags.standard.has .forkId := by decide
  obtain ⟨output, -, signed, checked, houtput, -, -, -, -, hsigned, hchecked, heq⟩ :=
    signed_eq_checked_iff hforkId hsignature
  obtain rfl : ⟨1000, lockOne⟩ = output := Except.ok.inj houtput
  exact ⟨_, signed, checked, hsignature, hsigned, hchecked, fun h ↦ absurd (heq.1 h) (by decide)⟩

/-- For the type `0x1c2` the checker's digest is not the one that was signed. -/
theorem signed_ne_checked_spendOne :
    ∃ b digest checked,
      Unlocker.signature ⟨1, true, by decide, by decide⟩ spendOne 0 none ⟨0x1c2⟩ = .ok b ∧
      b.getLast? = some 0xc2 ∧
      spendOne.inputHash 0 ⟨0x1c2⟩ = .ok digest ∧
      spendOne.checkedHash 1000 lockOne 0 0xc2 .standard = .ok checked ∧
      digest ≠ checked := by
  obtain ⟨hdigest, sig, hsignature⟩ := signature_spendOne
  have hchecked : spendOne.checkedHash 1000 lockOne 0 0xc2 .standard =
      .ok (Bytes.ofNatBE 32 0x12639e61fc32478079b1dc1d2324f4602c0842e83a2be1d260b9d486700b0d20) :=
    (checkedHash_eq (by decide)).trans inputHash_spendOne
  exact ⟨_, _, _, hsignature, List.getLast?_concat, hdigest, hchecked, by decide⟩

end Transaction

end BitcoinCash

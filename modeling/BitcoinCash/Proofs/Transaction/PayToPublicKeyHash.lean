import BitcoinCash.Proofs.Ecdsa.Signer
import BitcoinCash.Proofs.Key.Encoding
import BitcoinCash.Proofs.Machine.LowS
import BitcoinCash.Proofs.Machine.PayToPublicKeyHash
import BitcoinCash.Proofs.Transaction.Preimage
import BitcoinCash.Transaction.Unlock
import BitcoinCash.Transaction.Verify

namespace BitcoinCash

open Fallible (bind_eq_ok pure_eq_ok)

variable {key : PrivateKey} {pub : PublicKey} {sig : Signature} {tx : Transaction} {i : ℕ}
  {t : SighashType} {flags : Flags} {output : TxOutput}

theorem Signature.IsCanonical.length_toDer_concat (h : sig.IsCanonical) (b : UInt8) :
    7 ≤ (sig.toDer ++ [b]).length ∧ (sig.toDer ++ [b]).length ≤ 72 := by
  have hder := Signature.length_toDer h.r h.s
  have hr := Signature.length_integer_of_inRange h.r
  have hs : (Der.integer sig.s).length ≤ 32 := by
    have hhalf : 2 * Secp256k1.halfN < 256 ^ 32 := by decide
    have hpos := h.s_pos
    have hle := h.s_le
    exact Der.length_integer_le_of_two_mul_lt hpos.ne' (by omega)
  rw [Signature.toDer, Der.encode_eq, Der.length_sequence] at hder
  rw [Signature.toDer, Der.encode_eq, List.length_append, Der.length_sequence,
    List.length_singleton]
  omega

namespace Unlocker

theorem signature_eq_ok {code : Option Script} {b : Bytes} :
    signature key tx i code t = .ok b ↔ ∃ digest sig, tx.inputHash i t code = .ok digest ∧
      Ecdsa.sign digest (some key) = .ok sig ∧ b = sig.toDer ++ [t.toByte] := by
  simp only [signature, bind_eq_ok, exists_and_left]
  refine exists_congr fun digest ↦ and_congr_right fun _ ↦ ?_
  cases hsign : Ecdsa.sign digest (some key) with
  | error e => simp [bind, Except.bind, throw, throwThe, MonadExceptOf.throw]
  | ok sig =>
    have hwritten : Signature.toTransaction { sig with sighashType := some t.toByte } =
        .ok (sig.toDer ++ [t.toByte]) := rfl
    simp [bind, Except.bind, hwritten, pure, Except.pure, eq_comm]

theorem push_eq_ok {d b : Bytes} : push d = .ok b ↔ Push.data d = .ok b := by
  unfold push
  cases Push.data d <;> simp

theorem sign_p2pkh_eq_ok {u : Script} :
    sign (.p2pkh key t) tx i = .ok u ↔ ∃ digest sig pub a b, tx.inputHash i t = .ok digest ∧
      Ecdsa.sign digest (some key) = .ok sig ∧ key.publicKey = .ok pub ∧
      Push.data (sig.toDer ++ [t.toByte]) = .ok a ∧ Push.data pub.toBytes = .ok b ∧
      u = ⟨a ++ b⟩ := by
  simp only [sign, bind_eq_ok, signature_eq_ok]
  constructor
  · rintro ⟨_, ⟨digest, sig, hdigest, hsign, rfl⟩, h⟩
    cases hpub : key.publicKey with
    | error e =>
      rw [hpub] at h
      cases h
    | ok pub =>
      rw [hpub] at h
      obtain ⟨a, ha, h⟩ := bind_eq_ok.1 h
      obtain ⟨b, hb, h⟩ := bind_eq_ok.1 h
      cases h
      exact ⟨digest, sig, pub, a, b, hdigest, hsign, rfl, push_eq_ok.1 ha, push_eq_ok.1 hb, rfl⟩
  · rintro ⟨digest, sig, pub, a, b, hdigest, hsign, hpub, ha, hb, rfl⟩
    refine ⟨_, ⟨digest, sig, hdigest, hsign, rfl⟩, ?_⟩
    rw [hpub]
    exact bind_eq_ok.2 ⟨a, push_eq_ok.2 ha, bind_eq_ok.2 ⟨b, push_eq_ok.2 hb, rfl⟩⟩

theorem exists_sign_p2pkh {digest : Bytes} (hdigest : tx.inputHash i t = .ok digest)
    (hsign : Ecdsa.sign digest (some key) = .ok sig) :
    ∃ u, sign (.p2pkh key t) tx i = .ok u := by
  obtain ⟨pub, hpub, -⟩ := key.publicKey_eq_ok
  obtain ⟨-, -, -, hcanonical, -⟩ := Ecdsa.selects_of_sign hpub hsign
  have hsigLength := hcanonical.length_toDer_concat t.toByte
  have hkeyLength := pub.length_toBytes
  obtain ⟨a, ha⟩ : ∃ a, Push.data (sig.toDer ++ [t.toByte]) = .ok a := Push.data_eq_ok (by omega)
  obtain ⟨b, hb⟩ : ∃ b, Push.data pub.toBytes = .ok b := Push.data_eq_ok (by omega)
  exact ⟨⟨a ++ b⟩, sign_p2pkh_eq_ok.2 ⟨digest, sig, pub, a, b, hdigest, hsign, hpub, ha, hb, rfl⟩⟩

end Unlocker

namespace Transaction

theorem inputHash_of_usesForkId (hsource : tx.sourceOutput i = .ok output) (ht : t.usesForkId)
    {code : Option Script} :
    tx.inputHash i t code =
      tx.protectedHash i (code.getD output.lockingScript).bytes t output.satoshis := by
  rw [inputHash, hsource]
  exact if_pos ht

end Transaction

/-- The types of signature that name their base and use the replay-protected digest. -/
theorem SighashType.standard_cases (ht : t.bits ∈ [0x41, 0x42, 0x43, 0xc1, 0xc2, 0xc3]) :
    (⟨t.toByte.toUInt32⟩ : SighashType) = t ∧ t.usesForkId ∧
      (1 ≤ t.toByte &&& ~~~(Encoding.forkIdBit ||| 0x80) ∧
        t.toByte &&& ~~~(Encoding.forkIdBit ||| 0x80) ≤ 3) ∧
      t.toByte &&& Encoding.forkIdBit ≠ 0 := by
  obtain ⟨bits⟩ := t
  simp only [List.mem_cons, List.not_mem_nil, or_false] at ht
  rcases ht with rfl | rfl | rfl | rfl | rfl | rfl
  all_goals decide

theorem Environment.usesForkId_concat {env : Environment} {b : Bytes} {t : UInt8}
    (h : env.has .forkId) (ht : t &&& Encoding.forkIdBit ≠ 0) : env.usesForkId (b ++ [t]) := by
  simp [usesForkId, h, ht]

namespace Encoding

theorem checkSignature_of_isCanonical (hsig : sig.IsCanonical) {t : UInt8}
    (ht : checkHashType flags t = .ok ()) :
    checkSignature flags (sig.toDer ++ [t]) = .ok () :=
  checkSignature_concat.2 ⟨checkBareSignature_toDer hsig, fun _ ↦ ht⟩

end Encoding

namespace Transaction

variable {digest : Bytes} {satoshis : UInt64} {code : Script}

theorem verifySignature_of_sign (hpub : key.publicKey = .ok pub)
    (hsign : Ecdsa.sign digest (some key) = .ok sig)
    (ht : (⟨t.toByte.toUInt32⟩ : SighashType) = t) (hprotected : t.usesForkId)
    (hforkId : flags.has .forkId)
    (hdigest : tx.protectedHash i code.bytes t satoshis = .ok digest) :
    tx.verifySignature satoshis (sig.toDer ++ [t.toByte]) pub.toBytes code i flags = .ok true := by
  obtain ⟨-, -, -, hcanonical, -⟩ := Ecdsa.selects_of_sign hpub hsign
  have hlast : (sig.toDer ++ [t.toByte]).getLast? = some t.toByte := List.getLast?_concat
  have hread : Signature.ofDer (sig.toDer ++ [t.toByte]).dropLast =
      .ok ⟨sig.r, sig.s, none, none⟩ := by
    rw [List.dropLast_concat]
    exact Signature.ofDer_toDer hcanonical.r hcanonical.s
  have hverify : Ecdsa.verify digest ⟨sig.r, sig.s, none, none⟩ pub = .ok () :=
    (Ecdsa.verify_of_sign hpub hsign :)
  have hchecked : tx.checkedHash satoshis code i t.toByte flags = .ok digest := by
    rw [checkedHash, ht]
    exact (if_pos ⟨hprotected, hforkId⟩).trans hdigest
  simp only [verifySignature, hlast, hread, PublicKey.ofBytes_toBytes, hchecked, Ecdsa.accepts,
    hverify]
  rfl

/-- A signature over the same script code passes its check in a script, whatever other rules are in
force. -/
theorem attempt_of_sign (hpub : key.publicKey = .ok pub)
    (hsign : Ecdsa.sign digest (some key) = .ok sig)
    (ht : t.bits ∈ [0x41, 0x42, 0x43, 0xc1, 0xc2, 0xc3]) (hforkId : flags.has .forkId)
    (hdigest : tx.protectedHash i code.bytes t satoshis = .ok digest) :
    SignatureCheck.attempt { flags, context := some (tx.context satoshis), input := i } code
      (sig.toDer ++ [t.toByte]) pub.toBytes = .ok true := by
  obtain ⟨-, -, -, hcanonical, -⟩ := Ecdsa.selects_of_sign hpub hsign
  obtain ⟨htype, hprotected, hbase, hbit⟩ := SighashType.standard_cases ht
  have hhashType : Encoding.checkHashType flags t.toByte = .ok () :=
    (Encoding.checkHashType_eq_ok hforkId).2 ⟨hbase, hbit⟩
  have husesForkId : Environment.usesForkId
      { flags, context := some (tx.context satoshis), input := i } (sig.toDer ++ [t.toByte]) :=
    Environment.usesForkId_concat hforkId hbit
  refine SignatureCheck.attempt_eq_ok_true.2 ⟨?_, Encoding.checkKey_toBytes pub, ?_⟩
  · exact Encoding.checkSignature_of_isCanonical hcanonical hhashType
  · refine (SignatureCheck.accepts_iff rfl husesForkId).2 ⟨by simp, ?_⟩
    exact verifySignature_of_sign hpub hsign htype hprotected hforkId hdigest

theorem verifyInput_of_evaluate {input : TxInput} (hinput : tx.input i = .ok input)
    (h : evaluate { flags, context := some (tx.context output.satoshis), input := i }
      input.unlockingScript output.lockingScript = .ok ()) :
    tx.verifyInput i output flags = .ok () := by
  simp only [verifyInput, hinput, h, bind, Except.bind]
  rfl

/-- An input that the holder of a key has signed, with one of six types, passes under all rules. -/
theorem verifyInput_signInput {tx' : Transaction}
    (hpub : key.publicKey = .ok pub)
    (hsource : tx.sourceOutput i = .ok ⟨satoshis, Lock.p2pkhKey pub⟩)
    (ht : t.bits ∈ [0x41, 0x42, 0x43, 0xc1, 0xc2, 0xc3])
    (hforkId : flags.has .forkId) (hclean : flags.has .cleanStack → flags.has .p2sh)
    (hsign : tx.signInput i (.p2pkh key t) = .ok tx') :
    tx'.verifyInput i ⟨satoshis, Lock.p2pkhKey pub⟩ flags = .ok () := by
  obtain ⟨u, hu, hunlock⟩ := bind_eq_ok.1 hsign
  obtain ⟨digest, sig, pub', a, b, hdigest, hsigned, hpub', ha, hb, rfl⟩ :=
    Unlocker.sign_p2pkh_eq_ok.1 hu
  cases hpub.symm.trans hpub'
  obtain rfl : tx.unlock i ⟨a ++ b⟩ = tx' := Except.ok.inj hunlock
  obtain ⟨-, hprotected, -⟩ := SighashType.standard_cases ht
  -- The signer hashes the transaction as it was, the verifier as it is with the unlocking script.
  rw [inputHash_of_usesForkId hsource hprotected, ← tx.protectedHash_unlock i ⟨a ++ b⟩] at hdigest
  have hattempt := attempt_of_sign hpub hsigned ht hforkId hdigest
  obtain ⟨-, -, -, hcanonical, -⟩ := Ecdsa.selects_of_sign hpub hsigned
  obtain ⟨input, hinput, -⟩ := bind_eq_ok.1 hsource
  have hunlocked : (tx.unlock i ⟨a ++ b⟩).input i =
      .ok { input with unlockingScript := ⟨a ++ b⟩ } := by
    rw [input_unlock, hinput]
    simp [bind, Except.bind, pure, Except.pure]
  refine verifyInput_of_evaluate hunlocked ?_
  have hsigLength := hcanonical.length_toDer_concat t.toByte
  have hkeyLength := pub.length_toBytes
  rw [← Push.minimal_eq_data (by omega)] at ha hb
  exact evaluate_p2pkh_of_attempt rfl (Decidable.imp_iff_not_or.1 hclean) ha hb (by omega)
    (by omega) hattempt

theorem verifyInput_signInput_one :
    let key : PrivateKey := ⟨1, true, by decide, by decide⟩
    let pub : PublicKey :=
      { x := 0x79be667ef9dcbbac55a06295ce870b07029bfcdb2dce28d959f2815b16f81798
        y := 0x483ada7726a3c4655da4fbfc0e1108a8fd17b448a68554199c47d08ffb10d4b8
        compressed := true
        onCurve := by decide +kernel }
    let input : TxInput :=
      { sourceId := ⟨List.replicate 32 1, rfl⟩
        sourceIndex := 0
        source := some ⟨1000, Lock.p2pkhKey pub⟩ }
    let tx : Transaction := { inputs := [input], lockTime := 3 }
    ∃ tx', tx.signInput 0 (.p2pkh key ⟨0xc2⟩) = .ok tx' ∧
      tx'.verifyInput 0 ⟨1000, Lock.p2pkhKey pub⟩ .standard = .ok () := by
  intro key pub input tx
  have hpoint : Secp256k1.Point.g.mul 1 = pub.point := by decide +kernel
  have hpub : key.publicKey = .ok pub := PublicKey.ofPoint_eq_ok_iff.2 ⟨hpoint, rfl⟩
  have hsource : tx.sourceOutput 0 = .ok ⟨1000, Lock.p2pkhKey pub⟩ := rfl
  have hdigest : tx.inputHash 0 ⟨0xc2⟩ = .ok (Bytes.ofNatBE 32
      0x12639e61fc32478079b1dc1d2324f4602c0842e83a2be1d260b9d486700b0d20) :=
    Fallible.toOption_eq_some.1 (by decide +kernel)
  obtain ⟨u, hu⟩ := Unlocker.exists_sign_p2pkh hdigest Ecdsa.sign_one
  have hsign : tx.signInput 0 (.p2pkh key ⟨0xc2⟩) = .ok (tx.unlock 0 u) :=
    bind_eq_ok.2 ⟨u, hu, rfl⟩
  exact ⟨_, hsign, verifyInput_signInput hpub hsource (by decide) (by decide) (by decide) hsign⟩

end Transaction

end BitcoinCash

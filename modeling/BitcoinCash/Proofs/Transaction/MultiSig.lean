import BitcoinCash.Proofs.Machine.PayToMultiSig
import BitcoinCash.Proofs.Transaction.PayToPublicKeyHash

namespace BitcoinCash

open Fallible (bind_eq_ok pure_eq_ok)

variable {key : PrivateKey} {pub : PublicKey} {tx : Transaction} {i : ℕ} {t : SighashType}
  {code redeem : Option Script} {keys signers : List PrivateKey} {flags : Flags}

namespace Unlocker

variable {b : Bytes} {u : Script}

theorem signatures_eq_ok (h : signatures tx i code t signers = .ok b) :
    ∃ sigs, List.Forall₂ (fun key sig ↦ signature key tx i code t = .ok sig) signers sigs ∧
      Lock.pushes sigs = .ok b := by
  induction signers generalizing b with
  | nil =>
    cases h
    exact ⟨[], .nil, rfl⟩
  | cons key signers ih =>
    obtain ⟨sig, hsig, h⟩ := bind_eq_ok.1 h
    obtain ⟨x, hx, h⟩ := bind_eq_ok.1 h
    obtain ⟨y, hy, h⟩ := bind_eq_ok.1 h
    obtain ⟨sigs, hsigs, hpushes⟩ := ih hy
    exact ⟨sig :: sigs, .cons hsig hsigs,
      Lock.pushes_cons_eq_ok.2 ⟨x, y, push_eq_ok.1 hx, hpushes, pure_eq_ok.1 h⟩⟩

theorem sign_multisig_eq_ok (h : sign (.multisig signers t redeem) tx i = .ok u) :
    ∃ sigs a, List.Forall₂ (fun key sig ↦ signature key tx i redeem t = .ok sig) signers sigs ∧
      Lock.pushes sigs = .ok a ∧
      (redeem = none ∧ u = ⟨0 :: a⟩ ∨
        ∃ r push, redeem = some r ∧ Push.data r.bytes = .ok push ∧ u = ⟨0 :: (a ++ push)⟩) := by
  rw [sign] at h
  split at h
  next => cases h
  next =>
    obtain ⟨a, ha, h⟩ := bind_eq_ok.1 h
    obtain ⟨sigs, hsigs, hpushes⟩ := signatures_eq_ok ha
    refine ⟨sigs, a, hsigs, hpushes, ?_⟩
    cases redeem with
    | none => exact .inl ⟨rfl, (pure_eq_ok.1 h).symm⟩
    | some r =>
      obtain ⟨push, hpush, h⟩ := bind_eq_ok.1 h
      exact .inr ⟨r, push, rfl, push_eq_ok.1 hpush, (pure_eq_ok.1 h).symm⟩

theorem length_of_signature {sig : Bytes} (h : signature key tx i code t = .ok sig) :
    7 ≤ sig.length ∧ sig.length ≤ 72 := by
  obtain ⟨pub, hpub, -⟩ := key.publicKey_eq_ok
  obtain ⟨digest, s, -, hsign, rfl⟩ := signature_eq_ok.1 h
  obtain ⟨-, -, -, hcanonical, -⟩ := Ecdsa.selects_of_sign hpub hsign
  exact hcanonical.length_toDer_concat t.toByte

theorem exists_signature_of_mem {sigs : List Bytes}
    (hsigs : List.Forall₂ (fun key sig ↦ signature key tx i code t = .ok sig) signers sigs) :
    ∀ sig ∈ sigs, ∃ key, signature key tx i code t = .ok sig :=
  ((List.forall₂_and_left sigs signers).1 <|
    hsigs.flip.imp fun _ key hsig ↦ ⟨⟨key, hsig⟩, hsig⟩).1

theorem usesForkId_of_signature {env : Environment} {sig : Bytes}
    (h : signature key tx i code t = .ok sig)
    (ht : t.bits ∈ [0x41, 0x42, 0x43, 0xc1, 0xc2, 0xc3]) (hforkId : env.has .forkId) :
    env.usesForkId sig := by
  obtain ⟨digest, s, -, -, rfl⟩ := signature_eq_ok.1 h
  obtain ⟨-, -, -, hbit⟩ := SighashType.standard_cases ht
  exact Environment.usesForkId_concat hforkId hbit

/-- A signature is valid over the script that its signer has hashed, in the transaction that any
unlocking script makes of the signed one. -/
theorem attempt_of_signature {sig : Bytes} {satoshis : UInt64} {locking : Script}
    (h : signature key tx i code t = .ok sig) (hpub : key.publicKey = .ok pub)
    (hsource : tx.sourceOutput i = .ok ⟨satoshis, locking⟩)
    (ht : t.bits ∈ [0x41, 0x42, 0x43, 0xc1, 0xc2, 0xc3]) (hforkId : flags.has .forkId)
    (u : Script) :
    SignatureCheck.attempt
      { flags, context := some ((tx.unlock i u).context satoshis), input := i }
      (code.getD locking) sig pub.toBytes = .ok true := by
  obtain ⟨digest, s, hdigest, hsign, rfl⟩ := signature_eq_ok.1 h
  obtain ⟨-, hprotected, -⟩ := SighashType.standard_cases ht
  rw [Transaction.inputHash_of_usesForkId hsource hprotected,
    ← tx.protectedHash_unlock i u] at hdigest
  exact Transaction.attempt_of_sign hpub hsign ht hforkId hdigest

theorem exists_signatures
    (h : ∀ key ∈ signers, ∃ sig, signature key tx i code t = .ok sig) :
    ∃ b, signatures tx i code t signers = .ok b := by
  induction signers with
  | nil => exact ⟨[], rfl⟩
  | cons key signers ih =>
    obtain ⟨⟨sig, hsig⟩, h⟩ := List.forall_mem_cons.1 h
    obtain ⟨-, hlength⟩ := length_of_signature hsig
    obtain ⟨x, hx⟩ := Push.data_eq_ok (Nat.lt_of_le_of_lt hlength (by decide))
    obtain ⟨y, hy⟩ := ih h
    exact ⟨x ++ y, bind_eq_ok.2 ⟨sig, hsig, bind_eq_ok.2 ⟨x, push_eq_ok.2 hx,
      bind_eq_ok.2 ⟨y, hy, rfl⟩⟩⟩⟩

theorem exists_sign_multisig_p2sh {r : Script} (hsigners : signers ≠ [])
    (h : ∀ key ∈ signers, ∃ sig, signature key tx i (some r) t = .ok sig)
    (hr : r.length < 0x100000000) : ∃ u, sign (.multisig signers t (some r)) tx i = .ok u := by
  obtain ⟨a, ha⟩ := exists_signatures h
  obtain ⟨push, hpush⟩ := Push.data_eq_ok hr
  refine ⟨⟨0 :: (a ++ push)⟩, ?_⟩
  rw [sign, if_neg (by rwa [List.isEmpty_iff])]
  exact bind_eq_ok.2 ⟨a, ha, bind_eq_ok.2 ⟨push, push_eq_ok.2 hpush, rfl⟩⟩

theorem multiSigned_of_signatures {sigs : List Bytes} {satoshis : UInt64}
    {locking script : Script} {toPublic : PrivateKey → PublicKey}
    (hpublic : ∀ key : PrivateKey, key.publicKey = .ok (toPublic key))
    (hsub : signers.Sublist keys)
    (hlock : Lock.multisig signers.length (keys.map toPublic) = .ok script)
    (hcode : code.getD locking = script)
    (hsigs : List.Forall₂ (fun key sig ↦ signature key tx i code t = .ok sig) signers sigs)
    (hsource : tx.sourceOutput i = .ok ⟨satoshis, locking⟩)
    (ht : t.bits ∈ [0x41, 0x42, 0x43, 0xc1, 0xc2, 0xc3]) (hforkId : flags.has .forkId)
    (u : Script) :
    MultiSigned { flags, context := some ((tx.unlock i u).context satoshis), input := i } script
      (keys.map toPublic) sigs (signers.map fun key ↦ (toPublic key).toBytes) := by
  refine ⟨?_, ?_, ?_, ?_, ?_⟩
  · rwa [← hsigs.length_eq]
  · intro sig hsig
    obtain ⟨key, hkey⟩ := exists_signature_of_mem hsigs sig hsig
    obtain ⟨hmin, hmax⟩ := length_of_signature hkey
    exact ⟨by omega, by omega⟩
  · intro sig hsig
    obtain ⟨key, hkey⟩ := exists_signature_of_mem hsigs sig hsig
    exact usesForkId_of_signature hkey ht hforkId
  · rw [List.map_map]
    exact hsub.map _
  · rw [List.forall₂_map_right_iff]
    refine hsigs.flip.imp fun sig key hsig ↦ ?_
    rw [← hcode]
    exact attempt_of_signature hsig (hpublic key) hsource ht hforkId u

end Unlocker

theorem PrivateKey.exists_toPublic : ∃ toPublic : PrivateKey → PublicKey,
    ∀ key : PrivateKey, key.publicKey = .ok (toPublic key) := by
  choose toPublic htoPublic using PrivateKey.publicKey_eq_ok
  exact ⟨toPublic, fun key ↦ (htoPublic key).1⟩

theorem PrivateKey.mapM_publicKey {toPublic : PrivateKey → PublicKey}
    (hpublic : ∀ key : PrivateKey, key.publicKey = .ok (toPublic key)) :
    keys.mapM PrivateKey.publicKey = .ok (keys.map toPublic) := by
  induction keys with
  | nil => rfl
  | cons key keys ih =>
    rw [List.mapM_cons, hpublic, ih]
    rfl

namespace Transaction

/-- An input that some holders of the keys have signed, as many as the script asks for and in the
order of their keys, passes under all rules, whether its output holds the script or its hash. -/
theorem verifyInput_signInput_multisig (hkeys : keys.length ≤ 20) (hsigners : signers ≠ [])
    (hsub : signers.Sublist keys) (ht : t.bits ∈ [0x41, 0x42, 0x43, 0xc1, 0xc2, 0xc3])
    (hp2sh : flags.has .p2sh) (hforkId : flags.has .forkId) :
    ∃ pubs script, keys.mapM PrivateKey.publicKey = .ok pubs ∧
      Lock.multisig signers.length pubs = .ok script ∧
      ∀ (tx tx' : Transaction) (i : ℕ) (satoshis : UInt64) (locking : Script)
        (redeem : Option Script),
        (locking = script ∧ redeem = none ∨
          script.length ≤ 520 ∧ locking = Lock.p2sh script ∧ redeem = some script) →
        tx.sourceOutput i = .ok ⟨satoshis, locking⟩ →
        tx.signInput i (.multisig signers t redeem) = .ok tx' →
        tx'.verifyInput i ⟨satoshis, locking⟩ flags = .ok () := by
  obtain ⟨toPublic, hpublic⟩ := PrivateKey.exists_toPublic
  obtain ⟨script, hlock⟩ : ∃ script,
      Lock.multisig signers.length (keys.map toPublic) = .ok script := by
    refine Lock.exists_multisig ?_ (List.length_pos_iff.2 hsigners) ?_
    · rwa [List.length_map]
    · rw [List.length_map]
      exact hsub.length_le
  refine ⟨keys.map toPublic, script, PrivateKey.mapM_publicKey hpublic, hlock, ?_⟩
  intro tx tx' i satoshis locking redeem hspent hsource hsign
  obtain ⟨u, hu, hunlock⟩ := bind_eq_ok.1 hsign
  obtain rfl : tx.unlock i u = tx' := Except.ok.inj hunlock
  obtain ⟨input, hinput, -⟩ := bind_eq_ok.1 hsource
  obtain ⟨sigs, a, hsigs, ha, hu⟩ := Unlocker.sign_multisig_eq_ok hu
  refine verifyInput_of_evaluate (tx.input_unlock_self i u hinput) ?_
  -- Either way the script code is the script, which the signers were given or found in the output.
  have hsigned (hcode : redeem.getD locking = script) :=
    Unlocker.multiSigned_of_signatures hpublic hsub hlock hcode hsigs hsource ht hforkId u
  rcases hspent with ⟨rfl, rfl⟩ | ⟨hlength, rfl, rfl⟩
  · obtain ⟨-, rfl⟩ | ⟨r, push, hr, -⟩ := hu
    · exact (hsigned rfl).evaluate_bare rfl rfl hp2sh ha
    · cases hr
  · obtain ⟨hr, -⟩ | ⟨r, push, hr, hpush, rfl⟩ := hu
    · cases hr
    · cases hr
      exact (hsigned rfl).evaluate_p2sh rfl rfl hp2sh ha hlength hpush

theorem verifyInput_signInput_multisig_two_of_three :
    let one : PrivateKey := ⟨1, true, by decide, by decide⟩
    let two : PrivateKey := ⟨2, true, by decide, by decide⟩
    let pubOne : PublicKey :=
      { x := 0x79be667ef9dcbbac55a06295ce870b07029bfcdb2dce28d959f2815b16f81798
        y := 0x483ada7726a3c4655da4fbfc0e1108a8fd17b448a68554199c47d08ffb10d4b8
        compressed := true
        onCurve := Secp256k1.Point.g_onCurve }
    let pubTwo : PublicKey :=
      { x := 0xc6047f9441ed7d6d3045406e95c07cd85c778e4b8cef3ca7abac09b95c709ee5
        y := 0x1ae168fea63dc339a3c58419466ceaeef7f632653266d0e1236431a950cfe52a
        compressed := true
        onCurve := by decide +kernel }
    let script : Script := ⟨0x52 :: 33 :: (pubOne.toBytes ++ 33 :: (pubTwo.toBytes ++
      33 :: (pubOne.toBytes ++ [0x53, 0xae])))⟩
    let input : TxInput :=
      { sourceId := ⟨List.replicate 32 1, rfl⟩
        sourceIndex := 0
        source := some ⟨1000, Lock.p2sh script⟩ }
    let tx : Transaction := { inputs := [input], lockTime := 3 }
    [one, two, one].mapM PrivateKey.publicKey = .ok [pubOne, pubTwo, pubOne] ∧
      Lock.multisig 2 [pubOne, pubTwo, pubOne] = .ok script ∧
      ∃ tx', tx.signInput 0 (.multisig [one, one] ⟨0xc2⟩ (some script)) = .ok tx' ∧
        tx'.verifyInput 0 ⟨1000, Lock.p2sh script⟩ .standard = .ok () := by
  intro one two pubOne pubTwo script input tx
  have hpointOne : Secp256k1.Point.g.mul 1 = pubOne.point := by decide +kernel
  have hpointTwo : Secp256k1.Point.g.mul 2 = pubTwo.point := by decide +kernel
  have hone : one.publicKey = .ok pubOne := PublicKey.ofPoint_eq_ok_iff.2 ⟨hpointOne, rfl⟩
  have htwo : two.publicKey = .ok pubTwo := PublicKey.ofPoint_eq_ok_iff.2 ⟨hpointTwo, rfl⟩
  have hlock : Lock.multisig 2 [pubOne, pubTwo, pubOne] = .ok script :=
    Fallible.toOption_eq_some.1 (by decide +kernel)
  have hlength : script.length ≤ 520 := by decide +kernel
  have hsource : tx.sourceOutput 0 = .ok ⟨1000, Lock.p2sh script⟩ := rfl
  have hdigest : tx.inputHash 0 ⟨0xc2⟩ (some script) = .ok (Bytes.ofNatBE 32
      0xeb091dcbe2a8ff4f539295a1bbfb340a66faafb4ac4e199828b08d032a8fe3d9) :=
    Fallible.toOption_eq_some.1 (by decide +kernel)
  have hk : Rfc6979.candidate 1 (Bytes.ofNatBE 32
      0xeb091dcbe2a8ff4f539295a1bbfb340a66faafb4ac4e199828b08d032a8fe3d9) 0 =
      0x8184b7b73484628b67d12dd783a6e8a78de1804f8bfe4dded7c51021bf139f1e := by
    rw [Rfc6979.candidate, hmacSha256_eq]
    decide +kernel
  obtain ⟨sig, hsig⟩ : ∃ sig, Ecdsa.sign (Bytes.ofNatBE 32
      0xeb091dcbe2a8ff4f539295a1bbfb340a66faafb4ac4e199828b08d032a8fe3d9) (some one) = .ok sig :=
    Ecdsa.exists_sign_of_candidate rfl hk (by decide) (by decide +kernel)
  have hsigned : Unlocker.signature one tx 0 (some script) ⟨0xc2⟩ = .ok _ :=
    Unlocker.signature_eq_ok.2 ⟨_, sig, hdigest, hsig, rfl⟩
  obtain ⟨u, hu⟩ : ∃ u, Unlocker.sign (.multisig [one, one] ⟨0xc2⟩ (some script)) tx 0 = .ok u := by
    refine Unlocker.exists_sign_multisig_p2sh (List.cons_ne_nil _ _) ?_
      (hlength.trans_lt (by decide))
    exact List.forall_mem_cons.2 ⟨⟨_, hsigned⟩, List.forall_mem_singleton.2 ⟨_, hsigned⟩⟩
  have hsign : tx.signInput 0 (.multisig [one, one] ⟨0xc2⟩ (some script)) = .ok (tx.unlock 0 u) :=
    bind_eq_ok.2 ⟨u, hu, rfl⟩
  have hkeys : [one, two, one].length ≤ 20 := by decide
  have hsub : [one, one].Sublist [one, two, one] := .cons_cons one (.cons two (.refl [one]))
  have htype : (⟨0xc2⟩ : SighashType).bits ∈ [0x41, 0x42, 0x43, 0xc1, 0xc2, 0xc3] := by decide
  have hp2sh : Flags.standard.has .p2sh := by decide
  have hforkId : Flags.standard.has .forkId := by decide
  obtain ⟨pubs, found, hpubs, hfound, hverify⟩ :=
    verifyInput_signInput_multisig hkeys (List.cons_ne_nil _ _) hsub htype hp2sh hforkId
  have hpublic : [one, two, one].mapM PrivateKey.publicKey = .ok [pubOne, pubTwo, pubOne] := by
    simp [hone, htwo, bind, Except.bind, pure, Except.pure]
  obtain rfl : [pubOne, pubTwo, pubOne] = pubs := Except.ok.inj (hpublic.symm.trans hpubs)
  obtain rfl : script = found := Except.ok.inj (hlock.symm.trans hfound)
  exact ⟨hpublic, hlock, _, hsign, hverify _ _ _ _ _ _ (.inr ⟨hlength, rfl, rfl⟩) hsource hsign⟩

end Transaction

end BitcoinCash

import BitcoinCash.Proofs.Ecdsa.Nonce
import BitcoinCash.Proofs.Ecdsa.Recover

namespace BitcoinCash

open Secp256k1

namespace Signature

variable {sig : Signature}

theorem toLowS_r : sig.toLowS.r = sig.r := by
  rw [toLowS]
  split <;> rfl

/-- Components in range, the lesser of the two values of `s`, and one of four recovery ids. -/
structure IsCanonical (sig : Signature) : Prop where
  r : Ecdsa.InRange sig.r
  s_pos : 0 < sig.s
  s_le : sig.s ≤ halfN
  recoveryId : ∃ id, sig.recoveryId = some id ∧ id ≤ 3

theorem IsCanonical.s (h : sig.IsCanonical) : Ecdsa.InRange sig.s :=
  ⟨h.s_pos, h.s_le.trans_lt (by decide)⟩

theorem xor_one_le_three {id : UInt8} (h : id ≤ 3) : id ^^^ 1 ≤ 3 :=
  Ecdsa.of_le_three h (by decide)

theorem isCanonical_toLowS (hr : Ecdsa.InRange sig.r) (hs : Ecdsa.InRange sig.s)
    (hid : ∃ id, sig.recoveryId = some id ∧ id ≤ 3) : sig.toLowS.IsCanonical := by
  have hn : n = 2 * halfN + 1 := by decide
  obtain ⟨id, hid, hle⟩ := hid
  rw [toLowS, hasLowS]
  split
  · next hl => exact ⟨hr, hs.1, of_decide_eq_true hl, id, hid, hle⟩
  · next hl =>
    have hlow := of_decide_eq_false (Bool.not_eq_true _ ▸ hl)
    have hlt := hs.2
    exact ⟨hr, by dsimp only; omega, by dsimp only; omega, id ^^^ 1, by simp [hid],
      xor_one_le_three hle⟩

theorem noncePoint_sub_s (e : ℤ) (Q : curve.Point) (id : Option UInt8) :
    Ecdsa.noncePoint e { sig with s := n - sig.s, recoveryId := id } Q =
      -Ecdsa.noncePoint e sig Q := by
  simp only [Ecdsa.noncePoint, Scalar.cast_n_sub, div_neg, neg_smul, neg_add]

theorem noncePoint_toLowS (e : ℤ) (Q : curve.Point) :
    Ecdsa.noncePoint e sig.toLowS Q = Ecdsa.noncePoint e sig Q ∨
      Ecdsa.noncePoint e sig.toLowS Q = -Ecdsa.noncePoint e sig Q := by
  rw [toLowS]
  split
  · exact .inl rfl
  · exact .inr (noncePoint_sub_s e Q _)

theorem selects_toLowS {e : ℤ} {Q : curve.Point} {id : UInt8} (hid : sig.recoveryId = some id)
    (h : Ecdsa.Selects sig.r id (Ecdsa.noncePoint e sig Q)) :
    ∃ j, sig.toLowS.recoveryId = some j ∧
      Ecdsa.Selects sig.toLowS.r j (Ecdsa.noncePoint e sig.toLowS Q) := by
  rw [toLowS_r, toLowS]
  split
  · exact ⟨id, hid, h⟩
  · refine ⟨id ^^^ 1, by rw [hid]; rfl, ?_⟩
    rw [noncePoint_sub_s]
    exact h.neg

end Signature

namespace Ecdsa

/-- A nonce in range makes no signature, or one that leads back to the nonce's own point and says
so by its recovery id. -/
theorem signWith_cases (d e : ℤ) {k : ℤ} (hk : InRange k) :
    signWith d e k = .ok none ∨
      ∃ sig id, signWith d e k = .ok (some sig.toLowS) ∧ InRange sig.r ∧ InRange sig.s ∧
        sig.recoveryId = some id ∧ Selects sig.r id ((k : Fn) • Point.generator) ∧
        noncePoint e sig ((d : Fn) • Point.generator) = (k : Fn) • Point.generator := by
  rw [signWith, Point.mul_generator]
  cases hR : Point.ofGroup ((k : Fn) • Point.generator) with
  | infinity => exact .inl rfl
  | affine x y =>
    obtain ⟨w, hw, -, hwk⟩ := inverse_eq_ok hk
    simp only [hw, bind, Except.bind]
    split
    · exact .inl rfl
    · next h0 =>
      rw [not_or] at h0
      have hr := Int.emod_nonneg x n_pos.ne'
      have hs := Int.emod_nonneg (w * (e + d * (x % n))) n_pos.ne'
      have hsr : InRange (w * (e + d * (x % n)) % n) :=
        ⟨hs.lt_of_ne (Ne.symm h0.2), Int.emod_lt_of_pos _ n_pos⟩
      refine .inr ⟨_, pointId x y, rfl, ⟨hr.lt_of_ne (Ne.symm h0.1), Int.emod_lt_of_pos x n_pos⟩,
        hsr, rfl, ⟨x, y, hR, rfl, rfl⟩, ?_⟩
      have hk0 := cast_ne_zero hk
      have hs0 := cast_ne_zero hsr
      have hsk : ((w * (e + d * (x % n)) % n : ℤ) : Fn) * k = e + d * (x % n : ℤ) := by
        rw [Scalar.cast_emod, Int.cast_mul, hwk, Int.cast_add, Int.cast_mul]
        field_simp
      rw [noncePoint, smul_smul, ← add_smul]
      congr 1
      field_simp
      linear_combination -hsk

theorem signWith_of_inRange (d e : ℤ) {k : ℤ} (hk : InRange k) :
    signWith d e k = .ok none ∨
      ∃ sig, signWith d e k = .ok (some sig.toLowS) ∧ InRange sig.r ∧ InRange sig.s ∧
        (∃ id, sig.recoveryId = some id ∧ id ≤ 3) ∧ HasX ((k : Fn) • Point.generator) sig.r ∧
        noncePoint e sig ((d : Fn) • Point.generator) = (k : Fn) • Point.generator := by
  rcases signWith_cases d e hk with hnone | ⟨sig, id, hsig, hr, hs, hid, hP, hpoint⟩
  · exact .inl hnone
  · exact .inr ⟨sig, hsig, hr, hs, ⟨id, hid, hP.le_three⟩, hP.hasX, hpoint⟩

/-- No candidate within reach of the retry counter makes a signature. -/
def NoncesSpoiled (d : ℤ) (digest : Bytes) : Prop :=
  ∃ t, ratchet d digest = .ok t ∧ ∀ i < counterLimit, InRange (t.candidateAt i) →
    signWith d (Integer.ofBytes digest .big) (t.candidateAt i) = .ok none

def Spoiled (d : ℤ) (digest : Bytes) (c : ℕ) : Prop :=
  ∃ k, deterministicNonce d digest (UInt32.ofNat c) = .ok k ∧
    signWith d (Integer.ofBytes digest .big) k = .ok none

inductive Ends (d : ℤ) (digest : Bytes) (c : ℕ) : Except CryptoError Signature → Prop
  | signed {k : ℤ} {sig : Signature} (hc : c < counterLimit)
      (hk : deterministicNonce d digest (UInt32.ofNat c) = .ok k)
      (hsig : signWith d (Integer.ofBytes digest .big) k = .ok (some sig)) :
      Ends d digest c (.ok sig)
  | exhausted (h : ∀ k, c < counterLimit → deterministicNonce d digest (UInt32.ofNat c) ≠ .ok k) :
      Ends d digest c (.error .nonceExhausted)

/-- The retries go on from the one after `skip` candidates, each with a nonce that makes no
signature, up to one that makes one or for which there is no nonce. -/
theorem exists_ends_of_signFrom {d : ℤ} {digest : Bytes} {t : Ratchet}
    (ht : ratchet d digest = .ok t) (limit skip : ℕ) (hlimit : skip + limit = counterLimit) :
    ∃ last, skip ≤ last ∧ last ≤ counterLimit ∧ (∀ c, skip ≤ c → c < last → Spoiled d digest c) ∧
      Ends d digest last (signFrom d digest limit (UInt32.ofNat skip)) := by
  induction limit generalizing skip with
  | zero => exact ⟨skip, le_rfl, by omega, by omega, .exhausted (by omega)⟩
  | succ limit ih =>
    rw [signFrom]
    cases hnonce : deterministicNonce d digest (UInt32.ofNat skip) with
    | error e =>
      obtain ⟨rfl, -⟩ := deterministicNonce_eq_error ht hnonce
      refine ⟨skip, le_rfl, by omega, by omega, .exhausted ?_⟩
      intro k _ hk
      cases hnonce.symm.trans hk
    | ok k =>
      obtain ⟨j, -, hj, rfl⟩ := (deterministicNonce_eq_ok ht).1 hnonce
      rcases signWith_of_inRange d (Integer.ofBytes digest .big) hj.1.2 with hnone | ⟨sig, hsig, -⟩
      · have hnext : UInt32.ofNat skip + 1 = UInt32.ofNat (skip + 1) := by
          rw [UInt32.ofNat_add]
          rfl
        obtain ⟨last, hskip, hlast, hspoiled, hends⟩ := ih (skip + 1) (by omega)
        refine ⟨last, by omega, hlast, ?_, ?_⟩
        · intro c hc hclast
          by_cases hcs : c = skip
          · rw [hcs]
            exact ⟨_, hnonce, hnone⟩
          · exact hspoiled c (by omega) hclast
        · simpa only [hnone, hnext, bind, Except.bind] using hends
      · refine ⟨skip, le_rfl, by omega, by omega, ?_⟩
        simp only [hsig, bind, Except.bind]
        exact .signed (by omega) hnonce hsig

theorem signFrom_of_inRange {d : ℤ} {digest : Bytes} {t : Ratchet}
    (ht : ratchet d digest = .ok t) (limit skip : ℕ) (hlimit : skip + limit = counterLimit)
    (hspoiled : ∀ i < skip, InRange (t.candidateAt i) →
      signWith d (Integer.ofBytes digest .big) (t.candidateAt i) = .ok none) :
    (∃ k sig, InRange k ∧ signWith d (Integer.ofBytes digest .big) k = .ok (some sig) ∧
      signFrom d digest limit (UInt32.ofNat skip) = .ok sig) ∨
    signFrom d digest limit (UInt32.ofNat skip) = .error .nonceExhausted ∧
      NoncesSpoiled d digest := by
  obtain ⟨last, -, -, hbefore, hends⟩ := exists_ends_of_signFrom ht limit skip hlimit
  generalize signFrom d digest limit (UInt32.ofNat skip) = outcome at hends ⊢
  cases hends with
  | signed hc hk hsig =>
    obtain ⟨j, -, hj, rfl⟩ := (deterministicNonce_eq_ok ht).1 hk
    exact .inl ⟨_, _, hj.1.2, hsig, rfl⟩
  | exhausted hnone =>
    refine .inr ⟨rfl, t, ht, ?_⟩
    intro i hi hr
    by_cases hskip : i < skip
    · exact hspoiled i hskip hr
    have hlast := lt_of_deterministicNonce_ne_ok ht hnone hi hr
    obtain ⟨k, hk, hsig⟩ := hbefore i (not_lt.1 hskip) hlast
    cases (deterministicNonce_of_inRange ht hi hr).symm.trans hk
    exact hsig

theorem sign_of_nonce {key : PrivateKey} {digest : Bytes} {o : ByteOrder} {k : ℤ} {sig : Signature}
    (hdigest : digest.length = 32)
    (hk : deterministicNonce key.scalar (o.arrange digest) 0 = .ok k)
    (hsig : signWith key.scalar (Integer.ofBytes (o.arrange digest) .big) k = .ok (some sig)) :
    sign digest (some key) o = .ok sig := by
  obtain ⟨limit, hlimit⟩ := Nat.exists_eq_add_one_of_ne_zero (show counterLimit ≠ 0 by decide)
  rw [sign, digest?, if_pos hdigest, hlimit]
  simp only [signFrom, hk, hsig, bind, Except.bind]
  rfl

/-- What a signer returns leads back to the signer's own point. -/
theorem sign_spec {key : PrivateKey} {digest : Bytes} {o : ByteOrder} {sig : Signature}
    (hsign : sign digest (some key) o = .ok sig) :
    ∃ h id, digest? digest o = some h ∧ sig.IsCanonical ∧ sig.recoveryId = some id ∧
      Selects sig.r id (noncePoint (Integer.ofBytes h .big) sig
        ((key.scalar : Fn) • Point.generator)) := by
  unfold sign at hsign
  split at hsign
  next => cases hsign
  next h hd =>
    obtain ⟨t, ht⟩ := ratchet_eq_ok ⟨key.pos, key.lt⟩ h
    rcases signFrom_of_inRange ht counterLimit 0 (by omega) (by omega) with
      ⟨k, found, hk, hwith, hfrom⟩ | ⟨hnone, -⟩
    · obtain rfl : found = sig := Except.ok.inj (hfrom.symm.trans hsign)
      rcases signWith_cases key.scalar (Integer.ofBytes h .big) hk with
        hno | ⟨sig, id, hyes, hr, hs, hid, hP, hpoint⟩
      · cases hno.symm.trans hwith
      · cases hyes.symm.trans hwith
        rw [← hpoint] at hP
        obtain ⟨j, hj, hselects⟩ := sig.selects_toLowS hid hP
        exact ⟨h, j, hd, Signature.isCanonical_toLowS hr hs ⟨id, hid, hP.le_three⟩, hj, hselects⟩
    · cases hnone.symm.trans hsign

/-- A signer returns a canonical signature that is accepted for its public key, unless the retry
counter runs out. -/
theorem verify_sign (key : PrivateKey) (digest : Bytes) (hdigest : digest.length = 32)
    (o : ByteOrder) :
    ∃ pub, key.publicKey = .ok pub ∧
      ((∃ sig, sign digest (some key) o = .ok sig ∧ sig.IsCanonical ∧
          verify digest sig pub o = .ok ()) ∨
        sign digest (some key) o = .error .nonceExhausted ∧
          NoncesSpoiled key.scalar (o.arrange digest)) := by
  obtain ⟨pub, hpub, hgroup, -⟩ := key.publicKey_eq_ok
  have hd : digest? digest o = some (o.arrange digest) := if_pos hdigest
  obtain ⟨t, ht⟩ := ratchet_eq_ok ⟨key.pos, key.lt⟩ (o.arrange digest)
  have hsign : sign digest (some key) o =
      signFrom key.scalar (o.arrange digest) counterLimit (UInt32.ofNat 0) := by
    rw [sign, hd]
    rfl
  refine ⟨pub, hpub, ?_⟩
  rw [hsign]
  rcases signFrom_of_inRange ht counterLimit 0 (by omega) (by omega) with
    ⟨k, _, hk, hsig, hfrom⟩ | hnone
  · left
    rcases signWith_of_inRange key.scalar (Integer.ofBytes (o.arrange digest) .big) hk with
      hno | ⟨sig, hyes, hr, hs, hid, hx, hpoint⟩
    · rw [hno] at hsig
      cases hsig
    · rw [hyes] at hsig
      cases hsig
      have hlow := Signature.isCanonical_toLowS hr hs hid
      have hin : InRange sig.toLowS.s := ⟨hlow.s_pos, hlow.s_le.trans_lt (by decide)⟩
      refine ⟨_, hfrom, hlow, (verify_eq_ok_iff hd _ _).2 ⟨hlow.r, hin, ?_⟩⟩
      rw [hgroup, sig.toLowS_r]
      rcases sig.noncePoint_toLowS (Integer.ofBytes (o.arrange digest) .big)
        ((key.scalar : Fn) • Point.generator) with he | he
      · rwa [he, hpoint]
      · rw [he, hpoint]
        exact hasX_neg hx
  · exact .inr hnone

theorem verify_sign_one :
    (List.replicate 32 0xff : Bytes).length = 32 ∧
      ∃ pub, (⟨1, false, by decide, by decide⟩ : PrivateKey).publicKey = .ok pub ∧
        ((∃ sig, sign (List.replicate 32 0xff) (some ⟨1, false, by decide, by decide⟩) .little =
              .ok sig ∧ sig.IsCanonical ∧
            verify (List.replicate 32 0xff) sig pub .little = .ok ()) ∨
          sign (List.replicate 32 0xff) (some ⟨1, false, by decide, by decide⟩) .little =
              .error .nonceExhausted ∧
            NoncesSpoiled 1 (ByteOrder.little.arrange (List.replicate 32 0xff))) :=
  ⟨rfl, verify_sign ⟨1, false, by decide, by decide⟩ (List.replicate 32 0xff) rfl .little⟩

end Ecdsa

end BitcoinCash

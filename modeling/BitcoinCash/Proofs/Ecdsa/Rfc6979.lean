import BitcoinCash.Proofs.Digest.Sha256
import BitcoinCash.Proofs.Ecdsa.Sign

namespace BitcoinCash

namespace Rfc6979

section Generator

variable (hmac : Bytes → Bytes → Bytes)

/-- The key and the value after the steps b to g, from the octets of the secret and the digest. -/
def seed (x h : Bytes) : Bytes × Bytes :=
  let v := List.replicate 32 0x01
  let k := hmac (List.replicate 32 0x00) (v ++ [0x00] ++ x ++ h)
  let v := hmac k v
  let k := hmac k (v ++ [0x01] ++ x ++ h)
  (k, hmac k v)

/-- One pass of step h, which starts with the key `k` and the value `v`: the candidate's octets, and
the key and the value for the next pass. -/
def pass (k v : Bytes) : Bytes × Bytes × Bytes :=
  let v := hmac k v
  let k := hmac k (v ++ [0x00])
  (v, k, hmac k v)

def octets (k v : Bytes) : ℕ → Bytes
  | 0 => (pass hmac k v).1
  | j + 1 => octets (pass hmac k v).2.1 (pass hmac k v).2.2 j

end Generator

/-- The candidate after `j` others for the secret `d` and a digest, which is reduced modulo the
order. Candidates have as many bits as the order. -/
def candidate (d : ℤ) (digest : Bytes) (j : ℕ) : ℤ :=
  let x := Bytes.ofNatBE 32 d.toNat
  let h := Bytes.ofNatBE 32 (Integer.ofBytes digest .big % Secp256k1.n).toNat
  let start := seed hmacSha256 x h
  Integer.ofBytes (octets hmacSha256 start.1 start.2 j) .big

theorem candidate_one : candidate 1
      (Bytes.ofNatBE 32 0x12639e61fc32478079b1dc1d2324f4602c0842e83a2be1d260b9d486700b0d20) 0 =
    0xf357cccd07efd1786bc5d94514bfc7728146fe83bd5773c765be6eae71418ba2 := by
  rw [candidate, hmacSha256_eq]
  decide +kernel

end Rfc6979

namespace Ratchet

/-- The ratchet turned from a key and a value is at the candidate of a pass, and the next one at
that of the next pass. -/
theorem value_iterate (k v : Bytes) (j : ℕ) :
    (next^[j] (turn ⟨k, v⟩)).value = Rfc6979.octets hmacSha256 k v j := by
  induction j generalizing k v with
  | zero => rfl
  | succ j ih =>
    rw [Function.iterate_succ_apply, Rfc6979.octets, ← ih]
    rfl

theorem start_eq (x h : Bytes) :
    start x h = turn ⟨(Rfc6979.seed hmacSha256 x h).1, (Rfc6979.seed hmacSha256 x h).2⟩ := by
  simp only [start, rekey, Rfc6979.seed, List.append_assoc, List.cons_append, List.nil_append]

end Ratchet

namespace Ecdsa

variable {d k : ℤ} {digest : Bytes} {t : Ratchet}

theorem candidateAt_of_ratchet (h0 : 0 ≤ d) (hd : d < 256 ^ 32) (ht : ratchet d digest = .ok t) :
    t.candidateAt = Rfc6979.candidate d digest := by
  obtain rfl := Except.ok.inj (ht.symm.trans (ratchet_eq h0 hd digest))
  funext j
  rw [Ratchet.candidateAt, Ratchet.candidate, Ratchet.start_eq, Ratchet.value_iterate]
  rfl

/-- The nonces after fewer than `count` rejected candidates, told by their places: these never go
back, and none in range is passed over. -/
structure Retries (d : ℤ) (digest : Bytes) (count : ℕ) (place : ℕ → ℕ) : Prop where
  nonce : ∀ c < count, deterministicNonce d digest (UInt32.ofNat c) =
    .ok (Rfc6979.candidate d digest (place c))
  monotone : ∀ b c, b ≤ c → c < count → place b ≤ place c
  covers : ∀ c < count, ∀ j ≤ place c, InRange (Rfc6979.candidate d digest j) →
    ∃ b ≤ c, place b = j

/-- What signing with one candidate after the other comes to: the signature by the last of them,
where those before make none, or an error once all in range within reach make none. -/
inductive Settles (d : ℤ) (digest : Bytes) (place : ℕ → ℕ) :
    (count : ℕ) → Except CryptoError Signature → Prop
  | signed {last : ℕ} {sig : Signature}
      (hrejected : ∀ c < last, signWith d (Integer.ofBytes digest .big)
        (Rfc6979.candidate d digest (place c)) = .ok none)
      (hsig : signWith d (Integer.ofBytes digest .big) (Rfc6979.candidate d digest (place last)) =
        .ok (some sig)) : Settles d digest place (last + 1) (.ok sig)
  | exhausted {count : ℕ}
      (hrejected : ∀ c < count, signWith d (Integer.ofBytes digest .big)
        (Rfc6979.candidate d digest (place c)) = .ok none)
      (hall : ∀ j < counterLimit, InRange (Rfc6979.candidate d digest j) →
        ∃ c < count, place c = j) : Settles d digest place count (.error .nonceExhausted)

noncomputable def nonceAt (d : ℤ) (digest : Bytes) (c : ℕ) : ℕ :=
  sInf (inRangeFrom (Rfc6979.candidate d digest) c)

section Places

variable {c count : ℕ} (h0 : 0 ≤ d) (hd : d < 256 ^ 32)
include h0 hd

theorem deterministicNonce_eq_ok_iff {skip : UInt32} :
    deterministicNonce d digest skip = .ok k ↔ ∃ j < counterLimit,
      IsLeast {j | skip.toNat ≤ j ∧ InRange (Rfc6979.candidate d digest j)} j ∧
        k = Rfc6979.candidate d digest j := by
  have ht := ratchet_eq h0 hd digest
  rw [deterministicNonce_eq_ok ht, candidateAt_of_ratchet h0 hd ht]
  rfl

theorem nonceAt_spec (hc : c < counterLimit)
    (hk : deterministicNonce d digest (UInt32.ofNat c) = .ok k) :
    IsLeast (inRangeFrom (Rfc6979.candidate d digest) c) (nonceAt d digest c) ∧
      k = Rfc6979.candidate d digest (nonceAt d digest c) := by
  obtain ⟨j, -, hleast, rfl⟩ := (deterministicNonce_eq_ok_iff h0 hd).1 hk
  rw [toNat_ofNat_of_lt hc] at hleast
  have hj : nonceAt d digest c = j := hleast.csInf_eq
  rw [hj]
  exact ⟨hleast, rfl⟩

theorem deterministicNonce_of_candidate (hk : Rfc6979.candidate d digest 0 = k) (hr : InRange k) :
    deterministicNonce d digest 0 = .ok k := by
  rw [← hk] at hr
  exact (deterministicNonce_eq_ok_iff h0 hd).2
    ⟨0, by decide, isLeast_inRangeFrom_self hr, hk.symm⟩

theorem retries_nonceAt (hcount : count ≤ counterLimit)
    (h : ∀ c < count, ∃ k, deterministicNonce d digest (UInt32.ofNat c) = .ok k) :
    Retries d digest count (nonceAt d digest) := by
  have hleast {c : ℕ} (hc : c < count) :
      IsLeast (inRangeFrom (Rfc6979.candidate d digest) c) (nonceAt d digest c) := by
    obtain ⟨k, hk⟩ := h c hc
    exact (nonceAt_spec h0 hd (hc.trans_le hcount) hk).1
  refine ⟨?_, ?_, ?_⟩
  · intro c hc
    obtain ⟨k, hk⟩ := h c hc
    rw [hk, (nonceAt_spec h0 hd (hc.trans_le hcount) hk).2]
  · intro b c hbc hc
    exact le_of_isLeast_inRangeFrom (hleast (hbc.trans_lt hc)) (hleast hc) hbc
  · intro c hc j hj hr
    obtain ⟨b, hb, hbj⟩ := exists_isLeast_inRangeFrom (hleast hc) hj hr
    exact ⟨b, hb, (hleast (hb.trans_lt hc)).unique hbj⟩

theorem signWith_of_spoiled (hc : c < counterLimit) (h : Spoiled d digest c) :
    signWith d (Integer.ofBytes digest .big)
      (Rfc6979.candidate d digest (nonceAt d digest c)) = .ok none := by
  obtain ⟨k, hk, hsig⟩ := h
  rwa [(nonceAt_spec h0 hd hc hk).2] at hsig

theorem settles_of_ends {last : ℕ} {outcome : Except CryptoError Signature}
    (hlast : last ≤ counterLimit) (hspoiled : ∀ c < last, Spoiled d digest c)
    (hends : Ends d digest last outcome) :
    ∃ count, Retries d digest count (nonceAt d digest) ∧
      Settles d digest (nonceAt d digest) count outcome := by
  have hrejected (c : ℕ) (hc : c < last) :=
    signWith_of_spoiled h0 hd (hc.trans_le hlast) (hspoiled c hc)
  have hnonce (c : ℕ) (hc : c < last) :
      ∃ k, deterministicNonce d digest (UInt32.ofNat c) = .ok k := by
    obtain ⟨k, hk, -⟩ := hspoiled c hc
    exact ⟨k, hk⟩
  cases hends with
  | signed hlt hk hsig =>
    rw [(nonceAt_spec h0 hd hlt hk).2] at hsig
    refine ⟨last + 1, retries_nonceAt h0 hd hlt ?_, .signed hrejected hsig⟩
    intro c hc
    rcases Nat.lt_succ_iff_lt_or_eq.1 hc with hbefore | rfl
    · exact hnonce c hbefore
    · exact ⟨_, hk⟩
  | exhausted hnone =>
    refine ⟨last, retries_nonceAt h0 hd hlast hnonce, .exhausted hrejected ?_⟩
    intro j hj hr
    have ht := ratchet_eq h0 hd digest
    have hreached : j < last := by
      refine lt_of_deterministicNonce_ne_ok ht hnone hj ?_
      rwa [candidateAt_of_ratchet h0 hd ht]
    obtain ⟨k, hk⟩ := hnonce j hreached
    exact ⟨j, hreached, (nonceAt_spec h0 hd hj hk).1.unique (isLeast_inRangeFrom_self hr)⟩

end Places

theorem exists_sign_of_candidate {key : PrivateKey} {o : ByteOrder} (hdigest : digest.length = 32)
    (hk : Rfc6979.candidate key.scalar (o.arrange digest) 0 = k) (hr : InRange k)
    (hsig : (signWith key.scalar (Integer.ofBytes (o.arrange digest) .big) k).toOption ≠
      some none) :
    ∃ sig, sign digest (some key) o = .ok sig := by
  have hnonce := deterministicNonce_of_candidate key.pos.le (key.lt.trans (by decide)) hk hr
  rcases signWith_of_inRange key.scalar (Integer.ofBytes (o.arrange digest) .big) hr with
    hnone | ⟨sig, hsome, -⟩
  · exact absurd (congrArg Except.toOption hnone) hsig
  · exact ⟨_, sign_of_nonce hdigest hnonce hsome⟩

/-- The nonce after some candidates is the first in range of those that are left, and there is one
as long as the counter reaches it. A signer who takes the nonces after no candidate, after one, and
so on tries the candidates in their order, each of those in range, up to the one that signs. -/
theorem nonces_eq_candidates :
    (∀ (d : ℤ) (digest : Bytes) (skip : UInt32) (k : ℤ), 0 ≤ d → d < 256 ^ 32 →
      (deterministicNonce d digest skip = .ok k ↔ ∃ j < counterLimit,
        IsLeast {j | skip.toNat ≤ j ∧ InRange (Rfc6979.candidate d digest j)} j ∧
          k = Rfc6979.candidate d digest j) ∧
      (deterministicNonce d digest skip = .ok k → InRange k)) ∧
    ∀ (key : PrivateKey) (digest : Bytes) (o : ByteOrder), digest.length = 32 →
      ∃ count place, Retries key.scalar (o.arrange digest) count place ∧
        Settles key.scalar (o.arrange digest) place count (sign digest (some key) o) := by
  constructor
  · intro d digest skip k h0 hd
    refine ⟨deterministicNonce_eq_ok_iff h0 hd, ?_⟩
    intro hk
    obtain ⟨j, -, hleast, rfl⟩ := (deterministicNonce_eq_ok_iff h0 hd).1 hk
    exact hleast.1.2
  · intro key digest o hdigest
    have h0 : 0 ≤ key.scalar := Int.le_of_lt key.pos
    have hd : key.scalar < 256 ^ 32 := key.lt.trans (by decide)
    have ht := ratchet_eq h0 hd (o.arrange digest)
    have hsign : sign digest (some key) o =
        signFrom key.scalar (o.arrange digest) counterLimit (UInt32.ofNat 0) := by
      rw [sign, digest?, if_pos hdigest]
      rfl
    obtain ⟨last, -, hlast, hspoiled, hends⟩ := exists_ends_of_signFrom ht counterLimit 0 (by omega)
    obtain ⟨count, hretries, hsettles⟩ := settles_of_ends h0 hd hlast
      (fun c hc ↦ hspoiled c (Nat.zero_le c) hc) hends
    rw [hsign]
    exact ⟨count, _, hretries, hsettles⟩

theorem nonces_eq_candidates_one :
    let digest : Bytes :=
      Bytes.ofNatBE 32 0x12639e61fc32478079b1dc1d2324f4602c0842e83a2be1d260b9d486700b0d20
    let key : PrivateKey := ⟨1, true, by decide, by decide⟩
    let k : ℤ := 0xf357cccd07efd1786bc5d94514bfc7728146fe83bd5773c765be6eae71418ba2
    deterministicNonce 1 digest 0 = .ok k ∧ InRange k ∧
      ∃ count place, Retries 1 digest count place ∧
        Settles 1 digest place count (sign digest (some key)) := by
  intro digest key k
  have hk : deterministicNonce 1 digest 0 = .ok k :=
    deterministicNonce_of_candidate (by decide) (by decide) Rfc6979.candidate_one (by decide)
  exact ⟨hk, (nonces_eq_candidates.1 1 digest 0 k (by decide) (by decide)).2 hk,
    nonces_eq_candidates.2 key digest .big rfl⟩

end Ecdsa

end BitcoinCash

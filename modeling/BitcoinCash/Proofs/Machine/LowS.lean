import BitcoinCash.Proofs.Ecdsa.Signer
import BitcoinCash.Proofs.Machine.StrictDer

namespace BitcoinCash

open Secp256k1 (halfN)

variable {b : Bytes} {r s : ℤ} {sig : Signature} {flags : Flags}

namespace Der

/-- The sequence `b` holds the numbers `r` and `s`, the most significant byte of each first. -/
def Holds (b : Bytes) (r s : ℤ) : Prop :=
  ∃ x y, b = sequence x y ∧ Integer.ofBytes x .big = r ∧ Integer.ofBytes y .big = s

theorem holds_toDer (hr : 0 ≤ sig.r) (hs : 0 ≤ sig.s) : Holds sig.toDer sig.r sig.s :=
  ⟨integer sig.r, integer sig.s, rfl, Signature.ofBytes_integer hr, Signature.ofBytes_integer hs⟩

end Der

namespace Encoding

open Der (Holds)

/-- A string in strict DER holds two numbers that are not negative, is what is written for them, and
holds no others. -/
theorem exists_holds_of_checkDer (h : checkDer b = .ok ()) :
    ∃ r s, Holds b r s ∧ 0 ≤ r ∧ 0 ≤ s ∧ b = Signature.toDer { r, s } ∧
      ∀ r' s', Holds b r' s' → r' = r ∧ s' = s := by
  obtain ⟨hlen, r, s, hr, hs, rfl⟩ := checkDer_eq_ok.1 h
  refine ⟨r, s, Der.holds_toDer hr hs, hr, hs, rfl, ?_⟩
  rintro r' s' ⟨x, y, heq, rfl, rfl⟩
  have hxy := Der.length_sequence x y
  have hrs := Der.length_sequence (Der.integer r) (Der.integer s)
  rw [Signature.toDer, Der.encode_eq] at heq hlen
  dsimp only at heq hlen
  rw [heq] at hlen hrs
  obtain ⟨rfl, rfl⟩ := Der.sequence_inj heq.symm (by omega) (by omega)
  exact ⟨Signature.ofBytes_integer hr, Signature.ofBytes_integer hs⟩

/-- The rule is met exactly if `s`, of whatever length, is at most half the order. -/
theorem hasLowS_of_holds (h : checkDer b = .ok ()) (hb : Holds b r s) :
    hasLowS b = .ok (decide (s ≤ halfN)) := by
  obtain ⟨x, y, rfl, -, rfl⟩ := hb
  have hlen := length_le_of_checkDer h
  rw [Der.length_sequence] at hlen
  exact hasLowS_sequence (by omega) (by omega)

theorem checkBareSignature_toDer (hsig : sig.IsCanonical) :
    checkBareSignature flags sig.toDer = .ok () := by
  have hlen := (Signature.length_toDer hsig.r hsig.s).2
  have hder : checkDer sig.toDer = .ok () :=
    checkDer_eq_ok.2 ⟨hlen, sig.r, sig.s, hsig.r.1.le, hsig.s.1.le, rfl⟩
  refine checkBareSignature_eq_ok.2 fun _ ↦ ⟨fun _ ↦ hder, fun _ ↦ ?_⟩
  rw [hasLowS_of_holds hder (Der.holds_toDer hsig.r.1.le hsig.s.1.le), decide_eq_true hsig.s_le]

/-- A string in strict DER holds two numbers, and their second decides by its bytes on the low `s`,
as it does in the signature that is read where both are in range; and what a signer makes passes
under all rules. -/
theorem lowS_agrees :
    (∀ b, checkDer b = .ok () → (∃ r s, Holds b r s) ∧ ∀ r s, Holds b r s →
      hasLowS b = .ok (decide (s ≤ halfN)) ∧
        (Ecdsa.InRange r → Ecdsa.InRange s →
          ∃ sig, Signature.ofDer b = .ok sig ∧ sig.r = r ∧ sig.s = s ∧
            hasLowS b = .ok sig.hasLowS)) ∧
    ∀ (digest : Bytes) (key : PrivateKey) (o : ByteOrder) (sig : Signature),
      Ecdsa.sign digest (some key) o = .ok sig →
        ∀ flags, checkBareSignature flags sig.toDer = .ok () := by
  constructor
  · intro b hcheck
    obtain ⟨r, s, hholds, hr, hs, hb, hunique⟩ := exists_holds_of_checkDer hcheck
    refine ⟨⟨r, s, hholds⟩, ?_⟩
    intro r' s' hholds'
    obtain ⟨rfl, rfl⟩ := hunique r' s' hholds'
    have hlow := hasLowS_of_holds hcheck hholds
    refine ⟨hlow, ?_⟩
    intro hrange hsrange
    refine ⟨{ r := r', s := s' }, ?_, rfl, rfl, hlow⟩
    rw [hb]
    exact Signature.ofDer_toDer hrange hsrange
  · intro digest key o sig hsign flags
    obtain ⟨-, -, -, hcanonical, -⟩ := Ecdsa.sign_spec hsign
    exact checkBareSignature_toDer hcanonical

theorem lowS_agrees_boundary :
    let der (s : ℤ) : Bytes := Signature.toDer { r := 1, s }
    hasLowS (der halfN) = .ok true ∧ hasLowS (der (halfN + 1)) = .ok false ∧
      hasLowS (der 0) = .ok true ∧ hasLowS (der (Secp256k1.n ^ 2)) = .ok false ∧
      ∃ digest key sig, Ecdsa.sign digest (some key) = .ok sig ∧
        ∀ flags, checkBareSignature flags sig.toDer = .ok () := by
  intro der
  have hlow {s : ℤ} (hs : 0 ≤ s) (hcheck : (checkDer (der s)).toOption = some ()) :
      hasLowS (der s) = .ok (decide (s ≤ halfN)) :=
    ((lowS_agrees.1 _ (Fallible.toOption_eq_some.1 hcheck)).2 1 s
      (Der.holds_toDer zero_le_one hs)).1
  exact ⟨hlow (by decide) (by decide +kernel), hlow (by decide) (by decide +kernel),
    hlow (by decide) (by decide +kernel), hlow (by decide) (by decide +kernel),
    _, _, _, Ecdsa.sign_one, lowS_agrees.2 _ _ _ _ Ecdsa.sign_one⟩

end Encoding

end BitcoinCash

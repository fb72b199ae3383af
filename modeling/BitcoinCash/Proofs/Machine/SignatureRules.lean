import BitcoinCash.Proofs.Machine.Encoding
import BitcoinCash.Proofs.Machine.SingleSig

namespace BitcoinCash

variable {env : Environment} {here : Place} {f g : Frame}

namespace Encoding

variable {flags : Flags} {sig : Bytes} {u : Unit}

/-- A signature that passes is empty, a type on its own or a body in strict DER with its type. -/
theorem exists_of_checkSignature (hrules : flags.hasAny [.derSignatures, .lowS, .strictEncoding])
    (h : checkSignature flags sig = .ok u) (hne : sig ≠ []) :
    ∃ body t, sig = body ++ [t] ∧ (flags.has .strictEncoding → checkHashType flags t = .ok ()) ∧
      (body ≠ [] → checkDer body = .ok () ∧ (flags.has .lowS → hasLowS body = .ok true)) := by
  obtain ⟨body, t, rfl⟩ := (List.eq_nil_or_concat' sig).resolve_left hne
  obtain ⟨hbody, htype⟩ := checkSignature_concat.1 h
  exact ⟨body, t, rfl, htype, fun hbody' ↦
    (checkBareSignature_eq_ok.1 hbody hbody').imp_left fun hder ↦ hder hrules⟩

end Encoding

namespace SignatureCheck

/-- The signature of a check that succeeds is empty or ends in its type, and what comes before the
type is in strict DER unless it is empty. -/
theorem exists_signature_of_checkOne
    (hrules : env.flags.hasAny [.derSignatures, .lowS, .strictEncoding])
    (h : checkOne env here f = .ok g) :
    ∃ key sig rest, f.data = key :: sig :: rest ∧ (sig ≠ [] → ∃ body t, sig = body ++ [t] ∧
      (env.has .strictEncoding → Encoding.checkHashType env.flags t = .ok ()) ∧
      (body ≠ [] → Encoding.checkDer body = .ok () ∧
        (env.has .lowS → Encoding.hasLowS body = .ok true))) := by
  obtain ⟨key, sig, rest, hdata, hsig, -⟩ := exists_of_checkOne h
  exact ⟨key, sig, rest, hdata, Encoding.exists_of_checkSignature hrules hsig⟩

theorem exists_signature_of_checkOne_ones :
    let env : Environment :=
      { flags := .derSignatures ||| .lowS ||| .strictEncoding
        context := some ⟨fun _ _ _ _ _ ↦ .ok false, 0, 1, fun _ ↦ 0⟩ }
    let key : Bytes := 2 :: List.replicate 32 2
    let body : Bytes := [0x30, 6, 2, 1, 1, 2, 1, 1]
    let f : Frame := .start [key, body ++ [1]]
    env.flags.hasAny [.derSignatures, .lowS, .strictEncoding] ∧
      checkOne env ⟨[⟨0xac, []⟩], 0⟩ f = .ok (f.withData [[]]) ∧
      ∃ key sig rest, f.data = key :: sig :: rest ∧ (sig ≠ [] → ∃ body t, sig = body ++ [t] ∧
        (env.has .strictEncoding → Encoding.checkHashType env.flags t = .ok ()) ∧
        (body ≠ [] → Encoding.checkDer body = .ok () ∧
          (env.has .lowS → Encoding.hasLowS body = .ok true))) := by
  intro env key body f
  have hrules : env.flags.hasAny [.derSignatures, .lowS, .strictEncoding] := by decide
  have h : checkOne env ⟨[⟨0xac, []⟩], 0⟩ f = .ok (f.withData [[]]) :=
    Fallible.toOption_eq_some.1 (by decide +kernel)
  exact ⟨hrules, h, exists_signature_of_checkOne hrules h⟩

/-- The rule on strict DER does not reach a type on its own, with which a check comes to its end
under all three rules. -/
theorem not_forall_checkDer_of_checkOne :
    ¬ ∀ (env : Environment) (here : Place) (f g : Frame),
      env.flags.hasAny [.derSignatures, .lowS, .strictEncoding] → checkOne env here f = .ok g →
        ∃ key sig rest, f.data = key :: sig :: rest ∧
          (sig = [] ∨ Encoding.checkDer sig.dropLast = .ok ()) := by
  intro hall
  let env : Environment :=
    { flags := .derSignatures ||| .lowS ||| .strictEncoding
      context := some ⟨fun _ _ _ _ _ ↦ .ok false, 0, 1, fun _ ↦ 0⟩ }
  let f : Frame := .start [2 :: List.replicate 32 2, [1]]
  have h : checkOne env ⟨[⟨0xac, []⟩], 0⟩ f = .ok (f.withData [[]]) :=
    Fallible.toOption_eq_some.1 (by decide +kernel)
  obtain ⟨key, sig, rest, hdata, hsig⟩ := hall env _ f _ (by decide) h
  obtain ⟨rfl, rfl, rfl⟩ : key = 2 :: List.replicate 32 2 ∧ sig = [1] ∧ rest = [] := by
    cases hdata
    exact ⟨rfl, rfl, rfl⟩
  rcases hsig with hnil | hder
  · cases hnil
  · cases hder

end SignatureCheck

end BitcoinCash

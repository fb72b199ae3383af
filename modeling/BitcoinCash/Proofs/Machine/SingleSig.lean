import BitcoinCash.Proofs.Machine.MultiSig
import BitcoinCash.Proofs.Machine.Step

namespace BitcoinCash

open Fallible (bind_eq_ok ok_bind pure_eq_ok)

variable {env : Environment} {here : Place} {i : Instruction} {f g : Frame}

namespace SignatureCheck

variable {base : Script} {sig key : Bytes}

theorem attempt_eq_ok_true :
    attempt env base sig key = .ok true ↔
      Encoding.checkSignature env.flags sig = .ok () ∧ Encoding.checkKey env.flags key = .ok () ∧
      Accepts env base sig key := by
  constructor
  · intro h
    have haccepts := (attempt_spec h).1 rfl
    simp only [attempt, bind_eq_ok] at h
    obtain ⟨_, hs, _, hk, -⟩ := h
    exact ⟨hs, hk, haccepts⟩
  · rintro ⟨hs, hk, hne, ctx, code, hctx, hcode, hvalid⟩
    have hask : env.ask ⟨sig, key, code⟩ = .ok true := ask_eq_ok_true.2 ⟨ctx, hctx, hvalid⟩
    simp only [attempt, hs, hk, List.isEmpty_iff, hne, hcode, hask, bind, Except.bind, if_false]

theorem accepts_iff {ctx : Context} (hctx : env.context = some ctx) (hforkId : env.usesForkId sig) :
    Accepts env base sig key ↔
      sig ≠ [] ∧ ctx.verify sig key base env.input env.flags = .ok true := by
  have hcode : env.codeFor base sig = .ok base := if_pos hforkId
  simp only [Accepts, hctx, hcode, Option.some.injEq, Except.ok.injEq, exists_and_left,
    exists_eq_left']

/-- A check that succeeds has found a key and a signature whose encodings pass. -/
theorem exists_of_checkOne (h : checkOne env here f = .ok g) :
    ∃ key sig rest, f.data = key :: sig :: rest ∧
      Encoding.checkSignature env.flags sig = .ok () ∧ Encoding.checkKey env.flags key = .ok () := by
  simp only [checkOne, question, bind_eq_ok] at h
  obtain ⟨_, ⟨key, hkey, sig, hsig, _, hs, _, hk, -⟩, -⟩ := h
  refine ⟨key, sig, f.data.drop 2, ?_, hs, hk⟩
  rw [← Stack.drop_of_peek hsig]
  exact Stack.drop_of_peek hkey

theorem checkOne_cons_cons (hbase : here.code f = .ok base) {rest : Stack}
    (hdata : f.data = key :: sig :: rest) :
    checkOne env here f = do
      let valid ← attempt env base sig key
      require (valid ∨ ¬ env.has .nullFail ∨ sig.isEmpty) .checkSigNotNull
      return f.withData (ofBool valid :: rest) := by
  have hkey : f.data.peek 0 = .ok key := by rw [hdata]; rfl
  have hsig : f.data.peek 1 = .ok sig := by rw [hdata]; rfl
  have hrest : f.data.dropTop 2 = .ok rest := by rw [hdata]; rfl
  simp only [checkOne, question, attempt, hkey, hsig, hrest, hbase, ok_bind, bind_assoc]
  congr 1
  funext _
  congr 1
  funext _
  split
  · rfl
  · simp only [bind_assoc, pure_bind]

theorem checkOne_eq_ok (hbase : here.code f = .ok base) :
    checkOne env here f = .ok g ↔
      ∃ key sig rest valid, f.data = key :: sig :: rest ∧ attempt env base sig key = .ok valid ∧
        (valid ∨ ¬ env.has .nullFail ∨ sig.isEmpty) ∧ g = f.withData (ofBool valid :: rest) := by
  constructor
  · intro h
    obtain ⟨key, sig, rest, hdata, -⟩ := exists_of_checkOne h
    simp only [checkOne_cons_cons hbase hdata, bind_eq_ok, pure_eq_ok, require_eq_ok] at h
    obtain ⟨valid, hvalid, _, hnull, rfl⟩ := h
    exact ⟨key, sig, rest, valid, hdata, hvalid, hnull, rfl⟩
  · rintro ⟨key, sig, rest, valid, hdata, hvalid, hnull, rfl⟩
    simp only [checkOne_cons_cons hbase hdata, bind_eq_ok, pure_eq_ok, require_eq_ok]
    exact ⟨valid, hvalid, (), hnull, rfl⟩

end SignatureCheck

theorem Operation.acts_checkSig {base : Script} (hbase : here.code f = .ok base) :
    (checkSig .kept).Acts env here i f fun t ↦ ∃ key sig rest valid, f.data = key :: sig :: rest ∧
      SignatureCheck.attempt env base sig key = .ok valid ∧
      (valid ∨ ¬ env.has .nullFail ∨ sig.isEmpty) ∧ t = ofBool valid :: rest := by
  intro g
  have hrun : (checkSig .kept).run env here i f = SignatureCheck.checkOne env here f := bind_pure _
  rw [hrun, SignatureCheck.checkOne_eq_ok hbase]
  constructor
  · rintro ⟨key, sig, rest, valid, hdata, hvalid, hnull, rfl⟩
    exact ⟨_, ⟨key, sig, rest, valid, hdata, hvalid, hnull, rfl⟩, rfl⟩
  · rintro ⟨_, ⟨key, sig, rest, valid, hdata, hvalid, hnull, rfl⟩, rfl⟩
    exact ⟨key, sig, rest, valid, hdata, hvalid, hnull, rfl⟩

end BitcoinCash

import BitcoinCash.Proofs.Transaction.Coverage
import BitcoinCash.Proofs.Transaction.SignedType

namespace BitcoinCash

open Fallible (bind_eq_ok)

variable {tx tx' : Transaction} {i j : ℕ} {u v : Unlocker}

namespace Unlocker

variable (tx : Transaction) (i j : ℕ) (script : Script) (code : Option Script) (t : SighashType)

theorem signature_unlock (key : PrivateKey) :
    signature key (tx.unlock i script) j code t = signature key tx j code t := by
  rw [signature, signature, Transaction.inputHash_unlock]

theorem signatures_unlock (keys : List PrivateKey) :
    signatures (tx.unlock i script) j code t keys = signatures tx j code t keys := by
  induction keys with
  | nil => rfl
  | cons key keys ih => rw [signatures, signatures, signature_unlock, ih]

theorem sign_unlock (u : Unlocker) : u.sign (tx.unlock i script) j = u.sign tx j := by
  cases u with
  | p2pkh key t => rw [sign, sign, signature_unlock]
  | multisig keys t redeem => simp only [sign, signatures_unlock]

variable {tx i script code t}

theorem sourceOutput_of_signature {key : PrivateKey} {b : Bytes}
    (h : signature key tx i code t = .ok b) : ∃ output, tx.sourceOutput i = .ok output := by
  obtain ⟨digest, hdigest, -⟩ := bind_eq_ok.1 h
  obtain ⟨output, houtput, -⟩ := bind_eq_ok.1 hdigest
  exact ⟨output, houtput⟩

theorem sourceOutput_of_sign (h : u.sign tx i = .ok script) :
    ∃ output, tx.sourceOutput i = .ok output := by
  cases u with
  | p2pkh key t =>
    obtain ⟨b, hb, -⟩ := bind_eq_ok.1 h
    exact sourceOutput_of_signature hb
  | multisig keys t redeem =>
    cases keys with
    | nil => cases h
    | cons key keys =>
      -- The signatures come first, and the first of them is there.
      obtain ⟨bs, hbs, -⟩ := bind_eq_ok.1 h
      obtain ⟨b, hb, -⟩ := bind_eq_ok.1 hbs
      exact sourceOutput_of_signature hb

end Unlocker

namespace Transaction

variable (tx : Transaction) (i j : ℕ) (script : Script) (satoshis : UInt64)

theorem unlock_comm {i j : ℕ} (hij : i ≠ j) (script script' : Script) :
    (tx.unlock i script).unlock j script' = (tx.unlock j script').unlock i script :=
  congrArg (fun inputs ↦ { tx with inputs }) (List.modify_modify_ne _ _ _ hij)

theorem context_unlock : (tx.unlock i script).context satoshis = tx.context satoshis := by
  have hverify (sig key : Bytes) (code : Script) (k : ℕ) (flags : Flags) :
      (tx.unlock i script).verifySignature satoshis sig key code k flags =
        tx.verifySignature satoshis sig key code k flags := by
    simp only [verifySignature, checkedHash, protectedHash_unlock, legacyHash_unlock]
  simp only [context, hverify]
  congr 1
  funext k
  rw [getElem?_inputs_unlock]
  cases tx.inputs[k]? with
  | none => rfl
  | some input => by_cases hik : i = k <;> simp [hik]

/-- Whether an input passes is the same for any unlocking script of another. -/
theorem verifyInput_unlock (hij : i ≠ j) (output : TxOutput) (flags : Flags) :
    (tx.unlock i script).verifyInput j output flags = tx.verifyInput j output flags := by
  rw [verifyInput, verifyInput, input_unlock_of_ne tx i script hij, context_unlock]

def signed (tx : Transaction) (i : ℕ) (u : Unlocker) : Transaction :=
  match u.sign tx i with
  | .ok script => tx.unlock i script
  | .error _ => tx

variable {tx i} {script : Script} {e : TransactionError}

theorem signed_of_ok (h : u.sign tx i = .ok script) : tx.signed i u = tx.unlock i script := by
  rw [signed, h]

theorem signed_of_error (h : u.sign tx i = .error e) : tx.signed i u = tx := by
  rw [signed, h]

variable (tx i)

theorem sign_signed (v : Unlocker) : v.sign (tx.signed i u) j = v.sign tx j := by
  cases hu : u.sign tx i with
  | ok script => rw [signed_of_ok hu, v.sign_unlock]
  | error e => rw [signed_of_error hu]

theorem signed_comm (hij : i ≠ j) : (tx.signed i u).signed j v = (tx.signed j v).signed i u := by
  have hsign : u.sign (tx.signed j v) i = u.sign tx i := tx.sign_signed j i u
  cases hu : u.sign tx i with
  | error e => rw [signed_of_error hu, signed_of_error (hsign.trans hu)]
  | ok script =>
    rw [signed_of_ok hu, signed_of_ok (hsign.trans hu)]
    have hsign' : v.sign (tx.unlock i script) j = v.sign tx j := v.sign_unlock tx i j script
    cases hv : v.sign tx j with
    | error e => rw [signed_of_error hv, signed_of_error (hsign'.trans hv)]
    | ok script' =>
      rw [signed_of_ok hv, signed_of_ok (hsign'.trans hv), tx.unlock_comm hij]

theorem verifyInput_signed (hij : i ≠ j) (output : TxOutput) (flags : Flags) :
    (tx.signed i u).verifyInput j output flags = tx.verifyInput j output flags := by
  cases hu : u.sign tx i with
  | ok script => rw [signed_of_ok hu, tx.verifyInput_unlock i j script hij]
  | error e => rw [signed_of_error hu]

end Transaction

namespace Signing

variable {script : Script} {e : TransactionError}

theorem run_input_of_ok (h : u.sign tx i = .ok script) :
    (input i u).run tx = .ok () (tx.unlock i script) := by
  have hsigned : tx.signInput i u = .ok (tx.unlock i script) := by
    rw [Transaction.signInput, h]
    rfl
  simp [input, hsigned]

theorem run_input_of_error (h : u.sign tx i = .error e) : (input i u).run tx = .error e tx := by
  have hsigned : tx.signInput i u = .error e := by
    rw [Transaction.signInput, h]
    rfl
  simp [input, hsigned]

theorem run_observing {ε σ α : Type} (x : EStateM ε σ α) (s : σ) :
    (observing x).run s =
      match x.run s with
      | .ok a s' => .ok (.ok a) s'
      | .error e s' => .ok (.error e) s' := by
  change EStateM.tryCatch (EStateM.bind x fun a ↦ EStateM.pure (Except.ok (ε := ε) a))
    (fun e ↦ EStateM.pure (.error e)) s = _
  unfold EStateM.tryCatch EStateM.bind EStateM.run
  cases x s with
  | ok a s' => rfl
  | error e s' => rfl

theorem run_observing_input (tx : Transaction) (i : ℕ) (u : Unlocker) :
    (observing (input i u)).run tx = .ok ((u.sign tx i).map fun _ ↦ ()) (tx.signed i u) := by
  cases hu : u.sign tx i with
  | ok script =>
    rw [run_observing, run_input_of_ok hu, Transaction.signed_of_ok hu]
    rfl
  | error e =>
    rw [run_observing, run_input_of_error hu, Transaction.signed_of_error hu]
    rfl

/-- One request after the other, whether or not the first one fails. -/
def pair (x y : Signing Unit) :
    Signing (Except TransactionError Unit × Except TransactionError Unit) := do
  let a ← observing x
  let b ← observing y
  return (a, b)

theorem run_pair_input (tx : Transaction) (i j : ℕ) (u v : Unlocker) :
    (pair (input i u) (input j v)).run tx =
      .ok ((u.sign tx i).map fun _ ↦ (), (v.sign tx j).map fun _ ↦ ())
        ((tx.signed i u).signed j v) := by
  simp only [pair, EStateM.run_bind, run_observing_input, Transaction.sign_signed]
  rfl

/-- A request that succeeds writes the unlocking script of its input and nothing else. -/
theorem eq_set_of_run_input (h : (input i u).run tx = .ok () tx') :
    ∃ spent script, tx.inputs[i]? = some spent ∧
      tx' = { tx with inputs := tx.inputs.set i { spent with unlockingScript := script } } := by
  cases hu : u.sign tx i with
  | error e => cases (run_input_of_error hu).symm.trans h
  | ok script =>
    cases (run_input_of_ok hu).symm.trans h
    obtain ⟨output, houtput⟩ := Unlocker.sourceOutput_of_sign hu
    obtain ⟨spent, hspent, -⟩ := bind_eq_ok.1 houtput
    have hget := Transaction.input_eq_ok.1 hspent
    refine ⟨spent, script, hget, ?_⟩
    rw [Transaction.unlock, Transaction.modifyInput, List.modify_eq_set_getElem?, hget]
    rfl

theorem eq_of_run_input (h : (input i u).run tx = .error e tx') : tx' = tx := by
  cases hu : u.sign tx i with
  | ok script => cases (run_input_of_ok hu).symm.trans h
  | error e' =>
    cases (run_input_of_error hu).symm.trans h
    rfl

/-- Two inputs can be signed in either order, and what one is checked for does not change when the
other is signed. -/
theorem requests_independent (hij : i ≠ j) (tx : Transaction) (u v : Unlocker) :
    (∃ a b tx', (pair (input i u) (input j v)).run tx = .ok (a, b) tx' ∧
      (pair (input j v) (input i u)).run tx = .ok (b, a) tx') ∧
    (∀ tx', (input i u).run tx = .ok () tx' → ∃ spent script, tx.inputs[i]? = some spent ∧
      tx' = { tx with inputs := tx.inputs.set i { spent with unlockingScript := script } }) ∧
    (∀ e tx', (input i u).run tx = .error e tx' → tx' = tx) ∧
    ∃ b tx', (observing (input j v)).run tx = .ok b tx' ∧
      ∀ output flags, tx'.verifyInput i output flags = tx.verifyInput i output flags := by
  refine ⟨⟨_, _, _, run_pair_input tx i j u v, ?_⟩, ?_, ?_, ?_⟩
  · rw [run_pair_input, tx.signed_comm i j hij]
  · exact fun tx' h ↦ eq_set_of_run_input h
  · exact fun e tx' h ↦ eq_of_run_input h
  · exact ⟨_, _, run_observing_input tx j v, tx.verifyInput_signed j i hij.symm⟩

theorem requests_independent_spendOne :
    let key : PrivateKey := ⟨1, true, by decide, by decide⟩
    let u : Unlocker := .p2pkh key ⟨0xc2⟩
    let other : TxInput := { sourceId := ⟨List.replicate 32 2, rfl⟩, sourceIndex := 0 }
    let tx := { Transaction.spendOne with inputs := Transaction.spendOne.inputs ++ [other] }
    ∃ tx', (pair (input 0 u) (input 1 u)).run tx = .ok (.ok (), .error (.unknownSource 1)) tx' ∧
      (pair (input 1 u) (input 0 u)).run tx = .ok (.error (.unknownSource 1), .ok ()) tx' := by
  intro key u other tx
  -- The type covers no other input.
  have hsigned : tx.signedString 0 Transaction.lockOne.bytes ⟨0xc2⟩ 1000 =
      Transaction.spendOne.signedString 0 Transaction.lockOne.bytes ⟨0xc2⟩ 1000 := by
    decide +kernel
  have hdigest : tx.inputHash 0 ⟨0xc2⟩ = Transaction.spendOne.inputHash 0 ⟨0xc2⟩ := by
    change tx.signatureHash 0 Transaction.lockOne.bytes ⟨0xc2⟩ 1000 =
      Transaction.spendOne.signatureHash 0 Transaction.lockOne.bytes ⟨0xc2⟩ 1000
    rw [Transaction.signatureHash_eq, Transaction.signatureHash_eq, hsigned]
  obtain ⟨script, hscript⟩ := Unlocker.exists_sign_p2pkh
    (hdigest.trans Transaction.inputHash_spendOne) Ecdsa.sign_one
  have hunknown : u.sign tx 1 = .error (.unknownSource 1) := rfl
  have hrun := run_pair_input tx 0 1 u u
  rw [hscript, hunknown] at hrun
  obtain ⟨⟨a, b, tx', hfirst, hsecond⟩, -⟩ := requests_independent (by decide : 0 ≠ 1) tx u u
  cases hfirst.symm.trans hrun
  exact ⟨_, hrun, hsecond⟩

end Signing

end BitcoinCash

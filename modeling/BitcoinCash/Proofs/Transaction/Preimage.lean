import Mathlib.Data.List.Basic
import Mathlib.Data.Nat.Notation
import BitcoinCash.Transaction.Preimage

namespace BitcoinCash.Transaction

def unlock (tx : Transaction) (i : ℕ) (script : Script) : Transaction :=
  tx.modifyInput i fun input ↦ { input with unlockingScript := script }

variable (tx : Transaction) (i : ℕ) (script : Script)

theorem length_inputs_unlock : (tx.unlock i script).inputs.length = tx.inputs.length :=
  List.length_modify ..

theorem getElem?_inputs_unlock (j : ℕ) :
    (tx.unlock i script).inputs[j]? =
      tx.inputs[j]?.map fun input ↦
        if i = j then { input with unlockingScript := script } else input := by
  rw [unlock, modifyInput, List.getElem?_modify]
  by_cases hij : i = j
  · simp [hij]
  · simp [hij]

theorem input_unlock (j : ℕ) :
    (tx.unlock i script).input j = do
      let input ← tx.input j
      return if i = j then { input with unlockingScript := script } else input := by
  rw [input, input, length_inputs_unlock, getElem?_inputs_unlock]
  cases tx.inputs[j]? with
  | none => rfl
  | some input => rfl

theorem input_unlock_self {input : TxInput} (h : tx.input i = .ok input) :
    (tx.unlock i script).input i = .ok { input with unlockingScript := script } := by
  rw [input_unlock, h]
  exact congrArg Except.ok (if_pos rfl)

theorem input_unlock_of_ne {j : ℕ} (hij : i ≠ j) :
    (tx.unlock i script).input j = tx.input j := by
  rw [input_unlock]
  simp only [hij]
  cases tx.input j with
  | error e => rfl
  | ok input => rfl

theorem input_unlock_bind {α : Type} (j : ℕ) (g : TxInput → Except TransactionError α)
    (hg : ∀ input, g { input with unlockingScript := script } = g input) :
    ((tx.unlock i script).input j >>= g) = (tx.input j >>= g) := by
  by_cases hij : i = j
  · subst hij
    cases hinput : tx.input i with
    | error e => rw [input_unlock, hinput]; rfl
    | ok input => rw [input_unlock_self tx i script hinput]; exact hg input
  · rw [input_unlock_of_ne tx i script hij]

theorem mapIdx_inputs_unlock {α : Type} (g : ℕ → TxInput → α)
    (hg : ∀ j input, g j { input with unlockingScript := script } = g j input) :
    (tx.unlock i script).inputs.mapIdx g = tx.inputs.mapIdx g := by
  rw [List.mapIdx_eq_iff]
  intro j
  rw [List.getElem?_mapIdx, getElem?_inputs_unlock, Option.map_map]
  congr 1
  funext input
  by_cases hij : i = j
  · simp [hij, hg]
  · simp [hij]

theorem flatMap_inputs_unlock (g : TxInput → Bytes)
    (hg : ∀ input, g { input with unlockingScript := script } = g input) :
    (tx.unlock i script).inputs.flatMap g = tx.inputs.flatMap g := by
  have hmap (inputs : List TxInput) : inputs.map g = inputs.mapIdx fun _ ↦ g :=
    (List.mapIdx_eq_iff.2 fun _ ↦ List.getElem?_map ..).symm
  rw [List.flatMap_def, List.flatMap_def, hmap, hmap,
    mapIdx_inputs_unlock tx i script _ fun _ ↦ hg]

variable (j : ℕ) (code : Bytes) (t : SighashType) (satoshis : UInt64)

theorem sourceOutput_unlock : (tx.unlock i script).sourceOutput j = tx.sourceOutput j :=
  input_unlock_bind tx i script j _ fun _ ↦ rfl

theorem legacyPreimage_unlock :
    (tx.unlock i script).legacyPreimage j code t = tx.legacyPreimage j code t := by
  have houtputs : Legacy.outputsBytes (tx.unlock i script) j t = Legacy.outputsBytes tx j t := rfl
  have hinputs (input : TxInput) :
      Legacy.inputsBytes (tx.unlock i script) j input code t =
        Legacy.inputsBytes tx j input code t := by
    have hwritten := mapIdx_inputs_unlock tx i script
      (fun k o ↦ if k = j then input.toBytesWith code input.sequence
        else o.toBytesWith [] (if t.coverage = .all then o.sequence else 0)) fun _ _ ↦ rfl
    simp only [Legacy.inputsBytes, length_inputs_unlock, hwritten]
  simp only [legacyPreimage, houtputs, hinputs]
  exact input_unlock_bind tx i script j _ fun _ ↦ rfl

theorem protectedPreimage_unlock :
    (tx.unlock i script).protectedPreimage j code t satoshis =
      tx.protectedPreimage j code t satoshis := by
  have hpoints : Protected.outpointsDigest (tx.unlock i script) t =
      Protected.outpointsDigest tx t := by
    rw [Protected.outpointsDigest, Protected.outpointsDigest,
      flatMap_inputs_unlock tx i script _ fun _ ↦ rfl]
  have hsequences : Protected.sequencesDigest (tx.unlock i script) t =
      Protected.sequencesDigest tx t := by
    rw [Protected.sequencesDigest, Protected.sequencesDigest,
      flatMap_inputs_unlock tx i script _ fun _ ↦ rfl]
  have houtputs : Protected.outputsDigest (tx.unlock i script) j t =
      Protected.outputsDigest tx j t := rfl
  simp only [protectedPreimage, hpoints, hsequences, houtputs]
  exact input_unlock_bind tx i script j _ fun _ ↦ rfl

theorem legacyHash_unlock :
    (tx.unlock i script).legacyHash j code t = tx.legacyHash j code t := by
  rw [legacyHash, legacyHash, legacyPreimage_unlock]

theorem protectedHash_unlock :
    (tx.unlock i script).protectedHash j code t satoshis =
      tx.protectedHash j code t satoshis := by
  rw [protectedHash, protectedHash, protectedPreimage_unlock]

theorem inputHash_unlock (code : Option Script) :
    (tx.unlock i script).inputHash j t code = tx.inputHash j t code := by
  simp only [inputHash, sourceOutput_unlock, signatureHash, legacyHash_unlock,
    protectedHash_unlock]

end BitcoinCash.Transaction

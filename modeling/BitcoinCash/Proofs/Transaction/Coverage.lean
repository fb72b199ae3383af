import Mathlib.Data.Nat.Notation
import BitcoinCash.Transaction.Preimage

namespace BitcoinCash

def TxInput.spends (input : TxInput) : TxId × UInt32 := (input.sourceId, input.sourceIndex)

/-- The transactions agree in what a signature of type `t` for input `i` covers. -/
structure SighashType.Agree (t : SighashType) (i : ℕ) (tx tx' : Transaction) : Prop where
  version : tx.version = tx'.version
  lockTime : tx.lockTime = tx'.lockTime
  signed_spends : tx.inputs[i]?.map TxInput.spends = tx'.inputs[i]?.map TxInput.spends
  signed_sequence : tx.inputs[i]?.map TxInput.sequence = tx'.inputs[i]?.map TxInput.sequence
  spends : t.anyoneCanPay = false → tx.inputs.map TxInput.spends = tx'.inputs.map TxInput.spends
  sequences : t.anyoneCanPay = false → t.coverage = .all →
    tx.inputs.map TxInput.sequence = tx'.inputs.map TxInput.sequence
  single : t.coverage = .single → tx.outputs[i]? = tx'.outputs[i]?
  outputs : t.coverage = .all → tx.outputs = tx'.outputs

/-- Input `i` is there, and for a type that covers a single output so is output `i`. -/
structure SighashType.Applies (t : SighashType) (i : ℕ) (tx : Transaction) : Prop where
  input : i < tx.inputs.length
  output : t.coverage = .single → i < tx.outputs.length

namespace Transaction

variable {tx tx' : Transaction} {i : ℕ} {t : SighashType}

def covered (tx : Transaction) (i : ℕ) (t : SighashType) : List TxOutput :=
  match t.coverage with
  | .none => []
  | .single => tx.outputs[i]?.toList
  | .all => tx.outputs

theorem covered_of_none (h : t.coverage = .none) : tx.covered i t = [] := by
  rw [covered, h]

theorem mem_outputs_of_mem_covered {o : TxOutput} (h : o ∈ tx.covered i t) : o ∈ tx.outputs := by
  unfold covered at h
  cases hc : t.coverage with
  | none => simp [hc] at h
  | all => simpa [hc] using h
  | single =>
    simp only [hc, Option.mem_toList] at h
    exact List.mem_of_getElem? h

theorem covered_eq_iff : tx.covered i t = tx'.covered i t ↔
    (t.coverage = .single → tx.outputs[i]? = tx'.outputs[i]?) ∧
      (t.coverage = .all → tx.outputs = tx'.outputs) := by
  unfold covered
  cases t.coverage with
  | none => simp
  | all => simp
  | single => cases tx.outputs[i]? <;> cases tx'.outputs[i]? <;> simp

theorem input_eq_ok {input : TxInput} : tx.input i = .ok input ↔ tx.inputs[i]? = some input := by
  unfold Transaction.input
  cases tx.inputs[i]? <;> simp

theorem input_eq {input : TxInput} (h : tx.inputs[i]? = some input) : tx.input i = .ok input :=
  input_eq_ok.2 h

theorem covered_of_single (h : t.coverage = .single) (hi : i < tx.outputs.length) :
    tx.singleOutput i = .ok tx.outputs[i] ∧ tx.covered i t = [tx.outputs[i]] := by
  simp [singleOutput, covered, h, hi]

end Transaction

theorem SighashType.Applies.exists_input {tx : Transaction} {i : ℕ} {t : SighashType}
    (h : t.Applies i tx) : ∃ input, tx.inputs[i]? = some input :=
  ⟨_, List.getElem?_eq_some_iff.2 ⟨h.input, rfl⟩⟩

end BitcoinCash

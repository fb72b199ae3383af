import Mathlib.Data.List.Forall2
import BitcoinCash.Proofs.Wire.CompactSize
import BitcoinCash.Transaction.Wire

namespace BitcoinCash

namespace TxReader

theorem takes_field {α : Type} {x : Reader α} {w : Bytes} {a : α} (name : TxField)
    (h : Takes x w a) : Takes (field name x) w a := by
  intro rest
  rw [field, h rest]

theorem takes_count {α γ κ : Type} {item : TxReader α} {f : γ → κ → Bytes} {k : γ → α} {xs : List γ}
    {ws : List κ} (h : List.Forall₂ (fun z w ↦ Takes item (f z w) (k z)) xs ws) :
    Takes (count item xs.length) (List.zipWith f xs ws).flatten (xs.map k) := by
  induction h with
  | nil => exact .pure []
  | cons hz h ih => exact hz.bind (ih.bind_pure (k _ :: ·))

end TxReader

open TxReader (takes_field takes_count)

theorem TxId.takes_reader (id : TxId) : Takes TxId.reader id.bytes id := by
  intro rest
  obtain ⟨b, hb⟩ := id
  have htake : (b ++ rest).take 32 = b := List.take_left' hb
  have hdrop : (b ++ rest).drop 32 = rest := List.drop_left' hb
  simp [reader, htake, hdrop, hb]

namespace TxOutput

def toBytesIn (o : TxOutput) (w : CompactWidth) : Bytes :=
  Wire.u64 o.satoshis ++ (w.write o.lockingScript.length ++ o.lockingScript.bytes)

theorem length_toBytesIn (o : TxOutput) (w : CompactWidth) :
    (o.toBytesIn w).length = 8 + o.lockingScript.length + w.length := by
  simp only [toBytesIn, Wire.u64, Script.length, List.length_append, Bytes.length_ofNatLE,
    CompactWidth.length_write]
  omega

theorem toBytesIn_least {o : TxOutput} (h : o.lockingScript.length < 2 ^ 64) :
    o.toBytesIn (.least o.lockingScript.length) = o.toBytes := by
  rw [toBytesIn, CompactWidth.write_least_eq_size h]
  rfl

theorem takes_toBytesIn {o : TxOutput} {w : CompactWidth} (h : o.lockingScript.length < w.bound) :
    Takes TxOutput.reader (o.toBytesIn w) o := by
  refine (takes_field .satoshis (Reader.takes_u64 o.satoshis)).bind ?_
  exact (takes_field .lockingScript (Reader.takes_varBytes_write h)).bind_pure _

theorem takes_reader {o : TxOutput} (h : o.lockingScript.length < 2 ^ 64) :
    Takes TxOutput.reader o.toBytes o :=
  toBytesIn_least h ▸ takes_toBytesIn (CompactWidth.lt_bound_least h)

end TxOutput

namespace TxInput

def forget (input : TxInput) : TxInput := { input with source := none }

def toBytesIn (input : TxInput) (w : CompactWidth) : Bytes :=
  input.outpoint ++
    (w.write input.unlockingScript.length ++ input.unlockingScript.bytes ++ Wire.u32 input.sequence)

theorem length_toBytesIn (input : TxInput) (w : CompactWidth) :
    (input.toBytesIn w).length = 40 + input.unlockingScript.length + w.length := by
  simp only [toBytesIn, outpoint, Wire.u32, Script.length, List.length_append,
    Bytes.length_ofNatLE, CompactWidth.length_write, input.sourceId.length_bytes]
  omega

theorem toBytesIn_least {input : TxInput} (h : input.unlockingScript.length < 2 ^ 64) :
    input.toBytesIn (.least input.unlockingScript.length) = input.toBytes := by
  rw [toBytesIn, CompactWidth.write_least_eq_size h, toBytes, toBytesWith, Wire.varBytes]
  simp only [List.append_assoc]
  rfl

theorem takes_toBytesIn {input : TxInput} {w : CompactWidth}
    (h : input.unlockingScript.length < w.bound) :
    Takes TxInput.reader (input.toBytesIn w) input.forget := by
  rw [toBytesIn, outpoint, List.append_assoc]
  refine (takes_field .sourceId input.sourceId.takes_reader).bind ?_
  refine (takes_field .sourceIndex (Reader.takes_u32 input.sourceIndex)).bind ?_
  refine (takes_field .unlockingScript (Reader.takes_varBytes_write h)).bind ?_
  exact (takes_field .sequence (Reader.takes_u32 input.sequence)).bind_pure _

end TxInput

/-- The widths of the counts and lengths in one spelling of a transaction. -/
@[ext]
structure Spelling where
  inputCount : CompactWidth
  unlocking : List CompactWidth
  outputCount : CompactWidth
  locking : List CompactWidth
  deriving DecidableEq, Repr

namespace Spelling

structure Suits (s : Spelling) (tx : Transaction) : Prop where
  inputCount : tx.inputs.length < s.inputCount.bound
  unlocking :
    List.Forall₂ (fun input w ↦ input.unlockingScript.length < w.bound) tx.inputs s.unlocking
  outputCount : tx.outputs.length < s.outputCount.bound
  locking : List.Forall₂ (fun o w ↦ o.lockingScript.length < w.bound) tx.outputs s.locking

def least (tx : Transaction) : Spelling where
  inputCount := .least tx.inputs.length
  unlocking := tx.inputs.map fun input ↦ .least input.unlockingScript.length
  outputCount := .least tx.outputs.length
  locking := tx.outputs.map fun o ↦ .least o.lockingScript.length

end Spelling

namespace Transaction

/-- The counts and lengths in the transaction are machine words. -/
structure Sized (tx : Transaction) : Prop where
  inputs : tx.inputs.length < 2 ^ 64
  outputs : tx.outputs.length < 2 ^ 64
  unlocking : ∀ input ∈ tx.inputs, input.unlockingScript.length < 2 ^ 64
  locking : ∀ o ∈ tx.outputs, o.lockingScript.length < 2 ^ 64

def forgetSources (tx : Transaction) : Transaction :=
  { tx with inputs := tx.inputs.map TxInput.forget }

theorem suits_least {tx : Transaction} (h : tx.Sized) : (Spelling.least tx).Suits tx where
  inputCount := CompactWidth.lt_bound_least h.inputs
  unlocking := by
    rw [Spelling.least, List.forall₂_map_right_iff, List.forall₂_same]
    exact fun input hinput ↦ CompactWidth.lt_bound_least (h.unlocking input hinput)
  outputCount := CompactWidth.lt_bound_least h.outputs
  locking := by
    rw [Spelling.least, List.forall₂_map_right_iff, List.forall₂_same]
    exact fun o ho ↦ CompactWidth.lt_bound_least (h.locking o ho)

def toBytesIn (tx : Transaction) (s : Spelling) : Bytes :=
  Wire.u32 tx.version ++ s.inputCount.write tx.inputs.length ++
    (List.zipWith TxInput.toBytesIn tx.inputs s.unlocking).flatten ++
    s.outputCount.write tx.outputs.length ++
    (List.zipWith TxOutput.toBytesIn tx.outputs s.locking).flatten ++ Wire.u32 tx.lockTime

theorem toBytesIn_least {tx : Transaction} (h : tx.Sized) :
    tx.toBytesIn (.least tx) = tx.toBytes := by
  have hinputs : List.zipWith TxInput.toBytesIn tx.inputs (Spelling.least tx).unlocking =
      tx.inputs.map TxInput.toBytes := by
    rw [Spelling.least, List.zipWith_map_right, List.zipWith_self]
    exact List.map_congr_left fun input hinput ↦ TxInput.toBytesIn_least (h.unlocking input hinput)
  have houtputs : List.zipWith TxOutput.toBytesIn tx.outputs (Spelling.least tx).locking =
      tx.outputs.map TxOutput.toBytes := by
    rw [Spelling.least, List.zipWith_map_right, List.zipWith_self]
    exact List.map_congr_left fun o ho ↦ TxOutput.toBytesIn_least (h.locking o ho)
  rw [toBytesIn, hinputs, houtputs, toBytes, List.flatMap_def, List.flatMap_def, Spelling.least,
    CompactWidth.write_least_eq_size h.inputs, CompactWidth.write_least_eq_size h.outputs]

theorem takes_toBytesIn {tx : Transaction} {s : Spelling} (h : s.Suits tx) :
    Takes Transaction.reader (tx.toBytesIn s) tx.forgetSources := by
  have hinputs : Takes (TxReader.count TxInput.reader tx.inputs.length)
      (List.zipWith TxInput.toBytesIn tx.inputs s.unlocking).flatten
      (tx.inputs.map TxInput.forget) :=
    takes_count (h.unlocking.imp fun _ _ ↦ TxInput.takes_toBytesIn)
  have houtputs : Takes (TxReader.count TxOutput.reader tx.outputs.length)
      (List.zipWith TxOutput.toBytesIn tx.outputs s.locking).flatten
      (tx.outputs.map fun o ↦ o) :=
    takes_count (h.locking.imp fun _ _ ↦ TxOutput.takes_toBytesIn)
  rw [← UInt64.toNat_ofNat_of_lt' (CompactWidth.lt_of_lt_bound h.inputCount)] at hinputs
  rw [← UInt64.toNat_ofNat_of_lt' (CompactWidth.lt_of_lt_bound h.outputCount), List.map_id']
    at houtputs
  simp only [toBytesIn, List.append_assoc]
  refine (takes_field .version (Reader.takes_u32 tx.version)).bind ?_
  refine (takes_field .inputCount (Reader.takes_compactSize_write h.inputCount)).bind
    (hinputs.bind ?_)
  refine (takes_field .outputCount (Reader.takes_compactSize_write h.outputCount)).bind
    (houtputs.bind ?_)
  exact (takes_field .lockTime (Reader.takes_u32 tx.lockTime)).bind_pure _

theorem takes_reader {tx : Transaction} (h : tx.Sized) :
    Takes Transaction.reader tx.toBytes tx.forgetSources :=
  toBytesIn_least h ▸ takes_toBytesIn (suits_least h)

/-- The written form is read back. Only the outputs that are spent are lost. -/
theorem ofBytes_toBytes_eq_forgetSources {tx : Transaction} (h : tx.Sized) :
    ofBytes tx.toBytes = .ok tx.forgetSources := by
  have hread := takes_reader h []
  rw [List.append_nil] at hread
  rw [ofBytes, hread]

theorem ofBytes_toBytes_eq_forgetSources_spending :
    let tx (source : Option TxOutput) : Transaction :=
      { inputs := [⟨⟨List.replicate 32 7, rfl⟩, 3, 1, ⟨List.replicate 0xfd 0x51⟩, source⟩]
        outputs := [⟨5, ⟨List.replicate 0x10000 0x6a⟩⟩, ⟨0, .empty⟩] }
    (tx (some ⟨9, .empty⟩)).Sized ∧ ofBytes (tx (some ⟨9, .empty⟩)).toBytes = .ok (tx none) := by
  intro tx
  have hsize : (tx (some ⟨9, .empty⟩)).Sized := by
    constructor
    · exact (by decide : 1 < 2 ^ 64)
    · exact (by decide : 2 < 2 ^ 64)
    · refine List.forall_mem_singleton.2 ?_
      exact List.length_replicate.trans_lt (by decide)
    · refine List.forall_mem_cons.2 ⟨?_, List.forall_mem_singleton.2 ?_⟩
      · exact List.length_replicate.trans_lt (by decide)
      · exact Nat.two_pow_pos 64
  exact ⟨hsize, ofBytes_toBytes_eq_forgetSources hsize⟩

end Transaction

end BitcoinCash

import BitcoinCash.Proofs.Fallible
import BitcoinCash.Proofs.Transaction.Coverage
import BitcoinCash.Proofs.Transaction.Wire

namespace BitcoinCash

open Fallible (ok_bind)

namespace TxInput

def outpointReader : Reader (TxId × UInt32) := do
  let id ← TxId.reader
  let index ← Reader.u32
  return (id, index)

theorem takes_outpoint (input : TxInput) : Takes outpointReader input.outpoint input.spends :=
  input.sourceId.takes_reader.bind ((Reader.takes_u32 input.sourceIndex).bind_pure _)

theorem outpoint_ne_nil (input : TxInput) : input.outpoint ≠ [] := by
  have hlen : input.outpoint.length = 36 := by
    simp [outpoint, input.sourceId.length_bytes, Wire.u32]
  exact List.ne_nil_of_length_eq_add_one hlen

end TxInput

theorem TxOutput.toBytes_ne_nil (o : TxOutput) : o.toBytes ≠ [] := by
  intro hnil
  have hvalue : Wire.u64 o.satoshis = [] := (List.append_eq_nil_iff.1 hnil).1
  cases hvalue

namespace Transaction.Protected

/-- The fields of the layout. -/
structure Layout where
  version : UInt32
  outpoints : Bytes
  sequences : Bytes
  spends : TxId × UInt32
  code : Bytes
  satoshis : UInt64
  sequence : UInt32
  outputs : Bytes
  lockTime : UInt32
  bits : UInt32

namespace Layout

def toBytes (l : Layout) : Bytes :=
  Wire.u32 l.version ++ l.outpoints ++ l.sequences ++ (l.spends.1.bytes ++ Wire.u32 l.spends.2) ++
    Wire.varBytes l.code ++ Wire.u64 l.satoshis ++ Wire.u32 l.sequence ++ l.outputs ++
    Wire.u32 l.lockTime ++ Wire.u32 l.bits

def reader : Reader Layout := do
  let version ← Reader.u32
  let outpoints ← Reader.bytes 32
  let sequences ← Reader.bytes 32
  let spends ← TxInput.outpointReader
  let code ← Reader.varBytes
  let satoshis ← Reader.u64
  let sequence ← Reader.u32
  let outputs ← Reader.bytes 32
  let lockTime ← Reader.u32
  let bits ← Reader.u32
  return {
    version, outpoints, sequences, spends, code, satoshis, sequence, outputs, lockTime, bits }

structure Sized (l : Layout) : Prop where
  outpoints : l.outpoints.length = 32
  sequences : l.sequences.length = 32
  code : l.code.length < 2 ^ 64
  outputs : l.outputs.length = 32

theorem takes_reader {l : Layout} (h : l.Sized) : Takes reader l.toBytes l := by
  have hspends : Takes TxInput.outpointReader (l.spends.1.bytes ++ Wire.u32 l.spends.2) l.spends :=
    (⟨l.spends.1, l.spends.2, 0, .empty, none⟩ : TxInput).takes_outpoint
  simp only [toBytes, List.append_assoc]
  rw [← List.append_assoc l.spends.1.bytes]
  refine (Reader.takes_u32 l.version).bind ((Reader.takes_bytes h.outpoints).bind ?_)
  refine (Reader.takes_bytes h.sequences).bind (hspends.bind ?_)
  refine (Reader.takes_varBytes h.code).bind ((Reader.takes_u64 l.satoshis).bind ?_)
  refine (Reader.takes_u32 l.sequence).bind ((Reader.takes_bytes h.outputs).bind ?_)
  exact (Reader.takes_u32 l.lockTime).bind ((Reader.takes_u32 l.bits).bind_pure _)

theorem toBytes_inj {l l' : Layout} (h : l.Sized) (h' : l'.Sized) (heq : l.toBytes = l'.toBytes) :
    l = l' :=
  (takes_reader h).unique (heq ▸ takes_reader h')

end Layout

variable {tx tx' : Transaction} {i : ℕ} {t : SighashType} {code : Bytes} {satoshis : UInt64}

def coveredDigest (tx : Transaction) (i : ℕ) (t : SighashType) : Bytes :=
  if t.coverage = .none then blankDigest
  else sha256d ((tx.covered i t).flatMap TxOutput.toBytes)

theorem outputsDigest_eq (h : t.Applies i tx) :
    outputsDigest tx i t = .ok (coveredDigest tx i t) := by
  unfold outputsDigest coveredDigest
  cases hc : t.coverage with
  | none => rfl
  | all =>
    rw [covered, hc]
    rfl
  | single =>
    obtain ⟨hsingle, hcovered⟩ := covered_of_single hc (h.output hc)
    rw [hsingle, hcovered, List.flatMap_singleton]
    rfl

/-- The strings of which the layout has digests. -/
def digested (tx : Transaction) (i : ℕ) (t : SighashType) : List Bytes :=
  (if t.anyoneCanPay then [] else [tx.inputs.flatMap TxInput.outpoint]) ++
    (if t.anyoneCanPay ∨ t.coverage ≠ .all then []
      else [tx.inputs.flatMap fun o ↦ Wire.u32 o.sequence]) ++
    if t.coverage = .none then [] else [(tx.covered i t).flatMap TxOutput.toBytes]

/-- The digests tell the strings in `xs` from those in `ys`. -/
def NoCollision (xs ys : List Bytes) : Prop :=
  ∀ x ∈ xs, ∀ y ∈ ys, sha256d x = sha256d y → x = y

instance (xs ys : List Bytes) : Decidable (NoCollision xs ys) :=
  inferInstanceAs (Decidable (∀ x ∈ xs, ∀ y ∈ ys, sha256d x = sha256d y → x = y))

def layout (tx : Transaction) (i : ℕ) (input : TxInput) (code : Bytes) (t : SighashType)
    (satoshis : UInt64) : Layout where
  version := tx.version
  outpoints := outpointsDigest tx t
  sequences := sequencesDigest tx t
  spends := input.spends
  code
  satoshis
  sequence := input.sequence
  outputs := coveredDigest tx i t
  lockTime := tx.lockTime
  bits := t.bits

theorem preimage_eq {input : TxInput} (h : t.Applies i tx) (hi : tx.inputs[i]? = some input) :
    tx.protectedPreimage i code t satoshis = .ok (layout tx i input code t satoshis).toBytes := by
  rw [protectedPreimage, input_eq hi, ok_bind, outputsDigest_eq h]
  rfl

theorem sized_layout {input : TxInput} (hcode : code.length < 2 ^ 64) :
    (layout tx i input code t satoshis).Sized where
  outpoints := by
    unfold layout outpointsDigest
    split
    · rfl
    · exact length_sha256d _
  sequences := by
    unfold layout sequencesDigest
    split
    · rfl
    · exact length_sha256d _
  code := hcode
  outputs := by
    unfold layout coveredDigest
    split
    · rfl
    · exact length_sha256d _

section Inputs

variable (hacp : t.anyoneCanPay = false)
include hacp

theorem spends_eq_of_digest (hfree : NoCollision (digested tx i t) (digested tx' i t))
    (h : outpointsDigest tx t = outpointsDigest tx' t) :
    tx.inputs.map TxInput.spends = tx'.inputs.map TxInput.spends := by
  have hmem (tx : Transaction) : tx.inputs.flatMap TxInput.outpoint ∈ digested tx i t := by
    simp [digested, hacp]
  rw [outpointsDigest, outpointsDigest, if_neg (by simp [hacp]), if_neg (by simp [hacp])] at h
  exact Takes.map_inj TxInput.outpoint_ne_nil (fun o _ ↦ o.takes_outpoint)
    (fun o _ ↦ o.takes_outpoint) (hfree _ (hmem tx) _ (hmem tx') h)

theorem sequences_eq_of_digest (hfree : NoCollision (digested tx i t) (digested tx' i t))
    (hc : t.coverage = .all) (h : sequencesDigest tx t = sequencesDigest tx' t) :
    tx.inputs.map TxInput.sequence = tx'.inputs.map TxInput.sequence := by
  have hmem (tx : Transaction) :
      (tx.inputs.flatMap fun o ↦ Wire.u32 o.sequence) ∈ digested tx i t := by
    simp [digested, hacp, hc]
  rw [sequencesDigest, sequencesDigest, if_neg (by simp [hacp, hc]),
    if_neg (by simp [hacp, hc])] at h
  have hne (o : TxInput) : Wire.u32 o.sequence ≠ [] := nofun
  exact Takes.map_inj hne (fun o _ ↦ Reader.takes_u32 o.sequence)
    (fun o _ ↦ Reader.takes_u32 o.sequence) (hfree _ (hmem tx) _ (hmem tx') h)

end Inputs

theorem covered_eq_of_digest (hsize : tx.Sized) (hsize' : tx'.Sized)
    (hfree : NoCollision (digested tx i t) (digested tx' i t))
    (h : coveredDigest tx i t = coveredDigest tx' i t) : tx.covered i t = tx'.covered i t := by
  by_cases hc : t.coverage = .none
  · rw [covered_of_none hc, covered_of_none hc]
  have hmem (tx : Transaction) :
      (tx.covered i t).flatMap TxOutput.toBytes ∈ digested tx i t := by
    simp [digested, hc]
  rw [coveredDigest, coveredDigest, if_neg hc, if_neg hc] at h
  have hmap := Takes.map_inj (k := fun o ↦ o) TxOutput.toBytes_ne_nil
    (fun o ho ↦ o.takes_reader (hsize.locking o (mem_outputs_of_mem_covered ho)))
    (fun o ho ↦ o.takes_reader (hsize'.locking o (mem_outputs_of_mem_covered ho)))
    (hfree _ (hmem tx) _ (hmem tx') h)
  rwa [List.map_id', List.map_id'] at hmap

theorem outpointsDigest_congr (h : t.anyoneCanPay = false →
    tx.inputs.map TxInput.spends = tx'.inputs.map TxInput.spends) :
    outpointsDigest tx t = outpointsDigest tx' t := by
  have hspends (tx : Transaction) : tx.inputs.flatMap TxInput.outpoint =
      (tx.inputs.map TxInput.spends).flatMap fun p ↦ p.1.bytes ++ Wire.u32 p.2 := by
    rw [List.flatMap_map]
    rfl
  unfold outpointsDigest
  split
  next => rfl
  next hacp => rw [hspends tx, hspends tx', h (Bool.not_eq_true _ ▸ hacp)]

theorem sequencesDigest_congr (h : t.anyoneCanPay = false → t.coverage = .all →
    tx.inputs.map TxInput.sequence = tx'.inputs.map TxInput.sequence) :
    sequencesDigest tx t = sequencesDigest tx' t := by
  have hsequences (tx : Transaction) : (tx.inputs.flatMap fun o ↦ Wire.u32 o.sequence) =
      (tx.inputs.map TxInput.sequence).flatMap Wire.u32 := by
    rw [List.flatMap_map]
  unfold sequencesDigest
  split
  next => rfl
  next hother =>
    obtain ⟨hacp, hc⟩ := not_or.1 hother
    rw [hsequences tx, hsequences tx', h (Bool.not_eq_true _ ▸ hacp) (not_not.1 hc)]

variable {input input' : TxInput} {code' : Bytes} {satoshis' : UInt64}
  (hi : tx.inputs[i]? = some input) (hi' : tx'.inputs[i]? = some input')
include hi hi'

theorem layout_congr (h : t.Agree i tx tx') :
    layout tx i input code t satoshis = layout tx' i input' code t satoshis := by
  have hspends : input.spends = input'.spends := by simpa [hi, hi'] using h.signed_spends
  have hsequence : input.sequence = input'.sequence := by simpa [hi, hi'] using h.signed_sequence
  have hcovered : tx.covered i t = tx'.covered i t := covered_eq_iff.2 ⟨h.single, h.outputs⟩
  rw [layout, layout, h.version, h.lockTime, outpointsDigest_congr h.spends,
    sequencesDigest_congr h.sequences, coveredDigest, coveredDigest, hcovered, hspends, hsequence]

theorem agree_of_layout (hsize : tx.Sized) (hsize' : tx'.Sized)
    (hfree : NoCollision (digested tx i t) (digested tx' i t))
    (h : layout tx i input code t satoshis = layout tx' i input' code' t satoshis') :
    code = code' ∧ satoshis = satoshis' ∧ t.Agree i tx tx' := by
  rw [layout, layout, Layout.mk.injEq] at h
  obtain ⟨hversion, houtpoints, hsequences, hspends, hcode, hvalue, hsequence, houtputs, hlock,
    -⟩ := h
  obtain ⟨hsingle, hall⟩ := covered_eq_iff.1 (covered_eq_of_digest hsize hsize' hfree houtputs)
  refine ⟨hcode, hvalue, ?_⟩
  exact
    { version := hversion
      lockTime := hlock
      signed_spends := by rw [hi, hi']; exact congrArg some hspends
      signed_sequence := by rw [hi, hi']; exact congrArg some hsequence
      spends := fun hacp ↦ spends_eq_of_digest hacp hfree houtpoints
      sequences := fun hacp hc ↦ sequences_eq_of_digest hacp hfree hc hsequences
      single := hsingle
      outputs := hall }

end Transaction.Protected

open Transaction.Protected in
/-- The replay-protected layout depends on nothing but the type, the script code, the value and
what the type covers; and it commits to all of these, if no strings digested for the two
transactions collide. -/
theorem Transaction.protectedPreimage_commits {tx tx' : Transaction} {i : ℕ} {code code' : Bytes}
    {t t' : SighashType} {satoshis satoshis' : UInt64} (h : t.Applies i tx) (h' : t'.Applies i tx')
    (hsize : tx.Sized) (hsize' : tx'.Sized) (hcode : code.length < 2 ^ 64)
    (hcode' : code'.length < 2 ^ 64) :
    ∃ b b', tx.protectedPreimage i code t satoshis = .ok b ∧
      tx'.protectedPreimage i code' t' satoshis' = .ok b' ∧
      (t = t' → code = code' → satoshis = satoshis' → t.Agree i tx tx' → b = b') ∧
      (NoCollision (digested tx i t) (digested tx' i t') → b = b' →
        t = t' ∧ code = code' ∧ satoshis = satoshis' ∧ t.Agree i tx tx') := by
  obtain ⟨input, hi⟩ := h.exists_input
  obtain ⟨input', hi'⟩ := h'.exists_input
  refine ⟨_, _, preimage_eq h hi, preimage_eq h' hi', ?_, ?_⟩
  · rintro rfl rfl rfl hagree
    rw [layout_congr hi hi' hagree]
  · intro hfree heq
    have hlayout := Layout.toBytes_inj (sized_layout hcode) (sized_layout hcode') heq
    obtain rfl : t = t' := congrArg SighashType.mk (congrArg Layout.bits hlayout)
    exact ⟨rfl, agree_of_layout hi hi' hsize hsize' hfree hlayout⟩

open Transaction.Protected in
theorem Transaction.protectedPreimage_commits_inputs :
    let input (index : UInt32) : TxInput := ⟨⟨List.replicate 32 7, rfl⟩, index, 0, .empty, none⟩
    let tx : Transaction := ⟨1, [input 0], [⟨5, .empty⟩], 0⟩
    let tx' : Transaction := ⟨1, [input 0, input 1], [⟨5, .empty⟩], 0⟩
    (∃ b, tx.protectedPreimage 0 [0xac] ⟨0xc2⟩ 9 = .ok b ∧
        tx'.protectedPreimage 0 [0xac] ⟨0xc2⟩ 9 = .ok b) ∧
      NoCollision (digested tx 0 ⟨0x42⟩) (digested tx' 0 ⟨0x42⟩) ∧
      ∃ b b', tx.protectedPreimage 0 [0xac] ⟨0x42⟩ 9 = .ok b ∧
        tx'.protectedPreimage 0 [0xac] ⟨0x42⟩ 9 = .ok b' ∧ b ≠ b' := by
  intro input tx tx'
  have hsize : tx.Sized := ⟨by decide, by decide, by decide, by decide⟩
  have hsize' : tx'.Sized := ⟨by decide, by decide, by decide, by decide⟩
  have hcode : ([0xac] : Bytes).length < 2 ^ 64 := by decide
  have hpay : SighashType.Applies ⟨0xc2⟩ 0 tx := ⟨by decide, by decide⟩
  have hpay' : SighashType.Applies ⟨0xc2⟩ 0 tx' := ⟨by decide, by decide⟩
  have hnone : SighashType.Applies ⟨0x42⟩ 0 tx := ⟨by decide, by decide⟩
  have hnone' : SighashType.Applies ⟨0x42⟩ 0 tx' := ⟨by decide, by decide⟩
  have hfree : NoCollision (digested tx 0 ⟨0x42⟩) (digested tx' 0 ⟨0x42⟩) := by decide +kernel
  refine ⟨?_, hfree, ?_⟩
  · obtain ⟨b, b', hb, hb', hsame, -⟩ :=
      @protectedPreimage_commits tx tx' 0 _ _ ⟨0xc2⟩ ⟨0xc2⟩ 9 9 hpay hpay' hsize hsize' hcode hcode
    have hagree : SighashType.Agree ⟨0xc2⟩ 0 tx tx' :=
      ⟨rfl, rfl, rfl, rfl, by decide, by decide, by decide, by decide⟩
    exact ⟨b, hb, hsame rfl rfl rfl hagree ▸ hb'⟩
  · obtain ⟨b, b', hb, hb', -, hcommits⟩ :=
      @protectedPreimage_commits tx tx' 0 _ _ ⟨0x42⟩ ⟨0x42⟩ 9 9 hnone hnone' hsize hsize' hcode hcode
    refine ⟨b, b', hb, hb', fun heq ↦ ?_⟩
    have hspends := (hcommits hfree heq).2.2.2.spends (by decide)
    cases hspends

end BitcoinCash
